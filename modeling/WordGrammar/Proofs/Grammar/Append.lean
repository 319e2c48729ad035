import WordGrammar.Proofs.Grammar.Closure
import WordGrammar.Proofs.Grammar.Reading

/-! A text read block by block. A block of whole lines in front of another text
moves what is wrong with that text further down, and puts its own symbols,
alternatives and terminals in front. Nothing else comes of reading them together. -/

namespace WordGrammar

def Diagnostic.moveDown (lines : Nat) (d : Diagnostic) : Diagnostic :=
  ⟨⟨d.location.file, d.location.line + lines⟩, d.problem⟩

theorem Rule.fault?_add (file : Path) (line : Text) (number n : Nat) :
    fault? file line (number + n) = (fault? file line number).map (Diagnostic.moveDown n) := by
  unfold fault?
  cases ofLine line <;> rfl

namespace Grammar

/-- What is wrong with a text; nothing, if a grammar can be read from it. -/
def readFaults (file : Path) (text : Text) : List Diagnostic :=
  match read file text with
  | .ok _ => []
  | .error found => found

theorem faults_add (file : Path) (lines : List Text) (first n : Nat) :
    faults file lines (first + n) = (faults file lines first).map (Diagnostic.moveDown n) := by
  induction lines generalizing first with
  | nil => rfl
  | cons l lines ih =>
    have hh := ih (first + 1)
    rw [Nat.add_right_comm] at hh
    simp only [faults] at hh
    simp only [faults, List.zipIdx_cons, List.filterMap_cons, Rule.fault?_add, hh]
    cases Rule.fault? file l first <;> rfl

theorem faults_append (file : Path) (ls ms : List Text) (first : Nat) :
    faults file (ls ++ ms) first =
      faults file ls first ++ (faults file ms first).map (Diagnostic.moveDown ls.length) := by
  rw [← faults_add, faults, List.zipIdx_append, List.filterMap_append]
  rfl

theorem readFaults_eq (file : Path) (text : Text) :
    readFaults file text = faults file (Text.lines text) 1 := by
  rw [readFaults, read_eq_ite]
  by_cases hf : faults file (Text.lines text) 1 = []
  · rw [if_pos hf, hf]
  · rw [if_neg hf]

theorem read_eq_error_iff {file : Path} {text : Text} {ds : List Diagnostic} :
    read file text = .error ds ↔ readFaults file text = ds ∧ ds ≠ [] := by
  rw [readFaults_eq, read_eq_ite]
  constructor
  · intro h
    split at h
    · cases h
    · rename_i hf
      cases h
      exact ⟨rfl, hf⟩
  · rintro ⟨rfl, hf⟩
    rw [if_neg hf]

theorem exists_read_eq_error_iff {file : Path} {text : Text} :
    (∃ ds, read file text = .error ds) ↔ readFaults file text ≠ [] := by
  simp [read_eq_error_iff]

theorem readFaults_append (file : Path) {s : Text} (h : s = [] ∨ s.getLast? = some '\n') (t : Text) :
    readFaults file (s ++ t) =
      readFaults file s ++ (readFaults file t).map (Diagnostic.moveDown (List.count '\n' s)) := by
  rw [readFaults_eq, readFaults_eq, readFaults_eq, Text.lines_append h, faults_append,
    Text.length_lines h]

theorem ofRules_append (rs qs : List Rule) :
    ofRules (rs ++ qs) =
      (ofRules rs).changeAll (qs.map fun r => .addRule r.symbol r.words) := by
  rw [ofRules, List.map_append]
  exact List.foldl_append

theorem rules_ofRules_append (rs qs : List Rule) :
    (ofRules (rs ++ qs)).rules = (ofRules rs).rules.merge (ofRules qs).rules := by
  rw [ofRules_append, changeAll_addRule]
  dsimp only
  rw [(closed_ofRules rs).rules.pushAll_eq_merge, ← rules_ofRules]

theorem terminals_ofRules_append (rs qs : List Rule) :
    (ofRules (rs ++ qs)).terminals =
      (ofRules rs).terminals ++ (ofRules qs).terminals.filter (· ∉ (ofRules rs).terminals) := by
  rw [ofRules_append, changeAll_addRule]
  dsimp only
  rw [OrderedSet.insertAll_eq_append_filter, OrderedSet.insertAll_empty, ← terminals_ofRules]

/-- A block of whole lines and what is behind it are faulty together if one of
them is, with the faults of both. Otherwise the grammars of the two are merged:
symbols and terminals that both have stand where the first has them, and the
alternatives of the first come before those of the second. -/
theorem read_append {file : Path} {s : Text} (hs : s = [] ∨ s.getLast? = some '\n') (t : Text) :
    ((∃ ds, read file (s ++ t) = .error ds) ↔
      (∃ ds, read file s = .error ds) ∨ ∃ ds, read file t = .error ds) ∧
    (∀ ds, read file (s ++ t) = .error ds →
      ds = readFaults file s ++
        (readFaults file t).map (Diagnostic.moveDown (List.count '\n' s))) ∧
    (∀ g h, read file s = .ok g → read file t = .ok h →
      ∃ m, read file (s ++ t) = .ok m ∧
        m.rules.keys = g.rules.keys ++ h.rules.keys.filter (· ∉ g.rules.keys) ∧
        (∀ k, m.rules.group k = g.rules.group k ++ h.rules.group k) ∧
        m.terminals = g.terminals ++ h.terminals.filter (· ∉ g.terminals)) := by
  refine ⟨?_, ?_, ?_⟩
  · simp only [exists_read_eq_error_iff, readFaults_append file hs, ne_eq, List.append_eq_nil_iff,
      List.map_eq_nil_iff, not_and_or]
  · intro ds hd
    rw [← readFaults_append file hs]
    exact (read_eq_error_iff.mp hd).1.symm
  · intro g h hg hh
    obtain ⟨rs, hrs, rfl⟩ := read_eq_ok_iff.mp hg
    obtain ⟨qs, hqs, rfl⟩ := read_eq_ok_iff.mp hh
    have hl : (Text.lines (s ++ t)).map Rule.ofLine = (rs ++ qs).map .ok := by
      rw [Text.lines_append hs, List.map_append, List.map_append, hrs, hqs]
    refine ⟨ofRules (rs ++ qs), read_eq_ok_iff.mpr ⟨rs ++ qs, hl, rfl⟩, ?_, ?_,
      terminals_ofRules_append rs qs⟩
    · rw [rules_ofRules_append, Table.keys_merge]
    · intro k
      rw [rules_ofRules_append, Table.group_merge]

/-- A symbol and terminals that both texts have, and faults in both. -/
theorem read_append_shared_symbol :
    let file : Path := ⟨"g".toList⟩
    let s := "S => AB\r\nT => A\n".toList
    let t := "T => CA\nA => C".toList
    let faulty := "S\nT => A\n\n".toList
    let other := "A => B\nA => B => C\n".toList
    let found : List Diagnostic :=
      [⟨⟨file, 1⟩, .missingArrow⟩, ⟨⟨file, 3⟩, .missingArrow⟩, ⟨⟨file, 5⟩, .repeatedArrow⟩]
    s.getLast? = some '\n' ∧ faulty.getLast? = some '\n' ∧
      (∃ g h, read file s = .ok g ∧ read file t = .ok h ∧ ∃ m, read file (s ++ t) = .ok m ∧
        m.rules.keys = [['S'], ['T'], ['A']] ∧
        m.rules.group ['T'] = [[.word ['A']], [.word ['C'], .word ['A']]] ∧
        m.terminals = [['A'], ['B'], ['C']]) ∧
      (∃ ds, read file (faulty ++ other) = .error ds) ∧
      ∀ ds, read file (faulty ++ other) = .error ds → ds = found := by
  intro file s t faulty other found
  obtain ⟨-, -, ho⟩ := @read_append file s (Or.inr rfl) t
  obtain ⟨hf, he, -⟩ := @read_append file faulty (Or.inr rfl) other
  obtain ⟨m, hm, hk, hg, ht⟩ := ho _ _ rfl rfl
  exact ⟨rfl, rfl, ⟨_, _, rfl, rfl, m, hm, hk, hg ['T'], ht⟩, hf.mpr (Or.inl ⟨_, rfl⟩), he⟩

end Grammar

end WordGrammar
