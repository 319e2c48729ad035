import WordGrammar.Grammar.Edit
import WordGrammar.Proofs.Table
import WordGrammar.Proofs.Text.Lines
import WordGrammar.Proofs.Text.Split
import WordGrammar.Proofs.Text.Words

/-! Accepted rule texts. A text is accepted when each of its lines is a rule,
and the grammar read from it has the entries of these rules, grouped by symbol. -/

namespace WordGrammar

namespace Rule

/-- What a line of a text makes sure of in its rule. -/
structure Legible (r : Rule) : Prop where
  symbol_lineFeed : '\n' ∉ r.symbol
  symbol_first : Text.FirstBehind arrow r.symbol
  word : ∀ w ∈ r.words, Text.IsWord w ∧ '\n' ∉ w ∧ ¬ arrow <:+: w

theorem Legible.isWord {r : Rule} (h : r.Legible) : ∀ w ∈ r.words, Text.IsWord w :=
  fun w hw => (h.word w hw).1

/-- The alternative that a rule gives its symbol. -/
def entry (r : Rule) : Text × Alternative :=
  (r.symbol, r.words.map Symbol.word)

/-- The rules put together by symbol, symbols in the order of their first rule. -/
def grouped (rules : List Rule) : List Rule :=
  (rules.map Rule.symbol).eraseDups.flatMap fun s => rules.filter (fun r => r.symbol = s)

theorem arrow_ne_nil : arrow ≠ [] := by simp [arrow]

theorem ofLine_eq_ok_iff {line : Text} {r : Rule} :
    ofLine line = .ok r ↔ ∃ body, line = r.symbol ++ arrow ++ body ∧
      Text.FirstBehind arrow r.symbol ∧ ¬ arrow <:+: body ∧ r.words = body.words := by
  constructor
  · intro h
    unfold ofLine at h
    split at h
    · rename_i symbol body hs
      obtain ⟨hl, hf, hb⟩ := (Text.split_eq_pair_iff arrow_ne_nil).mp hs
      cases h
      exact ⟨body, hl, hf, hb, rfl⟩
    · cases h
    · cases h
  · rintro ⟨body, hl, hf, hb, hw⟩
    have hs := (Text.split_eq_pair_iff arrow_ne_nil).mpr ⟨hl, hf, hb⟩
    obtain ⟨symbol, words⟩ := r
    dsimp only at hs hw
    simp only [ofLine, hs, hw]

theorem legible_of_ofLine {line : Text} {r : Rule} (hn : '\n' ∉ line) (h : ofLine line = .ok r) :
    r.Legible := by
  obtain ⟨body, rfl, hf, hb, hw⟩ := ofLine_eq_ok_iff.mp h
  refine ⟨fun hm => hn (by simp [hm]), hf, ?_⟩
  intro w hm
  rw [hw] at hm
  have hi := Text.infix_of_mem_words hm
  refine ⟨Text.isWord_of_mem_words hm, ?_, fun ha => hb (ha.trans hi)⟩
  intro hl
  exact hn (List.mem_append_right _ (hi.subset hl))

theorem map_ofLine_eq_iff {ls : List Text} {rules : List Rule} :
    ls.map ofLine = rules.map .ok ↔
      (∀ l ∈ ls, ∃ r, ofLine l = .ok r) ∧ ls.filterMap ofLine? = rules := by
  induction ls generalizing rules with
  | nil => simp [eq_comm]
  | cons l ls ih =>
    cases hl : ofLine l with
    | error p => cases rules <;> simp [hl]
    | ok r =>
      have ho : ofLine? l = some r := by simp [ofLine?, hl, Except.toOption]
      cases rules with
      | nil => simp [ho]
      | cons q rules =>
        simp only [List.map_cons, hl, List.cons.injEq, Except.ok.injEq, ih, List.forall_mem_cons,
          exists_eq', true_and, List.filterMap_cons, ho]
        exact and_left_comm

theorem mem_grouped {rules : List Rule} {r : Rule} : r ∈ grouped rules ↔ r ∈ rules := by
  simp only [grouped, List.mem_flatMap, List.mem_eraseDups, List.mem_filter, decide_eq_true_eq]
  constructor
  · rintro ⟨_, -, hr, -⟩
    exact hr
  · intro hr
    exact ⟨r.symbol, List.mem_map_of_mem hr, hr, rfl⟩

theorem filter_entry (rules : List Rule) (s : Text) :
    (rules.map entry).filter (fun e => e.1 = s) = (rules.filter (fun r => r.symbol = s)).map entry :=
  List.filter_map

end Rule

namespace Grammar

theorem changeAll_addRule (g : Grammar) (rules : List Rule) :
    g.changeAll (rules.map fun r => .addRule r.symbol r.words) =
      ⟨g.rules.pushAll (rules.map Rule.entry), g.terminals.insertAll (rules.flatMap Rule.words)⟩ := by
  induction rules generalizing g with
  | nil => rfl
  | cons r rules ih =>
    have hh := ih (g.addRule r.symbol r.words)
    have hw : (r :: rules).flatMap Rule.words = r.words ++ rules.flatMap Rule.words := by simp
    rw [hw, OrderedSet.insertAll_append]
    exact hh

theorem rules_ofRules (rules : List Rule) :
    (ofRules rules).rules = Table.pushAll [] (rules.map Rule.entry) := by
  rw [ofRules, changeAll_addRule]
  rfl

theorem terminals_ofRules (rules : List Rule) :
    (ofRules rules).terminals = (rules.flatMap Rule.words).eraseDups := by
  rw [ofRules, changeAll_addRule]
  exact OrderedSet.insertAll_empty (rules.flatMap Rule.words)

theorem entries_ofRules (rules : List Rule) :
    (ofRules rules).rules.entries = (Rule.grouped rules).map Rule.entry := by
  have hs : (rules.map Rule.entry).map Prod.fst = rules.map Rule.symbol := by
    rw [List.map_map]
    rfl
  rw [rules_ofRules, Table.entries_pushAll_nil, Rule.grouped, List.map_flatMap, hs]
  simp only [Rule.filter_entry]

theorem faults_eq_nil_iff {file : Path} {lines : List Text} {n : Nat} :
    faults file lines n = [] ↔ ∀ l ∈ lines, ∃ r, Rule.ofLine l = .ok r := by
  have hl : lines = (lines.zipIdx n).map Prod.fst := (List.zipIdx_map_fst n lines).symm
  have hf : ∀ l : Text × Nat, Rule.fault? file l.1 l.2 = none ↔ ∃ r, Rule.ofLine l.1 = .ok r := by
    intro l
    cases ho : Rule.ofLine l.1 <;> simp [Rule.fault?, ho]
  rw [faults, List.filterMap_eq_nil_iff]
  simp only [hf]
  conv_rhs => rw [hl]
  rw [List.forall_mem_map]

/-- A text is accepted when all its lines are rules. -/
theorem read_eq_ok_iff {file : Path} {text : Text} {g : Grammar} :
    read file text = .ok g ↔
      ∃ rules : List Rule, (Text.lines text).map Rule.ofLine = rules.map .ok ∧ g = ofRules rules := by
  simp only [Rule.map_ofLine_eq_iff, ← @faults_eq_nil_iff file _ 1]
  rw [read_eq_ite]
  constructor
  · intro h
    split at h
    · rename_i hf
      cases h
      exact ⟨_, ⟨hf, rfl⟩, rfl⟩
    · cases h
  · rintro ⟨rules, ⟨hf, rfl⟩, rfl⟩
    rw [if_pos hf]

theorem legible_of_lines {text : Text} {rules : List Rule}
    (h : (Text.lines text).map Rule.ofLine = rules.map .ok) : ∀ r ∈ rules, r.Legible := by
  intro r hr
  have hm : (Except.ok r : Except Problem Rule) ∈ rules.map .ok := List.mem_map_of_mem hr
  rw [← h] at hm
  obtain ⟨l, hl, ho⟩ := List.mem_map.mp hm
  exact Rule.legible_of_ofLine (Text.lineFeed_not_mem_of_mem_lines hl) ho

end Grammar

end WordGrammar
