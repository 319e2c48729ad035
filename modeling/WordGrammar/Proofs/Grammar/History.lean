import WordGrammar.Proofs.Grammar.Closure

/-! A grammar as the record of its changes. What a change adds depends on the
changes before it only through the words that these used, so that the table and
the terminals can be told from the run of changes alone. -/

namespace WordGrammar

namespace Grammar

namespace Change

def words : Change → List Text
  | .addRule _ words => words
  | .augment => []

/-- The symbols that a change touches, in their order. An augmentation touches
the words of the changes before it. -/
def touched (past : List Change) : Change → List Text
  | .addRule symbol _ => [symbol]
  | .augment => (past.flatMap words).eraseDups

def given (k : Text) (past : List Change) : Change → List Alternative
  | .addRule symbol words => if symbol = k then [words.map Symbol.word] else []
  | .augment => if (past.flatMap words).contains k then [[Symbol.literal k]] else []

/-- What the changes of a run add one after the other, each told from all those
before it. -/
def record {α : Type} (f : List Change → Change → List α) (past : List Change) :
    List Change → List α
  | [] => []
  | c :: rest => f past c ++ record f (past ++ [c]) rest

def entries (past : List Change) : Change → List (Text × Alternative)
  | .addRule symbol words => [(symbol, words.map Symbol.word)]
  | .augment => ((past.flatMap words).eraseDups).map literalEntry

theorem map_fst_entries (past : List Change) (c : Change) :
    (c.entries past).map Prod.fst = c.touched past := by
  cases c with
  | addRule symbol words => rfl
  | augment => simp [entries, touched, literalEntry, Function.comp_def]

theorem filter_entries (k : Text) (past : List Change) (c : Change) :
    ((c.entries past).filter (fun e => e.1 = k)).map Prod.snd = c.given k past := by
  cases c with
  | addRule symbol words => by_cases hk : symbol = k <;> simp [entries, given, hk]
  | augment =>
    rw [entries, filter_literalEntry (OrderedSet.nodup_eraseDups _)]
    by_cases hk : k ∈ past.flatMap words <;> simp [given, literalEntry, hk]

theorem record_hom {α β : Type} {F : List α → List β} (hn : F [] = [])
    (ha : ∀ xs ys, F (xs ++ ys) = F xs ++ F ys) {f : List Change → Change → List α}
    {f' : List Change → Change → List β} (hf : ∀ past c, F (f past c) = f' past c)
    (past changes : List Change) : F (record f past changes) = record f' past changes := by
  induction changes generalizing past with
  | nil => exact hn
  | cons c changes ih => rw [record, record, ha, hf, ih]

theorem map_fst_record (past changes : List Change) :
    (record entries past changes).map Prod.fst = record touched past changes :=
  record_hom rfl (fun _ _ => List.map_append) map_fst_entries past changes

theorem filter_record (k : Text) (past changes : List Change) :
    ((record entries past changes).filter (fun e => e.1 = k)).map Prod.snd =
      record (given k) past changes := by
  have ha : ∀ xs ys : List (Text × Alternative),
      ((xs ++ ys).filter (fun e => e.1 = k)).map Prod.snd =
        (xs.filter (fun e => e.1 = k)).map Prod.snd ++ (ys.filter (fun e => e.1 = k)).map Prod.snd := by
    intro xs ys
    rw [List.filter_append, List.map_append]
  exact record_hom (F := fun es => (es.filter (fun e => e.1 = k)).map Prod.snd) rfl ha
    (filter_entries k) past changes

end Change

theorem changeAll_concat (g : Grammar) (changes : List Change) (c : Change) :
    g.changeAll (changes ++ [c]) = (g.changeAll changes).change c :=
  List.foldl_concat change g c changes

theorem terminals_change (g : Grammar) (c : Change) :
    (g.change c).terminals = g.terminals.insertAll c.words := by
  cases c <;> rfl

theorem terminals_changeAll (g : Grammar) (changes : List Change) :
    (g.changeAll changes).terminals = g.terminals.insertAll (changes.flatMap Change.words) := by
  induction changes generalizing g with
  | nil => rfl
  | cons c changes ih =>
    have hh := ih (g.change c)
    rw [terminals_change, ← OrderedSet.insertAll_append] at hh
    exact hh

theorem terminals_changeAll_empty (changes : List Change) :
    (empty.changeAll changes).terminals = (changes.flatMap Change.words).eraseDups := by
  rw [terminals_changeAll]
  exact OrderedSet.insertAll_empty _

theorem rules_change (past : List Change) (c : Change) :
    ((empty.changeAll past).change c).rules =
      (empty.changeAll past).rules.pushAll (c.entries past) := by
  cases c with
  | addRule symbol words => rfl
  | augment =>
    have hr := rules_augment (empty.changeAll past)
    rw [terminals_changeAll_empty] at hr
    exact hr

theorem rules_changeAll (past changes : List Change) :
    ((empty.changeAll past).changeAll changes).rules =
      (empty.changeAll past).rules.pushAll (Change.record Change.entries past changes) := by
  -- Each change moves over into the past, from which the next one is told.
  induction changes generalizing past with
  | nil => rfl
  | cons c changes ih =>
    have hh := ih (past ++ [c])
    rw [changeAll_concat, rules_change, ← Table.pushAll_append] at hh
    exact hh

/-- The terminals are the words of the whole run, the symbols stand in the order
in which they were first touched, and each has just the alternatives that the
changes gave it, in their order. -/
theorem changeAll_eq_record (changes : List Change) :
    (empty.changeAll changes).terminals = (changes.flatMap Change.words).eraseDups ∧
      (empty.changeAll changes).rules.keys =
        (Change.record Change.touched [] changes).eraseDups ∧
      (empty.changeAll changes).rules =
        (empty.changeAll changes).rules.keys.map fun k =>
          (k, Change.record (Change.given k) [] changes) := by
  have hr : (empty.changeAll changes).rules =
      Table.pushAll [] (Change.record Change.entries [] changes) := rules_changeAll [] changes
  have hw : (empty.changeAll changes).rules.WellFormed := (Closed.empty.changeAll changes).rules
  refine ⟨terminals_changeAll_empty changes, ?_, ?_⟩
  · rw [hr, Table.keys_pushAll_nil, Change.map_fst_record]
  · have hg : ∀ k, (empty.changeAll changes).rules.group k =
        Change.record (Change.given k) [] changes := by
      intro k
      rw [hr, Table.group_pushAll_nil, Change.filter_record]
    refine (Table.eq_map_keys hw.nodup_keys).symm.trans ?_
    exact List.map_congr_left (fun k _ => by rw [hg k])

/-- A word that gets a rule only between two augmentations. -/
example :
    let a := "A".toList
    let s := "S".toList
    (empty.changeAll [.addRule s [a, a], .augment, .addRule a [], .augment]).rules =
      [(s, [[.word a, .word a]]), (a, [[.literal a], [], [.literal a]])] := by decide

end Grammar

end WordGrammar
