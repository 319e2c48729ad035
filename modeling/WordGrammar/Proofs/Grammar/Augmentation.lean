import Mathlib.Data.List.Flatten
import WordGrammar.Proofs.Grammar.Legible

/-! The printed form of an augmented grammar, told from the rules it was read
from. The line of a rule is never the line of a literal, since the last capital
of the one follows a blank and that of the other a quotation mark. -/

namespace WordGrammar

namespace Rule

def line (r : Rule) : Text :=
  r.symbol ++ " : ".toList ++ joinWords r.words

def symbols (rules : List Rule) : List Text :=
  (rules.map Rule.symbol).eraseDups

def wordsUsed (rules : List Rule) : List Text :=
  (rules.flatMap Rule.words).eraseDups

/-- For each symbol the lines of its rules, and its literal if it is used as a
word; then the literals of the other words. -/
def augmentedLines (rules : List Rule) : List Text :=
  ((symbols rules).flatMap fun s =>
    (rules.filter (fun r => r.symbol = s)).map line ++
      if s ∈ wordsUsed rules then [literalLine s] else []) ++
  ((wordsUsed rules).filter (· ∉ symbols rules)).map literalLine

theorem map_render_entry (rules : List Rule) :
    (rules.map entry).map (fun e => Alternative.render e.1 e.2) = rules.map line := by
  simp [Function.comp_def, entry, line]

end Rule

namespace Text

end Text

namespace Rule

def augmentedEntries (rules : List Rule) : List (Text × Alternative) :=
  rules.map entry ++ (wordsUsed rules).map Grammar.literalEntry

theorem keys_augmentedEntries (rules : List Rule) :
    ((augmentedEntries rules).map Prod.fst).eraseDups =
      symbols rules ++ (wordsUsed rules).filter (· ∉ symbols rules) := by
  have hm : (augmentedEntries rules).map Prod.fst = rules.map symbol ++ wordsUsed rules := by
    simp [augmentedEntries, Function.comp_def, entry, Grammar.literalEntry]
  have hn : (wordsUsed rules).Nodup := OrderedSet.nodup_eraseDups _
  rw [hm, ← OrderedSet.insertAll_empty, OrderedSet.insertAll_append, OrderedSet.insertAll_empty,
    OrderedSet.insertAll_of_nodup _ hn]
  rfl

theorem map_render_augmentedEntries (rules : List Rule) (s : Text) :
    ((augmentedEntries rules).filter (fun e => e.1 = s)).map (fun e => Alternative.render e.1 e.2) =
      (rules.filter (fun r => r.symbol = s)).map line ++
        if s ∈ wordsUsed rules then [literalLine s] else [] := by
  have hn : (wordsUsed rules).Nodup := OrderedSet.nodup_eraseDups _
  rw [augmentedEntries, List.filter_append, Grammar.filter_literalEntry hn, List.map_append, filter_entry,
    map_render_entry]
  by_cases hs : s ∈ wordsUsed rules
  · simp [hs, Grammar.literalEntry]
  · simp [hs]

theorem filter_symbol_eq_nil {rules : List Rule} {s : Text} (h : s ∉ symbols rules) :
    rules.filter (fun r => r.symbol = s) = [] := by
  apply List.filter_eq_nil_iff.mpr
  intro r hr he
  have hs : r.symbol = s := of_decide_eq_true he
  exact h (List.mem_eraseDups.mpr (hs ▸ List.mem_map_of_mem hr))

end Rule

namespace Grammar

theorem rules_augment_ofRules (rules : List Rule) :
    (ofRules rules).augment.rules = Table.pushAll [] (Rule.augmentedEntries rules) := by
  rw [rules_augment, rules_ofRules, terminals_ofRules, Rule.augmentedEntries, Table.pushAll_append]
  rfl

theorem lines_augment_ofRules (rules : List Rule) :
    (ofRules rules).augment.lines = Rule.augmentedLines rules := by
  rw [lines_eq_map_entries, rules_augment_ofRules, Table.entries_pushAll_nil, List.map_flatMap,
    Rule.keys_augmentedEntries]
  simp only [Rule.map_render_augmentedEntries, List.flatMap_append, Rule.augmentedLines]
  congr 1
  rw [List.map_eq_flatMap]
  apply List.flatMap_congr
  intro s hs
  obtain ⟨hu, hns⟩ := List.mem_filter.mp hs
  rw [Rule.filter_symbol_eq_nil (of_decide_eq_true hns), if_pos hu]
  rfl

theorem length_augmentedLines (rules : List Rule) :
    (Rule.augmentedLines rules).length = rules.length + (Rule.wordsUsed rules).length := by
  have hp := Table.entries_pushAll_perm [] (Rule.augmentedEntries rules)
  rw [← rules_augment_ofRules] at hp
  have hh := hp.length_eq
  rw [← lines_augment_ofRules, lines_eq_map_entries, List.length_map, hh]
  simp [Rule.augmentedEntries]

end Grammar

end WordGrammar
