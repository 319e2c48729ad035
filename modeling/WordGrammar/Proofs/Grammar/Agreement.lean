import WordGrammar.Proofs.Grammar.Reordering
import WordGrammar.Proofs.Grammar.Rewriting
import WordGrammar.Proofs.Report

/-! Grammars that are the same stay the same. They may have their symbols and
their terminals in different orders, and an augmentation goes through the
terminals in just these orders, but all that comes of it is another order of the
groups in which the alternatives are printed. -/

namespace WordGrammar

namespace Grammar

theorem Closed.mem_terminals_iff_of_same {g h : Grammar} (hg : g.Closed) (hh : h.Closed)
    (hs : g.same h = true) (t : Text) : t ∈ g.terminals ↔ t ∈ h.terminals := by
  rw [same, Bool.and_eq_true] at hs
  exact (OrderedSet.same_iff hg.nodup_terminals hh.nodup_terminals).mp hs.2 t

theorem Closed.same_change {g h : Grammar} (hg : g.Closed) (hh : h.Closed)
    (hs : g.same h = true) (c : Change) : (g.change c).same (h.change c) = true := by
  have hk := (hg.same_iff hh).mp hs
  apply ((hg.change c).same_iff (hh.change c)).mpr
  intro k
  cases c with
  | addRule symbol words =>
    simp only [Grammar.change, Grammar.addRule, Table.group_push, hk]
  | augment =>
    have ht := hg.mem_terminals_iff_of_same hh hs k
    simp only [Grammar.change, group_augment hg.nodup_terminals, group_augment hh.nodup_terminals,
      hk, ht]

theorem Closed.same_changeAll {g h : Grammar} (hg : g.Closed) (hh : h.Closed)
    (hs : g.same h = true) (cs : List Change) : (g.changeAll cs).same (h.changeAll cs) = true := by
  induction cs generalizing g h with
  | nil => exact hs
  | cons c cs ih => exact ih (hg.change c) (hh.change c) (hg.same_change hh hs c)

theorem Closed.reordered_entries {g h : Grammar} (hg : g.Closed) (hh : h.Closed)
    (hs : g.same h = true) : Reordered Prod.fst g.rules.entries h.rules.entries := by
  apply Reordered.of_filter_eq
  intro k
  rw [hg.rules.filter_entries, hh.rules.filter_entries, (hg.same_iff hh).mp hs k]

/-- Whatever edits have led to two grammars that are the same, the same further
changes lead to grammars that are the same. What these print has the same lines in
another order, in which the alternatives of each symbol come one after the other as
before. -/
theorem same_changeAll_of_same {edits others : List Edit}
    (hs : (empty.editAll edits).same (empty.editAll others) = true) (changes : List Change) :
    let g := (empty.editAll edits).changeAll changes
    let h := (empty.editAll others).changeAll changes
    g.same h = true ∧ Reordered Prod.fst g.rules.entries h.rules.entries ∧
      Sink.collect .unlimited g.print = (Text.utf8 (printed
        (g.rules.entries.map fun e => Alternative.render e.1 e.2)), none) ∧
      Sink.collect .unlimited h.print = (Text.utf8 (printed
        (h.rules.entries.map fun e => Alternative.render e.1 e.2)), none) := by
  intro g h
  have he : ∀ es, (empty.editAll es).Closed := Closed.empty.editAll
  have hg : g.Closed := (he edits).changeAll changes
  have hh : h.Closed := (he others).changeAll changes
  have hgh : g.same h = true := (he edits).same_changeAll (he others) hs changes
  refine ⟨hgh, hg.reordered_entries hh hgh, ?_, ?_⟩
  · rw [collect_print, lines_eq_map_entries]
  · rw [collect_print, lines_eq_map_entries]

/-- Symbols and terminals in other orders, a text that cannot be loaded, and a
word that gets a rule only between two augmentations. -/
theorem same_changeAll_of_same_moved :
    let edits : List Edit := [.load ⟨['g']⟩ "S => AB\nT => B".toList, .load ⟨['g']⟩ ['x']]
    let others : List Edit :=
      [.change (.addRule ['T'] [['B']]), .change (.addRule ['S'] [['A'], ['B']])]
    let changes : List Change := [.augment, .addRule ['A'] [['C']], .augment]
    let g := (empty.editAll edits).changeAll changes
    let h := (empty.editAll others).changeAll changes
    (empty.editAll edits).same (empty.editAll others) = true ∧
      g.rules.keys = [['S'], ['T'], ['A'], ['B'], ['C']] ∧ g.terminals = [['A'], ['B'], ['C']] ∧
      h.rules.keys = [['T'], ['S'], ['B'], ['A'], ['C']] ∧ h.terminals = [['B'], ['A'], ['C']] ∧
      g.same h = true ∧ Reordered Prod.fst g.rules.entries h.rules.entries ∧
      Sink.collect .unlimited h.print = (Text.utf8 (printed
        (h.rules.entries.map fun e => Alternative.render e.1 e.2)), none) := by
  intro edits others changes g h
  have hs : (empty.editAll edits).same (empty.editAll others) = true := rfl
  obtain ⟨hgh, hr, -, hp⟩ := same_changeAll_of_same hs changes
  exact ⟨hs, rfl, rfl, rfl, rfl, hgh, hr, hp⟩

end Grammar

end WordGrammar
