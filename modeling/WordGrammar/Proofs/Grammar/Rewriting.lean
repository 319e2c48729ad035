import Mathlib.Logic.Relation
import WordGrammar.Proofs.Grammar.Closure
import WordGrammar.Proofs.Grammar.Reading

/-! Rewriting by the rules of a grammar. Editing keeps rules and terminals
together, and in a grammar that was just augmented every alternative made of
words can be rewritten to the literals of these words. -/

namespace WordGrammar

namespace Grammar

/-- One of the words makes way for one of its alternatives. -/
inductive Rewrites (g : Grammar) : Alternative → Alternative → Prop where
  | head {w : Text} {a : Alternative} (h : a ∈ g.rules.group w) (rest : Alternative) :
    g.Rewrites (Symbol.word w :: rest) (a ++ rest)
  | cons (s : Symbol) {a b : Alternative} (h : g.Rewrites a b) : g.Rewrites (s :: a) (s :: b)

structure Covered (g : Grammar) : Prop where
  word : ∀ e ∈ g.rules.entries, ∀ w, Symbol.word w ∈ e.2 →
    w ∈ g.rules.keys ∧ (g.rules.group w).getLast? = some [Symbol.literal w]
  rewrites : ∀ e ∈ g.rules.entries, ∀ ws : List Text, e.2 = ws.map Symbol.word →
    Relation.ReflTransGen g.Rewrites e.2 (ws.map Symbol.literal)

theorem rewrites_words {g : Grammar} {ws : List Text}
    (h : ∀ w ∈ ws, [Symbol.literal w] ∈ g.rules.group w) :
    Relation.ReflTransGen g.Rewrites (ws.map Symbol.word) (ws.map Symbol.literal) := by
  -- The words are rewritten from left to right, each behind the literals made so far.
  induction ws with
  | nil => exact .refl
  | cons w ws ih =>
    have hw : g.Rewrites (Symbol.word w :: ws.map Symbol.word) (Symbol.literal w :: ws.map Symbol.word) :=
      .head (h w List.mem_cons_self) _
    have hh := ih (fun v hv => h v (List.mem_cons_of_mem _ hv))
    exact .head hw (hh.lift (Symbol.literal w :: ·) (fun _ _ hr => .cons _ hr))

theorem group_augment {g : Grammar} (h : g.terminals.Nodup) (k : Text) :
    g.augment.rules.group k =
      g.rules.group k ++ if k ∈ g.terminals then [[Symbol.literal k]] else [] := by
  rw [rules_augment, Table.group_pushAll, filter_literalEntry h]
  by_cases hk : k ∈ g.terminals <;> simp [hk, literalEntry]

theorem Closed.covered_augment {g : Grammar} (h : g.Closed) : g.augment.Covered := by
  have hlast : ∀ e ∈ g.augment.rules.entries, ∀ w, Symbol.word w ∈ e.2 →
      w ∈ g.augment.rules.keys ∧ (g.augment.rules.group w).getLast? = some [Symbol.literal w] := by
    intro e he w hw
    have ht : w ∈ g.terminals := (h.augment.mem_terminals w).mpr ⟨e, he, hw⟩
    refine ⟨mem_keys_augment.mpr (Or.inr ht), ?_⟩
    rw [group_augment h.nodup_terminals, if_pos ht]
    exact List.getLast?_concat
  refine ⟨hlast, ?_⟩
  intro e he ws hws
  rw [hws]
  apply rewrites_words
  intro w hw
  exact List.mem_of_getLast? (hlast e he w (hws ▸ List.mem_map_of_mem hw)).2

theorem Closed.edit {g : Grammar} (h : g.Closed) (e : Edit) : (g.edit e).Closed := by
  cases e with
  | clear => exact Closed.empty
  | change c => exact h.change c
  | load file text =>
    cases hr : read file text with
    | error faults =>
      have he : g.edit (.load file text) = g := by simp only [Grammar.edit, Edit.apply, hr]
      rw [he]
      exact h
    | ok g' =>
      have he : g.edit (.load file text) = g' := by simp only [Grammar.edit, Edit.apply, hr]
      obtain ⟨rules, -, rfl⟩ := read_eq_ok_iff.mp hr
      rw [he]
      exact closed_ofRules rules

theorem Closed.editAll {g : Grammar} (h : g.Closed) (edits : List Edit) :
    (g.editAll edits).Closed := by
  induction edits generalizing g with
  | nil => exact h
  | cons e edits ih => exact ih (h.edit e)

/-- Whatever edits are made, rules and terminals stay together, and after an
augmentation every word leads to its literal. -/
theorem editAll_closed_covered (edits : List Edit) :
    (empty.editAll edits).Closed ∧ (empty.editAll (edits ++ [.change .augment])).Covered := by
  have h : (empty.editAll edits).Closed := Closed.empty.editAll edits
  have ha : empty.editAll (edits ++ [.change .augment]) = (empty.editAll edits).augment :=
    List.foldl_concat edit empty (.change .augment) edits
  rw [ha]
  exact ⟨h, h.covered_augment⟩

end Grammar

end WordGrammar
