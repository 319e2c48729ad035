import Mathlib.Data.List.FinRange
import Mathlib.Data.List.Sort
import Mathlib.Logic.Equiv.Fin.Basic
import WordGrammar.Proofs.Grammar.Closure
import WordGrammar.Proofs.Grammar.LineEnds

/-! Which orders of rules matter. A grammar is told, up to the order of its
symbols and terminals, by the right-hand sides that each symbol was given one
after the other. Rules of different symbols may change places, rules of one
symbol may not. -/

namespace WordGrammar

/-- The members of `xs` stand in `ys` in some other order, in which those of one
key come one after the other as before. -/
def Reordered {α κ : Type} (key : α → κ) (xs ys : List α) : Prop :=
  ∃ σ : Fin xs.length ≃ Fin ys.length, (∀ i, ys.get (σ i) = xs.get i) ∧
    ∀ i j, i < j → key (xs.get i) = key (xs.get j) → σ i < σ j

section

variable {α κ : Type} {key : α → κ} {xs ys zs : List α}

theorem Reordered.mem (h : Reordered key xs ys) {y : α} (hy : y ∈ ys) : y ∈ xs := by
  obtain ⟨σ, hget, -⟩ := h
  obtain ⟨j, rfl⟩ := List.mem_iff_get.mp hy
  rw [← σ.apply_symm_apply j, hget]
  exact List.get_mem xs _

theorem filter_eq_map_get (p : α → Bool) (xs : List α) :
    xs.filter p = ((List.finRange xs.length).filter (p ∘ xs.get)).map xs.get := by
  rw [← List.filter_map, List.map_get_finRange]

theorem Reordered.filter_eq [DecidableEq κ] (h : Reordered key xs ys) (k : κ) :
    xs.filter (fun x => key x = k) = ys.filter (fun y => key y = k) := by
  obtain ⟨σ, hget, hlt⟩ := h
  let is := (List.finRange xs.length).filter ((fun x => decide (key x = k)) ∘ xs.get)
  let js := (List.finRange ys.length).filter ((fun y => decide (key y = k)) ∘ ys.get)
  have hi : ∀ i, i ∈ is ↔ key (xs.get i) = k := by simp [is]
  have hj : ∀ j, j ∈ js ↔ key (ys.get j) = k := by simp [js]
  -- The places of one key are carried over in ascending order.
  have hmono : (is.map σ).Pairwise (· < ·) := by
    have hs : is.Pairwise (· < ·) := (List.pairwise_lt_finRange _).filter _
    refine List.pairwise_map.mpr (hs.imp_of_mem ?_)
    intro a b ha hb hab
    exact hlt a b hab (((hi a).mp ha).trans ((hi b).mp hb).symm)
  have hsort : js.Pairwise (· < ·) := (List.pairwise_lt_finRange _).filter _
  have hmem : ∀ j, j ∈ is.map σ ↔ j ∈ js := by
    intro j
    rw [← σ.apply_symm_apply j, List.mem_map_of_injective σ.injective, hi, hj, hget]
  have hmap : is.map σ = js := hmono.eq_of_mem_iff hsort hmem
  have hc : ys.get ∘ σ = xs.get := funext hget
  rw [filter_eq_map_get _ xs, filter_eq_map_get _ ys]
  change is.map xs.get = js.map ys.get
  rw [← hmap, List.map_map, hc]

theorem Reordered.refl (key : α → κ) (xs : List α) : Reordered key xs xs :=
  ⟨Equiv.refl _, fun _ => rfl, fun _ _ h _ => h⟩

theorem Reordered.trans (h : Reordered key xs ys) (h' : Reordered key ys zs) :
    Reordered key xs zs := by
  obtain ⟨σ, hget, hlt⟩ := h
  obtain ⟨τ, hget', hlt'⟩ := h'
  refine ⟨σ.trans τ, fun i => (hget' (σ i)).trans (hget i), ?_⟩
  intro i j hij hk
  apply hlt' _ _ (hlt i j hij hk)
  rwa [hget, hget]

theorem Reordered.cons (h : Reordered key xs ys) (x : α) : Reordered key (x :: xs) (x :: ys) := by
  obtain ⟨σ, hget, hlt⟩ := h
  let τ : Fin (xs.length + 1) ≃ Fin (ys.length + 1) :=
    (finSuccEquiv xs.length).trans (σ.optionCongr.trans (finSuccEquiv ys.length).symm)
  have hz : τ 0 = 0 := by simp [τ]
  have hs : ∀ i, τ (Fin.succ i) = Fin.succ (σ i) := by simp [τ]
  refine ⟨τ, ?_, ?_⟩
  · intro i
    cases i using Fin.cases with
    | zero => rw [hz]; rfl
    | succ i => rw [hs]; exact hget i
  · intro i j hij hk
    cases j using Fin.cases with
    | zero => exact absurd hij (Fin.not_lt_zero i)
    | succ j =>
      rw [hs]
      cases i using Fin.cases with
      | zero =>
        rw [hz]
        exact Fin.succ_pos _
      | succ i =>
        rw [hs]
        exact Fin.succ_lt_succ_iff.mpr (hlt i j (Fin.succ_lt_succ_iff.mp hij) hk)

theorem Reordered.swap {x y : α} (h : key x ≠ key y) (xs : List α) :
    Reordered key (x :: y :: xs) (y :: x :: xs) := by
  let τ : Fin (xs.length + 2) ≃ Fin (xs.length + 2) := Equiv.swap 0 1
  have hs : ∀ i : Fin xs.length, τ i.succ.succ = i.succ.succ := by
    intro i
    apply Equiv.swap_apply_of_ne_of_ne <;> simp [Fin.ext_iff]
  have h0 : τ 0 = 1 := Equiv.swap_apply_left 0 1
  have h1 : τ (Fin.succ 0) = 0 := Equiv.swap_apply_right 0 1
  refine ⟨τ, ?_, ?_⟩
  · intro i
    cases i using Fin.cases with
    | zero => rw [h0]; rfl
    | succ i =>
      cases i using Fin.cases with
      | zero => rw [h1]; rfl
      | succ i => rw [hs]; rfl
  · intro i j hij hk
    cases j using Fin.cases with
    | zero => exact absurd hij (Fin.not_lt_zero i)
    | succ j =>
      cases j using Fin.cases with
      | zero =>
        -- The two keys that change places are different.
        have hi : i = 0 := Fin.ext (Nat.lt_one_iff.mp hij)
        subst hi
        exact absurd hk h
      | succ j =>
        rw [hs]
        cases i using Fin.cases with
        | zero => rw [h0]; exact Fin.succ_lt_succ_iff.mpr (Fin.succ_pos j)
        | succ i =>
          cases i using Fin.cases with
          | zero => rw [h1]; exact Fin.succ_pos _
          | succ i => rw [hs]; exact hij

theorem Reordered.move {x : α} (h : ∀ y ∈ ys, key x ≠ key y) (zs : List α) :
    Reordered key (x :: (ys ++ zs)) (ys ++ x :: zs) := by
  induction ys with
  | nil => exact Reordered.refl key _
  | cons y ys ih =>
    have hh := ih (fun z hz => h z (List.mem_cons_of_mem _ hz))
    exact (Reordered.swap (h y List.mem_cons_self) (ys ++ zs)).trans (hh.cons y)

theorem Reordered.of_filter_eq [DecidableEq κ]
    (h : ∀ k, xs.filter (fun x => key x = k) = ys.filter (fun y => key y = k)) :
    Reordered key xs ys := by
  induction xs generalizing ys with
  | nil =>
    cases ys with
    | nil => exact Reordered.refl key []
    | cons y ys => simpa using h (key y)
  | cons x xs ih =>
    have hx := h (key x)
    rw [List.filter_cons_of_pos (by simp)] at hx
    obtain ⟨p, q, rfl, hp, -, hq⟩ := List.filter_eq_cons_iff.mp hx.symm
    have hne : ∀ y ∈ p, key x ≠ key y := fun y hy he => hp y hy (by simpa using he.symm)
    have hrest : ∀ k, xs.filter (fun x => key x = k) = (p ++ q).filter (fun y => key y = k) := by
      intro k
      have hk := (h k).trans ((Reordered.move hne q).filter_eq k).symm
      by_cases he : key x = k
      · simpa [he] using hk
      · simpa [he] using hk
    exact ((ih hrest).cons x).trans (Reordered.move hne q)

end

namespace Rule

/-- The right-hand sides that rules give to a symbol, one after the other. -/
def givenTo (s : Text) (rules : List Rule) : List (List Text) :=
  (rules.filter (fun r => r.symbol = s)).map words

def lineSymbol? (line : Text) : Option Text :=
  (ofLine? line).map symbol

theorem givenTo_append (s : Text) (rules others : List Rule) :
    givenTo s (rules ++ others) = givenTo s rules ++ givenTo s others := by
  simp [givenTo]

theorem givenTo_cons_self (s : Text) (ws : List Text) (rules : List Rule) :
    givenTo s (⟨s, ws⟩ :: rules) = ws :: givenTo s rules := by
  simp [givenTo]

theorem filter_filterMap_ofLine? (ls : List Text) (s : Text) :
    (ls.filterMap ofLine?).filter (fun r => r.symbol = s) =
      (ls.filter (fun l => lineSymbol? l = some s)).filterMap ofLine? := by
  rw [List.filter_filterMap, List.filterMap_filter]
  congr 1
  funext l
  cases h : ofLine? l <;> simp [lineSymbol?, h, Option.filter]

end Rule

namespace Grammar

theorem group_ofRules (rules : List Rule) (s : Text) :
    (ofRules rules).rules.group s = (Rule.givenTo s rules).map (List.map Symbol.word) := by
  rw [rules_ofRules, Table.group_pushAll_nil, Rule.filter_entry, Rule.givenTo, List.map_map,
    List.map_map]
  rfl

theorem same_ofRules_iff {rules others : List Rule} :
    (ofRules rules).same (ofRules others) = true ↔
      ∀ s, Rule.givenTo s rules = Rule.givenTo s others := by
  have hw : Function.Injective Symbol.word := fun _ _ h => Symbol.word.inj h
  rw [(closed_ofRules rules).same_iff (closed_ofRules others)]
  simp only [group_ofRules, (List.map_injective_iff.mpr (List.map_injective_iff.mpr hw)).eq_iff]

theorem same_ofRules_of_reordered {rules others : List Rule}
    (h : Reordered Rule.symbol rules others) : (ofRules rules).same (ofRules others) = true := by
  apply same_ofRules_iff.mpr
  intro s
  rw [Rule.givenTo, Rule.givenTo, h.filter_eq s]

theorem same_ofRules_swap (a b c : List Rule) (s : Text) {us vs : List Text} (h : us ≠ vs) :
    (ofRules (a ++ ⟨s, us⟩ :: b ++ ⟨s, vs⟩ :: c)).same
      (ofRules (a ++ ⟨s, vs⟩ :: b ++ ⟨s, us⟩ :: c)) = false := by
  apply Bool.eq_false_iff.mpr
  intro hs
  have hg := same_ofRules_iff.mp hs s
  simp only [List.append_assoc, List.cons_append, Rule.givenTo_append, Rule.givenTo_cons_self] at hg
  exact h (List.cons.inj (List.append_cancel_left hg)).1

theorem same_read_of_reordered {file file' : Path} {text text' : Text} {ls : List Text} {g : Grammar}
    (h : read file text = .ok g) (ho : Reordered Rule.lineSymbol? (Text.lines text) ls)
    (hl : (Text.lines text').map Text.dropInvisible = ls.map Text.dropInvisible) :
    ∃ g', read file' text' = .ok g' ∧ g.same g' = true := by
  obtain ⟨rules, hr, rfl⟩ := read_eq_ok_iff.mp h
  obtain ⟨hok, hrules⟩ := Rule.map_ofLine_eq_iff.mp hr
  have hd : Rule.ofLine ∘ Text.dropInvisible = Rule.ofLine := funext Rule.ofLine_dropInvisible
  have hread : (Text.lines text').map Rule.ofLine = (ls.filterMap Rule.ofLine?).map .ok := by
    rw [← hd, ← List.map_map, hl, List.map_map, hd]
    exact Rule.map_ofLine_eq_iff.mpr ⟨fun l hm => hok l (ho.mem hm), rfl⟩
  refine ⟨_, read_eq_ok_iff.mpr ⟨_, hread, rfl⟩, ?_⟩
  apply same_ofRules_iff.mpr
  intro s
  rw [← hrules, Rule.givenTo, Rule.givenTo, Rule.filter_filterMap_ofLine?,
    Rule.filter_filterMap_ofLine?, ho.filter_eq (some s)]

/-- Two runs of rules make the same grammar if and only if each symbol is given
the same right-hand sides in the same order. So rules, or the lines of a text,
may be put in another order that keeps those of each symbol in line, and two
different right-hand sides of one symbol may not change places. -/
theorem same_iff_givenTo_eq (rules others : List Rule) :
    ((ofRules rules).same (ofRules others) = true ↔
      ∀ s, Rule.givenTo s rules = Rule.givenTo s others) ∧
    (Reordered Rule.symbol rules others → (ofRules rules).same (ofRules others) = true) ∧
    (∀ (file file' : Path) (text text' : Text) (ls : List Text) (g : Grammar),
      read file text = .ok g → Reordered Rule.lineSymbol? (Text.lines text) ls →
      (Text.lines text').map Text.dropInvisible = ls.map Text.dropInvisible →
      ∃ g', read file' text' = .ok g' ∧ g.same g' = true) ∧
    (∀ (a b c : List Rule) (s : Text) (us vs : List Text), us ≠ vs →
      (ofRules (a ++ ⟨s, us⟩ :: b ++ ⟨s, vs⟩ :: c)).same
        (ofRules (a ++ ⟨s, vs⟩ :: b ++ ⟨s, us⟩ :: c)) = false) := by
  refine ⟨same_ofRules_iff, same_ofRules_of_reordered, ?_, ?_⟩
  · intro file file' text text' ls g h ho hl
    exact same_read_of_reordered h ho hl
  · intro a b c s us vs h
    exact same_ofRules_swap a b c s h

/-- A rule of another symbol moves to the front, in a run of rules and in a text
in which a last line keeps its carriage return. -/
theorem same_iff_givenTo_eq_moved :
    let rules : List Rule := [⟨['A'], [['B']]⟩, ⟨['S'], [['A']]⟩, ⟨['A'], []⟩]
    let others : List Rule := [⟨['S'], [['A']]⟩, ⟨['A'], [['B']]⟩, ⟨['A'], []⟩]
    let text := "A => B\r\nS => A\r\nA => ".toList
    let moved := "S => A\nA => B\nA => \r".toList
    let ls := ["S => A".toList, "A => B".toList, "A => ".toList]
    Reordered Rule.symbol rules others ∧ (ofRules rules).same (ofRules others) = true ∧
      read ⟨"g".toList⟩ text = .ok (ofRules rules) ∧
      Reordered Rule.lineSymbol? (Text.lines text) ls ∧
      (Text.lines moved).map Text.dropInvisible = ls.map Text.dropInvisible ∧
      (∃ g', read ⟨"h".toList⟩ moved = .ok g' ∧ (ofRules rules).same g' = true) ∧
      [['B']] ≠ [] ∧
      (ofRules [⟨['A'], [['B']]⟩, ⟨['S'], [['A']]⟩, ⟨['A'], []⟩]).same
        (ofRules [⟨['A'], []⟩, ⟨['S'], [['A']]⟩, ⟨['A'], [['B']]⟩]) = false := by
  intro rules others text moved ls
  have ho : Reordered Rule.symbol rules others := by
    refine ⟨(Equiv.swap 0 1 : Fin 3 ≃ Fin 3), ?_, by decide⟩
    intro (i : Fin 3)
    match i with
    | 0 => rfl
    | 1 => rfl
    | 2 => rfl
  have hr : read ⟨"g".toList⟩ text = .ok (ofRules rules) := rfl
  have hs : Reordered Rule.lineSymbol? (Text.lines text) ls :=
    ⟨(Equiv.swap 0 1 : Fin 3 ≃ Fin 3), by decide, by decide⟩
  have hl : (Text.lines moved).map Text.dropInvisible = ls.map Text.dropInvisible := by decide
  have hne : [['B']] ≠ ([] : List Text) := List.cons_ne_nil _ _
  obtain ⟨-, h, ht, hw⟩ := same_iff_givenTo_eq rules others
  exact ⟨ho, h ho, hr, hs, hl, ht _ _ _ _ _ _ hr hs hl, hne,
    hw [] [⟨['S'], [['A']]⟩] [] ['A'] _ _ hne⟩

end Grammar

end WordGrammar
