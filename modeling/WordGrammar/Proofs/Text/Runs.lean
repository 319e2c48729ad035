import Mathlib.Algebra.GroupWithZero.Nat
import Mathlib.Data.List.SplitBy
import WordGrammar.Proofs.Text.Split

/-! Runs of one character. A separator that is a character written twice stands
in a run of it once for every two characters, and nowhere else, so that its
places are counted by the lengths of the runs. -/

namespace WordGrammar

namespace Text

/-- The maximal runs of a character in a text, from left to right. -/
def runs (c : Char) (t : Text) : List Text :=
  (t.splitBy (· == ·)).filter fun run => run.head? = some c

/-- How many pairs the runs of a character are made of, if the last character of
an odd run is left over. -/
def pairs (c : Char) (t : Text) : Nat :=
  ((runs c t).map fun run => run.length / 2).sum

theorem exists_run (c : Char) (t : Text) :
    ∃ k u, c :: t = List.replicate (k + 1) c ++ u ∧ u.head? ≠ some c := by
  induction t with
  | nil => exact ⟨0, [], rfl, by simp⟩
  | cons d t ih =>
    by_cases hd : d = c
    · obtain ⟨k, u, ht, hu⟩ := ih
      refine ⟨k + 1, u, ?_, hu⟩
      rw [hd, ht]
      rfl
    · exact ⟨0, d :: t, rfl, by simpa using hd⟩

theorem runs_replicate_append {c d : Char} {t : Text} (h : t.head? ≠ some d) (k : Nat) :
    runs c (List.replicate (k + 1) d ++ t) =
      (if d = c then [List.replicate (k + 1) d] else []) ++ runs c t := by
  have hs : (List.replicate (k + 1) d).splitBy (· == ·) = [List.replicate (k + 1) d] :=
    List.splitBy_of_isChain (by simp) (List.isChain_replicate_of_rel (k + 1) (by simp))
  have hb : ∀ x ∈ (List.replicate (k + 1) d).getLast?, ∀ y ∈ t.head?, (x == y) = false := by
    intro x hx y hy
    have hxd : x = d := List.eq_of_mem_replicate (List.mem_of_getLast? hx)
    have hne : d ≠ y := fun he => h (he ▸ hy)
    simpa [hxd] using hne
  rw [runs, List.splitBy_append hb, hs, List.filter_append]
  by_cases hd : d = c <;> simp [hd, runs, List.replicate_succ]

theorem pairs_replicate_append {c d : Char} {t : Text} (h : t.head? ≠ some d) (k : Nat) :
    pairs c (List.replicate (k + 1) d ++ t) = (if d = c then (k + 1) / 2 else 0) + pairs c t := by
  rw [pairs, runs_replicate_append h]
  by_cases hd : d = c <;> simp [hd, pairs]

theorem count_replicate_append {c : Char} {t : Text} (h : t.head? ≠ some c) (k : Nat) :
    count [c, c] (List.replicate k c ++ t) = k / 2 + count [c, c] t := by
  induction k using Nat.twoStepInduction with
  | zero => simp
  | one =>
    have hp : ¬ [c, c] <+: c :: t := by
      intro hp
      rw [List.prefix_cons_inj, List.singleton_prefix_iff_head?_eq_some] at hp
      exact h hp
    simpa using count_cons_of_absent hp
  | more k ih _ =>
    have hs : List.replicate (k + 2) c ++ t = [c, c] ++ (List.replicate k c ++ t) := rfl
    rw [hs, count_append_self (List.cons_ne_nil _ _), ih]
    omega

theorem count_replicate_append_of_ne {c d : Char} (h : d ≠ c) (k : Nat) (t : Text) :
    count [c, c] (List.replicate k d ++ t) = count [c, c] t := by
  induction k with
  | zero => rfl
  | succ k ih =>
    have hp : ¬ [c, c] <+: d :: (List.replicate k d ++ t) :=
      fun hp => h (List.cons_prefix_cons.mp hp).1.symm
    exact (count_cons_of_absent hp).trans ih

theorem count_eq_pairs (c : Char) (t : Text) : count [c, c] t = pairs c t := by
  -- The induction takes off a whole run at a time.
  induction hn : t.length using Nat.strongRecOn generalizing t with
  | ind n ih =>
    cases t with
    | nil => rfl
    | cons d t =>
      obtain ⟨k, u, ht, hu⟩ := exists_run d t
      have hl : u.length < n := by
        have hh := congrArg List.length ht
        simp only [List.length_append, List.length_replicate] at hh
        omega
      rw [ht, pairs_replicate_append hu, ← ih u.length hl u rfl]
      by_cases hd : d = c
      · rw [if_pos hd, hd, count_replicate_append (hd ▸ hu)]
      · rw [if_neg hd, count_replicate_append_of_ne hd, Nat.zero_add]

theorem firstBehind_pair_iff {c : Char} {p : Text} :
    FirstBehind [c, c] p ↔ ¬ [c, c] <:+: p ∧ p.getLast? ≠ some c := by
  have hs : [c, c] <:+ p ++ [c] ↔ p.getLast? = some c := by
    rw [List.getLast?_eq_some_iff]
    constructor
    · rintro ⟨q, hq⟩
      have hh : q ++ [c] ++ [c] = p ++ [c] := by simpa using hq
      exact ⟨q, (List.append_cancel_right hh).symm⟩
    · rintro ⟨q, rfl⟩
      exact ⟨q, by simp⟩
  have hd : [c, c].dropLast = [c] := rfl
  rw [FirstBehind, hd, List.infix_concat_iff, hs, not_or, and_comm]

end Text

end WordGrammar
