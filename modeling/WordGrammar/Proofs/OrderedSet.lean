import Mathlib.Data.List.Nodup
import Mathlib.Data.List.Perm.Subperm
import WordGrammar.OrderedSet

/-! What a run of insertions leaves: the old members, then each new one at its
first occurrence. -/

namespace WordGrammar

namespace OrderedSet

variable {α : Type}

theorem eraseDups_of_nodup [BEq α] [LawfulBEq α] {xs : List α} (h : xs.Nodup) : xs.eraseDups = xs := by
  induction xs with
  | nil => rfl
  | cons x xs ih =>
    obtain ⟨hx, hn⟩ := List.nodup_cons.mp h
    have hf : xs.filter (fun y => !y == x) = xs := by
      apply List.filter_eq_self.mpr
      intro y hy
      have hne : y ≠ x := fun he => hx (he ▸ hy)
      simpa using hne
    rw [List.eraseDups_cons, hf, ih hn]

variable [DecidableEq α]

theorem insertAll_append (s : OrderedSet α) (xs ys : List α) :
    insertAll s (xs ++ ys) = insertAll (insertAll s xs) ys :=
  List.foldl_append

theorem insertAll_insertAll (s t : OrderedSet α) (xs : List α) :
    insertAll s (insertAll t xs) = insertAll (insertAll s t) xs := by
  induction xs generalizing t with
  | nil => rfl
  | cons x xs ih =>
    have hi : insertAll s (insert t x) = insert (insertAll s t) x := by
      by_cases hx : x ∈ t
      · have hm : x ∈ insertAll s t := by simp [hx]
        rw [insert, insert, if_pos hx, if_pos hm]
      · rw [insert, if_neg hx, insertAll_append]
        rfl
    rw [insertAll_cons, insertAll_cons, ih, hi]

theorem same_iff {s t : OrderedSet α} (hs : s.Nodup) (ht : t.Nodup) :
    same s t = true ↔ ∀ x, x ∈ s ↔ x ∈ t := by
  simp only [same, Bool.and_eq_true, decide_eq_true_eq, List.all_eq_true]
  constructor
  · rintro ⟨hl, hm⟩ x
    have hp : s.Perm t := (List.subperm_of_subset hs hm).perm_of_length_le (by omega)
    exact hp.mem_iff
  · intro h
    have hp : s.Perm t := (List.perm_ext_iff_of_nodup hs ht).mpr h
    exact ⟨hp.length_eq, fun x hx => (h x).mp hx⟩

variable [BEq α] [LawfulBEq α]

theorem insertAll_eq_append (s : OrderedSet α) (xs : List α) :
    insertAll s xs = s ++ (xs.filter (· ∉ s)).eraseDups := by
  induction xs generalizing s with
  | nil => simp
  | cons x xs ih =>
    rw [insertAll_cons, ih]
    by_cases hx : x ∈ s
    · have hi : insert s x = s := if_pos hx
      simp [hi, hx]
    · have hi : insert s x = s ++ [x] := if_neg hx
      have hf : xs.filter (· ∉ s ++ [x]) = (xs.filter (· ∉ s)).filter (fun y => !y == x) := by
        rw [List.filter_filter]
        apply List.filter_congr
        intro y _
        by_cases hy : y = x <;> simp [hy]
      rw [hi, hf, List.filter_cons_of_pos (by simpa using hx), List.eraseDups_cons]
      simp

theorem insertAll_empty (xs : List α) : insertAll [] xs = xs.eraseDups := by
  simpa using insertAll_eq_append [] xs

theorem nodup_eraseDups (xs : List α) : xs.eraseDups.Nodup := by
  rw [← insertAll_empty]
  exact nodup_insertAll List.nodup_nil xs

theorem insertAll_of_nodup (s : OrderedSet α) {xs : List α} (h : xs.Nodup) :
    insertAll s xs = s ++ xs.filter (· ∉ s) := by
  rw [insertAll_eq_append, eraseDups_of_nodup (h.filter _)]

theorem insertAll_eq_append_filter (s : OrderedSet α) (xs : List α) :
    insertAll s xs = s ++ (insertAll [] xs).filter (· ∉ s) := by
  rw [← insertAll_of_nodup s (nodup_insertAll List.nodup_nil xs), insertAll_insertAll]
  rfl

end OrderedSet

end WordGrammar
