import WordGrammar.Text.Split

/-! Where a separator first stands in a text, and what this says about the
pieces between its places and about their number. -/

namespace WordGrammar

namespace Text

/-- In `p ++ sep` the separator stands nowhere before the end of `p`. -/
def FirstBehind (sep p : Text) : Prop :=
  ¬ sep <:+: p ++ sep.dropLast

/-- Counts the places of a separator in what follows the first `skip` characters. -/
def countAfter (sep : Text) : Nat → Text → Nat
  | _, [] => 0
  | skip + 1, _ :: rest => countAfter sep skip rest
  | 0, c :: rest =>
    if sep.isPrefixOf (c :: rest) then countAfter sep (sep.length - 1) rest + 1
    else countAfter sep 0 rest

/-- How often a separator stands in a text, counted from left to right without overlap. -/
def count (sep t : Text) : Nat :=
  countAfter sep 0 t

theorem firstBehind_nil {sep : Text} (h : sep ≠ []) : FirstBehind sep [] := by
  intro hi
  have hl := hi.length_le
  have hp := List.length_pos_iff.mpr h
  simp at hl
  omega

theorem FirstBehind.of_cons {sep p : Text} {c : Char} (h : FirstBehind sep (c :: p)) :
    FirstBehind sep p := fun hi => h (List.infix_cons hi)

theorem FirstBehind.absent {sep p : Text} {c : Char} (h : FirstBehind sep (c :: p)) (t : Text) :
    ¬ sep <+: c :: p ++ sep ++ t := by
  intro hp
  apply h
  have hd : c :: p ++ sep.dropLast <+: c :: p ++ sep ++ t :=
    ((List.prefix_append_right_inj (c :: p)).mpr (List.dropLast_prefix sep)).trans
      (List.prefix_append _ t)
  have hl : sep.length ≤ (c :: p ++ sep.dropLast).length := by simp; omega
  exact (List.prefix_of_prefix_length_le hp hd hl).isInfix

theorem exists_firstBehind {sep t : Text} (hs : sep ≠ []) (h : sep <:+: t) :
    ∃ p u, t = p ++ sep ++ u ∧ FirstBehind sep p := by
  induction t with
  | nil => exact absurd (List.infix_nil.mp h) hs
  | cons c t ih =>
    by_cases hp : sep <+: c :: t
    · obtain ⟨u, hu⟩ := hp
      exact ⟨[], u, by simp [hu], firstBehind_nil hs⟩
    · have ht : sep <:+: t := (List.infix_cons_iff.mp h).resolve_left hp
      obtain ⟨p, u, rfl, hf⟩ := ih ht
      refine ⟨c :: p, u, by simp, ?_⟩
      intro hi
      rcases List.infix_cons_iff.mp hi with hh | hh
      · apply hp
        have hd : c :: (p ++ sep.dropLast) <+: c :: (p ++ sep ++ u) := by
          rw [List.cons_prefix_cons, List.append_assoc, List.prefix_append_right_inj]
          exact ⟨rfl, (List.dropLast_prefix sep).trans (List.prefix_append sep u)⟩
        exact hh.trans hd
      · exact hf hh

theorem split_of_absent {sep t : Text} (h : ¬ sep <:+: t) : split sep t = [t] := by
  induction t with
  | nil => rfl
  | cons c t ih =>
    rw [split_cons_of_absent (fun hp => h hp.isInfix), ih (fun hi => h (List.infix_cons hi))]
    rfl

theorem split_append {sep p : Text} (hs : sep ≠ []) (h : FirstBehind sep p) (t : Text) :
    split sep (p ++ sep ++ t) = p :: split sep t := by
  induction p with
  | nil => exact split_append_self hs t
  | cons c p ih =>
    have hc : c :: p ++ sep ++ t = c :: (p ++ sep ++ t) := rfl
    have hp := h.absent t
    rw [hc] at hp ⊢
    rw [split_cons_of_absent hp, ih h.of_cons]
    rfl

theorem split_eq_singleton_iff {sep t p : Text} (hs : sep ≠ []) :
    split sep t = [p] ↔ t = p ∧ ¬ sep <:+: t := by
  constructor
  · intro h
    have hn : ¬ sep <:+: t := by
      intro hi
      obtain ⟨q, u, rfl, hq⟩ := exists_firstBehind hs hi
      rw [split_append hs hq] at h
      exact split_ne_nil sep u (List.cons.inj h).2
    rw [split_of_absent hn] at h
    exact ⟨(List.cons.inj h).1, hn⟩
  · rintro ⟨rfl, hn⟩
    exact split_of_absent hn

theorem split_eq_pair_iff {sep t p q : Text} (hs : sep ≠ []) :
    split sep t = [p, q] ↔ t = p ++ sep ++ q ∧ FirstBehind sep p ∧ ¬ sep <:+: q := by
  constructor
  · intro h
    have hi : sep <:+: t := by
      apply Classical.not_not.mp
      intro hn
      rw [split_of_absent hn] at h
      simp at h
    obtain ⟨p', u, rfl, hp⟩ := exists_firstBehind hs hi
    rw [split_append hs hp] at h
    obtain ⟨rfl, hu⟩ := List.cons.inj h
    obtain ⟨rfl, hq⟩ := (split_eq_singleton_iff hs).mp hu
    exact ⟨rfl, hp, hq⟩
  · rintro ⟨rfl, hp, hq⟩
    rw [split_append hs hp, split_of_absent hq]

theorem length_splitAfter (sep : Text) (skip : Nat) (t : Text) :
    (splitAfter sep skip t).length = countAfter sep skip t + 1 := by
  induction t generalizing skip with
  | nil => cases skip <;> rfl
  | cons c t ih =>
    cases skip with
    | zero =>
      by_cases hp : sep.isPrefixOf (c :: t) = true
      · simp [splitAfter, countAfter, hp, ih]
      · simp [splitAfter, countAfter, hp, ih]
    | succ skip => simpa [splitAfter, countAfter] using ih skip

theorem length_split (sep t : Text) : (split sep t).length = count sep t + 1 :=
  length_splitAfter sep 0 t

theorem count_eq_zero_iff {sep t : Text} (hs : sep ≠ []) : count sep t = 0 ↔ ¬ sep <:+: t := by
  have hl := length_split sep t
  constructor
  · intro hc
    rw [hc] at hl
    obtain ⟨p, hp⟩ := List.length_eq_one_iff.mp hl
    exact ((split_eq_singleton_iff hs).mp hp).2
  · intro h
    rw [split_of_absent h] at hl
    simpa using hl.symm

theorem count_append_self {sep : Text} (h : sep ≠ []) (t : Text) :
    count sep (sep ++ t) = count sep t + 1 := by
  have hl := length_split sep (sep ++ t)
  rw [split_append_self h, List.length_cons, length_split] at hl
  omega

theorem count_cons_of_absent {sep : Text} {c : Char} {t : Text} (h : ¬ sep <+: c :: t) :
    count sep (c :: t) = count sep t := by
  have hl := length_split sep (c :: t)
  rw [split_cons_of_absent h, List.length_modifyHead, length_split] at hl
  omega

theorem prefix_concat_iff {sep t : Text} {c : Char} (hc : c ∉ sep) :
    sep <+: t ++ [c] ↔ sep <+: t := by
  rw [List.prefix_concat_iff]
  constructor
  · rintro (rfl | h)
    · simp at hc
    · exact h
  · exact Or.inr

theorem countAfter_concat {sep : Text} {c : Char} (hs : sep ≠ []) (hc : c ∉ sep)
    (skip : Nat) (t : Text) : countAfter sep skip (t ++ [c]) = countAfter sep skip t := by
  induction t generalizing skip with
  | nil =>
    cases skip with
    | zero =>
      have hp : sep.isPrefixOf [c] = false := by
        rw [← Bool.not_eq_true, List.isPrefixOf_iff_prefix]
        intro h
        exact hs (List.prefix_nil.mp ((prefix_concat_iff (t := []) hc).mp h))
      simp [countAfter, hp]
    | succ skip => simp [countAfter]
  | cons d t ih =>
    cases skip with
    | zero =>
      have hp : sep.isPrefixOf (d :: (t ++ [c])) = sep.isPrefixOf (d :: t) := by
        rw [Bool.eq_iff_iff, List.isPrefixOf_iff_prefix, List.isPrefixOf_iff_prefix]
        exact prefix_concat_iff (t := d :: t) hc
      simp only [List.cons_append, countAfter, hp, ih]
    | succ skip => simpa [countAfter] using ih skip

theorem count_concat {sep : Text} {c : Char} (hs : sep ≠ []) (hc : c ∉ sep) (t : Text) :
    count sep (t ++ [c]) = count sep t :=
  countAfter_concat hs hc 0 t

end Text

end WordGrammar
