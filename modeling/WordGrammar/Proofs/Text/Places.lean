import Mathlib.Data.List.Infix
import Mathlib.Data.Set.Basic
import WordGrammar.Proofs.Text.Split

/-! All places of a separator in a text, those that overlap among them. A cut
from left to right passes over the places that begin inside one already found,
so that two pieces mean one place and no other that is clear of it. -/

namespace WordGrammar

namespace Text

/-- Where a separator stands in a text, told by the number of characters in front of it. -/
def places (sep t : Text) : Set Nat :=
  {i | sep <+: t.drop i}

theorem places_eq_empty_iff {sep t : Text} : places sep t = ∅ ↔ ¬ sep <:+: t := by
  rw [Set.eq_empty_iff_forall_notMem]
  constructor
  · rintro h ⟨a, b, rfl⟩
    exact h a.length ⟨b, by simp⟩
  · intro h i hi
    exact h (hi.isInfix.trans (List.drop_suffix i t).isInfix)

theorem mem_places_append (a sep b : Text) : a.length ∈ places sep (a ++ sep ++ b) :=
  ⟨b, by simp⟩

theorem exists_append_of_places {sep t : Text} {i : Nat} (hs : sep ≠ []) (h : i ∈ places sep t) :
    ∃ a b, t = a ++ sep ++ b ∧ a.length = i := by
  obtain ⟨b, hb⟩ := h
  refine ⟨t.take i, b, ?_, ?_⟩
  · rw [List.append_assoc, hb, List.take_append_drop]
  · have hl := congrArg List.length hb
    have hp := List.length_pos_iff.mpr hs
    simp only [List.length_append, List.length_drop] at hl
    rw [List.length_take]
    omega

/-- Where a place begins inside another, the separator ends as it begins. -/
theorem drop_isPrefix_of_places {sep t : Text} {i j : Nat} (hi : i ∈ places sep t)
    (hj : j ∈ places sep t) (hij : i ≤ j) (h : j ≤ i + sep.length) : sep.drop (j - i) <+: sep := by
  obtain ⟨u, hu⟩ := hi
  have hd : t.drop j = sep.drop (j - i) ++ u := by
    have hl : j - i ≤ sep.length := by omega
    rw [← List.drop_append_of_le_length hl, hu, List.drop_drop]
    congr 1
    omega
  have hj' : sep <+: t.drop j := hj
  rw [hd] at hj'
  exact List.prefix_of_prefix_length_le (List.prefix_append _ u) hj' (by simp)

theorem firstBehind_iff_le {sep p q : Text} (hs : sep ≠ []) :
    FirstBehind sep p ↔ ∀ j ∈ places sep (p ++ sep ++ q), p.length ≤ j := by
  have hl := List.length_pos_iff.mpr hs
  have hp : p ++ sep.dropLast <+: p ++ sep ++ q :=
    ((List.prefix_append_right_inj p).mpr (List.dropLast_prefix sep)).trans (List.prefix_append _ q)
  constructor
  · intro h j hj
    by_contra hlt
    -- A place in front of `p.length` leaves out the last character of the place there.
    apply h
    have hle : sep.length ≤ ((p ++ sep.dropLast).drop j).length := by
      simp only [List.length_drop, List.length_append, List.length_dropLast]
      omega
    have hh : sep <+: (p ++ sep.dropLast).drop j :=
      List.prefix_of_prefix_length_le hj (hp.drop j) hle
    exact hh.isInfix.trans (List.drop_suffix j _).isInfix
  · rintro h ⟨a, b, hab⟩
    have hlen := congrArg List.length hab
    simp only [List.length_append, List.length_dropLast] at hlen
    rw [← hab] at hp
    obtain ⟨u, hu⟩ := hp
    rw [List.append_assoc _ b u] at hu
    have hle := h a.length (hu ▸ mem_places_append a sep (b ++ u))
    omega

theorem absent_iff_lt {sep p q : Text} :
    ¬ sep <:+: q ↔ ∀ j ∈ places sep (p ++ sep ++ q), j < p.length + sep.length := by
  constructor
  · intro h j hj
    by_contra hge
    apply h
    have hd : (p ++ sep ++ q).drop j = q.drop (j - (p ++ sep).length) := by
      rw [List.drop_append, List.drop_of_length_le (by simp; omega), List.nil_append]
    have hj' : sep <+: (p ++ sep ++ q).drop j := hj
    rw [hd] at hj'
    exact hj'.isInfix.trans (List.drop_suffix _ q).isInfix
  · rintro h ⟨a, b, rfl⟩
    have hm : (p ++ sep ++ a).length ∈ places sep (p ++ sep ++ (a ++ sep ++ b)) := by
      have hh := mem_places_append (p ++ sep ++ a) sep b
      simpa only [List.append_assoc] using hh
    have hlt := h _ hm
    simp only [List.length_append] at hlt
    omega

end Text

end WordGrammar
