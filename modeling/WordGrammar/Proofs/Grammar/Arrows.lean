import Mathlib.Data.Set.Insert
import Mathlib.Data.Set.Subsingleton
import WordGrammar.Proofs.Grammar.Faults
import WordGrammar.Proofs.Grammar.Reading
import WordGrammar.Proofs.Text.Places

/-! Arrows by their places. The blank behind one arrow can be the blank in front
of the next, and then the second of the two is passed over: such a line is a rule
although the arrow stands in it twice. In all others every arrow counts. -/

namespace WordGrammar

namespace Rule

theorem eq_add_three_of_places {line : Text} {i j : Nat} (hi : i ∈ Text.places arrow line)
    (hj : j ∈ Text.places arrow line) (hij : i < j) (h : j < i + 4) : j = i + 3 := by
  have hl : arrow.length = 4 := rfl
  have hb := Text.drop_isPrefix_of_places hi hj (by omega) (by omega)
  have hk : j - i = 1 ∨ j - i = 2 ∨ j - i = 3 := by omega
  rcases hk with hk | hk | hk
  · rw [hk] at hb
    exact absurd hb (by decide)
  · rw [hk] at hb
    exact absurd hb (by decide)
  · omega

theorem places_eq_iff {line : Text} {i : Nat} :
    Text.places arrow line = {i} ∨ Text.places arrow line = {i, i + 3} ↔
      i ∈ Text.places arrow line ∧ ∀ j ∈ Text.places arrow line, i ≤ j ∧ j < i + 4 := by
  constructor
  · rintro (h | h)
    · rw [h]
      refine ⟨rfl, ?_⟩
      rintro j rfl
      omega
    · rw [h]
      refine ⟨Or.inl rfl, ?_⟩
      rintro j (rfl | rfl)
      · omega
      · omega
  · rintro ⟨hi, h⟩
    have hj : ∀ j ∈ Text.places arrow line, j = i ∨ j = i + 3 := by
      intro j hj
      have hb := h j hj
      by_cases he : i = j
      · exact Or.inl he.symm
      · exact Or.inr (eq_add_three_of_places hi hj (by omega) hb.2)
    by_cases hs : i + 3 ∈ Text.places arrow line
    · right
      ext j
      constructor
      · exact hj j
      · rintro (rfl | rfl)
        · exact hi
        · exact hs
    · left
      apply Set.eq_singleton_iff_unique_mem.mpr
      refine ⟨hi, fun j hm => (hj j hm).resolve_right ?_⟩
      rintro rfl
      exact hs hm

theorem ofLine_eq_ok_iff_places {line : Text} {r : Rule} :
    ofLine line = .ok r ↔
      ∃ i, (Text.places arrow line = {i} ∨ Text.places arrow line = {i, i + 3}) ∧
        r = ⟨line.take i, Text.words (line.drop (i + 4))⟩ := by
  have hl : arrow.length = 4 := rfl
  simp only [ofLine_eq_ok_iff, places_eq_iff]
  constructor
  · rintro ⟨body, rfl, hf, hb, hw⟩
    refine ⟨r.symbol.length, ⟨Text.mem_places_append r.symbol arrow body, fun j hj => ?_⟩, ?_⟩
    · have hle := (Text.firstBehind_iff_le arrow_ne_nil).mp hf j hj
      have hlt := Text.absent_iff_lt.mp hb j hj
      omega
    · have ht : (r.symbol ++ arrow ++ body).take r.symbol.length = r.symbol := by simp
      have hd : (r.symbol ++ arrow ++ body).drop (r.symbol.length + 4) = body := by
        simp [← hl]
      rw [ht, hd, ← hw]
  · rintro ⟨i, ⟨hi, h⟩, rfl⟩
    obtain ⟨a, b, rfl, rfl⟩ := Text.exists_append_of_places arrow_ne_nil hi
    have ht : (a ++ arrow ++ b).take a.length = a := by simp
    have hd : (a ++ arrow ++ b).drop (a.length + 4) = b := by
      simp [← hl]
    rw [ht, hd]
    refine ⟨b, rfl, ?_, ?_, rfl⟩
    · exact (Text.firstBehind_iff_le arrow_ne_nil).mpr fun j hj => (h j hj).1
    · exact Text.absent_iff_lt.mpr fun j hj => hl ▸ (h j hj).2

theorem ofLine_eq_missingArrow_iff {line : Text} :
    ofLine line = .error .missingArrow ↔ Text.places arrow line = ∅ := by
  rw [ofLine_eq_error_iff, Text.places_eq_empty_iff, ← Text.count_eq_zero_iff arrow_ne_nil]
  rcases Text.count arrow line with _ | _ | n <;> simp [Problem.ofArrows?]

theorem ofLine_eq_repeatedArrow_iff {line : Text} :
    ofLine line = .error .repeatedArrow ↔
      (Text.places arrow line).Nontrivial ∧ ¬ ∃ i, Text.places arrow line = {i, i + 3} := by
  constructor
  · intro h
    have hok : ∀ i, ¬ (Text.places arrow line = {i} ∨ Text.places arrow line = {i, i + 3}) := by
      intro i hi
      rw [ofLine_eq_ok_iff_places.mpr ⟨i, hi, rfl⟩] at h
      cases h
    refine ⟨?_, fun ⟨i, hi⟩ => hok i (Or.inr hi)⟩
    by_contra hs
    rcases (Set.not_nontrivial_iff.mp hs).eq_empty_or_singleton with he | ⟨i, hi⟩
    · rw [ofLine_eq_missingArrow_iff.mpr he] at h
      cases h
    · exact hok i (Or.inl hi)
  · rintro ⟨hn, h⟩
    cases hr : ofLine line with
    | ok r =>
      obtain ⟨i, hi | hi, -⟩ := ofLine_eq_ok_iff_places.mp hr
      · exact absurd (hi ▸ Set.subsingleton_singleton) (Set.not_subsingleton_iff.mpr hn)
      · exact absurd ⟨i, hi⟩ h
    | error p =>
      have hp := ofLine_eq_error_iff.mp hr
      rcases hc : Text.count arrow line with _ | _ | n
      · have hm := ofLine_eq_missingArrow_iff.mp (ofLine_eq_error_iff.mpr (by rw [hc]; rfl))
        exact absurd hm hn.nonempty.ne_empty
      · rw [hc] at hp
        cases hp
      · rw [hc] at hp
        cases hp
        rfl

end Rule

namespace Grammar

theorem read_line {line : Text} (hne : line ≠ []) (hn : '\n' ∉ line) (file : Path) :
    read file line =
      match Rule.ofLine line with
      | .ok r => .ok (ofRules [r])
      | .error p => .error [⟨⟨file, 1⟩, p⟩] := by
  unfold read
  rw [Text.lines_of_not_mem hn, if_neg hne]
  cases hr : Rule.ofLine line with
  | ok r => simp [faults, Rule.fault?, Rule.ofLine?, hr, Except.toOption]
  | error p => simp [faults, Rule.fault?, hr]

end Grammar

namespace Rule

/-- A line is a rule if the arrow stands in it once, or twice with a blank in
common. It has no arrow, or more of them than that, if this is what is said of it.
Read by itself as a text, it makes the rule or has the fault that it has as a line. -/
theorem ofLine_iff_places (line : Text) :
    (ofLine line = .error .missingArrow ↔ Text.places arrow line = ∅) ∧
    (∀ r, ofLine line = .ok r ↔
      ∃ i, (Text.places arrow line = {i} ∨ Text.places arrow line = {i, i + 3}) ∧
        r = ⟨line.take i, Text.words (line.drop (i + 4))⟩) ∧
    (ofLine line = .error .repeatedArrow ↔
      (Text.places arrow line).Nontrivial ∧ ¬ ∃ i, Text.places arrow line = {i, i + 3}) ∧
    (line ≠ [] → '\n' ∉ line → ∀ file, Grammar.read file line =
      match ofLine line with
      | .ok r => .ok (Grammar.ofRules [r])
      | .error p => .error [⟨⟨file, 1⟩, p⟩]) :=
  ⟨ofLine_eq_missingArrow_iff, fun _ => ofLine_eq_ok_iff_places, ofLine_eq_repeatedArrow_iff,
    Grammar.read_line⟩

/-- Two arrows with a blank in common, and three. -/
theorem ofLine_iff_places_shared_blanks :
    let two := "A => => B".toList
    let three := "A => => => B".toList
    let file : Path := ⟨"g".toList⟩
    two ≠ [] ∧ '\n' ∉ two ∧
      Grammar.read file two = .ok (Grammar.ofRules [⟨"A".toList, ["B".toList]⟩]) ∧
      three ≠ [] ∧ '\n' ∉ three ∧
      Grammar.read file three = .error [⟨⟨file, 1⟩, .repeatedArrow⟩] ∧
      ¬ ∃ i, Text.places arrow three = {i, i + 3} := by
  intro two three file
  have h2 : two ≠ [] ∧ '\n' ∉ two := by decide
  have h3 : three ≠ [] ∧ '\n' ∉ three := by decide
  obtain ⟨-, -, -, hr⟩ := ofLine_iff_places two
  obtain ⟨-, -, hm, hr'⟩ := ofLine_iff_places three
  exact ⟨h2.1, h2.2, hr h2.1 h2.2 file, h3.1, h3.2, hr' h3.1 h3.2 file, (hm.mp rfl).2⟩

/-- A line in which the arrow stands twice, and which is a rule all the same. -/
theorem ofLine_two_arrows :
    let line := "A => => B".toList
    '\n' ∉ line ∧ ofLine line = .ok ⟨"A".toList, ["B".toList]⟩ ∧
      (Text.places arrow line).Nontrivial ∧
      ¬ (ofLine line = .error .repeatedArrow ↔ (Text.places arrow line).Nontrivial) := by
  intro line
  have h1 : arrow <+: line.drop 1 := by decide
  have h4 : arrow <+: line.drop 4 := by decide
  have hn : (Text.places arrow line).Nontrivial := ⟨1, h1, 4, h4, by decide⟩
  have hr : ofLine line = .ok ⟨"A".toList, ["B".toList]⟩ := rfl
  exact ⟨by decide, hr, hn, fun h => nomatch hr.symm.trans (h.mpr hn)⟩

end Rule

end WordGrammar
