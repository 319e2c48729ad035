import Mathlib.Data.List.Basic
import Mathlib.Order.Bounds.Basic
import WordGrammar.Proofs.Document.Sections
import WordGrammar.Proofs.Grammar.Faults

/-! Which lines of a content are reported, and under which numbers. The numbers
are those of the pieces between the line feeds of the content as it was given,
although lines are looked for in a part of it with other line ends. -/

namespace WordGrammar

namespace Sections

/-- A section in front of its break has no empty piece but, maybe, the first. -/
theorem nil_not_mem_tail_splitOn {a : Text} (h : Text.FirstBehind sectionBreak a) :
    [] ∉ (a.splitOn '\n').tail := by
  induction a with
  | nil => simp
  | cons c a ih =>
    have hh := ih h.of_cons
    rw [List.splitOn_cons_eq_if_modifyHead]
    by_cases hc : c = '\n'
    · obtain ⟨p, ps, hp⟩ := List.exists_cons_of_ne_nil (List.splitOn_ne_nil '\n' a)
      have hne : p ≠ [] := by
        rintro rfl
        apply h
        have ha : List.intercalate ['\n'] (a.splitOn '\n') = a := List.intercalate_splitOn '\n'
        rw [hp] at ha
        have hpre : sectionBreak <+: c :: a ++ sectionBreak.dropLast := by
          rw [← ha, hc]
          cases ps <;> simp [sectionBreak]
        exact hpre.isInfix
      simpa [hc, hp, Ne.symm hne] using hh
    · simpa [hc] using hh

/-- The last piece of a section is empty only if there is no other. -/
theorem getLast?_splitOn_iff {a : Text} (h : Text.FirstBehind sectionBreak a) :
    (a.splitOn '\n').getLast? = some [] ↔ a.splitOn '\n' = [[]] := by
  have hn := nil_not_mem_tail_splitOn h
  constructor
  · intro hlast
    obtain ⟨x, xs, hx⟩ := List.exists_cons_of_ne_nil (List.splitOn_ne_nil '\n' a)
    rw [hx] at hn hlast ⊢
    cases xs with
    | nil => simpa using hlast
    | cons z zs =>
      rw [List.getLast?_cons_cons] at hlast
      exact absurd (List.mem_of_getLast? hlast) hn
  · intro ha
    rw [ha]
    rfl

end Sections

namespace Document

def pieces (content : Text) : List Text :=
  content.splitOn '\n'

def isBare (piece : Text) : Bool :=
  piece = [] ∨ piece = ['\r']

/-- The numbers, from 2 on, of the bare pieces that have a line feed behind them. -/
def gaps (content : Text) : Set Nat :=
  {j | 2 ≤ j ∧ ∃ p ∈ (pieces content).dropLast[j - 1]?, isBare p = true}

/-- The pieces above the gap with the number `j`, numbered from 1; none at all
if there is one of them and it is bare. -/
def checkedLines (content : Text) (j : Nat) : List (Text × Nat) :=
  if j = 2 ∧ (pieces content).head?.any isBare = true then []
  else ((pieces content).take (j - 1)).zipIdx 1

theorem isBare_iff {p : Text} : isBare p = true ↔ Text.dropReturn p = [] := by
  rw [isBare, decide_eq_true_eq]
  constructor
  · rintro (rfl | rfl) <;> rfl
  · intro h
    rcases Text.dropReturn_eq_or p with hp | hp
    · exact Or.inl (hp.symm.trans h)
    · rw [h] at hp
      exact Or.inr hp

section

variable {content a b : Text} (hu : Text.unifyLineEnds content = a ++ Sections.sectionBreak ++ b)

include hu

theorem dropReturns_pieces :
    Text.dropReturns (pieces content) = a.splitOn '\n' ++ [] :: b.splitOn '\n' := by
  have hs : a ++ Sections.sectionBreak ++ b = a ++ '\n' :: '\n' :: b := by
    simp [Sections.sectionBreak]
  rw [pieces, ← Text.splitOn_unifyLineEnds, hu, hs, List.splitOn_append_cons_self]
  simp [List.splitOn_cons_eq_if_modifyHead]

theorem length_lt_pieces : (a.splitOn '\n').length + 1 < (pieces content).length := by
  have hl := congrArg List.length (dropReturns_pieces hu)
  have hb := List.length_pos_iff.mpr (List.splitOn_ne_nil '\n' b)
  rw [Text.length_dropReturns, List.length_append, List.length_cons] at hl
  omega

theorem map_dropReturn_take_pieces :
    ((pieces content).take ((a.splitOn '\n').length + 1)).map Text.dropReturn =
      a.splitOn '\n' ++ [[]] := by
  rw [← Text.take_dropReturns (length_lt_pieces hu), dropReturns_pieces hu, List.take_append,
    List.take_of_length_le (Nat.le_succ _)]
  simp

/-- Up to the gap, the pieces of the content are those of the first section and
the empty one behind it. -/
theorem getElem?_pieces {i : Nat} (hi : i ≤ (a.splitOn '\n').length) :
    (pieces content).dropLast[i]?.map Text.dropReturn = (a.splitOn '\n' ++ [[]])[i]? := by
  have hl := length_lt_pieces hu
  rw [← map_dropReturn_take_pieces hu, List.getElem?_map, List.getElem?_take_of_lt (by omega),
    List.getElem?_dropLast, if_pos (by omega)]

theorem isLeast_gaps (hf : Text.FirstBehind Sections.sectionBreak a) :
    IsLeast (gaps content) ((a.splitOn '\n').length + 1) := by
  have ha := List.length_pos_iff.mpr (List.splitOn_ne_nil '\n' a)
  constructor
  · have hh := getElem?_pieces hu (Nat.le_refl _)
    rw [List.getElem?_concat_length] at hh
    obtain ⟨p, hp, hd⟩ := Option.map_eq_some_iff.mp hh
    exact ⟨by omega, p, hp, isBare_iff.mpr hd⟩
  · rintro i ⟨hi, p, hp, hb⟩
    apply Nat.le_of_not_lt
    intro hlt
    have hh := getElem?_pieces hu (show i - 1 ≤ (a.splitOn '\n').length by omega)
    rw [hp, Option.map_some, isBare_iff.mp hb, List.getElem?_append_left (by omega)] at hh
    apply Sections.nil_not_mem_tail_splitOn hf
    apply List.mem_of_getElem? (i := i - 2)
    rw [List.getElem?_tail, hh]
    congr 1
    omega

theorem map_dropReturn_take_length_pieces :
    ((pieces content).take (a.splitOn '\n').length).map Text.dropReturn = a.splitOn '\n' := by
  have hh := congrArg (List.take (a.splitOn '\n').length) (map_dropReturn_take_pieces hu)
  rwa [← List.map_take, List.take_take, Nat.min_eq_left (Nat.le_succ _), List.take_left] at hh

theorem head?_pieces_any_isBare :
    (pieces content).head?.any isBare = true ↔ (a.splitOn '\n').head? = some [] := by
  obtain ⟨x, xs, hx⟩ := List.exists_cons_of_ne_nil (List.splitOn_ne_nil '\n' a)
  have hmap := map_dropReturn_take_pieces hu
  cases hy : pieces content with
  | nil => exact absurd hy (List.splitOn_ne_nil '\n' content)
  | cons y ys =>
    rw [hx, hy] at hmap
    have hxy : Text.dropReturn y = x := (List.cons.inj hmap).1
    simp [hx, isBare_iff, hxy]

theorem arrowFaults_lines (hf : Text.FirstBehind Sections.sectionBreak a) (file : Path) :
    Rule.arrowFaults file ((Text.lines a).zipIdx 1) =
      Rule.arrowFaults file (checkedLines content ((a.splitOn '\n').length + 1)) := by
  have hbare : ((a.splitOn '\n').length + 1 = 2 ∧ (pieces content).head?.any isBare = true) ↔
      a.splitOn '\n' = [[]] := by
    rw [head?_pieces_any_isBare hu]
    rcases a.splitOn '\n' with _ | ⟨x, _ | ⟨y, ys⟩⟩ <;> simp
  rw [Text.lines_eq, checkedLines]
  by_cases ha : a.splitOn '\n' = [[]]
  · rw [if_pos ((Sections.getLast?_splitOn_iff hf).mpr ha), if_pos (hbare.mpr ha), ha]
    rfl
  · rw [if_neg (fun h => ha ((Sections.getLast?_splitOn_iff hf).mp h)),
      if_neg (fun h => ha (hbare.mp h))]
    apply Rule.arrowFaults_congr
    rw [Rule.map_count_arrow_dropReturns, ← map_dropReturn_take_length_pieces hu, List.map_map,
      map_dropReturn_take_length_pieces hu]
    exact List.map_congr_left (fun p _ => Rule.count_arrow_dropReturn p)

end

theorem read_of_count_ne {file : Path} {content : Text}
    (h : Text.count Sections.sectionBreak (Text.unifyLineEnds content) + 1 ≠ 2) :
    read file content = .error [⟨⟨file, 0⟩,
      .sectionCount (Text.count Sections.sectionBreak (Text.unifyLineEnds content) + 1)⟩] := by
  rw [← Sections.number_eq] at h ⊢
  simp only [read, Sections.ofText_eq_error_iff.mpr ⟨h, rfl⟩]

theorem exists_sections_of_count_eq {content : Text}
    (h : Text.count Sections.sectionBreak (Text.unifyLineEnds content) + 1 = 2) :
    ∃ a b, Text.unifyLineEnds content = a ++ Sections.sectionBreak ++ b ∧
      Text.FirstBehind Sections.sectionBreak a ∧
      ∀ file, Sections.ofText file (Text.unifyLineEnds content) = .ok ⟨a, b⟩ := by
  rw [← Text.length_split] at h
  obtain ⟨a, b, hs⟩ := List.length_eq_two.mp h
  obtain ⟨hu, hf, -⟩ := (Text.split_eq_pair_iff Sections.sectionBreak_ne_nil).mp hs
  exact ⟨a, b, hu, hf, fun file => Sections.ofText_eq_ok_iff.mpr (Sections.split_eq_iff_breaks.mp hs)⟩

theorem pairwise_line_checkedLines (file : Path) (content : Text) (j : Nat) :
    (Rule.arrowFaults file (checkedLines content j)).Pairwise
      (fun d e => d.location.line < e.location.line) := by
  unfold checkedLines
  split
  · exact List.Pairwise.nil
  · exact Rule.pairwise_line_arrowFaults file _ 1

theorem read_of_sections {file : Path} {content a b : Text}
    (hs : Sections.ofText file (Text.unifyLineEnds content) = .ok ⟨a, b⟩) :
    read file content =
      if Rule.arrowFaults file ((Text.lines a).zipIdx 1) = [] then
        .ok ⟨Grammar.ofRules ((Text.lines a).filterMap Rule.ofLine?), b⟩
      else .error (Rule.arrowFaults file ((Text.lines a).zipIdx 1)) := by
  simp only [read, hs, Grammar.read_eq]
  by_cases hf : Rule.arrowFaults file ((Text.lines a).zipIdx 1) = []
  · rw [if_pos hf, if_pos hf]
  · rw [if_neg hf, if_neg hf]

/-- A content without two sections is reported as a whole. Otherwise the lines
above its first gap are checked, and each that has another number of arrows
than one is reported under the number it has in the content. -/
theorem read_diagnostics (file : Path) (content : Text) :
    (Text.count Sections.sectionBreak (Text.unifyLineEnds content) + 1 ≠ 2 →
      read file content = .error [⟨⟨file, 0⟩,
        .sectionCount (Text.count Sections.sectionBreak (Text.unifyLineEnds content) + 1)⟩]) ∧
    (Text.count Sections.sectionBreak (Text.unifyLineEnds content) + 1 = 2 →
      ∃ j, IsLeast (gaps content) j ∧
        ((∃ d, read file content = .ok d) ↔
          ∀ l ∈ checkedLines content j, Text.count Rule.arrow l.1 = 1) ∧
        ((¬ ∀ l ∈ checkedLines content j, Text.count Rule.arrow l.1 = 1) →
          read file content = .error (Rule.arrowFaults file (checkedLines content j))) ∧
        (Rule.arrowFaults file (checkedLines content j)).Pairwise
          (fun d e => d.location.line < e.location.line)) := by
  refine ⟨read_of_count_ne, ?_⟩
  intro h
  obtain ⟨a, b, hu, hf, hs⟩ := exists_sections_of_count_eq h
  have hr := read_of_sections (hs file)
  rw [arrowFaults_lines hu hf file] at hr
  refine ⟨(a.splitOn '\n').length + 1, isLeast_gaps hu hf, ?_, ?_,
    pairwise_line_checkedLines file content _⟩
  · rw [← @Rule.arrowFaults_eq_nil_iff file, hr]
    by_cases hn : Rule.arrowFaults file (checkedLines content ((a.splitOn '\n').length + 1)) = []
    · rw [if_pos hn]
      exact iff_of_true ⟨_, rfl⟩ hn
    · rw [if_neg hn]
      exact iff_of_false (fun ⟨_, hd⟩ => nomatch hd) hn
  · intro hne
    rw [← @Rule.arrowFaults_eq_nil_iff file] at hne
    rw [hr, if_neg hne]

/-- A bare first line, both line ends, and three sections in the other content. -/
theorem read_diagnostics_mixed_line_ends :
    let content := "\r\nA => B\nC\r\nA =>  => B\n\r\nx".toList
    let other := "A => B\r\n\nx\n\r\ny".toList
    let file : Path := ⟨"g".toList⟩
    Text.count Sections.sectionBreak (Text.unifyLineEnds content) + 1 = 2 ∧
      IsLeast (gaps content) 5 ∧
      read file content = .error [⟨⟨file, 1⟩, .missingArrow⟩, ⟨⟨file, 3⟩, .missingArrow⟩,
        ⟨⟨file, 4⟩, .repeatedArrow⟩] ∧
      Text.count Sections.sectionBreak (Text.unifyLineEnds other) + 1 ≠ 2 ∧
      read file other = .error [⟨⟨file, 0⟩, .sectionCount 3⟩] := by
  intro content other file
  have hc : Text.count Sections.sectionBreak (Text.unifyLineEnds content) + 1 = 2 := by decide
  have ho : Text.count Sections.sectionBreak (Text.unifyLineEnds other) + 1 ≠ 2 := by decide
  have hl : IsLeast (gaps content) 5 := by
    constructor
    · exact ⟨by decide, ['\r'], rfl, rfl⟩
    · rintro i ⟨hi, p, hp, hb⟩
      apply Nat.le_of_not_lt
      intro hlt
      have hi : i = 2 ∨ i = 3 ∨ i = 4 := by omega
      rcases hi with rfl | rfl | rfl
      · cases hp
        exact absurd hb (by decide)
      · cases hp
        exact absurd hb (by decide)
      · cases hp
        exact absurd hb (by decide)
  obtain ⟨j, hj, -, he, -⟩ := (read_diagnostics file content).2 hc
  have hj5 : j = 5 := hj.unique hl
  subst hj5
  exact ⟨hc, hl, he (by decide), ho, (read_diagnostics file other).1 ho⟩

end Document

end WordGrammar
