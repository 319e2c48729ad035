import Mathlib.Data.List.DropRight
import WordGrammar.Proofs.Grammar.Faults
import WordGrammar.Proofs.Grammar.Reading

/-! Invisible ends of lines. The blanks behind a line, spaces apart, make no
difference to the rule that it holds or to what is wrong with it: no arrow
reaches into them, and no word ends in them. So a text may have any of them in
front of its line feeds. -/

namespace WordGrammar

namespace Text

/-- The text without the blanks at its end, as far as they are no spaces. -/
def dropInvisible (t : Text) : Text :=
  t.rdropWhile fun c => isBlank c && c ≠ ' '

/-- A text with the `i`-th of the paddings in front of its `i`-th line feed, and
the next one at its end if there is something behind the last line feed. -/
def padLineEnds : Text → (Nat → Text) → Text
  | [], _ => []
  | c :: rest, pads =>
    if c = '\n' then pads 0 ++ '\n' :: padLineEnds rest (fun i => pads (i + 1))
    else if rest = [] then c :: pads 0
    else c :: padLineEnds rest pads

theorem padLineEnds_of_not_mem {p : Text} (hp : '\n' ∉ p) (pads : Nat → Text) :
    padLineEnds p pads = if p = [] then [] else p ++ pads 0 := by
  induction p with
  | nil => rfl
  | cons c p ih =>
    obtain ⟨hc, hr⟩ := List.ne_and_not_mem_of_not_mem_cons hp
    have hh := ih hr
    by_cases hpn : p = []
    · simp [padLineEnds, hc.symm, hpn]
    · rw [if_neg hpn] at hh
      simp [padLineEnds, hc.symm, hpn, hh]

theorem padLineEnds_cons_lineFeed {p : Text} (hp : '\n' ∉ p) (t : Text) (pads : Nat → Text) :
    padLineEnds (p ++ '\n' :: t) pads =
      p ++ pads 0 ++ '\n' :: padLineEnds t (fun i => pads (i + 1)) := by
  induction p with
  | nil => simp [padLineEnds]
  | cons c p ih =>
    obtain ⟨hc, hr⟩ := List.ne_and_not_mem_of_not_mem_cons hp
    simp [padLineEnds, hc.symm, ih hr]

end Text

namespace Rule

theorem not_mem_arrow {c : Char} (hb : Text.isBlank c = true) (hs : c ≠ ' ') : c ∉ arrow := by
  have he : Text.isBlank '=' = false := rfl
  have hg : Text.isBlank '>' = false := rfl
  intro hm
  have hc : c = ' ' ∨ c = '=' ∨ c = '>' ∨ c = ' ' := by simpa [arrow] using hm
  rcases hc with rfl | rfl | rfl | rfl
  · exact hs rfl
  · exact absurd hb (by simp [he])
  · exact absurd hb (by simp [hg])
  · exact hs rfl

theorem ofLine_concat {c : Char} (hb : Text.isBlank c = true) (hs : c ≠ ' ') (line : Text) :
    ofLine (line ++ [c]) = ofLine line := by
  have hc : c ∉ arrow := not_mem_arrow hb hs
  cases hl : ofLine line with
  | ok r =>
    obtain ⟨body, rfl, hf, ha, hw⟩ := ofLine_eq_ok_iff.mp hl
    refine ofLine_eq_ok_iff.mpr ⟨body ++ [c], by simp, hf, ?_, ?_⟩
    · intro hi
      have hh : ∀ d ∈ [c].head?, d ∉ arrow := by simpa using hc
      rcases Text.infix_append_of_head hh hi with hi | hi
      · exact ha hi
      · have hm : ' ' ∈ [c] := hi.subset (by simp [arrow])
        exact hs (List.mem_singleton.mp hm).symm
    · rw [hw, Text.words_concat hb]
  | error p =>
    rw [ofLine_eq_error_iff] at hl ⊢
    rw [Text.count_concat arrow_ne_nil hc, hl]

theorem ofLine_append {s : Text} (h : ∀ c ∈ s, Text.isBlank c = true ∧ c ≠ ' ') (line : Text) :
    ofLine (line ++ s) = ofLine line := by
  induction s using List.reverseRecOn with
  | nil => rw [List.append_nil]
  | append_singleton s c ih =>
    have hc := h c (by simp)
    rw [← List.append_assoc, ofLine_concat hc.1 hc.2]
    exact ih fun d hd => h d (List.mem_append_left _ hd)

theorem ofLine_dropInvisible (line : Text) : ofLine line.dropInvisible = ofLine line := by
  have hs : ∀ c ∈ line.rtakeWhile (fun c => Text.isBlank c && c ≠ ' '),
      Text.isBlank c = true ∧ c ≠ ' ' := by
    intro c hc
    simpa using List.mem_rtakeWhile_imp hc
  have hl : line.dropInvisible ++ line.rtakeWhile (fun c => Text.isBlank c && c ≠ ' ') = line :=
    List.rdropWhile_append_rtakeWhile
  conv_rhs => rw [← hl, ofLine_append hs]

theorem ofLine_dropReturn (line : Text) : ofLine (Text.dropReturn line) = ofLine line := by
  rcases Text.dropReturn_eq_or line with h | h
  · rw [h]
  · conv_rhs => rw [h, ofLine_concat (by decide) (by decide)]

end Rule

namespace Grammar

theorem faults_congr {file : Path} {ls ms : List Text} (n : Nat)
    (h : ls.map Rule.ofLine = ms.map Rule.ofLine) : faults file ls n = faults file ms n := by
  refine filterMap_zipIdx_congr (Rule.fault? file) ?_ n h
  intro l m hl k
  simp only [Rule.fault?, hl]

theorem read_congr {s t : Text}
    (h : (Text.lines s).map Rule.ofLine = (Text.lines t).map Rule.ofLine) (file : Path) :
    read file s = read file t := by
  have hr : (Text.lines s).filterMap Rule.ofLine? = (Text.lines t).filterMap Rule.ofLine? := by
    have hm := congrArg (List.filterMap Except.toOption) h
    rwa [List.filterMap_map, List.filterMap_map] at hm
  rw [read_eq_ite, read_eq_ite, faults_congr 1 h, hr]

theorem map_ofLine_lines_padLineEnds {pads : Nat → Text}
    (h : ∀ i, ∀ c ∈ pads i, Text.isBlank c = true ∧ c ≠ ' ' ∧ c ≠ '\n') (t : Text) :
    (Text.lines (Text.padLineEnds t pads)).map Rule.ofLine = (Text.lines t).map Rule.ofLine := by
  have hpad : ∀ i p, Rule.ofLine (p ++ pads i) = Rule.ofLine p := fun i p =>
    Rule.ofLine_append (fun c hc => ⟨(h i c hc).1, (h i c hc).2.1⟩) p
  have hfeed : ∀ i p, '\n' ∉ p → '\n' ∉ p ++ pads i := by
    intro i p hp hm
    rcases List.mem_append.mp hm with hm | hm
    · exact hp hm
    · exact (h i _ hm).2.2 rfl
  -- One line after the other; the first of the paddings belongs to the first line.
  induction hn : t.length using Nat.strongRecOn generalizing t pads with
  | ind n ih =>
    by_cases ht : '\n' ∈ t
    · obtain ⟨p, u, rfl, hp⟩ := List.eq_append_cons_of_mem ht
      have hu : u.length < n := by
        simp at hn
        omega
      have hh := ih u.length hu (fun i => h (i + 1)) u (fun i => hpad (i + 1))
        (fun i => hfeed (i + 1)) rfl
      rw [Text.padLineEnds_cons_lineFeed hp, Text.lines_cons_lineFeed (hfeed 0 p hp),
        Text.lines_cons_lineFeed hp, List.map_cons, List.map_cons, Rule.ofLine_dropReturn,
        Rule.ofLine_dropReturn, hpad, hh]
    · rw [Text.padLineEnds_of_not_mem ht]
      by_cases hnil : t = []
      · rw [if_pos hnil, hnil]
      · have hne : t ++ pads 0 ≠ [] := List.append_ne_nil_of_left_ne_nil hnil _
        rw [if_neg hnil, Text.lines_of_not_mem (hfeed 0 t ht), Text.lines_of_not_mem ht, if_neg hne,
          if_neg hnil, List.map_singleton, List.map_singleton, hpad]

/-- The same grammar is read, or the same faults are found under the same
numbers, whatever blanks are put in front of the line feeds of a text and at the
end of a last line that has none. Only spaces, which an arrow can end in, and
line feeds make a difference. -/
theorem read_padLineEnds {pads : Nat → Text}
    (h : ∀ i, ∀ c ∈ pads i, Text.isBlank c = true ∧ c ≠ ' ' ∧ c ≠ '\n') (file : Path)
    (text : Text) : read file (Text.padLineEnds text pads) = read file text :=
  read_congr (map_ofLine_lines_padLineEnds h text) file

/-- Paddings of all kinds, one of them after an arrow that is not finished and one
on an empty line. A text that ends in a line feed gets none behind it. -/
theorem read_padLineEnds_unfinished_arrow :
    let pads : Nat → Text := fun i =>
      if i = 0 then ['\r', '\t', '\r'] else if i = 1 then ['\u2028'] else ['\u3000', '\r', '\r']
    let accepted := "S => Ab \nT => ".toList
    let faulty := "S =>\n\nT => A => B\n".toList
    let file : Path := ⟨"g".toList⟩
    (∀ i, ∀ c ∈ pads i, Text.isBlank c = true ∧ c ≠ ' ' ∧ c ≠ '\n') ∧
      Text.padLineEnds accepted pads = "S => Ab \r\t\r\nT => \u2028".toList ∧
      read file (Text.padLineEnds accepted pads) =
        .ok (ofRules [⟨"S".toList, ["Ab".toList]⟩, ⟨"T".toList, []⟩]) ∧
      Text.padLineEnds faulty pads = "S =>\r\t\r\n\u2028\nT => A => B\u3000\r\r\n".toList ∧
      read file (Text.padLineEnds faulty pads) = .error [⟨⟨file, 1⟩, .missingArrow⟩,
        ⟨⟨file, 2⟩, .missingArrow⟩, ⟨⟨file, 3⟩, .repeatedArrow⟩] := by
  intro pads accepted faulty file
  have h : ∀ i, ∀ c ∈ pads i, Text.isBlank c = true ∧ c ≠ ' ' ∧ c ≠ '\n' := by
    intro i
    simp only [pads]
    split
    · simp [Text.isBlank, Text.blankRanges]
    · split
      · simp [Text.isBlank, Text.blankRanges]
      · simp [Text.isBlank, Text.blankRanges]
  exact ⟨h, rfl, (read_padLineEnds h file accepted).trans rfl, rfl,
    (read_padLineEnds h file faulty).trans rfl⟩

end Grammar

end WordGrammar
