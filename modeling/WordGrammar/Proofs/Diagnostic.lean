import Mathlib.Data.List.Basic
import WordGrammar.Proofs.Document.Sections
import WordGrammar.Proofs.Grammar.Faults

/-! Diagnostics read back from their displays. A path may look like a place in a
file, or like a message, and the place of a whole file like a line of another.
What a content is reported with is told apart all the same: a message by its end,
and a line by the digits behind the last colon. -/

namespace WordGrammar

namespace Text

theorem eq_of_append_cons_eq {s t p q : Text} {c : Char} (hp : c ∉ p) (hq : c ∉ q)
    (h : s ++ c :: p = t ++ c :: q) : s = t ∧ p = q := by
  rcases List.append_eq_append_iff.mp h with ⟨u, rfl, hu⟩ | ⟨u, rfl, hu⟩
  · cases u with
    | nil => exact ⟨(List.append_nil s).symm, (List.cons.inj hu).2⟩
    | cons d u =>
      have hh : p = u ++ c :: q := (List.cons.inj hu).2
      simp [hh] at hp
  · cases u with
    | nil => exact ⟨List.append_nil t, (List.cons.inj hu).2.symm⟩
    | cons d u =>
      have hh : q = u ++ c :: p := (List.cons.inj hu).2
      simp [hh] at hq

theorem not_mem_toDigits {c : Char} (hc : c.isDigit = false) (n : Nat) : c ∉ Nat.toDigits 10 n := by
  intro hm
  have hd := Nat.isDigit_of_mem_toDigits (by decide) (by decide) hm
  rw [hc] at hd
  cases hd

theorem eq_of_append_toDigits_eq {s t : Text} {c : Char} (hc : c.isDigit = false) {m n : Nat}
    (h : s ++ c :: Nat.toDigits 10 m = t ++ c :: Nat.toDigits 10 n) : s = t ∧ m = n := by
  obtain ⟨hs, hd⟩ := eq_of_append_cons_eq (not_mem_toDigits hc m) (not_mem_toDigits hc n) h
  have hn := congrArg (fun digits => Nat.ofDigitChars 10 digits 0) hd
  exact ⟨hs, by simpa using hn⟩

end Text

theorem Location.eq_of_render_eq {l m : Location} (hw : l.line = 0 ↔ m.line = 0)
    (h : l.render = m.render) : l = m := by
  obtain ⟨⟨s⟩, i⟩ := l
  obtain ⟨⟨t⟩, j⟩ := m
  by_cases hi : i = 0
  · have hj : j = 0 := hw.mp hi
    have hs : s = t := by simpa [render, hi, hj] using h
    rw [hs, hi, hj]
  · have hj : j ≠ 0 := fun hj => hi (hw.mpr hj)
    simp only [render, hi, hj, if_false] at h
    obtain ⟨hs, hn⟩ := Text.eq_of_append_toDigits_eq rfl h
    rw [hs, hn]

namespace Problem

/-- Whether a problem lies in what a file says, and not in the file itself. -/
def OfContent (p : Problem) : Prop :=
  ∀ f, p ≠ .unreadable f

theorem exists_message_sectionCount :
    ∃ x y : Text, y.getLast? = some ')' ∧
      ∀ n, message (.sectionCount n) = x ++ ' ' :: Nat.toDigits 10 n ++ y := by
  have hl : "Expected a grammar and a sentence separated by one blank line, found ".toList.getLast? =
      some ' ' := by decide
  obtain ⟨x, hx⟩ := List.getLast?_eq_some_iff.mp hl
  refine ⟨x, " section(s)".toList, by decide, fun n => ?_⟩
  rw [List.append_cons, ← hx]
  rfl

theorem getLast?_append_message (a : Text) {p : Problem} (hp : p.OfContent) :
    (a ++ p.message).getLast? =
      match p with
      | .sectionCount _ => some ')'
      | .missingArrow => some 'l'
      | .repeatedArrow => some 'd'
      | .unreadable _ => none := by
  rw [List.getLast?_append]
  cases p with
  | sectionCount n =>
    obtain ⟨x, y, hy, hm⟩ := exists_message_sectionCount
    rw [hm, List.getLast?_append, hy]
    rfl
  | missingArrow =>
    have hl : (message .missingArrow).getLast? = some 'l' := by decide
    rw [hl]
    rfl
  | repeatedArrow =>
    have hl : (message .repeatedArrow).getLast? = some 'd' := by decide
    rw [hl]
    rfl
  | unreadable f => exact absurd rfl (hp f)

theorem eq_of_append_message_eq {a b : Text} {p q : Problem} (hp : p.OfContent) (hq : q.OfContent)
    (h : a ++ p.message = b ++ q.message) : a = b ∧ p = q := by
  -- The last characters of the three messages are different.
  have hl := congrArg List.getLast? h
  rw [getLast?_append_message a hp, getLast?_append_message b hq] at hl
  cases p with
  | sectionCount m =>
    cases q with
    | sectionCount n =>
      obtain ⟨x, y, -, hm⟩ := exists_message_sectionCount
      simp only [hm, ← List.append_assoc] at h
      obtain ⟨ha, hn⟩ := Text.eq_of_append_toDigits_eq rfl (List.append_cancel_right h)
      exact ⟨List.append_cancel_right ha, congrArg sectionCount hn⟩
    | missingArrow => cases hl
    | repeatedArrow => cases hl
    | unreadable f => cases hl
  | missingArrow =>
    cases q with
    | missingArrow => exact ⟨List.append_cancel_right h, rfl⟩
    | sectionCount n => cases hl
    | repeatedArrow => cases hl
    | unreadable f => cases hl
  | repeatedArrow =>
    cases q with
    | repeatedArrow => exact ⟨List.append_cancel_right h, rfl⟩
    | sectionCount n => cases hl
    | missingArrow => cases hl
    | unreadable f => cases hl
  | unreadable f => exact absurd rfl (hp f)

theorem eq_or_eq_of_ofArrows? {n : Nat} {p : Problem} (h : ofArrows? n = some p) :
    p = .missingArrow ∨ p = .repeatedArrow := by
  rcases n with _ | _ | n
  · exact Or.inl (Option.some.inj h).symm
  · cases h
  · exact Or.inr (Option.some.inj h).symm

end Problem

namespace Diagnostic

/-- What a content can be reported with. Only the number of its sections is said
of the file as a whole. -/
structure OfContent (d : Diagnostic) : Prop where
  problem : d.problem.OfContent
  line_eq_zero_iff : d.location.line = 0 ↔ ∃ n, d.problem = .sectionCount n

theorem eq_of_display_eq {d e : Diagnostic} (hd : d.OfContent) (he : e.OfContent)
    (h : d.display = e.display) : d = e := by
  obtain ⟨hl, hp⟩ := Problem.eq_of_append_message_eq hd.problem he.problem
    (List.append_cancel_right h)
  rw [List.append_assoc, List.append_assoc] at hl
  have hr := List.append_cancel_right (List.append_cancel_left hl)
  have hw : d.location.line = 0 ↔ e.location.line = 0 := by
    rw [hd.line_eq_zero_iff, he.line_eq_zero_iff, hp]
  exact congrArg₂ Diagnostic.mk (Location.eq_of_render_eq hw hr) hp

end Diagnostic

namespace Rule

theorem ofContent_of_mem_arrowFaults {file : Path} {lines : List Text} {n : Nat} (hn : 0 < n)
    {d : Diagnostic} (h : d ∈ arrowFaults file (lines.zipIdx n)) : d.OfContent := by
  obtain ⟨⟨l, k⟩, hl, hd⟩ := List.mem_filterMap.mp h
  have hk : n ≤ k := List.le_snd_of_mem_zipIdx hl
  obtain ⟨p, hp, rfl⟩ := Option.map_eq_some_iff.mp hd
  have hz : k ≠ 0 := by omega
  rcases Problem.eq_or_eq_of_ofArrows? hp with rfl | rfl
  · exact ⟨fun f => by simp, by simp [hz]⟩
  · exact ⟨fun f => by simp, by simp [hz]⟩

end Rule

namespace Document

theorem ofContent_of_read {file : Path} {content : Text} {ds : List Diagnostic}
    (h : read file content = .error ds) {d : Diagnostic} (hd : d ∈ ds) : d.OfContent := by
  unfold read at h
  split at h
  · rename_i fault hs
    cases h
    obtain ⟨-, hf⟩ := Sections.ofText_eq_error_iff.mp hs
    rw [List.mem_singleton.mp hd, hf]
    exact ⟨fun f => by simp, by simp⟩
  · split at h
    · rename_i faults hg
      cases h
      rw [Grammar.read_eq] at hg
      split at hg
      · cases hg
      · cases hg
        exact Rule.ofContent_of_mem_arrowFaults (by decide) hd
    · cases h

end Document

namespace Diagnostic

/-- What any two contents are reported with is displayed alike only if it is the
same problem in the same line of the same file. -/
theorem display_eq_iff {file other : Path} {content content' : Text} {ds es : List Diagnostic}
    (hds : Document.read file content = .error ds) (hes : Document.read other content' = .error es)
    {d e : Diagnostic} (hd : d ∈ ds) (he : e ∈ es) :
    d.display = e.display ↔
      d.location.file.text = e.location.file.text ∧ d.location.line = e.location.line ∧
        d.problem = e.problem := by
  constructor
  · intro h
    rw [eq_of_display_eq (Document.ofContent_of_read hds hd) (Document.ofContent_of_read hes he) h]
    exact ⟨rfl, rfl, rfl⟩
  · rintro ⟨hs, hl, hp⟩
    have hloc : d.location = e.location := congrArg₂ Location.mk (congrArg Path.mk hs) hl
    exact congrArg display (congrArg₂ Diagnostic.mk hloc hp)

/-- The first line of one file, and the whole of a file that is named like it. -/
theorem display_eq_iff_named_like_line :
    let line : Diagnostic := ⟨⟨⟨"g".toList⟩, 1⟩, .missingArrow⟩
    let whole : Diagnostic := ⟨⟨⟨"g:1".toList⟩, 0⟩, .sectionCount 1⟩
    Document.read ⟨"g".toList⟩ "A\n\nx".toList = .error [line] ∧
      Document.read ⟨"g:1".toList⟩ "A => B".toList = .error [whole] ∧
      line.location.render = whole.location.render ∧ line.display ≠ whole.display := by
  intro line whole
  have hl : Document.read ⟨"g".toList⟩ "A\n\nx".toList = .error [line] := rfl
  have hw : Document.read ⟨"g:1".toList⟩ "A => B".toList = .error [whole] := rfl
  refine ⟨hl, hw, by decide, fun h => ?_⟩
  have hh := (display_eq_iff hl hw List.mem_cons_self List.mem_cons_self).mp h
  exact absurd hh.2.1 (by decide)

end Diagnostic

end WordGrammar
