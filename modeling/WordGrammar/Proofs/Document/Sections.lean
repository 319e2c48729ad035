import Mathlib.Data.Set.Subsingleton
import WordGrammar.Document
import WordGrammar.Proofs.Text.Runs

/-! The two sections of a text. How many sections there are is told by the runs
of line feeds alone, and a text with two of them can be broken in one way only. -/

namespace WordGrammar

namespace Sections

/-- The sections of a text are one more than its breaks, of which every run of
line feeds has half as many as it is long, rounded down. -/
def number (text : Text) : Nat :=
  1 + Text.pairs '\n' text

/-- A text broken in two. The break takes the first line feeds of its run, and
neither side has another break. -/
structure Breaks (s : Sections) (text : Text) : Prop where
  text_eq : text = s.rules ++ sectionBreak ++ s.sentence
  rules_unbroken : ¬ sectionBreak <:+: s.rules
  rules_last : s.rules.getLast? ≠ some '\n'
  sentence_unbroken : ¬ sectionBreak <:+: s.sentence

theorem sectionBreak_eq : sectionBreak = ['\n', '\n'] := rfl

theorem sectionBreak_ne_nil : sectionBreak ≠ [] := by decide

theorem number_eq (text : Text) : number text = Text.count sectionBreak text + 1 := by
  rw [number, sectionBreak_eq, Text.count_eq_pairs, Nat.add_comm]

theorem length_split (text : Text) : (Text.split sectionBreak text).length = number text := by
  rw [Text.length_split, number_eq]

theorem split_eq_iff_breaks {s : Sections} {text : Text} :
    Text.split sectionBreak text = [s.rules, s.sentence] ↔ s.Breaks text := by
  rw [Text.split_eq_pair_iff sectionBreak_ne_nil, sectionBreak_eq, Text.firstBehind_pair_iff]
  constructor
  · rintro ⟨ht, ⟨hr, hl⟩, hs⟩
    exact ⟨ht, hr, hl, hs⟩
  · rintro ⟨ht, hr, hl, hs⟩
    exact ⟨ht, ⟨hr, hl⟩, hs⟩

theorem ofText_eq_ok_iff {file : Path} {text : Text} {s : Sections} :
    ofText file text = .ok s ↔ s.Breaks text := by
  rw [← split_eq_iff_breaks]
  constructor
  · intro h
    unfold ofText at h
    split at h
    · rename_i rules sentence hs
      cases h
      exact hs
    · cases h
  · intro h
    simp only [ofText, h]

theorem ofText_eq_error_iff {file : Path} {text : Text} {d : Diagnostic} :
    ofText file text = .error d ↔
      number text ≠ 2 ∧ d = ⟨⟨file, 0⟩, .sectionCount (number text)⟩ := by
  rw [← length_split]
  unfold ofText
  split
  · rename_i hs
    simp [hs]
  · rename_i h
    have hn : (Text.split sectionBreak text).length ≠ 2 := by
      intro hl
      obtain ⟨rules, sentence, hs⟩ := List.length_eq_two.mp hl
      exact h rules sentence hs
    simp [hn, Location.wholeFile, eq_comm]

theorem exists_ofText_eq_ok_iff {file : Path} {text : Text} :
    (∃ s, ofText file text = .ok s) ↔ number text = 2 := by
  constructor
  · rintro ⟨s, hs⟩
    by_contra hn
    rw [ofText_eq_error_iff.mpr ⟨hn, rfl⟩] at hs
    cases hs
  · intro hn
    cases h : ofText file text with
    | ok s => exact ⟨s, rfl⟩
    | error d => exact absurd hn (ofText_eq_error_iff.mp h).1

/-- A text is taken apart if and only if its runs of line feeds make two sections,
and is reported with the number that they make otherwise. What it is taken apart
into is the only way to break it. -/
theorem ofText_iff_breaks (file : Path) (text : Text) :
    ((∃ s, ofText file text = .ok s) ↔ number text = 2) ∧
      (∀ d, ofText file text = .error d ↔
        number text ≠ 2 ∧ d = ⟨⟨file, 0⟩, .sectionCount (number text)⟩) ∧
      (∀ s, ofText file text = .ok s ↔ s.Breaks text) ∧
      {s : Sections | s.Breaks text}.Subsingleton := by
  refine ⟨exists_ofText_eq_ok_iff, fun d => ofText_eq_error_iff, fun s => ofText_eq_ok_iff, ?_⟩
  intro s hs s' hs'
  have h := (@ofText_eq_ok_iff file text s).mpr hs
  rw [ofText_eq_ok_iff.mpr hs'] at h
  exact (Except.ok.inj h).symm

/-- Odd runs at the start and at the end, and a run that breaks a text twice. -/
example : number "\n\n\nA => B\n".toList = 2 ∧ number "A => B\n\nThe\n\n\n".toList = 3 ∧
    number "A => B\n\n\n\nThe".toList = 3 := by decide

end Sections

end WordGrammar
