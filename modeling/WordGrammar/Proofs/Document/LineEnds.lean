import WordGrammar.Document

/-! Line ends of whole documents. Every line of a document may end in a line feed
or in a carriage return and a line feed, each line in its own way, and the document
that is read is always the same. -/

namespace WordGrammar

inductive LineEnd where
  | feed
  | returnFeed

namespace LineEnd

def text : LineEnd → Text
  | .feed => ['\n']
  | .returnFeed => ['\r', '\n']

end LineEnd

namespace Text

/-- The pieces one after the other, with the `i`-th of the line ends behind the `i`-th of them. -/
def assemble : List Text → (Nat → LineEnd) → Text
  | [], _ => []
  | [p], _ => p
  | p :: q :: ps, ends => p ++ (ends 0).text ++ assemble (q :: ps) (fun i => ends (i + 1))

theorem unifyLineEnds_append {p : Text} (hp : p.getLast? ≠ some '\r') (e : LineEnd) (t : Text) :
    unifyLineEnds (p ++ e.text ++ t) = unifyLineEnds p ++ '\n' :: unifyLineEnds t := by
  induction p with
  | nil => cases e <;> simp [LineEnd.text, unifyLineEnds]
  | cons c p ih =>
    cases p with
    | nil =>
      have hc : c ≠ '\r' := by simpa using hp
      cases e <;> simp [LineEnd.text, unifyLineEnds, hc]
    | cons d p =>
      have hh := ih (by simpa using hp)
      by_cases hr : c = '\r' ∧ d = '\n'
      · simpa [unifyLineEnds, hr] using hh
      · simpa [unifyLineEnds, hr] using hh

theorem unifyLineEnds_assemble {ps : List Text} (h : ∀ p ∈ ps.dropLast, p.getLast? ≠ some '\r')
    (ends : Nat → LineEnd) :
    unifyLineEnds (assemble ps ends) = List.intercalate ['\n'] (ps.map unifyLineEnds) := by
  induction ps generalizing ends with
  | nil => rfl
  | cons p ps ih =>
    cases ps with
    | nil => simp [assemble]
    | cons q ps =>
      have hp := h p (by simp)
      have hh := ih (fun r hr => h r (by simp [hr])) (fun i => ends (i + 1))
      rw [assemble, unifyLineEnds_append hp, hh]
      simp [List.intercalate_cons_cons]

end Text

namespace Document

theorem read_congr {file : Path} {s t : Text}
    (h : Text.unifyLineEnds s = Text.unifyLineEnds t) : read file s = read file t := by
  simp only [read, h]

/-- From the same pieces the same document is read, or the same faults are found,
whichever line end stands behind each of them. Only the last piece may end in a
carriage return, which would be taken for a part of the line end in any other. -/
theorem read_assemble_eq {pieces : List Text}
    (h : ∀ p ∈ pieces.dropLast, p.getLast? ≠ some '\r') (ends others : Nat → LineEnd)
    (file : Path) :
    read file (Text.assemble pieces ends) = read file (Text.assemble pieces others) := by
  apply read_congr
  rw [Text.unifyLineEnds_assemble h, Text.unifyLineEnds_assemble h]

/-- Both line ends around the blank line, and carriage returns that belong to no line end. -/
theorem read_assemble_eq_mixed :
    let pieces := ["S => A\rB".toList, "T => ".toList, [], "The\rdog\r".toList]
    let mixed : Nat → LineEnd := fun i => if i = 1 then .feed else .returnFeed
    let feeds : Nat → LineEnd := fun _ => .feed
    (∀ p ∈ pieces.dropLast, p.getLast? ≠ some '\r') ∧
      Text.assemble pieces mixed = "S => A\rB\r\nT => \n\r\nThe\rdog\r".toList ∧
      Text.assemble pieces feeds = "S => A\rB\nT => \n\nThe\rdog\r".toList ∧
      (∀ ends, read ⟨"g".toList⟩ (Text.assemble pieces ends) =
        .ok ⟨Grammar.ofRules [⟨"S".toList, ["A".toList, "B".toList]⟩, ⟨"T".toList, []⟩],
          "The\rdog\r".toList⟩) := by
  intro pieces mixed feeds
  have h : ∀ p ∈ pieces.dropLast, p.getLast? ≠ some '\r' := by decide
  exact ⟨h, rfl, rfl, fun ends => (read_assemble_eq h ends feeds ⟨"g".toList⟩).trans rfl⟩

end Document

end WordGrammar
