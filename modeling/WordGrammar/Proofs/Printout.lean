import WordGrammar.Proofs.Report

/-! Printing into a sink with little room. What is printed reaches the sink line by
line, and each line in pieces of any size, but all that the sink can tell is the
text as a whole: it keeps as much of its bytes as it has room for, even if that is
half a character, and after a write that fails nothing more is tried. -/

namespace WordGrammar

/-- A grammar, the words of a sentence, or the one and then the other if it could be printed. -/
inductive Printout where
  | grammar (g : Grammar)
  | sentence (words : List Text)
  | both (g : Grammar) (words : List Text)

namespace Printout

def print : Printout → Write Unit
  | grammar g => g.print
  | sentence words => printSentence words
  | both g words => do
    g.print
    printSentence words

def lines : Printout → List Text
  | grammar g => g.lines
  | sentence words => sentenceLines words
  | both g words => g.lines ++ sentenceLines words

theorem print_eq_writeLines (p : Printout) : p.print = Sink.writeLines p.lines := by
  cases p with
  | grammar g => rfl
  | sentence words => rfl
  | both g words => exact (Sink.writeLines_append g.lines (sentenceLines words)).symm

end Printout

namespace Sink

/-- Pieces in the order of the lines, those of each line with its line feed. -/
def PiecesOf (ls : List Text) (pieces : List (List Bytes)) : Prop :=
  pieces.map List.flatten = ls.map fun l => Text.utf8 (l ++ ['\n'])

instance (ls : List Text) (pieces : List (List Bytes)) : Decidable (PiecesOf ls pieces) :=
  inferInstanceAs (Decidable (_ = _))

def writePieces (pieces : List (List Bytes)) : Write Unit :=
  forM pieces fun line => forM line write

theorem PiecesOf.writePieces_eq {ls : List Text} {pieces : List (List Bytes)}
    (h : PiecesOf ls pieces) : writePieces pieces = writeLines ls := by
  have hp : writePieces pieces = forM (pieces.map List.flatten) write := by
    rw [List.forM_map]
    simp only [writePieces, forM_write]
  rw [hp, h, List.forM_map]
  rfl

theorem run_writePieces_append {before after : List (List Bytes)} {s s' : Sink} {fault : WriteFault}
    (h : (writePieces before).run s = .error fault s') :
    (writePieces (before ++ after)).run s = .error fault s' := by
  have ha : writePieces (before ++ after) = (do writePieces before; writePieces after) :=
    List.forM_append (m := Write)
  simp only [EStateM.run] at h
  simp only [ha, EStateM.run, bind, EStateM.bind, h]

end Sink

/-- A sink with room for `n` bytes holds the first `n` bytes of what a sink without a
limit would hold, and the fault says whether that is less than all. The pieces that
lines are written in make no difference to any sink, and once the pieces of some
lines have failed to be written, those of the lines behind them change nothing. -/
theorem Printout.collect_print_limited (p : Printout) (n : Nat) (fault : WriteFault) :
    let bytes := (Sink.collect .unlimited p.print).1
    Sink.collect .unlimited p.print = (Text.utf8 (printed p.lines), none) ∧
      Sink.collect (.limited n fault) p.print =
        (bytes.take (min n bytes.length), if bytes.length ≤ n then none else some fault) ∧
      ∀ pieces, Sink.PiecesOf p.lines pieces → Sink.writePieces pieces = p.print ∧
        ∀ before after, pieces = before ++ after → ∀ s s' f,
          (Sink.writePieces before).run s = .error f s' → p.print.run s = .error f s' := by
  have hu : Sink.collect .unlimited p.print = (Text.utf8 (printed p.lines), none) := by
    rw [p.print_eq_writeLines, Sink.collect_writeLines]
  intro bytes
  have hb : bytes = Text.utf8 (printed p.lines) := congrArg Prod.fst hu
  refine ⟨hu, ?_, ?_⟩
  · rw [p.print_eq_writeLines, Sink.writeLines_eq_write, Sink.collect_write_limited, hb]
  · intro pieces hc
    have hp : Sink.writePieces pieces = p.print := hc.writePieces_eq.trans p.print_eq_writeLines.symm
    refine ⟨hp, ?_⟩
    rintro before after rfl s s' f hf
    rw [← hp]
    exact Sink.run_writePieces_append hf

/-- Room that ends inside a character, room that ends with the grammar, and just enough room. -/
theorem Printout.collect_print_limited_half_character :
    let p := Printout.both ⟨[(['é'], [[.word ['A']]])], [['A']]⟩ [['B']]
    let line : Bytes := [0xc3, 0xa9, 0x20, 0x3a, 0x20, 0x41, 0x0a]
    let rest : Bytes := Text.utf8 "Sentence : B\n".toList
    let pieces : List (List Bytes) :=
      [[[0xc3, 0xa9], [], line.drop 2], [[0x0a]], [rest.take 3, rest.drop 3]]
    let half := Sink.empty (.limited 1 .noRoom)
    let full : Sink := ⟨#[0xc3], .limited 0 .noRoom⟩
    Sink.PiecesOf p.lines pieces ∧
      Sink.collect (.limited 1 .noRoom) (Sink.writePieces pieces) = ([0xc3], some .noRoom) ∧
      Sink.collect (.limited 7 .noRoom) p.print = (line, some .noRoom) ∧
      Sink.collect (.limited 21 .noRoom) p.print = (line ++ 0x0a :: rest, none) ∧
      (Sink.writePieces (pieces.take 1)).run half = .error .noRoom full ∧
      p.print.run half = .error .noRoom full := by
  intro p line rest pieces half full
  have hc : Sink.PiecesOf p.lines pieces := by decide
  obtain ⟨hu, h1, hp⟩ := Printout.collect_print_limited p 1 .noRoom
  obtain ⟨-, h7, -⟩ := Printout.collect_print_limited p 7 .noRoom
  obtain ⟨-, h21, -⟩ := Printout.collect_print_limited p 21 .noRoom
  have hb : Text.utf8 (printed p.lines) = line ++ 0x0a :: rest := by decide
  rw [hu, hb] at h1 h7 h21
  obtain ⟨he, hf⟩ := hp pieces hc
  rw [← he] at h1
  have hfail : (Sink.writePieces (pieces.take 1)).run half = .error .noRoom full := rfl
  exact ⟨hc, h1, h7, h21, hfail, hf (pieces.take 1) (pieces.drop 1) rfl half full .noRoom hfail⟩

end WordGrammar
