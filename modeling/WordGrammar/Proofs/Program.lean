import WordGrammar.Program
import WordGrammar.Proofs.Grammar.Augmentation

/-! What a run of the command leaves behind. All writing comes after all reading,
so a document with a fault prints nothing, and one without prints everything or
fails with one message. A full device takes nothing, which shows only if there
is something to print. -/

namespace WordGrammar

namespace Grammar

theorem lines_augment_ofRules_eq_nil_iff {rules : List Rule} :
    (ofRules rules).augment.lines = [] ↔ rules = [] := by
  constructor
  · intro h
    have hl := length_augmentedLines rules
    rw [← lines_augment_ofRules, h, List.length_nil] at hl
    exact List.eq_nil_of_length_eq_zero (by omega)
  · rintro rfl
    rfl

end Grammar

namespace Document

theorem load_ok (file : Path) (text : Text) : load file (.ok text.utf8) = read file text := by
  have ht : Text.ofUtf8? text.utf8 = some text := Text.ofUtf8?_eq_some_iff.mpr rfl
  simp only [load, ht]

theorem load_ok_of_not_utf8 (file : Path) {bytes : Bytes} (h : ∀ text : Text, bytes ≠ text.utf8) :
    load file (.ok bytes) = .error [⟨⟨file, 0⟩, .unreadable .invalidUtf8⟩] := by
  have hb : Text.ofUtf8? bytes = none := by
    apply Option.eq_none_iff_forall_ne_some.mpr
    intro text ht
    exact h text (Text.ofUtf8?_eq_some_iff.mp ht)
  simp only [load, hb, Location.wholeFile]

theorem exists_text_of_load {file : Path} {contents : Except ReadFailure Bytes} {d : Document}
    (h : load file contents = .ok d) :
    ∃ text : Text, contents = .ok text.utf8 ∧ read file text = .ok d := by
  cases contents with
  | error failure => cases h
  | ok bytes =>
    by_cases hb : ∃ text : Text, bytes = text.utf8
    · obtain ⟨text, rfl⟩ := hb
      rw [load_ok] at h
      exact ⟨text, rfl, h⟩
    · rw [load_ok_of_not_utf8 file (not_exists.mp hb)] at h
      cases h

theorem exists_rules_of_read {file : Path} {text : Text} {d : Document}
    (h : read file text = .ok d) :
    ∃ sections rules, Sections.ofText file (Text.unifyLineEnds text) = .ok sections ∧
      (Text.lines sections.rules).map Rule.ofLine = rules.map .ok ∧
      d = ⟨Grammar.ofRules rules, sections.sentence⟩ := by
  unfold read at h
  cases hs : Sections.ofText file (Text.unifyLineEnds text) with
  | error fault => simp [hs] at h
  | ok sections =>
    cases hg : Grammar.read file sections.rules with
    | error faults => simp [hs, hg] at h
    | ok g =>
      obtain ⟨rules, hl, rfl⟩ := Grammar.read_eq_ok_iff.mp hg
      simp only [hs, hg, Except.ok.injEq] at h
      exact ⟨sections, rules, rfl, hl, h.symm⟩

end Document

namespace Program

def documentLines (document : Document) (withSentence : Bool) : List Text :=
  document.grammar.augment.lines ++
    if withSentence then sentenceLines document.sentence.words else []

theorem printDocument_eq (document : Document) (withSentence : Bool) :
    printDocument document withSentence = Sink.writeLines (documentLines document withSentence) := by
  cases withSentence with
  | false => simp [printDocument, documentLines, Grammar.print]
  | true =>
    rw [documentLines, Sink.writeLines_append]
    rfl

theorem collect_printDocument (document : Document) (withSentence : Bool) :
    Sink.collect .unlimited (printDocument document withSentence) =
      ((Sink.collect .unlimited document.grammar.augment.print).1 ++
        (if withSentence then
          (Sink.collect .unlimited (printSentence document.sentence.words)).1 else []), none) := by
  rw [printDocument_eq]
  cases withSentence <;> simp [documentLines, printSentence]

theorem documentLines_eq_nil_iff {rules : List Rule} {sentence : Text} {withSentence : Bool} :
    documentLines ⟨Grammar.ofRules rules, sentence⟩ withSentence = [] ↔
      ¬ (withSentence = true ∨ rules ≠ []) := by
  cases withSentence with
  | false => simp [documentLines, Grammar.lines_augment_ofRules_eq_nil_iff]
  | true => simp [documentLines, sentenceLines]

theorem collect_full (lines : List Text) (fault : WriteFault) :
    Sink.collect (.limited 0 fault) (Sink.writeLines lines) =
      ([], if lines = [] then none else some fault) := by
  have hn : (Text.utf8 (printed lines)).length ≤ 0 ↔ lines = [] := by
    rw [Nat.le_zero, List.length_eq_zero_iff, utf8_printed_eq_nil_iff]
  simp only [Sink.writeLines_eq_write, Sink.collect_write_limited, hn, Nat.zero_min, List.take_zero]

/-- A file that does not hold a document prints nothing but what is wrong with
it. A document prints its augmented grammar and, if asked to, its sentence. On a
full device it prints nothing, and fails unless there was nothing to print. -/
theorem run_all_or_nothing (options : Options) (contents : Except ReadFailure Bytes) :
    (∀ failure, contents = .error failure → Document.load options.file contents =
      .error [⟨⟨options.file, 0⟩, .unreadable failure⟩]) ∧
    (∀ bytes, contents = .ok bytes → (∀ text : Text, bytes ≠ text.utf8) →
      Document.load options.file contents =
        .error [⟨⟨options.file, 0⟩, .unreadable .invalidUtf8⟩]) ∧
    (∀ text : Text, contents = .ok text.utf8 →
      Document.load options.file contents = Document.read options.file text) ∧
    (∀ faults, Document.load options.file contents = .error faults → ∀ room,
      run options contents room = ⟨1, [], (faults.map fun d => d.display ++ ['\n']).flatten⟩) ∧
    (∀ document, Document.load options.file contents = .ok document →
      run options contents .unlimited =
        ⟨0, (Sink.collect .unlimited document.grammar.augment.print).1 ++
          (if options.sentence then
            (Sink.collect .unlimited (printSentence document.sentence.words)).1 else []), []⟩ ∧
      ∃ (text : Text) (sections : Sections), contents = .ok text.utf8 ∧
        Sections.ofText options.file (Text.unifyLineEnds text) = .ok sections ∧
        run options contents (.limited 0 .deviceFull) =
          if options.sentence = true ∨ Text.lines sections.rules ≠ [] then
            ⟨1, [], "Could not write output: No space left on device (os error 28)\n".toList⟩
          else ⟨0, [], []⟩) := by
  refine ⟨?_, ?_, ?_, ?_, ?_⟩
  · rintro failure rfl
    rfl
  · rintro bytes rfl hb
    exact Document.load_ok_of_not_utf8 options.file hb
  · rintro text rfl
    exact Document.load_ok options.file text
  · intro faults hf room
    simp only [run, hf, displayAll, List.flatMap_def]
  · intro document hd
    constructor
    · simp only [run, hd, collect_printDocument]
    · obtain ⟨text, hc, hr⟩ := Document.exists_text_of_load hd
      obtain ⟨sections, rules, hs, hl, rfl⟩ := Document.exists_rules_of_read hr
      refine ⟨text, sections, hc, hs, ?_⟩
      have hrules : Text.lines sections.rules = [] ↔ rules = [] := by
        rw [← List.map_eq_nil_iff (f := Rule.ofLine), hl, List.map_eq_nil_iff]
      simp only [run, hd, printDocument_eq, collect_full, documentLines_eq_nil_iff, ne_eq, hrules]
      by_cases hp : options.sentence = true ∨ ¬ rules = []
      · simp [hp]
        rfl
      · simp [hp]

/-- A missing file, bytes that are no text, a faulty line, an empty grammar and
a grammar with one rule. -/
theorem run_all_or_nothing_small_files :
    let file : Path := ⟨"g".toList⟩
    let full : Room := .limited 0 .deviceFull
    let failed := "Could not write output: No space left on device (os error 28)\n".toList
    let whole := "\x1b[31;49;1m[g]\x1b[39;49;1m  File error: ".toList
    let faulty : Text := "S\n\nx".toList
    let bare : Text := "\n\nThe dog\n".toList
    let one : Text := "S => A\n\nThe dog\n".toList
    run ⟨file, true⟩ (.error .notFound) .unlimited =
        ⟨1, [], whole ++ "No such file or directory (os error 2)\x1b[0m\n".toList⟩ ∧
      (∀ text : Text, [0xff] ≠ text.utf8) ∧
      run ⟨file, true⟩ (.ok [0xff]) full =
        ⟨1, [], whole ++ "stream did not contain valid UTF-8\x1b[0m\n".toList⟩ ∧
      run ⟨file, false⟩ (.ok faulty.utf8) full =
        ⟨1, [], "\x1b[31;49;1m[g:1]\x1b[39;49;1m  Expected `=>` after the symbol\x1b[0m\n".toList⟩ ∧
      run ⟨file, true⟩ (.ok one.utf8) .unlimited =
        ⟨0, Text.utf8 "S : A\nA : \"A\"\n\nSentence : The dog\n".toList, []⟩ ∧
      run ⟨file, false⟩ (.ok one.utf8) full = ⟨1, [], failed⟩ ∧
      run ⟨file, true⟩ (.ok bare.utf8) full = ⟨1, [], failed⟩ ∧
      run ⟨file, false⟩ (.ok bare.utf8) full = ⟨0, [], []⟩ := by
  intro file full failed whole faulty bare one
  have hbytes : ∀ text : Text, [0xff] ≠ text.utf8 := by
    intro text h
    have hn : Text.ofUtf8? [0xff] = none := by decide
    rw [Text.ofUtf8?_eq_some_iff.mpr h] at hn
    cases hn
  have hmissing : displayAll [⟨⟨file, 0⟩, .unreadable .notFound⟩] =
      whole ++ "No such file or directory (os error 2)\x1b[0m\n".toList := by decide +kernel
  have hgarbled : displayAll [⟨⟨file, 0⟩, .unreadable .invalidUtf8⟩] =
      whole ++ "stream did not contain valid UTF-8\x1b[0m\n".toList := by decide +kernel
  have hfaulty : displayAll [⟨⟨file, 1⟩, .missingArrow⟩] =
      "\x1b[31;49;1m[g:1]\x1b[39;49;1m  Expected `=>` after the symbol\x1b[0m\n".toList := by
    decide +kernel
  -- On a full device it comes down to the sentence and the lines of the first section.
  have hfull : ∀ (withSentence : Bool) (text : Text) (document : Document) (sections : Sections),
      Document.read file text = .ok document →
      Sections.ofText file (Text.unifyLineEnds text) = .ok sections →
      run ⟨file, withSentence⟩ (.ok text.utf8) full =
        if withSentence = true ∨ Text.lines sections.rules ≠ [] then ⟨1, [], failed⟩
        else ⟨0, [], []⟩ := by
    intro withSentence text document sections hd hs
    obtain ⟨-, -, ht, -, ho⟩ := run_all_or_nothing ⟨file, withSentence⟩ (.ok text.utf8)
    obtain ⟨-, text', sections', hc, hs', hr⟩ := ho document ((ht text rfl).trans hd)
    have he : text' = text := Text.utf8_injective (Except.ok.inj hc).symm
    rw [he] at hs'
    rw [Except.ok.inj (hs.symm.trans hs')]
    exact hr
  refine ⟨?_, hbytes, ?_, ?_, ?_, ?_, ?_, ?_⟩
  · obtain ⟨hf, -, -, he, -⟩ := run_all_or_nothing ⟨file, true⟩ (.error .notFound)
    exact (he _ (hf _ rfl) .unlimited).trans (congrArg (Outcome.mk 1 []) hmissing)
  · obtain ⟨-, hb, -, he, -⟩ := run_all_or_nothing ⟨file, true⟩ (.ok [0xff])
    exact (he _ (hb _ rfl hbytes) full).trans (congrArg (Outcome.mk 1 []) hgarbled)
  · obtain ⟨-, -, ht, he, -⟩ := run_all_or_nothing ⟨file, false⟩ (.ok faulty.utf8)
    have hd : Document.read file faulty = .error [⟨⟨file, 1⟩, .missingArrow⟩] := rfl
    exact (he _ ((ht faulty rfl).trans hd) full).trans (congrArg (Outcome.mk 1 []) hfaulty)
  · obtain ⟨-, -, ht, -, ho⟩ := run_all_or_nothing ⟨file, true⟩ (.ok one.utf8)
    exact (ho ⟨Grammar.ofRules [⟨"S".toList, ["A".toList]⟩], "The dog\n".toList⟩
      ((ht one rfl).trans rfl)).1
  · exact hfull false one _ _ rfl rfl
  · exact hfull true bare _ _ rfl rfl
  · exact hfull false bare _ _ rfl rfl

end Program

end WordGrammar
