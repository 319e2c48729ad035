import WordGrammar.Document
import WordGrammar.Proofs.Report
import WordGrammar.Proofs.Text.Words

/-! The printed sentence of a document. Blanks inside a word are printed with the
word, line feeds among them. So a sentence is printed on one line if and only if no
line of it ends inside a word. -/

namespace WordGrammar

namespace Text

/-- In front of every line feed there is no capital, or else, blanks apart, the
next thing behind it is a capital or the end. -/
def FeedsOutsideWords (t : Text) : Prop :=
  ∀ a b, t = a ++ '\n' :: b → (∀ c ∈ a, c.isUpper = false) ∨ StartsWord (b.dropWhile isBlank)

theorem concat_isPrefix_trimEnd {c : Char} (hc : isBlank c = false) (s t : Text) :
    s ++ [c] <+: trimEnd (s ++ c :: t) := by
  induction s with
  | nil => simp [trimEnd_cons, hc]
  | cons d s ih =>
    have hne : trimEnd (s ++ c :: t) ≠ [] := by
      intro h
      rw [h] at ih
      simpa using List.prefix_nil.mp ih
    rw [List.cons_append, List.cons_append, trimEnd_cons, if_neg (by simp [hne])]
    exact (List.prefix_cons_inj d).mpr ih

theorem exists_head?_dropWhile {p : Char → Bool} {c : Char} (hc : p c = false) (s t : Text) :
    ∃ d ∈ s ++ [c], ((s ++ c :: t).dropWhile p).head? = some d := by
  induction s with
  | nil => exact ⟨c, by simp, by simp [hc]⟩
  | cons d s ih =>
    by_cases hd : p d = true
    · obtain ⟨e, he, hh⟩ := ih
      exact ⟨e, List.mem_cons_of_mem _ he, by simpa [hd] using hh⟩
    · exact ⟨d, List.mem_cons_self, by simp [hd]⟩

theorem lineFeed_mem_takeWord_of_append {c : Char} {a b : Text} (ha : ∀ d ∈ a, d.isUpper = false)
    (hb : ¬ StartsWord (b.dropWhile isBlank)) : '\n' ∈ (takeWord (c :: (a ++ '\n' :: b))).1 := by
  obtain ⟨e, he, hu⟩ : ∃ e, (b.dropWhile isBlank).head? = some e ∧ e.isUpper = false := by
    simpa [StartsWord] using hb
  obtain ⟨r, hr⟩ := List.head?_eq_some_iff.mp he
  have hblank : isBlank e = false := by
    have hh := List.head?_dropWhile_not isBlank b
    rwa [he] at hh
  -- The word goes on behind the line feed, at least to the next character that is not blank.
  have hsplit : a ++ '\n' :: b = (a ++ '\n' :: b.takeWhile isBlank ++ [e]) ++ r := by
    conv_lhs => rw [← List.takeWhile_append_dropWhile (p := isBlank) (l := b), hr]
    simp
  have hn : ∀ d ∈ a ++ '\n' :: b.takeWhile isBlank ++ [e], (!d.isUpper) = true := by
    intro d hd
    have hd' : d ∈ a ∨ d = '\n' ∨ d ∈ b.takeWhile isBlank ∨ d = e := by simpa using hd
    rcases hd' with hd | rfl | hd | rfl
    · simp [ha d hd]
    · rfl
    · simp [isUpper_of_isBlank (List.mem_takeWhile_imp hd)]
    · simp [hu]
  have hp := concat_isPrefix_trimEnd hblank (c :: (a ++ '\n' :: b.takeWhile isBlank))
    (r.takeWhile fun d => !d.isUpper)
  have hm : '\n' ∈ c :: (a ++ '\n' :: b.takeWhile isBlank) ++ [e] := by simp
  rw [takeWord, hsplit, List.takeWhile_append_of_pos hn]
  simpa only [List.cons_append, List.append_assoc, List.nil_append] using hp.subset hm

theorem exists_append_of_lineFeed_mem_takeWord {c : Char} {t : Text} (hc : c.isUpper = true)
    (h : '\n' ∈ (takeWord (c :: t)).1) :
    ∃ a b, t = a ++ '\n' :: b ∧ ¬ StartsWord (b.dropWhile isBlank) := by
  have hlast := isBlank_of_getLast?_trimEnd (c :: t.takeWhile fun d => !d.isUpper)
  obtain ⟨blanks, ht, -⟩ := exists_trimEnd_append (c :: t.takeWhile fun d => !d.isUpper)
  obtain ⟨x, y, hxy⟩ := List.append_of_mem h
  rw [takeWord] at hxy
  dsimp only at hxy
  rw [hxy] at ht hlast
  cases y using List.reverseRecOn with
  | nil => exact absurd (hlast '\n' (by simp)) (by decide)
  | append_singleton y e =>
    have he : isBlank e = false := by
      apply hlast
      rw [← List.cons_append, ← List.append_assoc]
      exact List.getLast?_concat
    cases x with
    | nil =>
      obtain ⟨rfl, -⟩ := List.cons.inj ht
      exact absurd hc (by decide)
    | cons d a =>
      obtain ⟨-, hbody⟩ := List.cons.inj ht
      have hsplit : t = a ++ '\n' :: (y ++ e :: (blanks ++ t.dropWhile fun d => !d.isUpper)) := by
        conv_lhs => rw [← List.takeWhile_append_dropWhile (p := fun d => !d.isUpper) (l := t), hbody]
        simp
      obtain ⟨f, hf, hhead⟩ :=
        exists_head?_dropWhile he y (blanks ++ t.dropWhile fun d => !d.isUpper)
      have hm : f ∈ t.takeWhile fun d => !d.isUpper := by
        rw [hbody]
        rcases List.mem_append.mp hf with hf | hf
        · simp [hf]
        · simp [List.mem_singleton.mp hf]
      refine ⟨a, _, hsplit, ?_⟩
      intro hs
      have hu := List.mem_takeWhile_imp hm
      simp [hs f hhead] at hu

theorem feedsOutsideWords_cons {c : Char} {t : Text} (hc : c.isUpper = false) :
    FeedsOutsideWords (c :: t) ↔ FeedsOutsideWords t := by
  constructor
  · rintro h a b rfl
    exact (h (c :: a) b rfl).imp_left fun ha d hd => ha d (List.mem_cons_of_mem _ hd)
  · intro h a b hab
    cases a with
    | nil => exact Or.inl (by simp)
    | cons d a =>
      obtain ⟨rfl, ht⟩ := List.cons.inj hab
      exact (h a b ht).imp_left fun ha => List.forall_mem_cons.mpr ⟨hc, ha⟩

theorem feedsOutsideWords_cons_of_isUpper {c : Char} {t : Text} (hc : c.isUpper = true) :
    FeedsOutsideWords (c :: t) ↔ '\n' ∉ (takeWord (c :: t)).1 ∧ FeedsOutsideWords t := by
  constructor
  · intro h
    have hb : ∀ a b, t = a ++ '\n' :: b → StartsWord (b.dropWhile isBlank) := by
      rintro a b rfl
      rcases h (c :: a) b rfl with ha | hb
      · exact absurd (ha c List.mem_cons_self) (by simp [hc])
      · exact hb
    refine ⟨?_, fun a b hab => Or.inr (hb a b hab)⟩
    intro hm
    obtain ⟨a, b, hab, hn⟩ := exists_append_of_lineFeed_mem_takeWord hc hm
    exact hn (hb a b hab)
  · rintro ⟨hm, h⟩ a b hab
    cases a with
    | nil =>
      obtain ⟨rfl, -⟩ := List.cons.inj hab
      exact absurd hc (by decide)
    | cons d a =>
      obtain ⟨rfl, rfl⟩ := List.cons.inj hab
      right
      rcases h a b rfl with ha | hb
      · by_contra hn
        exact hm (lineFeed_mem_takeWord_of_append ha hn)
      · exact hb

theorem lineFeed_not_mem_words_iff (t : Text) :
    (∀ w ∈ words t, '\n' ∉ w) ↔ FeedsOutsideWords t := by
  induction t with
  | nil => simp [FeedsOutsideWords]
  | cons c t ih =>
    cases hc : c.isUpper with
    | true =>
      rw [feedsOutsideWords_cons_of_isUpper hc, ← ih, words_of_isUpper hc, words_takeWord,
        List.forall_mem_cons]
    | false => rw [feedsOutsideWords_cons hc, ← ih, words_of_not_isUpper hc]

end Text

theorem count_joinWords {c : Char} (hc : c ≠ ' ') (ws : List Text) :
    List.count c (joinWords ws) = List.count c ws.flatten := by
  induction ws with
  | nil => rfl
  | cons w ws ih =>
    cases ws with
    | nil => simp [joinWords]
    | cons v ws =>
      have hs : List.count c [' '] = 0 := List.count_eq_zero.mpr (by simpa using hc)
      rw [joinWords] at ih
      rw [joinWords, List.intercalate_cons_cons, List.count_append, List.count_append, hs, ih,
        Nat.add_zero, ← List.count_append, ← List.flatten_cons]

theorem printed_sentenceLines (ws : List Text) :
    printed (sentenceLines ws) = '\n' :: ("Sentence : ".toList ++ joinWords ws) ++ ['\n'] := by
  simp [sentenceLines]

theorem count_lineFeed_printed_sentenceLines (ws : List Text) :
    List.count '\n' (printed (sentenceLines ws)) = List.count '\n' ws.flatten + 2 := by
  have hj := count_joinWords (by decide : '\n' ≠ ' ') ws
  have hs : List.count '\n' "Sentence : ".toList = 0 := by decide
  rw [printed_sentenceLines, List.cons_append, List.count_cons_self, List.count_append,
    List.count_append, hs, hj, List.count_singleton_self]
  omega

/-- A sentence is printed as an empty line, the heading, the joined words and a
line feed. These are two lines, and one more for each line feed inside a word. -/
theorem collect_printSentence_words (sentence : Text) :
    let output := '\n' :: ("Sentence : ".toList ++ joinWords sentence.words) ++ ['\n']
    Sink.collect .unlimited (printSentence sentence.words) = (Text.utf8 output, none) ∧
      List.count '\n' output = List.count '\n' sentence.words.flatten + 2 ∧
      (List.count '\n' output = 2 ↔ sentence.FeedsOutsideWords) := by
  intro output
  have ho : printed (sentenceLines sentence.words) = output := printed_sentenceLines sentence.words
  have hc := count_lineFeed_printed_sentenceLines sentence.words
  rw [ho] at hc
  refine ⟨?_, hc, ?_⟩
  · rw [printSentence, Sink.collect_writeLines, ho]
  · have hn : '\n' ∉ sentence.words.flatten ↔ ∀ w ∈ sentence.words, '\n' ∉ w := by
      simp [List.mem_flatten]
    rw [hc, ← Text.lineFeed_not_mem_words_iff, ← hn, Nat.add_eq_right, List.count_eq_zero]

/-- A sentence that goes on in the next line, inside a word, is printed on two lines. -/
theorem collect_printSentence_wrapped :
    ∃ d, Document.read ⟨"g".toList⟩ "S => A\n\nThe dog\nran\n".toList = .ok d ∧
      Sink.collect .unlimited (printSentence d.sentence.words) =
        (Text.utf8 "\nSentence : The dog\nran\n".toList, none) ∧
      List.count '\n' "\nSentence : The dog\nran\n".toList ≠ 2 :=
  ⟨⟨Grammar.ofRules [⟨"S".toList, ["A".toList]⟩], "The dog\nran\n".toList⟩, rfl, rfl, by decide⟩

end WordGrammar
