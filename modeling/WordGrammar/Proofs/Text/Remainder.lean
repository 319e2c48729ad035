import WordGrammar.Proofs.Text.Blocks

/-! Words taken from a text one after the other. Each takes a piece off what the
one before it left, and nothing is lost or read twice on the way. From the second
on, the words are those that the text falls into. -/

namespace WordGrammar

namespace Text

/-- What is left of a text after `n` words were taken from it. -/
def leftAfter : Nat → Text → Text
  | 0, t => t
  | n + 1, t => leftAfter n (takeWord t).2

/-- What the next word takes off a text: the word and all blanks behind it. -/
def nextPiece : Text → Text
  | [] => []
  | c :: rest => c :: rest.takeWhile (fun d => !d.isUpper)

theorem takeWord_eq_trimEnd (t : Text) : (takeWord t).1 = trimEnd (nextPiece t) := by
  cases t <;> rfl

theorem nextPiece_append (t : Text) : nextPiece t ++ (takeWord t).2 = t := by
  cases t with
  | nil => rfl
  | cons c t => exact congrArg (c :: ·) List.takeWhile_append_dropWhile

theorem eq_nil_of_nextPiece {t : Text} (h : nextPiece t = []) : t = [] := by
  cases t with
  | nil => rfl
  | cons c t => cases h

theorem startsWord_takeWord (t : Text) : StartsWord (takeWord t).2 := by
  cases t with
  | nil => exact startsWord_nil
  | cons c t =>
    have hd : (takeWord (c :: t)).2 = (cut t).blocks.flatten := (cut t).takeWhile_dropWhile.2
    rw [hd]
    exact startsWord_flatten (cut t).isBlock

theorem countP_isUpper_takeWord (t : Text) :
    (takeWord t).2.countP Char.isUpper = t.tail.countP Char.isUpper := by
  cases t with
  | nil => rfl
  | cons c t =>
    rw [← length_words, ← length_words]
    exact congrArg List.length (words_takeWord c t)

theorem leftAfter_succ (n : Nat) (t : Text) :
    leftAfter (n + 1) t = (takeWord (leftAfter n t)).2 := by
  induction n generalizing t with
  | zero => rfl
  | succ n ih => exact ih (takeWord t).2

@[simp] theorem leftAfter_nil (n : Nat) : leftAfter n [] = [] := by
  induction n with
  | zero => rfl
  | succ n ih => exact ih

theorem startsWord_leftAfter (n : Nat) (t : Text) : StartsWord (leftAfter (n + 1) t) := by
  rw [leftAfter_succ]
  exact startsWord_takeWord (leftAfter n t)

theorem getElem?_takeWords {n i : Nat} (h : i < n) (t : Text) :
    (takeWords n t)[i]? = some (takeWord (leftAfter i t)) := by
  induction n generalizing i t with
  | zero => omega
  | succ n ih =>
    cases i with
    | zero => rfl
    | succ i => exact ih (Nat.lt_of_succ_lt_succ h) (takeWord t).2

theorem flatten_nextPieces (n : Nat) (t : Text) :
    ((List.range n).map fun i => nextPiece (leftAfter i t)).flatten ++ leftAfter n t = t := by
  induction n with
  | zero => rfl
  | succ n ih =>
    rw [List.range_succ, List.map_append, List.flatten_append, leftAfter_succ, List.append_assoc]
    simpa [nextPiece_append] using ih

theorem leftAfter_eq_nil_of_startsWord {n : Nat} {t : Text} (ht : StartsWord t)
    (h : t.countP Char.isUpper ≤ n) : leftAfter n t = [] := by
  induction n generalizing t with
  | zero =>
    cases t with
    | nil => rfl
    | cons c t => simp [ht c rfl] at h
  | succ n ih =>
    cases t with
    | nil => exact leftAfter_nil (n + 1)
    | cons c t =>
      -- The word takes one capital away, its first character.
      apply ih (startsWord_takeWord (c :: t))
      rw [countP_isUpper_takeWord, List.tail_cons]
      rw [List.countP_cons_of_pos (ht c rfl)] at h
      omega

theorem leftAfter_eq_nil {n : Nat} {t : Text} (h : t.countP Char.isUpper < n) :
    leftAfter n t = [] := by
  cases n with
  | zero => omega
  | succ n =>
    apply leftAfter_eq_nil_of_startsWord (startsWord_takeWord t)
    rw [countP_isUpper_takeWord]
    have hs := (List.tail_sublist t).countP_le (p := Char.isUpper)
    omega

theorem filter_takeWords_append {t : Text} (ht : StartsWord t) (n : Nat) :
    ((takeWords n t).map Prod.fst).filter (· ≠ []) ++ words (leftAfter n t) = words t := by
  induction n generalizing t with
  | zero => rfl
  | succ n ih =>
    have hh := ih (startsWord_takeWord t)
    rw [takeWords, List.map_cons, leftAfter]
    cases t with
    | nil => simpa [takeWord] using hh
    | cons c t =>
      have hc := ht c rfl
      have hne : (takeWord (c :: t)).1 ≠ [] := (isWord_takeWord hc t).ne_nil
      rw [List.filter_cons_of_pos (by simpa using hne), List.cons_append, hh, words_of_isUpper hc]

/-- Of the pieces that `n` words take off a text, with what is left behind them,
the text can be put together again, and each word is its piece without the blanks
at the end. There is a piece as long as anything is left, so no more words come
than there are capitals and one, and all that come behind the first are words of
the text that the first has left. -/
theorem takeWords_pieces (t : Text) {n : Nat} (hn : 0 < n) :
    (∃ pieces : List Text, pieces.length = n ∧ pieces.flatten ++ leftAfter n t = t ∧
      ∀ i p, pieces[i]? = some p →
        (takeWords n t)[i]? = some (p.rdropWhile isBlank, leftAfter (i + 1) t) ∧
        p ++ leftAfter (i + 1) t = leftAfter i t ∧ (p = [] → leftAfter i t = [])) ∧
    (∀ i, StartsWord (leftAfter (i + 1) t)) ∧
    (∀ i, t.countP Char.isUpper < i → leftAfter i t = [] ∧ (takeWord (leftAfter i t)).1 = []) ∧
    ((takeWords n t).map Prod.fst).tail.filter (· ≠ []) ++ words (leftAfter n t) =
      words (leftAfter 1 t) := by
  refine ⟨⟨(List.range n).map fun i => nextPiece (leftAfter i t), by simp, flatten_nextPieces n t,
    ?_⟩, fun i => startsWord_leftAfter i t, ?_, ?_⟩
  · intro i p hp
    obtain ⟨hl, he⟩ := List.getElem?_eq_some_iff.mp hp
    have hi : i < n := by simpa using hl
    obtain rfl : nextPiece (leftAfter i t) = p := by simpa using he
    refine ⟨?_, ?_, eq_nil_of_nextPiece⟩
    · rw [getElem?_takeWords hi, leftAfter_succ, ← trimEnd_eq_rdropWhile, ← takeWord_eq_trimEnd]
    · rw [leftAfter_succ, nextPiece_append]
  · intro i hi
    rw [leftAfter_eq_nil hi]
    exact ⟨rfl, rfl⟩
  · cases n with
    | zero => omega
    | succ n => exact filter_takeWords_append (startsWord_takeWord t) n

/-- A text that starts with a blank, from which more words are taken than it has. -/
theorem takeWords_pieces_used_up :
    let t := "\u3000a Big dog,\tThe".toList
    let calls := [("\u3000a".toList, "Big dog,\tThe".toList), ("Big dog,".toList, "The".toList),
      ("The".toList, []), ([], [])]
    0 < 4 ∧ takeWords 4 t = calls ∧
      (∃ pieces : List Text, pieces.length = 4 ∧ pieces.flatten = t ∧
        ∀ i p, pieces[i]? = some p → calls[i]? = some (p.rdropWhile isBlank, leftAfter (i + 1) t)) ∧
      t.countP Char.isUpper < 3 ∧ leftAfter 3 t = [] ∧
      words (leftAfter 1 t) = ["Big dog,".toList, "The".toList] := by
  intro t calls
  have hn : 0 < 4 := by decide
  have hc : takeWords 4 t = calls := rfl
  have hu : t.countP Char.isUpper < 3 := by decide
  obtain ⟨⟨pieces, hl, hf, hp⟩, -, hz, hw⟩ := takeWords_pieces t hn
  rw [hc] at hp hw
  rw [(hz 4 (Nat.lt_succ_of_lt hu)).1] at hf hw
  rw [List.append_nil] at hf
  exact ⟨hn, hc, ⟨pieces, hl, hf, fun i p hi => (hp i p hi).1⟩, hu, (hz 3 hu).1, hw.symm⟩

end Text

end WordGrammar
