import WordGrammar.Text.Basic

/-! Blank characters and capitalised words. Blank are those characters with the
Unicode property White_Space, 25 code points in ten ranges, the same since Unicode
6.3. A word starts at an ASCII capital and runs to just before the next one; the
blanks at its end are not part of it, blanks inside it are. -/

namespace WordGrammar

namespace Text

/-- The code points of the blank characters, as closed ranges in ascending order. -/
def blankRanges : List (Nat × Nat) :=
  [(0x09, 0x0D), (0x20, 0x20), (0x85, 0x85), (0xA0, 0xA0), (0x1680, 0x1680),
   (0x2000, 0x200A), (0x2028, 0x2029), (0x202F, 0x202F), (0x205F, 0x205F), (0x3000, 0x3000)]

def isBlank (c : Char) : Bool :=
  blankRanges.any (fun r => decide (r.1 ≤ c.toNat ∧ c.toNat ≤ r.2))

def trimEnd (t : Text) : Text :=
  t.foldr (fun c rest => if isBlank c && rest.isEmpty then [] else c :: rest) []

@[simp] theorem trimEnd_nil : trimEnd [] = [] := rfl

theorem trimEnd_cons (c : Char) (t : Text) :
    trimEnd (c :: t) = if isBlank c && (trimEnd t).isEmpty then [] else c :: trimEnd t := rfl

theorem exists_trimEnd_append (t : Text) :
    ∃ blanks : Text, t = trimEnd t ++ blanks ∧ ∀ c ∈ blanks, isBlank c = true := by
  induction t with
  | nil => exact ⟨[], rfl, by simp⟩
  | cons c t ih =>
    obtain ⟨blanks, ht, hb⟩ := ih
    rw [trimEnd_cons]
    split
    · rename_i h
      simp only [Bool.and_eq_true, List.isEmpty_iff] at h
      refine ⟨c :: t, rfl, ?_⟩
      rw [ht, h.2]
      simpa [h.1] using hb
    · exact ⟨blanks, by rw [List.cons_append, ← ht], hb⟩

theorem isBlank_of_getLast?_trimEnd (t : Text) :
    ∀ c ∈ (trimEnd t).getLast?, isBlank c = false := by
  induction t with
  | nil => simp
  | cons a t ih =>
    rw [trimEnd_cons]
    split
    · simp
    · rename_i h
      cases ht : trimEnd t with
      | nil => simpa [ht] using h
      | cons b s => simpa [ht] using ih

/-- The word at the start of a text, and the text that is left. The first
character belongs to the word whatever it is; an empty text gives the empty word. -/
def takeWord : Text → Text × Text
  | [] => ([], [])
  | c :: rest =>
    (trimEnd (c :: rest.takeWhile (fun d => !d.isUpper)), rest.dropWhile (fun d => !d.isUpper))

theorem length_takeWord_lt (c : Char) (t : Text) :
    (takeWord (c :: t)).2.length < (c :: t).length :=
  Nat.lt_succ_of_le (List.dropWhile_sublist _).length_le

-- Semireducible, so that the words of a given text can still be computed by `rfl`.
/-- The words of a text. Characters in front of a capital are passed over, and a
word is taken at the capital; then it goes on with what the word has left. -/
@[semireducible] def words : Text → List Text
  | [] => []
  | c :: rest =>
    if c.isUpper then (takeWord (c :: rest)).1 :: words (takeWord (c :: rest)).2
    else words rest
termination_by t => t.length
decreasing_by
  · exact length_takeWord_lt c rest
  · exact Nat.lt_succ_self rest.length

/-- `n` words taken one after the other, each with the text left after it. -/
def takeWords : Nat → Text → List (Text × Text)
  | 0, _ => []
  | n + 1, t => takeWord t :: takeWords n (takeWord t).2

@[simp] theorem words_nil : words [] = [] := by rw [words]

theorem words_of_isUpper {c : Char} (h : c.isUpper = true) (t : Text) :
    words (c :: t) = (takeWord (c :: t)).1 :: words (takeWord (c :: t)).2 := by
  rw [words, if_pos h]

@[simp] theorem words_of_not_isUpper {c : Char} (h : c.isUpper = false) (t : Text) :
    words (c :: t) = words t := by
  rw [words, if_neg (by simp [h])]

/-- No word is lost where a word was taken: what it passes over has no capital. -/
theorem words_takeWord (c : Char) (t : Text) : words (takeWord (c :: t)).2 = words t := by
  induction t with
  | nil => rfl
  | cons d t ih =>
    cases h : d.isUpper with
    | false => simpa [takeWord, h] using ih
    | true => simp [takeWord, h]

end Text

end WordGrammar
