import Mathlib.Data.List.Induction
import Mathlib.Data.List.TakeWhile
import WordGrammar.Text.Words

/-! The shape of a word, and words read back from a text that they were put
together in. A block is a word with all that stands between it and the next word.
Whatever blanks these are, a text falls into the same words again. -/

namespace WordGrammar

namespace Text

structure IsBlock (b : Text) : Prop where
  starts : ∃ c ∈ b.head?, c.isUpper = true
  single : ∀ c ∈ b.tail, c.isUpper = false

structure IsWord (w : Text) : Prop where
  starts : ∃ c ∈ w.head?, c.isUpper = true
  single : ∀ c ∈ w.tail, c.isUpper = false
  ends : ∀ c ∈ w.getLast?, isBlank c = false

/-- A text that a word before it does not run into. -/
def StartsWord (t : Text) : Prop :=
  ∀ c ∈ t.head?, c.isUpper = true

theorem isUpper_of_isBlank {c : Char} (h : isBlank c = true) : c.isUpper = false := by
  apply Bool.eq_false_iff.mpr
  intro hu
  have hv : decide (65 ≤ c.val ∧ c.val ≤ 90) = true := hu
  have hc : 65 ≤ c.toNat ∧ c.toNat ≤ 90 := by
    simpa [UInt32.le_iff_toNat_le, ← Char.toNat_val] using hv
  simp [isBlank, blankRanges] at h
  omega

theorem isBlock_cons {c : Char} {body : Text} (hc : c.isUpper = true)
    (hb : ∀ d ∈ body, d.isUpper = false) : IsBlock (c :: body) :=
  ⟨⟨c, rfl, hc⟩, hb⟩

theorem IsBlock.exists_cons {b : Text} (h : IsBlock b) :
    ∃ c body, b = c :: body ∧ c.isUpper = true ∧ ∀ d ∈ body, d.isUpper = false := by
  obtain ⟨c, hc, hu⟩ := h.starts
  obtain ⟨body, rfl⟩ := List.head?_eq_some_iff.mp hc
  exact ⟨c, body, rfl, hu, h.single⟩

theorem IsBlock.startsWord_append {b : Text} (h : IsBlock b) (t : Text) : StartsWord (b ++ t) := by
  obtain ⟨c, body, rfl, hc, -⟩ := h.exists_cons
  simpa [StartsWord] using hc

theorem IsWord.isBlock {w : Text} (h : IsWord w) : IsBlock w :=
  ⟨h.starts, h.single⟩

theorem IsWord.exists_cons {w : Text} (h : IsWord w) :
    ∃ c body, w = c :: body ∧ c.isUpper = true ∧ ∀ d ∈ body, d.isUpper = false :=
  h.isBlock.exists_cons

theorem IsWord.ne_nil {w : Text} (h : IsWord w) : w ≠ [] := by
  obtain ⟨c, body, rfl, -⟩ := h.exists_cons
  simp

@[simp] theorem startsWord_nil : StartsWord [] := by simp [StartsWord]

theorem trimEnd_append {s : Text} (h : ∀ c ∈ s, isBlank c = true) (t : Text) :
    trimEnd (t ++ s) = trimEnd t := by
  induction t with
  | nil =>
    induction s with
    | nil => rfl
    | cons c s ih =>
      have hh : trimEnd s = [] := ih (fun d hd => h d (List.mem_cons_of_mem _ hd))
      simp [trimEnd_cons, hh, h c List.mem_cons_self]
  | cons c t ih => rw [List.cons_append, trimEnd_cons, ih, ← trimEnd_cons]

theorem trimEnd_eq_self {t : Text} (h : ∀ c ∈ t.getLast?, isBlank c = false) : trimEnd t = t := by
  obtain ⟨blanks, ht, hb⟩ := exists_trimEnd_append t
  cases blanks using List.reverseRecOn with
  | nil => simpa using ht.symm
  | append_singleton blanks c =>
    have hc := h c (by rw [ht]; simp)
    simp [hb c (by simp)] at hc

theorem trimEnd_isPrefix (t : Text) : trimEnd t <+: t := by
  obtain ⟨blanks, ht, -⟩ := exists_trimEnd_append t
  exact ⟨blanks, ht.symm⟩

theorem takeWhile_dropWhile_append {p t : Text} (hp : ∀ c ∈ p, c.isUpper = false)
    (ht : StartsWord t) :
    (p ++ t).takeWhile (fun d => !d.isUpper) = p ∧
      (p ++ t).dropWhile (fun d => !d.isUpper) = t := by
  have hn : ∀ c ∈ p, (!c.isUpper) = true := by
    intro c hc
    simp [hp c hc]
  have hs : t.takeWhile (fun d => !d.isUpper) = [] ∧ t.dropWhile (fun d => !d.isUpper) = t := by
    cases t with
    | nil => exact ⟨rfl, rfl⟩
    | cons c t => simp [ht c rfl]
  rw [List.takeWhile_append_of_pos hn, List.dropWhile_append_of_pos hn, hs.1, hs.2, List.append_nil]
  exact ⟨rfl, rfl⟩

theorem words_block_append {b t : Text} (hb : IsBlock b) (ht : StartsWord t) :
    words (b ++ t) = trimEnd b :: words t := by
  obtain ⟨c, body, rfl, hc, hn⟩ := hb.exists_cons
  obtain ⟨h1, h2⟩ := takeWhile_dropWhile_append hn ht
  have hw : takeWord (c :: (body ++ t)) = (trimEnd (c :: body), t) := by rw [takeWord, h1, h2]
  have hh := words_of_isUpper hc (body ++ t)
  rwa [hw] at hh

theorem IsWord.isBlock_append {w s : Text} (h : IsWord w) (hs : ∀ c ∈ s, isBlank c = true) :
    IsBlock (w ++ s) := by
  obtain ⟨c, body, rfl, hc, hb⟩ := h.exists_cons
  apply isBlock_cons hc
  intro d hd
  rcases List.mem_append.mp hd with hd | hd
  · exact hb d hd
  · exact isUpper_of_isBlank (hs d hd)

theorem IsWord.trimEnd_append {w s : Text} (h : IsWord w) (hs : ∀ c ∈ s, isBlank c = true) :
    trimEnd (w ++ s) = w := by
  rw [Text.trimEnd_append hs, trimEnd_eq_self h.ends]

theorem words_append {w s t : Text} (hw : IsWord w) (hs : ∀ c ∈ s, isBlank c = true)
    (ht : StartsWord t) : words (w ++ s ++ t) = w :: words t := by
  rw [words_block_append (hw.isBlock_append hs) ht, hw.trimEnd_append hs]

theorem words_concat {c : Char} (hc : isBlank c = true) (t : Text) : words (t ++ [c]) = words t := by
  have hu : c.isUpper = false := isUpper_of_isBlank hc
  induction t with
  | nil => simp [hu]
  | cons d t ih =>
    cases hd : d.isUpper with
    | false => simpa [hd] using ih
    | true =>
      have ht : (takeWord (d :: (t ++ [c]))).1 = (takeWord (d :: t)).1 := by
        rw [takeWord, takeWord, List.takeWhile_append]
        split
        · rename_i hl
          have hw : t.takeWhile (fun d => !d.isUpper) = t := (List.takeWhile_prefix _).eq_of_length hl
          have hs : ∀ e ∈ [c], isBlank e = true := List.forall_mem_singleton.mpr hc
          simpa [hw, hu] using trimEnd_append hs (d :: t)
        · rfl
      rw [List.cons_append, words_of_isUpper hd, words_of_isUpper hd, ht, words_takeWord,
        words_takeWord, ih]

theorem startsWord_intercalate (sep : Text) {bs : List Text} (h : ∀ b ∈ bs, IsBlock b) :
    StartsWord (List.intercalate sep bs) := by
  cases bs with
  | nil => exact startsWord_nil
  | cons b bs =>
    have hb := h b List.mem_cons_self
    cases bs with
    | nil => simpa using hb.startsWord_append []
    | cons b' bs =>
      rw [List.intercalate_cons_cons, List.append_assoc]
      exact hb.startsWord_append _

theorem words_intercalate {sep : Text} (hs : ∀ c ∈ sep, isBlank c = true) {ws : List Text}
    (hw : ∀ w ∈ ws, IsWord w) : words (List.intercalate sep ws) = ws := by
  induction ws with
  | nil => rfl
  | cons w ws ih =>
    have hh := ih (fun v hv => hw v (List.mem_cons_of_mem _ hv))
    have h1 := hw w List.mem_cons_self
    cases ws with
    | nil => simpa using words_append h1 (s := []) (by simp) startsWord_nil
    | cons v ws =>
      have h2 : StartsWord (List.intercalate sep (v :: ws)) :=
        startsWord_intercalate sep (fun u hu => (hw u (List.mem_cons_of_mem _ hu)).isBlock)
      rw [List.intercalate_cons_cons, words_append h1 hs h2, hh]

theorem startsWord_flatten {bs : List Text} (h : ∀ b ∈ bs, IsBlock b) :
    StartsWord bs.flatten := by
  cases bs with
  | nil => exact startsWord_nil
  | cons b bs => exact (h b List.mem_cons_self).startsWord_append bs.flatten

theorem words_flatten_of_isBlock {bs : List Text} (h : ∀ b ∈ bs, IsBlock b) :
    words bs.flatten = bs.map trimEnd := by
  induction bs with
  | nil => rfl
  | cons b bs ih =>
    have hbs : ∀ b ∈ bs, IsBlock b := fun b hm => h b (List.mem_cons_of_mem _ hm)
    rw [List.flatten_cons, words_block_append (h b List.mem_cons_self) (startsWord_flatten hbs),
      ih hbs, List.map_cons]

theorem words_flatten {ws : List Text} (hw : ∀ w ∈ ws, IsWord w) : words ws.flatten = ws := by
  have ht : ∀ w ∈ ws, trimEnd w = id w := fun w hm => trimEnd_eq_self (hw w hm).ends
  rw [words_flatten_of_isBlock fun w hm => (hw w hm).isBlock, List.map_congr_left ht, List.map_id]

theorem isWord_takeWord {c : Char} (hc : c.isUpper = true) (t : Text) :
    IsWord (takeWord (c :: t)).1 := by
  have hb : isBlank c = false := by
    apply Bool.eq_false_iff.mpr
    intro h
    simp [isUpper_of_isBlank h] at hc
  have ht : (takeWord (c :: t)).1 = c :: trimEnd (t.takeWhile (fun d => !d.isUpper)) := by
    simp [takeWord, trimEnd_cons, hb]
  refine ⟨⟨c, by simp [ht], hc⟩, ?_, ?_⟩
  · intro d hd
    rw [ht, List.tail_cons] at hd
    simpa using List.mem_takeWhile_imp ((trimEnd_isPrefix _).subset hd)
  · exact isBlank_of_getLast?_trimEnd (c :: t.takeWhile (fun d => !d.isUpper))

theorem takeWord_isPrefix (t : Text) : (takeWord t).1 <+: t := by
  cases t with
  | nil => exact List.prefix_rfl
  | cons c t =>
    exact (trimEnd_isPrefix _).trans ((List.prefix_cons_inj c).mpr (List.takeWhile_prefix _))

theorem takeWord_isSuffix (t : Text) : (takeWord t).2 <:+ t := by
  cases t with
  | nil => exact List.suffix_rfl
  | cons c t => exact (List.dropWhile_suffix _).trans (List.suffix_cons c t)

theorem isWord_of_mem_words {t w : Text} (h : w ∈ words t) : IsWord w := by
  induction t using words.induct with
  | case1 => simp at h
  | case2 c t hc ih =>
    rw [words_of_isUpper hc] at h
    rcases List.mem_cons.mp h with rfl | hh
    · exact isWord_takeWord hc t
    · exact ih hh
  | case3 c t hc ih => exact ih (by simpa [hc] using h)

theorem infix_of_mem_words {t w : Text} (h : w ∈ words t) : w <:+: t := by
  induction t using words.induct with
  | case1 => simp at h
  | case2 c t hc ih =>
    rw [words_of_isUpper hc] at h
    rcases List.mem_cons.mp h with rfl | hh
    · exact (takeWord_isPrefix (c :: t)).isInfix
    · exact (ih hh).trans (takeWord_isSuffix (c :: t)).isInfix
  | case3 c t hc ih => exact List.infix_cons (ih (by simpa [hc] using h))

theorem infix_append_of_head {s a b : Text} (hb : ∀ c ∈ b.head?, c ∉ s)
    (h : s <:+: a ++ b) : s <:+: a ∨ s <:+: b := by
  induction a with
  | nil => exact Or.inr h
  | cons c a ih =>
    rcases List.infix_cons_iff.mp h with hp | hi
    · left
      by_cases hl : s.length ≤ (c :: a).length
      · exact (List.prefix_of_prefix_length_le hp (List.prefix_append (c :: a) b) hl).isInfix
      · -- A longer prefix goes on into the second text and has the head of it.
        exfalso
        obtain ⟨q, hq⟩ := List.prefix_of_prefix_length_le (List.prefix_append (c :: a) b) hp (by omega)
        cases q with
        | nil => simp [← hq] at hl
        | cons d q =>
          obtain ⟨u, hu⟩ := hp
          have hd : b.head? = some d := by
            have hh : d :: q ++ u = b := by
              rw [← List.append_right_inj (c :: a), ← List.append_assoc, hq]
              exact hu
            simp [← hh]
          exact hb d hd (by simp [← hq])
    · rcases ih hi with hh | hh
      · exact Or.inl (List.infix_cons hh)
      · exact Or.inr hh

/-- Words put together hold a text without capitals only if one of them does. -/
theorem exists_infix_of_infix_flatten {s : Text} (hs : s ≠ []) (hu : ∀ c ∈ s, c.isUpper = false)
    {ws : List Text} (hw : ∀ w ∈ ws, IsWord w) (h : s <:+: ws.flatten) : ∃ w ∈ ws, s <:+: w := by
  induction ws with
  | nil => exact absurd (List.infix_nil.mp h) hs
  | cons w ws ih =>
    have hws : ∀ v ∈ ws, IsWord v := fun v hv => hw v (List.mem_cons_of_mem _ hv)
    have hb : ∀ c ∈ ws.flatten.head?, c ∉ s := by
      intro c hc hm
      have h1 := startsWord_flatten (fun v hv => (hws v hv).isBlock) c hc
      simp [hu c hm] at h1
    rcases infix_append_of_head hb h with hh | hh
    · exact ⟨w, List.mem_cons_self, hh⟩
    · obtain ⟨v, hv, hi⟩ := ih hws hh
      exact ⟨v, List.mem_cons_of_mem _ hv, hi⟩

end Text

end WordGrammar
