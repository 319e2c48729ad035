import Mathlib.Data.List.DropRight
import WordGrammar.Proofs.Text.Words
import WordGrammar.Report

/-! Texts cut in front of every capital. There is one way to cut a text into a
lead without capitals and blocks that start with their only capital, and the
words of the text are the blocks without the blanks at their ends. Words that are
put down one after the other, with any blanks between them, are found again. -/

namespace WordGrammar

namespace Text

@[ext] structure Cut (t : Text) where
  lead : Text
  blocks : List Text
  isUpper_lead : ∀ c ∈ lead, c.isUpper = false
  isBlock : ∀ b ∈ blocks, IsBlock b
  append_flatten : lead ++ blocks.flatten = t

/-- The cut of a text, found from its end: a capital makes a block of itself and
the lead behind it. -/
def cut : (t : Text) → Cut t
  | [] => ⟨[], [], by simp, by simp, rfl⟩
  | c :: t =>
    if hc : c.isUpper = true then
      ⟨[], (c :: (cut t).lead) :: (cut t).blocks, by simp,
        List.forall_mem_cons.mpr ⟨isBlock_cons hc (cut t).isUpper_lead, (cut t).isBlock⟩,
        congrArg (c :: ·) (cut t).append_flatten⟩
    else
      ⟨c :: (cut t).lead, (cut t).blocks,
        List.forall_mem_cons.mpr ⟨by simpa using hc, (cut t).isUpper_lead⟩, (cut t).isBlock,
        congrArg (c :: ·) (cut t).append_flatten⟩

theorem eq_of_flatten_eq {bs cs : List Text} (hb : ∀ b ∈ bs, IsBlock b)
    (hc : ∀ b ∈ cs, IsBlock b) (h : bs.flatten = cs.flatten) : bs = cs := by
  induction bs generalizing cs with
  | nil =>
    cases cs with
    | nil => rfl
    | cons b cs =>
      obtain ⟨c, body, rfl, -⟩ := (hc b List.mem_cons_self).exists_cons
      simp at h
  | cons b bs ih =>
    have hbs : ∀ b ∈ bs, IsBlock b := fun b hm => hb b (List.mem_cons_of_mem _ hm)
    obtain ⟨c, body, rfl, -, hbody⟩ := (hb b List.mem_cons_self).exists_cons
    cases cs with
    | nil => simp at h
    | cons b' cs =>
      have hcs : ∀ b ∈ cs, IsBlock b := fun b hm => hc b (List.mem_cons_of_mem _ hm)
      obtain ⟨c', body', rfl, -, hbody'⟩ := (hc b' List.mem_cons_self).exists_cons
      obtain ⟨rfl, hh⟩ := List.cons.inj h
      -- Both bodies run up to the first capital behind `c`.
      obtain ⟨h1, h2⟩ := takeWhile_dropWhile_append hbody (startsWord_flatten hbs)
      obtain ⟨h1', h2'⟩ := takeWhile_dropWhile_append hbody' (startsWord_flatten hcs)
      change body ++ bs.flatten = body' ++ cs.flatten at hh
      rw [hh] at h1 h2
      rw [← h1, h1', ih hbs hcs (h2.symm.trans h2')]

namespace Cut

variable {t : Text}

theorem takeWhile_dropWhile (d : Cut t) :
    t.takeWhile (fun c => !c.isUpper) = d.lead ∧
      t.dropWhile (fun c => !c.isUpper) = d.blocks.flatten := by
  have hh := takeWhile_dropWhile_append d.isUpper_lead (startsWord_flatten d.isBlock)
  rwa [d.append_flatten] at hh

theorem eq_of_text (d e : Cut t) : d = e := by
  obtain ⟨hd, hd'⟩ := d.takeWhile_dropWhile
  obtain ⟨he, he'⟩ := e.takeWhile_dropWhile
  exact Cut.ext (hd.symm.trans he) (eq_of_flatten_eq d.isBlock e.isBlock (hd'.symm.trans he'))

end Cut

theorem words_lead_append {p : Text} (hp : ∀ c ∈ p, c.isUpper = false) (t : Text) :
    words (p ++ t) = words t := by
  induction p with
  | nil => rfl
  | cons c p ih =>
    have hh := ih (fun d hd => hp d (List.mem_cons_of_mem _ hd))
    simp [hp c List.mem_cons_self, hh]

theorem Cut.words_eq {t : Text} (d : Cut t) : words t = d.blocks.map trimEnd := by
  conv_lhs => rw [← d.append_flatten]
  rw [words_lead_append d.isUpper_lead, words_flatten_of_isBlock d.isBlock]

theorem trimEnd_eq_rdropWhile (t : Text) : trimEnd t = t.rdropWhile isBlank := by
  induction t using List.reverseRecOn with
  | nil => rfl
  | append_singleton t c ih =>
    rw [List.rdropWhile_concat]
    split
    · rename_i hc
      rw [trimEnd_append (List.forall_mem_singleton.mpr hc), ih]
    · rename_i hc
      exact trimEnd_eq_self (by simpa using hc)

theorem filter_trimEnd (t : Text) :
    (trimEnd t).filter (fun c => !isBlank c) = t.filter (fun c => !isBlank c) := by
  obtain ⟨blanks, ht, hb⟩ := exists_trimEnd_append t
  have hn : blanks.filter (fun c => !isBlank c) = [] := by
    apply List.filter_eq_nil_iff.mpr
    intro c hc
    simp [hb c hc]
  conv_rhs => rw [ht, List.filter_append, hn, List.append_nil]

theorem countP_isUpper_flatten {bs : List Text} (h : ∀ b ∈ bs, IsBlock b) :
    bs.flatten.countP Char.isUpper = bs.length := by
  induction bs with
  | nil => rfl
  | cons b bs ih =>
    have hh := ih (fun b hm => h b (List.mem_cons_of_mem _ hm))
    obtain ⟨c, body, rfl, hc, hn⟩ := (h b List.mem_cons_self).exists_cons
    have hz : body.countP Char.isUpper = 0 := by
      apply List.countP_eq_zero.mpr
      intro d hd
      simp [hn d hd]
    rw [List.flatten_cons, List.countP_append, List.countP_cons_of_pos hc, hz, hh, List.length_cons]
    omega

theorem length_words (t : Text) : (words t).length = t.countP Char.isUpper := by
  have hz : (cut t).lead.countP Char.isUpper = 0 := by
    apply List.countP_eq_zero.mpr
    intro c hc
    simp [(cut t).isUpper_lead c hc]
  conv_rhs => rw [← (cut t).append_flatten]
  rw [(cut t).words_eq, List.length_map, List.countP_append, hz,
    countP_isUpper_flatten (cut t).isBlock, Nat.zero_add]

theorem filter_flatten_words (t : Text) :
    (words t).flatten.filter (fun c => !isBlank c) =
      (t.dropWhile fun c => !c.isUpper).filter (fun c => !isBlank c) := by
  rw [(cut t).words_eq, (cut t).takeWhile_dropWhile.2, List.filter_flatten, List.filter_flatten,
    List.map_map]
  exact congrArg List.flatten (List.map_congr_left fun b _ => filter_trimEnd b)

theorem words_lead_append_flatMap {p : Text} {ws : List (Text × Text)}
    (hp : ∀ c ∈ p, c.isUpper = false)
    (hw : ∀ w ∈ ws, IsWord w.1 ∧ ∀ c ∈ w.2, isBlank c = true) :
    words (p ++ ws.flatMap fun w => w.1 ++ w.2) = ws.map Prod.fst := by
  have hb : ∀ b ∈ ws.map (fun w => w.1 ++ w.2), IsBlock b := by
    intro b hm
    obtain ⟨w, hws, rfl⟩ := List.mem_map.mp hm
    exact (hw w hws).1.isBlock_append (hw w hws).2
  rw [words_lead_append hp, List.flatMap_def, words_flatten_of_isBlock hb, List.map_map]
  exact List.map_congr_left fun w hm => (hw w hm).1.trimEnd_append (hw w hm).2

/-- A text is cut in one way into a lead and blocks, and its words are these
blocks without the blanks at their ends. A text that was put together of a lead,
words and blanks behind them has just these words, and so have the words of any
text when they are joined again. -/
theorem exists_unique_cut_words (t : Text) :
    (∃ d : Cut t, (∀ e : Cut t, e = d) ∧ words t = d.blocks.map (List.rdropWhile isBlank)) ∧
    (words t).length = t.countP Char.isUpper ∧
    (words t).flatten.filter (fun c => !isBlank c) =
      (t.dropWhile fun c => !c.isUpper).filter (fun c => !isBlank c) ∧
    (∀ (p : Text) (ws : List (Text × Text)), (∀ c ∈ p, c.isUpper = false) →
      (∀ w ∈ ws, IsWord w.1 ∧ ∀ c ∈ w.2, isBlank c = true) →
      words (p ++ ws.flatMap fun w => w.1 ++ w.2) = ws.map Prod.fst) ∧
    words (words t).flatten = words t ∧ words (joinWords (words t)) = words t := by
  have hw : ∀ w ∈ words t, IsWord w := fun w hm => isWord_of_mem_words hm
  refine ⟨⟨cut t, fun e => e.eq_of_text (cut t), ?_⟩, length_words t, filter_flatten_words t, ?_,
    words_flatten hw, words_intercalate (List.forall_mem_singleton.mpr rfl) hw⟩
  · rw [(cut t).words_eq]
    exact List.map_congr_left fun b _ => trimEnd_eq_rdropWhile b
  · intro p ws hp hws
    exact words_lead_append_flatMap hp hws

/-- A capital of another alphabet starts no word, and blanks of all widths end one. -/
theorem exists_unique_cut_words_wide_blanks :
    let p := ['x', 'É', ' ']
    let t := "xÉ Big dog,\u2003ABÉ \t".toList
    let ws := [("Big dog,".toList, []), (['A'], ['\r', '\n']), (['B', 'É'], ['\u3000'])]
    words t = ["Big dog,".toList, ['A'], ['B', 'É']] ∧ (words t).length = 3 ∧
      (∀ c ∈ p, c.isUpper = false) ∧
      (∀ w ∈ ws, IsWord w.1 ∧ ∀ c ∈ w.2, isBlank c = true) ∧
      words (p ++ ws.flatMap fun w => w.1 ++ w.2) = ws.map Prod.fst := by
  intro p t ws
  have hp : ∀ c ∈ p, c.isUpper = false := by simp [p]
  have h1 : IsWord "Big dog,".toList :=
    ⟨⟨'B', rfl, rfl⟩, by simp, by simp [isBlank, blankRanges]⟩
  have h2 : IsWord ['A'] := ⟨⟨'A', rfl, rfl⟩, by simp, by simp [isBlank, blankRanges]⟩
  have h3 : IsWord ['B', 'É'] := ⟨⟨'B', rfl, rfl⟩, by simp, by simp [isBlank, blankRanges]⟩
  have hws : ∀ w ∈ ws, IsWord w.1 ∧ ∀ c ∈ w.2, isBlank c = true := by
    simp only [ws, List.forall_mem_cons]
    exact ⟨⟨h1, by simp⟩, ⟨h2, by simp [isBlank, blankRanges]⟩,
      ⟨h3, by simp [isBlank, blankRanges]⟩, by simp⟩
  have hb : ∀ b ∈ ["Big dog,\u2003".toList, ['A'], ['B', 'É', ' ', '\t']], IsBlock b := by
    simp only [List.forall_mem_cons]
    exact ⟨⟨⟨'B', rfl, rfl⟩, by simp⟩, h2.isBlock, ⟨⟨'B', rfl, rfl⟩, by simp⟩, by simp⟩
  obtain ⟨⟨d, hd, hw⟩, hl, -, hc, -⟩ := exists_unique_cut_words t
  rw [← hd ⟨p, _, hp, hb, rfl⟩] at hw
  exact ⟨hw.trans rfl, hl.trans rfl, hp, hws, hc _ ws hp hws⟩

end Text

end WordGrammar
