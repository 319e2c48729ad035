import Mathlib.Data.List.Basic
import WordGrammar.Text.Split

/-! Lines as pieces between line feeds. Unifying the line ends takes one
carriage return off every piece but the last, and neither merges pieces nor
loses one. -/

namespace WordGrammar

namespace Text

def dropReturn (p : Text) : Text :=
  if p.getLast? = some '\r' then p.dropLast else p

/-- Drops a carriage return in all pieces that have a line feed behind them. -/
def dropReturns : List Text → List Text
  | [] => []
  | [p] => [p]
  | p :: q :: ps => dropReturn p :: dropReturns (q :: ps)

theorem dropReturn_eq_or (p : Text) : dropReturn p = p ∨ p = dropReturn p ++ ['\r'] := by
  unfold dropReturn
  split
  · rename_i h
    obtain ⟨q, rfl⟩ := List.getLast?_eq_some_iff.mp h
    exact Or.inr (by simp)
  · exact Or.inl rfl

theorem dropReturn_cons {c : Char} {p : Text} (h : ¬ (c = '\r' ∧ p = [])) :
    dropReturn (c :: p) = c :: dropReturn p := by
  cases p with
  | nil =>
    have hc : c ≠ '\r' := fun he => h ⟨he, rfl⟩
    simp [dropReturn, hc]
  | cons d p => by_cases hd : (d :: p).getLast? = some '\r' <;> simp [dropReturn, hd]

theorem dropReturns_ne_nil {ps : List Text} (h : ps ≠ []) : dropReturns ps ≠ [] := by
  cases ps with
  | nil => exact absurd rfl h
  | cons p ps => cases ps <;> simp [dropReturns]

theorem dropReturns_cons {p : Text} {ps : List Text} (h : ps ≠ []) :
    dropReturns (p :: ps) = dropReturn p :: dropReturns ps := by
  cases ps with
  | nil => exact absurd rfl h
  | cons q ps => rfl

@[simp] theorem length_dropReturns (ps : List Text) : (dropReturns ps).length = ps.length := by
  induction ps with
  | nil => rfl
  | cons p ps ih =>
    cases ps with
    | nil => rfl
    | cons q ps => simpa [dropReturns] using ih

theorem dropReturns_eq_self {ps : List Text} (h : ∀ p ∈ ps, p.getLast? ≠ some '\r') :
    dropReturns ps = ps := by
  induction ps with
  | nil => rfl
  | cons p ps ih =>
    have hh := ih (fun q hq => h q (List.mem_cons_of_mem _ hq))
    cases ps with
    | nil => rfl
    | cons q ps => rw [dropReturns, hh, dropReturn, if_neg (h p List.mem_cons_self)]

theorem getLast?_dropReturns (ps : List Text) : (dropReturns ps).getLast? = ps.getLast? := by
  induction ps with
  | nil => rfl
  | cons p ps ih =>
    cases ps with
    | nil => rfl
    | cons q ps =>
      obtain ⟨r, rs, hr⟩ := List.exists_cons_of_ne_nil (dropReturns_ne_nil (List.cons_ne_nil q ps))
      rw [dropReturns_cons (List.cons_ne_nil q ps), hr, List.getLast?_cons_cons, ← hr, ih,
        List.getLast?_cons_cons]

theorem take_dropReturns {n : Nat} {ps : List Text} (h : n < ps.length) :
    (dropReturns ps).take n = (ps.take n).map dropReturn := by
  induction ps generalizing n with
  | nil => simp at h
  | cons p ps ih =>
    cases n with
    | zero => simp
    | succ n =>
      have hn : n < ps.length := by simpa using h
      have hne : ps ≠ [] := by
        intro he
        simp [he] at hn
      rw [dropReturns_cons hne, List.take_succ_cons, List.take_succ_cons, List.map_cons, ih hn]

theorem not_mem_of_mem_splitOn {c : Char} {t p : Text} (h : p ∈ t.splitOn c) : c ∉ p := by
  induction t generalizing p with
  | nil =>
    have hp : p = [] := by simpa using h
    simp [hp]
  | cons d t ih =>
    rw [List.splitOn_cons_eq_if_modifyHead] at h
    by_cases hd : d = c
    · rcases List.mem_cons.mp (by simpa [hd] using h) with rfl | hp
      · simp
      · exact ih hp
    · obtain ⟨q, qs, hq⟩ := List.exists_cons_of_ne_nil (List.splitOn_ne_nil c t)
      rw [hq] at h ih
      rcases List.mem_cons.mp (by simpa [hd] using h) with rfl | hp
      · simpa [Ne.symm hd] using ih List.mem_cons_self
      · exact ih (List.mem_cons_of_mem _ hp)

theorem splitOn_unifyLineEnds (t : Text) :
    (unifyLineEnds t).splitOn '\n' = dropReturns (t.splitOn '\n') := by
  induction t with
  | nil => rfl
  | cons c t ih =>
    by_cases hr : c = '\r' ∧ t.head? = some '\n'
    · obtain ⟨u, rfl⟩ := List.head?_eq_some_iff.mp hr.2
      have hu := List.splitOn_ne_nil '\n' u
      rw [unifyLineEnds, if_pos hr, ih]
      simp [List.splitOn_cons_eq_if_modifyHead, hr.1, dropReturns_cons hu, dropReturn]
    · rw [unifyLineEnds, if_neg hr]
      by_cases hc : c = '\n'
      · simp [List.splitOn_cons_eq_if_modifyHead, hc, ih,
          dropReturns_cons (List.splitOn_ne_nil '\n' t), dropReturn]
      · obtain ⟨p, ps, hp⟩ := List.exists_cons_of_ne_nil (List.splitOn_ne_nil '\n' t)
        simp only [List.splitOn_cons_eq_if_modifyHead, beq_iff_eq, hc, if_false, ih, hp,
          List.modifyHead_cons]
        cases ps with
        | nil => rfl
        | cons q ps =>
          -- A return in front of an empty piece is followed by a line feed.
          have hnot : ¬ (c = '\r' ∧ p = []) := by
            rintro ⟨hcr, rfl⟩
            apply hr
            refine ⟨hcr, ?_⟩
            have ht : List.intercalate ['\n'] (t.splitOn '\n') = t := List.intercalate_splitOn '\n'
            rw [hp] at ht
            simp [← ht]
          simp only [dropReturns, List.modifyHead_cons, dropReturn_cons hnot]

theorem lines_eq (t : Text) :
    lines t =
      if (t.splitOn '\n').getLast? = some [] then (dropReturns (t.splitOn '\n')).dropLast
      else dropReturns (t.splitOn '\n') := by
  unfold lines
  dsimp only
  rw [splitOn_unifyLineEnds, getLast?_dropReturns]

theorem dropReturns_append (ps : List Text) {qs : List Text} (h : qs ≠ []) :
    dropReturns (ps ++ qs) = ps.map dropReturn ++ dropReturns qs := by
  induction ps with
  | nil => rfl
  | cons p ps ih =>
    rw [List.cons_append, dropReturns_cons (List.append_ne_nil_of_right_ne_nil ps h), ih]
    rfl

theorem lines_append_lineFeed (p t : Text) :
    lines (p ++ '\n' :: t) = (p.splitOn '\n').map dropReturn ++ lines t := by
  have ht := List.splitOn_ne_nil '\n' t
  rw [lines_eq, lines_eq, List.splitOn_append_cons_self, List.getLast?_append_of_ne_nil _ ht,
    dropReturns_append _ ht]
  split
  · rw [List.dropLast_append_of_ne_nil (dropReturns_ne_nil ht)]
  · rfl

theorem lines_append {s : Text} (h : s = [] ∨ s.getLast? = some '\n') (t : Text) :
    lines (s ++ t) = lines s ++ lines t := by
  rcases h with rfl | h
  · rfl
  · obtain ⟨p, rfl⟩ := List.getLast?_eq_some_iff.mp h
    have hs : lines (p ++ ['\n']) = (p.splitOn '\n').map dropReturn := by
      rw [lines_append_lineFeed]
      exact List.append_nil _
    rw [hs, List.append_assoc]
    exact lines_append_lineFeed p t

theorem lines_of_not_mem {p : Text} (h : '\n' ∉ p) : lines p = if p = [] then [] else [p] := by
  rw [lines_eq, List.splitOn_eq_singleton h]
  simp [dropReturns]

theorem lines_cons_lineFeed {p : Text} (h : '\n' ∉ p) (t : Text) :
    lines (p ++ '\n' :: t) = dropReturn p :: lines t := by
  rw [lines_append_lineFeed, List.splitOn_eq_singleton h]
  rfl

theorem length_splitOn_lineFeed (t : Text) : (t.splitOn '\n').length = List.count '\n' t + 1 := by
  induction t with
  | nil => rfl
  | cons c t ih =>
    rw [List.splitOn_cons_eq_if_modifyHead]
    by_cases hc : c = '\n'
    · simp [hc, ih]
    · simp [hc, ih]

theorem length_lines {s : Text} (h : s = [] ∨ s.getLast? = some '\n') :
    (lines s).length = List.count '\n' s := by
  rcases h with rfl | h
  · rfl
  · obtain ⟨p, rfl⟩ := List.getLast?_eq_some_iff.mp h
    rw [lines_append_lineFeed, List.length_append, List.length_map, length_splitOn_lineFeed,
      List.count_append, List.count_singleton_self]
    rfl

theorem lineFeed_not_mem_of_mem_lines {t l : Text} (h : l ∈ lines t) : '\n' ∉ l := by
  unfold lines at h
  dsimp only at h
  split at h
  · exact not_mem_of_mem_splitOn ((List.dropLast_sublist _).subset h)
  · exact not_mem_of_mem_splitOn h

/-- Lines joined by line feeds are found again, if none is empty or ends in a
carriage return. -/
theorem lines_intercalate {ls : List Text} (hn : ∀ l ∈ ls, '\n' ∉ l)
    (hr : ∀ l ∈ ls, l.getLast? ≠ some '\r') (he : ∀ l ∈ ls, l ≠ []) :
    lines (List.intercalate ['\n'] ls) = ls := by
  by_cases hls : ls = []
  · subst hls
    rfl
  · have hl : ls.getLast? ≠ some [] := fun h => he [] (List.mem_of_getLast? h) rfl
    rw [lines_eq, List.splitOn_intercalate '\n' hn hls, if_neg hl, dropReturns_eq_self hr]

end Text

end WordGrammar
