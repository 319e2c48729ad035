import WordGrammar.Text.Basic

/-! Texts cut into pieces: wherever a separator stands, and at the line ends. The
places of a separator are found from left to right and do not overlap: after one of
them the search goes on behind it. A line ends at a line feed, and a carriage return
that stands directly before the line feed belongs to the line end. -/

namespace WordGrammar

namespace Text

/-- The pieces of what follows the first `skip` characters, which belong to a
separator already found. -/
def splitAfter (sep : Text) : Nat → Text → List Text
  | _, [] => [[]]
  | skip + 1, _ :: rest => splitAfter sep skip rest
  | 0, c :: rest =>
    if sep.isPrefixOf (c :: rest) then [] :: splitAfter sep (sep.length - 1) rest
    else (splitAfter sep 0 rest).modifyHead (c :: ·)

/-- The pieces of a text between the places of a separator that is not empty. -/
def split (sep t : Text) : List Text :=
  splitAfter sep 0 t

theorem splitAfter_eq_split_drop (sep : Text) (skip : Nat) (t : Text) :
    splitAfter sep skip t = split sep (t.drop skip) := by
  induction t generalizing skip with
  | nil => cases skip <;> rfl
  | cons c t ih =>
    cases skip with
    | zero => rfl
    | succ skip => simpa [splitAfter] using ih skip

@[simp] theorem split_nil (sep : Text) : split sep [] = [[]] := rfl

theorem split_append_self {sep : Text} (h : sep ≠ []) (t : Text) :
    split sep (sep ++ t) = [] :: split sep t := by
  cases sep with
  | nil => exact absurd rfl h
  | cons a sep =>
    have hp : (a :: sep).isPrefixOf (a :: (sep ++ t)) = true := by
      rw [List.isPrefixOf_iff_prefix]
      exact ⟨t, rfl⟩
    rw [split, List.cons_append, splitAfter, if_pos hp, splitAfter_eq_split_drop]
    simp

theorem split_cons_of_absent {sep : Text} {c : Char} {t : Text}
    (h : ¬ sep <+: c :: t) : split sep (c :: t) = (split sep t).modifyHead (c :: ·) := by
  have hp : sep.isPrefixOf (c :: t) = false := by
    rw [← Bool.not_eq_true, List.isPrefixOf_iff_prefix]
    exact h
  simp [split, splitAfter, hp]

theorem splitAfter_ne_nil (sep : Text) (skip : Nat) (t : Text) : splitAfter sep skip t ≠ [] := by
  induction t generalizing skip with
  | nil => cases skip <;> simp [splitAfter]
  | cons c t ih =>
    cases skip with
    | zero =>
      rw [splitAfter]
      split
      · simp
      · cases h : splitAfter sep 0 t with
        | nil => exact absurd h (ih 0)
        | cons p ps => simp
    | succ skip => simpa [splitAfter] using ih skip

theorem split_ne_nil (sep t : Text) : split sep t ≠ [] :=
  splitAfter_ne_nil sep 0 t

/-- Drops every carriage return that stands directly before a line feed. -/
def unifyLineEnds : Text → Text
  | [] => []
  | c :: rest =>
    if c = '\r' ∧ rest.head? = some '\n' then unifyLineEnds rest else c :: unifyLineEnds rest

/-- The lines of a text. Nothing after the last line feed is no line; without a
line feed behind it, the last line keeps a carriage return at its end. -/
def lines (t : Text) : List Text :=
  let pieces := (unifyLineEnds t).splitOn '\n'
  if pieces.getLast? = some [] then pieces.dropLast else pieces

end Text

end WordGrammar
