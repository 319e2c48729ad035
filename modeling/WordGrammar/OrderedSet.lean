/-! Sets that keep the order in which their members first came. -/

namespace WordGrammar

abbrev OrderedSet (α : Type) := List α

namespace OrderedSet

variable {α : Type} [DecidableEq α]

/-- Puts a new member at the end; one that is there already stays where it is. -/
def insert (s : OrderedSet α) (x : α) : OrderedSet α :=
  if x ∈ s then s else s ++ [x]

def insertAll (s : OrderedSet α) (xs : List α) : OrderedSet α :=
  xs.foldl insert s

/-- Whether two sets have the same members, in whatever order. -/
def same (s t : OrderedSet α) : Bool :=
  decide (s.length = t.length) && s.all (fun x => decide (x ∈ t))

@[simp] theorem mem_insert {s : OrderedSet α} {x y : α} : y ∈ insert s x ↔ y ∈ s ∨ y = x := by
  unfold insert
  split
  · rename_i h
    exact ⟨Or.inl, fun hy => hy.elim id (fun he => he ▸ h)⟩
  · simp

@[simp] theorem insertAll_nil (s : OrderedSet α) : insertAll s [] = s := rfl

@[simp] theorem insertAll_cons (s : OrderedSet α) (x : α) (xs : List α) :
    insertAll s (x :: xs) = insertAll (insert s x) xs := rfl

@[simp] theorem mem_insertAll {s : OrderedSet α} {xs : List α} {y : α} :
    y ∈ insertAll s xs ↔ y ∈ s ∨ y ∈ xs := by
  induction xs generalizing s with
  | nil => simp
  | cons x xs ih => simp [ih, or_assoc]

theorem nodup_insert {s : OrderedSet α} (h : s.Nodup) (x : α) : (insert s x).Nodup := by
  unfold insert
  split
  · exact h
  · rename_i hx
    rw [List.nodup_append]
    refine ⟨h, by simp, ?_⟩
    intro a ha b hb hab
    rw [List.mem_singleton] at hb
    exact hx (hb ▸ hab ▸ ha)

theorem nodup_insertAll {s : OrderedSet α} (h : s.Nodup) (xs : List α) : (insertAll s xs).Nodup := by
  induction xs generalizing s with
  | nil => exact h
  | cons x xs ih => exact ih (nodup_insert h x)

end OrderedSet

end WordGrammar
