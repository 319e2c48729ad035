import WordGrammar.OrderedSet

/-! Values filed in groups, one group to a key. Groups stand in the order in
which their keys first came, and the values of a group in the order in which
they were put there. -/

namespace WordGrammar

abbrev Table (κ ν : Type) := List (κ × List ν)

namespace Table

variable {κ ν : Type}

def keys (t : Table κ ν) : List κ :=
  t.map Prod.fst

@[simp] theorem keys_nil : keys ([] : Table κ ν) = [] := rfl

@[simp] theorem keys_cons (g : κ × List ν) (t : Table κ ν) : keys (g :: t) = g.1 :: keys t := rfl

variable [DecidableEq κ]

/-- The values under a key; none where the table has no such key. -/
def group (k : κ) : Table κ ν → List ν
  | [] => []
  | (k', vs) :: rest => if k' = k then vs else group k rest

/-- Puts a value at the end of the group of `k`. A key that the table does not
have gets a group at the end of the table. -/
def push (k : κ) (v : ν) : Table κ ν → Table κ ν
  | [] => [(k, [v])]
  | (k', vs) :: rest =>
    if k' = k then (k', vs ++ [v]) :: rest else (k', vs) :: push k v rest

/-- Whether two tables have the same keys, in whatever order, each with the
same values in the same order. -/
def same [DecidableEq ν] (s t : Table κ ν) : Bool :=
  decide (s.length = t.length) &&
    s.all (fun g => decide (g.1 ∈ t.keys ∧ t.group g.1 = g.2))

@[simp] theorem group_nil (k : κ) : group k ([] : Table κ ν) = [] := rfl

@[simp] theorem group_cons (k k' : κ) (vs : List ν) (t : Table κ ν) :
    group k ((k', vs) :: t) = if k' = k then vs else group k t := rfl

@[simp] theorem group_push (k k' : κ) (v : ν) (t : Table κ ν) :
    group k' (push k v t) = if k = k' then group k' t ++ [v] else group k' t := by
  induction t with
  | nil => simp [push]
  | cons g t ih =>
    obtain ⟨a, vs⟩ := g
    by_cases ha : a = k
    · subst ha
      by_cases hk : a = k' <;> simp [push, hk]
    · by_cases hk : a = k'
      · subst hk
        have hne : ¬ k = a := fun h => ha h.symm
        simp [push, ha, hne]
      · simp [push, ha, hk, ih]

@[simp] theorem keys_push (k : κ) (v : ν) (t : Table κ ν) :
    keys (push k v t) = OrderedSet.insert (keys t) k := by
  induction t with
  | nil => simp [push, OrderedSet.insert]
  | cons g t ih =>
    obtain ⟨a, vs⟩ := g
    by_cases ha : a = k
    · simp [push, OrderedSet.insert, ha]
    · have hk : k ≠ a := fun h => ha h.symm
      by_cases hm : k ∈ keys t <;> simp [push, OrderedSet.insert, ha, ih, hk, hm]

end Table

end WordGrammar
