import Mathlib.Data.List.Nodup
import WordGrammar.Proofs.OrderedSet
import WordGrammar.Table

/-! Tables and the entries that make them up. A run of pushes only groups its
entries: none is lost, and those of one key keep their order. A table is what
its own entries make up again. -/

namespace WordGrammar

namespace Table

variable {κ ν : Type}

/-- The values of a table with their keys, group by group. -/
def entries (t : Table κ ν) : List (κ × ν) :=
  t.flatMap fun g => g.2.map (g.1, ·)

@[simp] theorem entries_nil : entries ([] : Table κ ν) = [] := rfl

@[simp] theorem entries_cons (g : κ × List ν) (t : Table κ ν) :
    entries (g :: t) = g.2.map (g.1, ·) ++ entries t := rfl

structure WellFormed (t : Table κ ν) : Prop where
  nodup_keys : t.keys.Nodup
  ne_nil : ∀ g ∈ t, g.2 ≠ []

theorem WellFormed.nil : WellFormed ([] : Table κ ν) :=
  ⟨List.nodup_nil, by simp⟩

theorem fst_mem_keys {t : Table κ ν} {e : κ × ν} (h : e ∈ entries t) : e.1 ∈ keys t := by
  obtain ⟨g, hg, he⟩ := List.mem_flatMap.mp h
  obtain ⟨v, -, rfl⟩ := List.mem_map.mp he
  exact List.mem_map_of_mem hg

variable [DecidableEq κ]

def pushAll (t : Table κ ν) (es : List (κ × ν)) : Table κ ν :=
  es.foldl (fun t e => t.push e.1 e.2) t

@[simp] theorem pushAll_nil (t : Table κ ν) : pushAll t [] = t := rfl

@[simp] theorem pushAll_cons (t : Table κ ν) (e : κ × ν) (es : List (κ × ν)) :
    pushAll t (e :: es) = pushAll (push e.1 e.2 t) es := rfl

theorem pushAll_append (t : Table κ ν) (es fs : List (κ × ν)) :
    pushAll t (es ++ fs) = pushAll (pushAll t es) fs :=
  List.foldl_append

@[simp] theorem keys_pushAll (t : Table κ ν) (es : List (κ × ν)) :
    keys (pushAll t es) = OrderedSet.insertAll (keys t) (es.map Prod.fst) := by
  induction es generalizing t with
  | nil => simp
  | cons e es ih => simp [ih]

@[simp] theorem group_pushAll (k : κ) (t : Table κ ν) (es : List (κ × ν)) :
    group k (pushAll t es) = group k t ++ (es.filter (fun e => e.1 = k)).map Prod.snd := by
  induction es generalizing t with
  | nil => simp
  | cons e es ih => by_cases he : e.1 = k <;> simp [ih, he]

theorem keys_pushAll_nil [BEq κ] [LawfulBEq κ] (es : List (κ × ν)) :
    keys (pushAll [] es) = (es.map Prod.fst).eraseDups := by
  rw [keys_pushAll, keys_nil, OrderedSet.insertAll_empty]

theorem group_pushAll_nil (k : κ) (es : List (κ × ν)) :
    group k (pushAll [] es) = (es.filter (fun e => e.1 = k)).map Prod.snd := by
  rw [group_pushAll, group_nil, List.nil_append]

theorem eq_map_keys {t : Table κ ν} (h : t.keys.Nodup) : t.keys.map (fun k => (k, t.group k)) = t := by
  induction t with
  | nil => rfl
  | cons g t ih =>
    obtain ⟨k, vs⟩ := g
    obtain ⟨hk, hn⟩ := List.nodup_cons.mp h
    have ht : (keys t).map (fun k' => (k', group k' ((k, vs) :: t))) = t := by
      refine Eq.trans (List.map_congr_left ?_) (ih hn)
      intro k' hk'
      have hne : k ≠ k' := fun he => hk (he ▸ hk')
      simp [hne]
    rw [keys_cons, List.map_cons, ht, group_cons, if_pos rfl]

theorem WellFormed.push {t : Table κ ν} (h : WellFormed t) (k : κ) (v : ν) :
    WellFormed (t.push k v) := by
  refine ⟨?_, ?_⟩
  · rw [keys_push]
    exact OrderedSet.nodup_insert h.nodup_keys k
  · have hne := h.ne_nil
    clear h
    induction t with
    | nil => simp [Table.push]
    | cons g t ih =>
      obtain ⟨k', vs⟩ := g
      have hh := ih (fun g hg => hne g (List.mem_cons_of_mem _ hg))
      by_cases hk : k' = k
      · simp only [Table.push, hk, if_true, List.mem_cons, forall_eq_or_imp]
        exact ⟨by simp, fun g hg => hne g (List.mem_cons_of_mem _ hg)⟩
      · simp only [Table.push, hk, if_false, List.mem_cons, forall_eq_or_imp]
        exact ⟨hne _ List.mem_cons_self, hh⟩

theorem WellFormed.pushAll {t : Table κ ν} (h : WellFormed t) (es : List (κ × ν)) :
    WellFormed (t.pushAll es) := by
  induction es generalizing t with
  | nil => exact h
  | cons e es ih => exact ih (h.push e.1 e.2)

theorem entries_push_perm (k : κ) (v : ν) (t : Table κ ν) :
    (entries (push k v t)).Perm (entries t ++ [(k, v)]) := by
  induction t with
  | nil => simp [push]
  | cons g t ih =>
    obtain ⟨k', vs⟩ := g
    by_cases hk : k' = k
    · subst hk
      simp only [push, if_true, entries_cons, List.map_append, List.append_assoc]
      exact List.perm_append_comm.append_left _
    · simp only [push, hk, if_false, entries_cons, List.append_assoc]
      exact ih.append_left _

theorem entries_pushAll_perm (t : Table κ ν) (es : List (κ × ν)) :
    (entries (pushAll t es)).Perm (entries t ++ es) := by
  induction es generalizing t with
  | nil => simp
  | cons e es ih =>
    simpa using (ih (push e.1 e.2 t)).trans ((entries_push_perm e.1 e.2 t).append_right es)

@[simp] theorem mem_entries_push {t : Table κ ν} {k : κ} {v : ν} {e : κ × ν} :
    e ∈ entries (push k v t) ↔ e ∈ entries t ∨ e = (k, v) := by
  rw [(entries_push_perm k v t).mem_iff, List.mem_append, List.mem_singleton]

@[simp] theorem mem_entries_pushAll {t : Table κ ν} {es : List (κ × ν)} {e : κ × ν} :
    e ∈ entries (pushAll t es) ↔ e ∈ entries t ∨ e ∈ es := by
  rw [(entries_pushAll_perm t es).mem_iff, List.mem_append]

theorem map_filter_key (k : κ) (es : List (κ × ν)) :
    (es.filter (fun e => e.1 = k)).map (fun e => (k, e.2)) = es.filter (fun e => e.1 = k) := by
  refine Eq.trans (List.map_congr_left (g := id) ?_) (List.map_id _)
  intro e he
  have hh : e.1 = k := by simpa using (List.mem_filter.mp he).2
  simp [← hh]

/-- The entries of a table made by pushes: for each key in the order of first
use, its entries in their order. -/
theorem entries_pushAll_nil [BEq κ] [LawfulBEq κ] (es : List (κ × ν)) :
    entries (pushAll [] es) =
      (es.map Prod.fst).eraseDups.flatMap fun k => es.filter (fun e => e.1 = k) := by
  have hw : WellFormed (pushAll ([] : Table κ ν) es) := WellFormed.nil.pushAll es
  rw [← eq_map_keys hw.nodup_keys, entries, List.flatMap_map, keys_pushAll_nil]
  congr 1
  funext k
  rw [group_pushAll_nil, List.map_map]
  exact map_filter_key k es

theorem push_append {s : Table κ ν} {k : κ} (h : k ∉ keys s) (v : ν) (t : Table κ ν) :
    push k v (s ++ t) = s ++ push k v t := by
  induction s with
  | nil => rfl
  | cons g s ih =>
    obtain ⟨k', vs⟩ := g
    have hk : k ≠ k' ∧ k ∉ keys s := by simpa using h
    simp [push, Ne.symm hk.1, ih hk.2]

theorem pushAll_same_key {s : Table κ ν} {k : κ} (h : k ∉ keys s) (us vs : List ν) :
    pushAll (s ++ [(k, us)]) (vs.map (k, ·)) = s ++ [(k, us ++ vs)] := by
  induction vs generalizing us with
  | nil => simp
  | cons v vs ih =>
    have hp : push k v (s ++ [(k, us)]) = s ++ [(k, us ++ [v])] := by
      rw [push_append h]
      simp [push]
    have hh := ih (us ++ [v])
    rw [← hp, List.append_assoc] at hh
    exact hh

theorem pushAll_entries_append (s t : Table κ ν) (h : WellFormed (s ++ t)) :
    pushAll s (entries t) = s ++ t := by
  induction t generalizing s with
  | nil => simp
  | cons g t ih =>
    obtain ⟨k, vs⟩ := g
    have hk : k ∉ keys s := by
      have hd := h.nodup_keys
      simp only [keys, List.map_append, List.map_cons] at hd
      exact fun hm => (List.disjoint_of_nodup_append hd) hm List.mem_cons_self
    have hs : pushAll s (vs.map (k, ·)) = s ++ [(k, vs)] := by
      cases vs with
      | nil => exact absurd rfl (h.ne_nil (k, []) (by simp))
      | cons v vs =>
        have hp : push k v s = s ++ [(k, [v])] := by simpa [push] using push_append hk v []
        have hh := pushAll_same_key hk [v] vs
        rw [← hp] at hh
        exact hh
    have hh := ih (s ++ [(k, vs)]) (by simpa using h)
    rw [entries_cons, pushAll_append, hs]
    simpa using hh

theorem pushAll_entries {t : Table κ ν} (h : WellFormed t) : pushAll [] (entries t) = t :=
  pushAll_entries_append [] t h

theorem WellFormed.filter_entries {t : Table κ ν} (h : WellFormed t) (k : κ) :
    (entries t).filter (fun e => e.1 = k) = (t.group k).map (k, ·) := by
  have hg := group_pushAll_nil k (entries t)
  rw [pushAll_entries h] at hg
  rw [hg, List.map_map]
  exact (map_filter_key k (entries t)).symm

theorem eq_of_entries_eq {s t : Table κ ν} (hs : WellFormed s) (ht : WellFormed t)
    (h : entries s = entries t) : s = t := by
  rw [← pushAll_entries hs, ← pushAll_entries ht, h]

theorem group_of_mem {t : Table κ ν} {k : κ} {vs : List ν} (h : t.keys.Nodup) (hm : (k, vs) ∈ t) :
    t.group k = vs := by
  rw [← eq_map_keys h] at hm
  obtain ⟨k', -, he⟩ := List.mem_map.mp hm
  obtain ⟨rfl, hv⟩ := Prod.mk.inj he
  exact hv

theorem group_of_not_mem {t : Table κ ν} {k : κ} (h : k ∉ t.keys) : t.group k = [] := by
  induction t with
  | nil => rfl
  | cons g t ih =>
    obtain ⟨k', vs⟩ := g
    have hk : k ≠ k' ∧ k ∉ keys t := by simpa using h
    simp [Ne.symm hk.1, ih hk.2]

theorem WellFormed.mem_keys_iff {t : Table κ ν} (h : WellFormed t) {k : κ} :
    k ∈ t.keys ↔ t.group k ≠ [] := by
  constructor
  · intro hk
    obtain ⟨⟨k', vs⟩, hm, rfl⟩ := List.mem_map.mp hk
    rw [group_of_mem h.nodup_keys hm]
    exact h.ne_nil _ hm
  · intro hne
    apply Classical.not_not.mp
    intro hk
    exact hne (group_of_not_mem hk)

theorem WellFormed.mem_entries_iff {t : Table κ ν} (h : WellFormed t) {e : κ × ν} :
    e ∈ t.entries ↔ e.2 ∈ t.group e.1 := by
  constructor
  · intro he
    obtain ⟨⟨k, vs⟩, hm, hv⟩ := List.mem_flatMap.mp he
    obtain ⟨v, hvs, rfl⟩ := List.mem_map.mp hv
    rw [group_of_mem h.nodup_keys hm]
    exact hvs
  · intro he
    have hk : e.1 ∈ t.keys := h.mem_keys_iff.mpr (List.ne_nil_of_mem he)
    obtain ⟨⟨k, vs⟩, hm, hke⟩ := List.mem_map.mp hk
    rw [← hke, group_of_mem h.nodup_keys hm] at he
    exact List.mem_flatMap.mpr ⟨_, hm, List.mem_map.mpr ⟨e.2, he, Prod.ext hke rfl⟩⟩

theorem group_map (f : κ → List ν) (ks : List κ) (k : κ) :
    group k (ks.map fun k => (k, f k)) = if k ∈ ks then f k else [] := by
  induction ks with
  | nil => rfl
  | cons k' ks ih =>
    by_cases hk : k' = k
    · simp [hk]
    · simp [hk, Ne.symm hk, ih]

section

variable [BEq κ] [LawfulBEq κ]

/-- A table with another behind it. A key of both has its values in the one, then
those in the other. -/
def merge (s t : Table κ ν) : Table κ ν :=
  (s.keys ++ t.keys.filter (· ∉ s.keys)).map fun k => (k, s.group k ++ t.group k)

theorem keys_merge (s t : Table κ ν) :
    keys (merge s t) = s.keys ++ t.keys.filter (· ∉ s.keys) := by
  simp [keys, merge, Function.comp_def]

theorem group_merge (k : κ) (s t : Table κ ν) : group k (merge s t) = group k s ++ group k t := by
  rw [merge, group_map]
  split
  · rfl
  · rename_i h
    simp only [List.mem_append, List.mem_filter, decide_eq_true_eq, not_or, not_and_or,
      not_not] at h
    have ht : k ∉ t.keys := h.2.resolve_right h.1
    rw [group_of_not_mem h.1, group_of_not_mem ht]
    rfl

theorem WellFormed.pushAll_eq_merge {s : Table κ ν} (h : WellFormed s) (es : List (κ × ν)) :
    s.pushAll es = s.merge (Table.pushAll [] es) := by
  have hk : (s.pushAll es).keys = s.keys ++ (Table.pushAll [] es).keys.filter (· ∉ s.keys) := by
    rw [keys_pushAll, keys_pushAll, OrderedSet.insertAll_eq_append_filter]
    rfl
  rw [← eq_map_keys (h.pushAll es).nodup_keys, hk, merge]
  apply List.map_congr_left
  intro k _
  rw [group_pushAll, group_pushAll_nil]

end

theorem WellFormed.same_iff [DecidableEq ν] {s t : Table κ ν} (hs : WellFormed s)
    (ht : WellFormed t) : same s t = true ↔ ∀ k, s.group k = t.group k := by
  simp only [same, Bool.and_eq_true, decide_eq_true_eq, List.all_eq_true]
  constructor
  · rintro ⟨hl, hg⟩ k
    have hsub : s.keys ⊆ t.keys := by
      intro k hk
      obtain ⟨g, hm, rfl⟩ := List.mem_map.mp hk
      exact (hg g hm).1
    have hp : s.keys.Perm t.keys :=
      (List.subperm_of_subset hs.nodup_keys hsub).perm_of_length_le (by simp [keys, hl])
    by_cases hk : k ∈ s.keys
    · obtain ⟨⟨k', vs⟩, hm, rfl⟩ := List.mem_map.mp hk
      rw [group_of_mem hs.nodup_keys hm, (hg _ hm).2]
    · rw [group_of_not_mem hk, group_of_not_mem (fun h => hk (hp.mem_iff.mpr h))]
  · intro h
    have hk : ∀ k, k ∈ s.keys ↔ k ∈ t.keys := by
      intro k
      rw [hs.mem_keys_iff, ht.mem_keys_iff, h k]
    have hp : s.keys.Perm t.keys := (List.perm_ext_iff_of_nodup hs.nodup_keys ht.nodup_keys).mpr hk
    refine ⟨by simpa [keys] using hp.length_eq, ?_⟩
    rintro ⟨k, vs⟩ hm
    refine ⟨(hk k).mp (List.mem_map_of_mem (f := Prod.fst) hm), ?_⟩
    rw [← h k, group_of_mem hs.nodup_keys hm]

end Table

end WordGrammar
