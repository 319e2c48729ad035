import WordGrammar.Grammar.Edit
import WordGrammar.Proofs.Table

/-! Rules and terminals belong together: the terminals are the words in the
rules, and a literal stands only where augmentation put it. No change of a
grammar breaks this. -/

namespace WordGrammar

namespace Grammar

structure Closed (g : Grammar) : Prop where
  rules : g.rules.WellFormed
  nodup_terminals : g.terminals.Nodup
  mem_terminals : ∀ t, t ∈ g.terminals ↔ ∃ e ∈ g.rules.entries, Symbol.word t ∈ e.2
  literal : ∀ e ∈ g.rules.entries, ∀ t, Symbol.literal t ∈ e.2 →
    e = (t, [Symbol.literal t]) ∧ t ∈ g.terminals

def literalEntry (t : Text) : Text × Alternative :=
  (t, [Symbol.literal t])

theorem rules_augment (g : Grammar) :
    g.augment.rules = g.rules.pushAll (g.terminals.map literalEntry) := by
  simp [augment, Table.pushAll, List.foldl_map, literalEntry]

theorem mem_keys_augment {g : Grammar} {t : Text} :
    t ∈ g.augment.rules.keys ↔ t ∈ g.rules.keys ∨ t ∈ g.terminals := by
  simp [rules_augment, literalEntry]

theorem filter_literalEntry {ts : List Text} (h : ts.Nodup) (s : Text) :
    (ts.map literalEntry).filter (fun e => e.1 = s) =
      if s ∈ ts then [literalEntry s] else [] := by
  rw [List.filter_map]
  have hf : ts.filter ((fun e => decide (e.1 = s)) ∘ literalEntry) = ts.filter (· = s) := rfl
  rw [hf, List.filter_eq]
  by_cases hs : s ∈ ts
  · simp [hs, List.count_eq_one_of_mem h hs]
  · simp [hs, List.count_eq_zero_of_not_mem hs]

theorem Closed.empty : Closed Grammar.empty :=
  ⟨Table.WellFormed.nil, List.nodup_nil, by simp [Grammar.empty], by simp [Grammar.empty]⟩

theorem Closed.addRule {g : Grammar} (h : g.Closed) (symbol : Text) (words : List Text) :
    (g.addRule symbol words).Closed := by
  refine ⟨h.rules.push _ _, OrderedSet.nodup_insertAll h.nodup_terminals words, ?_, ?_⟩
  · intro t
    simp only [Grammar.addRule, OrderedSet.mem_insertAll, Table.mem_entries_push,
      h.mem_terminals t]
    constructor
    · rintro (⟨e, he, ht⟩ | ht)
      · exact ⟨e, Or.inl he, ht⟩
      · exact ⟨_, Or.inr rfl, List.mem_map_of_mem ht⟩
    · rintro ⟨e, he | rfl, ht⟩
      · exact Or.inl ⟨e, he, ht⟩
      · exact Or.inr (by simpa using ht)
  · intro e he t ht
    rcases Table.mem_entries_push.mp he with he | rfl
    · exact ⟨(h.literal e he t ht).1, OrderedSet.mem_insertAll.mpr (Or.inl (h.literal e he t ht).2)⟩
    · simp at ht

theorem Closed.augment {g : Grammar} (h : g.Closed) : g.augment.Closed := by
  have hr := rules_augment g
  refine ⟨?_, h.nodup_terminals, ?_, ?_⟩
  · rw [hr]
    exact h.rules.pushAll _
  · intro t
    rw [hr]
    refine (h.mem_terminals t).trans ?_
    simp only [Table.mem_entries_pushAll]
    constructor
    · rintro ⟨e, he, ht⟩
      exact ⟨e, Or.inl he, ht⟩
    · rintro ⟨e, he | he, ht⟩
      · exact ⟨e, he, ht⟩
      · obtain ⟨s, -, rfl⟩ := List.mem_map.mp he
        simp [literalEntry] at ht
  · intro e he t ht
    rw [hr] at he
    rcases Table.mem_entries_pushAll.mp he with he | he
    · exact h.literal e he t ht
    · obtain ⟨s, hs, rfl⟩ := List.mem_map.mp he
      have hst : t = s := by simpa [literalEntry] using ht
      exact ⟨by simp [literalEntry, hst], hst ▸ hs⟩

theorem Closed.change {g : Grammar} (h : g.Closed) (c : Change) : (g.change c).Closed := by
  cases c with
  | addRule symbol words => exact h.addRule symbol words
  | augment => exact h.augment

theorem Closed.changeAll {g : Grammar} (h : g.Closed) (cs : List Change) :
    (g.changeAll cs).Closed := by
  induction cs generalizing g with
  | nil => exact h
  | cons c cs ih => exact ih (h.change c)

theorem closed_ofRules (rules : List Rule) : (ofRules rules).Closed :=
  Closed.empty.changeAll _

/-- An alternative is all words, or the literal of its own symbol. -/
theorem Closed.entry_cases {g : Grammar} (h : g.Closed) {e : Text × Alternative}
    (he : e ∈ g.rules.entries) :
    (∃ ws : List Text, e.2 = ws.map Symbol.word ∧ ∀ w ∈ ws, w ∈ g.terminals) ∨
      ∃ t ∈ g.terminals, e = literalEntry t := by
  by_cases hl : ∃ t, Symbol.literal t ∈ e.2
  · obtain ⟨t, ht⟩ := hl
    exact Or.inr ⟨t, (h.literal e he t ht).2, (h.literal e he t ht).1⟩
  · have hm : ∀ a : Alternative, (∀ t, Symbol.literal t ∉ a) → ∃ ws : List Text, a = ws.map Symbol.word := by
      intro a ha
      induction a with
      | nil => exact ⟨[], rfl⟩
      | cons s a ih =>
        obtain ⟨ws, rfl⟩ := ih (fun t ht => ha t (List.mem_cons_of_mem _ ht))
        cases s with
        | word t => exact ⟨t :: ws, rfl⟩
        | literal t => exact absurd List.mem_cons_self (ha t)
    obtain ⟨ws, hws⟩ := hm e.2 (fun t ht => hl ⟨t, ht⟩)
    refine Or.inl ⟨ws, hws, fun w hw => (h.mem_terminals w).mpr ⟨e, he, ?_⟩⟩
    rw [hws]
    exact List.mem_map_of_mem hw

theorem Closed.terminals_perm {g h : Grammar} (hg : g.Closed) (hh : h.Closed)
    (hr : g.rules = h.rules) : g.terminals.Perm h.terminals := by
  apply (List.perm_ext_iff_of_nodup hg.nodup_terminals hh.nodup_terminals).mpr
  intro t
  rw [hg.mem_terminals, hh.mem_terminals, hr]

/-- Grammars are the same if every symbol has the same alternatives in both,
since these tell the terminals. -/
theorem Closed.same_iff {g h : Grammar} (hg : g.Closed) (hh : h.Closed) :
    g.same h = true ↔ ∀ k, g.rules.group k = h.rules.group k := by
  rw [same, Bool.and_eq_true, hg.rules.same_iff hh.rules,
    OrderedSet.same_iff hg.nodup_terminals hh.nodup_terminals]
  apply and_iff_left_of_imp
  intro hk t
  simp only [hg.mem_terminals t, hh.mem_terminals t, hg.rules.mem_entries_iff,
    hh.rules.mem_entries_iff, hk]

end Grammar

end WordGrammar
