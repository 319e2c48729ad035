import Mathlib.Logic.Function.Iterate
import WordGrammar.Proofs.Grammar.Closure
import WordGrammar.Proofs.Grammar.Reading
import WordGrammar.Proofs.Report

/-! Grammars read from a text, augmented or not. Their terminals have the shape
of words, and nothing in them runs over the end of a line, so that what is
printed has one line for each alternative. -/

namespace WordGrammar

/-- The line that augmentation adds for a terminal. -/
def literalLine (t : Text) : Text :=
  t ++ " : \"".toList ++ t ++ ['"']

@[simp] theorem render_literal (t : Text) :
    Alternative.render t [Symbol.literal t] = literalLine t := by
  simp [Alternative.render, literalLine, joinWords, Symbol.render]

@[simp] theorem render_words (symbol : Text) (ws : List Text) :
    Alternative.render symbol (ws.map Symbol.word) = symbol ++ " : ".toList ++ joinWords ws := by
  simp [Alternative.render, Function.comp_def, Symbol.render]

theorem lineFeed_not_mem_joinWords {ws : List Text} (h : ∀ w ∈ ws, '\n' ∉ w) :
    '\n' ∉ joinWords ws := by
  induction ws with
  | nil => simp [joinWords]
  | cons w ws ih =>
    have hw := h w List.mem_cons_self
    have hh := ih (fun v hv => h v (List.mem_cons_of_mem _ hv))
    cases ws with
    | nil => simpa [joinWords] using hw
    | cons v ws =>
      simp only [joinWords, List.intercalate_cons_cons, List.mem_append, List.mem_singleton] at hh ⊢
      rintro ((hm | hm) | hm)
      · exact hw hm
      · exact absurd hm (by decide)
      · exact hh hm

namespace Grammar

structure Legible (g : Grammar) : Prop where
  closed : g.Closed
  key : ∀ s ∈ g.rules.keys, '\n' ∉ s
  terminal : ∀ t ∈ g.terminals, Text.IsWord t ∧ '\n' ∉ t

theorem legible_ofRules {rules : List Rule} (h : ∀ r ∈ rules, r.Legible) :
    (ofRules rules).Legible := by
  refine ⟨closed_ofRules rules, ?_, ?_⟩
  · intro s hs
    obtain ⟨r, hr, rfl⟩ : ∃ r ∈ rules, r.symbol = s := by
      simpa [rules_ofRules, Rule.entry] using hs
    exact (h r hr).symbol_lineFeed
  · intro t ht
    rw [terminals_ofRules, List.mem_eraseDups] at ht
    obtain ⟨r, hr, hw⟩ := List.mem_flatMap.mp ht
    exact ⟨(h r hr).isWord t hw, ((h r hr).word t hw).2.1⟩

theorem legible_of_read {file : Path} {text : Text} {g : Grammar} (h : read file text = .ok g) :
    g.Legible := by
  obtain ⟨rules, hl, rfl⟩ := read_eq_ok_iff.mp h
  exact legible_ofRules (legible_of_lines hl)

theorem Legible.augment {g : Grammar} (h : g.Legible) : g.augment.Legible := by
  refine ⟨h.closed.augment, ?_, h.terminal⟩
  intro s hs
  rcases mem_keys_augment.mp hs with hs | hs
  · exact h.key s hs
  · exact (h.terminal s hs).2

theorem Legible.iterate_augment {g : Grammar} (h : g.Legible) (n : Nat) :
    (Grammar.augment^[n] g).Legible := by
  induction n generalizing g with
  | zero => exact h
  | succ n ih => exact ih h.augment

theorem Legible.lineFeed_not_mem_lines {g : Grammar} (h : g.Legible) : ∀ l ∈ g.lines, '\n' ∉ l := by
  intro l hl
  rw [lines_eq_map_entries] at hl
  obtain ⟨e, he, rfl⟩ := List.mem_map.mp hl
  have hk := h.key e.1 (Table.fst_mem_keys he)
  rcases h.closed.entry_cases he with ⟨ws, hws, hm⟩ | ⟨t, ht, rfl⟩
  · have hj := lineFeed_not_mem_joinWords (fun w hw => (h.terminal w (hm w hw)).2)
    simp [hws, hk, hj]
  · have ht := (h.terminal t ht).2
    simp [literalEntry, literalLine, ht]

end Grammar

end WordGrammar
