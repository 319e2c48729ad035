import Mathlib.Data.List.Infix
import WordGrammar.Proofs.Grammar.Legible

/-! Reading a printed grammar back. The first colon between blanks ends the
symbol of a line; behind it stand words, told apart by their capitals, or a
quotation mark, with which no word starts. -/

namespace WordGrammar

def colon : Text := " : ".toList

theorem firstBehind_colon {s : Text} (h : ¬ colon <:+: s ++ [' ']) : Text.FirstBehind colon s := by
  intro hi
  have hd : s ++ colon.dropLast = (s ++ [' ']) ++ [':'] := by simp [colon]
  rw [hd, List.infix_concat_iff] at hi
  rcases hi with hs | hi
  · obtain ⟨u, hu⟩ := hs
    have hl := congrArg List.getLast? hu
    rw [List.getLast?_concat, List.getLast?_append] at hl
    exact absurd hl (by simp [colon])
  · exact h hi

theorem joinWords_injective {ws vs : List Text} (hw : ∀ w ∈ ws, Text.IsWord w)
    (hv : ∀ v ∈ vs, Text.IsWord v) (h : joinWords ws = joinWords vs) : ws = vs := by
  have hb : ∀ c ∈ [' '], Text.isBlank c = true := List.forall_mem_singleton.mpr rfl
  rw [← Text.words_intercalate hb hw, ← Text.words_intercalate hb hv]
  exact congrArg Text.words h

theorem joinWords_ne_quoted {ws : List Text} (hw : ∀ w ∈ ws, Text.IsWord w) (t : Text) :
    joinWords ws ≠ '"' :: t := by
  intro h
  have hs := Text.startsWord_intercalate [' '] fun w hm => (hw w hm).isBlock
  change Text.StartsWord (joinWords ws) at hs
  rw [h] at hs
  exact absurd (hs '"' rfl) (by decide)

namespace Alternative

inductive Readable : Alternative → Prop where
  | words {ws : List Text} (h : ∀ w ∈ ws, Text.IsWord w) : Readable (ws.map Symbol.word)
  | literal (t : Text) : Readable [Symbol.literal t]

theorem Readable.eq_of_joinWords {a b : Alternative} (ha : a.Readable) (hb : b.Readable)
    (h : joinWords (a.map Symbol.render) = joinWords (b.map Symbol.render)) : a = b := by
  have hj : ∀ ws : List Text, (ws.map Symbol.word).map Symbol.render = ws := by
    intro ws
    simp [Function.comp_def, Symbol.render]
  have hq : ∀ t : Text, joinWords ([Symbol.literal t].map Symbol.render) = '"' :: (t ++ ['"']) := by
    intro t
    simp [joinWords, Symbol.render]
  cases ha with
  | words hw =>
    cases hb with
    | words hv =>
      rw [hj, hj] at h
      rw [joinWords_injective hw hv h]
    | literal t =>
      rw [hj, hq] at h
      exact absurd h (joinWords_ne_quoted hw _)
  | literal t =>
    cases hb with
    | words hv =>
      rw [hj, hq] at h
      exact absurd h.symm (joinWords_ne_quoted hv _)
    | literal u =>
      rw [hq, hq] at h
      rw [List.append_cancel_right (List.cons.inj h).2]

/-- A line tells its symbol and its alternative, if the symbol does not look
like the start of a line itself. -/
theorem eq_of_render_eq {s t : Text} {a b : Alternative} (hs : ¬ colon <:+: s ++ [' '])
    (ht : ¬ colon <:+: t ++ [' ']) (ha : a.Readable) (hb : b.Readable)
    (h : render s a = render t b) : s = t ∧ a = b := by
  have hc : colon ≠ [] := by simp [colon]
  have hh := congrArg (Text.split colon) h
  change Text.split colon (s ++ colon ++ _) = Text.split colon (t ++ colon ++ _) at hh
  rw [Text.split_append hc (firstBehind_colon hs), Text.split_append hc (firstBehind_colon ht)] at hh
  have he := (List.cons.inj hh).1
  subst he
  exact ⟨rfl, ha.eq_of_joinWords hb (List.append_cancel_left h)⟩

end Alternative

theorem eq_of_map_eq_map {α β : Type} {f : α → β} {xs ys : List α}
    (h : ∀ x ∈ xs, ∀ y ∈ ys, f x = f y → x = y) (he : xs.map f = ys.map f) : xs = ys := by
  induction xs generalizing ys with
  | nil => exact (List.map_eq_nil_iff.mp he.symm).symm
  | cons x xs ih =>
    cases ys with
    | nil => simp at he
    | cons y ys =>
      obtain ⟨h1, h2⟩ := List.cons.inj he
      rw [h x List.mem_cons_self y List.mem_cons_self h1,
        ih (fun a ha b hb => h a (List.mem_cons_of_mem _ ha) b (List.mem_cons_of_mem _ hb)) h2]

namespace Grammar

/-- No symbol together with the blank behind it holds a colon between blanks. -/
def PlainKeys (g : Grammar) : Prop :=
  ∀ s ∈ g.rules.keys, ¬ colon <:+: s ++ [' ']

theorem Legible.readable {g : Grammar} (h : g.Legible) {e : Text × Alternative}
    (he : e ∈ g.rules.entries) : e.2.Readable := by
  rcases h.closed.entry_cases he with ⟨ws, hws, hm⟩ | ⟨t, -, rfl⟩
  · rw [hws]
    exact .words (fun w hw => (h.terminal w (hm w hw)).1)
  · exact .literal t

theorem Legible.rules_eq_of_lines_eq {g h : Grammar} (hg : g.Legible) (hh : h.Legible)
    (kg : g.PlainKeys) (kh : h.PlainKeys) (hl : g.lines = h.lines) : g.rules = h.rules := by
  apply Table.eq_of_entries_eq hg.closed.rules hh.closed.rules
  rw [lines_eq_map_entries, lines_eq_map_entries] at hl
  refine eq_of_map_eq_map ?_ hl
  intro e he f hf hr
  exact Prod.ext_iff.mpr (Alternative.eq_of_render_eq (kg e.1 (Table.fst_mem_keys he))
    (kh f.1 (Table.fst_mem_keys hf)) (hg.readable he) (hh.readable hf) hr)

theorem Closed.same_of_rules_eq {g h : Grammar} (hg : g.Closed) (hh : h.Closed)
    (hr : g.rules = h.rules) : g.same h = true := by
  apply (hg.same_iff hh).mpr
  intro k
  rw [hr]

/-- Grammars that print the same are the same, whatever texts they were read
from and however often each of them was augmented. -/
theorem eq_of_print_eq {file₁ file₂ : Path} {text₁ text₂ : Text} {g₁ g₂ : Grammar} {m n : Nat}
    (h₁ : read file₁ text₁ = .ok g₁) (h₂ : read file₂ text₂ = .ok g₂)
    (k₁ : (augment^[m] g₁).PlainKeys) (k₂ : (augment^[n] g₂).PlainKeys)
    (hp : Sink.collect .unlimited (augment^[m] g₁).print =
      Sink.collect .unlimited (augment^[n] g₂).print) :
    (augment^[m] g₁).rules = (augment^[n] g₂).rules ∧
      (augment^[m] g₁).terminals.Perm (augment^[n] g₂).terminals ∧
      (augment^[m] g₁).same (augment^[n] g₂) = true := by
  have hl₁ := (legible_of_read h₁).iterate_augment m
  have hl₂ := (legible_of_read h₂).iterate_augment n
  have hlines : (augment^[m] g₁).lines = (augment^[n] g₂).lines := by
    rw [collect_print, collect_print] at hp
    exact printed_injective hl₁.lineFeed_not_mem_lines hl₂.lineFeed_not_mem_lines
      (Text.utf8_injective (congrArg Prod.fst hp))
  have hr := hl₁.rules_eq_of_lines_eq hl₂ k₁ k₂ hlines
  exact ⟨hr, hl₁.closed.terminals_perm hl₂.closed hr, hl₁.closed.same_of_rules_eq hl₂.closed hr⟩

/-- Two texts of one table, in which the words first come in different orders. -/
theorem eq_of_print_eq_regrouped :
    let g := ofRules [⟨"A".toList, []⟩, ⟨"B".toList, ["A".toList]⟩, ⟨"A".toList, ["B".toList]⟩]
    let h := ofRules [⟨"A".toList, []⟩, ⟨"A".toList, ["B".toList]⟩, ⟨"B".toList, ["A".toList]⟩]
    read ⟨"g".toList⟩ "A => \nB => A\nA => B".toList = .ok g ∧
      read ⟨"h".toList⟩ "A => \nA => xB \nB => A".toList = .ok h ∧
      (augment^[2] g).PlainKeys ∧ (augment^[2] h).PlainKeys ∧
      Sink.collect .unlimited (augment^[2] g).print = Sink.collect .unlimited (augment^[2] h).print ∧
      g.terminals ≠ h.terminals ∧
      (augment^[2] g).rules = (augment^[2] h).rules ∧
      (augment^[2] g).terminals.Perm (augment^[2] h).terminals ∧
      (augment^[2] g).same (augment^[2] h) = true := by
  intro g h
  have h₁ : read ⟨"g".toList⟩ "A => \nB => A\nA => B".toList = .ok g := rfl
  have h₂ : read ⟨"h".toList⟩ "A => \nA => xB \nB => A".toList = .ok h := rfl
  have k₁ : (augment^[2] g).PlainKeys := by unfold PlainKeys; decide
  have k₂ : (augment^[2] h).PlainKeys := by unfold PlainKeys; decide
  have hp : Sink.collect .unlimited (augment^[2] g).print =
      Sink.collect .unlimited (augment^[2] h).print := rfl
  exact ⟨h₁, h₂, k₁, k₂, hp, by decide, eq_of_print_eq h₁ h₂ k₁ k₂ hp⟩

end Grammar

end WordGrammar
