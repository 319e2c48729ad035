import WordGrammar.Proofs.Grammar.Closure
import WordGrammar.Proofs.Grammar.Reading

/-! The canonical text of a grammar, with one rule line for each alternative and
the words of it run together. Reading it gives the rules back: the arrow is
found again behind the symbol, and each word where the capital before it ends. -/

namespace WordGrammar

def Symbol.text : Symbol → Text
  | .word text => text
  | .literal text => text

/-- A rule line with nothing between the words. -/
def Alternative.canonicalLine (symbol : Text) (alternative : Alternative) : Text :=
  symbol ++ Rule.arrow ++ alternative.flatMap Symbol.text

def Grammar.canonical (g : Grammar) : Text :=
  List.intercalate ['\n'] (g.rules.flatMap fun group => group.2.map (Alternative.canonicalLine group.1))

theorem Text.isBlank_of_getLast?_flatten {ws : List Text} (h : ∀ w ∈ ws, IsWord w) :
    ∀ c ∈ ws.flatten.getLast?, isBlank c = false := by
  cases ws using List.reverseRecOn with
  | nil => simp
  | append_singleton ws w =>
    have hw := h w (by simp)
    intro c hc
    apply hw.ends
    obtain ⟨d, body, rfl, -⟩ := hw.exists_cons
    simpa [List.flatten_append, List.getLast?_append] using hc

namespace Rule

def canonicalLine (r : Rule) : Text :=
  r.symbol ++ arrow ++ r.words.flatten

theorem ofLine_canonicalLine {r : Rule} (h : r.Legible) : ofLine r.canonicalLine = .ok r := by
  refine ofLine_eq_ok_iff.mpr
    ⟨r.words.flatten, rfl, h.symbol_first, ?_, (Text.words_flatten h.isWord).symm⟩
  intro hi
  obtain ⟨w, hm, ha⟩ :=
    Text.exists_infix_of_infix_flatten arrow_ne_nil (by simp [arrow]) h.isWord hi
  exact (h.word w hm).2.2 ha

theorem lineFeed_not_mem_canonicalLine {r : Rule} (h : r.Legible) : '\n' ∉ r.canonicalLine := by
  have ha : '\n' ∉ arrow := by decide
  have hw : '\n' ∉ r.words.flatten := by
    intro hm
    obtain ⟨w, hw, hc⟩ := List.mem_flatten.mp hm
    exact (h.word w hw).2.1 hc
  simp [canonicalLine, h.symbol_lineFeed, ha, hw]

/-- A rule line ends in its last word, which is trimmed, or in the blank of the arrow. -/
theorem getLast?_canonicalLine_ne_return {r : Rule} (h : r.Legible) :
    r.canonicalLine.getLast? ≠ some '\r' := by
  have hb := Text.isBlank_of_getLast?_flatten h.isWord
  intro hl
  rw [canonicalLine, List.getLast?_append] at hl
  cases hf : r.words.flatten.getLast? with
  | none => simp [hf, arrow] at hl
  | some c =>
    have hc : c = '\r' := by simpa [hf] using hl
    exact absurd (hb c hf) (by rw [hc]; decide)

theorem map_canonicalLine_entry (rules : List Rule) :
    (rules.map entry).map (fun e => Alternative.canonicalLine e.1 e.2) = rules.map canonicalLine := by
  simp [Function.comp_def, entry, Alternative.canonicalLine, canonicalLine, List.flatMap_map,
    Symbol.text, List.flatMap_id']

end Rule

namespace Grammar

theorem read_map_canonicalLine {rules : List Rule} (h : ∀ r ∈ rules, r.Legible) (file : Path) :
    read file (List.intercalate ['\n'] (rules.map Rule.canonicalLine)) = .ok (ofRules rules) := by
  have hl : Text.lines (List.intercalate ['\n'] (rules.map Rule.canonicalLine)) =
      rules.map Rule.canonicalLine := by
    apply Text.lines_intercalate
    · intro l hm
      obtain ⟨r, hr, rfl⟩ := List.mem_map.mp hm
      exact Rule.lineFeed_not_mem_canonicalLine (h r hr)
    · intro l hm
      obtain ⟨r, hr, rfl⟩ := List.mem_map.mp hm
      exact Rule.getLast?_canonicalLine_ne_return (h r hr)
    · intro l hm
      obtain ⟨r, hr, rfl⟩ := List.mem_map.mp hm
      simp [Rule.canonicalLine, Rule.arrow]
  refine read_eq_ok_iff.mpr ⟨rules, ?_, rfl⟩
  rw [hl, List.map_map]
  exact List.map_congr_left (fun r hr => Rule.ofLine_canonicalLine (h r hr))

theorem canonical_ofRules (rules : List Rule) :
    (ofRules rules).canonical =
      List.intercalate ['\n'] ((Rule.grouped rules).map Rule.canonicalLine) := by
  rw [← Rule.map_canonicalLine_entry, ← entries_ofRules]
  simp [canonical, Table.entries, List.map_flatMap, Function.comp_def]

theorem rules_ofRules_grouped (rules : List Rule) :
    (ofRules (Rule.grouped rules)).rules = (ofRules rules).rules := by
  rw [rules_ofRules, ← entries_ofRules, Table.pushAll_entries (closed_ofRules rules).rules]

theorem terminals_ofRules_grouped (rules : List Rule) :
    (ofRules (Rule.grouped rules)).terminals.Perm (ofRules rules).terminals :=
  (closed_ofRules _).terminals_perm (closed_ofRules rules) (rules_ofRules_grouped rules)

/-- What is read from the canonical text of a grammar is the grammar, except
that words may come in another order among the terminals. -/
theorem read_canonical_of_read {file : Path} {text : Text} {g : Grammar}
    (h : read file text = .ok g) (file' : Path) :
    ∃ g', read file' g.canonical = .ok g' ∧ g'.rules = g.rules ∧
      g'.terminals.Perm g.terminals ∧ g'.canonical = g.canonical := by
  obtain ⟨rules, hl, rfl⟩ := read_eq_ok_iff.mp h
  have hr : ∀ r ∈ Rule.grouped rules, r.Legible :=
    fun r hm => legible_of_lines hl r (Rule.mem_grouped.mp hm)
  have hrules := rules_ofRules_grouped rules
  refine ⟨ofRules (Rule.grouped rules), ?_, hrules, terminals_ofRules_grouped rules, ?_⟩
  · rw [canonical_ofRules]
    exact read_map_canonicalLine hr file'
  · rw [canonical, canonical, hrules]

/-- An arrow that shares its blank, a word that ends in half an arrow, and a
symbol with two lines apart from each other. -/
theorem read_canonical_of_read_regrouped :
    ∃ g, read ⟨"g".toList⟩ "A => => B\nT => X =>\tY\nA => Z".toList = .ok g ∧
      g.canonical = "A => B\nA => Z\nT => X =>Y".toList ∧
      ∃ g', read ⟨[]⟩ g.canonical = .ok g' ∧ g'.rules = g.rules ∧
        g'.terminals.Perm g.terminals ∧ g'.canonical = g.canonical := by
  have h : read ⟨"g".toList⟩ "A => => B\nT => X =>\tY\nA => Z".toList = .ok _ := rfl
  exact ⟨_, h, rfl, read_canonical_of_read h ⟨[]⟩⟩

end Grammar

end WordGrammar
