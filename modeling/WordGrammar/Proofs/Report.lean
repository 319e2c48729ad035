import WordGrammar.Proofs.Table
import WordGrammar.Report

/-! What lines leave in a sink without a limit, and the lines read back from
that. The bytes determine the text, and the text its lines. -/

namespace WordGrammar

namespace Text

theorem utf8_injective {s t : Text} (h : utf8 s = utf8 t) : s = t := by
  have hs : ofUtf8? (utf8 s) = some s := ofUtf8?_eq_some_iff.mpr rfl
  rw [h, ofUtf8?_eq_some_iff.mpr rfl] at hs
  exact (Option.some.inj hs).symm

end Text

/-- Lines as a text in which each of them ends in a line feed. -/
def printed (lines : List Text) : Text :=
  lines.flatMap (· ++ ['\n'])

@[simp] theorem printed_nil : printed [] = [] := rfl

@[simp] theorem printed_cons (l : Text) (ls : List Text) :
    printed (l :: ls) = l ++ '\n' :: printed ls := by
  simp [printed]

@[simp] theorem printed_append (ls ms : List Text) :
    printed (ls ++ ms) = printed ls ++ printed ms :=
  List.flatMap_append

theorem splitOn_printed {ls : List Text} (h : ∀ l ∈ ls, '\n' ∉ l) :
    (printed ls).splitOn '\n' = ls ++ [[]] := by
  induction ls with
  | nil => rfl
  | cons l ls ih =>
    rw [printed_cons, List.splitOn_append_cons_self_of_not_mem (h l List.mem_cons_self),
      ih (fun m hm => h m (List.mem_cons_of_mem _ hm)), List.cons_append]

theorem printed_injective {ls ms : List Text} (hl : ∀ l ∈ ls, '\n' ∉ l) (hm : ∀ l ∈ ms, '\n' ∉ l)
    (h : printed ls = printed ms) : ls = ms := by
  have hh := splitOn_printed hl
  rw [h, splitOn_printed hm] at hh
  exact (List.append_cancel_right hh).symm

namespace Sink

theorem writeLines_eq_write (ls : List Text) : writeLines ls = write (Text.utf8 (printed ls)) := by
  have hp : Text.utf8 (printed ls) = (ls.map fun l => Text.utf8 (l ++ ['\n'])).flatten := by
    rw [printed, List.flatMap_def, Text.utf8_flatten, List.map_map]
    rfl
  rw [hp, ← forM_write, List.forM_map]
  rfl

@[simp] theorem collect_writeLines (ls : List Text) :
    collect .unlimited (writeLines ls) = (Text.utf8 (printed ls), none) := by
  simp [collect, empty, writeLines_eq_write, write, EStateM.run]

theorem writeLines_append (ls ms : List Text) :
    writeLines (ls ++ ms) = (do writeLines ls; writeLines ms) :=
  List.forM_append (m := Write)

theorem collect_write_limited (n : Nat) (fault : WriteFault) (bytes : Bytes) :
    collect (.limited n fault) (write bytes) =
      (bytes.take (min n bytes.length), if bytes.length ≤ n then none else some fault) := by
  by_cases hn : bytes.length ≤ n
  · simp [collect, empty, write, EStateM.run, hn]
  · have hm : min n bytes.length = n := by omega
    simp [collect, empty, write, EStateM.run, hn, hm]

end Sink

@[simp] theorem utf8_printed_eq_nil_iff {ls : List Text} : Text.utf8 (printed ls) = [] ↔ ls = [] := by
  constructor
  · intro h
    have hp : printed ls = [] := Text.utf8_injective h
    cases ls with
    | nil => rfl
    | cons l ls => simp at hp
  · rintro rfl
    rfl

namespace Grammar

theorem lines_eq_map_entries (g : Grammar) :
    g.lines = g.rules.entries.map fun e => Alternative.render e.1 e.2 := by
  simp [lines, Table.entries, List.map_flatMap, Function.comp_def]

@[simp] theorem collect_print (g : Grammar) :
    Sink.collect .unlimited g.print = (Text.utf8 (printed g.lines), none) :=
  Sink.collect_writeLines g.lines

end Grammar

end WordGrammar
