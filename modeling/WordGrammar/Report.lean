import WordGrammar.Grammar.Basic

/-! Printed grammars and sentences, and the sinks that they are printed to. A sink
takes bytes until its room is used up; a write that does not fit leaves behind what
did fit, and fails. A grammar is printed with one alternative to a line, grouped by
symbol. -/

namespace WordGrammar

inductive WriteFault where
  | noRoom
  | deviceFull
deriving DecidableEq

def WriteFault.message : WriteFault → Text
  | .noRoom => "failed to write whole buffer".toList
  | .deviceFull => "No space left on device (os error 28)".toList

/-- How many bytes a sink can still take, and how it fails after that. -/
inductive Room where
  | unlimited
  | limited (bytes : Nat) (fault : WriteFault)

structure Sink where
  written : Array UInt8
  room : Room

abbrev Write := EStateM WriteFault Sink

namespace Sink

def empty (room : Room) : Sink := ⟨#[], room⟩

def write (bytes : Bytes) : Write Unit := fun s =>
  match s.room with
  | .unlimited => .ok () ⟨s.written ++ bytes, .unlimited⟩
  | .limited n fault =>
    if bytes.length ≤ n then .ok () ⟨s.written ++ bytes, .limited (n - bytes.length) fault⟩
    else .error fault ⟨s.written ++ bytes.take n, .limited 0 fault⟩

def writeLine (line : Text) : Write Unit :=
  write (Text.utf8 (line ++ ['\n']))

def writeLines (lines : List Text) : Write Unit :=
  forM lines writeLine

/-- What a sink with this room holds in the end, and the fault if there was one. -/
def collect (room : Room) (w : Write Unit) : Bytes × Option WriteFault :=
  match w.run (empty room) with
  | .ok _ s => (s.written.toList, none)
  | .error fault s => (s.written.toList, some fault)

theorem append_list_append (w : Array UInt8) (p q : Bytes) : w ++ p ++ q = w ++ (p ++ q) := by
  apply Array.ext'
  simp

theorem write_append (p q : Bytes) : write (p ++ q) = (do write p; write q) := by
  funext s
  obtain ⟨w, room⟩ := s
  cases room with
  | unlimited => simp [write, bind, EStateM.bind, append_list_append]
  | limited n fault =>
    by_cases hp : p.length ≤ n
    · by_cases hq : q.length ≤ n - p.length
      · have hl : p.length + q.length ≤ n := by omega
        simp [write, bind, EStateM.bind, hp, hq, hl, append_list_append, Nat.sub_sub]
      · have hl : ¬ p.length + q.length ≤ n := by omega
        have ht : (p ++ q).take n = p ++ q.take (n - p.length) := by
          rw [List.take_append, List.take_of_length_le hp]
        simp [write, bind, EStateM.bind, hp, hq, hl, ht, append_list_append]
    · have hl : ¬ p.length + q.length ≤ n := by omega
      have ht : (p ++ q).take n = p.take n := List.take_append_of_le_length (by omega)
      simp [write, bind, EStateM.bind, hp, hl, ht]

/-- A sink takes no notice of how the bytes are cut into pieces. -/
theorem forM_write (pieces : List Bytes) : forM pieces write = write pieces.flatten := by
  induction pieces with
  | nil =>
    funext s
    obtain ⟨w, room⟩ := s
    cases room <;> simp [write, pure, EStateM.pure]
  | cons p ps ih => rw [List.forM_cons, ih, List.flatten_cons, write_append]

end Sink

/-- A literal stands between double quotes; nothing inside it is escaped. -/
def Symbol.render : Symbol → Text
  | .word text => text
  | .literal text => '"' :: text ++ ['"']

def joinWords (words : List Text) : Text :=
  List.intercalate [' '] words

/-- An empty alternative keeps the blank behind the colon. -/
def Alternative.render (symbol : Text) (alternative : Alternative) : Text :=
  symbol ++ " : ".toList ++ joinWords (alternative.map Symbol.render)

namespace Grammar

def lines (g : Grammar) : List Text :=
  g.rules.flatMap fun group => group.2.map (Alternative.render group.1)

def print (g : Grammar) : Write Unit :=
  Sink.writeLines g.lines

end Grammar

def sentenceLines (words : List Text) : List Text :=
  [[], "Sentence : ".toList ++ joinWords words]

def printSentence (words : List Text) : Write Unit :=
  Sink.writeLines (sentenceLines words)

end WordGrammar
