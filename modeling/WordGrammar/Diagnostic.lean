import WordGrammar.Path

/-! What can be wrong with a document, where, and how it is reported. That its file
cannot be read is one of these. -/

namespace WordGrammar

namespace ReadFailure

inductive Kind where
  | notFound
  | permissionDenied
  | notADirectory
  | isADirectory
  | invalidName
  | invalidInput
  | invalidData
  | other
deriving DecidableEq

end ReadFailure

/-- The kind of a failure and its wording, which two failures of one kind need not share. -/
structure ReadFailure where
  kind : ReadFailure.Kind
  message : Text

namespace ReadFailure

def notFound : ReadFailure :=
  ⟨.notFound, "No such file or directory (os error 2)".toList⟩

def permissionDenied : ReadFailure :=
  ⟨.permissionDenied, "Permission denied (os error 13)".toList⟩

def notADirectory : ReadFailure :=
  ⟨.notADirectory, "Not a directory (os error 20)".toList⟩

def isADirectory : ReadFailure :=
  ⟨.isADirectory, "Is a directory (os error 21)".toList⟩

def nameTooLong : ReadFailure :=
  ⟨.invalidName, "File name too long (os error 36)".toList⟩

def nulInName : ReadFailure :=
  ⟨.invalidInput, "file name contained an unexpected NUL byte".toList⟩

def invalidUtf8 : ReadFailure :=
  ⟨.invalidData, "stream did not contain valid UTF-8".toList⟩

/-- Failures are the same if they are of one kind. -/
def same (f g : ReadFailure) : Bool :=
  decide (f.kind = g.kind)

end ReadFailure

/-- A place in a file. Lines are counted from 1; line 0 stands for the file as a whole. -/
structure Location where
  file : Path
  line : Nat

namespace Location

def wholeFile (file : Path) : Location := ⟨file, 0⟩

def render (l : Location) : Text :=
  if l.line = 0 then l.file.text else l.file.text ++ ':' :: Nat.toDigits 10 l.line

def same (l m : Location) : Bool :=
  l.file.same m.file && decide (l.line = m.line)

end Location

inductive Problem where
  /-- The document does not have two sections, but another number of them. -/
  | sectionCount (found : Nat)
  | missingArrow
  | repeatedArrow
  | unreadable (failure : ReadFailure)

namespace Problem

def message : Problem → Text
  | .sectionCount found =>
    "Expected a grammar and a sentence separated by one blank line, found ".toList ++
      Nat.toDigits 10 found ++ " section(s)".toList
  | .missingArrow => "Expected `=>` after the symbol".toList
  | .repeatedArrow => "Unexpected second `=>` encountered".toList
  | .unreadable failure => "File error: ".toList ++ failure.message

def same : Problem → Problem → Bool
  | .sectionCount m, .sectionCount n => decide (m = n)
  | .missingArrow, .missingArrow => true
  | .repeatedArrow, .repeatedArrow => true
  | .unreadable f, .unreadable g => f.same g
  | _, _ => false

end Problem

structure Diagnostic where
  location : Location
  problem : Problem

namespace Diagnostic

/-- The location in red between brackets, two blanks, and the message, in the
control codes of a terminal. -/
def display (d : Diagnostic) : Text :=
  "\x1b[31;49;1m[".toList ++ d.location.render ++ "]\x1b[39;49;1m  ".toList ++
    d.problem.message ++ "\x1b[0m".toList

def same (d e : Diagnostic) : Bool :=
  d.location.same e.location && d.problem.same e.problem

end Diagnostic

end WordGrammar
