import WordGrammar.CommandLine
import WordGrammar.Document
import WordGrammar.Report

/-! The command as a whole. It prints the augmented grammar of a document, and
its sentence if asked to; a document with any fault in it prints nothing. -/

namespace WordGrammar

structure Outcome where
  exit : Nat
  stdout : Bytes
  stderr : Text

namespace Program

def printDocument (document : Document) (withSentence : Bool) : Write Unit := do
  document.grammar.augment.print
  if withSentence then printSentence document.sentence.words

def displayAll (faults : List Diagnostic) : Text :=
  faults.flatMap fun d => d.display ++ ['\n']

def writeFailed (reason : Text) : Text :=
  "Could not write output: ".toList ++ reason ++ ['\n']

/-- A run, given what came of reading the file and the room that standard output has. -/
def run (options : Options) (contents : Except ReadFailure Bytes) (room : Room) : Outcome :=
  match Document.load options.file contents with
  | .error faults => ⟨1, [], displayAll faults⟩
  | .ok document =>
    match Sink.collect room (printDocument document options.sentence) with
    | (written, none) => ⟨0, written, []⟩
    | (written, some fault) => ⟨1, written, writeFailed fault.message⟩

/-- What standard output takes of a text. That it does not take all is no failure here. -/
def offer (text : Text) (room : Room) : Bytes :=
  (Sink.collect room (Sink.write text.utf8)).1

def decline (verdict : Verdict) (room : Room) : Outcome :=
  match verdict with
  | .help => ⟨0, offer CommandLine.helpText room, []⟩
  | .version => ⟨0, offer CommandLine.versionText room, []⟩
  | .refused _ => ⟨2, [], "error: invalid arguments\n\nFor more information, try '--help'.\n".toList⟩

end Program

end WordGrammar
