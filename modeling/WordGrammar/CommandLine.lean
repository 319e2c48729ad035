import WordGrammar.Path

/-! The arguments of the command: `[-s|--sentence] [FILE]`. They are read from
left to right, and the first of them that settles the outcome decides it. -/

namespace WordGrammar

inductive Flag where
  | sentence
  | help
  | version
deriving DecidableEq

namespace Flag

def ofName? (name : Text) : Option Flag :=
  if name = "sentence".toList then some .sentence
  else if name = "help".toList then some .help
  else if name = "version".toList then some .version
  else none

def ofLetter? : Char → Option Flag
  | 's' => some .sentence
  | 'h' => some .help
  | 'V' => some .version
  | _ => none

end Flag

inductive UsageError where
  | unknownArgument
  | argumentConflict
  | invalidValue
  | tooManyValues
deriving DecidableEq

/-- Why the command does not run. -/
inductive Verdict where
  | help
  | version
  | refused (error : UsageError)
deriving DecidableEq

structure Options where
  file : Path
  sentence : Bool

namespace CommandLine

structure Progress where
  file : Option Text
  sentence : Bool
  optionsEnded : Bool

def defaultFile : Text := "grammar.txt".toList

def takeFile (p : Progress) (name : Text) : Except Verdict Progress :=
  if p.file.isSome then .error (.refused .unknownArgument)
  else .ok { p with file := some name }

/-- An empty file name is refused no earlier than at the next flag, or at the end. -/
def takeFlag (p : Progress) (flag : Flag) : Except Verdict Progress :=
  if p.file = some [] then .error (.refused .invalidValue)
  else
    match flag with
    | .help => .error .help
    | .version => .error .version
    | .sentence =>
      if p.sentence then .error (.refused .argumentConflict)
      else .ok { p with sentence := true }

/-- A long option, without its dashes. No flag takes a value, not even an empty one. -/
def takeLong (p : Progress) (option : Text) : Except Verdict Progress :=
  match Flag.ofName? (option.takeWhile (· ≠ '=')) with
  | none => .error (.refused .unknownArgument)
  | some flag => if '=' ∈ option then .error (.refused .tooManyValues) else takeFlag p flag

def takeLetters (p : Progress) : Text → Except Verdict Progress
  | [] => .ok p
  | letter :: rest =>
    match Flag.ofLetter? letter with
    | none => .error (.refused .unknownArgument)
    | some flag =>
      match takeFlag p flag with
      | .error verdict => .error verdict
      | .ok next => takeLetters next rest

def takeArgument (p : Progress) (argument : Text) : Except Verdict Progress :=
  if p.optionsEnded then takeFile p argument
  else
    match argument with
    | ['-', '-'] => .ok { p with optionsEnded := true }
    | '-' :: '-' :: option => takeLong p option
    | '-' :: letter :: rest => takeLetters p (letter :: rest)
    | name => takeFile p name

def finish (p : Progress) : Except Verdict Options :=
  match p.file with
  | none => .ok ⟨⟨defaultFile⟩, p.sentence⟩
  | some [] => .error (.refused .invalidValue)
  | some name => .ok ⟨⟨name⟩, p.sentence⟩

def readFrom (p : Progress) : List Text → Except Verdict Options
  | [] => finish p
  | argument :: rest =>
    match takeArgument p argument with
    | .error verdict => .error verdict
    | .ok next => readFrom next rest

def read (arguments : List Text) : Except Verdict Options :=
  readFrom ⟨none, false, false⟩ arguments

def helpText : Text :=
  "Usage: capsgram [OPTIONS] [FILE]

Arguments:
  [FILE]  File containing the grammar and the example sentence [default: grammar.txt]

Options:
  -s, --sentence  Also print the tokens of the example sentence
  -h, --help      Print help
  -V, --version   Print version
".toList

def versionText : Text := "capsgram 0.1.0\n".toList

end CommandLine

end WordGrammar
