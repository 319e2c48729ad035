import WordGrammar.Program

/-! The command: its arguments, the file and the two output streams. -/

namespace WordGrammar

namespace Command

/-- The number and the wording of an error of the system. Some calls give the
number with its sign turned. -/
def numbered? : IO.Error → Option (UInt32 × String)
  | .noFileOrDirectory _ code details | .permissionDenied _ code details
  | .inappropriateType _ code details | .invalidArgument _ code details
  | .resourceExhausted _ code details | .noSuchThing _ code details
  | .interrupted _ code details | .otherError code details
  | .resourceBusy code details | .resourceVanished code details
  | .hardwareFault code details | .illegalOperation code details =>
    some (if code < 0x80000000 then code else 0 - code, details)
  | _ => none

def failure (e : IO.Error) : ReadFailure :=
  match numbered? e with
  | some (2, _) => .notFound
  | some (13, _) => .permissionDenied
  | some (20, _) => .notADirectory
  | some (21, _) => .isADirectory
  | some (36, _) => .nameTooLong
  | some (n, details) => ⟨.other, (details ++ " (os error " ++ toString n ++ ")").toList⟩
  | none => ⟨.other, e.toString.toList⟩

def contents (path : Path) : IO (Except ReadFailure Bytes) := do
  try
    let bytes ← IO.FS.readBinFile (String.ofList path.text)
    return .ok bytes.toList
  catch e => return .error (failure e)

/-- Writes to standard output, and tells what went wrong if something did. -/
def put (bytes : Bytes) : IO (Option ReadFailure) := do
  try
    let out ← IO.getStdout
    out.write ⟨bytes.toArray⟩
    out.flush
    return none
  catch e => return some (failure e)

def report (text : Text) : IO Unit :=
  IO.eprint (String.ofList text)

def perform (arguments : List Text) : IO UInt32 := do
  match CommandLine.read arguments with
  | .error verdict =>
    let outcome := Program.decline verdict .unlimited
    let _ ← put outcome.stdout
    report outcome.stderr
    return outcome.exit.toUInt32
  | .ok options =>
    let outcome := Program.run options (← contents options.file) .unlimited
    match ← put outcome.stdout with
    | none =>
      report outcome.stderr
      return outcome.exit.toUInt32
    | some fault =>
      report (Program.writeFailed fault.message)
      return 1

end Command

end WordGrammar

def main (arguments : List String) : IO UInt32 :=
  WordGrammar.Command.perform (arguments.map String.toList)
