import WordGrammar.Diagnostic

/-! Directories and files, and how a path is followed through them, piece by
piece. Besides the directories that were made there are those that every path
can start from or climb to. -/

namespace WordGrammar

structure FileTree where
  directories : List Place
  files : List (Place × Bytes)

namespace FileTree

/-- Makes a directory, and those on the way to it. -/
def makeDirectory (tree : FileTree) (path : Path) : FileTree :=
  { tree with directories := tree.directories ++ (Place.ofStart path).passed path.pieces }

/-- Puts bytes in a file, in place of what was there. -/
def writeFile (tree : FileTree) (path : Path) (bytes : Bytes) : FileTree :=
  let places := (Place.ofStart path).passed path.pieces
  ⟨tree.directories ++ places.dropLast, (places.getLast?.toList.map (·, bytes)) ++ tree.files⟩

/-- What every system has: the directories `/dev` and `/tmp`, and the file
`/dev/null`, which reads as empty. -/
def standard : FileTree :=
  (makeDirectory ⟨[], []⟩ ⟨"/tmp".toList⟩).writeFile ⟨"/dev/null".toList⟩ []

def isDirectory (tree : FileTree) (p : Place) : Bool :=
  p.names.isEmpty || decide (p ∈ tree.directories)

inductive Position where
  | directory (p : Place)
  | file (bytes : Bytes)

/-- The most bytes that a name can have. -/
def nameLimit : Nat := 255

/-- The most bytes that a whole path can have. -/
def pathLimit : Nat := 4095

/-- Any piece behind a file, even an empty one, asks for a directory. -/
def step (tree : FileTree) (piece : Text) : Position → Except ReadFailure Position
  | .file _ => .error .notADirectory
  | .directory p =>
    if nameLimit < piece.utf8.length then .error .nameTooLong
    else
      match tree.files.lookup (p.enter piece) with
      | some bytes => .ok (.file bytes)
      | none =>
        if tree.isDirectory (p.enter piece) then .ok (.directory (p.enter piece))
        else .error .notFound

def follow (tree : FileTree) : List Text → Position → Except ReadFailure Position
  | [], position => .ok position
  | piece :: rest, position =>
    match tree.step piece position with
    | .error failure => .error failure
    | .ok next => tree.follow rest next

/-- The bytes of the file that a path leads to. The text of the path is checked
before it is followed. -/
def read (tree : FileTree) (path : Path) : Except ReadFailure Bytes :=
  if '\x00' ∈ path.text then .error .nulInName
  else if path.text = [] then .error .notFound
  else if pathLimit < path.text.utf8.length then .error .nameTooLong
  else
    match tree.follow path.pieces (.directory (Place.ofStart path)) with
    | .error failure => .error failure
    | .ok (.file bytes) => .ok bytes
    | .ok (.directory _) => .error .isADirectory

end FileTree

end WordGrammar
