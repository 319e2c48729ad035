import WordGrammar.Text.Basic

/-! Paths to files, and the places they lead to. A path keeps the text it was given
as. Two paths are the same if their components are, so repeated and trailing slashes
do not count. A place in a tree of directories is told by the names that lead to it
from the root, from the working directory, or from a directory above that. -/

namespace WordGrammar

structure Path where
  text : Text
deriving DecidableEq

namespace Path

inductive Component where
  /-- The slash at the start of an absolute path. -/
  | root
  /-- The dot at the start of a relative path. -/
  | here
  | up
  | name (text : Text)
deriving DecidableEq

/-- What a piece between two slashes stands for; nothing, if it is empty or a dot. -/
def Component.ofPiece? : Text → Option Component
  | [] => none
  | ['.'] => none
  | ['.', '.'] => some .up
  | piece => some (.name piece)

/-- The component that only the start of a path can have. -/
def start : List Text → List Component
  | [] :: _ :: _ => [.root]
  | ['.'] :: _ => [.here]
  | _ => []

def pieces (p : Path) : List Text :=
  p.text.splitOn '/'

def components (p : Path) : List Component :=
  start p.pieces ++ p.pieces.filterMap Component.ofPiece?

def same (p q : Path) : Bool :=
  decide (p.components = q.components)

end Path

/-- Where the names of a place start. Above the working directory, levels are
counted upwards from it. -/
inductive Base where
  | root
  | above (levels : Nat)
deriving DecidableEq

structure Place where
  base : Base
  names : List Text
deriving DecidableEq

namespace Place

def ofStart (path : Path) : Place :=
  if path.text.head? = some '/' then ⟨.root, []⟩ else ⟨.above 0, []⟩

/-- The directory above a place. The root is above itself. -/
def parent (p : Place) : Place :=
  match p.names, p.base with
  | [], .root => p
  | [], .above n => ⟨.above (n + 1), []⟩
  | names, base => ⟨base, names.dropLast⟩

/-- Where one piece of a path leads. An empty piece and a dot stay in place. -/
def enter (p : Place) (piece : Text) : Place :=
  if piece = [] ∨ piece = ['.'] then p
  else if piece = ['.', '.'] then p.parent
  else ⟨p.base, p.names ++ [piece]⟩

/-- The places that the pieces of a path lead to, one after the other. -/
def passed (p : Place) : List Text → List Place
  | [] => []
  | piece :: rest => p.enter piece :: (p.enter piece).passed rest

end Place

end WordGrammar
