import WordGrammar.Grammar.Edit

/-! Documents. A document has two sections with a blank line between them: the
rule lines of a grammar, and a sentence. -/

namespace WordGrammar

structure Sections where
  rules : Text
  sentence : Text

namespace Sections

def sectionBreak : Text := "\n\n".toList

def ofText (file : Path) (text : Text) : Except Diagnostic Sections :=
  match Text.split sectionBreak text with
  | [rules, sentence] => .ok ⟨rules, sentence⟩
  | pieces => .error ⟨.wholeFile file, .sectionCount pieces.length⟩

end Sections

structure Document where
  grammar : Grammar
  sentence : Text

namespace Document

/-- Line ends are unified before anything else is looked at. -/
def read (file : Path) (text : Text) : Except (List Diagnostic) Document :=
  match Sections.ofText file (Text.unifyLineEnds text) with
  | .error fault => .error [fault]
  | .ok sections =>
    match Grammar.read file sections.rules with
    | .error faults => .error faults
    | .ok grammar => .ok ⟨grammar, sections.sentence⟩

/-- The document in a file, given what came of reading the file's bytes. -/
def load (file : Path) (contents : Except ReadFailure Bytes) : Except (List Diagnostic) Document :=
  match contents with
  | .error failure => .error [⟨.wholeFile file, .unreadable failure⟩]
  | .ok bytes =>
    match Text.ofUtf8? bytes with
    | none => .error [⟨.wholeFile file, .unreadable .invalidUtf8⟩]
    | some text => read file text

end Document

end WordGrammar
