import WordGrammar.Diagnostic
import WordGrammar.Grammar.Basic
import WordGrammar.Text.Split
import WordGrammar.Text.Words

/-! Grammars read from rule lines, and edited. A rule line holds the arrow exactly
once: what stands before it is the symbol, unchanged, and the words of what stands
behind it are the right-hand side. Every faulty line is reported, and no grammar is
made if there is one. An edit changes a grammar, starts afresh or loads rule lines in
its place. -/

namespace WordGrammar

structure Rule where
  symbol : Text
  words : List Text

namespace Rule

def arrow : Text := " => ".toList

def ofLine (line : Text) : Except Problem Rule :=
  match Text.split arrow line with
  | [symbol, body] => .ok ⟨symbol, body.words⟩
  | _ :: _ :: _ :: _ => .error .repeatedArrow
  | _ => .error .missingArrow

def ofLine? (line : Text) : Option Rule :=
  (ofLine line).toOption

def fault? (file : Path) (line : Text) (number : Nat) : Option Diagnostic :=
  match ofLine line with
  | .ok _ => none
  | .error problem => some ⟨⟨file, number⟩, problem⟩

end Rule

namespace Grammar

def ofRules (rules : List Rule) : Grammar :=
  empty.changeAll (rules.map fun r => .addRule r.symbol r.words)

def faults (file : Path) (lines : List Text) (first : Nat) : List Diagnostic :=
  (lines.zipIdx first).filterMap fun l => Rule.fault? file l.1 l.2

def read (file : Path) (text : Text) : Except (List Diagnostic) Grammar :=
  let lines := Text.lines text
  match faults file lines 1 with
  | [] => .ok (ofRules (lines.filterMap Rule.ofLine?))
  | found => .error found

theorem read_eq_ite (file : Path) (text : Text) :
    read file text =
      if faults file (Text.lines text) 1 = [] then
        .ok (ofRules ((Text.lines text).filterMap Rule.ofLine?))
      else .error (faults file (Text.lines text) 1) := by
  unfold read
  dsimp only
  cases faults file (Text.lines text) 1 with
  | nil => rw [if_pos rfl]
  | cons d found => rw [if_neg (List.cons_ne_nil d found)]

inductive Edit where
  | clear
  | change (c : Change)
  | load (file : Path) (text : Text)

def Edit.apply : Edit → Grammar → Except (List Diagnostic) Grammar
  | .clear, _ => .ok empty
  | .change c, g => .ok (g.change c)
  | .load file text, _ => read file text

/-- The grammar after an edit, which is the one before it if the edit fails. -/
def edit (g : Grammar) (e : Edit) : Grammar :=
  match e.apply g with
  | .ok h => h
  | .error _ => g

def editAll (g : Grammar) (edits : List Edit) : Grammar :=
  edits.foldl edit g

end Grammar

end WordGrammar
