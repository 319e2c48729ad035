import WordGrammar.Table
import WordGrammar.Text.Basic

/-! Grammars and the changes that build them up. A grammar holds the alternatives
of each symbol and, as its terminals, every word that was used on a right-hand side. -/

namespace WordGrammar

/-- What an alternative is made of: a word, or a quoted text that stands for itself. -/
inductive Symbol where
  | word (text : Text)
  | literal (text : Text)
deriving DecidableEq

abbrev Alternative := List Symbol

structure Grammar where
  rules : Table Text Alternative
  terminals : OrderedSet Text

namespace Grammar

def empty : Grammar := ⟨[], []⟩

/-- One more alternative for a symbol. Its words become terminals. -/
def addRule (g : Grammar) (symbol : Text) (words : List Text) : Grammar :=
  ⟨g.rules.push symbol (words.map Symbol.word), g.terminals.insertAll words⟩

/-- Gives each terminal, in their order, the alternative made of its literal. -/
def augment (g : Grammar) : Grammar :=
  ⟨g.terminals.foldl (fun rules t => rules.push t [Symbol.literal t]) g.rules, g.terminals⟩

/-- Whether two grammars have the same alternatives for the same symbols and
the same terminals. The order of symbols and of terminals does not count. -/
def same (g h : Grammar) : Bool :=
  g.rules.same h.rules && g.terminals.same h.terminals

inductive Change where
  | addRule (symbol : Text) (words : List Text)
  | augment

def change (g : Grammar) : Change → Grammar
  | .addRule symbol words => g.addRule symbol words
  | .augment => g.augment

def changeAll (g : Grammar) (changes : List Change) : Grammar :=
  changes.foldl change g

end Grammar

end WordGrammar
