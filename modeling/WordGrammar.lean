import WordGrammar.FileTree
import WordGrammar.Grammar.Edit
import WordGrammar.Main
import WordGrammar.Proofs.Grammar.Augmentation
import WordGrammar.Proofs.Grammar.Canonical
import WordGrammar.Proofs.Grammar.PrintedForm
import WordGrammar.Proofs.Document.Diagnostics
import WordGrammar.Proofs.Grammar.History
import WordGrammar.Proofs.Grammar.Rewriting
import WordGrammar.Proofs.Program
import WordGrammar.Proofs.Grammar.LineEnds
import WordGrammar.Proofs.Grammar.Agreement
import WordGrammar.Proofs.Document.LineEnds
import WordGrammar.Proofs.Sentence
import WordGrammar.Proofs.Document.Sections
import WordGrammar.Proofs.Grammar.Append
import WordGrammar.Proofs.Grammar.Arrows
import WordGrammar.Proofs.Printout
import WordGrammar.Proofs.Diagnostic
import WordGrammar.Proofs.Text.Remainder
