import Propositional.Formula.Position
import Propositional.Main
import Propositional.Proofs.Grammar
import Propositional.Proofs.Stacks.Pending
import Propositional.Proofs.Stacks.Reading
import Propositional.Proofs.Stacks.Surplus
import Propositional.Proofs.Stacks.Alike
import Propositional.Proofs.Parsing
import Propositional.Proofs.Reuse
import Propositional.Proofs.Pausing
import Propositional.Proofs.Localization
import Propositional.Proofs.Token.Lexeme
import Propositional.Proofs.Token.Munch
import Propositional.Proofs.Scanning
import Propositional.Proofs.Formula.Renaming
import Propositional.Proofs.Formula.Walk
import Propositional.Proofs.Formula.Key
import Propositional.Proofs.Formula.Subformula
import Propositional.Proofs.Compiling
import Propositional.Proofs.Rendering
import Propositional.Proofs.Assignment
import Propositional.Proofs.Enumeration
import Propositional.Proofs.Valuation
import Propositional.Proofs.Classification
import Propositional.Proofs.Joint
import Propositional.Proofs.Token.Seam
import Propositional.Proofs.Composition
import Propositional.Proofs.Titles
import Propositional.Proofs.FullTable
import Propositional.Proofs.WellFormed
import Propositional.Proofs.Respelling
import Propositional.Proofs.Reordering
import Propositional.Proofs.Token.Renaming
import Propositional.Proofs.Renaming
import Propositional.Proofs.CommandLine.Outcome
import Propositional.Proofs.Carets
import Propositional.Proofs.Table.Layout
import Propositional.Proofs.Text.Lines
import Propositional.Proofs.Text.Utf8
import Propositional.Proofs.FormulaFile
import Propositional.Logged
import Propositional.Proofs.Formula.Keying
import Propositional.Proofs.Stacks.Shape
import Propositional.Proofs.CommandLine.Verbosity
import Propositional.Proofs.Logged
