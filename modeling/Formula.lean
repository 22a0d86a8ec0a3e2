import Formula.Text.Ranges
import Formula.Text.Blank
import Formula.Text.Mark
import Formula.Text.Unassigned
import Formula.Text.Hidden
import Formula.Text.Quoted
import Formula.Error
import Formula.Feature
import Formula.Name
import Formula.Literal
import Formula.Binary64
import Formula.Operator
import Formula.Symbol
import Formula.Context
import Formula.Lexeme
import Formula.Decimal.Shortest
import Formula.Decimal.Notation
import Formula.Decimal.Numeral
import Formula.Kind
import Formula.Postfix
import Formula.Scan
import Formula.Standard
import Formula.Cells
import Formula.Host
import Formula.Foreign
import Formula.Calculator.Options
import Formula.Calculator.Session
import Formula.Calculator.Program
import Formula.Main
import Formula.Proofs.Table
import Formula.Proofs.History
import Formula.Proofs.Encoding
import Formula.Proofs.Tree
import Formula.Proofs.Evaluation
import Formula.Proofs.Machine
import Formula.Proofs.Waiting
import Formula.Proofs.Steps
import Formula.Proofs.Lookup
import Formula.Proofs.Lexing
import Formula.Proofs.Exponents
import Formula.Proofs.Coherence
import Formula.Proofs.Extent
import Formula.Proofs.Automaton
import Formula.Proofs.Position
import Formula.Proofs.Denotation
import Formula.Proofs.Naming
import Formula.Proofs.Bounds
import Formula.Proofs.Grammar
import Formula.Proofs.Reading
import Formula.Proofs.Recognition
import Formula.Proofs.CallSites
import Formula.Proofs.Arities
import Formula.Proofs.Completion
import Formula.Proofs.SideBySide
import Formula.Proofs.ImplicitParentheses
import Formula.Proofs.Between
import Formula.Proofs.Commas
import Formula.Proofs.Runs
import Formula.Proofs.Shape
import Formula.Proofs.Placing
import Formula.Proofs.Extension
import Formula.Proofs.Continuation
import Formula.Proofs.Callbacks
import Formula.Proofs.Callers
import Formula.Proofs.Messages
import Formula.Proofs.Inert
import Formula.Proofs.Sessions
import Formula.Proofs.Conversation
import Formula.Proofs.Registration
import Formula.Proofs.Constants
import Formula.Proofs.Startup
import Formula.Proofs.Doubles
import Formula.Proofs.Indefinite
import Formula.Proofs.Selection
