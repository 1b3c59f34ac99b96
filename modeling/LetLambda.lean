import LetLambda.Text.Unprintable
import LetLambda.Text.Quoted
import LetLambda.Text.Blank
import LetLambda.Text.Literal
import LetLambda.Numeral
import LetLambda.Name
import LetLambda.Position
import LetLambda.Operator
import LetLambda.Token
import LetLambda.Token.Lexer
import LetLambda.Term.Basic
import LetLambda.Term.Printer
import LetLambda.Term.Purity
import LetLambda.Term.Validity
import LetLambda.Term.Label
import LetLambda.ParseError
import LetLambda.Grammar.Parser
import LetLambda.Grammar.Expression
import LetLambda.Grammar.Progress
import LetLambda.Grammar.Program
import LetLambda.Value
import LetLambda.EvalError
import LetLambda.Value.Operate
import LetLambda.Store
import LetLambda.Console
import LetLambda.Machine.Task
import LetLambda.Machine.Perform
import LetLambda.Machine.Trampoline
import LetLambda.Machine.Finale
import LetLambda.Cps.Symbols
import LetLambda.Cps.Transform
import LetLambda.Prelude
import LetLambda.Interpreter
import LetLambda.Options
import LetLambda.Command
import LetLambda.CommandLine
import LetLambda.Main
import LetLambda.Proofs.Trampoline
import LetLambda.Proofs.Reference
import LetLambda.Proofs.Refinement
import LetLambda.Proofs.Names
import LetLambda.Proofs.Marks
import LetLambda.Proofs.Passing
import LetLambda.Proofs.PassingForm
import LetLambda.Proofs.OrderSafety
import LetLambda.Proofs.Scene
import LetLambda.Proofs.Hygiene
import LetLambda.Proofs.Bond
import LetLambda.Proofs.Giving
import LetLambda.Proofs.Stillness
import LetLambda.Proofs.Passage
import LetLambda.Proofs.Residue
import LetLambda.Proofs.Reach
import LetLambda.Proofs.Simulation
import LetLambda.Proofs.Preservation
import LetLambda.Proofs.Capture
import LetLambda.Proofs.Hosts
import LetLambda.Proofs.Scoping
import LetLambda.Proofs.Lexemes
import LetLambda.Proofs.Places
import LetLambda.Proofs.Lexing
import LetLambda.Proofs.Spelling
import LetLambda.Proofs.Reading
import LetLambda.Proofs.Roundtrip
import LetLambda.Proofs.Confinement
import LetLambda.Proofs.SourceErrors
import LetLambda.Proofs.Nesting
import LetLambda.Proofs.Sessions
import LetLambda.Proofs.Formula
import LetLambda.Proofs.Outcomes
import LetLambda.Proofs.Supply
import LetLambda.Proofs.Moments
import LetLambda.Proofs.Custody
import LetLambda.Proofs.LinkBound
import LetLambda.Proofs.Identity
import LetLambda.Proofs.Desugaring
import LetLambda.Proofs.Lockstep
import LetLambda.Proofs.Linearity
import LetLambda.Proofs.Bounces
import LetLambda.Proofs.Levels
import LetLambda.Proofs.Handover
import LetLambda.Proofs.Refusals
import LetLambda.Proofs.Inventory
import LetLambda.Proofs.Chains
import LetLambda.Proofs.Innocence
import LetLambda.Proofs.Exactness
import LetLambda.Proofs.Frames
import LetLambda.Proofs.Lines
import LetLambda.Proofs.Foresight
import LetLambda.Proofs.Cursor
import LetLambda.Proofs.Conventions
