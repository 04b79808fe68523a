import Calculator.Grammar
import Calculator.Main
import Calculator.Proofs.Nesting
import Calculator.Proofs.Subtrees
import Calculator.Proofs.History
import Calculator.Proofs.Text.Decimal
import Calculator.Proofs.Text.Trim
import Calculator.Proofs.Grammar.Basic
import Calculator.Proofs.Grammar.Places
import Calculator.Proofs.Grammar.Ungrouping
import Calculator.Proofs.Grammar.Situation
import Calculator.Proofs.Grammar.Viable
import Calculator.Proofs.Lexer.Basic
import Calculator.Proofs.Lexer.Spelling
import Calculator.Proofs.Lexer.Layout
import Calculator.Proofs.Lexer.Offsets
import Calculator.Proofs.Parser.Run
import Calculator.Proofs.Parser.Contract
import Calculator.Proofs.Parser.Completeness
import Calculator.Proofs.Parser.Recognition
import Calculator.Proofs.Parser.Diagnosis
import Calculator.Proofs.Parser.Failing
import Calculator.Proofs.Parser.Report
import Calculator.Proofs.Parser.Levels
import Calculator.Proofs.Parser.Relocation
import Calculator.Proofs.Printer.Tokens
import Calculator.Proofs.Printer.Signs
import Calculator.Proofs.Printer.RoundTrip
import Calculator.Proofs.Eval.Postorder
import Calculator.Proofs.Eval.Exact
import Calculator.Proofs.Eval.Sums
import Calculator.Proofs.Eval.Variables
import Calculator.Proofs.Parser.Activation
import Calculator.Proofs.Phases
import Calculator.Proofs.Positions
import Calculator.Proofs.Binding.Syntax
import Calculator.Proofs.Binding
import Calculator.Proofs.Recursion
import Calculator.Proofs.Grammar.Substitution
import Calculator.Proofs.Substitution
import Calculator.Proofs.Trace.Applications
import Calculator.Proofs.Trace.Exact
import Calculator.Proofs.Command
import Calculator.Proofs.Double.Rounding
import Calculator.Proofs.Double.Conversion
import Calculator.Proofs.Double.Mean
import Calculator.Proofs.Double.Power
import Calculator.Proofs.Parser.Consistency
import Calculator.Proofs.Grammar.Outside
import Calculator.Proofs.Parser.Room
import Calculator.Proofs.Parser.Climbing
