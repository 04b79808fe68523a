import Calculator.Token

/-!
# Errors

Everything that can be wrong with an expression: five errors of its text, found before anything is
computed, and four of its evaluation. Positions are byte offsets in UTF-8.
-/

namespace Calculator

/-- What a parser could have read at the place of an error. -/
inductive Expectation where
  | integer
  | identifier
  | openParen
  | closeParen
  | comma
  | minus
  | operator
  | endOfInput
  deriving DecidableEq

def Expectation.label : Expectation → String
  | integer => "integer"
  | identifier => "identifier"
  | openParen => "`(`"
  | closeParen => "`)`"
  | comma => "`,`"
  | minus => "`-`"
  | operator => "operator"
  | endOfInput => "end of input"

inductive Error where
  /-- A character that no token holds. -/
  | unrecognized (position : Nat)
  /-- A run of digits whose value is no value. -/
  | literalOutOfRange (position : Nat)
  /-- A token, or the end of the input, that cannot stand where it does. -/
  | unexpected (position : Nat) (found : String) (expected : List String)
  /-- A level of parentheses or a level of the tree over the limit. -/
  | nestingTooDeep (position : Nat)
  /-- A name in the place of a function that names none. -/
  | unknownFunction (name : String) (position : Nat)
  /-- A variable without a value. -/
  | undefinedVariable (name : String)
  | divisionByZero
  /-- A mean of no values. -/
  | emptyArguments
  /-- A result out of the range of values. -/
  | overflow
  deriving DecidableEq

namespace Error

/-- Whether the error is one of the text, whatever the variables stand for. -/
def isSyntax : Error → Bool
  | unrecognized _ | literalOutOfRange _ | unexpected .. | nestingTooDeep _ | unknownFunction .. =>
    true
  | undefinedVariable _ | divisionByZero | emptyArguments | overflow => false

def message : Error → String
  | unrecognized p => "unrecognized character at offset " ++ p.repr
  | literalOutOfRange p => "integer literal at offset " ++ p.repr ++ " does not fit in 64 bits"
  | unexpected p found expected =>
    "at offset " ++ p.repr ++ ": expected " ++ " or ".intercalate expected ++ ", found " ++ found
  | nestingTooDeep p => "expression nested too deeply at offset " ++ p.repr
  | unknownFunction name p => "unknown function `" ++ name ++ "` at offset " ++ p.repr
  | undefinedVariable name => "undefined variable `" ++ name ++ "`"
  | divisionByZero => "division by zero"
  | emptyArguments => "AVERAGE called without arguments"
  | overflow => "integer overflow"

end Error

end Calculator
