import Calculator.Text.Decimal

/-!
# Tokens

The words of the expression language: numbers, names, five operators and three marks of punctuation.
-/

namespace Calculator

/-- A binary operator. All of them group to the left. -/
inductive Operator where
  | plus
  | minus
  | times
  | divide
  | power
  deriving DecidableEq

namespace Operator

/-- The operators, those that bind loosest first. -/
def all : List Operator := [plus, minus, times, divide, power]

def symbol : Operator → String
  | plus => "+"
  | minus => "-"
  | times => "*"
  | divide => "/"
  | power => "^"

/-- How tightly the operator binds its operands: the higher, the tighter. -/
def precedence : Operator → Nat
  | plus | minus => 10
  | times | divide => 20
  | power => 30

end Operator

inductive Token where
  | number (value : Value)
  | name (text : String)
  | operator (op : Operator)
  | openParen
  | closeParen
  | comma
  deriving DecidableEq

namespace Token

/-- The token's text. A number has its value in decimal, so leading zeros are gone. -/
def text : Token → String
  | number v => v.render
  | name x => x
  | operator op => op.symbol
  | openParen => "("
  | closeParen => ")"
  | comma => ","

def quoted (t : Token) : String := "`" ++ t.text ++ "`"

/-- The token that a character is by itself. -/
def ofMark? : Char → Option Token
  | '+' => some (operator .plus)
  | '-' => some (operator .minus)
  | '*' => some (operator .times)
  | '/' => some (operator .divide)
  | '^' => some (operator .power)
  | '(' => some openParen
  | ')' => some closeParen
  | ',' => some comma
  | _ => none

end Token

/-- A token where it stands in the source: the offset counts the bytes before it in UTF-8. -/
structure Lexeme where
  offset : Nat
  token : Token
  deriving DecidableEq

/-- A name is one or more ASCII letters. -/
def isName (cs : List Char) : Bool := !cs.isEmpty && cs.all Char.isAlpha

end Calculator
