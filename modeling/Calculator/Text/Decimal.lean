import Calculator.Value

/-!
# Decimal integers

How values are written and read. In an expression a number is a run of digits; in a binding it may
have a sign, and what is wrong with it is told apart: reading goes from the left and stops at the
first fault.
-/

namespace Calculator

namespace Decimal

/-! ## Writing -/

def write (n : Int) : String :=
  if n < 0 then "-" ++ n.natAbs.repr else n.natAbs.repr

/-! ## Reading -/

/-- The value of a run of digits, if it is in range. Leading zeros do not matter. -/
def ofDigits? (digits : List Char) : Option Value := Value.ofNat? (Nat.ofDigitChars 10 digits 0)

/-- Why a text is not an integer of 64 bits. -/
inductive Fault where
  | empty
  | invalidDigit
  | tooLarge
  | tooSmall
  deriving DecidableEq

def Fault.message : Fault → String
  | empty => "cannot parse integer from empty string"
  | invalidDigit => "invalid digit found in string"
  | tooLarge => "number too large to fit in target type"
  | tooSmall => "number too small to fit in target type"

/-- The value of the digits after `soFar`, which moves away from zero on the side of the sign. A
character that is no digit is reported before the range is looked at, and either as soon as the
reading from the left meets it. -/
def readDigits (negative : Bool) : Value → List Char → Except Fault Value
  | soFar, [] => .ok soFar
  | soFar, c :: rest =>
    if c.isDigit then
      let digit : Int := (c.toNat - '0'.toNat : Nat)
      match Value.ofInt? (10 * soFar.toInt + if negative then -digit else digit) with
      | some next => readDigits negative next rest
      | none => .error (if negative then .tooSmall else .tooLarge)
    else .error .invalidDigit

/-- Reads one optional sign and at least one digit. A lone sign is an invalid digit. -/
def read : List Char → Except Fault Value
  | [] => .error .empty
  | ['+'] | ['-'] => .error .invalidDigit
  | '+' :: digits => readDigits false 0 digits
  | '-' :: digits => readDigits true 0 digits
  | digits => readDigits false 0 digits

end Decimal

def Value.render (v : Value) : String := Decimal.write v.toInt

end Calculator
