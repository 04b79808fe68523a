import Calculator.Text.Blank
import Calculator.Token

/-!
# Bindings

How the command line gives a variable its value: `NAME=VALUE`, with blanks allowed around both. The
first equals sign divides the text, the name is a name of the expression language, and the value is
a decimal integer with an optional sign.
-/

namespace Calculator

/-- A name and its value. -/
structure Binding where
  name : String
  value : Value
  deriving DecidableEq

namespace Binding

/-- Why a text is no binding. -/
inductive Fault where
  /-- No equals sign divides the text. -/
  | undivided (text : String)
  | invalidName (name : String)
  | invalidValue (name : String) (why : Decimal.Fault)
  deriving DecidableEq

def Fault.message : Fault → String
  | undivided text => "expected NAME=VALUE, found `" ++ text ++ "`"
  | invalidName name => "`" ++ name ++ "` is not a valid variable name"
  | invalidValue name why => "invalid value for `" ++ name ++ "`: " ++ why.message

/-- Reads a name and a value from the two sides of the equals sign. -/
def ofSides (left right : List Char) : Except Fault Binding :=
  let name := String.ofList (trim left)
  if isName (trim left) then
    match Decimal.read (trim right) with
    | .ok v => .ok ⟨name, v⟩
    | .error why => .error (.invalidValue name why)
  else .error (.invalidName name)

def parse (text : String) : Except Fault Binding :=
  match text.toList.dropWhile (· != '=') with
  | [] => .error (.undivided text)
  | _ :: right => ofSides (text.toList.takeWhile (· != '=')) right

def toPair (b : Binding) : String × Value := (b.name, b.value)

end Binding

end Calculator
