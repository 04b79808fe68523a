import Calculator.Binding
import Calculator.Env

/-!
# Commands

What the program can be asked to do with an expression. Variables are bound in the order in which
they are given, so that later bindings override earlier ones.
-/

namespace Calculator

/-- What the program is asked to do with an expression. -/
inductive Command where
  /-- Print its tree. -/
  | parse (src : String)
  /-- Print its value, and on demand how long computing it took. -/
  | eval (src : String) (bindings : List Binding) (timed : Bool)
  /-- Print its value and how long it took to compute it so many times. -/
  | bench (src : String) (bindings : List Binding) (iterations : UInt32)
  deriving DecidableEq

def Env.ofBindings (bs : List Binding) : Env := .ofList (bs.map Binding.toPair)

end Calculator
