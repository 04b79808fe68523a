import Calculator.Double
import Calculator.Env
import Calculator.Error
import Calculator.Expr.Basic

/-!
# Evaluating expressions

The value of a tree in an environment. Operands and arguments are evaluated from left to right, all
of them before the operation on them, and the first error is the error of the whole.

Evaluation is written once for every monad that can fail with an error, with a hook that is told of
each call that has been evaluated. `Expr.eval` has nothing to tell; a trace listens.
-/

namespace Calculator

/-! ## Operations on values -/

/-- The value, or an overflow where there is none. -/
def orOverflow : Option Value → Except Error Value
  | some v => .ok v
  | none => .error .overflow

/-- The result of an operator. A zero divisor is refused before the range is looked at, and a power
always has a value. -/
def Operator.apply : Operator → Value → Value → Except Error Value
  | plus, a, b => orOverflow (a.add? b)
  | minus, a, b => orOverflow (a.sub? b)
  | times, a, b => orOverflow (a.mul? b)
  | divide, a, b => if b = 0 then .error .divisionByZero else orOverflow (a.div? b)
  | power, a, b => .ok (a.pow b)

namespace Aggregate

/-- The sum, added up from the left. Every partial sum has to be a value. -/
def total (vs : List Value) : Except Error Value :=
  vs.foldlM (fun soFar v => orOverflow (soFar.add? v)) 0

/-- The result of a function. A sum of no values is zero, a mean of none is an error. -/
def apply : Aggregate → List Value → Except Error Value
  | sum, vs => total vs
  | average, [] => .error .emptyArguments
  | average, v :: vs => return (← total (v :: vs)).mean (v :: vs).length

end Aggregate

/-! ## Evaluation -/

/-- A call that was evaluated: the function, the values of its arguments and its own. -/
structure Application where
  function : Aggregate
  args : List Value
  value : Value
  deriving DecidableEq

namespace Expr

section Monadic

variable {m : Type → Type} [Monad m] [MonadExceptOf Error m]

mutual
/-- Evaluates the tree, and tells `record` of every call when its value is known. -/
@[specialize]
def evalWith (record : Application → m Unit) (env : Env) : Expr → m Value
  | number v => pure v
  | var x =>
    match env.get? x with
    | some v => pure v
    | none => throw (.undefinedVariable x)
  | call f args => do
    let vs ← evalAllWith record env args
    let v ← ofExcept (f.apply vs)
    record ⟨f, vs, v⟩
    return v
  | neg e => do
    let v ← evalWith record env e
    ofExcept (orOverflow v.neg?)
  | binary op l r => do
    let a ← evalWith record env l
    let b ← evalWith record env r
    ofExcept (op.apply a b)

@[specialize]
def evalAllWith (record : Application → m Unit) (env : Env) : List Expr → m (List Value)
  | [] => pure []
  | e :: es => do
    let v ← evalWith record env e
    let vs ← evalAllWith record env es
    return v :: vs
end

end Monadic

def eval (env : Env) (e : Expr) : Except Error Value := evalWith (fun _ => pure ()) env e

def evalAll (env : Env) (es : List Expr) : Except Error (List Value) :=
  evalAllWith (fun _ => pure ()) env es

/-! ## The value by the form of the tree -/

theorem ofExcept_eq {α : Type} (x : Except Error α) : (ofExcept x : Except Error α) = x := by
  cases x <;> rfl

@[simp] theorem eval_number (env : Env) (v : Value) : eval env (number v) = .ok v := rfl

theorem eval_var (env : Env) (x : String) :
    eval env (var x) = match env.get? x with
      | some v => .ok v
      | none => .error (.undefinedVariable x) := rfl

theorem eval_call (env : Env) (f : Aggregate) (args : List Expr) :
    eval env (call f args) = evalAll env args >>= f.apply := by
  simp only [eval, evalWith, ofExcept_eq]
  refine congrArg _ (funext fun vs => ?_)
  cases f.apply vs <;> rfl

theorem eval_neg (env : Env) (e : Expr) :
    eval env (neg e) = eval env e >>= fun v => orOverflow v.neg? := by
  simp only [eval, evalWith, ofExcept_eq]

theorem eval_binary (env : Env) (op : Operator) (l r : Expr) :
    eval env (binary op l r) =
      eval env l >>= fun a => eval env r >>= fun b => op.apply a b := by
  simp only [eval, evalWith, ofExcept_eq]

@[simp] theorem evalAll_nil (env : Env) : evalAll env [] = .ok [] := rfl

theorem evalAll_cons (env : Env) (e : Expr) (es : List Expr) :
    evalAll env (e :: es) = eval env e >>= fun v => evalAll env es >>= fun vs => .ok (v :: vs) :=
  rfl

end Expr

end Calculator
