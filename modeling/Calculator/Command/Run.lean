import Calculator.Command.Arguments
import Calculator.Expr.Printer
import Calculator.Trace

/-!
# Running commands

What a command prints and how it exits. Times are measured by a timer, so that the rest is a
function of the command: with `Timer.still` a run is pure, and every time reads the same.
-/

namespace Calculator

/-! ## Timers -/

/-- A way to measure how long something takes, in nanoseconds, and to write that down. -/
structure Timer (m : Type → Type) where
  measure : {α : Type} → (Unit → α) → m (α × Nat)
  render : Nat → String

/-- A timer that measures nothing and writes every time alike. -/
def Timer.still (text : String) : Timer Id where
  measure f := (f (), 0)
  render _ := text

/-! ## Responses -/

/-- What a run leaves behind: the exit code and the text on the two outputs. -/
structure Response where
  exitCode : Nat
  stdout : String
  stderr : String
  deriving DecidableEq

namespace Response

def ok (stdout : String) : Response := ⟨0, stdout, ""⟩

def failure (e : Error) : Response := ⟨1, "", "error: " ++ e.message ++ "\n"⟩

end Response

/-! ## Runs -/

/-- Evaluates the tree so many times. The value is that of the last time, and `last` if there is
none. -/
def Expr.evalTimes (env : Env) (e : Expr) : Nat → Value → Except Error Value
  | 0, last => .ok last
  | n + 1, _ => do
    let v ← e.eval env
    evalTimes env e n v

namespace Command

section

variable {m : Type → Type} [Monad m] (timer : Timer m)

def runParse (src : String) : Response :=
  match Calculator.parse src with
  | .ok e => .ok (e.render ++ "\n")
  | .error err => .failure err

/-- Prints the value, then the time if it is asked for. -/
def runEval (src : String) (env : Env) (timed : Bool) : m Response := do
  let (result, duration) ← timer.measure fun _ => evaluate src env
  match result with
  | .error err => return .failure err
  | .ok v =>
    let time := if timed then "\n> Duration: " ++ timer.render duration ++ "\n" else ""
    return .ok (v.render ++ "\n" ++ time)

/-- The times of a benchmark: of parsing, of all iterations, and of one if there was any. -/
def benchTimes (parsing evaluating : Nat) (iterations : UInt32) : String :=
  let each :=
    if 0 < iterations then
      "> Per iteration: " ++ timer.render (evaluating / iterations.toNat) ++ "\n"
    else ""
  "\n> Parse: " ++ timer.render parsing ++ "\n> Eval:  " ++ timer.render evaluating ++ " for " ++
    iterations.toNat.repr ++ " iterations\n" ++ each

/-- Prints the value of the last iteration, and the times. -/
def runBench (src : String) (env : Env) (iterations : UInt32) : m Response := do
  let (parsed, parsing) ← timer.measure fun _ => Calculator.parse src
  match parsed with
  | .error err => return .failure err
  | .ok e =>
    let (result, evaluating) ← timer.measure fun _ => e.evalTimes env iterations.toNat 0
    match result with
    | .error err => return .failure err
    | .ok v => return .ok (v.render ++ "\n" ++ benchTimes timer parsing evaluating iterations)

def run : Command → m Response
  | parse src => return runParse src
  | eval src bs timed => runEval timer src (.ofBindings bs) timed
  | bench src bs iterations => runBench timer src (.ofBindings bs) iterations

def usage : String :=
  "usage: calculator parse EXPR\n" ++
    "       calculator eval [-v NAME=VALUE]... [-t] EXPR\n" ++
    "       calculator bench [-v NAME=VALUE]... [-n COUNT] EXPR\n"

def Refusal.response : Refusal → Response
  | help => .ok usage
  | misuse => ⟨2, "", usage⟩

def runArgs (args : List String) : m Response :=
  match ofArgs args with
  | .ok command => run timer command
  | .error refusal => return refusal.response

end

end Command

end Calculator
