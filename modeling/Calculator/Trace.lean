import Calculator.Expr.Eval
import Calculator.Expr.Parser
import Calculator.Expr.Printer

/-!
# Computing a source text, with or without a trace

`evaluate` gives the value of a source text. `Trace.ofSource` gives the same result together with
what happened on the way: the tokens, the calls that the parser recognised, the tree, the calls that
were evaluated and the value, in this order and up to the first error.
-/

namespace Calculator

def evaluate (src : String) (env : Env) : Except Error Value := do (← parse src).eval env

/-! ## Events -/

/-- How much an event matters. -/
inductive Level where
  | trace
  | debug
  | info
  deriving DecidableEq

namespace Level

def rank : Level → Nat
  | trace => 0
  | debug => 1
  | info => 2

def name : Level → String
  | trace => "TRACE"
  | debug => "DEBUG"
  | info => "INFO"

end Level

/-- Something that happened while a source text was computed. -/
inductive Event where
  /-- A token was read. -/
  | lexed (lexeme : Lexeme)
  /-- A call was recognised, before its arguments were read. -/
  | called (site : CallSite)
  /-- The source was read to its end as this tree. -/
  | parsed (src : String) (e : Expr)
  /-- A call was evaluated. -/
  | applied (a : Application)
  /-- The tree was evaluated. -/
  | evaluated (e : Expr) (v : Value)
  deriving DecidableEq

def Operator.name : Operator → String
  | plus => "Plus"
  | minus => "Minus"
  | times => "Mul"
  | divide => "Div"
  | power => "Pow"

def Token.described : Token → String
  | number v => "Number(" ++ v.render ++ ")"
  | name x => "Id(\"" ++ x ++ "\")"
  | operator op => "Op(" ++ op.name ++ ")"
  | openParen => "LParen"
  | closeParen => "RParen"
  | comma => "Comma"

namespace Event

/-- Steps are traced, the two results are of interest when looking for faults. -/
def level : Event → Level
  | lexed _ | called _ | applied _ => .trace
  | parsed .. | evaluated .. => .debug

def message : Event → String
  | lexed l => l.offset.repr ++ ": " ++ l.token.described
  | called c => c.offset.repr ++ ": call to " ++ c.function.name
  | parsed src e => "parsed `" ++ src ++ "` as " ++ e.render
  | applied a =>
    a.function.name ++ "[" ++ ", ".intercalate (a.args.map Value.render) ++ "] = " ++ a.value.render
  | evaluated e v => e.render ++ " = " ++ v.render

end Event

/-- What is written down of an event. -/
structure Record where
  level : Level
  text : String
  deriving DecidableEq

def Event.record (e : Event) : Record := ⟨e.level, e.message⟩

/-! ## Traces -/

/-- The value of the tree, and the calls that were evaluated before the first error. -/
def Expr.evalTraced (env : Env) (e : Expr) : Except Error Value × List Application :=
  let record (a : Application) : EStateM Error (Array Application) Unit := modify (·.push a)
  match e.evalWith record env #[] with
  | .ok v applications => (.ok v, applications.toList)
  | .error e applications => (.error e, applications.toList)

structure Trace where
  events : List Event
  result : Except Error Value

namespace Trace

def after (events : List Event) (t : Trace) : Trace := { t with events := events ++ t.events }

def ofExpr (e : Expr) (env : Env) : Trace :=
  match e.evalTraced env with
  | (.ok v, applications) => ⟨applications.map .applied ++ [.evaluated e v], .ok v⟩
  | (.error err, applications) => ⟨applications.map .applied, .error err⟩

def ofLexemes (src : String) (lexemes : List Lexeme) (env : Env) : Trace :=
  match parseLexemes src lexemes with
  | (.ok e, calls) => (ofExpr e env).after (calls.map .called ++ [.parsed src e])
  | (.error err, calls) => ⟨calls.map .called, .error err⟩

def ofSource (src : String) (env : Env) : Trace :=
  let s := scan 0 src.toList
  match s.toExcept with
  | .ok lexemes => (ofLexemes src lexemes env).after (lexemes.map .lexed)
  | .error err => ⟨s.lexemes.map .lexed, .error err⟩

def filter (least : Level) (t : Trace) : Trace :=
  { t with events := t.events.filter fun e => least.rank ≤ e.level.rank }

def records (least : Level) (t : Trace) : List Record := (t.filter least).events.map Event.record

end Trace

end Calculator
