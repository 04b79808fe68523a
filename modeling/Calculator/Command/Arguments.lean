import Calculator.Command.Basic

/-!
# Arguments

How a list of arguments asks for a command. The first argument is the verb. Of the others, one that
begins with a minus sign and is longer than that is an option, until a double minus sign says that
only words follow; every other argument is a word. There is exactly one word, the expression. Short
options may share an argument, the value of an option may be attached to it, and options come in any
order.

Arguments are read from the left and refused for the first of them that does not fit. A question for
help is such a refusal, so what comes after it does not matter.

This is the outer layer: the theory is about commands, however they were asked for.
-/

namespace Calculator

namespace Command

/-- Why arguments make no command. -/
inductive Refusal where
  | help
  | misuse

/-! ## Options -/

inductive Verb where
  | parse
  | eval
  | bench

def Verb.ofText? : String → Option Verb
  | "parse" => some .parse
  | "eval" => some .eval
  | "bench" => some .bench
  | _ => none

inductive Switch where
  | var
  | time
  | iterations
  | help

namespace Switch

def short : Switch → Char
  | var => 'v'
  | time => 't'
  | iterations => 'n'
  | help => 'h'

def long : Switch → List Char
  | var => "var".toList
  | time => "time".toList
  | iterations => "iterations".toList
  | help => "help".toList

def takesValue : Switch → Bool
  | var | iterations => true
  | time | help => false

end Switch

def Verb.switches : Verb → List Switch
  | parse => [.help]
  | eval => [.var, .time, .help]
  | bench => [.var, .iterations, .help]

/-! ## From arguments to a command -/

structure Draft where
  src : Option String := none
  bindings : List Binding := []
  timed : Bool := false
  iterations : Option UInt32 := none

/-- How many times a benchmark evaluates if it is not told. -/
def defaultIterations : UInt32 := 100000

/-- Reads a count: a decimal integer that is not negative and below `2^32`. -/
def readCount? (text : String) : Option UInt32 :=
  match Decimal.read text.toList with
  | .ok v =>
    if 0 ≤ v.toInt ∧ v.toInt < UInt32.size then some (.ofNat v.toInt.toNat) else none
  | .error _ => none

namespace Draft

variable (d : Draft)

def word (text : String) : Except Refusal Draft :=
  match d.src with
  | none => .ok { d with src := some text }
  | some _ => .error .misuse

def mark : Switch → Except Refusal Draft
  | .time => if d.timed then .error .misuse else .ok { d with timed := true }
  | .help => .error .help
  | .var | .iterations => .error .misuse

def set (value : String) : Switch → Except Refusal Draft
  | .var =>
    match Binding.parse value with
    | .ok b => .ok { d with bindings := d.bindings ++ [b] }
    | .error _ => .error .misuse
  | .iterations =>
    match d.iterations, readCount? value with
    | none, some n => .ok { d with iterations := some n }
    | _, _ => .error .misuse
  | .time | .help => .error .misuse

def finish : Verb → Except Refusal Command
  | verb =>
    match d.src, verb with
    | none, _ => .error .misuse
    | some src, .parse => .ok (.parse src)
    | some src, .eval => .ok (.eval src d.bindings d.timed)
    | some src, .bench => .ok (.bench src d.bindings (d.iterations.getD defaultIterations))

end Draft

/-- Reads short options that share an argument. The first one that takes a value takes all that
follows it, less an equals sign between them, or else its value is still to come. -/
def readShort (verb : Verb) (d : Draft) : List Char → Except Refusal (Draft × Option Switch)
  | [] => .ok (d, none)
  | c :: rest =>
    match verb.switches.find? (·.short == c), rest with
    | none, _ => .error .misuse
    | some s, rest =>
      if s.takesValue then
        match rest with
        | [] => .ok (d, some s)
        | '=' :: value | value => do return (← d.set (String.ofList value) s, none)
      else do readShort verb (← d.mark s) rest

/-- Reads one long option, with its value if that is attached by an equals sign. -/
def readLong (verb : Verb) (d : Draft) (text : List Char) :
    Except Refusal (Draft × Option Switch) :=
  match verb.switches.find? (·.long == text.takeWhile (· != '=')) with
  | none => .error .misuse
  | some s =>
    match s.takesValue, text.dropWhile (· != '=') with
    | true, [] => .ok (d, some s)
    | true, _ :: value => do return (← d.set (String.ofList value) s, none)
    | false, [] => do return (← d.mark s, none)
    | false, _ :: _ => .error .misuse

/-- Reads one argument that is no value of the option before it. -/
def readArg (verb : Verb) (d : Draft) (arg : String) : Except Refusal (Draft × Option Switch) :=
  match arg.toList with
  | '-' :: '-' :: text => readLong verb d text
  | '-' :: c :: text => readShort verb d (c :: text)
  | _ => do return (← d.word arg, none)

/-- Whether the argument is an option by its form. A lone minus sign is a word. -/
def isOption (arg : String) : Bool :=
  match arg.toList with
  | '-' :: _ :: _ => true
  | _ => false

/-- Reads arguments. The value of a pending option is the next argument, unless that is an option by
its form. -/
def readArgs (verb : Verb) (d : Draft) : Option Switch → List String → Except Refusal Draft
  | none, [] => .ok d
  | some _, [] => .error .misuse
  | some s, arg :: rest =>
    if isOption arg then .error .misuse else do readArgs verb (← d.set arg s) none rest
  | none, arg :: rest =>
    if arg = "--" then rest.foldlM Draft.word d
    else do
      let (d, pending) ← readArg verb d arg
      readArgs verb d pending rest

/-- The command that the arguments ask for. Help can be asked for in the place of a verb, too, and
about a verb. -/
def ofArgs : List String → Except Refusal Command
  | [] => .error .misuse
  | first :: rest =>
    match Verb.ofText? first, first.toList with
    | some verb, _ => do (← readArgs verb {} none rest).finish verb
    | none, '-' :: '-' :: text => .error (if text = Switch.help.long then .help else .misuse)
    | none, '-' :: c :: _ => .error (if c = Switch.help.short then .help else .misuse)
    | none, text =>
      match decide (text = Switch.help.long), rest with
      | true, [] => .error .help
      | true, [about] =>
        .error (if (Verb.ofText? about).isSome ∨ about.toList = text then .help else .misuse)
      | _, _ => .error .misuse

def ofArgs? (args : List String) : Option Command := (ofArgs args).toOption

end Command

end Calculator
