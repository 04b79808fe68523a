import Calculator.Expr.Basic
import Calculator.Token.Lexer

/-!
# Parsing expressions

From lexemes to a tree, by recursive descent over three forms:

* an expression is a term followed by operators with their right operands, where an operator counts
  only if it binds at least as tightly as the place asks for, and a right operand is an expression
  that asks for more than its operator;
* a term is a primary, or a minus sign and a primary;
* a primary is a number, a variable, a call, or an expression in parentheses.

Two limits keep the work bounded: how many parentheses are open at once, and how high the tree is.
They are part of the state, so the theory can speak of a parser with any limits. Expressions nest in
each other only through parentheses and through operators of rising precedence, so four times as
many calls as there are levels of parentheses are ever active together. `Parser.expression` counts
them down, and stops as `exhausted` where it would need more.

The parser's state outlives a failure: the calls that were recognised before it are part of what a
trace shows.
-/

namespace Calculator

/-- The greatest number of parentheses, of groups and of calls, that may be open at once. -/
def maxNesting : Nat := 128

def maxHeight : Nat := 1024

/-- The limits that a parser keeps to. A tree has a node, so its height is never held to zero. -/
structure Limits where
  /-- How many parentheses may be open at once. -/
  nesting : Nat
  /-- How high a tree may be. -/
  height : Nat
  height_pos : 0 < height

def Limits.standard : Limits := ⟨maxNesting, maxHeight, by decide⟩

/-- The active expressions that the limit on parentheses allows: four precedences that are asked
for, on every level of parentheses and outside of all. -/
def Limits.active (limits : Limits) : Nat := 4 * (limits.nesting + 1)

/-- A call that the parser recognised: the offset of its name and the function. -/
structure CallSite where
  offset : Nat
  function : Aggregate
  deriving DecidableEq

/-- A tree with its height, which the limit is checked against at every step of its growth. -/
structure Node where
  expr : Expr
  height : Nat

namespace Parser

structure State where
  /-- The limits that hold. -/
  limits : Limits
  /-- The lexemes that are still to be read. -/
  rest : List Lexeme
  /-- How many lexemes there were at the start. -/
  size : Nat
  /-- How many parentheses are open. -/
  depth : Nat
  /-- The length of the source in bytes, which is where its end is. -/
  stop : Nat
  /-- The calls recognised so far. -/
  calls : Array CallSite

inductive Failure where
  /-- A token, or the end of the source, that cannot stand where it does. -/
  | unexpected (position : Nat) (found : Option Token) (expected : List Expectation)
  /-- A name that calls no function. -/
  | unknownFunction (name : String) (position : Nat)
  /-- One parenthesis too many is open. -/
  | tooNested (position : Nat)
  /-- The tree is too high. -/
  | tooHigh (position : Nat)
  /-- More calls were active than were allowed for. -/
  | exhausted
  deriving DecidableEq

/-- The error that a failure is reported as. The two limits share one. Were the parser ever
exhausted, nesting would be to blame as well, at the end of the source. -/
def Failure.toError (stop : Nat) : Failure → Error
  | unexpected p (some t) expected => .unexpected p t.quoted (expected.map Expectation.label)
  | unexpected p none expected =>
    .unexpected p Expectation.endOfInput.label (expected.map Expectation.label)
  | unknownFunction name p => .unknownFunction name p
  | tooNested p | tooHigh p => .nestingTooDeep p
  | exhausted => .nestingTooDeep stop

end Parser

abbrev Parser := EStateM Parser.Failure Parser.State

namespace Parser

/-! ## Steps -/

/-- The token that is next, if any is left. -/
def State.next (s : State) : Option Token := s.rest.head?.map Lexeme.token

/-- Where the next token is; the end of the source if none is left. -/
def State.position (s : State) : Nat :=
  match s.rest with
  | [] => s.stop
  | l :: _ => l.offset

def peek : Parser (Option Token) := do return (← get).next

def advance : Parser Unit := modify fun s => { s with rest := s.rest.tail }

/-- The next token, which is passed. -/
def take : Parser (Option Token) := do
  let next ← peek
  advance
  return next

/-- The place that a parser is at, so that it may come back. -/
def mark : Parser (List Lexeme) := return (← get).rest

/-- Goes back to a place that was marked. -/
def reset (place : List Lexeme) : Parser Unit := modify fun s => { s with rest := place }

/-- Refuses the next token, naming what could stand there instead. -/
def unexpected {α : Type} (expected : List Expectation) : Parser α := do
  let s ← get
  throw (.unexpected s.position s.next expected)

/-- The node, if its height is within the limit. -/
def limited (node : Node) : Parser Node := do
  let s ← get
  if node.height ≤ s.limits.height then return node else throw (.tooHigh s.position)

/-- Runs a parser with one more parenthesis open. It is closed again however the parser ends. -/
def nested {α : Type} (body : Parser α) : Parser α := fun s =>
  if s.depth < s.limits.nesting then
    match body { s with depth := s.depth + 1 } with
    | .ok a s' => .ok a { s' with depth := s'.depth - 1 }
    | .error e s' => .error e { s' with depth := s'.depth - 1 }
  else .error (.tooNested s.position) s

/-! ## Forms

The parser of whole expressions is a parameter of every form that contains one. -/

/-- The arguments of a call from the first one on, and the closing parenthesis, with the greatest of
their heights. There are at most `bound` of them. -/
def argumentsFrom (expression : Parser Node) : (bound : Nat) → Parser (List Expr × Nat)
  | 0 => throw .exhausted
  | bound + 1 => do
    let first ← expression
    match ← peek with
    | some .closeParen =>
      advance
      return ([first.expr], first.height)
    | some .comma =>
      advance
      let (others, height) ← argumentsFrom expression bound
      return (first.expr :: others, max first.height height)
    | _ => unexpected [.operator, .comma, .closeParen]

/-- The arguments of a call, after its opening parenthesis and up to its closing one. Each of them
takes a lexeme at least, so there are no more of them than lexemes. -/
def arguments (expression : Parser Node) : Parser (List Expr × Nat) := do
  match ← peek with
  | some .closeParen =>
    advance
    return ([], 0)
  | _ => argumentsFrom expression ((← get).size + 1)

/-- The name that is called next, and where it is. Two tokens are taken to find out; they are given
back where they are no name and opening parenthesis. -/
def callee? : Parser (Option (String × Nat)) := do
  let start ← mark
  let position := (← get).position
  let first ← take
  let second ← take
  match first, second with
  | some (.name x), some .openParen => return some (x, position)
  | _, _ =>
    reset start
    return none

/-- What is left of a call of the function after its opening parenthesis. -/
def callOf (expression : Parser Node) (f : Aggregate) : Parser Node := do
  let (args, height) ← nested (arguments expression)
  limited ⟨.call f args, height + 1⟩

/-- A call, if one is next. The name decides before the parenthesis counts as open. -/
def call? (expression : Parser Node) : Parser (Option Node) := do
  match ← callee? with
  | none => return none
  | some (x, position) =>
    match Aggregate.ofName? x with
    | none => throw (.unknownFunction x position)
    | some f =>
      modify fun s => { s with calls := s.calls.push ⟨position, f⟩ }
      return some (← callOf expression f)

def group (expression : Parser Node) : Parser Node := nested do
  advance
  let node ← expression
  match ← peek with
  | some .closeParen =>
    advance
    return node
  | _ => unexpected [.operator, .closeParen]

/-- A primary. What a message says could stand here depends on whether a minus sign could. -/
def primary (expression : Parser Node) (expected : List Expectation) : Parser Node := do
  match ← call? expression with
  | some node => return node
  | none =>
    match ← peek with
    | some (.number v) =>
      advance
      return ⟨.number v, 1⟩
    | some (.name x) =>
      advance
      return ⟨.var x, 1⟩
    | some .openParen => group expression
    | _ => unexpected expected

/-- A term. One minus sign negates one primary, so `-A^2` is the square of `-A`. -/
def term (expression : Parser Node) : Parser Node := do
  match ← peek with
  | some (.operator .minus) =>
    advance
    let node ← primary expression [.integer, .identifier, .openParen]
    limited ⟨.neg node.expr, node.height + 1⟩
  | _ => primary expression [.integer, .identifier, .openParen, .minus]

/-- The operators that follow the left operand and bind at least as tightly as `least`, each with
its right operand. The tree grows by a level with every operator, so the limit on its height bounds
how many they are. -/
def chain (operand : Nat → Parser Node) (least : Nat) : (bound : Nat) → Node → Parser Node
  | 0, _ => throw .exhausted
  | bound + 1, left => do
    match ← peek with
    | some (.operator op) =>
      if op.precedence < least then return left
      else
        advance
        let right ← operand (op.precedence + 1)
        let node ← limited ⟨.binary op left.expr right.expr, max left.height right.height + 1⟩
        chain operand least bound node
    | _ => return left

/-- An expression whose operators outside parentheses bind at least as tightly as `least`. The fuel
is how many of these may be active together. -/
def expression : (fuel least : Nat) → Parser Node
  | 0, _ => throw .exhausted
  | fuel + 1, least => do
    let left ← term (expression fuel 1)
    chain (expression fuel) least ((← get).limits.height + 1) left

/-- A whole source: one expression, and nothing after it. -/
def whole (fuel : Nat) : Parser Expr := do
  let node ← expression fuel 1
  match ← peek with
  | none => return node.expr
  | some _ => unexpected [.operator, .endOfInput]

def State.start (limits : Limits) (src : String) (lexemes : List Lexeme) : State :=
  ⟨limits, lexemes, lexemes.length, 0, src.utf8ByteSize, #[]⟩

end Parser

/-- Parses the lexemes of a source, and gives the calls that were recognised, too. -/
def parseLexemes (src : String) (lexemes : List Lexeme) : Except Error Expr × List CallSite :=
  match Parser.whole Limits.standard.active (.start .standard src lexemes) with
  | .ok e s => (.ok e, s.calls.toList)
  | .error f s => (.error (f.toError src.utf8ByteSize), s.calls.toList)

def parse (src : String) : Except Error Expr := do (parseLexemes src (← tokenize src)).1

end Calculator
