import Calculator.Trace
import Mathlib.Data.List.Forall2

/-!
# What records say

How every event is written down: at which level, and in which words. This is said here once more,
apart from the functions that write the records, and compared with them.

1. `Token.Shown`: how a token is shown.
2. `Event.Told`: the record of an event.
3. `told_records`: a trace is written down as the records of its events, in order.
4. `records_debug`, `records_info`: what is left at the higher levels.
-/

namespace Calculator

/-- A token is shown by its kind, with its content in parentheses. -/
inductive Token.Shown : Token → String → Prop where
  | number (v : Value) : Shown (.number v) ("Number(" ++ v.render ++ ")")
  | name (x : String) : Shown (.name x) ("Id(\"" ++ x ++ "\")")
  | plus : Shown (.operator .plus) "Op(Plus)"
  | minus : Shown (.operator .minus) "Op(Minus)"
  | times : Shown (.operator .times) "Op(Mul)"
  | divide : Shown (.operator .divide) "Op(Div)"
  | power : Shown (.operator .power) "Op(Pow)"
  | openParen : Shown .openParen "LParen"
  | closeParen : Shown .closeParen "RParen"
  | comma : Shown .comma "Comma"

/-- The record of an event. The tree and the value are told at the level of debugging, every step on
the way at that of tracing. -/
inductive Event.Told : Event → Record → Prop where
  | lexed {t : Token} {text : String} (offset : Nat) : t.Shown text →
    Told (.lexed ⟨offset, t⟩) ⟨.trace, offset.repr ++ ": " ++ text⟩
  | called (offset : Nat) (f : Aggregate) :
    Told (.called ⟨offset, f⟩) ⟨.trace, offset.repr ++ ": call to " ++ f.name⟩
  | parsed (src : String) (e : Expr) :
    Told (.parsed src e) ⟨.debug, "parsed `" ++ src ++ "` as " ++ e.render⟩
  | applied (f : Aggregate) (vs : List Value) (v : Value) :
    Told (.applied ⟨f, vs, v⟩)
      ⟨.trace, f.name ++ "[" ++ ", ".intercalate (vs.map Value.render) ++ "] = " ++ v.render⟩
  | evaluated (e : Expr) (v : Value) :
    Told (.evaluated e v) ⟨.debug, e.render ++ " = " ++ v.render⟩

theorem Token.shown_described (t : Token) : t.Shown t.described := by
  cases t with
  | operator op => cases op <;> constructor
  | _ => constructor

theorem Event.told_record (e : Event) : e.Told e.record := by
  cases e with
  | lexed l => exact .lexed l.offset l.token.shown_described
  | called c => exact .called c.offset c.function
  | parsed src e => exact .parsed src e
  | applied a => exact .applied a.function a.args a.value
  | evaluated e v => exact .evaluated e v

namespace Trace

variable (t : Trace)

theorem filter_trace : (t.filter .trace).events = t.events :=
  List.filter_eq_self.mpr fun e _ => by simp [Level.rank]

theorem told_records : List.Forall₂ Event.Told t.events (t.records .trace) := by
  rw [records, filter_trace, List.forall₂_map_right_iff]
  exact List.forall₂_same.mpr fun e _ => e.told_record

theorem records_debug :
    t.records .debug = (t.records .trace).filter fun r => r.level = .debug := by
  rw [records, records, filter_trace, List.filter_map]
  refine congrArg (fun events => events.map Event.record)
    (congrArg (List.filter · t.events) (funext fun e => ?_))
  cases e <;> rfl

theorem records_info : t.records .info = [] := by
  have none : (t.filter .info).events = [] :=
    List.filter_eq_nil_iff.mpr fun e _ => by cases e <;> simp [Event.level, Level.rank]
  rw [records, none, List.map_nil]

end Trace

end Calculator
