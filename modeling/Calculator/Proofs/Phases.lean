import Calculator.Proofs.Eval.Exact
import Calculator.Proofs.Lexer.Layout
import Calculator.Trace

/-!
# Phases

An error is found either in the text, before anything is computed, or in the computation. The kind
of the error tells which: reading a text gives errors of the text only, whatever the text, and
computing a tree gives none of them, whatever the tree.

1. `isSyntax_of_parse`, `isSyntax_of_eval`: what either phase can report.
2. `errors_by_phase`: what the error of a source text says of the two phases.
-/

namespace Calculator

/-! ## Errors of the text -/

theorem isSyntax_of_tokenize {src : String} {err : Error} (h : tokenize src = .error err) :
    err.isSyntax = true := by
  rcases (lexes_scan 0 src.toList).fault_eq (fault_of_tokenize h) with ⟨p, rfl⟩ | ⟨p, rfl⟩ <;> rfl

theorem Parser.Failure.isSyntax_toError (stop : Nat) (failure : Failure) :
    (failure.toError stop).isSyntax = true := by
  cases failure with
  | unexpected p found expected => cases found <;> rfl
  | _ => rfl

theorem isSyntax_of_parseLexemes {src : String} {lexemes : List Lexeme} {err : Error}
    (h : (parseLexemes src lexemes).1 = .error err) : err.isSyntax = true := by
  unfold parseLexemes at h
  split at h
  · cases h
  · next failure _ _ =>
    cases h
    exact failure.isSyntax_toError _

theorem isSyntax_of_parse {src : String} {err : Error} (h : parse src = .error err) :
    err.isSyntax = true := by
  unfold parse at h
  cases tokens : tokenize src with
  | error err' =>
    rw [tokens] at h
    cases h
    exact isSyntax_of_tokenize tokens
  | ok lexemes =>
    rw [tokens] at h
    exact isSyntax_of_parseLexemes h

/-! ## Errors of the computation -/

theorem isSyntax_of_outOfRange? {n : Int} {err : Error} (h : outOfRange? n = some err) :
    err.isSyntax = false := by
  unfold outOfRange? at h
  split at h <;> cases h
  rfl

theorem Operator.isSyntax_of_fault? {op : Operator} {a b : Int} {err : Error}
    (h : op.fault? a b = some err) : err.isSyntax = false := by
  unfold fault? at h
  split at h
  · cases h
    rfl
  · exact isSyntax_of_outOfRange? h

theorem isSyntax_of_sumFault? {start : Int} {ns : List Int} {err : Error}
    (h : sumFault? start ns = some err) : err.isSyntax = false := by
  unfold sumFault? at h
  split at h <;> cases h
  rfl

theorem Aggregate.isSyntax_of_fault? {f : Aggregate} {ns : List Int} {err : Error}
    (h : f.fault? ns = some err) : err.isSyntax = false := by
  unfold fault? at h
  split at h
  · cases h
    rfl
  · exact isSyntax_of_sumFault? h

namespace Expr

theorem isSyntax_of_fault? {env : Env} {e : Expr} {err : Error} (h : e.fault? env = some err) :
    err.isSyntax = false := by
  cases e with
  | number v => cases h
  | var x =>
    rw [fault?] at h
    split at h <;> cases h
    rfl
  | call f args => exact Aggregate.isSyntax_of_fault? h
  | neg e => exact isSyntax_of_outOfRange? h
  | binary op l r => exact Operator.isSyntax_of_fault? h

theorem isSyntax_of_eval {env : Env} {e : Expr} {err : Error} (h : e.eval env = .error err) :
    err.isSyntax = false := by
  obtain ⟨s, -, fault⟩ := List.exists_of_findSome?_eq_some (eval_eq_error_iff.mp h)
  exact isSyntax_of_fault? fault

end Expr

/-! ## Both phases -/

theorem evaluate_of_parse_error {src : String} {err : Error} (h : parse src = .error err)
    (env : Env) : evaluate src env = .error err := by
  rw [evaluate, h]
  rfl

theorem evaluate_of_parse_ok {src : String} {e : Expr} (h : parse src = .ok e) (env : Env) :
    evaluate src env = e.eval env := by
  rw [evaluate, h]
  rfl

/-- The error of a source text is one of the text if the text cannot be read, and it is the error of
reading it then. Any other error is that of the tree. Reading has errors of the text only, and
computing has none of them, even for trees that are in no text. -/
theorem errors_by_phase :
    (∀ src env err, evaluate src env = .error err →
      (err.isSyntax = true ↔ ∃ err', parse src = .error err') ∧
      (err.isSyntax = true → parse src = .error err) ∧
      (err.isSyntax = false → ∃ e, parse src = .ok e ∧ e.eval env = .error err)) ∧
    (∀ src err, parse src = .error err → err.isSyntax = true) ∧
    ∀ env (e : Expr) err, e.eval env = .error err → err.isSyntax = false := by
  refine ⟨fun src env err h => ?_, fun src err => isSyntax_of_parse, fun env e err =>
    Expr.isSyntax_of_eval⟩
  cases parsed : parse src with
  | error err' =>
    rw [evaluate_of_parse_error parsed] at h
    cases h
    have syntactic := isSyntax_of_parse parsed
    simp [syntactic]
  | ok e =>
    rw [evaluate_of_parse_ok parsed] at h
    have computed := Expr.isSyntax_of_eval h
    simp [computed, h]

/-- A name that is no function is an error of the text even where a divisor before it is zero, and a
divisor is an error of the computation. A tree that is in no text has no error of the text. -/
theorem errors_by_phase_division :
    parse "1 / 0 + F(2)" = .error (.unknownFunction "F" 8) ∧
    evaluate "1 / 0 + X" ∅ = .error .divisionByZero ∧
    (∃ e, parse "1 / 0 + X" = .ok e ∧ e.eval ∅ = .error .divisionByZero) ∧
    Error.isSyntax (.unknownFunction "F" 8) = true ∧
    Expr.eval ∅ (.var "1 / 0") = .error (.undefinedVariable "1 / 0") ∧
    Error.isSyntax (.undefinedVariable "1 / 0") = false := by
  obtain ⟨whole, reading, computing⟩ := errors_by_phase
  have read : parse "1 / 0 + F(2)" = .error (.unknownFunction "F" 8) := by decide +kernel
  have failed : evaluate "1 / 0 + X" ∅ = .error .divisionByZero := by decide +kernel
  have unbound : Expr.eval ∅ (.var "1 / 0") = .error (.undefinedVariable "1 / 0") := by
    decide +kernel
  exact ⟨read, failed, (whole _ _ _ failed).2.2 rfl, reading _ _ read, unbound,
    computing _ _ _ unbound⟩

end Calculator
