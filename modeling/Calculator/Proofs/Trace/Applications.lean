import Calculator.Proofs.Eval.Postorder
import Calculator.Proofs.Trace.Calls
import Calculator.Trace
import Mathlib.Data.List.Perm.Basic
import Mathlib.Data.List.TakeWhile

/-!
# The calls that are evaluated

A trace records a call when its value is known. Evaluation goes through the nodes in order up to the
first that has no value, so the calls that are recorded are those of the nodes before it, with the
values that evaluation gives for the call and for its arguments.

1. `Follows`: an evaluation goes through nodes and records the calls among them.
2. `evalTraced_eq`: what is recorded, and that recording it changes nothing about the value.
3. `length_applied_eq`: of a tree that has a value every call is recorded once.
-/

namespace Calculator

namespace Expr

/-- The call of the node, if it has a value: with the values of its arguments and its own. -/
def application? (env : Env) : Expr → Option Application
  | call f args =>
    match evalAll env args, eval env (call f args) with
    | .ok vs, .ok v => some ⟨f, vs, v⟩
    | _, _ => none
  | _ => none

/-- The calls among the nodes before the first one that has no value. -/
def applied (env : Env) (nodes : List Expr) : List Application :=
  (nodes.takeWhile fun e => (e.eval env).isOk).filterMap (application? env)

section

variable {env : Env} {nodes others : List Expr}

theorem applied_append_of_ok (h : ∀ s ∈ nodes, (s.eval env).isOk = true) :
    applied env (nodes ++ others) = applied env nodes ++ applied env others := by
  rw [applied, List.takeWhile_append_of_pos h, List.filterMap_append, applied,
    List.takeWhile_eq_self_iff.mpr h, applied]

theorem applied_append_of_error (h : ¬ ∀ s ∈ nodes, (s.eval env).isOk = true) :
    applied env (nodes ++ others) = applied env nodes := by
  induction nodes with
  | nil => exact absurd (by simp) h
  | cons s nodes ih =>
    by_cases ok : (s.eval env).isOk = true
    · have later : ¬ ∀ s ∈ nodes, (s.eval env).isOk = true :=
        fun all => h (List.forall_mem_cons.mpr ⟨ok, all⟩)
      have rest := ih later
      rw [applied, applied] at rest
      simp [applied, List.filterMap_cons, ok, rest]
    · simp [applied, ok]

theorem applied_singleton (e : Expr) : applied env [e] = (application? env e).toList := by
  by_cases ok : (e.eval env).isOk = true
  · cases found : application? env e <;> simp [applied, ok, found]
  · have none_of_error : application? env e = none := by
      unfold application?
      split
      · split
        · next value => simp [value, Except.isOk, Except.toBool] at ok
        · rfl
      · rfl
    simp [applied, ok, none_of_error]

end

/-! ## Evaluations that record -/

/-- An evaluation that records the calls it comes past. -/
abbrev Recorded (α : Type) := EStateM Error (Array Application) α

def record (a : Application) : Recorded Unit := modify (·.push a)

section

variable {α β : Type} {env : Env} {nodes others : List Expr}

/-- The result, with these calls after those that were noted before. -/
def outcome (r : Except Error α) (log : Array Application) (as : List Application) :
    EStateM.Result Error (Array Application) α :=
  match r with
  | .ok a => .ok a (log ++ as.toArray)
  | .error err => .error err (log ++ as.toArray)

theorem outcome_append (r : Except Error α) (log : Array Application) (as bs : List Application) :
    outcome r (log ++ as.toArray) bs = outcome r log (as ++ bs) := by
  cases r <;> simp [outcome]

/-- The evaluation gives this, and goes through the nodes in order up to the first one that has no
value, if there is one. -/
structure Follows (env : Env) (p : Recorded α) (r : Except Error α) (nodes : List Expr) : Prop where
  run : ∀ log, p log = outcome r log (applied env nodes)
  ok_iff : r.isOk = true ↔ ∀ s ∈ nodes, (s.eval env).isOk = true

theorem Follows.bind {p : Recorded α} {r : Except Error α} {f : α → Recorded β}
    {g : α → Except Error β} (h : Follows env p r nodes)
    (next : ∀ a, r = .ok a → Follows env (f a) (g a) others) :
    Follows env (p >>= f) (r >>= g) (nodes ++ others) := by
  cases r with
  | ok a =>
    obtain ⟨run, ok_iff⟩ := next a rfl
    have all := h.ok_iff.mp rfl
    refine ⟨fun log => ?_, ?_⟩
    · show EStateM.bind p f log = outcome (g a) log _
      rw [EStateM.bind, h.run, applied_append_of_ok all, ← outcome_append]
      exact run _
    · rw [List.forall_mem_append]
      exact ok_iff.trans ⟨fun h => ⟨all, h⟩, fun h => h.2⟩
  | error err =>
    have fails : ¬ ∀ s ∈ nodes, (s.eval env).isOk = true := mt h.ok_iff.mpr nofun
    refine ⟨fun log => ?_, ?_⟩
    · show EStateM.bind p f log = outcome (.error err) log _
      rw [EStateM.bind, h.run, applied_append_of_error fails]
      rfl
    · rw [List.forall_mem_append]
      exact ⟨nofun, fun h => absurd h.1 fails⟩

theorem Follows.pure (a : α) : Follows env (pure a) (.ok a) [] :=
  ⟨fun _ => congrArg (EStateM.Result.ok a) Array.append_empty.symm, fun _ => nofun, fun _ => rfl⟩

/-- What a node does once its operands are evaluated, if it is no call. -/
theorem Follows.node {e : Expr} {r : Except Error Value} (value : e.eval env = r)
    (no_call : e.application? env = none) : Follows env (ofExcept r : Recorded Value) r [e] := by
  have nothing : applied env [e] = [] := by
    rw [applied_singleton, no_call]
    rfl
  refine ⟨fun log => ?_, by simp [value]⟩
  rw [nothing]
  cases r <;> rfl

theorem Follows.call {f : Aggregate} {args : List Expr} {vs : List Value}
    (values : evalAll env args = .ok vs) :
    Follows env (do
      let v ← (ofExcept (f.apply vs) : Recorded Value)
      record ⟨f, vs, v⟩
      return v) (f.apply vs) [.call f args] := by
  have value : (Expr.call f args).eval env = f.apply vs := by
    rw [eval_call, values]
    rfl
  refine ⟨fun log => ?_, by simp [value]⟩
  rw [applied_singleton, application?, values, value]
  cases f.apply vs with
  | ok v =>
    show EStateM.Result.ok v (log.push ⟨f, vs, v⟩) = .ok v (log ++ #[⟨f, vs, v⟩])
    rw [Array.push_eq_append]
  | error err => rfl

theorem evalAllWith_follows {es : List Expr}
    (h : ∀ e ∈ es, Follows env (e.evalWith record env) (e.eval env) e.postorder) :
    Follows env (evalAllWith record env es) (evalAll env es) (postorderAll es) := by
  induction es with
  | nil => exact .pure []
  | cons e es ih =>
    obtain ⟨first, others⟩ := List.forall_mem_cons.mp h
    rw [evalAllWith, evalAll_cons, postorderAll, ← List.append_nil (postorderAll es)]
    exact first.bind fun v _ => (ih others).bind fun vs _ => .pure (v :: vs)

theorem evalWith_follows (env : Env) (e : Expr) :
    Follows env (e.evalWith record env) (e.eval env) e.postorder := by
  induction e with
  | number v => exact .node (e := .number v) rfl rfl
  | var x =>
    refine Eq.mp ?_ (Follows.node (e := .var x) (eval_var env x) rfl)
    rw [postorder, evalWith, eval_var]
    cases env.get? x <;> rfl
  | call f args ih =>
    rw [evalWith, eval_call, postorder]
    exact (evalAllWith_follows ih).bind fun vs values => .call values
  | neg e ih =>
    rw [evalWith, eval_neg, postorder]
    refine ih.bind fun v value => .node ?_ rfl
    rw [eval_neg, value]
    rfl
  | binary op l r ihl ihr =>
    rw [evalWith, eval_binary, postorder, List.append_assoc]
    refine ihl.bind fun a left => ihr.bind fun b right => .node ?_ rfl
    rw [eval_binary, left, right]
    rfl

/-- A trace has the value of the tree, and the calls of the nodes before the first one that has no
value. -/
theorem evalTraced_eq (env : Env) (e : Expr) :
    e.evalTraced env = (e.eval env, applied env e.postorder) := by
  have run : e.evalWith (fun a => (modify (·.push a) : Recorded Unit)) env #[] =
      outcome (e.eval env) #[] (applied env e.postorder) := (evalWith_follows env e).run #[]
  simp only [evalTraced, run]
  cases e.eval env <;> simp [outcome]

/-! ## Counting -/

theorem perm_postorder (e : Expr) : e.postorder.Perm e.subtrees := by
  induction e with
  | number v | var x => exact List.Perm.refl _
  | call f args ih =>
    rw [postorder, subtrees, postorderAll_eq_flatMap, subtreesAll_eq_flatMap]
    exact (List.perm_append_singleton _ _).trans ((List.Perm.flatMap_left args ih).cons _)
  | neg e ih =>
    rw [postorder, subtrees]
    exact (List.perm_append_singleton _ _).trans (ih.cons _)
  | binary op l r ihl ihr =>
    rw [postorder, subtrees]
    exact (List.perm_append_singleton _ _).trans ((ihl.append ihr).cons _)

theorem function_application? {s : Expr} (ok : (s.eval env).isOk = true) :
    (application? env s).map Application.function = s.function? := by
  cases s with
  | call f args =>
    rw [application?]
    cases values : evalAll env args with
    | error err =>
      rw [eval_call, values] at ok
      cases ok
    | ok vs =>
      cases value : (call f args).eval env with
      | error err =>
        rw [value] at ok
        cases ok
      | ok v => rfl
  | _ => rfl

theorem map_function_applied {e : Expr} {v : Value} (value : e.eval env = .ok v) :
    (applied env e.postorder).map Application.function = e.postorder.filterMap function? := by
  have all := (evalWith_follows env e).ok_iff.mp (by rw [value]; rfl)
  rw [applied, List.takeWhile_eq_self_iff.mpr all, List.map_filterMap]
  exact List.filterMap_congr fun s hs => function_application? (all s hs)

/-- Of a tree that has a value every call is recorded once. -/
theorem length_applied_eq {e : Expr} {v : Value} (value : e.eval env = .ok v) :
    (applied env e.postorder).length = (e.subtrees.filterMap function?).length := by
  rw [← List.length_map Application.function, map_function_applied value]
  exact (e.perm_postorder.filterMap _).length_eq

end

end Expr

end Calculator
