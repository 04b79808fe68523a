import Calculator.Expr.Eval
import Calculator.Proofs.Subtrees
import Mathlib.Data.List.Basic

/-!
# What evaluation reads of an environment

The variables of a tree, and how its results in two environments compare. Evaluation reads the
values of these variables and nothing else, and it stops at the first one that has none. So an
error that is not about a variable does not go away when more names are given values, though
operands that come later may have variables without one.

1. `Carries`: the results of a computation in two environments.
2. `eval_carries`: the results of a tree, if its variables keep the values that they have.
3. `eval_reads_variables`: what the result of a tree depends on.
-/

namespace Calculator

namespace Expr

/-! ## Variables -/

def varName? : Expr → Option String
  | var x => some x
  | _ => none

/-- The names of the variables in the tree, from left to right, as often as they occur. -/
def vars (e : Expr) : List String := e.subtrees.filterMap varName?

theorem mem_vars {e : Expr} {x : String} : x ∈ e.vars ↔ var x ∈ e.subtrees := by
  rw [vars, List.mem_filterMap]
  constructor
  · rintro ⟨s, hs, name⟩
    cases s <;> cases name
    exact hs
  · exact fun h => ⟨var x, h, rfl⟩

@[simp] theorem vars_var (x : String) : (var x).vars = [x] := rfl

@[simp] theorem vars_neg (e : Expr) : (neg e).vars = e.vars := rfl

@[simp] theorem vars_binary (op : Operator) (l r : Expr) :
    (binary op l r).vars = l.vars ++ r.vars := by
  rw [vars, subtrees, List.filterMap_cons_none rfl, List.filterMap_append]
  rfl

@[simp] theorem vars_call (f : Aggregate) (args : List Expr) :
    (call f args).vars = args.flatMap vars := by
  rw [vars, subtrees, List.filterMap_cons_none rfl, subtreesAll_eq_flatMap,
    List.filterMap_flatMap]
  rfl

end Expr

/-! ## Results in two environments -/

/-- No variable without a value stopped the computation. -/
def Unstopped {α : Type} (r : Except Error α) : Prop := ∀ x, r ≠ .error (.undefinedVariable x)

/-- The results of a computation that reads the names `xs`, in an environment and in another one
where they keep the values that they have. If no variable stopped it, the results are the same. If
one did, they are the same as long as the variable has no value. -/
inductive Carries {α : Type} (env more : Env) (xs : List String) :
    (result result' : Except Error α) → Prop where
  | same {r : Except Error α} : Unstopped r → Carries env more xs r r
  | stopped {x : String} {r : Except Error α} : x ∈ xs → env.get? x = none →
    (more.get? x = none → r = .error (.undefinedVariable x)) →
    Carries env more xs (.error (.undefinedVariable x)) r

section

variable {α β : Type} {env more : Env} {xs ys : List String}

theorem unstopped_ok (a : α) : Unstopped (.ok a : Except Error α) := by
  intro x
  simp

theorem Unstopped.bind {r : Except Error α} {f : α → Except Error β} (hr : Unstopped r)
    (hf : ∀ a, Unstopped (f a)) : Unstopped (r >>= f) := by
  cases r with
  | ok a => exact hf a
  | error err =>
    intro x eq
    cases eq
    exact hr x rfl

theorem Carries.mono {r r' : Except Error α} (h : Carries env more xs r r') (sub : xs ⊆ ys) :
    Carries env more ys r r' := by
  cases h with
  | same unstopped => exact .same unstopped
  | stopped mem none same => exact .stopped (sub mem) none same

/-- Of two computations in a row the second is not reached if a variable stops the first. -/
theorem Carries.bind {r r' : Except Error α} {f f' : α → Except Error β}
    (first : Carries env more xs r r') (second : ∀ a, Carries env more ys (f a) (f' a)) :
    Carries env more (xs ++ ys) (r >>= f) (r' >>= f') := by
  cases first with
  | same unstopped =>
    cases r with
    | ok a => exact (second a).mono (List.subset_append_right xs ys)
    | error err =>
      refine .same fun x eq => ?_
      cases eq
      exact unstopped x rfl
  | stopped mem none same =>
    refine .stopped (List.mem_append_left ys mem) none fun none' => ?_
    rw [same none']
    rfl

theorem Carries.then {r r' : Except Error α} {f : α → Except Error β}
    (h : Carries env more xs r r') (hf : ∀ a, Unstopped (f a)) :
    Carries env more xs (r >>= f) (r' >>= f) := by
  have both : Carries env more (xs ++ []) (r >>= f) (r' >>= f) := h.bind fun a => .same (hf a)
  rwa [List.append_nil] at both

end

/-! ## Operations -/

theorem unstopped_orOverflow (v : Option Value) : Unstopped (orOverflow v) := by
  cases v <;> simp [Unstopped, orOverflow]

theorem Operator.unstopped_apply (op : Operator) (a b : Value) : Unstopped (op.apply a b) := by
  cases op with
  | plus | minus | times => exact unstopped_orOverflow _
  | power => exact unstopped_ok _
  | divide =>
    rw [apply]
    split
    · simp [Unstopped]
    · exact unstopped_orOverflow _

theorem Aggregate.unstopped_total (vs : List Value) : Unstopped (total vs) := by
  have from_any (start : Value) :
      Unstopped (vs.foldlM (fun soFar v => orOverflow (soFar.add? v)) start) := by
    induction vs generalizing start with
    | nil => exact unstopped_ok start
    | cons v vs ih =>
      rw [List.foldlM_cons]
      exact (unstopped_orOverflow _).bind ih
  exact from_any 0

theorem Aggregate.unstopped_apply (f : Aggregate) (vs : List Value) : Unstopped (f.apply vs) := by
  cases f with
  | sum => exact unstopped_total vs
  | average =>
    cases vs with
    | nil => simp [Unstopped, apply]
    | cons v vs => exact (unstopped_total _).bind fun total => unstopped_ok _

/-! ## Evaluation -/

namespace Expr

variable {env more : Env} {x : String}

theorem evalAll_carries {es : List Expr}
    (h : ∀ e ∈ es, Carries env more e.vars (e.eval env) (e.eval more)) :
    Carries env more (es.flatMap vars) (evalAll env es) (evalAll more es) := by
  induction es with
  | nil => exact .same (unstopped_ok [])
  | cons e es ih =>
    obtain ⟨first, others⟩ := List.forall_mem_cons.mp h
    rw [evalAll_cons, evalAll_cons, List.flatMap_cons]
    exact first.bind fun v => (ih others).then fun vs => unstopped_ok (v :: vs)

/-- Where the variables of a tree keep the values that they have, its results compare. -/
theorem eval_carries {e : Expr}
    (keeps : ∀ x ∈ e.vars, ∀ v, env.get? x = some v → more.get? x = some v) :
    Carries env more e.vars (e.eval env) (e.eval more) := by
  induction e with
  | number v => exact .same (unstopped_ok v)
  | var x =>
    have mem : x ∈ (var x).vars := List.mem_singleton.mpr rfl
    rw [eval_var, eval_var]
    cases value : env.get? x with
    | some v =>
      rw [keeps x mem v value]
      exact .same (unstopped_ok v)
    | none =>
      refine .stopped mem value fun none' => ?_
      rw [none']
  | call f args ih =>
    rw [vars_call] at keeps ⊢
    rw [eval_call, eval_call]
    refine (evalAll_carries fun e he => ih e he fun x hx => ?_).then f.unstopped_apply
    exact keeps x (List.mem_flatMap.mpr ⟨e, he, hx⟩)
  | neg e ih =>
    rw [eval_neg, eval_neg]
    exact (ih keeps).then fun v => unstopped_orOverflow _
  | binary op l r ihl ihr =>
    rw [vars_binary] at keeps ⊢
    obtain ⟨left, right⟩ := List.forall_mem_append.mp keeps
    rw [eval_binary, eval_binary]
    exact (ihl left).bind fun a => (ihr right).then (op.unstopped_apply a)

theorem eval_eq_undefinedVariable {e : Expr} (h : e.eval env = .error (.undefinedVariable x)) :
    x ∈ e.vars ∧ env.get? x = none := by
  have carries : Carries env env e.vars (e.eval env) (e.eval env) :=
    eval_carries fun _ _ _ value => value
  rw [h] at carries
  cases carries with
  | same unstopped => exact absurd rfl (unstopped x)
  | stopped mem none _ => exact ⟨mem, none⟩

theorem eval_congr {e : Expr} (agree : ∀ x ∈ e.vars, env.get? x = more.get? x) :
    e.eval env = e.eval more := by
  have carries : Carries env more e.vars (e.eval env) (e.eval more) :=
    eval_carries fun x hx v value => (agree x hx).symm.trans value
  generalize e.eval env = r, e.eval more = r' at carries ⊢
  cases carries with
  | same => rfl
  | stopped mem none same => exact (same ((agree _ mem).symm.trans none)).symm

theorem eval_of_keeps {e : Expr}
    (keeps : ∀ x ∈ e.vars, ∀ v, env.get? x = some v → more.get? x = some v)
    (unstopped : Unstopped (e.eval env)) : e.eval more = e.eval env := by
  have carries := eval_carries keeps
  generalize e.eval env = r, e.eval more = r' at carries unstopped ⊢
  cases carries with
  | same => rfl
  | stopped => exact absurd rfl (unstopped _)

end Expr

/-- The result of a tree depends on the values of its variables only. If a variable without a value
stops the evaluation, it is one of the tree and has no value. Any other result, be it a value or an
error, stays the same when names without a value are given values. -/
theorem eval_reads_variables (e : Expr) :
    (∀ env env' : Env, (∀ x ∈ e.vars, env.get? x = env'.get? x) → e.eval env = e.eval env') ∧
    (∀ (env : Env) x, e.eval env = .error (.undefinedVariable x) →
      x ∈ e.vars ∧ env.get? x = none) ∧
    ∀ (env : Env) (pairs : List (String × Value)), (∀ p ∈ pairs, env.get? p.1 = none) →
      (∀ x, e.eval env ≠ .error (.undefinedVariable x)) →
      e.eval (env.extend pairs) = e.eval env := by
  refine ⟨fun env env' => Expr.eval_congr, fun env x => Expr.eval_eq_undefinedVariable,
    fun env pairs further unstopped => Expr.eval_of_keeps (fun x _ v value => ?_) unstopped⟩
  -- A name with a value is none of the further ones.
  have unwritten : pairs.reverse.lookup x = none := by
    rw [List.lookup_eq_none_iff]
    intro p hp
    have ne : x ≠ p.1 := by
      rintro rfl
      rw [further p (List.mem_reverse.mp hp)] at value
      cases value
    simpa using ne
  rw [Env.get?_extend, unwritten, value]
  rfl

/-- A zero divisor is reported whether or not a variable to the right of it has a value, and a
variable to the left of it is missed first. -/
theorem eval_reads_variables_quotient :
    let e : Expr := .binary .plus (.binary .divide (.var "A") (.number 0)) (.var "B")
    let env : Env := .ofList [("A", .clamp 1)]
    e.eval env = .error .divisionByZero ∧
    e.eval (env.extend [("C", .clamp 3)]) = e.eval env ∧
    e.eval (env.extend [("B", .clamp 2), ("C", .clamp 3)]) = e.eval env ∧
    e.eval ∅ = .error (.undefinedVariable "A") ∧ "A" ∈ e.vars ∧ Env.get? ∅ "A" = none := by
  intro e env
  obtain ⟨congr, missing, further⟩ := eval_reads_variables e
  have quotient : e.eval env = .error .divisionByZero := by decide +kernel
  have missed : e.eval ∅ = .error (.undefinedVariable "A") := by decide +kernel
  refine ⟨quotient, congr _ _ (by decide +kernel), further _ _ (by decide +kernel) fun x => ?_,
    missed, missing _ _ missed⟩
  rw [quotient]
  simp

end Calculator
