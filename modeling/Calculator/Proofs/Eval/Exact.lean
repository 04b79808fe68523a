import Calculator.Expr.Eval
import Calculator.Proofs.Eval.Postorder
import Mathlib.Data.List.Infix

/-!
# Exact arithmetic

What a tree is worth over the integers without bounds, and what is wrong with a node there. Powers
and means are those of values, as floating point gives them. Evaluation is exact: it gives this
number if nothing is wrong with any node, and otherwise the error of the first node, operands first
and from left to right, that something is wrong with.

1. `Expr.exact`, `Expr.fault?`: the exact number of a tree, and the fault of a single node.
2. `eval_outcome`: evaluation follows the nodes in order up to the first fault.
3. `eval_exact`: the same, as what it takes for a value and for each error.
-/

namespace Calculator

/-! ## Exact numbers and faults -/

def InRange (n : Int) : Prop := Value.least.toInt ≤ n ∧ n ≤ Value.greatest.toInt

instance (n : Int) : Decidable (InRange n) := inferInstanceAs (Decidable (_ ∧ _))

def outOfRange? (n : Int) : Option Error := if InRange n then none else some .overflow

namespace Operator

/-- The operator on integers. A quotient is rounded toward zero. A power is that of values, so it is
of no use on other integers. -/
def exact : Operator → Int → Int → Int
  | plus, a, b => a + b
  | minus, a, b => a - b
  | times, a, b => a * b
  | divide, a, b => a.tdiv b
  | power, a, b => ((Value.clamp a).pow (Value.clamp b)).toInt

/-- What is wrong with the operator on these integers. A zero divisor comes before the range. -/
def fault? (op : Operator) (a b : Int) : Option Error :=
  if op = divide ∧ b = 0 then some .divisionByZero else outOfRange? (op.exact a b)

end Operator

/-- The integers added to `start`, from the left. -/
def sumFrom (start : Int) (ns : List Int) : Int := ns.foldl (· + ·) start

/-- What is wrong with adding the integers to `start`: some partial sum is out of range. -/
def sumFault? (start : Int) (ns : List Int) : Option Error :=
  if ∀ part ∈ ns.inits, InRange (sumFrom start part) then none else some .overflow

namespace Aggregate

/-- The function on integers. A mean is that of a value. -/
def exact : Aggregate → List Int → Int
  | sum, ns => sumFrom 0 ns
  | average, ns => ((Value.clamp (sumFrom 0 ns)).mean ns.length).toInt

/-- What is wrong with the function on these integers. That there are none comes before their sum.
-/
def fault? : Aggregate → List Int → Option Error
  | average, [] => some .emptyArguments
  | _, ns => sumFault? 0 ns

end Aggregate

namespace Expr

mutual
/-- The number of the tree over the integers. A variable without a value is zero. -/
def exact (env : Env) : Expr → Int
  | number v => v.toInt
  | var x => ((env.get? x).getD 0).toInt
  | call f args => f.exact (exactAll env args)
  | neg e => -e.exact env
  | binary op l r => op.exact (l.exact env) (r.exact env)

def exactAll (env : Env) : List Expr → List Int
  | [] => []
  | e :: es => e.exact env :: exactAll env es
end

/-- What is wrong with the node itself, if its operands have their exact numbers. -/
def fault? (env : Env) : Expr → Option Error
  | number _ => none
  | var x => if env.get? x = none then some (.undefinedVariable x) else none
  | call f args => f.fault? (exactAll env args)
  | neg e => outOfRange? (-e.exact env)
  | binary op l r => op.fault? (l.exact env) (r.exact env)

end Expr

/-! ## Outcomes -/

section

variable {α β : Type}

/-- The outcome is the error that is expected, or if none is, a result that is as it should be. -/
def Outcome (fault : Option Error) (good : α → Prop) : Except Error α → Prop
  | .ok a => fault = none ∧ good a
  | .error err => fault = some err

/-- Of two computations in a row the second is reached if nothing is wrong in the first. -/
theorem Outcome.bind {fault fault' : Option Error} {good : α → Prop} {good' : β → Prop}
    {x : Except Error α} {f : α → Except Error β} (hx : Outcome fault good x)
    (hf : ∀ a, good a → Outcome fault' good' (f a)) :
    Outcome (fault.or fault') good' (x >>= f) := by
  cases x with
  | error err =>
    obtain rfl : fault = some err := hx
    rfl
  | ok a =>
    obtain ⟨rfl, ha⟩ := hx
    exact hf a ha

theorem Outcome.map {fault : Option Error} {good : α → Prop} {good' : β → Prop}
    {x : Except Error α} {f : α → β} (hx : Outcome fault good x)
    (hf : ∀ a, good a → good' (f a)) : Outcome fault good' (x >>= fun a => .ok (f a)) := by
  have both : Outcome (fault.or none) good' (x >>= fun a => .ok (f a)) :=
    hx.bind fun a ha => ⟨rfl, hf a ha⟩
  rwa [Option.or_none] at both

theorem outcome_ofInt? (n : Int) :
    Outcome (outOfRange? n) (fun v => v.toInt = n) (orOverflow (Value.ofInt? n)) := by
  unfold outOfRange? InRange
  cases value : Value.ofInt? n with
  | some v =>
    obtain rfl := Value.ofInt?_eq_some_iff.mp value
    exact ⟨if_pos ⟨v.lower, v.upper⟩, rfl⟩
  | none =>
    have out := Value.ofInt?_eq_none_iff.mp value
    refine if_neg fun inside => ?_
    simp only [Value.least, Value.greatest] at inside
    omega

end

/-! ## Operations -/

theorem outOfRange?_toInt (v : Value) : outOfRange? v.toInt = none := if_pos ⟨v.lower, v.upper⟩

theorem Operator.apply_outcome (op : Operator) (a b : Value) :
    Outcome (op.fault? a.toInt b.toInt) (fun v => v.toInt = op.exact a.toInt b.toInt)
      (op.apply a b) := by
  cases op with
  | plus => exact outcome_ofInt? _
  | minus => exact outcome_ofInt? _
  | times => exact outcome_ofInt? _
  | divide =>
    rw [apply, fault?]
    by_cases zero : b = 0
    · rw [if_pos zero]
      exact if_pos ⟨rfl, congrArg Value.toInt zero⟩
    · have nonzero : ¬ (divide = divide ∧ b.toInt = 0) := fun h => zero (Value.ext h.2)
      rw [if_neg zero, if_neg nonzero]
      exact outcome_ofInt? _
  | power =>
    have same : (a.pow b).toInt = power.exact a.toInt b.toInt := by
      rw [exact, Value.clamp_toInt, Value.clamp_toInt]
    have free : power.fault? a.toInt b.toInt = none := by
      rw [fault?, if_neg (fun h => nomatch h.1), ← same]
      exact outOfRange?_toInt _
    exact ⟨free, same⟩

namespace Aggregate

/-- To add to a value the first integer has to be added, and then the others to that sum. -/
theorem sumFault?_cons (start : Value) (n : Int) (ns : List Int) :
    sumFault? start.toInt (n :: ns) =
      (outOfRange? (start.toInt + n)).or (sumFault? (start.toInt + n) ns) := by
  have parts : (∀ part ∈ (n :: ns).inits, InRange (sumFrom start.toInt part)) ↔
      ∀ part ∈ ns.inits, InRange (sumFrom (start.toInt + n) part) := by
    have inside : InRange start.toInt := ⟨start.lower, start.upper⟩
    simp [sumFrom, inside]
  unfold sumFault? outOfRange?
  simp only [parts]
  by_cases next : InRange (start.toInt + n)
  · rw [if_pos next, Option.none_or]
  · have broken : ¬ ∀ part ∈ ns.inits, InRange (sumFrom (start.toInt + n) part) :=
      fun all => next (all [] (List.mem_inits [] ns |>.mpr List.nil_prefix))
    rw [if_neg next, if_neg broken]
    rfl

theorem foldlM_outcome (start : Value) (vs : List Value) :
    Outcome (sumFault? start.toInt (vs.map Value.toInt))
      (fun v => v.toInt = sumFrom start.toInt (vs.map Value.toInt))
      (vs.foldlM (fun soFar v => orOverflow (soFar.add? v)) start) := by
  induction vs generalizing start with
  | nil =>
    have inside : InRange start.toInt := ⟨start.lower, start.upper⟩
    exact ⟨if_pos (by simpa [sumFrom] using inside), rfl⟩
  | cons v vs ih =>
    rw [List.foldlM_cons, List.map_cons, sumFault?_cons]
    refine (outcome_ofInt? (start.toInt + v.toInt)).bind fun next hnext => ?_
    rw [sumFrom, List.foldl_cons, ← hnext]
    exact ih next

theorem apply_outcome (f : Aggregate) (vs : List Value) :
    Outcome (f.fault? (vs.map Value.toInt)) (fun v => v.toInt = f.exact (vs.map Value.toInt))
      (f.apply vs) := by
  cases f with
  | sum => exact foldlM_outcome 0 vs
  | average =>
    cases vs with
    | nil => rfl
    | cons v vs =>
      refine (foldlM_outcome 0 (v :: vs)).map fun total sum => ?_
      rw [exact]
      show (total.mean _).toInt = ((Value.clamp (sumFrom (0 : Value).toInt _)).mean _).toInt
      rw [← sum, Value.clamp_toInt, List.length_map]

end Aggregate

/-! ## Evaluation -/

namespace Expr

theorem evalAll_outcome {env : Env} {es : List Expr}
    (h : ∀ e ∈ es, Outcome (e.postorder.findSome? (fault? env)) (fun v => v.toInt = e.exact env)
      (e.eval env)) :
    Outcome ((postorderAll es).findSome? (fault? env))
      (fun vs => vs.map Value.toInt = exactAll env es) (evalAll env es) := by
  induction es with
  | nil => exact ⟨rfl, rfl⟩
  | cons e es ih =>
    obtain ⟨first, others⟩ := List.forall_mem_cons.mp h
    rw [postorderAll, List.findSome?_append, evalAll_cons]
    refine first.bind fun v hv => ?_
    refine (ih others).map fun vs hvs => ?_
    rw [List.map_cons, hv, hvs, exactAll]

/-- Evaluation goes through the nodes in order up to the first fault. -/
theorem eval_outcome (env : Env) (e : Expr) :
    Outcome (e.postorder.findSome? (fault? env)) (fun v => v.toInt = e.exact env) (e.eval env) := by
  -- What is left of a node once its operands are computed is its own operation.
  induction e with
  | number v => exact ⟨rfl, rfl⟩
  | var x =>
    rw [eval_var]
    cases value : env.get? x with
    | none => simp [Outcome, postorder, fault?, value]
    | some v => simp [Outcome, postorder, fault?, exact, value]
  | call f args ih =>
    rw [eval_call, postorder, List.findSome?_append]
    refine (evalAll_outcome ih).bind fun vs hvs => ?_
    have own := f.apply_outcome vs
    rw [hvs] at own
    simpa [exact, fault?] using own
  | neg e ih =>
    rw [eval_neg, postorder, List.findSome?_append]
    refine ih.bind fun v hv => ?_
    have own := outcome_ofInt? (-v.toInt)
    rw [hv] at own
    simpa [exact, fault?, Value.neg?, hv] using own
  | binary op l r ihl ihr =>
    rw [eval_binary, postorder, List.findSome?_append, List.findSome?_append, Option.or_assoc]
    refine ihl.bind fun a ha => ihr.bind fun b hb => ?_
    have own := op.apply_outcome a b
    rw [ha, hb] at own
    simpa [exact, fault?] using own

theorem eval_eq_error_iff {env : Env} {e : Expr} {err : Error} :
    e.eval env = .error err ↔ e.postorder.findSome? (fault? env) = some err := by
  have outcome := eval_outcome env e
  cases result : e.eval env with
  | ok v =>
    rw [result] at outcome
    simp [outcome.1]
  | error err' =>
    rw [result] at outcome
    rw [show e.postorder.findSome? (fault? env) = some err' from outcome]
    simp

theorem eval_eq_ok_iff {env : Env} {e : Expr} {v : Value} :
    e.eval env = .ok v ↔ v.toInt = e.exact env ∧ ∀ s ∈ e.postorder, s.fault? env = none := by
  have outcome := eval_outcome env e
  rw [← List.findSome?_eq_none_iff]
  cases result : e.eval env with
  | ok w =>
    rw [result] at outcome
    obtain ⟨free, exact_w⟩ := outcome
    rw [← exact_w, Except.ok.injEq, Value.ext_iff]
    exact ⟨fun same => ⟨same.symm, free⟩, fun h => h.1.symm⟩
  | error err =>
    rw [eval_eq_error_iff.mp result]
    simp

theorem exists_eval_of_free {env : Env} {e : Expr} (free : ∀ s ∈ e.postorder, s.fault? env = none) :
    ∃ v, e.eval env = .ok v := by
  cases result : e.eval env with
  | ok v => exact ⟨v, rfl⟩
  | error err =>
    have fault := eval_eq_error_iff.mp result
    rw [List.findSome?_eq_none_iff.mpr free] at fault
    cases fault

theorem mem_postorderAll {es : List Expr} {e s : Expr} (he : e ∈ es) (hs : s ∈ e.postorder) :
    s ∈ postorderAll es := by
  rw [postorderAll_eq_flatMap]
  exact List.mem_flatMap.mpr ⟨e, he, hs⟩

end Expr

/-- Evaluation is exact integer arithmetic, and its error is the leftmost one. A value is the exact
number of a tree in which no node has a fault. An error is the fault of the first node, in the order
of evaluation, that has one, and the operands of this node do have values. -/
theorem eval_exact (env : Env) (e : Expr) :
    (∀ v, e.eval env = .ok v ↔
      v.toInt = e.exact env ∧ ∀ s ∈ e.postorder, s.fault? env = none) ∧
    ∀ err, e.eval env = .error err ↔ ∃ before s after, e.postorder = before ++ s :: after ∧
      (∀ t ∈ before, t.fault? env = none) ∧ (∀ o ∈ s.operands, ∃ v, o.eval env = .ok v) ∧
      s.fault? env = some err := by
  refine ⟨fun v => Expr.eval_eq_ok_iff, fun err => ?_⟩
  rw [Expr.eval_eq_error_iff, List.findSome?_eq_some_iff]
  constructor
  · intro first
    obtain ⟨before, s, after, split, fault, free⟩ := first
    refine ⟨before, s, after, split, free, fun o ho => ?_, fault⟩
    -- The nodes of an operand are before the node, so none of them has a fault.
    obtain ⟨outside, rfl⟩ := Expr.eq_append_of_postorder split
    refine Expr.exists_eval_of_free fun t ht => free t ?_
    exact List.mem_append_right outside (Expr.mem_postorderAll ho ht)
  · intro first
    obtain ⟨before, s, after, split, free, -, fault⟩ := first
    exact ⟨before, s, after, split, fault, free⟩

/-- A partial sum that is out of range is a fault, even if the whole sum is in range again. -/
example :
    let e : Expr := .call .sum
      [.number .greatest, .number ⟨1, by decide, by decide⟩, .number ⟨-1, by decide, by decide⟩]
    e.exact ∅ = Value.greatest.toInt ∧ e.eval ∅ = .error .overflow := by decide

end Calculator
