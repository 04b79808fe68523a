import Calculator.Proofs.Eval.Exact

/-!
# Sums and additions

The sum of arguments against the same arguments with `+` between them. The function has all values
before it adds the first two; the operators add a value to the partial sum as soon as there is one.
So both meet the same two faults, that of the first argument without a value and that of a partial
sum out of range, and differ in which of them comes first.

1. `Expr.Yields`: the values of trees up to the first one that has none.
2. `Expr.evalAll_outcome_of_yields`, `Expr.foldlM_outcome_of_yields`: the two orders of the faults.
3. `sum_agrees_with_additions`: what this means for the results, and for the mean.
-/

namespace Calculator

namespace Expr

/-- The trees with `+` between them, grouped to the left. -/
def addUp (first : Expr) (others : List Expr) : Expr := others.foldl (binary .plus) first

/-! ## Values up to the first error -/

/-- The trees have these values one after the other, up to one that has an error, if any. -/
inductive Yields (env : Env) : List Expr → (vs : List Value) → (fault : Option Error) → Prop where
  | nil : Yields env [] [] none
  | value {e : Expr} {es : List Expr} {v : Value} {vs : List Value} {fault : Option Error} :
    e.eval env = .ok v → Yields env es vs fault → Yields env (e :: es) (v :: vs) fault
  | error {e : Expr} {err : Error} (es : List Expr) :
    e.eval env = .error err → Yields env (e :: es) [] (some err)

variable {env : Env} {es : List Expr} {vs : List Value} {fault : Option Error}

theorem exists_yields (env : Env) (es : List Expr) : ∃ vs fault, Yields env es vs fault := by
  induction es with
  | nil => exact ⟨[], none, .nil⟩
  | cons e es ih =>
    cases first : e.eval env with
    | error err => exact ⟨[], some err, .error es first⟩
    | ok v =>
      obtain ⟨vs, fault, others⟩ := ih
      exact ⟨v :: vs, fault, .value first others⟩

theorem evalAll_outcome_of_yields (h : Yields env es vs fault) :
    Outcome fault (· = vs) (evalAll env es) := by
  induction h with
  | nil => exact ⟨rfl, rfl⟩
  | value first _ ih =>
    rw [evalAll_cons, first]
    exact ih.map fun ws same => by rw [same]
  | error es first =>
    rw [evalAll_cons, first]
    rfl

/-- The error is that of a tree, and the trees before it have the values. -/
theorem Yields.split {err : Error} (h : Yields env es vs (some err)) :
    ∃ before o after, es = before ++ o :: after ∧ evalAll env before = .ok vs ∧
      o.eval env = .error err := by
  generalize eq : some err = fault at h
  induction h with
  | nil => cases eq
  | @value e es v vs fault first _ ih =>
    obtain ⟨before, o, after, rfl, values, last⟩ := ih eq
    refine ⟨e :: before, o, after, rfl, ?_, last⟩
    rw [evalAll_cons, first, values]
    rfl
  | error es first =>
    cases eq
    exact ⟨[], _, es, rfl, rfl, first⟩

/-! ## The two orders of the faults -/

def addTo (env : Env) (soFar : Value) (e : Expr) : Except Error Value :=
  e.eval env >>= fun v => orOverflow (soFar.add? v)

theorem eval_addUp (env : Env) (e : Expr) (es : List Expr) :
    (addUp e es).eval env = e.eval env >>= fun v => es.foldlM (addTo env) v := by
  induction es generalizing e with
  | nil =>
    show e.eval env = e.eval env >>= pure
    rw [bind_pure]
  | cons e' es ih =>
    calc (addUp (binary .plus e e') es).eval env
        = (e.eval env >>= fun v => addTo env v e') >>= fun v => es.foldlM (addTo env) v := by
          rw [ih, eval_binary]
          rfl
      _ = e.eval env >>= fun v => (e' :: es).foldlM (addTo env) v := by
          simp only [bind_assoc, List.foldlM_cons]

/-- Zero and the first tree are as good a beginning as the first tree. -/
theorem eval_addUp_eq_foldlM (env : Env) (e : Expr) (es : List Expr) :
    (addUp e es).eval env = (e :: es).foldlM (addTo env) 0 := by
  have first : addTo env 0 e = e.eval env := by
    rw [addTo]
    cases e.eval env with
    | error err => rfl
    | ok v =>
      show orOverflow (Value.ofInt? (0 + v.toInt)) = .ok v
      rw [Int.zero_add, Value.ofInt?_toInt]
      rfl
  rw [eval_addUp, List.foldlM_cons, first]

/-- Where each value is added at once, a partial sum that is out of range comes before the error of
a tree. -/
theorem foldlM_outcome_of_yields (h : Yields env es vs fault) (start : Value) :
    Outcome ((sumFault? start.toInt (vs.map Value.toInt)).or fault)
      (fun v => v.toInt = sumFrom start.toInt (vs.map Value.toInt))
      (es.foldlM (addTo env) start) := by
  have start_fault (start : Value) : sumFault? start.toInt [] = none :=
    (Aggregate.foldlM_outcome start []).1
  induction h generalizing start with
  | nil => exact ⟨by rw [List.map_nil, start_fault]; rfl, rfl⟩
  | @value e es v vs fault first _ ih =>
    have step : addTo env start e = orOverflow (Value.ofInt? (start.toInt + v.toInt)) := by
      rw [addTo, first]
      rfl
    rw [List.foldlM_cons, step, List.map_cons, Aggregate.sumFault?_cons, Option.or_assoc]
    refine (outcome_ofInt? (start.toInt + v.toInt)).bind fun next hnext => ?_
    rw [sumFrom, List.foldl_cons, ← hnext]
    exact ih next
  | error es first =>
    rw [List.foldlM_cons, addTo, first, List.map_nil, start_fault]
    rfl

/-- Where all values are known before they are added, the error of a tree comes before it. -/
theorem eval_sum_outcome (h : Yields env es vs fault) :
    Outcome (fault.or (sumFault? 0 (vs.map Value.toInt)))
      (fun v => v.toInt = sumFrom 0 (vs.map Value.toInt)) ((call .sum es).eval env) := by
  rw [eval_call]
  refine (evalAll_outcome_of_yields h).bind fun ws same => ?_
  rw [same]
  exact Aggregate.foldlM_outcome 0 vs

theorem eval_addUp_outcome {e : Expr} (h : Yields env (e :: es) vs fault) :
    Outcome ((sumFault? 0 (vs.map Value.toInt)).or fault)
      (fun v => v.toInt = sumFrom 0 (vs.map Value.toInt)) ((addUp e es).eval env) := by
  rw [eval_addUp_eq_foldlM]
  exact foldlM_outcome_of_yields h 0

/-- The fault of a sum is an overflow, at the first partial sum that is out of range. -/
theorem exists_prefix_of_sumFault? {err : Error} (h : sumFault? 0 (vs.map Value.toInt) = some err) :
    err = .overflow ∧ ∃ part, part <+: vs ∧ ¬ InRange (sumFrom 0 (part.map Value.toInt)) := by
  unfold sumFault? at h
  split at h
  · cases h
  · next broken =>
    cases h
    obtain ⟨ns, broken⟩ := Classical.not_forall.mp broken
    obtain ⟨mem, out⟩ := Classical.not_imp.mp broken
    obtain ⟨part, begins, rfl⟩ := List.prefix_map_iff.mp ((List.mem_inits _ _).mp mem)
    exact ⟨rfl, part, begins, out⟩

theorem eval_average_eq_error_iff {e : Expr} {err : Error} :
    (call .average (e :: es)).eval env = .error err ↔
      (call .sum (e :: es)).eval env = .error err := by
  rw [eval_call, eval_call, evalAll_cons]
  cases e.eval env with
  | error err => rfl
  | ok v =>
    cases evalAll env es with
    | error err => rfl
    | ok vs =>
      show (Aggregate.total (v :: vs) >>= fun t => pure (t.mean _)) = _ ↔
        Aggregate.total (v :: vs) = _
      cases Aggregate.total (v :: vs) with
      | error err => rfl
      | ok t => exact ⟨nofun, nofun⟩

end Expr

/-! ## Two faults in either order -/

section

variable {first second : Option Error} {n : Int} {x y : Except Error Value}

/-- Where neither fault is there, their order does not matter. -/
theorem Outcome.ok_of_swap {v : Value} (hx : Outcome (first.or second) (fun v => v.toInt = n) x)
    (hy : Outcome (second.or first) (fun v => v.toInt = n) y) (h : x = .ok v) : y = .ok v := by
  rw [h] at hx
  obtain ⟨free, rfl⟩ := hx
  obtain ⟨rfl, rfl⟩ := Option.or_eq_none_iff.mp free
  cases y with
  | error err => cases hy
  | ok w => exact congrArg _ (Value.ext hy.2)

theorem Outcome.error_of_swap {err : Error}
    (hx : Outcome (first.or second) (fun v => v.toInt = n) x)
    (hy : Outcome (second.or first) (fun v => v.toInt = n) y) (h : x = .error err) :
    y = .error err ∨ first = some err ∧ ∃ err', second = some err' ∧ y = .error err' := by
  have error {err : Error} (hy : Outcome (some err) (fun v => v.toInt = n) y) :
      y = .error err := by
    cases y with
    | ok v => cases hy.1
    | error err' =>
      cases hy
      rfl
  rw [h] at hx
  cases second with
  | none =>
    obtain rfl : first = some err := by simpa [Outcome] using hx
    exact .inl (error hy)
  | some err' =>
    cases first with
    | none =>
      obtain rfl : err' = err := by simpa [Outcome] using hx
      exact .inl (error hy)
    | some err'' =>
      cases hx
      exact .inr ⟨rfl, err', rfl, error hy⟩

end

/-- The sum of some arguments has a value where the arguments with `+` between them have, and it is
the same one. Their errors are the same, too, unless an argument has an error and the values before
it have a partial sum that is out of range: then the sum has the error of the argument, and the
additions overflow. The mean has the errors of the sum. -/
theorem sum_agrees_with_additions (env : Env) (e : Expr) (es : List Expr) :
    (∀ v, (Expr.call .sum (e :: es)).eval env = .ok v ↔ (Expr.addUp e es).eval env = .ok v) ∧
    (∀ err, (Expr.call .sum (e :: es)).eval env = .error err →
      (Expr.addUp e es).eval env = .error err ∨
      (Expr.addUp e es).eval env = .error .overflow ∧
        ∃ before o after vs, e :: es = before ++ o :: after ∧
          Expr.evalAll env before = .ok vs ∧ o.eval env = .error err ∧
          ∃ part, part <+: vs ∧ ¬ InRange (sumFrom 0 (part.map Value.toInt))) ∧
    ∀ err, (Expr.call .average (e :: es)).eval env = .error err ↔
      (Expr.call .sum (e :: es)).eval env = .error err := by
  obtain ⟨vs, fault, yields⟩ := Expr.exists_yields env (e :: es)
  have together := Expr.eval_sum_outcome yields
  have singly := Expr.eval_addUp_outcome yields
  refine ⟨fun v => ⟨together.ok_of_swap singly, singly.ok_of_swap together⟩, fun err failed => ?_,
    fun err => Expr.eval_average_eq_error_iff⟩
  rcases together.error_of_swap singly failed with same | ⟨rfl, err', broken, early⟩
  · exact .inl same
  · obtain ⟨rfl, part, begins, out⟩ := Expr.exists_prefix_of_sumFault? broken
    obtain ⟨before, o, after, split, values, last⟩ := yields.split
    exact .inr ⟨early, before, o, after, vs, split, values, last, part, begins, out⟩

/-- The first two values overflow, and the third argument has none. -/
theorem sum_agrees_with_additions_overflow :
    let one : Expr := .number (.clamp 1)
    let e : Expr := .number .greatest
    let es : List Expr := [one, .var "X", .neg one]
    (Expr.call .sum (e :: es)).eval ∅ = .error (.undefinedVariable "X") ∧
    (Expr.addUp e es).eval ∅ = .error .overflow ∧
    (Expr.call .average (e :: es)).eval ∅ = .error (.undefinedVariable "X") ∧
    ∃ before o after vs, e :: es = before ++ o :: after ∧ Expr.evalAll ∅ before = .ok vs ∧
      o.eval ∅ = .error (.undefinedVariable "X") ∧
      ∃ part, part <+: vs ∧ ¬ InRange (sumFrom 0 (part.map Value.toInt)) := by
  intro one e es
  obtain ⟨-, errors, mean⟩ := sum_agrees_with_additions ∅ e es
  have failed : (Expr.call .sum (e :: es)).eval ∅ = .error (.undefinedVariable "X") := by
    decide +kernel
  have early : (Expr.addUp e es).eval ∅ = .error .overflow := by decide +kernel
  refine ⟨failed, early, (mean _).mpr failed, ?_⟩
  rcases errors _ failed with same | ⟨-, split⟩
  · rw [early] at same
    cases same
  · exact split

end Calculator
