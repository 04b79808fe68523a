import Calculator.Main
import Calculator.Proofs.Text.Decimal
import Calculator.Proofs.Phases
import Mathlib.Tactic.Choose

/-!
# Evaluating once and many times

Two commands print the value of an expression: one evaluates it once, the other so many times as it
is told, each time anew. The times that they print depend on the clock, and what the clock shows is
left open: `Always` speaks of every response that a run can give.

1. `Expr.evalTimes_succ`: the last of some evaluations gives what one of them gives.
2. `Command.runEval_shows`, `Command.runBench_shows`: what the responses show.
3. `bench_agrees_with_eval`: the two commands show the same, unless there is nothing to evaluate.
-/

namespace Calculator

/-! ## Whatever the clock shows -/

section

variable {m : Type → Type} [Monad m] {α β : Type}

/-- Whatever the action returns has the property. -/
def Always (p : α → Prop) (x : m α) : Prop := ∃ y : m (Subtype p), Subtype.val <$> y = x

variable [LawfulMonad m] {p : α → Prop} {q : β → Prop}

theorem Always.pure {a : α} (h : p a) : Always p (Pure.pure a : m α) :=
  ⟨Pure.pure ⟨a, h⟩, map_pure ..⟩

theorem Always.trivial (x : m α) : Always (fun _ => True) x := by
  refine ⟨(fun a => ⟨a, True.intro⟩) <$> x, ?_⟩
  rw [Functor.map_map]
  exact id_map x

theorem Always.bind {x : m α} {f : α → m β} (h : Always p x)
    (next : ∀ a, p a → Always q (f a)) : Always q (x >>= f) := by
  obtain ⟨y, rfl⟩ := h
  choose z hz using next
  refine ⟨y >>= fun a => z a.1 a.2, ?_⟩
  rw [map_bind, bind_map_left]
  exact congrArg _ (funext fun a => hz a.1 a.2)

end

/-- What is measured is what the function gives, whatever time it took. -/
def Timer.Faithful {m : Type → Type} [Monad m] (timer : Timer m) : Prop :=
  ∀ {α : Type} (f : Unit → α), Always (fun measured => measured.1 = f ()) (timer.measure f)

/-- Actions in the world follow the laws of monads, as actions on any state do. -/
instance lawfulWorld : LawfulMonad IO := by
  refine .mk' _ (fun x => funext fun w => ?_) (fun a f => rfl) fun x f g => funext fun w => ?_
  · show EST.bind x _ w = x w
    unfold EST.bind
    cases x w <;> rfl
  · show EST.bind (EST.bind x f) g w = EST.bind x (fun a => EST.bind (f a) g) w
    unfold EST.bind
    cases x w <;> rfl

theorem Timer.faithful_clock : Timer.clock.Faithful := by
  intro α f
  refine (Always.trivial _).bind fun start _ => ?_
  have same : Always (· = f ()) (IO.lazyPure f) := .pure rfl
  exact same.bind fun a same => (Always.trivial _).bind fun stop _ => .pure same

/-! ## What a response shows -/

/-- The first line of the text, if a line ends in it. -/
def firstLine? (text : String) : Option String :=
  if '\n' ∈ text.toList then some (.ofList (text.toList.takeWhile (· != '\n'))) else none

theorem firstLine?_append {line : String} (one : '\n' ∉ line.toList) (rest : String) :
    firstLine? (line ++ "\n" ++ rest) = some line := by
  have chars : (line ++ "\n" ++ rest).toList = line.toList ++ '\n' :: rest.toList := by simp
  have inside : ∀ c ∈ line.toList, (c != '\n') = true :=
    fun c hc => bne_iff_ne.mpr fun eq => one (eq ▸ hc)
  obtain ⟨taken, -⟩ := @takeWhile_run _ _ ('\n' :: rest.toList) inside (by simp)
  rw [firstLine?, chars, taken, if_pos (by simp), String.ofList_toList]

/-- The response shows the result: a value in the first line of what is printed, or an error by its
message and nothing else. -/
def Response.Shows (result : Except Error Value) (r : Response) : Prop :=
  match result with
  | .ok v => r.exitCode = 0 ∧ firstLine? r.stdout = some v.render ∧ r.stderr = ""
  | .error err => r.exitCode = 1 ∧ r.stdout = "" ∧ r.stderr = "error: " ++ err.message ++ "\n"

theorem Response.shows_failure (err : Error) : Shows (.error err) (.failure err) :=
  ⟨rfl, rfl, rfl⟩

theorem Response.shows_ok (v : Value) (rest : String) :
    Shows (.ok v) (.ok (v.render ++ "\n" ++ rest)) := by
  have one : '\n' ∉ v.render.toList := fun mem =>
    absurd (Decimal.isBlank_eq_false_of_mem_render mem) (by decide)
  exact ⟨rfl, firstLine?_append one rest, rfl⟩

/-! ## Evaluating again -/

/-- However often a tree is evaluated, each time gives the same, and one error is enough. -/
theorem Expr.evalTimes_succ (env : Env) (e : Expr) (n : Nat) (last : Value) :
    e.evalTimes env (n + 1) last = e.eval env := by
  induction n generalizing last with
  | zero =>
    rw [evalTimes]
    cases e.eval env <;> rfl
  | succ n ih =>
    rw [evalTimes]
    cases evaluated : e.eval env with
    | error err => rfl
    | ok v => exact (ih v).trans evaluated

namespace Command

/-! ## Runs -/

section

variable {m : Type → Type} [Monad m] [LawfulMonad m] {timer : Timer m}

theorem runEval_shows (faithful : timer.Faithful) (src : String) (env : Env) (timed : Bool) :
    Always (Response.Shows (evaluate src env)) (runEval timer src env timed) := by
  refine (faithful _).bind ?_
  rintro ⟨result, duration⟩ (rfl : result = evaluate src env)
  cases evaluate src env with
  | error err => exact .pure (Response.shows_failure err)
  | ok v => exact .pure (Response.shows_ok v _)

/-- What a benchmark shows: the value after so many evaluations of the tree, of which none gives
zero. -/
theorem runBench_shows (faithful : timer.Faithful) (src : String) (env : Env) (n : UInt32) :
    Always (Response.Shows (Calculator.parse src >>= fun e => e.evalTimes env n.toNat 0))
      (runBench timer src env n) := by
  refine (faithful _).bind ?_
  rintro ⟨parsed, parsing⟩ (rfl : parsed = Calculator.parse src)
  cases Calculator.parse src with
  | error err => exact .pure (Response.shows_failure err)
  | ok e =>
    refine (faithful _).bind ?_
    rintro ⟨result, evaluating⟩ (rfl : result = e.evalTimes env n.toNat 0)
    show Always (Response.Shows (e.evalTimes env n.toNat 0)) _
    cases e.evalTimes env n.toNat 0 with
    | error err => exact .pure (Response.shows_failure err)
    | ok v => exact .pure (Response.shows_ok v _)

end

end Command

/-! ## The two commands -/

/-- Evaluating an expression, with any bindings and whatever the clock shows, prints its value in
the first line, or nothing but the message of its error. A benchmark shows the same, however many
iterations it is told to do, if that is one at least. Without any it still reads the expression, but
does not evaluate it, and prints zero. -/
theorem bench_agrees_with_eval {m : Type → Type} [Monad m] [LawfulMonad m] {timer : Timer m}
    (faithful : timer.Faithful) :
    (∀ src bs timed, Always (Response.Shows (evaluate src (.ofBindings bs)))
      ((Command.eval src bs timed).run timer)) ∧
    (∀ src bs (n : UInt32), 0 < n → Always (Response.Shows (evaluate src (.ofBindings bs)))
      ((Command.bench src bs n).run timer)) ∧
    ∀ src bs, Always (Response.Shows (parse src >>= fun _ => .ok 0))
      ((Command.bench src bs 0).run timer) := by
  refine ⟨fun src bs timed => ?_, fun src bs n some_iteration => ?_, fun src bs => ?_⟩
  · exact Command.runEval_shows faithful src _ timed
  · have positive : 0 < n.toNat := some_iteration
    obtain ⟨k, iterations⟩ := Nat.exists_eq_succ_of_ne_zero (Nat.ne_of_gt positive)
    have again : evaluate src (.ofBindings bs) =
        parse src >>= fun e => e.evalTimes (.ofBindings bs) n.toNat 0 := by
      rw [evaluate, iterations]
      exact congrArg _ (funext fun e => (e.evalTimes_succ _ k 0).symm)
    rw [again]
    exact Command.runBench_shows faithful src _ n
  · exact Command.runBench_shows faithful src _ 0

/-- By the clock of the machine, of the bindings of a name the last one counts in both commands. -/
theorem bench_agrees_with_eval_clock :
    let bs : List Binding := [⟨"A", 0⟩, ⟨"A", .greatest⟩]
    evaluate "1 - A" (.ofBindings bs) = .ok ⟨-9223372036854775806, by decide, by decide⟩ ∧
    Always (Response.Shows (evaluate "1 - A" (.ofBindings bs)))
      ((Command.eval "1 - A" bs false).run Timer.clock) ∧
    Always (Response.Shows (evaluate "1 - A" (.ofBindings bs)))
      ((Command.bench "1 - A" bs 4294967295).run Timer.clock) := by
  intro bs
  obtain ⟨once, often, -⟩ := bench_agrees_with_eval Timer.faithful_clock
  exact ⟨by decide +kernel, once _ bs false, often _ bs 4294967295 (by decide)⟩

/-- Without iterations a benchmark prints zero, whatever the value of the expression. -/
theorem bench_without_iterations :
    firstLine? (Id.run ((Command.eval "1+1" [] false).run (Timer.still "TIME"))).stdout =
      some "2" ∧
    firstLine? (Id.run ((Command.bench "1+1" [] 0).run (Timer.still "TIME"))).stdout =
      some "0" := by
  decide +kernel

end Calculator
