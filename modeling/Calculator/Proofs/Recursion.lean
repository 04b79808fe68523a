import Calculator.Proofs.Parser.Activation
import Calculator.Expr.Eval
import Calculator.Expr.Printer

/-!
# How deep calls go

Parsing, evaluating and printing are recursive, and the limits bound the recursion of all three.
Evaluating and printing go down the tree. Where a bound is put on how far down they may go, they do
the same as without it if the tree is no higher.

1. `evalWithin_eq`, `renderWithin_eq`: the height of a tree is depth enough.
2. `recursion_bounded`: the bounds for all that is parsed.
-/

namespace Calculator

namespace Expr

/-! ## Going down a tree -/

/-- Evaluates the tree where no more than `depth` evaluations may be active together; `none` if that
is not enough. -/
def evalWithin (env : Env) : (depth : Nat) → Expr → ExceptT Error Option Value
  | 0, _ => none
  | _ + 1, number v => pure v
  | _ + 1, var x =>
    match env.get? x with
    | some v => pure v
    | none => throw (.undefinedVariable x)
  | depth + 1, call f args => do
    let vs ← args.mapM (evalWithin env depth)
    ofExcept (f.apply vs)
  | depth + 1, neg e => do
    let v ← evalWithin env depth e
    ofExcept (orOverflow v.neg?)
  | depth + 1, binary op l r => do
    let a ← evalWithin env depth l
    let b ← evalWithin env depth r
    ofExcept (op.apply a b)

/-- Prints the tree where no more than `depth` printings may be active together; `none` if that is
not enough. -/
def renderWithin : (depth : Nat) → Expr → Option String
  | 0, _ => none
  | _ + 1, number v => v.render
  | _ + 1, var x => x
  | depth + 1, call f args => do
    let texts ← args.mapM (renderWithin depth)
    return f.name ++ "(" ++ ", ".intercalate texts ++ ")"
  | depth + 1, neg e => do
    let text ← renderWithin depth e
    return "-" ++ parenthesize (!e.isPrimary) text
  | depth + 1, binary op l r => do
    let left ← renderWithin depth l
    let right ← renderWithin depth r
    return parenthesize (l.isLooserThan op.precedence) left ++ " " ++ op.symbol ++ " " ++
      parenthesize (r.isLooserThan (op.precedence + 1)) right

theorem heightAll_le_iff {es : List Expr} {depth : Nat} :
    heightAll es ≤ depth ↔ ∀ e ∈ es, e.height ≤ depth := by
  induction es with
  | nil => simp [heightAll]
  | cons e es ih => rw [heightAll, Nat.max_le, ih, List.forall_mem_cons]

/-! ## Evaluating -/

section

variable {α β : Type}

theorem run_ofExcept (x : Except Error α) :
    (ofExcept x : ExceptT Error Option α).run = some x := by
  cases x <;> rfl

theorem run_bind {x : ExceptT Error Option α} {r : Except Error α}
    {f : α → ExceptT Error Option β} {g : α → Except Error β} (hx : x.run = some r)
    (hf : ∀ a, (f a).run = some (g a)) : (x >>= f).run = some (r >>= g) := by
  rw [ExceptT.run_bind, hx]
  cases r with
  | error err => rfl
  | ok a => exact hf a

end

theorem evalWithin_eq {env : Env} {depth : Nat} {e : Expr} (low : e.height ≤ depth) :
    (evalWithin env depth e).run = some (e.eval env) := by
  induction depth generalizing e with
  | zero =>
    have := e.height_pos
    omega
  | succ depth ih =>
    cases e with
    | number v => rfl
    | var x =>
      rw [evalWithin, eval_var]
      cases env.get? x <;> rfl
    | call f args =>
      have each := heightAll_le_iff.mp (Nat.le_of_succ_le_succ low)
      have all : (args.mapM (evalWithin env depth)).run = some (evalAll env args) := by
        clear low
        induction args with
        | nil => rfl
        | cons e args ih_args =>
          obtain ⟨first, others⟩ := List.forall_mem_cons.mp each
          rw [List.mapM_cons, evalAll_cons]
          exact run_bind (ih first) fun v => run_bind (ih_args others) fun vs => rfl
      rw [evalWithin, eval_call]
      exact run_bind all fun vs => run_ofExcept _
    | neg e =>
      rw [evalWithin, eval_neg]
      exact run_bind (ih (Nat.le_of_succ_le_succ low)) fun v => run_ofExcept _
    | binary op l r =>
      obtain ⟨left, right⟩ := Nat.max_le.mp (Nat.le_of_succ_le_succ low)
      rw [evalWithin, eval_binary]
      exact run_bind (ih left) fun a => run_bind (ih right) fun b => run_ofExcept _

/-! ## Printing -/

theorem renderWithin_eq {depth : Nat} {e : Expr} (low : e.height ≤ depth) :
    renderWithin depth e = some e.render := by
  induction depth generalizing e with
  | zero =>
    have := e.height_pos
    omega
  | succ depth ih =>
    cases e with
    | number v => rw [renderWithin, render]
    | var x => rw [renderWithin, render]
    | call f args =>
      have each := heightAll_le_iff.mp (Nat.le_of_succ_le_succ low)
      have all : args.mapM (renderWithin depth) = some (renderAll args) := by
        clear low
        induction args with
        | nil => rfl
        | cons e args ih_args =>
          obtain ⟨first, others⟩ := List.forall_mem_cons.mp each
          rw [List.mapM_cons, ih first, ih_args others, renderAll]
          rfl
      rw [renderWithin, all, render]
      rfl
    | neg e =>
      rw [renderWithin, ih (Nat.le_of_succ_le_succ low), render]
      rfl
    | binary op l r =>
      obtain ⟨left, right⟩ := Nat.max_le.mp (Nat.le_of_succ_le_succ low)
      rw [renderWithin, ih left, ih right, render]
      rfl

end Expr

/-! ## The bounds -/

/-- For every source text at most four times `maxNesting + 1` calls of the parser of expressions are
active together, four on every level of parentheses, where the precedences that they ask for rise:
a parser that looks at its active calls finds nothing else. Fuel for so many calls is never used up,
and more of it changes nothing. For every tree that is parsed, `maxHeight` is depth enough to
evaluate and to print it. -/
theorem recursion_bounded :
    (Limits.standard.active = 4 * (maxNesting + 1) ∧ Limits.standard.active = 516) ∧
    (∀ src lexemes, ∀ check : List Parser.Activation → Bool,
      (∀ active, active.length ≤ Limits.standard.active →
        (∀ depth, (Parser.askedAt depth active).Sublist [1, 11, 21, 31]) →
        check active = true) →
      ∀ fuel, Parser.watched check fuel [] 1 (.start .standard src lexemes) =
        Parser.expression fuel 1 (.start .standard src lexemes)) ∧
    (∀ src lexemes,
      (∀ s, Parser.whole Limits.standard.active (.start .standard src lexemes) ≠
        .error .exhausted s) ∧
      ∀ fuel, Limits.standard.active ≤ fuel →
        Parser.whole fuel (.start .standard src lexemes) =
        Parser.whole Limits.standard.active (.start .standard src lexemes)) ∧
    maxHeight = 1024 ∧
    ∀ src e, parse src = .ok e →
      (∀ env, (e.evalWithin env maxHeight).run = some (e.eval env)) ∧
      e.renderWithin maxHeight = some e.render := by
  refine ⟨⟨rfl, rfl⟩, fun src lexemes check accepts fuel => ?_, fun src lexemes => ⟨?_, ?_⟩, rfl,
    fun src e parsed => ?_⟩
  · have every (a outer) (orderly : Parser.Orderly Limits.standard.nesting a outer) :
        check (a :: outer) = true := accepts _ orderly.length_le_active orderly.levels
    have fit := Parser.State.start_fit .standard src lexemes
    exact (Parser.expression_same_watched every fuel fit rfl .outermost).symm
  · intro s run
    have reads := Parser.whole_reads .standard src lexemes Limits.standard.active
    rw [Parser.Ensures, run] at reads
    exact reads (Nat.le_refl _) rfl
  · intro fuel enough
    have demand := Parser.demand_start .standard src lexemes
    have fit := Parser.State.start_fit .standard src lexemes
    refine (Parser.expression_same fit ?_ ?_).bind fun _ _ _ => .refl _ _
    · rw [demand]
      exact enough
    · exact Nat.le_of_eq demand
  · obtain ⟨lexemes, -, recognised⟩ := parse_eq_ok_iff.mp parsed
    have low : e.height ≤ maxHeight := recognised.height_le
    exact ⟨fun env => Expr.evalWithin_eq low, Expr.renderWithin_eq low⟩

/-- In `-(x)` a parser that counts its active calls finds few enough of them, fuel for six hundred
is as good as for those that are allowed, and the tree is not too deep. -/
theorem recursion_bounded_negation :
    Parser.watched (fun active => active.length ≤ 516) 600 [] 1 (.start .standard "-(x)"
        [⟨0, .operator .minus⟩, ⟨1, .openParen⟩, ⟨2, .name "x"⟩, ⟨3, .closeParen⟩]) =
      Parser.expression 600 1 (.start .standard "-(x)"
        [⟨0, .operator .minus⟩, ⟨1, .openParen⟩, ⟨2, .name "x"⟩, ⟨3, .closeParen⟩]) ∧
    Limits.standard.active ≤ 600 ∧
    Parser.whole 600 (.start .standard "-(x)"
        [⟨0, .operator .minus⟩, ⟨1, .openParen⟩, ⟨2, .name "x"⟩, ⟨3, .closeParen⟩]) =
      Parser.whole Limits.standard.active (.start .standard "-(x)"
        [⟨0, .operator .minus⟩, ⟨1, .openParen⟩, ⟨2, .name "x"⟩, ⟨3, .closeParen⟩]) ∧
    parse "-(x)" = .ok (.neg (.var "x")) ∧
    (Expr.evalWithin ∅ maxHeight (.neg (.var "x"))).run =
      some (.error (.undefinedVariable "x")) ∧
    Expr.renderWithin maxHeight (.neg (.var "x")) = some "-x" := by
  obtain ⟨-, watching, fuel, -, trees⟩ := recursion_bounded
  have enough : Limits.standard.active ≤ 600 := by decide
  have parsed : parse "-(x)" = .ok (.neg (.var "x")) := by decide +kernel
  obtain ⟨evaluating, printing⟩ := trees _ _ parsed
  refine ⟨watching _ _ _ (fun active few _ => decide_eq_true few) 600, enough,
    (fuel _ _).2 600 enough, parsed, ?_, ?_⟩
  · rw [evaluating]
    rfl
  · rw [printing]
    rfl

end Calculator
