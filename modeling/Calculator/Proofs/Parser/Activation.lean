import Calculator.Proofs.Parser.Recognition
import Mathlib.Data.List.Basic

/-!
# Calls that are active together

How deep the parsers of expressions call each other. Between two parentheses the precedences that
the calls ask for rise, so there are four of them at most, and the parentheses are limited. A parser
that is shown its active calls at every call (`watched`) therefore finds nothing wrong with them,
and the fuel that the limits allow for is as good as any more.

1. `Orderly`: the calls that can be active together.
2. `Orderly.levels`, `Orderly.length_le`: on every level their precedences rise, so they are few.
3. `expression_same_watched`: the active calls are always orderly.
4. `expression_same`: fuel that meets the demand of a state is as good as any more.
-/

namespace Calculator

namespace Parser

/-- A call of the parser of expressions that has not ended: the precedence that it asks for, and how
many parentheses were open when it began. -/
structure Activation where
  least : Nat
  depth : Nat
  deriving DecidableEq

/-- The parser of expressions that looks at the active calls, its own first, before it does anything
else. It is exhausted if they are not as `check` wants them. -/
def watched (check : List Activation → Bool) :
    (fuel : Nat) → (outer : List Activation) → (least : Nat) → Parser Node
  | 0, _, _ => throw .exhausted
  | fuel + 1, outer, least => do
    let active := ⟨least, (← get).depth⟩ :: outer
    if check active then
      let left ← term (watched check fuel active 1)
      chain (watched check fuel active) least ((← get).limits.height + 1) left
    else throw .exhausted

/-! ## Orderly calls -/

/-- The calls that lead to each other, the innermost apart, where so many parentheses may be open.
After the first one these are right operands of operators that count, and expressions in
parentheses. -/
inductive Orderly (limit : Nat) : Activation → (outer : List Activation) → Prop where
  | outermost : Orderly limit ⟨1, 0⟩ []
  | operand {a : Activation} {outer : List Activation} (op : Operator) :
    Orderly limit a outer → a.least ≤ op.precedence →
    Orderly limit ⟨op.precedence + 1, a.depth⟩ (a :: outer)
  | inside {a : Activation} {outer : List Activation} :
    Orderly limit a outer → a.depth < limit → Orderly limit ⟨1, a.depth + 1⟩ (a :: outer)

/-- The precedences that the calls on a level of parentheses ask for, the outermost first. -/
def askedAt (depth : Nat) (active : List Activation) : List Nat :=
  ((active.filter fun a => a.depth = depth).map Activation.least).reverse

def askedUpTo (least : Nat) : List Nat := [1, 11, 21, 31].filter fun m => m ≤ least

section

variable {limit : Nat} {a : Activation} {outer : List Activation}

theorem askedAt_cons_of_eq {depth : Nat} (outer : List Activation) (eq : a.depth = depth) :
    askedAt depth (a :: outer) = askedAt depth outer ++ [a.least] := by
  simp [askedAt, eq]

theorem askedAt_cons_of_ne {depth : Nat} (outer : List Activation) (ne : a.depth ≠ depth) :
    askedAt depth (a :: outer) = askedAt depth outer := by
  simp [askedAt, ne]

theorem askedUpTo_succ_precedence {least : Nat} {op : Operator} (counts : least ≤ op.precedence) :
    (askedUpTo least ++ [op.precedence + 1]).Sublist (askedUpTo (op.precedence + 1)) := by
  have fewer : (askedUpTo least).Sublist (askedUpTo op.precedence) :=
    List.monotone_filter_right _ fun m le => by
      simp only [decide_eq_true_eq] at le ⊢
      omega
  refine (fewer.append_right _).trans ?_
  cases op <;> decide

/-- No call is on a deeper level than the innermost one, and on its level the precedences that are
asked for rise up to its own. -/
theorem Orderly.askedAt_innermost (h : Orderly limit a outer) :
    (∀ depth, a.depth < depth → askedAt depth (a :: outer) = []) ∧
    (askedAt a.depth (a :: outer)).Sublist (askedUpTo a.least) := by
  induction h with
  | outermost =>
    refine ⟨fun depth deeper => ?_, by decide⟩
    rw [askedAt_cons_of_ne _ (Nat.ne_of_lt deeper)]
    rfl
  | @operand a outer op _ counts ih =>
    obtain ⟨none_deeper, rising⟩ := ih
    refine ⟨fun depth deeper => ?_, ?_⟩
    · rw [askedAt_cons_of_ne _ (Nat.ne_of_lt deeper)]
      exact none_deeper depth deeper
    · rw [askedAt_cons_of_eq _ rfl]
      exact (rising.append_right _).trans (askedUpTo_succ_precedence counts)
  | @inside a outer _ room ih =>
    obtain ⟨none_deeper, -⟩ := ih
    refine ⟨fun depth deeper => ?_, ?_⟩
    · rw [askedAt_cons_of_ne _ (Nat.ne_of_lt deeper)]
      exact none_deeper depth (Nat.lt_of_succ_lt deeper)
    · rw [askedAt_cons_of_eq _ rfl, none_deeper _ (Nat.lt_succ_self _)]
      exact List.Sublist.refl _

theorem Orderly.levels (h : Orderly limit a outer) (depth : Nat) :
    (askedAt depth (a :: outer)).Sublist [1, 11, 21, 31] := by
  -- The innermost call changes its own level only.
  have level {a : Activation} {outer : List Activation} (h : Orderly limit a outer)
      (others : (askedAt depth outer).Sublist [1, 11, 21, 31]) :
      (askedAt depth (a :: outer)).Sublist [1, 11, 21, 31] := by
    by_cases same : a.depth = depth
    · rw [← same]
      exact h.askedAt_innermost.2.trans List.filter_sublist
    · rw [askedAt_cons_of_ne _ same]
      exact others
  induction h with
  | outermost => exact level .outermost (List.nil_sublist _)
  | operand op before counts ih => exact level (before.operand op counts) ih
  | inside before room ih => exact level (before.inside room) ih

/-- Four calls on every level of parentheses, and on the innermost level as many as the precedence
that its last call asks for. -/
theorem Orderly.length_le (h : Orderly limit a outer) :
    a.depth ≤ limit ∧ outer.length ≤ 4 * a.depth + (Form.ofLeast a.least).rank := by
  induction h with
  | outermost => exact ⟨Nat.zero_le _, Nat.zero_le _⟩
  | @operand a outer op _ counts ih =>
    obtain ⟨within, few⟩ := ih
    have rises := Operator.le_precedence_iff.mp counts
    refine ⟨within, ?_⟩
    simp only [List.length_cons, Form.ofLeast_succ_precedence, op.rank_tighter]
    omega
  | @inside a outer _ room ih =>
    obtain ⟨-, few⟩ := ih
    have top := Form.rank_ofLeast_le a.least
    refine ⟨room, ?_⟩
    simp only [List.length_cons]
    omega

theorem Orderly.length_le_active {limits : Limits} (h : Orderly limits.nesting a outer) :
    (a :: outer).length ≤ limits.active := by
  obtain ⟨within, few⟩ := h.length_le
  have top := Form.rank_ofLeast_le a.least
  rw [List.length_cons, Limits.active]
  omega

end

/-! ## Parsers that do the same -/

section

variable {α β : Type} {E E' : Parser Node} {fuel : Nat} {s : State}

/-- In the state the parsers end in the same way. -/
def Same (p q : Parser α) (s : State) : Prop := p s = q s

theorem Same.refl (p : Parser α) (s : State) : Same p p s := rfl

theorem Same.bind {p q : Parser β} {f g : β → Parser α} (first : Same p q s)
    (second : ∀ b s', p s = .ok b s' → Same (f b) (g b) s') : Same (p >>= f) (q >>= g) s := by
  show EStateM.bind p f s = EStateM.bind q g s
  unfold EStateM.bind
  rw [← show p s = q s from first]
  cases run : p s with
  | ok b s' => exact second b s' run
  | error e s' => rfl

theorem Same.step {p : Parser β} {f g : β → Parser α} {b : β} {s' : State} (run : p s = .ok b s')
    (h : Same (f b) (g b) s') : Same (p >>= f) (p >>= g) s := by
  refine (Same.refl p s).bind fun b₁ s₁ run₁ => ?_
  rw [run] at run₁
  cases run₁
  exact h

theorem Same.callee {f g : Option (String × Nat) → Parser α}
    (absent : Same (f none) (g none) s)
    (called : ∀ p x rest, s.Calls p x rest →
      Same (f (some (x, p))) (g (some (x, p))) { s with rest }) :
    Same (callee? >>= f) (callee? >>= g) s := by
  rcases s.calls_or_noCall with ⟨p, x, rest, calls⟩ | noCall
  · exact .step (callee?_of_calls calls) (called p x rest calls)
  · exact .step (callee?_of_noCall noCall) absent

theorem Same.limited {f g : Node → Parser α} {node : Node} (h : Same (f node) (g node) s) :
    Same (limited node >>= f) (limited node >>= g) s := by
  have unchanged : Ensures (Parser.limited node) s (fun node' s' => node' = node ∧ s' = s)
      fun _ _ => True := by
    rw [ensures_limited]
    split <;> simp
  refine (Same.refl _ s).bind fun node' s' run => ?_
  obtain ⟨rfl, rfl⟩ := unchanged.of_ok run
  exact h

theorem Same.nested {p q : Parser α}
    (h : s.depth < s.limits.nesting → Same p q { s with depth := s.depth + 1 }) :
    Same (nested p) (nested q) s := by
  unfold Same Parser.nested
  split
  · next room => rw [show p _ = q _ from h room]
  · rfl

/-- The parsers do the same in every state with these limits and so many open parentheses. -/
def AgreeAt (limits : Limits) (depth : Nat) (E E' : Parser Node) : Prop :=
  ∀ s : State, s.Fit → s.limits = limits → s.depth = depth → Same E E' s

theorem State.Fit.advance (fit : s.Fit) : State.Fit { s with rest := s.rest.tail } where
  depth_le := fit.depth_le
  length_le := by
    have length := fit.length_le
    show s.rest.tail.length ≤ s.size
    rw [List.length_tail]
    omega

theorem ReadsExpression.keeps {least : Nat} {node : Node} {s' : State}
    (hE : ReadsExpression E least fuel) (fit : s.Fit) (run : E s = .ok node s') :
    s'.Fit ∧ s'.limits = s.limits ∧ s'.depth = s.depth := by
  obtain ⟨ls, reads, -⟩ := (hE s fit).of_ok run
  exact ⟨reads.passes.fit fit, reads.passes.limits, reads.passes.depth⟩

theorem group_same (h : AgreeAt s.limits (s.depth + 1) E E') (fit : s.Fit) :
    Same (group E) (group E') s := by
  refine .nested fun room => .step rfl ?_
  exact (h _ (fit.deeper room).advance rfl rfl).bind fun _ _ _ => .refl _ _

theorem argumentsFrom_same (hE : ReadsExpression E 1 fuel) (bound : Nat)
    (h : AgreeAt s.limits s.depth E E') (fit : s.Fit) :
    Same (argumentsFrom E bound) (argumentsFrom E' bound) s := by
  induction bound generalizing s with
  | zero => exact .refl _ _
  | succ bound ih =>
    refine (h s fit rfl rfl).bind fun first s₁ run => ?_
    obtain ⟨fit₁, limits, depth⟩ := hE.keeps fit run
    refine .step rfl ?_
    split
    · exact .refl _ _
    · rw [← limits, ← depth] at h
      refine .step rfl (Same.bind ?_ fun _ _ _ => .refl _ _)
      exact ih (s := { s₁ with rest := s₁.rest.tail }) h fit₁.advance
    · exact .refl _ _

theorem arguments_same (hE : ReadsExpression E 1 fuel) (h : AgreeAt s.limits s.depth E E')
    (fit : s.Fit) : Same (arguments E) (arguments E') s := by
  refine .step rfl ?_
  split
  · exact .refl _ _
  · exact .step rfl (argumentsFrom_same hE _ h fit)

theorem callOf_same (hE : ReadsExpression E 1 fuel) (h : AgreeAt s.limits (s.depth + 1) E E')
    (fit : s.Fit) (f : Aggregate) : Same (callOf E f) (callOf E' f) s := by
  refine (Same.nested fun room => ?_).bind fun _ _ _ => .refl _ _
  exact arguments_same hE h (fit.deeper room)

theorem call?_same (hE : ReadsExpression E 1 fuel) (h : AgreeAt s.limits (s.depth + 1) E E')
    (fit : s.Fit) : Same (call? E) (call? E') s := by
  refine .callee (.refl _ _) fun p x rest calls => ?_
  cases found : Aggregate.ofName? x with
  | none =>
    simp only [found]
    exact .refl _ _
  | some f =>
    simp only [found]
    obtain ⟨q, passes⟩ := calls.passes (s.calls.push ⟨p, f⟩)
    refine .step rfl (Same.bind ?_ fun _ _ _ => .refl _ _)
    exact callOf_same (s := { s with rest, calls := s.calls.push ⟨p, f⟩ }) hE h (passes.fit fit) f

theorem primary_same (hE : ReadsExpression E 1 fuel) (expected : List Expectation)
    (h : AgreeAt s.limits (s.depth + 1) E E') (fit : s.Fit) :
    Same (primary E expected) (primary E' expected) s := by
  refine (call?_same hE h fit).bind fun result s₁ run => ?_
  have outcome := (call?_reads hE fit).of_ok run
  cases result with
  | some node => exact .refl _ _
  | none =>
    obtain rfl : s₁ = s := outcome
    refine .step rfl ?_
    split
    · exact .refl _ _
    · exact .refl _ _
    · exact group_same h fit
    · exact .refl _ _

theorem term_same (hE : ReadsExpression E 1 fuel) (h : AgreeAt s.limits (s.depth + 1) E E')
    (fit : s.Fit) : Same (term E) (term E') s := by
  refine .step rfl ?_
  split
  · refine .step rfl (Same.bind ?_ fun _ _ _ => .refl _ _)
    exact primary_same (s := { s with rest := s.rest.tail }) hE _ h fit.advance
  · exact primary_same hE _ h fit

theorem chain_same {operand operand' : Nat → Parser Node}
    (hop : ∀ least, ReadsExpression (operand least) least fuel) (least bound : Nat) (left : Node)
    (h : ∀ op : Operator, least ≤ op.precedence →
      AgreeAt s.limits s.depth (operand (op.precedence + 1)) (operand' (op.precedence + 1)))
    (fit : s.Fit) :
    Same (chain operand least bound left) (chain operand' least bound left) s := by
  induction bound generalizing s left with
  | zero => exact .refl _ _
  | succ bound ih =>
    refine .step rfl ?_
    split
    · next op _ =>
      split
      · exact .refl _ _
      · next counts =>
        refine .step rfl ?_
        refine (h op (Nat.not_lt.mp counts) _ fit.advance rfl rfl).bind fun right s₁ run => ?_
        obtain ⟨fit₁, limits, depth⟩ := (hop _).keeps fit.advance run
        rw [← limits, ← depth] at h
        exact .limited (ih _ h fit₁)
    · exact .refl _ _

/-- What a call of the parser of expressions does depends on the expressions in parentheses, which
are on the next level, and on the right operands of operators that count. -/
theorem body_same {operand operand' : Nat → Parser Node}
    (hop : ∀ least, ReadsExpression (operand least) least fuel) (least : Nat)
    (inside : AgreeAt s.limits (s.depth + 1) (operand 1) (operand' 1))
    (operands : ∀ op : Operator, least ≤ op.precedence →
      AgreeAt s.limits s.depth (operand (op.precedence + 1)) (operand' (op.precedence + 1)))
    (fit : s.Fit) :
    Same (do
        let left ← term (operand 1)
        chain operand least ((← get).limits.height + 1) left)
      (do
        let left ← term (operand' 1)
        chain operand' least ((← get).limits.height + 1) left) s := by
  refine (term_same (hop 1) inside fit).bind fun left s₁ run => .step rfl ?_
  obtain ⟨ls, reads⟩ := (term_reads (hop 1) fit).of_ok run
  rw [← reads.passes.limits, ← reads.passes.depth] at operands
  exact chain_same hop least _ left operands (reads.passes.fit fit)

end

/-! ## Fuel and active calls -/

/-- Fuel that meets the demand of a state is as good as any more. -/
theorem expression_same {fuel fuel' least : Nat} {s : State} (fit : s.Fit)
    (enough : s.demand least ≤ fuel) (enough' : s.demand least ≤ fuel') :
    Same (expression fuel least) (expression fuel' least) s := by
  have top := Form.rank_ofLeast_le least
  induction fuel generalizing fuel' least s with
  | zero =>
    rw [State.demand] at enough
    omega
  | succ fuel ih =>
    cases fuel' with
    | zero =>
      rw [State.demand] at enough'
      omega
    | succ fuel' =>
      refine body_same (fun least => expression_reads fuel least) least ?_ ?_ fit
      · -- On the next level there is one level less to go.
        intro t fit_t limits depth
        have room : s.depth < s.limits.nesting := by
          have := fit_t.depth_le
          rw [limits, depth] at this
          exact this
        have demand : t.demand 1 = s.demandInside := by
          rw [← demand_deeper room, State.demand, limits, depth, State.demand]
        rw [State.demand] at enough enough'
        rw [State.demandInside] at demand
        exact ih fit_t (by omega) (by omega) (Form.rank_ofLeast_le _)
      · intro op counts t fit_t limits depth
        have demand : t.demand (op.precedence + 1) + 1 ≤ t.demand least := demand_operand counts
        have same : t.demand least = s.demand least := by
          rw [State.demand, limits, depth, State.demand]
        exact ih fit_t (by omega) (by omega) (Form.rank_ofLeast_le _)

/-- The active calls are always orderly, so looking at them changes nothing. -/
theorem expression_same_watched {check : List Activation → Bool} {limit : Nat}
    (accepts : ∀ a outer, Orderly limit a outer → check (a :: outer) = true)
    (fuel : Nat) {least : Nat} {outer : List Activation} {s : State} (fit : s.Fit)
    (limit_eq : s.limits.nesting = limit) (orderly : Orderly limit ⟨least, s.depth⟩ outer) :
    Same (expression fuel least) (watched check fuel outer least) s := by
  induction fuel generalizing least outer s with
  | zero => exact .refl _ _
  | succ fuel ih =>
    have looks : Same (watched check (fuel + 1) outer least) (do
        let left ← term (watched check fuel (⟨least, s.depth⟩ :: outer) 1)
        chain (watched check fuel (⟨least, s.depth⟩ :: outer)) least
          ((← get).limits.height + 1) left) s := by
      show (if check (⟨least, s.depth⟩ :: outer) then _ else _ : Parser Node) s = _
      rw [if_pos (accepts _ _ orderly)]
    refine Eq.trans ?_ looks.symm
    refine body_same (fun least => expression_reads fuel least) least ?_ ?_ fit
    · intro t fit_t limits depth
      have room : s.depth < limit := by
        have := fit_t.depth_le
        rw [limits, limit_eq, depth] at this
        exact this
      refine ih fit_t (by rw [limits, limit_eq]) ?_
      rw [depth]
      exact orderly.inside room
    · intro op counts t fit_t limits depth
      refine ih fit_t (by rw [limits, limit_eq]) ?_
      rw [depth]
      exact orderly.operand op counts

end Parser

end Calculator
