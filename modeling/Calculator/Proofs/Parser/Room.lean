import Calculator.Proofs.Parser.Run

/-!
# More room

What a parser returns it returns again where there is more room: with higher limits, room for more
lexemes, and more fuel. The limits only ever turn results into failures, so what is known of the
results in states with room enough is known of the results in all states.

1. `Wider`: a state with as many open parentheses and more room.
2. `Widens`: what one parser returns another one returns in every wider state.
3. `expression_widens`: parsers of expressions with more fuel do that.
-/

namespace Calculator

namespace Parser

/-- The lexemes that are left and the open parentheses are the same, and there is more room. -/
structure Wider (s t : State) : Prop where
  rest : t.rest = s.rest
  depth : t.depth = s.depth
  nesting_le : s.limits.nesting ≤ t.limits.nesting
  height_le : s.limits.height ≤ t.limits.height
  size_le : s.size ≤ t.size

/-- What the first parser returns the second one returns in every wider state. -/
def Widens {α : Type} (p q : Parser α) : Prop :=
  ∀ s t, Wider s t → ∀ a s', p s = .ok a s' → ∃ t', q t = .ok a t' ∧ Wider s' t'

theorem Wider.next {s t : State} (h : Wider s t) : t.next = s.next := by
  rw [State.next, h.rest, State.next]

namespace Widens

variable {α β : Type} {p q : Parser β} {f g : β → Parser α}

theorem pure (a : α) : Widens (Pure.pure a : Parser α) (Pure.pure a) := by
  intro s t wider b s' run
  cases run
  exact ⟨t, rfl, wider⟩

theorem throw (e : Failure) (q : Parser α) : Widens (throw e) q := by
  intro s t wider a s' run
  cases run

theorem unexpected (expected : List Expectation) (q : Parser α) :
    Widens (unexpected expected) q := by
  intro s t wider a s' run
  cases run

theorem bind (first : Widens p q) (second : ∀ b, Widens (f b) (g b)) :
    Widens (p >>= f) (q >>= g) := by
  intro s t wider a s' run
  obtain ⟨b, s₁, run₁, run₂⟩ := bind_eq_ok_iff.mp run
  obtain ⟨t₁, runs₁, wider₁⟩ := first s t wider b s₁ run₁
  obtain ⟨t', runs₂, wider'⟩ := second b s₁ t₁ wider₁ a s' run₂
  exact ⟨t', bind_eq_ok_iff.mpr ⟨b, t₁, runs₁, runs₂⟩, wider'⟩

theorem ofState {f g : State → Parser α} (h : ∀ s t, Wider s t → Widens (f s) (g t)) :
    Widens (get >>= f) (get >>= g) :=
  fun s t wider => h s t wider s t wider

theorem peek : Widens peek peek := by
  intro s t wider next s' run
  cases run
  refine ⟨t, ?_, wider⟩
  show EStateM.Result.ok t.next t = _
  rw [wider.next]

theorem modify {change : State → State} (h : ∀ s t, Wider s t → Wider (change s) (change t)) :
    Widens (modify change : Parser Unit) (modify change) := by
  intro s t wider a s' run
  cases run
  exact ⟨_, rfl, h s t wider⟩

theorem advance : Widens advance advance :=
  modify fun _ _ wider => { wider with rest := congrArg List.tail wider.rest }

theorem callee : Widens callee? callee? := by
  intro s t wider result s' run
  rcases s.calls_or_noCall with ⟨p, x, rest, calls⟩ | noCall
  · have calls' : t.Calls p x rest := by rwa [State.Calls, wider.rest]
    rw [callee?_of_calls calls] at run
    cases run
    exact ⟨_, callee?_of_calls calls', { wider with rest := rfl }⟩
  · have noCall' : t.NoCall := by simpa only [State.NoCall, State.Calls, wider.rest] using noCall
    rw [callee?_of_noCall noCall] at run
    cases run
    exact ⟨t, callee?_of_noCall noCall', wider⟩

theorem limited (node : Node) : Widens (limited node) (limited node) := by
  refine ofState fun s t wider => ?_
  by_cases within : node.height ≤ s.limits.height
  · rw [if_pos within, if_pos (Nat.le_trans within wider.height_le)]
    exact .pure node
  · rw [if_neg within]
    exact .throw _ _

theorem nested (h : Widens p q) : Widens (nested p) (nested q) := by
  intro s t wider a s' run
  unfold Parser.nested at run ⊢
  split at run
  case isFalse => cases run
  case isTrue room =>
    have room' : t.depth < t.limits.nesting := by
      rw [wider.depth]
      exact Nat.lt_of_lt_of_le room wider.nesting_le
    rw [if_pos room']
    split at run
    case h_2 => cases run
    case h_1 b s₁ run₁ =>
      cases run
      have deeper : Wider { s with depth := s.depth + 1 } { t with depth := t.depth + 1 } :=
        { wider with depth := congrArg (· + 1) wider.depth }
      obtain ⟨t₁, runs, wider₁⟩ := h _ _ deeper _ _ run₁
      rw [runs]
      exact ⟨_, rfl, { wider₁ with depth := congrArg (· - 1) wider₁.depth }⟩

end Widens

/-! ## Forms -/

section

variable {E E' : Parser Node}

theorem group_widens (h : Widens E E') : Widens (group E) (group E') := by
  refine .nested (.bind .advance fun _ => h.bind fun node => .bind .peek fun next => ?_)
  split
  · exact .bind .advance fun _ => .pure _
  · exact .unexpected _ _

theorem argumentsFrom_widens (h : Widens E E') {bound bound' : Nat} (le : bound ≤ bound') :
    Widens (argumentsFrom E bound) (argumentsFrom E' bound') := by
  induction bound generalizing bound' with
  | zero => exact .throw _ _
  | succ bound ih =>
    obtain ⟨more, rfl⟩ := Nat.exists_eq_add_of_le' le
    refine h.bind fun first => .bind .peek fun next => ?_
    split
    · exact .bind .advance fun _ => .pure _
    · exact .bind .advance fun _ => (ih (Nat.le_add_left _ _)).bind fun _ => .pure _
    · exact .unexpected _ _

theorem arguments_widens (h : Widens E E') : Widens (arguments E) (arguments E') := by
  refine .bind .peek fun next => ?_
  split
  · exact .bind .advance fun _ => .pure _
  · exact .ofState fun s t wider =>
      argumentsFrom_widens h (Nat.add_le_add_right wider.size_le 1)

theorem callOf_widens (h : Widens E E') (f : Aggregate) : Widens (callOf E f) (callOf E' f) :=
  (arguments_widens h).nested.bind fun _ => .limited _

theorem call?_widens (h : Widens E E') : Widens (call? E) (call? E') := by
  refine .bind .callee fun callee => ?_
  split
  · exact .pure _
  · split
    · exact .throw _ _
    · refine .bind (.modify fun s t wider => ?_) fun _ => (callOf_widens h _).bind fun _ => .pure _
      exact { wider with }

theorem primary_widens (h : Widens E E') (expected : List Expectation) :
    Widens (primary E expected) (primary E' expected) := by
  refine (call?_widens h).bind fun result => ?_
  split
  · exact .pure _
  · refine .bind .peek fun next => ?_
    split
    · exact .bind .advance fun _ => .pure _
    · exact .bind .advance fun _ => .pure _
    · exact group_widens h
    · exact .unexpected _ _

theorem term_widens (h : Widens E E') : Widens (term E) (term E') := by
  refine .bind .peek fun next => ?_
  split
  · exact .bind .advance fun _ => (primary_widens h _).bind fun _ => .limited _
  · exact primary_widens h _

theorem chain_widens {operand operand' : Nat → Parser Node}
    (h : ∀ least, Widens (operand least) (operand' least)) (least : Nat) {bound bound' : Nat}
    (le : bound ≤ bound') (left : Node) :
    Widens (chain operand least bound left) (chain operand' least bound' left) := by
  induction bound generalizing bound' left with
  | zero => exact .throw _ _
  | succ bound ih =>
    obtain ⟨more, rfl⟩ := Nat.exists_eq_add_of_le' le
    refine .bind .peek fun next => ?_
    split
    · split
      · exact .pure _
      · refine .bind .advance fun _ => (h _).bind fun right => .bind (.limited _) fun node => ?_
        exact ih (Nat.le_add_left _ _) node
    · exact .pure _

end

theorem expression_widens {fuel fuel' : Nat} (le : fuel ≤ fuel') (least : Nat) :
    Widens (expression fuel least) (expression fuel' least) := by
  induction fuel generalizing fuel' least with
  | zero => exact .throw _ _
  | succ fuel ih =>
    obtain ⟨more, rfl⟩ := Nat.exists_eq_add_of_le' le
    have operands (least : Nat) := ih (Nat.le_add_left fuel more) least
    refine (term_widens (operands 1)).bind fun left => .ofState fun s t wider => ?_
    exact chain_widens operands least (Nat.add_le_add_right wider.height_le 1) left

end Parser

end Calculator
