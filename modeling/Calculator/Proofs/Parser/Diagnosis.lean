import Calculator.Proofs.Grammar.Viable
import Calculator.Proofs.Parser.Contract

/-!
# Where a parser fails

The parsers follow the walk over situations: from a state whose situation is known, the lexemes that
a parser passes are walked, whether it ends with a result or with a failure. What a failure blames
is refused by the situation that it comes in, and the alternatives that it names are those of the
situation.

1. `Situation.expected`: the alternatives of a situation.
2. `Blames`: what a failure says of the situation it comes in.
3. `whole_diagnoses`: what the failure of a parser of whole sources says.
-/

namespace Calculator

/-! ## Alternatives -/

/-- The tokens that the alternative is a name for. -/
def Expectation.names : Expectation → Token → Bool
  | .integer, .number _ | .identifier, .name _ | .openParen, .openParen
  | .closeParen, .closeParen | .comma, .comma | .minus, .operator .minus
  | .operator, .operator _ => true
  | _, _ => false

namespace Situation

def expectedAfter : List Enclosure → List Expectation
  | [] => [.operator, .endOfInput]
  | .group :: _ => [.operator, .closeParen]
  | .call :: _ => [.operator, .comma, .closeParen]

/-- The alternatives of the situation, as far as messages name them. -/
def expected (z : Situation) : List Expectation :=
  match z.stage with
  | .operand | .first => [.integer, .identifier, .openParen, .minus]
  | .negated => [.integer, .identifier, .openParen]
  | .operator | .named _ => expectedAfter z.enclosures

/-- What is next may come: the token, or the end. -/
def Takes (z : Situation) : Option Token → Prop
  | some t => ∃ z', z.step t = some z'
  | none => After [] z

end Situation

namespace Parser

open Situation

variable {α : Type} {z z' z'' : Situation} {s s' s'' : State} {es : List Enclosure} {e : Failure}

/-! ## From situation to situation -/

/-- The lexemes between the states lead from one situation to the other. -/
def Reached (z : Situation) (s : State) (z' : Situation) (s' : State) : Prop :=
  ∃ ls, s.Passes ls s' ∧ z.walk (ls.map Lexeme.token) = some z'

namespace Reached

theorem refl (z : Situation) (s : State) : Reached z s z s := ⟨[], .refl s, rfl⟩

theorem trans (h : Reached z s z' s') (h' : Reached z' s' z'' s'') : Reached z s z'' s'' := by
  obtain ⟨ls, passes, walked⟩ := h
  obtain ⟨ms, passes', walked'⟩ := h'
  refine ⟨ls ++ ms, passes.trans passes', ?_⟩
  rw [List.map_append, walk_append walked]
  exact walked'

theorem step {t : Token} (next : s.next = some t) (step : z.step t = some z') :
    Reached z s z' { s with rest := s.rest.tail } := by
  obtain ⟨offset, rest, shape⟩ := rest_of_next next
  refine ⟨_, .advance shape, ?_⟩
  rw [List.map_singleton, walk_cons, step]
  rfl

theorem of_deeper (h : Reached z { s with depth := s.depth + 1 } z' s') :
    Reached z s z' { s' with depth := s'.depth - 1 } := by
  obtain ⟨ls, passes, walked⟩ := h
  exact ⟨ls, passes.of_deeper, walked⟩

end Reached

/-- What the failure says of the situation and the state that it is about: what is next is refused,
or it calls a function that there is not. -/
def Blames (z : Situation) (s : State) : Failure → Prop
  | .unexpected position found expected =>
    position = s.position ∧ found = s.next ∧ expected = z.expected ∧ ¬ z.Takes s.next
  | .unknownFunction x position => Aggregate.ofName? x = none ∧ ∃ rest, s.Calls position x rest
  | .tooNested position | .tooHigh position => position = s.position
  | .exhausted => True

/-- Where a failure that is about the state leaves the parser: there, or after the name that calls
nothing and its parenthesis. -/
def Failure.Leaves (s : State) : Failure → State → Prop
  | .unknownFunction x p, s' => ∃ rest, s.Calls p x rest ∧ s' = { s with rest }
  | _, s' => s' = s

def Diagnoses (z : Situation) (s : State) (e : Failure) (s' : State) : Prop :=
  ∃ z' s₁, Reached z s z' s₁ ∧ Blames z' s₁ e ∧ e.Leaves s₁ s'

theorem Diagnoses.here (blames : Blames z s e) (leaves : e.Leaves s s') : Diagnoses z s e s' :=
  ⟨z, s, .refl z s, blames, leaves⟩

theorem Diagnoses.after (reached : Reached z s z' s') (h : Diagnoses z' s' e s'') :
    Diagnoses z s e s'' := by
  obtain ⟨z'', s₁, reached', blames⟩ := h
  exact ⟨z'', s₁, reached.trans reached', blames⟩

theorem Diagnoses.of_deeper (h : Diagnoses z { s with depth := s.depth + 1 } e s') :
    Diagnoses z s e { s' with depth := s'.depth - 1 } := by
  obtain ⟨z', s₁, reached, blames, leaves⟩ := h
  refine ⟨z', { s₁ with depth := s₁.depth - 1 }, reached.of_deeper, ?_, ?_⟩
  · cases e <;> exact blames
  · cases e with
    | unknownFunction x p =>
      obtain ⟨rest, calls, rfl⟩ := leaves
      exact ⟨rest, calls, rfl⟩
    | _ =>
      obtain rfl := leaves
      rfl

theorem nested_diagnoses {body : Parser α} {ok : α → State → Prop}
    (h : Ensures body { s with depth := s.depth + 1 }
      (fun a s' => ok a { s' with depth := s'.depth - 1 })
      (Diagnoses z { s with depth := s.depth + 1 })) :
    Ensures (nested body) s ok (Diagnoses z s) := by
  rw [ensures_nested]
  split
  · exact h.imp (fun _ _ ok => ok) fun _ _ fails => fails.of_deeper
  · exact .here rfl rfl

/-- An operand has ended, and it was no name that calls. -/
structure Ended (es : List Enclosure) (z : Situation) (s : State) : Prop where
  after : After es z
  no_call : ∀ x, z = ⟨.named x, es⟩ → s.next ≠ some .openParen

theorem Ended.step_eq (h : Ended es z s) {t : Token} (next : s.next = some t) :
    z.step t = follows es t := by
  obtain ⟨after, no_call⟩ := h
  cases after with
  | operator => exact step_operator es t
  | named x =>
    refine step_named x es ?_
    rintro rfl
    exact no_call x rfl next

theorem Ended.operator (s : State) : Ended es ⟨.operator, es⟩ s := ⟨.operator, nofun⟩

theorem Ended.blames (h : Ended es z s)
    (token : ∀ t, s.next = some t → follows es t = none) (last : s.next = none → es ≠ []) :
    Blames z s (.unexpected s.position s.next (expectedAfter es)) := by
  refine ⟨rfl, rfl, ?_, ?_⟩
  · cases h.after <;> rfl
  · cases next : s.next with
    | none =>
      intro ends
      have := h.after
      cases this <;> cases ends <;> exact last next rfl
    | some t =>
      rintro ⟨z', step⟩
      rw [h.step_eq next, token t next] at step
      cases step

/-- An operand may come. Where the first argument of a call may, the call does not end at once. -/
inductive BeforeOperand (es : List Enclosure) (s : State) : Situation → Prop where
  | operand : BeforeOperand es s ⟨.operand, es⟩
  | first : s.next ≠ some .closeParen → BeforeOperand es s ⟨.first, es⟩

/-- A primary has to come, or the alternatives are missed. -/
structure BeforePrimary (es : List Enclosure) (z : Situation) (s : State)
    (alternatives : List Expectation) : Prop where
  step_eq : ∀ t, s.next = some t → z.step t = begins es t
  not_after : ¬ After [] z
  expected_eq : alternatives = z.expected

theorem BeforePrimary.negated (es : List Enclosure) (s : State) :
    BeforePrimary es ⟨.negated, es⟩ s [.integer, .identifier, .openParen] :=
  ⟨fun t _ => step_negated es t, nofun, rfl⟩

theorem BeforePrimary.blames {alternatives : List Expectation}
    (h : BeforePrimary es z s alternatives) (token : ∀ t, s.next = some t → begins es t = none) :
    Blames z s (.unexpected s.position s.next alternatives) := by
  refine ⟨rfl, rfl, h.expected_eq, ?_⟩
  cases next : s.next with
  | none => exact h.not_after
  | some t =>
    rintro ⟨z', step⟩
    rw [h.step_eq t next, token t next] at step
    cases step

theorem BeforeOperand.primary (h : BeforeOperand es s z)
    (plain : s.next ≠ some (.operator .minus)) :
    BeforePrimary es z s [.integer, .identifier, .openParen, .minus] := by
  cases h with
  | operand =>
    refine ⟨fun t next => step_operand es ?_, nofun, rfl⟩
    rintro rfl
    exact plain next
  | first open_call =>
    refine ⟨fun t next => ?_, nofun, rfl⟩
    rw [step_first es fun close => open_call (close ▸ next),
      step_operand es fun minus => plain (minus ▸ next)]

theorem BeforeOperand.minus (h : BeforeOperand es s z) :
    z.step (.operator .minus) = some ⟨.negated, es⟩ := by
  cases h <;> rfl

def DiagnosesExpression (expression : Parser Node) (least : Nat) : Prop :=
  ∀ es z s, BeforeOperand es s z →
    Ensures expression s
      (fun _ s' => ∃ z', Reached z s z' s' ∧ Ended es z' s' ∧
        ∀ op, s'.next = some (.operator op) → op.precedence < least)
      (Diagnoses z s)

theorem not_precedence_lt_one (op : Operator) : ¬ op.precedence < 1 := by
  cases op <;> decide

section

variable {E : Parser Node}

/-! ## Groups -/

theorem group_diagnoses (hE : DiagnosesExpression E 1) (next : s.next = some .openParen)
    (step : z.step .openParen = some ⟨.operand, .group :: es⟩) :
    Ensures (group E) s (fun _ s' => Reached z s ⟨.operator, es⟩ s') (Diagnoses z s) := by
  rw [group]
  apply nested_diagnoses
  rw [ensures_bind, ensures_advance, ensures_bind]
  have opened : Reached z { s with depth := s.depth + 1 } ⟨.operand, .group :: es⟩
    { s with depth := s.depth + 1, rest := s.rest.tail } := .step next step
  refine (hE _ _ _ .operand).imp ?_ fun _ _ fails => fails.after opened
  intro node s' outcome
  obtain ⟨z', reached, ended, stops⟩ := outcome
  have inside := opened.trans reached
  rw [ensures_bind, ensures_peek]
  split
  · next close =>
    rw [ensures_bind, ensures_advance, ensures_pure]
    exact (inside.trans (.step close (ended.step_eq close))).of_deeper
  · next other =>
    rw [ensures_unexpected]
    refine .after inside (.here (ended.blames (fun t next => ?_) fun _ => List.cons_ne_nil _ _) rfl)
    cases t with
    | operator op => exact absurd (stops op next) (not_precedence_lt_one op)
    | closeParen => exact absurd next other
    | _ => rfl

/-! ## Calls -/

theorem argumentsFrom_diagnoses (hE : DiagnosesExpression E 1) (bound : Nat)
    (h : BeforeOperand (.call :: es) s z) :
    Ensures (argumentsFrom E bound) s (fun _ s' => Reached z s ⟨.operator, es⟩ s')
      (Diagnoses z s) := by
  induction bound generalizing z s with
  | zero =>
    rw [argumentsFrom, ensures_throw]
    exact .here trivial rfl
  | succ bound ih =>
    rw [argumentsFrom, ensures_bind]
    refine (hE _ _ _ h).imp ?_ fun _ _ fails => fails
    intro first s₁ outcome
    obtain ⟨z₁, reached, ended, stops⟩ := outcome
    rw [ensures_bind, ensures_peek]
    split
    · next close =>
      rw [ensures_bind, ensures_advance, ensures_pure]
      exact reached.trans (.step close (ended.step_eq close))
    · next comma =>
      rw [ensures_bind, ensures_advance, ensures_bind]
      have passed := reached.trans (.step comma (ended.step_eq comma))
      refine (ih .operand).imp ?_ fun _ _ fails => fails.after passed
      intro others s₂ last
      rw [ensures_pure]
      exact passed.trans last
    · next not_close not_comma =>
      rw [ensures_unexpected]
      refine .after reached
        (.here (ended.blames (fun t next => ?_) fun _ => List.cons_ne_nil _ _) rfl)
      cases t with
      | operator op => exact absurd (stops op next) (not_precedence_lt_one op)
      | closeParen => exact absurd next not_close
      | comma => exact absurd next not_comma
      | _ => rfl

theorem arguments_diagnoses (hE : DiagnosesExpression E 1) (es : List Enclosure) (s : State) :
    Ensures (arguments E) s (fun _ s' => Reached ⟨.first, .call :: es⟩ s ⟨.operator, es⟩ s')
      (Diagnoses ⟨.first, .call :: es⟩ s) := by
  rw [arguments, ensures_bind, ensures_peek]
  split
  · next close =>
    rw [ensures_bind, ensures_advance, ensures_pure]
    exact .step close rfl
  · next other =>
    rw [ensures_bind, ensures_get]
    exact argumentsFrom_diagnoses hE _ (.first other)

theorem callOf_diagnoses (hE : DiagnosesExpression E 1) (f : Aggregate) (es : List Enclosure)
    (s : State) :
    Ensures (callOf E f) s (fun _ s' => Reached ⟨.first, .call :: es⟩ s ⟨.operator, es⟩ s')
      (Diagnoses ⟨.first, .call :: es⟩ s) := by
  rw [callOf, ensures_bind]
  refine (nested_diagnoses
    ((arguments_diagnoses hE es _).imp (fun _ _ reached => reached.of_deeper) fun _ _ fails =>
      fails)).imp ?_ fun _ _ fails => fails
  intro result s₁ reached
  rw [ensures_limited]
  split
  · exact reached
  · exact .after reached (.here rfl rfl)

theorem call?_diagnoses (hE : DiagnosesExpression E 1)
    (name : ∀ x, s.next = some (.name x) → z.step (.name x) = some ⟨.named x, es⟩) :
    Ensures (call? E) s
      (fun result s' => match result with
        | none => s' = s ∧ s.NoCall
        | some _ => Reached z s ⟨.operator, es⟩ s')
      (Diagnoses z s) := by
  refine ensures_call? (fun noCall => ⟨rfl, noCall⟩) (fun p x rest calls unknown => ?_)
    fun p f rest calls => ?_
  · exact .here ⟨unknown, rest, calls⟩ ⟨rest, calls, rfl⟩
  · -- The name and the parenthesis are passed, and the call is noted.
    obtain ⟨q, passes⟩ := calls.passes (s.calls.push ⟨p, f⟩)
    have opened : Reached z s ⟨.first, .call :: es⟩
        { s with rest, calls := s.calls.push ⟨p, f⟩ } := by
      refine ⟨_, passes, ?_⟩
      rw [List.map_cons, walk_cons, name f.name (next_cons passes.rest)]
      show ((Aggregate.ofName? f.name).map _).bind _ = _
      rw [Aggregate.ofName?_eq_some_iff.mpr rfl]
      rfl
    exact (callOf_diagnoses hE f es _).imp (fun _ _ reached => opened.trans reached)
      fun _ _ fails => fails.after opened

/-! ## Primaries and terms -/

theorem primary_diagnoses (hE : DiagnosesExpression E 1) {alternatives : List Expectation}
    (h : BeforePrimary es z s alternatives) :
    Ensures (primary E alternatives) s (fun _ s' => ∃ z', Reached z s z' s' ∧ Ended es z' s')
      (Diagnoses z s) := by
  rw [primary, ensures_bind]
  refine (call?_diagnoses hE fun x next => h.step_eq _ next).imp ?_ fun _ _ fails => fails
  intro result s' outcome
  cases result with
  | some node => exact ⟨_, outcome, .operator s'⟩
  | none =>
    obtain ⟨rfl, no_call⟩ := outcome
    rw [ensures_bind, ensures_peek]
    split
    · next v number =>
      rw [ensures_bind, ensures_advance, ensures_pure]
      exact ⟨_, .step number (h.step_eq _ number), .operator _⟩
    · next x name =>
      rw [ensures_bind, ensures_advance, ensures_pure]
      refine ⟨_, .step name (h.step_eq _ name), .named x, fun _ _ opens => ?_⟩
      obtain ⟨offset, rest, shape⟩ := rest_of_next name
      obtain ⟨offset', rest', shape'⟩ := rest_of_next opens
      have tail : rest = ⟨offset', .openParen⟩ :: rest' := by simpa [shape] using shape'
      exact no_call offset x rest' ⟨offset', by rw [shape, tail]⟩
    · next opens =>
      refine (group_diagnoses hE opens (h.step_eq _ opens)).imp ?_ fun _ _ fails => fails
      exact fun _ s'' reached => ⟨_, reached, .operator s''⟩
    · next not_number not_name not_open =>
      rw [ensures_unexpected]
      refine .here (h.blames fun t next => ?_) rfl
      cases t with
      | number v => exact absurd next (not_number v)
      | name x => exact absurd next (not_name x)
      | openParen => exact absurd next not_open
      | _ => rfl

theorem term_diagnoses (hE : DiagnosesExpression E 1) (h : BeforeOperand es s z) :
    Ensures (term E) s (fun _ s' => ∃ z', Reached z s z' s' ∧ Ended es z' s')
      (Diagnoses z s) := by
  rw [term, ensures_bind, ensures_peek]
  split
  · next minus =>
    rw [ensures_bind, ensures_advance, ensures_bind]
    have passed := Reached.step minus h.minus
    refine (primary_diagnoses hE (.negated es _)).imp ?_ fun _ _ fails => fails.after passed
    intro node s' outcome
    obtain ⟨z', reached, ended⟩ := outcome
    rw [ensures_limited]
    split
    · exact ⟨z', passed.trans reached, ended⟩
    · exact .after (passed.trans reached) (.here rfl rfl)
  · next plain => exact primary_diagnoses hE (h.primary plain)

/-! ## Chains of operators -/

theorem chain_diagnoses {operand : Nat → Parser Node}
    (hop : ∀ least, DiagnosesExpression (operand least) least) (least bound : Nat) {left : Node}
    (ended : Ended es z s) :
    Ensures (chain operand least bound left) s
      (fun _ s' => ∃ z', Reached z s z' s' ∧ Ended es z' s' ∧
        ∀ op, s'.next = some (.operator op) → op.precedence < least)
      (Diagnoses z s) := by
  induction bound generalizing z s left with
  | zero =>
    rw [chain, ensures_throw]
    exact .here trivial rfl
  | succ bound ih =>
    rw [chain, ensures_bind, ensures_peek]
    split
    · next op operator =>
      split
      · next loose =>
        refine ⟨z, .refl z s, ended, fun op' operator' => ?_⟩
        rw [operator] at operator'
        cases operator'
        exact loose
      · rw [ensures_bind, ensures_advance, ensures_bind]
        have passed := Reached.step operator (ended.step_eq operator)
        refine (hop (op.precedence + 1) es _ _ .operand).imp ?_ fun _ _ fails => fails.after passed
        intro right s₂ outcome
        obtain ⟨z₂, reached, ended₂, -⟩ := outcome
        have through := passed.trans reached
        rw [ensures_bind, ensures_limited]
        split
        · refine (ih ended₂).imp ?_ fun _ _ fails => fails.after through
          intro node s₃ outcome
          obtain ⟨z₃, reached₃, rest⟩ := outcome
          exact ⟨z₃, through.trans reached₃, rest⟩
        · exact .after through (.here rfl rfl)
    · next other => exact ⟨z, .refl z s, ended, fun op operator => absurd operator (other op)⟩

end

/-! ## Expressions and sources -/

theorem expression_diagnoses (fuel least : Nat) :
    DiagnosesExpression (expression fuel least) least := by
  induction fuel generalizing least with
  | zero =>
    intro es z s h
    rw [expression, ensures_throw]
    exact .here trivial rfl
  | succ fuel ih =>
    intro es z s h
    rw [expression, ensures_bind]
    refine (term_diagnoses (ih 1) h).imp ?_ fun _ _ fails => fails
    intro left s₁ outcome
    obtain ⟨z₁, reached, ended⟩ := outcome
    rw [ensures_bind, ensures_get]
    refine (chain_diagnoses ih least _ ended).imp ?_ fun _ _ fails => fails.after reached
    intro node s₂ outcome
    obtain ⟨z₂, reached₂, rest⟩ := outcome
    exact ⟨z₂, reached.trans reached₂, rest⟩

/-- The failure of a parser of whole sources blames the situation that the lexemes before it lead
to. -/
theorem whole_diagnoses (fuel : Nat) (s : State) :
    Ensures (whole fuel) s (fun _ _ => True) (Diagnoses start s) := by
  rw [whole, ensures_bind]
  refine (expression_diagnoses fuel 1 [] start s .operand).imp ?_ fun _ _ fails => fails
  intro node s' outcome
  obtain ⟨z', reached, ended, stops⟩ := outcome
  rw [ensures_bind, ensures_peek]
  split
  · trivial
  · next t next =>
    rw [ensures_unexpected]
    refine .after reached (.here (ended.blames (fun t' next' => ?_) fun last => ?_) rfl)
    · cases t' with
      | operator op => exact absurd (stops op next') (not_precedence_lt_one op)
      | _ => rfl
    · rw [next] at last
      cases last

end Parser

end Calculator
