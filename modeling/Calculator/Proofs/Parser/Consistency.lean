import Calculator.Proofs.Parser.Activation

/-!
# Consistent states

What every parser keeps of the state that it is started in, whether it ends with a result or with a
failure. The lexemes are the same, and the place among them is one of theirs; as many parentheses
are open as before; a tree takes a lexeme at least, its height is the one that is returned with it,
and within the limit.

That the parentheses were within their limit all along, and that none was closed that was not open,
is what a parser shows that looks at every parenthesis it opens and closes (`Checked`): whatever
alarm it would raise, it does the same.

1. `Checked.expression`: the parsers that check their parentheses.
2. `nested_same_guarded`: checking changes nothing where a body keeps its parentheses.
3. `expression_same_checked`: so it changes nothing in any parser.
4. `state_stays_consistent`: the contract of all parsers.
-/

namespace Calculator

namespace Parser

/-! ## Parsers that check their parentheses -/

/-- Opens a parenthesis. The alarm is raised if more are open then than the limit allows. -/
def enter (alarm : Failure) : Parser Unit := do
  let s ← get
  if s.depth < s.limits.nesting then
    set { s with depth := s.depth + 1 }
    if s.limits.nesting < (← get).depth then throw alarm
  else throw (.tooNested s.position)

/-- Closes a parenthesis. The alarm is raised if none is open. -/
def leave (alarm : Failure) : Parser Unit := do
  let s ← get
  if s.depth = 0 then throw alarm else set { s with depth := s.depth - 1 }

/-- Runs a parser between an opening and a closing parenthesis that are checked. -/
def guarded {α : Type} (alarm : Failure) (body : Parser α) : Parser α := do
  enter alarm
  let outcome ← observing body
  leave alarm
  ofExcept outcome

/-- A body that closes a parenthesis of its own accord is found out. -/
example (alarm : Failure) :
    ∃ s, guarded alarm (modify fun s => { s with depth := s.depth - 1 })
      (.start .standard "" []) = .error alarm s := ⟨_, rfl⟩

namespace Checked

variable (alarm : Failure)

def group (expression : Parser Node) : Parser Node :=
  guarded alarm (advance >>= fun _ => closing expression)

def callOf (expression : Parser Node) (f : Aggregate) : Parser Node := do
  let (args, height) ← guarded alarm (arguments expression)
  limited ⟨.call f args, height + 1⟩

def call? (expression : Parser Node) : Parser (Option Node) := do
  match ← callee? with
  | none => return none
  | some (x, position) =>
    match Aggregate.ofName? x with
    | none => throw (.unknownFunction x position)
    | some f =>
      modify fun s => { s with calls := s.calls.push ⟨position, f⟩ }
      return some (← callOf alarm expression f)

def primary (expression : Parser Node) (expected : List Expectation) : Parser Node := do
  match ← call? alarm expression with
  | some node => return node
  | none =>
    match ← peek with
    | some (.number v) =>
      advance
      return ⟨.number v, 1⟩
    | some (.name x) =>
      advance
      return ⟨.var x, 1⟩
    | some .openParen => group alarm expression
    | _ => unexpected expected

def term (expression : Parser Node) : Parser Node := do
  match ← peek with
  | some (.operator .minus) =>
    advance
    let node ← primary alarm expression [.integer, .identifier, .openParen]
    limited ⟨.neg node.expr, node.height + 1⟩
  | _ => primary alarm expression [.integer, .identifier, .openParen, .minus]

def expression : (fuel least : Nat) → Parser Node
  | 0, _ => throw .exhausted
  | fuel + 1, least => do
    let left ← term alarm (expression fuel 1)
    chain (expression fuel) least ((← get).limits.height + 1) left

end Checked

/-! ## Checking changes nothing -/

section

variable {E : Parser Node} {fuel : Nat} {s : State} (alarm : Failure)

variable {α : Type} {ok : α → State → Prop} {fail : Failure → State → Prop}

theorem ensures_observing (body : Parser α) {ok : Except Failure α → State → Prop} :
    Ensures (observing body) s ok fail ↔
      Ensures body s (fun a s' => ok (.ok a) s') (fun e s' => ok (.error e) s') := by
  have observed : observing body s =
      EStateM.tryCatch (EStateM.bind body fun a => pure (Except.ok a))
        (fun e => pure (Except.error e)) s := rfl
  unfold EStateM.tryCatch EStateM.bind at observed
  unfold Ensures
  rw [observed]
  cases body s <;> rfl

theorem ensures_enter {ok : Unit → State → Prop} :
    Ensures (enter alarm) s ok fail ↔
      if s.depth < s.limits.nesting then ok () { s with depth := s.depth + 1 }
      else fail (.tooNested s.position) s := by
  rw [enter, ensures_bind, ensures_get]
  split
  · next room =>
    rw [ensures_bind]
    show Ensures (if s.limits.nesting < s.depth + 1 then _ else _) _ ok fail ↔ _
    rw [if_neg (by omega)]
    rfl
  · rfl

theorem ensures_leave {ok : Unit → State → Prop} (opened : 0 < s.depth) :
    Ensures (leave alarm) s ok fail ↔ ok () { s with depth := s.depth - 1 } := by
  rw [leave, ensures_bind, ensures_get, if_neg (by omega)]
  rfl

theorem same_of_ensures {p q : Parser α}
    (h : Ensures q s (fun a s' => p s = .ok a s') (fun e s' => p s = .error e s')) :
    Same p q s := by
  unfold Ensures at h
  unfold Same
  cases run : q s with
  | ok a s' => rwa [run] at h
  | error e s' => rwa [run] at h

/-- A body that keeps its parentheses may be checked. -/
theorem nested_same_guarded {body : Parser α}
    (keeps : s.depth < s.limits.nesting → Ensures body { s with depth := s.depth + 1 }
      (fun _ s' => s'.depth = s.depth + 1) (fun _ s' => s'.depth = s.depth + 1)) :
    Same (nested body) (guarded alarm body) s := by
  apply same_of_ensures
  rw [guarded, ensures_bind, ensures_enter]
  unfold nested
  split
  case isFalse => rfl
  case isTrue room =>
    rw [ensures_bind, ensures_observing]
    apply ((keeps room).and (ensures_run body)).imp
    · intro a s' outcome
      obtain ⟨depth, run⟩ := outcome
      rw [ensures_bind, ensures_leave alarm (by omega), run]
      rfl
    · intro e s' outcome
      obtain ⟨depth, run⟩ := outcome
      rw [ensures_bind, ensures_leave alarm (by omega), run]
      rfl

/-! ## One parser after the other -/

theorem group_same_checked (hE : ReadsExpression E 1 fuel) (fit : s.Fit) :
    Same (group E) (Checked.group alarm E) s := by
  refine nested_same_guarded alarm fun room => ?_
  rw [ensures_bind, ensures_advance]
  apply (closing_reads hE (fit.deeper room).advance).imp
  · intro node s' outcome
    obtain ⟨ls, s₁, offset, -, passes⟩ := outcome
    exact passes.depth
  · intro e s' outcome
    obtain ⟨⟨ls, passes⟩, -⟩ := outcome
    exact passes.depth

theorem arguments_same_guarded (hE : ReadsExpression E 1 fuel) (fit : s.Fit) :
    Same (nested (arguments E)) (guarded alarm (arguments E)) s := by
  refine nested_same_guarded alarm fun room => ?_
  apply (arguments_reads hE (fit.deeper room)).imp
  · intro result s' outcome
    obtain ⟨args, reads⟩ := outcome
    obtain ⟨ls, passes, -⟩ := reads.passes
    exact passes.depth
  · intro e s' outcome
    obtain ⟨⟨ls, passes⟩, -⟩ := outcome
    exact passes.depth

theorem callOf_same_checked (hE : ReadsExpression E 1 fuel) (fit : s.Fit) (f : Aggregate) :
    Same (callOf E f) (Checked.callOf alarm E f) s :=
  (arguments_same_guarded alarm hE fit).bind fun _ _ _ => .refl _ _

theorem call?_same_checked (hE : ReadsExpression E 1 fuel) (fit : s.Fit) :
    Same (call? E) (Checked.call? alarm E) s := by
  -- Looking for a name and its parenthesis opens nothing.
  refine .callee (.refl _ _) fun p x rest calls => ?_
  cases found : Aggregate.ofName? x with
  | none =>
    simp only [found]
    exact .refl _ _
  | some f =>
    simp only [found]
    obtain ⟨q, passes⟩ := calls.passes (s.calls.push ⟨p, f⟩)
    exact .step rfl ((callOf_same_checked alarm hE (passes.fit fit) f).bind fun _ _ _ => .refl _ _)

theorem primary_same_checked (hE : ReadsExpression E 1 fuel) (expected : List Expectation)
    (fit : s.Fit) : Same (primary E expected) (Checked.primary alarm E expected) s := by
  refine (call?_same_checked alarm hE fit).bind fun result s₁ run => ?_
  have outcome := (call?_reads hE fit).of_ok run
  cases result with
  | some node => exact .refl _ _
  | none =>
    obtain rfl : s₁ = s := outcome
    refine .step rfl ?_
    cases s₁.next with
    | none => exact .refl _ _
    | some t =>
      cases t with
      | openParen => exact group_same_checked alarm hE fit
      | _ => exact .refl _ _

theorem term_same_checked (hE : ReadsExpression E 1 fuel) (fit : s.Fit) :
    Same (term E) (Checked.term alarm E) s := by
  have unsigned := primary_same_checked alarm hE [.integer, .identifier, .openParen, .minus] fit
  refine .step rfl ?_
  cases s.next with
  | none => exact unsigned
  | some t =>
    cases t with
    | operator op =>
      cases op with
      | minus =>
        refine .step rfl (Same.bind ?_ fun _ _ _ => .refl _ _)
        exact primary_same_checked (s := { s with rest := s.rest.tail }) alarm hE _ fit.advance
      | _ => exact unsigned
    | _ => exact unsigned

theorem ReadsExpression.congr {E' : Parser Node} {least : Nat} (hE : ReadsExpression E least fuel)
    (same : ∀ t : State, t.Fit → Same E E' t) : ReadsExpression E' least fuel := by
  intro t fit
  have h := hE t fit
  unfold Ensures at h ⊢
  rwa [← show E t = E' t from same t fit]

theorem expression_same_checked (fuel least : Nat) (fit : s.Fit) :
    Same (expression fuel least) (Checked.expression alarm fuel least) s := by
  induction fuel generalizing least s with
  | zero => exact .refl _ _
  | succ fuel ih =>
    -- First the operands are replaced, then the brackets around them.
    have contract (least : Nat) := expression_reads fuel least
    have same (least : Nat) (t : State) (fit_t : t.Fit) := ih least fit_t
    have operands := body_same contract least (fun t fit_t _ _ => same 1 t fit_t)
      (fun op _ t fit_t _ _ => same (op.precedence + 1) t fit_t) fit
    have brackets := term_same_checked alarm ((contract 1).congr (same 1)) fit
    exact operands.trans (brackets.bind fun _ _ _ => .refl _ _)

theorem agree_checked (fuel : Nat) {limits : Limits} {depth : Nat} :
    AgreeAt limits depth (expression fuel 1) (Checked.expression alarm fuel 1) :=
  fun _ fit _ _ => expression_same_checked alarm fuel 1 fit

theorem checked_reads (fuel : Nat) : ReadsExpression (Checked.expression alarm fuel 1) 1 fuel :=
  (expression_reads fuel 1).congr fun _ fit => expression_same_checked alarm fuel 1 fit

end

/-! ## The contract of all parsers -/

/-- The state is at the place `p` of the lexemes: so many of them are passed. -/
structure State.At (s : State) (lexemes : List Lexeme) (p : Nat) : Prop where
  le : p ≤ lexemes.length
  rest : s.rest = lexemes.drop p
  size : s.size = lexemes.length

/-- What is left of the state `s` at another place of the same lexemes. -/
structure State.Keeps (s : State) (lexemes : List Lexeme) (s' : State) (p' : Nat) : Prop where
  place : s'.At lexemes p'
  depth : s'.depth = s.depth
  limits : s'.limits = s.limits

/-- The parser keeps the state `s`, and what it returns is as `returned` says of it and of the place
where it ends. It does the same when it checks its parentheses, whatever alarm it would raise, and
is not exhausted with fuel for all calls that may be active. -/
structure Consistent {α : Type} (lexemes : List Lexeme) (fuel : Nat) (s : State) (parser : Parser α)
    (checked : Failure → Parser α) (returned : α → Nat → Prop) : Prop where
  same : ∀ alarm, Same parser (checked alarm) s
  ends : Ensures parser s (fun a s' => ∃ p', s.Keeps lexemes s' p' ∧ returned a p')
    (fun e s' => (∃ p', s.Keeps lexemes s' p') ∧ (s.limits.active ≤ fuel → e ≠ .exhausted))

/-- From the place `p` of the state `s` on a tree took a lexeme at least, and its height is the one
that is returned and within the limit. -/
def Grown (s : State) (p : Nat) (node : Node) (p' : Nat) : Prop :=
  p < p' ∧ node.height = node.expr.height ∧ node.height ≤ s.limits.height

section

variable {s s' : State} {lexemes ls : List Lexeme} {p : Nat}

theorem State.At.fit (place : s.At lexemes p) (within : s.depth ≤ s.limits.nesting) : s.Fit where
  depth_le := within
  length_le := by
    rw [place.rest, place.size, List.length_drop]
    omega

theorem State.At.keeps (place : s.At lexemes p) (passes : s.Passes ls s') :
    s.Keeps lexemes s' (p + ls.length) where
  place := by
    have rest : lexemes.drop p = ls ++ s'.rest := by rw [← place.rest, passes.rest]
    refine ⟨?_, ?_, passes.size.trans place.size⟩
    · have := congrArg List.length rest
      have := place.le
      simp only [List.length_drop, List.length_append] at *
      omega
    · rw [← List.drop_drop, rest, List.drop_left]
  depth := passes.depth
  limits := passes.limits

theorem Fails.keeps {enough : Prop} {e : Failure} {fuel : Nat} (place : s.At lexemes p)
    (fails : Fails enough s e s') (of_active : s.limits.active ≤ fuel → enough) :
    (∃ p', s.Keeps lexemes s' p') ∧ (s.limits.active ≤ fuel → e ≠ .exhausted) := by
  obtain ⟨⟨ls, passes⟩, not_exhausted⟩ := fails
  exact ⟨⟨_, place.keeps passes⟩, fun active => not_exhausted (of_active active)⟩

theorem Reads.grown {f : Form} {node : Node} (place : s.At lexemes p)
    (reads : Reads f s ls node s') : ∃ p', s.Keeps lexemes s' p' ∧ Grown s p node p' := by
  have some_lexemes : 0 < ls.length := by
    rw [← ls.length_map Lexeme.token]
    exact List.length_pos_iff.mpr reads.derives.ne_nil
  exact ⟨_, place.keeps reads.passes, by omega, reads.height_eq, reads.height_le⟩

theorem demand_le_active (s : State) (least : Nat) : s.demand least ≤ s.limits.active := by
  rw [State.demand, Limits.active]
  omega

theorem demandInside_le_active (s : State) : s.demandInside ≤ s.limits.active := by
  rw [State.demandInside, Limits.active]
  omega

variable (place : s.At lexemes p) (within : s.depth ≤ s.limits.nesting) (fuel : Nat)

include place within

theorem expression_consistent (least : Nat) :
    Consistent lexemes fuel s (expression fuel least) (Checked.expression · fuel least)
      (Grown s p) where
  same alarm := expression_same_checked alarm fuel least (place.fit within)
  ends := by
    apply (expression_reads fuel least s (place.fit within)).imp
    · intro node s' outcome
      obtain ⟨ls, reads, -⟩ := outcome
      exact reads.grown place
    · intro e s' fails
      exact fails.keeps place (Nat.le_trans (demand_le_active s least))

theorem arguments_consistent :
    Consistent lexemes fuel s (arguments (expression fuel 1))
      (fun alarm => arguments (Checked.expression alarm fuel 1))
      (fun result p' => p < p' ∧ result.2 = Expr.heightAll result.1 ∧
        result.2 ≤ s.limits.height) where
  same alarm :=
    arguments_same (expression_reads fuel 1) (agree_checked alarm fuel) (place.fit within)
  ends := by
    apply (arguments_reads (expression_reads fuel 1) (place.fit within)).imp
    · intro result s' outcome
      obtain ⟨args, reads⟩ := outcome
      obtain ⟨ls, passes, tokens⟩ := reads.passes
      have some_lexemes : 0 < ls.length := by
        rw [← ls.length_map Lexeme.token, tokens, List.length_append]
        exact Nat.lt_add_left _ (by decide)
      exact ⟨_, place.keeps passes, by omega, reads.height_eq, reads.height_le⟩
    · intro e s' fails
      exact fails.keeps place (Nat.le_trans (demand_le_active s 1))

theorem closing_consistent :
    Consistent lexemes fuel s (closing (expression fuel 1))
      (fun alarm => closing (Checked.expression alarm fuel 1)) (Grown s p) where
  same alarm :=
    (expression_same_checked alarm fuel 1 (place.fit within)).bind fun _ _ _ => .refl _ _
  ends := by
    apply (closing_reads (expression_reads fuel 1) (place.fit within)).imp
    · intro node s' outcome
      obtain ⟨ls, s₁, offset, reads, passes⟩ := outcome
      refine ⟨_, place.keeps passes, ?_, reads.height_eq, reads.height_le⟩
      rw [List.length_append, List.length_singleton]
      omega
    · intro e s' fails
      exact fails.keeps place (Nat.le_trans (demand_le_active s 1))

theorem call?_consistent :
    Consistent lexemes fuel s (call? (expression fuel 1))
      (fun alarm => Checked.call? alarm (Checked.expression alarm fuel 1))
      (fun result p' => (result = none → p' = p) ∧ ∀ node ∈ result, Grown s p node p') where
  same alarm :=
    (call?_same (expression_reads fuel 1) (agree_checked alarm fuel) (place.fit within)).trans
      (call?_same_checked alarm (checked_reads alarm fuel) (place.fit within))
  ends := by
    apply (call?_reads (expression_reads fuel 1) (place.fit within)).imp
    · intro result s' outcome
      cases result with
      | none =>
        obtain rfl : s' = s := outcome
        exact ⟨p, ⟨place, rfl, rfl⟩, fun _ => rfl, nofun⟩
      | some node =>
        obtain ⟨ls, reads⟩ := outcome
        obtain ⟨p', keeps, grown⟩ := reads.grown place
        refine ⟨p', keeps, nofun, fun node' is_node => ?_⟩
        cases is_node
        exact grown
    · intro e s' fails
      exact fails.keeps place (Nat.le_trans (demandInside_le_active s))

theorem primary_consistent (expected : List Expectation) :
    Consistent lexemes fuel s (primary (expression fuel 1) expected)
      (fun alarm => Checked.primary alarm (Checked.expression alarm fuel 1) expected)
      (Grown s p) where
  same alarm :=
    (primary_same (expression_reads fuel 1) expected (agree_checked alarm fuel)
      (place.fit within)).trans
      (primary_same_checked alarm (checked_reads alarm fuel) expected (place.fit within))
  ends := by
    apply (primary_reads (expression_reads fuel 1) expected (place.fit within)).imp
    · intro node s' outcome
      obtain ⟨ls, reads⟩ := outcome
      exact reads.grown place
    · intro e s' fails
      exact fails.keeps place (Nat.le_trans (demandInside_le_active s))

theorem term_consistent :
    Consistent lexemes fuel s (term (expression fuel 1))
      (fun alarm => Checked.term alarm (Checked.expression alarm fuel 1)) (Grown s p) where
  same alarm :=
    (term_same (expression_reads fuel 1) (agree_checked alarm fuel) (place.fit within)).trans
      (term_same_checked alarm (checked_reads alarm fuel) (place.fit within))
  ends := by
    apply (term_reads (expression_reads fuel 1) (place.fit within)).imp
    · intro node s' outcome
      obtain ⟨ls, reads⟩ := outcome
      exact reads.grown place
    · intro e s' fails
      exact fails.keeps place (Nat.le_trans (demandInside_le_active s))

end

/-- Every parser keeps the state that it is started in consistent, at any place of the lexemes and
with any number of parentheses open that may be. -/
theorem state_stays_consistent {s : State} {lexemes : List Lexeme} {p : Nat}
    (place : s.At lexemes p) (within : s.depth ≤ s.limits.nesting) (fuel least : Nat)
    (expected : List Expectation) :
    Consistent lexemes fuel s (expression fuel least) (Checked.expression · fuel least)
      (Grown s p) ∧
    Consistent lexemes fuel s (term (expression fuel 1))
      (fun alarm => Checked.term alarm (Checked.expression alarm fuel 1)) (Grown s p) ∧
    Consistent lexemes fuel s (primary (expression fuel 1) expected)
      (fun alarm => Checked.primary alarm (Checked.expression alarm fuel 1) expected)
      (Grown s p) ∧
    Consistent lexemes fuel s (closing (expression fuel 1))
      (fun alarm => closing (Checked.expression alarm fuel 1)) (Grown s p) ∧
    Consistent lexemes fuel s (call? (expression fuel 1))
      (fun alarm => Checked.call? alarm (Checked.expression alarm fuel 1))
      (fun result p' => (result = none → p' = p) ∧ ∀ node ∈ result, Grown s p node p') ∧
    Consistent lexemes fuel s (arguments (expression fuel 1))
      (fun alarm => arguments (Checked.expression alarm fuel 1))
      (fun result p' => p < p' ∧ result.2 = Expr.heightAll result.1 ∧
        result.2 ≤ s.limits.height) :=
  ⟨expression_consistent place within fuel least, term_consistent place within fuel,
    primary_consistent place within fuel expected, closing_consistent place within fuel,
    call?_consistent place within fuel, arguments_consistent place within fuel⟩

/-- The last parenthesis that may be opened is closed again behind a variable. -/
theorem state_stays_consistent_full :
    ∃ s' p',
      primary (expression 516 1) [.integer]
        ⟨.standard, [⟨0, .openParen⟩, ⟨1, .name "A"⟩, ⟨2, .closeParen⟩], 3, 127, 3, #[]⟩ =
          .ok ⟨.var "A", 1⟩ s' ∧
      s'.At [⟨0, .openParen⟩, ⟨1, .name "A"⟩, ⟨2, .closeParen⟩] p' ∧ s'.depth = 127 ∧ 0 < p' := by
  obtain ⟨-, -, group, -⟩ := state_stays_consistent
    (s := ⟨.standard, [⟨0, .openParen⟩, ⟨1, .name "A"⟩, ⟨2, .closeParen⟩], 3, 127, 3, #[]⟩)
    (p := 0) ⟨by decide, rfl, rfl⟩ (by decide) 516 1 [.integer]
  obtain ⟨p', keeps, advanced, -⟩ := group.ends.of_ok rfl
  exact ⟨_, p', rfl, keeps.place, keeps.depth, advanced⟩

end Parser

end Calculator
