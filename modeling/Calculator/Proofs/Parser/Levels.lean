import Calculator.Proofs.Parser.Report

/-!
# Where a level of parentheses is refused

A parser that may open no more parentheses refuses the next one. The parenthesis of a group is still
to be read then, and the error points at it. The name and the parenthesis of a call have been read
when the call asks for its level, so the error points past them: at the token after the parenthesis,
or at the end of the source.

1. `OpensLevel`: the parenthesis that is the first to open a level.
2. `Crowds`: what was read, and what is next, where a level is refused.
3. `expression_refuses`: parsers of expressions refuse a level only so.
4. `parse_eq_nestingTooDeep_iff`: too deep a nesting is reported for a level that is refused and for
   a tree that is too high.
5. `nesting_refused_at`: the parenthesis that is refused, and where the error points.
-/

namespace Calculator

/-! ## Levels -/

/-- After the lexemes `before`, the lexeme is the first to open so many parentheses. -/
structure OpensLevel (level : Nat) (before : List Lexeme) (l : Lexeme) : Prop where
  token : l.token = .openParen
  opened_eq : opened (before.map Lexeme.token) + 1 = level
  nesting_lt : nesting (before.map Lexeme.token) < level

namespace OpensLevel

variable {level : Nat} {before before' after after' : List Lexeme} {l l' : Lexeme}

/-- What opens a level for the first time does not come after what did. -/
theorem not_prefix (h : OpensLevel level before l) (h' : OpensLevel level before' l') :
    ¬ before ++ [l] <+: before' := by
  intro earlier
  have within := nesting_le_iff.mp (Int.le_refl _) _ (earlier.map Lexeme.token)
  have := h.opened_eq
  have := h'.nesting_lt
  simp only [List.map_append, List.map_singleton, opened_append, h.token, opened_cons, opened_nil,
    Token.rise] at within
  omega

theorem between_eq_nil {between : List Lexeme} (h : OpensLevel level before l)
    (h' : OpensLevel level (before ++ between) l')
    (same : l :: after = between ++ l' :: after') : between = [] := by
  cases between with
  | nil => rfl
  | cons m between =>
    obtain ⟨rfl, -⟩ := List.cons.inj same
    exact absurd ⟨between, by simp⟩ (h.not_prefix h')

theorem unique (h : OpensLevel level before l) (h' : OpensLevel level before' l')
    (same : before ++ l :: after = before' ++ l' :: after') : before = before' ∧ l = l' := by
  rcases List.append_eq_append_iff.mp same with ⟨between, rfl, tail⟩ | ⟨between, rfl, tail⟩
  · obtain rfl := h.between_eq_nil h' tail
    exact ⟨(List.append_nil _).symm, (List.cons.inj tail).1⟩
  · obtain rfl := h'.between_eq_nil h tail
    exact ⟨List.append_nil _, (List.cons.inj tail).1.symm⟩

end OpensLevel

namespace Parser

variable {s s₁ s' : State} {e : Failure} {f : Form} {ls : List Lexeme} {l : Lexeme}

/-! ## No room -/

/-- The tokens open as many parentheses as there is room for, and never more. -/
structure Fills (room : Int) (ts : List Token) : Prop where
  nesting_le : nesting ts ≤ room
  opened_eq : opened ts = room

/-- A level is asked for that there is no room for: by the parenthesis of a group, which is next, or
by a call, whose name and parenthesis are the last that was read. -/
inductive Crowds (room : Int) : List Token → (next : Option Token) → Prop where
  | group {ts : List Token} :
    Fills room ts → (∀ x, ts.getLast? ≠ some (.name x)) → Crowds room ts (some .openParen)
  | call {ts : List Token} {next : Option Token} (f : Aggregate) :
    Fills room ts → ts.getLast? = some (.name f.name) → Crowds room (ts ++ [.openParen]) next

section

variable {room : Int} {us ts : List Token} {next : Option Token}

theorem Fills.after (low : nesting us ≤ room) (h : Fills (room - opened us) ts) :
    Fills room (us ++ ts) where
  nesting_le := by
    have := h.nesting_le
    rw [nesting_append]
    omega
  opened_eq := by
    have := h.opened_eq
    rw [opened_append]
    omega

/-- What there is no room for after more tokens, the last of them no name. -/
theorem Crowds.after (low : nesting us ≤ room) (plain : ∀ x, us.getLast? ≠ some (.name x))
    (h : Crowds (room - opened us) ts next) : Crowds room (us ++ ts) next := by
  cases h with
  | group fills bare =>
    refine .group (fills.after low) fun x => ?_
    rw [List.getLast?_append]
    cases last : ts.getLast? with
    | none => simpa using plain x
    | some t => simpa [last] using bare x
  | call f fills named =>
    rw [← List.append_assoc]
    exact .call f (fills.after low) (by simp [named])

end

/-! ## Room -/

def State.room (s : State) : Int := s.limits.nesting - s.depth

theorem State.room_pos (room : s.depth < s.limits.nesting) : 1 ≤ s.room := by
  rw [State.room]
  omega

theorem State.room_deeper (s : State) :
    State.room { s with depth := s.depth + 1 } = s.room - 1 := by
  simp only [State.room]
  omega

theorem State.Passes.room_eq (h : s.Passes ls s') : s'.room = s.room := by
  rw [State.room, h.limits, h.depth, State.room]

theorem State.Fit.room_nonneg (fit : s.Fit) : 0 ≤ s.room := by
  have := fit.depth_le
  rw [State.room]
  omega

theorem State.Fit.fills {ts : List Token} (fit : s.Fit) (full : ¬ s.depth < s.limits.nesting)
    (low : nesting ts = 0) (level : opened ts = 0) : Fills s.room ts := by
  have := fit.depth_le
  refine ⟨low ▸ fit.room_nonneg, ?_⟩
  rw [level, State.room]
  omega

/-- There is room for the lexemes between the states, and they close what they open. -/
structure Closes (s : State) (ls : List Lexeme) (s' : State) : Prop where
  passes : s.Passes ls s'
  balanced : Balanced (ls.map Lexeme.token)
  nesting_le : nesting (ls.map Lexeme.token) ≤ s.room

theorem Reads.closes {node : Node} (reads : Reads f s ls node s') : Closes s ls s' := by
  refine ⟨reads.passes, reads.derives.balanced, ?_⟩
  have := reads.nesting_le
  rw [State.room]
  omega

theorem Closes.binary {s₂ : State} {ms rest : List Lexeme} (left : Closes s ls s₁)
    (next : s₁.rest = l :: rest) (flat : l.token.rise = 0)
    (right : Closes { s₁ with rest := s₁.rest.tail } ms s₂) : Closes s (ls ++ l :: ms) s₂ := by
  have inside := right.nesting_le
  have passed := left.passes.trans (.advance next)
  rw [passed.room_eq] at inside
  refine ⟨by simpa using passed.trans right.passes, ?_, ?_⟩
  · rw [List.map_append, List.map_cons]
    refine left.balanced.append (.cons ?_ ?_ right.balanced)
    all_goals
      intro paren
      rw [paren] at flat
      cases flat
  · rw [List.map_append, List.map_cons, nesting_separated flat left.balanced]
    exact Int.max_le.mpr ⟨left.nesting_le, inside⟩

/-! ## Refusals -/

/-- If it is a level that is refused, then the lexemes between the states leave no room for it. -/
def Refuses (s : State) (e : Failure) (s' : State) : Prop :=
  ∀ p, e = .tooNested p → ∃ ls, s.rest = ls ++ s'.rest ∧
    Crowds s.room (ls.map Lexeme.token) s'.next

theorem Refuses.of_ne (other : ∀ p, e ≠ .tooNested p) : Refuses s e s' :=
  fun p same => absurd same (other p)

/-- What is refused after lexemes that there was room for, the last of them no name. -/
theorem Refuses.after (h : Refuses s₁ e s') (split : s.rest = ls ++ s₁.rest)
    (plain : ∀ x, (ls.map Lexeme.token).getLast? ≠ some (.name x))
    (low : nesting (ls.map Lexeme.token) ≤ s.room)
    (left : s₁.room = s.room - opened (ls.map Lexeme.token)) : Refuses s e s' := by
  intro p same
  obtain ⟨ms, split', crowds⟩ := h p same
  refine ⟨ls ++ ms, by rw [split, split', List.append_assoc], ?_⟩
  rw [left] at crowds
  rw [List.map_append]
  exact crowds.after low plain

theorem Closes.refuses_after {rest : List Lexeme} (closes : Closes s ls s₁)
    (next : s₁.rest = l :: rest) (flat : l.token.rise = 0) (plain : ∀ x, l.token ≠ .name x)
    (h : Refuses { s₁ with rest := s₁.rest.tail } e s') : Refuses s e s' := by
  have passed := closes.passes.trans (.advance next)
  refine h.after passed.rest (by simpa using plain) ?_ ?_
  · rw [List.map_append, List.map_singleton, nesting_separated flat closes.balanced]
    exact Int.max_le.mpr ⟨closes.nesting_le, Int.le_trans (nesting_nonneg _) closes.nesting_le⟩
  · rw [passed.room_eq, List.map_append, opened_append, closes.balanced.opened_eq_zero,
      List.map_singleton, opened_cons, flat]
    exact (Int.sub_zero _).symm

def RefusesExpression (expression : Parser Node) : Prop :=
  ∀ s : State, s.Fit → Ensures expression s (fun _ _ => True) (Refuses s)

section

variable {E : Parser Node} {fuel : Nat}

/-! ## Groups -/

theorem group_refuses (hE : RefusesExpression E) (fit : s.Fit) (next : s.next = some .openParen) :
    Ensures (group E) s (fun _ _ => True) (Refuses s) := by
  obtain ⟨offset, rest, shape⟩ := rest_of_next next
  rw [group, ensures_nested]
  split
  case isFalse full =>
    -- The parenthesis is next, and nothing was read before it.
    intro p _
    refine ⟨[], rfl, ?_⟩
    rw [next]
    exact .group (fit.fills full rfl rfl) (by simp)
  case isTrue room =>
    rw [ensures_bind, ensures_advance, ensures_bind]
    have opened := State.Passes.advance (s := { s with depth := s.depth + 1 }) shape
    refine (hE _ (opened.fit (fit.deeper room))).imp ?_ ?_
    · intro node s₁ _
      rw [ensures_bind, ensures_peek]
      split
      · rw [ensures_bind, ensures_advance, ensures_pure]
        trivial
      · rw [ensures_unexpected]
        exact .of_ne (by simp)
    · intro e s₁ refuses
      refine refuses.after opened.rest (by simp) ?_ ?_
      · exact State.room_pos room
      · exact s.room_deeper

/-! ## Calls -/

theorem argumentsFrom_refuses (hR : ReadsExpression E 1 fuel) (hE : RefusesExpression E)
    (bound : Nat) (fit : s.Fit) :
    Ensures (argumentsFrom E bound) s (fun _ _ => True) (Refuses s) := by
  induction bound generalizing s with
  | zero =>
    rw [argumentsFrom, ensures_throw]
    exact .of_ne (by simp)
  | succ bound ih =>
    rw [argumentsFrom, ensures_bind]
    refine ((hR s fit).and (hE s fit)).imp ?_ fun e s₁ fails => fails.2
    rintro first s₁ ⟨⟨ls, reads, -⟩, -⟩
    rw [ensures_bind, ensures_peek]
    split
    · rw [ensures_bind, ensures_advance, ensures_pure]
      trivial
    · next comma =>
      obtain ⟨offset, rest, comma⟩ := rest_of_next comma
      rw [ensures_bind, ensures_advance, ensures_bind]
      refine (ih ((reads.passes.trans (.advance comma)).fit fit)).imp ?_ ?_
      · intro others s₂ _
        rw [ensures_pure]
        trivial
      · exact fun e s₂ refuses => reads.closes.refuses_after comma rfl (by simp) refuses
    · rw [ensures_unexpected]
      exact .of_ne (by simp)

theorem arguments_refuses (hR : ReadsExpression E 1 fuel) (hE : RefusesExpression E)
    (fit : s.Fit) : Ensures (arguments E) s (fun _ _ => True) (Refuses s) := by
  rw [arguments, ensures_bind, ensures_peek]
  split
  · rw [ensures_bind, ensures_advance, ensures_pure]
    trivial
  · rw [ensures_bind, ensures_get]
    exact argumentsFrom_refuses hR hE _ fit

theorem callOf_refuses (hR : ReadsExpression E 1 fuel) (hE : RefusesExpression E) (fit : s.Fit)
    {f : Aggregate} {p q : Nat}
    (opened : s.Passes [⟨p, .name f.name⟩, ⟨q, .openParen⟩] s₁) :
    Ensures (callOf E f) s₁ (fun _ _ => True) (Refuses s) := by
  have fit₁ := opened.fit fit
  rw [callOf, ensures_bind, ensures_nested]
  split
  case isFalse full =>
    have fills : Fills s₁.room [.name f.name] := fit₁.fills full rfl rfl
    rw [opened.room_eq] at fills
    exact fun p _ => ⟨_, opened.rest, .call f fills rfl⟩
  case isTrue room =>
    refine (arguments_refuses hR hE (fit₁.deeper room)).imp ?_ ?_
    · intro result s₂ _
      rw [ensures_limited]
      split
      · trivial
      · exact .of_ne (by simp)
    · intro e s₂ refuses
      refine refuses.after opened.rest (by simp) ?_ ?_
      · exact opened.room_eq ▸ State.room_pos room
      · exact opened.room_eq ▸ s₁.room_deeper

theorem call?_refuses (hR : ReadsExpression E 1 fuel) (hE : RefusesExpression E) (fit : s.Fit) :
    Ensures (call? E) s (fun result s' => result = none → s' = s) (Refuses s) := by
  refine ensures_call? (fun _ _ => rfl) (fun _ _ _ _ _ => .of_ne (by simp)) fun p f rest calls => ?_
  obtain ⟨q, opened⟩ := calls.passes (s.calls.push ⟨p, f⟩)
  exact (callOf_refuses hR hE fit opened).imp (fun _ _ _ => nofun) fun _ _ refuses => refuses

/-! ## Primaries and terms -/

theorem primary_refuses (hR : ReadsExpression E 1 fuel) (hE : RefusesExpression E)
    (expected : List Expectation) (fit : s.Fit) :
    Ensures (primary E expected) s (fun _ _ => True) (Refuses s) := by
  rw [primary, ensures_bind]
  refine (call?_refuses hR hE fit).imp ?_ fun e s₁ refuses => refuses
  intro result s₁ same
  cases result with
  | some node => trivial
  | none =>
    obtain rfl := same rfl
    rw [ensures_bind, ensures_peek]
    split
    · rw [ensures_bind, ensures_advance, ensures_pure]
      trivial
    · rw [ensures_bind, ensures_advance, ensures_pure]
      trivial
    · next opens => exact group_refuses hE fit opens
    · rw [ensures_unexpected]
      exact .of_ne (by simp)

theorem term_refuses (hR : ReadsExpression E 1 fuel) (hE : RefusesExpression E) (fit : s.Fit) :
    Ensures (term E) s (fun _ _ => True) (Refuses s) := by
  rw [term, ensures_bind, ensures_peek]
  split
  · next minus =>
    obtain ⟨offset, rest, minus⟩ := rest_of_next minus
    rw [ensures_bind, ensures_advance, ensures_bind]
    have passed := State.Passes.advance minus
    refine (primary_refuses hR hE _ (passed.fit fit)).imp ?_ ?_
    · intro node s₁ _
      rw [ensures_limited]
      split
      · trivial
      · exact .of_ne (by simp)
    · intro e s₁ refuses
      exact refuses.after passed.rest (by simp) fit.room_nonneg (Int.sub_zero _).symm
  · exact primary_refuses hR hE _ fit

/-! ## Chains of operators -/

/-- The chain goes on with what was read from the state `s` on. -/
theorem chain_refuses {operand : Nat → Parser Node}
    (hR : ∀ least, ReadsExpression (operand least) least fuel)
    (hE : ∀ least, RefusesExpression (operand least)) (least bound : Nat) {left : Node}
    (fit : s.Fit) (closes : Closes s ls s₁) :
    Ensures (chain operand least bound left) s₁ (fun _ _ => True) (Refuses s) := by
  induction bound generalizing left s₁ ls with
  | zero =>
    rw [chain, ensures_throw]
    exact .of_ne (by simp)
  | succ bound ih =>
    rw [chain, ensures_bind, ensures_peek]
    split
    · next op operator =>
      split
      · trivial
      · obtain ⟨offset, rest, operator⟩ := rest_of_next operator
        rw [ensures_bind, ensures_advance, ensures_bind]
        have fit₁ := (closes.passes.trans (.advance operator)).fit fit
        refine ((hR (op.precedence + 1) _ fit₁).and (hE _ _ fit₁)).imp ?_ ?_
        · rintro right s₂ ⟨⟨ms, reads, -⟩, -⟩
          rw [ensures_bind, ensures_limited]
          split
          · exact ih (closes.binary operator rfl reads.closes)
          · exact .of_ne (by simp)
        · exact fun e s₂ fails => closes.refuses_after operator rfl (by simp) fails.2
    · trivial

end

/-! ## Expressions and sources -/

theorem expression_refuses (fuel least : Nat) : RefusesExpression (expression fuel least) := by
  induction fuel generalizing least with
  | zero =>
    intro s _
    rw [expression, ensures_throw]
    exact .of_ne (by simp)
  | succ fuel ih =>
    intro s fit
    rw [expression, ensures_bind]
    have reads := expression_reads fuel
    refine ((term_reads (reads 1) fit).and (term_refuses (reads 1) (ih 1) fit)).imp ?_ ?_
    · rintro left s₁ ⟨⟨ls, term⟩, -⟩
      rw [ensures_bind, ensures_get]
      exact chain_refuses reads ih least _ fit term.closes
    · exact fun e s₁ fails => fails.2

theorem whole_refuses (fuel : Nat) (fit : s.Fit) :
    Ensures (whole fuel) s (fun _ _ => True) (Refuses s) := by
  rw [whole, ensures_bind]
  refine (expression_refuses fuel 1 s fit).imp ?_ fun e s₁ refuses => refuses
  intro node s₁ _
  rw [ensures_bind, ensures_peek]
  split
  · trivial
  · rw [ensures_unexpected]
    exact .of_ne (by simp)

theorem Fills.opensLevel {room : Nat} (fills : Fills room (ls.map Lexeme.token))
    (paren : l.token = .openParen) : OpensLevel (room + 1) ls l :=
  ⟨paren, congrArg (· + 1) fills.opened_eq, Int.lt_add_one_of_le fills.nesting_le⟩

theorem exists_name_of_opensCall {ts : List Token} {t : Token} (h : OpensCall (ts ++ [t])) :
    ∃ x, ts.getLast? = some (.name x) := by
  obtain ⟨us, f, ends⟩ := h
  rw [List.append_cons us] at ends
  obtain ⟨rfl, -⟩ := List.append_inj' ends rfl
  exact ⟨f.name, List.getLast?_concat⟩

/-- Where there is no room, the next lexeme is the parenthesis of a group, or comes after that of a
call. -/
theorem Crowds.exists_opensLevel {room : Nat} (h : Crowds room (ls.map Lexeme.token) s.next) :
    ∃ before l after, ls ++ s.rest = before ++ l :: after ∧ OpensLevel (room + 1) before l ∧
      (¬ OpensCall ((before ++ [l]).map Lexeme.token) → s.position = l.offset) ∧
      (OpensCall ((before ++ [l]).map Lexeme.token) →
        s.position = after.head?.elim s.stop Lexeme.offset) := by
  generalize tokens : ls.map Lexeme.token = ts, here : s.next = next at h
  cases h with
  | group fills bare =>
    obtain ⟨offset, rest, shape⟩ := rest_of_next here
    refine ⟨ls, ⟨offset, .openParen⟩, rest, by rw [shape], ?_, fun _ => ?_, fun call => ?_⟩
    · exact (tokens ▸ fills).opensLevel rfl
    · rw [State.position, shape]
    · rw [List.map_append, tokens] at call
      obtain ⟨x, named⟩ := exists_name_of_opensCall call
      exact absurd named (bare x)
  | @call ts _ f fills named =>
    obtain ⟨before, last, rfl, rfl, ends⟩ := List.map_eq_append_iff.mp tokens
    obtain ⟨l, rfl, paren⟩ := List.map_eq_singleton_iff.mp ends
    obtain ⟨us, calls⟩ := List.getLast?_eq_some_iff.mp named
    have call : OpensCall ((before ++ [l]).map Lexeme.token) := by
      refine ⟨us, f, ?_⟩
      rw [List.map_append, calls, List.map_singleton, paren, List.append_assoc]
      rfl
    refine ⟨before, l, s.rest, List.append_assoc .., fills.opensLevel paren,
      fun no_call => absurd call no_call, fun _ => ?_⟩
    rw [State.position]
    cases s.rest <;> rfl

end Parser

/-! ## Where the error points -/

/-- What the parser fails with on the source, if it has tokens and no tree. -/
def parseFailure? (src : String) : Option Parser.Failure :=
  match tokenize src with
  | .error _ => none
  | .ok lexemes =>
    match Parser.whole Limits.standard.active (.start .standard src lexemes) with
    | .ok _ _ => none
    | .error failure _ => some failure

section

variable {src : String} {p : Nat} {failure : Parser.Failure}

theorem parseFailure?_eq_some_iff : parseFailure? src = some failure ↔
    ∃ lexemes s, tokenize src = .ok lexemes ∧
      Parser.whole Limits.standard.active (.start .standard src lexemes) = .error failure s := by
  constructor
  · intro h
    unfold parseFailure? at h
    split at h
    · cases h
    · next lexemes tokens =>
      split at h
      · cases h
      · next s run =>
        cases h
        exact ⟨lexemes, s, tokens, run⟩
  · rintro ⟨lexemes, s, tokens, run⟩
    unfold parseFailure?
    rw [tokens]
    simp only [run]

theorem parse_of_parseFailure? (h : parseFailure? src = some failure) :
    parse src = .error (failure.toError src.utf8ByteSize) := by
  obtain ⟨lexemes, s, tokens, run⟩ := parseFailure?_eq_some_iff.mp h
  rw [parse_of_tokenize tokens, parseLexemes, run]

/-- Too deep a nesting is reported where a level is refused, and where a tree is too high. -/
theorem parse_eq_nestingTooDeep_iff : parse src = .error (.nestingTooDeep p) ↔
    parseFailure? src = some (.tooNested p) ∨ parseFailure? src = some (.tooHigh p) := by
  constructor
  · intro h
    cases tokens : tokenize src with
    | error err =>
      rw [parse_of_tokenize_error tokens] at h
      cases h
      rcases (lexes_scan 0 src.toList).fault_eq (fault_of_tokenize tokens) with ⟨_, eq⟩ | ⟨_, eq⟩
      all_goals cases eq
    | ok lexemes =>
      rw [parse_of_tokenize tokens, parseLexemes] at h
      split at h
      · cases h
      · next failure s run =>
        obtain ⟨_, _, fails, -⟩ := Parser.whole_fails run
        have found := parseFailure?_eq_some_iff.mpr ⟨lexemes, s, tokens, run⟩
        cases failure with
        | tooNested q =>
          cases h
          exact .inl found
        | tooHigh q =>
          cases h
          exact .inr found
        | unexpected q next expected => cases next <;> cases h
        | unknownFunction => cases h
        | exhausted => exact absurd rfl fails.not_exhausted
  · rintro (refused | refused)
    · exact parse_of_parseFailure? refused
    · exact parse_of_parseFailure? refused

/-- A level that is refused is the first one above the limit. The parenthesis that opens it is the
place of the error if it is a group's; if it is a call's, the place is behind it: the next token,
or the end of the source. -/
theorem nesting_refused_at (refused : parseFailure? src = some (.tooNested p)) :
    parse src = .error (.nestingTooDeep p) ∧
    ∃ before l after, tokenize src = .ok (before ++ l :: after) ∧
      OpensLevel (maxNesting + 1) before l ∧
      (¬ OpensCall ((before ++ [l]).map Lexeme.token) → p = l.offset) ∧
      (OpensCall ((before ++ [l]).map Lexeme.token) →
        p = after.head?.elim src.utf8ByteSize Lexeme.offset) := by
  refine ⟨parse_of_parseFailure? refused, ?_⟩
  obtain ⟨lexemes, s, tokens, run⟩ := parseFailure?_eq_some_iff.mp refused
  -- A level that is refused leaves the parser where it is.
  obtain ⟨_, _, fails, rfl, -⟩ := Parser.whole_fails run
  have refuses := Parser.whole_refuses Limits.standard.active
    (Parser.State.start_fit .standard src lexemes)
  obtain ⟨ls, (split : lexemes = ls ++ s.rest), crowds⟩ := refuses.of_error run p rfl
  obtain ⟨before, l, after, eq, opens, group, call⟩ := crowds.exists_opensLevel
  rw [fails.stop, ← fails.reported p rfl] at call
  rw [← fails.reported p rfl] at group
  exact ⟨before, l, after, by rw [tokens, split, eq], opens, group, call⟩

def groupsInCall (n : Nat) : String := .ofList (['S', 'U', 'M', '('] ++ List.replicate n '(')

/-- The parenthesis of a group is the place, in a call as well. -/
theorem nesting_refused_at_group :
    parseFailure? (groupsInCall 128) = some (.tooNested 131) ∧
    parse (groupsInCall 128) = .error (.nestingTooDeep 131) ∧
    ∃ before l after, tokenize (groupsInCall 128) = .ok (before ++ l :: after) ∧
      OpensLevel (maxNesting + 1) before l ∧
      (¬ OpensCall ((before ++ [l]).map Lexeme.token) → 131 = l.offset) ∧
      (OpensCall ((before ++ [l]).map Lexeme.token) →
        131 = after.head?.elim (groupsInCall 128).utf8ByteSize Lexeme.offset) := by
  have refused : parseFailure? (groupsInCall 128) = some (.tooNested 131) := by
    rw [groupsInCall, parseFailure?, tokenize, String.toList_ofList]
    decide +kernel
  exact ⟨refused, nesting_refused_at refused⟩

def callInGroups (n : Nat) : String :=
  .ofList (List.replicate n '(' ++ ['S', 'U', 'M', '(', 'A', ')'] ++ List.replicate n ')')

/-- The parenthesis of a call is not the place, although it is the first to open the level. -/
theorem nesting_refused_behind_call :
    parseFailure? (callInGroups 128) = some (.tooNested 132) ∧
    parse (callInGroups 128) = .error (.nestingTooDeep 132) ∧
    (∃ before after, tokenize (callInGroups 128) = .ok (before ++ ⟨131, .openParen⟩ :: after) ∧
      OpensLevel (maxNesting + 1) before ⟨131, .openParen⟩) ∧
    ∀ before l after, tokenize (callInGroups 128) = .ok (before ++ l :: after) →
      OpensLevel (maxNesting + 1) before l → l.offset ≠ 132 := by
  have refused : parseFailure? (callInGroups 128) = some (.tooNested 132) := by
    rw [callInGroups, parseFailure?, tokenize, String.toList_ofList]
    decide +kernel
  have tokens : tokenize (callInGroups 128) = .ok
      ((List.range 128).map (⟨·, .openParen⟩) ++ [⟨128, .name "SUM"⟩] ++ ⟨131, .openParen⟩ ::
        (⟨132, .name "A"⟩ :: (List.range 129).map (⟨133 + ·, .closeParen⟩))) := by
    rw [callInGroups, tokenize, String.toList_ofList]
    decide +kernel
  have opens : OpensLevel (maxNesting + 1)
      ((List.range 128).map (⟨·, .openParen⟩) ++ [⟨128, .name "SUM"⟩]) ⟨131, .openParen⟩ :=
    ⟨rfl, by decide +kernel, by decide +kernel⟩
  refine ⟨refused, parse_of_parseFailure? refused, ⟨_, _, tokens, opens⟩, ?_⟩
  intro before l after tokens' opens'
  rw [tokens] at tokens'
  injection tokens' with same
  obtain ⟨-, rfl⟩ := opens.unique opens' same
  decide

end

end Calculator
