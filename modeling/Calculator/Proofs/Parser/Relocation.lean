import Calculator.Proofs.Lexer.Offsets
import Calculator.Proofs.Parser.Recognition
import Calculator.Proofs.Phases

/-!
# Parsing elsewhere

A parser does not look at where its lexemes are; it hands offsets on, to errors and to the calls
that it recognises. So to change the offsets before parsing is to change them in what parsing gives,
and what a source gives is what its tokens give, with an index in the place of every offset. Layout
therefore decides where an error is reported, and nothing else.

1. `Movable`: parsers that do the same wherever the lexemes are.
2. `whole_movable`: the parser of whole sources is one of them.
3. `parseLexemes_eq_parseTokens`: parsing depends on the tokens, up to places.
4. `layout_independent`: two sources with the same tokens.
-/

namespace Calculator

/-! ## Other offsets -/

def Lexeme.move (g : Nat → Nat) (l : Lexeme) : Lexeme := { l with offset := g l.offset }

def CallSite.move (g : Nat → Nat) (c : CallSite) : CallSite := { c with offset := g c.offset }

def Error.move (g : Nat → Nat) : Error → Error
  | unrecognized p => unrecognized (g p)
  | literalOutOfRange p => literalOutOfRange (g p)
  | unexpected p found expected => unexpected (g p) found expected
  | nestingTooDeep p => nestingTooDeep (g p)
  | unknownFunction name p => unknownFunction name (g p)
  | err => err

namespace Parser

def State.move (g : Nat → Nat) (s : State) : State :=
  { s with
    rest := s.rest.map (Lexeme.move g)
    stop := g s.stop
    calls := s.calls.map (CallSite.move g) }

def Failure.move (g : Nat → Nat) : Failure → Failure
  | unexpected p found expected => unexpected (g p) found expected
  | unknownFunction name p => unknownFunction name (g p)
  | tooNested p => tooNested (g p)
  | tooHigh p => tooHigh (g p)
  | exhausted => exhausted

theorem Failure.toError_move (g : Nat → Nat) (stop : Nat) (failure : Failure) :
    (failure.move g).toError (g stop) = (failure.toError stop).move g := by
  cases failure with
  | unexpected p found expected => cases found <;> rfl
  | _ => rfl

section

variable {α β : Type} (g : Nat → Nat) (s : State)

def moveResult : EStateM.Result Failure State α → EStateM.Result Failure State α
  | .ok a s => .ok a (s.move g)
  | .error failure s => .error (failure.move g) (s.move g)

@[simp] theorem State.next_move : (s.move g).next = s.next := by
  rw [next, next, move, List.head?_map, Option.map_map]
  rfl

@[simp] theorem State.position_move : (s.move g).position = g s.position := by
  rw [position, position, move]
  cases s.rest <;> rfl

/-! ## Parsers that move -/

/-- The parser does the same wherever the lexemes are: with other offsets it ends in the same way,
and reports and notes the other offsets. -/
def Movable (p : Parser α) : Prop := ∀ g s, p (s.move g) = moveResult g (p s)

end

namespace Movable

variable {α β : Type} {p : Parser α} {f : α → Parser β}

theorem pure (a : α) : Movable (Pure.pure a : Parser α) := fun _ _ => rfl

theorem exhausted : Movable (throw .exhausted : Parser α) := fun _ _ => rfl

theorem bind (first : Movable p) (second : ∀ a, Movable (f a)) : Movable (p >>= f) := by
  intro g s
  show EStateM.bind p f (s.move g) = moveResult g (EStateM.bind p f s)
  unfold EStateM.bind
  rw [first g s]
  cases p s with
  | ok a s' => exact second a g s'
  | error failure s' => rfl

theorem map (h : Movable p) (f : α → β) : Movable (f <$> p) := by
  intro g s
  show EStateM.map f p (s.move g) = moveResult g (EStateM.map f p s)
  unfold EStateM.map
  rw [h g s]
  cases p s <;> rfl

theorem ofState {f : State → Parser α} (same : ∀ g s, f (s.move g) = f s)
    (h : ∀ s, Movable (f s)) : Movable (get >>= f) := by
  intro g s
  show f (s.move g) (s.move g) = moveResult g (f s s)
  rw [same g s]
  exact h s g s

theorem peek : Movable peek := by
  intro g s
  show EStateM.Result.ok (s.move g).next (s.move g) = .ok s.next (s.move g)
  rw [State.next_move]

theorem advance : Movable advance := by
  intro g s
  show EStateM.Result.ok () _ = .ok () _
  rw [State.move, State.move, List.map_tail]

theorem unexpected (expected : List Expectation) : Movable (unexpected expected : Parser α) := by
  intro g s
  show (throw (.unexpected (s.move g).position (s.move g).next expected) : Parser α) (s.move g) = _
  rw [State.position_move, State.next_move]
  rfl

theorem limited (node : Node) : Movable (limited node) := by
  intro g s
  show (if node.height ≤ s.limits.height then Pure.pure node
    else throw (.tooHigh (s.move g).position) : Parser Node) (s.move g) =
      moveResult g ((if node.height ≤ s.limits.height then Pure.pure node
        else throw (.tooHigh s.position) : Parser Node) s)
  rw [State.position_move]
  split <;> rfl

theorem nested (h : Movable p) : Movable (nested p) := by
  intro g s
  have inner : p { s.move g with depth := s.depth + 1 } =
      moveResult g (p { s with depth := s.depth + 1 }) := h g { s with depth := s.depth + 1 }
  by_cases room : s.depth < s.limits.nesting
  · have room' : (s.move g).depth < (s.move g).limits.nesting := room
    rw [Parser.nested, Parser.nested, if_pos room, if_pos room']
    show (match p { s.move g with depth := s.depth + 1 } with
      | .ok a s' => EStateM.Result.ok a { s' with depth := s'.depth - 1 }
      | .error e s' => .error e { s' with depth := s'.depth - 1 }) = _
    rw [inner]
    cases p { s with depth := s.depth + 1 } <;> rfl
  · have room' : ¬ (s.move g).depth < (s.move g).limits.nesting := room
    rw [Parser.nested, Parser.nested, if_neg room, if_neg room', State.position_move]
    rfl

end Movable

/-! ## Forms -/

section

variable {E : Parser Node}

theorem argumentsFrom_movable (h : Movable E) (bound : Nat) : Movable (argumentsFrom E bound) := by
  induction bound with
  | zero => exact .exhausted
  | succ bound ih =>
    refine h.bind fun first => .bind .peek fun next => ?_
    split
    · exact .bind .advance fun _ => .pure _
    · exact .bind .advance fun _ => ih.bind fun _ => .pure _
    · exact .unexpected _

theorem arguments_movable (h : Movable E) : Movable (arguments E) := by
  refine .bind .peek fun next => ?_
  split
  · exact .bind .advance fun _ => .pure _
  · exact .ofState (fun g s => rfl) fun s => argumentsFrom_movable h _

theorem group_movable (h : Movable E) : Movable (group E) := by
  refine .nested (.bind .advance fun _ => h.bind fun node => .bind .peek fun next => ?_)
  split
  · exact .bind .advance fun _ => .pure _
  · exact .unexpected _

theorem callOf_movable (h : Movable E) (f : Aggregate) : Movable (callOf E f) :=
  (arguments_movable h).nested.bind fun _ => .limited _

theorem State.Calls.move {s : State} {p : Nat} {x : String} {rest : List Lexeme}
    (h : s.Calls p x rest) (g : Nat → Nat) :
    (s.move g).Calls (g p) x (rest.map (Lexeme.move g)) := by
  obtain ⟨q, shape⟩ := h
  refine ⟨g q, ?_⟩
  rw [State.move, shape]
  rfl

theorem State.NoCall.move {s : State} (h : s.NoCall) (g : Nat → Nat) : (s.move g).NoCall := by
  rintro p x rest ⟨q, moved⟩
  obtain ⟨⟨p, _⟩, others, here, name, moved⟩ := List.map_eq_cons_iff.mp moved
  obtain ⟨⟨q, _⟩, rest, rfl, opens, -⟩ := List.map_eq_cons_iff.mp moved
  cases name
  cases opens
  exact h p x rest ⟨q, here⟩

/-- What looks for a call hands the offset of the name on, to the error or to the call. -/
theorem call?_movable (h : Movable E) : Movable (call? E) := by
  intro g s
  rcases s.calls_or_noCall with ⟨p, x, rest, calls⟩ | noCall
  · cases found : Aggregate.ofName? x with
    | none =>
      rw [call?_of_unknown calls found, call?_of_unknown (calls.move g) found]
      rfl
    | some f =>
      obtain rfl := Aggregate.ofName?_eq_some_iff.mp found
      have ending : Movable (some <$> callOf E f) := (callOf_movable h f).map some
      rw [call?_of_known calls, call?_of_known (calls.move g), ← ending g]
      simp [State.move, CallSite.move]
  · rw [call?_of_noCall noCall, call?_of_noCall (noCall.move g)]
    rfl

theorem primary_movable (h : Movable E) (expected : List Expectation) :
    Movable (primary E expected) := by
  refine (call?_movable h).bind fun result => ?_
  split
  · exact .pure _
  · refine .bind .peek fun next => ?_
    split
    · exact .bind .advance fun _ => .pure _
    · exact .bind .advance fun _ => .pure _
    · exact group_movable h
    · exact .unexpected _

theorem term_movable (h : Movable E) : Movable (term E) := by
  refine .bind .peek fun next => ?_
  split
  · exact .bind .advance fun _ => (primary_movable h _).bind fun _ => .limited _
  · exact primary_movable h _

theorem chain_movable {operand : Nat → Parser Node} (h : ∀ least, Movable (operand least))
    (least bound : Nat) (left : Node) : Movable (chain operand least bound left) := by
  induction bound generalizing left with
  | zero => exact .exhausted
  | succ bound ih =>
    refine .bind .peek fun next => ?_
    split
    · split
      · exact .pure _
      · exact .bind .advance fun _ => (h _).bind fun _ => (Movable.limited _).bind ih
    · exact .pure _

theorem expression_movable (fuel least : Nat) : Movable (expression fuel least) := by
  induction fuel generalizing least with
  | zero => exact .exhausted
  | succ fuel ih =>
    refine (term_movable (ih 1)).bind fun left => ?_
    exact .ofState (fun g s => rfl) fun s => chain_movable ih least _ left

theorem whole_movable (fuel : Nat) : Movable (whole fuel) := by
  refine (expression_movable fuel 1).bind fun node => .bind .peek fun next => ?_
  split
  · exact .pure _
  · exact .unexpected _

end

/-- The state before the first of the tokens, each of which has its index for an offset. -/
def State.unplaced (ts : List Token) : State :=
  ⟨.standard, ts.mapIdx Lexeme.mk, ts.length, 0, ts.length, #[]⟩

end Parser

/-! ## Tokens without places -/

/-- What the tokens give, with an index in the place of every offset. -/
def parseTokens (ts : List Token) : Except Error Expr :=
  match Parser.whole Limits.standard.active (.unplaced ts) with
  | .ok e _ => .ok e
  | .error failure _ => .error (failure.toError ts.length)

/-- Where the token with the index is in the source; behind the last one, the end. -/
def placeOf (src : String) (lexemes : List Lexeme) (k : Nat) : Nat :=
  (lexemes[k]?.map Lexeme.offset).getD src.utf8ByteSize

theorem placeOf_length (src : String) (lexemes : List Lexeme) :
    placeOf src lexemes lexemes.length = src.utf8ByteSize := by
  rw [placeOf, List.getElem?_eq_none (Nat.le_refl _)]
  rfl

theorem Parser.State.move_unplaced (src : String) (lexemes : List Lexeme) :
    (unplaced (lexemes.map Lexeme.token)).move (placeOf src lexemes) =
      .start .standard src lexemes := by
  have rest : ((lexemes.map Lexeme.token).mapIdx Lexeme.mk).map
      (Lexeme.move (placeOf src lexemes)) = lexemes := by
    refine List.ext_getElem (by simp) fun k _ inside => ?_
    simp [Lexeme.move, placeOf, inside]
  rw [unplaced, move, start]
  simp [rest, placeOf_length]

/-- Parsing depends on the tokens, up to the places of errors. -/
theorem parseLexemes_eq_parseTokens (src : String) (lexemes : List Lexeme) :
    (parseLexemes src lexemes).1 =
      (parseTokens (lexemes.map Lexeme.token)).mapError (Error.move (placeOf src lexemes)) := by
  rw [parseLexemes, parseTokens, ← Parser.State.move_unplaced, Parser.whole_movable]
  cases Parser.whole Limits.standard.active (.unplaced (lexemes.map Lexeme.token)) with
  | ok e s => rfl
  | error failure s =>
    have error := failure.toError_move (placeOf src lexemes) (lexemes.map Lexeme.token).length
    rw [List.length_map, placeOf_length] at error
    simp only [Parser.moveResult, Except.mapError, error, List.length_map]

/-! ## Two sources -/

/-- The places in two sources that correspond: those of tokens with one index, and the two ends. -/
inductive SamePlace (src src' : String) (lexemes lexemes' : List Lexeme) : (p p' : Nat) → Prop where
  | token {k : Nat} {l l' : Lexeme} :
    lexemes[k]? = some l → lexemes'[k]? = some l' →
    SamePlace src src' lexemes lexemes' l.offset l'.offset
  | ending : SamePlace src src' lexemes lexemes' src.utf8ByteSize src'.utf8ByteSize

theorem samePlace {lexemes lexemes' : List Lexeme} (src src' : String)
    (same : lexemes.map Lexeme.token = lexemes'.map Lexeme.token) (k : Nat) :
    SamePlace src src' lexemes lexemes' (placeOf src lexemes k) (placeOf src' lexemes' k) := by
  have length : lexemes.length = lexemes'.length := by
    simpa using congrArg List.length same
  rw [placeOf, placeOf]
  by_cases inside : k < lexemes.length
  · have inside' : k < lexemes'.length := length ▸ inside
    rw [List.getElem?_eq_getElem inside, List.getElem?_eq_getElem inside']
    exact .token (List.getElem?_eq_getElem inside) (List.getElem?_eq_getElem inside')
  · have outside : lexemes.length ≤ k := Nat.le_of_not_lt inside
    rw [List.getElem?_eq_none outside, List.getElem?_eq_none (length ▸ outside)]
    exact .ending

theorem Error.position?_move (g : Nat → Nat) (err : Error) :
    (err.move g).position? = err.position?.map g := by
  cases err <;> rfl

/-- An error has one place at most, so moving it once more to its place decides where it is. -/
theorem Error.move_of_position? {g g' : Nat → Nat} {err : Error} {k : Nat}
    (h : err.position? = some k) : err.move g' = (err.move g).move fun _ => g' k := by
  cases err <;> cases h <;> rfl

theorem parse_eq_parseTokens {src : String} {lexemes : List Lexeme}
    (tokens : tokenize src = .ok lexemes) :
    parse src = (parseTokens (lexemes.map Lexeme.token)).mapError
      (Error.move (placeOf src lexemes)) := by
  rw [parse_of_tokenize tokens, parseLexemes_eq_parseTokens]

/-- Two sources with the same tokens have the same tree, or the same error at places that
correspond. So they have the same value, or the same error, in every environment, and the layout
decides no more than the place of an error of the text. -/
theorem layout_independent {src src' : String} {lexemes lexemes' : List Lexeme}
    (tokens : tokenize src = .ok lexemes) (tokens' : tokenize src' = .ok lexemes')
    (same : lexemes.map Lexeme.token = lexemes'.map Lexeme.token) :
    (∃ e, parse src = .ok e ∧ parse src' = .ok e ∧
      ∀ env, evaluate src env = evaluate src' env) ∨
    ∃ err p p', parse src = .error err ∧ parse src' = .error (err.move fun _ => p') ∧
      err.position? = some p ∧ SamePlace src src' lexemes lexemes' p p' ∧
      ∀ env, evaluate src env = .error err ∧ evaluate src' env = .error (err.move fun _ => p') := by
  have read := parse_eq_parseTokens tokens
  have read' := parse_eq_parseTokens tokens'
  rw [← same] at read'
  cases found : parseTokens (lexemes.map Lexeme.token) with
  | ok e =>
    rw [found] at read read'
    refine .inl ⟨e, read, read', fun env => ?_⟩
    rw [evaluate_of_parse_ok read, evaluate_of_parse_ok read']
  | error report =>
    rw [found] at read read'
    obtain ⟨k, place⟩ : ∃ k, report.position? = some k := by
      rw [← Option.isSome_iff_exists, ← Option.isSome_map, ← Error.position?_move,
        Error.isSome_position?]
      exact isSyntax_of_parse read
    have read' : parse src' = .error ((report.move (placeOf src lexemes)).move
        fun _ => placeOf src' lexemes' k) := by
      rw [← Error.move_of_position? place]
      exact read'
    refine .inr ⟨_, placeOf src lexemes k, placeOf src' lexemes' k, read, read', ?_,
      samePlace src src' same k, fun env => ?_⟩
    · rw [Error.position?_move, place]
      rfl
    · exact ⟨evaluate_of_parse_error read env, evaluate_of_parse_error read' env⟩

/-- Blanks at the end of a source come before its end, which is where a missing parenthesis is
reported. -/
theorem layout_independent_group :
    let expected := ["operator", "`)`"]
    tokenize "(A" = .ok [⟨0, .openParen⟩, ⟨1, .name "A"⟩] ∧
    tokenize "( A " = .ok [⟨0, .openParen⟩, ⟨2, .name "A"⟩] ∧
    parse "(A" = .error (.unexpected 2 "end of input" expected) ∧
    ∃ p', parse "( A " = .error (.unexpected p' "end of input" expected) ∧
      SamePlace "(A" "( A " [⟨0, .openParen⟩, ⟨1, .name "A"⟩] [⟨0, .openParen⟩, ⟨2, .name "A"⟩] 2
        p' := by
  intro expected
  have tokens : tokenize "(A" = .ok [⟨0, .openParen⟩, ⟨1, .name "A"⟩] := by decide +kernel
  have tokens' : tokenize "( A " = .ok [⟨0, .openParen⟩, ⟨2, .name "A"⟩] := by decide +kernel
  have failed : parse "(A" = .error (.unexpected 2 "end of input" expected) := by decide +kernel
  refine ⟨tokens, tokens', failed, ?_⟩
  rcases layout_independent tokens tokens' rfl with ⟨e, read, -⟩ | ⟨err, p, p', read, read', place⟩
  · rw [failed] at read
    cases read
  · rw [failed] at read
    cases read
    obtain ⟨here, corresponds, -⟩ := place
    cases here
    exact ⟨p', read', corresponds⟩

end Calculator
