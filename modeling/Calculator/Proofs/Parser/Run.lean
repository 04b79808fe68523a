import Calculator.Expr.Parser

/-!
# Runs of a parser

A parser ends with a result or a failure, and in either case with a state. `Ensures` says what holds
of the outcome; there is one equation for each step that parsers are made of, so a statement about a
parser unfolds into statements about its steps.
-/

namespace Calculator

namespace Parser

variable {α β : Type} {s : State} {ok : α → State → Prop} {fail : Failure → State → Prop}

/-- What holds of the outcome of a parser: `ok` of a result and the state it is reached in, `fail`
of a failure and its state. -/
def Ensures (p : Parser α) (s : State) (ok : α → State → Prop) (fail : Failure → State → Prop) :
    Prop :=
  match p s with
  | .ok a s' => ok a s'
  | .error e s' => fail e s'

theorem Ensures.imp {p : Parser α} {ok' : α → State → Prop} {fail' : Failure → State → Prop}
    (h : Ensures p s ok fail) (hok : ∀ a s', ok a s' → ok' a s')
    (hfail : ∀ e s', fail e s' → fail' e s') : Ensures p s ok' fail' := by
  unfold Ensures at h ⊢
  split
  · next run => rw [run] at h; exact hok _ _ h
  · next run => rw [run] at h; exact hfail _ _ h

theorem Ensures.and {p : Parser α} {ok' : α → State → Prop} {fail' : Failure → State → Prop}
    (h : Ensures p s ok fail) (h' : Ensures p s ok' fail') :
    Ensures p s (fun a s' => ok a s' ∧ ok' a s') (fun e s' => fail e s' ∧ fail' e s') := by
  unfold Ensures at h h' ⊢
  split
  all_goals
    next run =>
      rw [run] at h h'
      exact ⟨h, h'⟩

theorem Ensures.of_ok {p : Parser α} {a : α} {s' : State} (h : Ensures p s ok fail)
    (run : p s = .ok a s') : ok a s' := by
  unfold Ensures at h
  rwa [run] at h

theorem Ensures.of_error {p : Parser α} {e : Failure} {s' : State} (h : Ensures p s ok fail)
    (run : p s = .error e s') : fail e s' := by
  unfold Ensures at h
  rwa [run] at h

theorem ensures_run (p : Parser α) :
    Ensures p s (fun a s' => p s = .ok a s') (fun e s' => p s = .error e s') := by
  unfold Ensures
  split <;> assumption

/-! ## Steps -/

theorem ensures_pure (a : α) : Ensures (pure a) s ok fail ↔ ok a s := Iff.rfl

theorem ensures_throw (e : Failure) : Ensures (throw e : Parser α) s ok fail ↔ fail e s := Iff.rfl

theorem ensures_bind (p : Parser β) (f : β → Parser α) :
    Ensures (p >>= f) s ok fail ↔ Ensures p s (fun b s' => Ensures (f b) s' ok fail) fail := by
  show (match EStateM.bind p f s with
    | .ok a s' => ok a s'
    | .error e s' => fail e s') ↔ _
  unfold EStateM.bind Ensures
  cases p s <;> rfl

theorem ensures_map (f : β → α) (p : Parser β) :
    Ensures (f <$> p) s ok fail ↔ Ensures p s (fun b s' => ok (f b) s') fail := by
  show (match EStateM.map f p s with
    | .ok a s' => ok a s'
    | .error e s' => fail e s') ↔ _
  unfold EStateM.map Ensures
  cases p s <;> rfl

theorem bind_eq_ok_iff {p : Parser β} {f : β → Parser α} {s' : State} {a : α} :
    (p >>= f) s = .ok a s' ↔ ∃ b s₁, p s = .ok b s₁ ∧ f b s₁ = .ok a s' := by
  show EStateM.bind p f s = .ok a s' ↔ _
  unfold EStateM.bind
  constructor
  · intro run
    split at run
    · next b s₁ first => exact ⟨b, s₁, first, run⟩
    · cases run
  · rintro ⟨b, s₁, first, second⟩
    rw [first]
    exact second

theorem ensures_get {ok : State → State → Prop} :
    Ensures (get : Parser State) s ok fail ↔ ok s s := Iff.rfl

theorem ensures_peek {ok : Option Token → State → Prop} :
    Ensures peek s ok fail ↔ ok s.next s := Iff.rfl

theorem ensures_advance {ok : Unit → State → Prop} :
    Ensures advance s ok fail ↔ ok () { s with rest := s.rest.tail } := Iff.rfl

theorem ensures_unexpected (expected : List Expectation) :
    Ensures (unexpected expected : Parser α) s ok fail ↔
      fail (.unexpected s.position s.next expected) s := Iff.rfl

theorem ensures_limited {ok : Node → State → Prop} (node : Node) :
    Ensures (limited node) s ok fail ↔
      if node.height ≤ s.limits.height then ok node s else fail (.tooHigh s.position) s := by
  rw [limited, ensures_bind, ensures_get]
  split <;> rfl

theorem ensures_nested (body : Parser α) :
    Ensures (nested body) s ok fail ↔
      if s.depth < s.limits.nesting then
        Ensures body { s with depth := s.depth + 1 }
          (fun a s' => ok a { s' with depth := s'.depth - 1 })
          (fun e s' => fail e { s' with depth := s'.depth - 1 })
      else fail (.tooNested s.position) s := by
  by_cases room : s.depth < s.limits.nesting
  · rw [if_pos room, Ensures, nested, if_pos room, Ensures]
    cases body { s with depth := s.depth + 1 } <;> rfl
  · rw [if_neg room, Ensures, nested, if_neg room]

/-! ## Looking ahead -/

theorem next_nil (h : s.rest = []) : s.next = none := by rw [State.next, h]; rfl

theorem next_cons {l : Lexeme} {rest : List Lexeme} (h : s.rest = l :: rest) :
    s.next = some l.token := by rw [State.next, h]; rfl

theorem rest_of_next {t : Token} (h : s.next = some t) :
    ∃ offset rest, s.rest = ⟨offset, t⟩ :: rest := by
  unfold State.next at h
  cases hr : s.rest with
  | nil => rw [hr] at h; cases h
  | cons l rest =>
    rw [hr] at h
    cases h
    exact ⟨l.offset, rest, rfl⟩

/-- A call is next: a name with an opening parenthesis. -/
def State.Calls (s : State) (p : Nat) (x : String) (rest : List Lexeme) : Prop :=
  ∃ q, s.rest = ⟨p, .name x⟩ :: ⟨q, .openParen⟩ :: rest

def State.NoCall (s : State) : Prop := ∀ p x rest, ¬ s.Calls p x rest

theorem State.noCall_of_next (h : ∀ x, s.next ≠ some (.name x)) : s.NoCall := by
  rintro p x rest ⟨q, shape⟩
  exact h x (next_cons shape)

theorem State.calls_or_noCall (s : State) : (∃ p x rest, s.Calls p x rest) ∨ s.NoCall := by
  by_cases h : ∃ p x rest, s.Calls p x rest
  · exact .inl h
  · exact .inr fun p x rest calls => h ⟨p, x, rest, calls⟩

theorem callee?_of_calls {p : Nat} {x : String} {rest : List Lexeme} (h : s.Calls p x rest) :
    callee? s = .ok (some (x, p)) { s with rest := rest } := by
  obtain ⟨q, shape⟩ := h
  obtain ⟨limits, _, size, depth, stop, calls⟩ := s
  cases shape
  rfl

/-- Whatever is taken where no call is next is given back. -/
theorem callee?_of_noCall (h : s.NoCall) : callee? s = .ok none s := by
  obtain ⟨limits, rest, size, depth, stop, calls⟩ := s
  rcases rest with - | ⟨⟨p, t⟩, rest⟩
  · rfl
  cases t with
  | name x =>
    rcases rest with - | ⟨⟨q, u⟩, rest⟩
    · rfl
    cases u with
    | openParen => exact absurd ⟨q, rfl⟩ (h p x rest)
    | _ => rfl
  | _ => rfl

section

variable {E : Parser Node} {p : Nat} {x : String} {f : Aggregate} {rest : List Lexeme}

theorem call?_of_noCall (h : s.NoCall) : call? E s = .ok none s := by
  show EStateM.bind callee? _ s = _
  rw [EStateM.bind, callee?_of_noCall h]
  rfl

theorem call?_of_unknown (h : s.Calls p x rest) (unknown : Aggregate.ofName? x = none) :
    call? E s = .error (.unknownFunction x p) { s with rest } := by
  show EStateM.bind callee? _ s = _
  simp only [EStateM.bind, callee?_of_calls h, unknown]
  rfl

theorem call?_of_known (h : s.Calls p f.name rest) :
    call? E s = (some <$> callOf E f) { s with rest, calls := s.calls.push ⟨p, f⟩ } := by
  show EStateM.bind callee? _ s = _
  simp only [EStateM.bind, callee?_of_calls h, Aggregate.ofName?_eq_some_iff.mpr rfl]
  rfl

section

variable {ok : Option Node → State → Prop}

theorem ensures_call?_of_noCall (h : s.NoCall) : Ensures (call? E) s ok fail ↔ ok none s := by
  rw [Ensures, call?_of_noCall h]

theorem ensures_call?_of_known (h : s.Calls p f.name rest) :
    Ensures (call? E) s ok fail ↔
      Ensures (callOf E f) { s with rest, calls := s.calls.push ⟨p, f⟩ }
        (fun node s' => ok (some node) s') fail := by
  rw [Ensures, call?_of_known h]
  exact ensures_map some (callOf E f)

/-- How a parser of calls ends: without a call, with a name that calls nothing, or as the rest of
the call does. -/
theorem ensures_call? (absent : s.NoCall → ok none s)
    (unknown : ∀ p x rest, s.Calls p x rest → Aggregate.ofName? x = none →
      fail (.unknownFunction x p) { s with rest })
    (known : ∀ p (f : Aggregate) rest, s.Calls p f.name rest →
      Ensures (callOf E f) { s with rest, calls := s.calls.push ⟨p, f⟩ }
        (fun node s' => ok (some node) s') fail) :
    Ensures (call? E) s ok fail := by
  rcases s.calls_or_noCall with ⟨p, x, rest, calls⟩ | noCall
  · cases found : Aggregate.ofName? x with
    | none =>
      rw [Ensures, call?_of_unknown calls found]
      exact unknown p x rest calls found
    | some f =>
      obtain rfl := Aggregate.ofName?_eq_some_iff.mp found
      exact (ensures_call?_of_known calls).mpr (known p f rest calls)
  · exact (ensures_call?_of_noCall noCall).mpr (absent noCall)

end

end

end Parser

end Calculator
