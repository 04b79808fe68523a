import Calculator.Proofs.Grammar.Basic
import Calculator.Proofs.Parser.Run

/-!
# What a parser reads

The contract of the parsers, for every state they can be started in. A result is the tree of the
lexemes that were passed, within the limits, and with its height. A failure leaves the lexemes, the
limits and the open parentheses as they were, and is `exhausted` only where the fuel is less than
what the open parentheses leave to do.

1. `Reads`: what a result says of the lexemes between two states.
2. `Fails`: what a failure says.
3. `expression_reads`: expressions meet the contract, with any fuel.
-/

namespace Calculator

namespace Parser

/-! ## From state to state -/

/-- The lexemes `ls` are passed on the way, and nothing but the calls changes otherwise. -/
structure State.Passes (s : State) (ls : List Lexeme) (s' : State) : Prop where
  rest : s.rest = ls ++ s'.rest
  limits : s'.limits = s.limits
  size : s'.size = s.size
  depth : s'.depth = s.depth
  stop : s'.stop = s.stop

namespace State.Passes

variable {s s' s'' : State} {ls ms : List Lexeme}

theorem refl (s : State) : s.Passes [] s := ⟨rfl, rfl, rfl, rfl, rfl⟩

theorem trans (h : s.Passes ls s') (h' : s'.Passes ms s'') : s.Passes (ls ++ ms) s'' where
  rest := by rw [h.rest, h'.rest, List.append_assoc]
  limits := h'.limits.trans h.limits
  size := h'.size.trans h.size
  depth := h'.depth.trans h.depth
  stop := h'.stop.trans h.stop

theorem advance {l : Lexeme} {rest : List Lexeme} (h : s.rest = l :: rest) :
    s.Passes [l] { s with rest := s.rest.tail } :=
  ⟨by rw [h]; rfl, rfl, rfl, rfl, rfl⟩

theorem of_deeper (h : State.Passes { s with depth := s.depth + 1 } ls s') :
    s.Passes ls { s' with depth := s'.depth - 1 } where
  rest := h.rest
  limits := h.limits
  size := h.size
  depth := by rw [h.depth]; exact Nat.add_sub_cancel ..
  stop := h.stop

end State.Passes

theorem State.Calls.passes {s : State} {p : Nat} {x : String} {rest : List Lexeme}
    (h : s.Calls p x rest) (calls : Array CallSite) :
    ∃ q, s.Passes [⟨p, .name x⟩, ⟨q, .openParen⟩] { s with rest, calls } := by
  obtain ⟨q, shape⟩ := h
  exact ⟨q, shape, rfl, rfl, rfl, rfl⟩

structure State.Fit (s : State) : Prop where
  depth_le : s.depth ≤ s.limits.nesting
  length_le : s.rest.length ≤ s.size

theorem State.Passes.fit {s s' : State} {ls : List Lexeme} (h : s.Passes ls s') (fit : s.Fit) :
    s'.Fit where
  depth_le := by rw [h.depth, h.limits]; exact fit.depth_le
  length_le := by
    have := fit.length_le
    rw [h.rest, List.length_append] at this
    rw [h.size]
    omega

theorem State.Fit.deeper {s : State} (fit : s.Fit) (room : s.depth < s.limits.nesting) :
    State.Fit { s with depth := s.depth + 1 } :=
  ⟨room, fit.length_le⟩

/-- How many expressions can be active together from this state on, if the outermost asks for this
least precedence: four on every level of parentheses that may still be opened, and on this level one
for each precedence from the least one on and one for the term. -/
def State.demand (s : State) (least : Nat) : Nat :=
  4 * (s.limits.nesting - s.depth) + (4 - (Form.ofLeast least).rank)

/-- What the primaries of a state demand: an expression in parentheses, if any may be opened. -/
def State.demandInside (s : State) : Nat := 4 * (s.limits.nesting - s.depth)

theorem demand_deeper {s : State} (room : s.depth < s.limits.nesting) :
    State.demand { s with depth := s.depth + 1 } 1 = s.demandInside := by
  show 4 * (s.limits.nesting - (s.depth + 1)) + 4 = 4 * (s.limits.nesting - s.depth)
  omega

theorem State.Passes.demand_eq {s s' : State} {ls : List Lexeme} (h : s.Passes ls s')
    (least : Nat) : s'.demand least = s.demand least := by
  rw [State.demand, h.limits, h.depth, State.demand]

/-! ## Results and failures -/

/-- The node is the tree of the lexemes between the states, as an expression of the form. -/
structure Reads (f : Form) (s : State) (ls : List Lexeme) (node : Node) (s' : State) : Prop where
  passes : s.Passes ls s'
  derives : Derives f (ls.map Lexeme.token) node.expr
  height_eq : node.height = node.expr.height
  height_le : node.height ≤ s.limits.height
  nesting_le : s.depth + nesting (ls.map Lexeme.token) ≤ s.limits.nesting

/-- The failure comes in a state that was passed to, and is no exhaustion if there is enough fuel.
-/
def Fails (enough : Prop) (s : State) (e : Failure) (s' : State) : Prop :=
  (∃ ls, s.Passes ls s') ∧ (enough → e ≠ .exhausted)

theorem Fails.mono {enough enough' : Prop} {s s' : State} {e : Failure} (h : Fails enough s e s')
    (le : enough' → enough) : Fails enough' s e s' := ⟨h.1, fun h' => h.2 (le h')⟩

theorem Fails.here {enough : Prop} {s : State} {e : Failure} (h : enough → e ≠ .exhausted) :
    Fails enough s e s := ⟨⟨[], .refl s⟩, h⟩

theorem Fails.after {enough : Prop} {s s' s'' : State} {ls : List Lexeme} {e : Failure}
    (passes : s.Passes ls s') (h : Fails enough s' e s'') : Fails enough s e s'' := by
  obtain ⟨⟨ms, passes'⟩, not_exhausted⟩ := h
  exact ⟨⟨ls ++ ms, passes.trans passes'⟩, not_exhausted⟩

/-- What parsers of whole expressions promise that ask for a least precedence: the next token is no
operator that they could have gone on with. -/
def ReadsExpression (expression : Parser Node) (least fuel : Nat) : Prop :=
  ∀ s : State, s.Fit →
    Ensures expression s
      (fun node s' => ∃ ls, Reads (.ofLeast least) s ls node s' ∧
        ∀ op, s'.next = some (.operator op) → op.precedence < least)
      (Fails (s.demand least ≤ fuel) s)

section

variable {E : Parser Node} {fuel : Nat} {s : State}

/-! ## Groups -/

def closing (E : Parser Node) : Parser Node := do
  let node ← E
  match ← peek with
  | some .closeParen =>
    advance
    return node
  | _ => unexpected [.operator, .closeParen]

theorem group_eq (E : Parser Node) : group E = nested (advance >>= fun _ => closing E) := rfl

theorem closing_reads (hE : ReadsExpression E 1 fuel) (fit : s.Fit) :
    Ensures (closing E) s
      (fun node s' => ∃ ls s₁ offset, Reads .sum s ls node s₁ ∧
        s.Passes (ls ++ [⟨offset, .closeParen⟩]) s')
      (Fails (s.demand 1 ≤ fuel) s) := by
  rw [closing, ensures_bind]
  refine (hE s fit).imp ?_ fun e s' fails => fails
  intro node s₁ outcome
  obtain ⟨ls, reads, -⟩ := outcome
  rw [ensures_bind, ensures_peek]
  split
  · next close =>
    obtain ⟨offset, rest, close⟩ := rest_of_next close
    rw [ensures_bind, ensures_advance, ensures_pure]
    exact ⟨ls, s₁, offset, reads, reads.passes.trans (.advance close)⟩
  · rw [ensures_unexpected]
    exact Fails.after reads.passes (.here fun _ => by simp)

theorem group_reads (hE : ReadsExpression E 1 fuel) (fit : s.Fit) {offset : Nat}
    {rest : List Lexeme} (h : s.rest = ⟨offset, .openParen⟩ :: rest) :
    Ensures (group E) s (fun node s' => ∃ ls, Reads .primary s ls node s')
      (Fails (s.demandInside ≤ fuel) s) := by
  rw [group_eq, ensures_nested]
  split
  case isFalse => exact .here fun _ => by simp
  case isTrue room =>
    rw [ensures_bind, ensures_advance]
    have opened := State.Passes.advance (s := { s with depth := s.depth + 1 }) h
    apply (closing_reads hE (opened.fit (fit.deeper room))).imp
    · intro node s' outcome
      obtain ⟨ls, s₁, offset', reads, closed⟩ := outcome
      have passes := (opened.trans closed).of_deeper
      refine ⟨_, passes, ?_, reads.height_eq, reads.height_le, ?_⟩
      · simpa using reads.derives.group
      · have := reads.nesting_le
        have level := nesting_group reads.derives.balanced
        simp only [List.map_append, List.map_cons, List.map_nil, List.cons_append,
          List.nil_append] at level this ⊢
        omega
    · intro e s' outcome
      obtain ⟨⟨ls, passes⟩, not_exhausted⟩ := outcome
      refine ⟨⟨_, (opened.trans passes).of_deeper⟩, fun enough => not_exhausted ?_⟩
      rw [opened.demand_eq, demand_deeper room]
      exact enough

/-! ## Calls -/

/-- What the parsers of arguments return: the trees of the tokens between the commas up to the
closing parenthesis, and the greatest of their heights. -/
structure ReadsArguments (s : State) (args : List (List Token × Expr)) (result : List Expr × Nat)
    (s' : State) : Prop where
  passes : ∃ ls, s.Passes ls s' ∧
    ls.map Lexeme.token = [Token.comma].intercalate (args.map Prod.fst) ++ [.closeParen]
  derives : ∀ a ∈ args, Derives .sum a.1 a.2
  trees : result.1 = args.map Prod.snd
  height_eq : result.2 = Expr.heightAll result.1
  height_le : result.2 ≤ s.limits.height
  nesting_le : s.depth + nesting ([Token.comma].intercalate (args.map Prod.fst)) ≤ s.limits.nesting

theorem ReadsArguments.cons {s₁ s₂ : State} {ls : List Lexeme} {first : Node}
    {args : List (List Token × Expr)} {result : List Expr × Nat} {offset : Nat} {rest : List Lexeme}
    (reads : Reads .sum s ls first s₁) (comma : s₁.rest = ⟨offset, .comma⟩ :: rest)
    (some_args : args ≠ [])
    (others : ReadsArguments { s₁ with rest := s₁.rest.tail } args result s₂) :
    ReadsArguments s ((ls.map Lexeme.token, first.expr) :: args)
      (first.expr :: result.1, max first.height result.2) s₂ := by
  obtain ⟨⟨ms, passes, tokens⟩, derives, trees, height_eq, height_le, nesting_le⟩ := others
  have passed := reads.passes.trans (.advance comma)
  have joined := joined_cons (ls.map Lexeme.token)
    (show args.map Prod.fst ≠ [] by simpa using some_args)
  rw [passed.limits] at height_le
  rw [passed.limits, passed.depth] at nesting_le
  refine ⟨⟨_, passed.trans passes, ?_⟩, ?_, ?_, ?_, ?_, ?_⟩
  · rw [List.map_cons, joined]
    simp [tokens]
  · exact List.forall_mem_cons.mpr ⟨reads.derives, derives⟩
  · rw [List.map_cons, trees]
  · simp only [Expr.heightAll, reads.height_eq, height_eq]
  · exact Nat.max_le.mpr ⟨reads.height_le, height_le⟩
  · have := reads.nesting_le
    rw [List.map_cons, joined, nesting_separated rfl reads.derives.balanced]
    omega

theorem argumentsFrom_reads (hE : ReadsExpression E 1 fuel) (bound : Nat) (fit : s.Fit) :
    Ensures (argumentsFrom E bound) s
      (fun result s' => ∃ args, args ≠ [] ∧ ReadsArguments s args result s')
      (Fails (s.rest.length < bound ∧ s.demand 1 ≤ fuel) s) := by
  induction bound generalizing s with
  | zero =>
    rw [argumentsFrom, ensures_throw]
    exact .here fun enough => by omega
  | succ bound ih =>
    rw [argumentsFrom, ensures_bind]
    refine (hE s fit).imp ?_ fun e s' fails => fails.mono fun enough => enough.2
    intro first s₁ outcome
    obtain ⟨ls, reads, -⟩ := outcome
    rw [ensures_bind, ensures_peek]
    split
    · next close =>
      obtain ⟨offset, rest, close⟩ := rest_of_next close
      rw [ensures_bind, ensures_advance, ensures_pure]
      refine ⟨[(ls.map Lexeme.token, first.expr)], by simp, ?_⟩
      refine ⟨⟨_, reads.passes.trans (.advance close), by simp⟩, ?_, rfl, ?_, reads.height_le, ?_⟩
      · exact List.forall_mem_singleton.mpr reads.derives
      · simp [Expr.heightAll, reads.height_eq]
      · simpa using reads.nesting_le
    · next comma =>
      -- The rest of the arguments come after a comma, from fewer lexemes.
      obtain ⟨offset, rest, comma⟩ := rest_of_next comma
      rw [ensures_bind, ensures_advance, ensures_bind]
      have passed := reads.passes.trans (.advance comma)
      apply (ih (passed.fit fit)).imp
      · intro result s₂ outcome
        obtain ⟨args, some_args, others⟩ := outcome
        rw [ensures_pure]
        exact ⟨_, List.cons_ne_nil _ _, .cons reads comma some_args others⟩
      · intro e s' fails
        refine (fails.mono fun enough => ⟨?_, ?_⟩).after passed
        · have length := congrArg List.length passed.rest
          simp only [List.length_append, List.length_cons, List.length_nil] at length ⊢
          omega
        · rw [passed.demand_eq]
          exact enough.2
    · rw [ensures_unexpected]
      exact Fails.after reads.passes (.here fun _ => by simp)

theorem arguments_reads (hE : ReadsExpression E 1 fuel) (fit : s.Fit) :
    Ensures (arguments E) s (fun result s' => ∃ args, ReadsArguments s args result s')
      (Fails (s.demand 1 ≤ fuel) s) := by
  rw [arguments, ensures_bind, ensures_peek]
  split
  · next close =>
    obtain ⟨offset, rest, close⟩ := rest_of_next close
    rw [ensures_bind, ensures_advance, ensures_pure]
    refine ⟨[], ⟨_, .advance close, rfl⟩, by simp, rfl, rfl, Nat.zero_le _, ?_⟩
    have := fit.depth_le
    simp only [List.map_nil, List.intercalate_nil, nesting_nil]
    omega
  · rw [ensures_bind, ensures_get]
    apply (argumentsFrom_reads hE _ fit).imp
    · intro result s' outcome
      obtain ⟨args, -, reads⟩ := outcome
      exact ⟨args, reads⟩
    · intro e s' fails
      exact fails.mono fun enough => ⟨Nat.lt_succ_of_le fit.length_le, enough⟩

theorem Reads.call {s₁ s₂ : State} {ls₀ : List Lexeme} {f : Aggregate}
    {args : List (List Token × Expr)} {result : List Expr × Nat} (opened : s.Passes ls₀ s₁)
    (tokens₀ : ls₀.map Lexeme.token = [.name f.name, .openParen])
    (reads : ReadsArguments { s₁ with depth := s₁.depth + 1 } args result s₂)
    (within : result.2 + 1 ≤ s.limits.height) :
    ∃ ls, Reads .primary s ls ⟨.call f result.1, result.2 + 1⟩
      { s₂ with depth := s₂.depth - 1 } := by
  obtain ⟨⟨ls, passes, tokens⟩, derives, trees, height_eq, -, nesting_le⟩ := reads
  have read : (ls₀ ++ ls).map Lexeme.token =
      .name f.name :: .openParen :: [Token.comma].intercalate (args.map Prod.fst) ++
        [.closeParen] := by
    rw [List.map_append, tokens₀, tokens]
    rfl
  have balanced : Balanced ([Token.comma].intercalate (args.map Prod.fst)) :=
    .joined fun a ha => (derives a ha).balanced
  refine ⟨ls₀ ++ ls, opened.trans passes.of_deeper, ?_, ?_, within, ?_⟩
  · rw [read, trees]
    exact .call f args derives
  · exact congrArg (· + 1) height_eq
  · rw [read, nesting_call f.name balanced, ← opened.depth, ← opened.limits]
    simp only at nesting_le
    omega

theorem callOf_reads (hE : ReadsExpression E 1 fuel) (fit : s.Fit) {s₁ : State}
    {ls₀ : List Lexeme} {f : Aggregate} (opened : s.Passes ls₀ s₁)
    (tokens₀ : ls₀.map Lexeme.token = [.name f.name, .openParen]) :
    Ensures (callOf E f) s₁ (fun node s' => ∃ ls, Reads .primary s ls node s')
      (Fails (s.demandInside ≤ fuel) s) := by
  rw [callOf, ensures_bind, ensures_nested]
  split
  case isFalse => exact Fails.after opened (.here fun _ => by simp)
  case isTrue room =>
    apply (arguments_reads hE ((opened.fit fit).deeper room)).imp
    · intro result s₂ outcome
      obtain ⟨args, reads⟩ := outcome
      obtain ⟨ls, passes, -⟩ := reads.passes
      have passed := opened.trans passes.of_deeper
      rw [ensures_limited]
      split
      case isFalse => exact ⟨⟨_, passed⟩, fun _ => by simp⟩
      case isTrue within =>
        rw [passed.limits] at within
        exact Reads.call opened tokens₀ reads within
    · intro e s' outcome
      obtain ⟨⟨ls, passes⟩, not_exhausted⟩ := outcome
      refine ⟨⟨_, opened.trans passes.of_deeper⟩, fun enough => not_exhausted ?_⟩
      rw [demand_deeper room, State.demandInside, opened.limits, opened.depth]
      exact enough

theorem call?_reads (hE : ReadsExpression E 1 fuel) (fit : s.Fit) :
    Ensures (call? E) s
      (fun result s' => match result with
        | none => s' = s
        | some node => ∃ ls, Reads .primary s ls node s')
      (Fails (s.demandInside ≤ fuel) s) := by
  refine ensures_call? (fun _ => rfl) (fun p x rest calls _ => ?_) fun p f rest calls => ?_
  · obtain ⟨q, opened⟩ := calls.passes s.calls
    exact .after opened (.here fun _ => by simp)
  · obtain ⟨q, opened⟩ := calls.passes (s.calls.push ⟨p, f⟩)
    exact callOf_reads hE fit opened rfl

/-! ## Primaries and terms -/

theorem primary_reads (hE : ReadsExpression E 1 fuel) (expected : List Expectation)
    (fit : s.Fit) :
    Ensures (primary E expected) s (fun node s' => ∃ ls, Reads .primary s ls node s')
      (Fails (s.demandInside ≤ fuel) s) := by
  -- A number or a variable is one lexeme, and opens nothing.
  have leaf {l : Lexeme} {rest : List Lexeme} {e : Expr} (h : s.rest = l :: rest)
      (derives : Derives .primary [l.token] e) (height : e.height = 1)
      (level : nesting [l.token] = 0) :
      ∃ ls, Reads .primary s ls ⟨e, 1⟩ { s with rest := s.rest.tail } := by
    refine ⟨_, .advance h, derives, height.symm, s.limits.height_pos, ?_⟩
    have := fit.depth_le
    rw [List.map_singleton, level]
    omega
  rw [primary, ensures_bind]
  refine (call?_reads hE fit).imp ?_ fun e s' fails => fails
  intro result s' reads
  cases result
  case some => exact reads
  case none =>
    obtain rfl : s' = s := reads
    rw [ensures_bind, ensures_peek]
    split
    · next v number =>
      obtain ⟨offset, rest, number⟩ := rest_of_next number
      rw [ensures_bind, ensures_advance, ensures_pure]
      exact leaf number (.number v) (by rw [Expr.height]) rfl
    · next x name =>
      obtain ⟨offset, rest, name⟩ := rest_of_next name
      rw [ensures_bind, ensures_advance, ensures_pure]
      exact leaf name (.var x) (by rw [Expr.height]) rfl
    · next opens =>
      obtain ⟨offset, rest, opens⟩ := rest_of_next opens
      exact group_reads hE fit opens
    · rw [ensures_unexpected]
      exact .here fun _ => by simp

theorem term_reads (hE : ReadsExpression E 1 fuel) (fit : s.Fit) :
    Ensures (term E) s (fun node s' => ∃ ls, Reads .term s ls node s')
      (Fails (s.demandInside ≤ fuel) s) := by
  rw [term, ensures_bind, ensures_peek]
  split
  · next minus =>
    obtain ⟨offset, rest, minus⟩ := rest_of_next minus
    rw [ensures_bind, ensures_advance, ensures_bind]
    have passed := State.Passes.advance minus
    apply (primary_reads hE _ (passed.fit fit)).imp
    · intro node s' outcome
      obtain ⟨ls, reads⟩ := outcome
      rw [ensures_limited]
      have through := passed.trans reads.passes
      split
      case isFalse => exact ⟨⟨_, through⟩, fun _ => by simp⟩
      case isTrue within =>
        rw [through.limits] at within
        refine ⟨_, through, reads.derives.neg, ?_, within, ?_⟩
        · simp only [Expr.height, reads.height_eq]
        · have level : (s.depth : Int) + nesting (ls.map Lexeme.token) ≤ s.limits.nesting :=
            reads.nesting_le
          have := nesting_nonneg (ls.map Lexeme.token)
          show (s.depth : Int) + max 0 (0 + nesting (ls.map Lexeme.token)) ≤ s.limits.nesting
          omega
    · exact fun e s' fails => fails.after passed
  · refine (primary_reads hE _ fit).imp ?_ fun e s' fails => fails
    intro node s' outcome
    obtain ⟨ls, reads⟩ := outcome
    exact ⟨ls, reads.passes, .loosen reads.derives, reads.height_eq, reads.height_le,
      reads.nesting_le⟩

/-! ## Chains of operators -/

theorem demand_operand {op : Operator} {least : Nat} (counts : least ≤ op.precedence) :
    s.demand (op.precedence + 1) + 1 ≤ s.demand least := by
  have tight := Operator.le_precedence_iff.mp counts
  have := op.rank_form_le
  rw [State.demand, Form.ofLeast_succ_precedence, op.rank_tighter, State.demand]
  omega

/-- An operator that a right operand leaves for the chain binds no tighter than the last one. -/
theorem rank_form_le_of_lt {op op' : Operator} (h : op'.precedence < op.precedence + 1) :
    op'.form.rank ≤ op.form.rank := by
  have loose := mt Operator.le_precedence_iff.mpr (Nat.not_le.mpr h)
  rw [Form.ofLeast_succ_precedence, op.rank_tighter] at loose
  omega

theorem Reads.binary {s s₁ s₂ : State} {ls rs : List Lexeme} {left right : Node} {op : Operator}
    {l : Lexeme} {rest : List Lexeme} (hl : Reads op.form s ls left s₁)
    (next : s₁.rest = l :: rest) (token : l.token = .operator op)
    (hr : Reads op.form.tighter { s₁ with rest := s₁.rest.tail } rs right s₂)
    (within : max left.height right.height + 1 ≤ s.limits.height) :
    Reads op.form s (ls ++ l :: rs)
      ⟨.binary op left.expr right.expr, max left.height right.height + 1⟩ s₂ := by
  have tokens : (ls ++ l :: rs).map Lexeme.token =
      ls.map Lexeme.token ++ .operator op :: rs.map Lexeme.token := by
    rw [List.map_append, List.map_cons, token]
  refine ⟨?_, ?_, ?_, within, ?_⟩
  · simpa using hl.passes.trans ((State.Passes.advance next).trans hr.passes)
  · rw [tokens]
    exact .binary op hl.derives hr.derives
  · simp only [Expr.height, hl.height_eq, hr.height_eq]
  · have inside : (s₁.depth : Int) + nesting (rs.map Lexeme.token) ≤ s₁.limits.nesting :=
      hr.nesting_le
    have := hl.nesting_le
    rw [hl.passes.depth, hl.passes.limits] at inside
    rw [tokens, nesting_separated rfl hl.derives.balanced]
    omega

/-- The chain goes on with what was read as `left` from the state `s` on. -/
theorem chain_reads {operand : Nat → Parser Node}
    (hop : ∀ least, ReadsExpression (operand least) least fuel) (least bound : Nat) {f : Form}
    {left : Node} {s₁ : State} {ls : List Lexeme} (fit : s.Fit) (reads : Reads f s ls left s₁)
    (tight : (Form.ofLeast least).rank ≤ f.rank)
    (next : ∀ op, s₁.next = some (.operator op) → op.form.rank ≤ f.rank) :
    Ensures (chain operand least bound left) s₁
      (fun node s' => ∃ ls, Reads (.ofLeast least) s ls node s' ∧
        ∀ op, s'.next = some (.operator op) → op.precedence < least)
      (Fails (s.limits.height < left.height + bound ∧ s.demand least ≤ fuel + 1) s) := by
  have done : Reads (.ofLeast least) s ls left s₁ :=
    ⟨reads.passes, reads.derives.of_le tight, reads.height_eq, reads.height_le, reads.nesting_le⟩
  induction bound generalizing f left s₁ ls with
  | zero =>
    have := reads.height_le
    rw [chain, ensures_throw]
    exact Fails.after reads.passes (.here fun enough => by omega)
  | succ bound ih =>
    rw [chain, ensures_bind, ensures_peek]
    split
    · next op operator =>
      split
      · next loose =>
        refine ⟨ls, done, fun op' operator' => ?_⟩
        rw [operator] at operator'
        cases operator'
        exact loose
      · next counts =>
        -- What was read so far becomes the left operand, so it has to be of the operator's form.
        have counts : least ≤ op.precedence := Nat.not_lt.mp counts
        obtain ⟨offset, rest, shape⟩ := rest_of_next operator
        have passed := reads.passes.trans (.advance shape)
        rw [ensures_bind, ensures_advance, ensures_bind]
        apply (hop (op.precedence + 1) _ (passed.fit fit)).imp
        · intro right s₂ outcome
          obtain ⟨rs, hright, stops⟩ := outcome
          rw [ensures_bind, ensures_limited]
          have through := passed.trans hright.passes
          split
          case isFalse => exact ⟨⟨_, through⟩, fun _ => by simp⟩
          case isTrue within =>
            rw [through.limits] at within
            rw [Form.ofLeast_succ_precedence] at hright
            have hleft : Reads op.form s ls left s₁ := ⟨reads.passes,
              reads.derives.of_le (next op operator), reads.height_eq, reads.height_le,
              reads.nesting_le⟩
            have both := hleft.binary shape rfl hright within
            have tight' := Operator.le_precedence_iff.mp counts
            refine (ih both tight' (fun op' operator' => ?_) ?_).imp (fun _ _ h => h) ?_
            · -- The right operand stopped before this operator, so it binds no tighter.
              exact rank_form_le_of_lt (stops op' operator')
            · exact ⟨both.passes, both.derives.of_le tight', both.height_eq, both.height_le,
                both.nesting_le⟩
            · refine fun e s' fails => fails.mono fun enough => ⟨?_, enough.2⟩
              have := Nat.le_max_left left.height right.height
              simp only
              omega
        · refine fun e s' fails => (fails.mono fun enough => ?_).after passed
          have := demand_operand (s := s) counts
          rw [passed.demand_eq]
          omega
    · next other => exact ⟨ls, done, fun op operator => absurd operator (other op)⟩

end

/-! ## Expressions -/

theorem expression_reads (fuel least : Nat) :
    ReadsExpression (expression fuel least) least fuel := by
  -- Operands of operators and expressions in parentheses have one call less to go.
  induction fuel generalizing least with
  | zero =>
    intro s fit
    have := Form.rank_ofLeast_le least
    rw [expression, ensures_throw]
    refine .here fun enough => ?_
    rw [State.demand] at enough
    omega
  | succ fuel ih =>
    intro s fit
    rw [expression, ensures_bind]
    apply (term_reads (ih 1) fit).imp
    · intro left s₁ outcome
      obtain ⟨ls, reads⟩ := outcome
      rw [ensures_bind, ensures_get, reads.passes.limits]
      have tight := Form.rank_ofLeast_le least
      refine (chain_reads ih least (s.limits.height + 1) fit reads tight ?_).imp
        (fun _ _ h => h) ?_
      · intro op _
        exact Nat.le_succ_of_le op.rank_form_le
      · intro e s' fails
        exact fails.mono fun enough => ⟨by omega, enough⟩
    · intro e s' fails
      have := Form.rank_ofLeast_le least
      refine fails.mono fun enough => ?_
      rw [State.demand] at enough
      rw [State.demandInside]
      omega

end Parser

end Calculator
