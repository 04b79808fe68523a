import Calculator.Proofs.Parser.Contract

/-!
# What a parser finds

The other direction: where the grammar derives a tree from the lexemes that come next, the parsers
find that tree, unless a limit that it breaks or the fuel stops them. The induction is on the
derivation. An operand on the left is no expression of its own for the parser, which meets it on the
way to a longer chain, so derivations of a form are taken as the beginning of a chain (`Begins`).

1. `Finds`: the outcome of a parser where a derived tree comes next.
2. `begins_of_derives`: a derived expression begins the chain of any expression that is as loose.
3. `Begins.finds`: parsers of whole expressions find what is derived.
-/

namespace Calculator

namespace Parser

/-! ## Outcomes -/

/-- The limits allow so many more open parentheses, and a tree of this height. -/
def State.Allows (s : State) (level : Int) (height : Nat) : Prop :=
  s.depth + level ≤ s.limits.nesting ∧ height ≤ s.limits.height

theorem State.Allows.mono {s : State} {level level' : Int} {height height' : Nat}
    (h : s.Allows level height) (hl : level' ≤ level) (hh : height' ≤ height) :
    s.Allows level' height' := by
  obtain ⟨_, _⟩ := h
  exact ⟨by omega, by omega⟩

theorem State.not_allows_of_full {s : State} (full : ¬ s.depth < s.limits.nesting)
    (ts : List Token) (height : Nat) : ¬ s.Allows (nesting ts + 1) height := by
  intro allowed
  have := allowed.1
  have := nesting_nonneg ts
  omega

theorem State.Passes.allows_iff {s s' : State} {ls : List Lexeme} (h : s.Passes ls s')
    (level : Int) (height : Nat) : s'.Allows level height ↔ s.Allows level height := by
  rw [State.Allows, h.depth, h.limits, State.Allows]

theorem State.allows_deeper_iff (s : State) (level : Int) (height : Nat) :
    State.Allows { s with depth := s.depth + 1 } level height ↔ s.Allows (level + 1) height := by
  simp only [State.Allows]
  omega

/-- The failure is one of the limits, and one is broken, or the fuel is used up. -/
def Stopped (broken : Prop) : Failure → Prop
  | .tooNested _ | .tooHigh _ => broken
  | .exhausted => True
  | .unexpected .. | .unknownFunction .. => False

theorem Stopped.mono {broken broken' : Prop} {e : Failure} (h : Stopped broken e)
    (le : broken → broken') : Stopped broken' e := by
  cases e <;> first | exact le h | exact h

def Finds (p : Parser Node) (s : State) (ls : List Lexeme) (e : Expr) : Prop :=
  Ensures p s (fun node s' => node = ⟨e, e.height⟩ ∧ s.Passes ls s')
    (fun failure _ => Stopped (¬ s.Allows (nesting (ls.map Lexeme.token)) e.height) failure)

/-- What may come after an expression of the form without being part of it: no parenthesis, which
would make a call of a name, and no operator that binds tighter. -/
def MayFollow (f : Form) (next : Option Token) : Prop :=
  next ≠ some .openParen ∧ ∀ op, next = some (.operator op) → op.form.rank ≤ f.rank

theorem MayFollow.of_le {f g : Form} {next : Option Token} (le : f.rank ≤ g.rank)
    (h : MayFollow f next) : MayFollow g next :=
  ⟨h.1, fun op operator => Nat.le_trans (h.2 op operator) le⟩

/-- The state comes before the lexemes of these tokens, and the token after them may follow. -/
structure Before (s : State) (f : Form) (ts : List Token) (ls : List Lexeme) : Prop where
  tokens : ls.map Lexeme.token = ts
  rest : ∃ rest, s.rest = ls ++ rest ∧ MayFollow f (rest.head?.map Lexeme.token)

theorem Before.of_le {s : State} {f g : Form} {ts : List Token} {ls : List Lexeme}
    (le : f.rank ≤ g.rank) (h : Before s f ts ls) : Before s g ts ls := by
  obtain ⟨rest, shape, follow⟩ := h.rest
  exact ⟨h.tokens, rest, shape, follow.of_le le⟩

theorem Before.next {s s' : State} {f : Form} {ts : List Token} {ls : List Lexeme}
    (h : Before s f ts ls) (passes : s.Passes ls s') : MayFollow f s'.next := by
  obtain ⟨rest, shape, follow⟩ := h.rest
  have : s'.rest = rest := List.append_cancel_left (passes.rest.symm.trans shape)
  rw [State.next, this]
  exact follow

def IsPrimary (ts : List Token) (e : Expr) : Prop :=
  ∀ fuel expected (s : State) ls, Before s .primary ts ls →
    Finds (primary (expression fuel 1) expected) s ls e

/-- Where the tokens come next, a chain gets to the tree: to show something of the chain, it
suffices to show it where the tree is its left operand. -/
def Begins (f : Form) (ts : List Token) (e : Expr) : Prop :=
  ∀ fuel least (s : State) ls (ok : Node → State → Prop) (fail : Failure → State → Prop),
    (Form.ofLeast least).rank ≤ f.rank → Before s f ts ls →
    (∀ bound s', s.Passes ls s' →
      Ensures (chain (expression fuel) least bound ⟨e, e.height⟩) s' ok fail) →
    (∀ failure s', Stopped (¬ s.Allows (nesting ts) e.height) failure → fail failure s') →
    Ensures (term (expression fuel 1)) s
      (fun left s' => ∀ bound, Ensures (chain (expression fuel) least bound left) s' ok fail) fail

/-! ## Expressions -/

theorem chain_stops {operand : Nat → Parser Node} {least bound : Nat} {left : Node} {s : State}
    {ok : Node → State → Prop} {fail : Failure → State → Prop}
    (stop : ∀ op, s.next = some (.operator op) → op.precedence < least) (hok : ok left s)
    (hfail : fail .exhausted s) : Ensures (chain operand least bound left) s ok fail := by
  cases bound with
  | zero => exact hfail
  | succ bound =>
    rw [chain, ensures_bind, ensures_peek]
    split
    · next op operator =>
      rw [if_pos (stop op operator)]
      exact hok
    · exact hok

/-- What begins a chain is an expression where the chain cannot go on. -/
theorem Begins.finds {least fuel : Nat} {ts : List Token} {e : Expr} {s : State}
    {ls : List Lexeme} (h : Begins (.ofLeast least) ts e) (before : Before s (.ofLeast least) ts ls)
    (stop : ∀ s', s.Passes ls s' → ∀ op, s'.next = some (.operator op) → op.precedence < least) :
    Finds (expression fuel least) s ls e := by
  cases fuel with
  | zero => exact True.intro
  | succ fuel =>
    have begun := h fuel least s ls (fun node s' => node = ⟨e, e.height⟩ ∧ s.Passes ls s')
      (fun failure _ => Stopped (¬ s.Allows (nesting ts) e.height) failure) (Nat.le_refl _) before
      (fun bound s' passes => chain_stops (stop s' passes) ⟨rfl, passes⟩ True.intro)
      (fun _ _ stopped => stopped)
    rw [Finds, expression, ensures_bind, before.tokens]
    refine begun.imp ?_ (fun _ _ stopped => stopped)
    intro left s' going
    rw [ensures_bind, ensures_get]
    exact going _

theorem Begins.finds_sum {ts : List Token} {e : Expr} {s : State} {ls rest : List Lexeme}
    (h : Begins .sum ts e) (fuel : Nat) (tokens : ls.map Lexeme.token = ts)
    (shape : s.rest = ls ++ rest) (opens : rest.head?.map Lexeme.token ≠ some .openParen)
    (stop : ∀ op, rest.head?.map Lexeme.token ≠ some (.operator op)) :
    Finds (expression fuel 1) s ls e := by
  have before : Before s .sum ts ls :=
    ⟨tokens, rest, shape, opens, fun op operator => absurd operator (stop op)⟩
  refine Begins.finds h before fun s' passes op operator => ?_
  have : s'.rest = rest := List.append_cancel_left (passes.rest.symm.trans shape)
  rw [State.next, this] at operator
  exact absurd operator (stop op)

theorem begins_of_term {f : Form} {ts : List Token} {e : Expr}
    (h : ∀ fuel (s : State) ls, Before s f ts ls → Finds (term (expression fuel 1)) s ls e) :
    Begins f ts e := by
  intro fuel least s ls ok fail _ before hok hfail
  apply (h fuel s ls before).imp
  · intro node s' outcome bound
    obtain ⟨rfl, passes⟩ := outcome
    exact hok bound s' passes
  · intro failure s' stopped
    rw [before.tokens] at stopped
    exact hfail failure s' stopped

/-! ## Operators -/

theorem State.Allows.of_binary {s : State} {ls rs : List Token} {l r : Expr} {op : Operator}
    (balanced : Balanced ls)
    (h : s.Allows (nesting (ls ++ .operator op :: rs)) (Expr.binary op l r).height) :
    s.Allows (nesting ls) l.height ∧ s.Allows (nesting rs) r.height := by
  rw [nesting_separated rfl balanced, Expr.height] at h
  exact ⟨h.mono (by omega) (by omega), h.mono (by omega) (by omega)⟩

/-- A chain goes on over an operator that counts and the operand that is derived after it. -/
theorem chain_goes_on {op : Operator} {least bound fuel : Nat} {left : Node} {r : Expr} {s : State}
    {x : Lexeme} {rs rest : List Lexeme} {ok : Node → State → Prop} {fail : Failure → State → Prop}
    (hr : Begins op.form.tighter (rs.map Lexeme.token) r) (counts : least ≤ op.precedence)
    (shape : s.rest = x :: rs ++ rest) (operator : x.token = .operator op)
    (follow : MayFollow op.form (rest.head?.map Lexeme.token))
    (hok : ∀ bound s', s.Passes (x :: rs) s' →
      Ensures (chain (expression fuel) least bound
        ⟨.binary op left.expr r, max left.height r.height + 1⟩) s' ok fail)
    (hhigh : s.limits.height < max left.height r.height + 1 → ∀ p s', fail (.tooHigh p) s')
    (hfail : ∀ failure s',
      Stopped (¬ s.Allows (nesting (rs.map Lexeme.token)) r.height) failure → fail failure s') :
    Ensures (chain (expression fuel) least bound left) s ok fail := by
  cases bound with
  | zero =>
    rw [chain, ensures_throw]
    exact hfail _ _ True.intro
  | succ bound =>
    have passed := State.Passes.advance (show s.rest = x :: (rs ++ rest) from shape)
    have next : s.next = some (.operator op) := by rw [next_cons (by simpa using shape), operator]
    rw [chain, ensures_bind, ensures_peek, next]
    simp only [Nat.not_lt.mpr counts, if_false]
    rw [ensures_bind, ensures_advance, ensures_bind]
    have before : Before { s with rest := s.rest.tail } op.form.tighter (rs.map Lexeme.token) rs :=
      ⟨rfl, rest, by rw [shape]; rfl, follow.of_le (Form.rank_le_rank_tighter _)⟩
    have found :
        Finds (expression fuel (op.precedence + 1)) { s with rest := s.rest.tail } rs r := by
      rw [← Form.ofLeast_succ_precedence] at hr before
      -- An operator that follows is no tighter than this one, so the operand ends before it.
      refine hr.finds before fun s' passes op' operator' => Nat.not_le.mp fun le => ?_
      have loose : op'.form.rank ≤ op.form.rank := by
        refine follow.2 op' ?_
        have after : s'.rest = rest :=
          List.append_cancel_left ((passed.trans passes).rest.symm.trans shape)
        rw [← after]
        exact operator'
      have := Operator.le_precedence_iff.mp le
      rw [Form.ofLeast_succ_precedence, op.rank_tighter] at this
      omega
    apply found.imp
    · intro right s' outcome
      obtain ⟨rfl, passes⟩ := outcome
      have through := passed.trans passes
      rw [ensures_bind, ensures_limited]
      split
      · exact hok bound s' through
      · next high =>
        rw [through.limits] at high
        exact hhigh (Nat.not_le.mp high) _ _
    · intro failure s' stopped
      exact hfail _ _ (stopped.mono (mt (passed.allows_iff _ _).mpr))

theorem Begins.binary {op : Operator} {ts us : List Token} {l r : Expr} (balanced : Balanced ts)
    (hl : Begins op.form ts l) (hr : Begins op.form.tighter us r) :
    Begins op.form (ts ++ .operator op :: us) (.binary op l r) := by
  intro fuel least s ls ok fail tight before hok hfail
  obtain ⟨xs, ys, rfl, rfl, tokens⟩ := List.map_eq_append_iff.mp before.tokens
  obtain ⟨x, rs, rfl, operator, rfl⟩ := List.map_eq_cons_iff.mp tokens
  obtain ⟨rest, shape, follow⟩ := before.rest
  have shape : s.rest = xs ++ (x :: rs ++ rest) := by rw [shape, List.append_assoc]
  -- The left operand is followed by the operator, which is no tighter than its form.
  have before_left : Before s op.form (xs.map Lexeme.token) xs := by
    refine ⟨rfl, _, shape, ?_⟩
    show MayFollow op.form (some x.token)
    rw [operator]
    exact ⟨by simp, fun op' same => by cases same; exact Nat.le_refl _⟩
  refine hl fuel least s xs ok fail tight before_left ?_ ?_
  · -- The chain has got to the left operand: it goes on over the operator.
    intro bound s₁ passes
    have shape₁ : s₁.rest = x :: rs ++ rest :=
      List.append_cancel_left (passes.rest.symm.trans shape)
    have counts := Operator.le_precedence_iff.mpr tight
    refine chain_goes_on hr counts shape₁ operator follow ?_ ?_ ?_
    · exact fun bound s₂ passes₂ => hok bound s₂ (passes.trans passes₂)
    · intro high p s'
      rw [passes.limits] at high
      exact hfail _ _ fun allowed => Nat.not_le.mpr high allowed.2
    · intro failure s' stopped
      refine hfail _ _ (stopped.mono fun broken allowed => broken ?_)
      exact (passes.allows_iff _ _).mpr (allowed.of_binary balanced).2
  · intro failure s' stopped
    exact hfail _ _ (stopped.mono fun broken allowed => broken (allowed.of_binary balanced).1)

/-! ## Terms -/

theorem Before.next_eq_head {s : State} {f : Form} {ts : List Token} {ls : List Lexeme}
    (h : Before s f ts ls) (ne : ts ≠ []) : s.next = ts.head? := by
  obtain ⟨rest, shape, -⟩ := h.rest
  obtain ⟨l, ls, rfl⟩ : ∃ l ms, ls = l :: ms := by
    refine List.exists_cons_of_ne_nil fun empty => ne ?_
    rw [← h.tokens, empty]
    rfl
  rw [next_cons shape, ← h.tokens]
  rfl

theorem IsPrimary.begins {ts : List Token} {e : Expr} (h : IsPrimary ts e) (ne : ts ≠ [])
    (head : ∀ op, ts.head? ≠ some (.operator op)) : Begins .primary ts e := by
  refine begins_of_term fun fuel s ls before => ?_
  rw [Finds, term, ensures_bind, ensures_peek]
  split
  · next minus => exact absurd ((before.next_eq_head ne).symm.trans minus) (head _)
  · exact h fuel _ s ls before

theorem IsPrimary.begins_neg {ts : List Token} {e : Expr} (h : IsPrimary ts e) :
    Begins .term (.operator .minus :: ts) (.neg e) := by
  refine begins_of_term fun fuel s ls before => ?_
  have next : s.next = some (.operator .minus) := before.next_eq_head (by simp)
  obtain ⟨x, ls, rfl, -, rfl⟩ := List.map_eq_cons_iff.mp before.tokens
  obtain ⟨rest, shape, follow⟩ := before.rest
  have passed := State.Passes.advance (show s.rest = x :: (ls ++ rest) from shape)
  have nested : nesting ((x :: ls).map Lexeme.token) = nesting (ls.map Lexeme.token) := by
    have := nesting_nonneg (ls.map Lexeme.token)
    rw [before.tokens, nesting_cons]
    simp only [Token.rise]
    omega
  rw [Finds, nested, Expr.height, term, ensures_bind, ensures_peek, next]
  simp only
  rw [ensures_bind, ensures_advance, ensures_bind]
  have before' : Before { s with rest := s.rest.tail } .primary (ls.map Lexeme.token) ls :=
    ⟨rfl, rest, by rw [shape]; rfl, follow.of_le (by decide)⟩
  apply (h fuel _ _ ls before').imp
  · intro node s' outcome
    obtain ⟨rfl, passes⟩ := outcome
    have through := passed.trans passes
    rw [ensures_limited]
    split
    · exact ⟨rfl, through⟩
    · next high =>
      intro allowed
      refine high ?_
      rw [through.limits]
      exact allowed.2
  · intro failure s' stopped
    refine stopped.mono fun broken allowed => broken ?_
    exact (passed.allows_iff _ _).mpr (allowed.mono (Int.le_refl _) (Nat.le_succ _))

/-! ## Primaries -/

theorem Before.single {s : State} {f : Form} {t : Token} {ls : List Lexeme}
    (h : Before s f [t] ls) :
    ∃ l rest, ls = [l] ∧ l.token = t ∧ s.rest = l :: rest ∧
      MayFollow f (rest.head?.map Lexeme.token) := by
  obtain ⟨l, rfl, token⟩ := List.map_eq_singleton_iff.mp h.tokens
  obtain ⟨rest, shape, follow⟩ := h.rest
  exact ⟨l, rest, rfl, token, shape, follow⟩

theorem isPrimary_number (v : Value) : IsPrimary [.number v] (.number v) := by
  intro fuel expected s ls before
  obtain ⟨l, rest, rfl, token, shape, -⟩ := before.single
  have noCall : s.NoCall := State.noCall_of_next fun x name => by
    rw [next_cons shape, token] at name
    cases name
  rw [Finds, primary, ensures_bind, ensures_call?_of_noCall noCall, ensures_bind, ensures_peek,
    next_cons shape, token]
  exact ⟨by rw [Expr.height], .advance shape⟩

theorem isPrimary_var (x : String) : IsPrimary [.name x] (.var x) := by
  intro fuel expected s ls before
  obtain ⟨l, rest, rfl, token, shape, follow⟩ := before.single
  -- No parenthesis follows the name, so it is no call.
  have noCall : s.NoCall := by
    rintro p x rest ⟨q, call⟩
    rw [call] at shape
    cases shape
    exact follow.1 rfl
  rw [Finds, primary, ensures_bind, ensures_call?_of_noCall noCall, ensures_bind, ensures_peek,
    next_cons shape, token]
  exact ⟨by rw [Expr.height], .advance shape⟩

theorem isPrimary_group {ts : List Token} {e : Expr} (balanced : Balanced ts)
    (h : Begins .sum ts e) : IsPrimary (.openParen :: ts ++ [.closeParen]) e := by
  intro fuel expected s ls before
  have next : s.next = some .openParen := before.next_eq_head (by simp)
  obtain ⟨xs, zs, rfl, opened, closed⟩ := List.map_eq_append_iff.mp before.tokens
  obtain ⟨x, ls, rfl, opens, rfl⟩ := List.map_eq_cons_iff.mp opened
  obtain ⟨z, rfl, closes⟩ := List.map_eq_singleton_iff.mp closed
  obtain ⟨rest, shape, -⟩ := before.rest
  have shape : s.rest = x :: (ls ++ z :: rest) := by simpa using shape
  have noCall : s.NoCall := State.noCall_of_next fun x name => by
    rw [next] at name
    cases name
  rw [Finds, before.tokens, nesting_group balanced, primary, ensures_bind,
    ensures_call?_of_noCall noCall, ensures_bind, ensures_peek, next]
  show Ensures (group (expression fuel 1)) s _ _
  rw [group, ensures_nested]
  split
  case isFalse full => exact s.not_allows_of_full full _ _
  case isTrue room =>
    rw [ensures_bind, ensures_advance, ensures_bind]
    have passed := State.Passes.advance (s := { s with depth := s.depth + 1 }) shape
    have inner : s.rest.tail = ls ++ z :: rest := by rw [shape]; rfl
    have found := h.finds_sum (s := { s with depth := s.depth + 1, rest := s.rest.tail }) fuel rfl
      inner (by simp [closes]) (by simp [closes])
    apply found.imp
    · intro node s' outcome
      obtain ⟨rfl, passes⟩ := outcome
      have through := passed.trans passes
      have close : s'.rest = z :: rest := by
        refine List.append_cancel_left (through.rest.symm.trans ?_)
        exact shape
      rw [ensures_bind, ensures_peek, next_cons close, closes]
      exact ⟨rfl, (through.trans (.advance close)).of_deeper⟩
    · intro failure s' stopped
      refine stopped.mono fun broken allowed => broken ?_
      exact (passed.allows_iff _ _).mpr ((s.allows_deeper_iff _ _).mpr allowed)

/-! ## Calls -/

theorem argumentsFrom_finds {fuel bound : Nat} {args : List (List Token × Expr)} (ne : args ≠ [])
    (h : ∀ a ∈ args, Derives .sum a.1 a.2 ∧ Begins .sum a.1 a.2) {s : State}
    {ls rest : List Lexeme} {l : Lexeme}
    (tokens : ls.map Lexeme.token = [Token.comma].intercalate (args.map Prod.fst))
    (close : l.token = .closeParen) (shape : s.rest = ls ++ l :: rest) :
    Ensures (argumentsFrom (expression fuel 1) bound) s
      (fun result s' => result = (args.map Prod.snd, Expr.heightAll (args.map Prod.snd)) ∧
        s.Passes (ls ++ [l]) s')
      (fun failure _ => Stopped
        (¬ s.Allows (nesting (ls.map Lexeme.token)) (Expr.heightAll (args.map Prod.snd)))
        failure) := by
  induction bound generalizing args s ls with
  | zero =>
    rw [argumentsFrom, ensures_throw]
    exact True.intro
  | succ bound ih =>
    obtain ⟨a, args, rfl⟩ := List.exists_cons_of_ne_nil ne
    obtain ⟨⟨derives, begins⟩, others⟩ := List.forall_mem_cons.mp h
    rw [argumentsFrom, ensures_bind]
    by_cases single : args = []
    · subst single
      rw [List.map_singleton, List.intercalate_singleton] at tokens
      have found := begins.finds_sum fuel tokens shape (by simp [close]) (by simp [close])
      apply found.imp
      · intro node s' outcome
        obtain ⟨rfl, passes⟩ := outcome
        have next : s'.rest = l :: rest :=
          List.append_cancel_left (passes.rest.symm.trans shape)
        rw [ensures_bind, ensures_peek, next_cons next, close]
        exact ⟨by simp [Expr.heightAll], passes.trans (.advance next)⟩
      · intro failure s' stopped
        refine stopped.mono fun broken allowed => broken ?_
        exact allowed.mono (Int.le_refl _) (by simp [Expr.heightAll])
    · rw [List.map_cons, joined_cons _ (by simpa using single)] at tokens
      obtain ⟨xs, zs, rfl, first, tokens⟩ := List.map_eq_append_iff.mp tokens
      obtain ⟨z, ls, rfl, comma, tokens⟩ := List.map_eq_cons_iff.mp tokens
      have shape : s.rest = xs ++ z :: (ls ++ l :: rest) := by simpa using shape
      have levels : nesting ((xs ++ z :: ls).map Lexeme.token) =
          max (nesting (xs.map Lexeme.token)) (nesting (ls.map Lexeme.token)) := by
        rw [List.map_append, List.map_cons, comma, first]
        exact nesting_separated rfl derives.balanced
      have found := begins.finds_sum fuel first shape (by simp [comma]) (by simp [comma])
      apply found.imp
      · intro node s' outcome
        obtain ⟨rfl, passes⟩ := outcome
        have next : s'.rest = z :: (ls ++ l :: rest) :=
          List.append_cancel_left (passes.rest.symm.trans shape)
        have passed := passes.trans (.advance next)
        rw [ensures_bind, ensures_peek, next_cons next, comma]
        simp only
        rw [ensures_bind, ensures_advance, ensures_bind]
        apply (ih single others tokens (by rw [next]; rfl)).imp
        · intro _ s'' outcome
          obtain ⟨rfl, passes'⟩ := outcome
          exact ⟨rfl, by simpa using passed.trans passes'⟩
        · intro failure s'' stopped
          refine stopped.mono fun broken allowed => broken ?_
          rw [levels] at allowed
          exact (passed.allows_iff _ _).mpr
            (allowed.mono (by omega) (by simp only [List.map_cons, Expr.heightAll]; omega))
      · intro failure s' stopped
        refine stopped.mono fun broken allowed => broken ?_
        rw [levels] at allowed
        exact allowed.mono (by omega) (by simp only [List.map_cons, Expr.heightAll]; omega)

theorem arguments_finds {fuel : Nat} {args : List (List Token × Expr)}
    (h : ∀ a ∈ args, Derives .sum a.1 a.2 ∧ Begins .sum a.1 a.2) {s : State}
    {ls rest : List Lexeme} {l : Lexeme}
    (tokens : ls.map Lexeme.token = [Token.comma].intercalate (args.map Prod.fst))
    (close : l.token = .closeParen) (shape : s.rest = ls ++ l :: rest) :
    Ensures (arguments (expression fuel 1)) s
      (fun result s' => result = (args.map Prod.snd, Expr.heightAll (args.map Prod.snd)) ∧
        s.Passes (ls ++ [l]) s')
      (fun failure _ => Stopped
        (¬ s.Allows (nesting (ls.map Lexeme.token)) (Expr.heightAll (args.map Prod.snd)))
        failure) := by
  rw [arguments, ensures_bind, ensures_peek]
  by_cases none : args = []
  · subst none
    obtain rfl : ls = [] := List.map_eq_nil_iff.mp tokens
    rw [next_cons shape, close]
    exact ⟨rfl, .advance shape⟩
  · have balanced : Balanced (ls.map Lexeme.token) := by
      rw [tokens]
      exact .joined fun a ha => (h a ha).1.balanced
    -- The first argument does not begin with a closing parenthesis, so the list is not empty.
    have nonempty : ls ≠ [] := by
      intro empty
      subst empty
      obtain ⟨a, args, rfl⟩ := List.exists_cons_of_ne_nil none
      have ne := (h a List.mem_cons_self).1.ne_nil
      cases args with
      | nil => exact ne (by simpa using tokens.symm)
      | cons b args => simp at tokens
    split
    · next closes =>
      obtain ⟨x, ls, rfl⟩ := List.exists_cons_of_ne_nil nonempty
      rw [next_cons shape] at closes
      exact absurd closes balanced.head_ne_closeParen
    · rw [ensures_bind, ensures_get]
      exact argumentsFrom_finds none h tokens close shape

theorem isPrimary_call (f : Aggregate) (args : List (List Token × Expr))
    (h : ∀ a ∈ args, Derives .sum a.1 a.2 ∧ Begins .sum a.1 a.2) :
    IsPrimary
      (.name f.name :: .openParen :: [Token.comma].intercalate (args.map Prod.fst) ++ [.closeParen])
      (.call f (args.map Prod.snd)) := by
  intro fuel expected s ls before
  have balanced : Balanced ([Token.comma].intercalate (args.map Prod.fst)) :=
    .joined fun a ha => (h a ha).1.balanced
  obtain ⟨xs, zs, rfl, opened, closed⟩ := List.map_eq_append_iff.mp before.tokens
  obtain ⟨⟨offset, _⟩, ys, rfl, rfl, opens⟩ := List.map_eq_cons_iff.mp opened
  obtain ⟨⟨offset', _⟩, ls, rfl, rfl, tokens⟩ := List.map_eq_cons_iff.mp opens
  obtain ⟨z, rfl, closes⟩ := List.map_eq_singleton_iff.mp closed
  obtain ⟨rest, shape, -⟩ := before.rest
  have shape : s.rest = ⟨offset, .name f.name⟩ :: ⟨offset', .openParen⟩ :: (ls ++ z :: rest) := by
    simpa using shape
  have calls : s.Calls offset f.name (ls ++ z :: rest) := ⟨offset', shape⟩
  rw [Finds, before.tokens, nesting_call f.name balanced, ← tokens, Expr.height, primary,
    ensures_bind, ensures_call?_of_known calls, callOf, ensures_bind, ensures_nested]
  generalize hs₁ : State.mk s.limits _ s.size s.depth s.stop _ = s₁
  have passed : s.Passes [⟨offset, .name f.name⟩, ⟨offset', .openParen⟩] s₁ := by
    rw [← hs₁]
    exact ⟨shape, rfl, rfl, rfl, rfl⟩
  have shape₁ : s₁.rest = ls ++ z :: rest := by rw [← hs₁]
  split
  case isFalse full => exact mt (passed.allows_iff _ _).mpr (s₁.not_allows_of_full full _ _)
  case isTrue room =>
    refine (arguments_finds (s := { s₁ with depth := s₁.depth + 1 }) h tokens closes shape₁).imp
      ?_ ?_
    · intro _ s₂ outcome
      obtain ⟨rfl, passes⟩ := outcome
      have through := passed.trans passes.of_deeper
      rw [ensures_limited]
      split
      · exact ⟨rfl, by simpa using through⟩
      · next high =>
        intro allowed
        refine high ?_
        rw [through.limits]
        exact allowed.2
    · intro failure s' stopped
      refine stopped.mono fun broken allowed => broken ?_
      rw [State.allows_deeper_iff, passed.allows_iff]
      exact allowed.mono (Int.le_refl _) (Nat.le_succ _)

/-! ## Derivations -/

theorem Begins.loosen {f : Form} {ts : List Token} {e : Expr} (h : Begins f.tighter ts e) :
    Begins f ts e := by
  intro fuel least s ls ok fail tight before
  have le := f.rank_le_rank_tighter
  exact h fuel least s ls ok fail (Nat.le_trans tight le) (before.of_le le)

theorem begins_of_derives {f : Form} {ts : List Token} {e : Expr} (h : Derives f ts e) :
    Begins f ts e ∧ (f = .primary → IsPrimary ts e) := by
  -- A minus sign is followed by a primary, so more has to be known of these.
  induction h with
  | number v =>
    have primary := isPrimary_number v
    exact ⟨primary.begins (by simp) (by simp), fun _ => primary⟩
  | var x =>
    have primary := isPrimary_var x
    exact ⟨primary.begins (by simp) (by simp), fun _ => primary⟩
  | group derives ih =>
    have primary := isPrimary_group derives.balanced ih.1
    exact ⟨primary.begins (by simp) (by simp), fun _ => primary⟩
  | call f args derives ih =>
    have primary := isPrimary_call f args fun a ha => ⟨derives a ha, (ih a ha).1⟩
    exact ⟨primary.begins (by simp) (by simp), fun _ => primary⟩
  | neg _ ih => exact ⟨(ih.2 rfl).begins_neg, by simp⟩
  | binary op hl _ ihl ihr =>
    exact ⟨ihl.1.binary hl.balanced ihr.1, by cases op <;> simp [Operator.form]⟩
  | loosen _ ih => exact ⟨ih.1.loosen, fun primary => ih.2 (by rw [primary]; rfl)⟩

end Parser

end Calculator
