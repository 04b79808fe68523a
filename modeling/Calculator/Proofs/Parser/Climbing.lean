import Calculator.Proofs.Grammar.Outside
import Calculator.Proofs.Parser.Diagnosis
import Calculator.Proofs.Parser.Room

/-!
# Climbing operators

An expression grows operator by operator: what was read so far becomes the left operand of the next
operator that counts. The right operand leaves over only operators that bind no tighter than the
one before it, so the operators bind looser and looser, and no left operand is split by its
operator. What is returned is the longest expression of its form that comes next.

1. `Round`, `Rounds`: what a chain does with one operator, and with one after the other.
2. `chain_eq_ok_iff`: a chain returns what its rounds make.
3. `expression_builds`: in any state, what is returned is the tree of the lexemes that were passed.
4. `Round.climbed`, `Rounds.falls`: what one round keeps, and how the operators of all of them fall.
5. `expression_climbs`: the contract of the parsers of expressions.
-/

namespace Calculator

namespace Parser

/-! ## Rounds -/

/-- One round of a chain: the operator comes next and counts, its right operand is parsed, and what
it makes of both operands is the node, which is not too high. -/
structure Round (operand : Nat → Parser Node) (least : Nat) (left : Node) (s : State)
    (op : Operator) (node : Node) (s' : State) : Prop where
  next : s.next = some (.operator op)
  counts : least ≤ op.precedence
  operands : ∃ right, operand (op.precedence + 1) { s with rest := s.rest.tail } = .ok right s' ∧
    node = ⟨.binary op left.expr right.expr, max left.height right.height + 1⟩
  within : node.height ≤ s'.limits.height

/-- A link of a chain: an operator that it applies, the left operand, and the state in which the
operator comes next. -/
structure Link where
  left : Node
  place : State
  op : Operator

/-- Rounds of a chain, each with the node of the one before it as its left operand. -/
inductive Rounds (operand : Nat → Parser Node) (least : Nat) :
    Node → State → List Link → Node → State → Prop where
  | none (left : Node) (s : State) : Rounds operand least left s [] left s
  | more {left node node' : Node} {s s₁ s' : State} {op : Operator} {links : List Link} :
    Round operand least left s op node s₁ → Rounds operand least node s₁ links node' s' →
    Rounds operand least left s (⟨left, s, op⟩ :: links) node' s'

/-- No operator that counts is next. -/
def State.Ends (s : State) (least : Nat) : Prop :=
  ∀ op, s.next = some (.operator op) → op.precedence < least

section

variable {operand : Nat → Parser Node} {least bound : Nat} {left node : Node} {s s' : State}

theorem chain_of_ends (ends : s.Ends least) :
    chain operand least (bound + 1) left s = .ok left s := by
  rw [chain]
  refine bind_eq_ok_iff.mpr ⟨_, _, rfl, ?_⟩
  cases operator : s.next with
  | none => rfl
  | some t =>
    cases t with
    | operator op => exact congrFun (if_pos (ends op operator)) s
    | _ => rfl

theorem Round.chain_eq_ok {mid : Node} {s₁ : State} {op : Operator}
    (round : Round operand least left s op mid s₁)
    (rest : chain operand least bound mid s₁ = .ok node s') :
    chain operand least (bound + 1) left s = .ok node s' := by
  obtain ⟨right, operands, rfl⟩ := round.operands
  have limited : Parser.limited _ s₁ = .ok _ s₁ :=
    bind_eq_ok_iff.mpr ⟨_, _, rfl, by rw [if_pos round.within]; rfl⟩
  rw [chain]
  refine bind_eq_ok_iff.mpr ⟨_, _, rfl, ?_⟩
  rw [round.next]
  simp only [Nat.not_lt.mpr round.counts, if_false]
  exact bind_eq_ok_iff.mpr ⟨_, _, rfl, bind_eq_ok_iff.mpr ⟨_, _, operands,
    bind_eq_ok_iff.mpr ⟨_, _, limited, rest⟩⟩⟩

/-- A chain that returns a node ends at once, or after a round and those of the rest of it. -/
theorem chain_cases (run : chain operand least (bound + 1) left s = .ok node s') :
    (s.Ends least ∧ node = left ∧ s' = s) ∨
    ∃ op mid s₁, Round operand least left s op mid s₁ ∧
      chain operand least bound mid s₁ = .ok node s' := by
  have outcome : Ensures (chain operand least (bound + 1) left) s
      (fun node s' => (s.Ends least ∧ node = left ∧ s' = s) ∨
        ∃ op mid s₁, Round operand least left s op mid s₁ ∧
          chain operand least bound mid s₁ = .ok node s')
      (fun _ _ => True) := by
    rw [chain, ensures_bind, ensures_peek]
    split
    · next op operator =>
      split
      · next loose =>
        refine .inl ⟨fun op' operator' => ?_, rfl, rfl⟩
        rw [operator] at operator'
        cases operator'
        exact loose
      · next counts =>
        rw [ensures_bind, ensures_advance, ensures_bind]
        refine (ensures_run _).imp ?_ fun _ _ _ => trivial
        intro right s₁ operands
        rw [ensures_bind, ensures_limited]
        split
        · next within =>
          have round : Round operand least left s op _ s₁ :=
            ⟨operator, Nat.not_lt.mp counts, ⟨right, operands, rfl⟩, within⟩
          exact (ensures_run _).imp (fun _ _ rest => .inr ⟨op, _, s₁, round, rest⟩)
            fun _ _ _ => trivial
        · trivial
    · next other => exact .inl ⟨fun op operator => absurd operator (other op), rfl, rfl⟩
  exact outcome.of_ok run

theorem chain_eq_ok_iff :
    chain operand least bound left s = .ok node s' ↔
      ∃ links, Rounds operand least left s links node s' ∧ links.length < bound ∧
        s'.Ends least := by
  induction bound generalizing left s with
  | zero =>
    constructor
    · intro run
      cases run
    · rintro ⟨links, -, few, -⟩
      exact absurd few (Nat.not_lt_zero _)
  | succ bound ih =>
    constructor
    · intro run
      rcases chain_cases run with ⟨ends, rfl, rfl⟩ | ⟨op, mid, s₁, round, rest⟩
      · exact ⟨[], .none _ _, Nat.succ_pos _, ends⟩
      · obtain ⟨links, rounds, few, ends⟩ := ih.mp rest
        exact ⟨_, .more round rounds, Nat.succ_lt_succ few, ends⟩
    · rintro ⟨links, rounds, few, ends⟩
      cases rounds with
      | none => exact chain_of_ends ends
      | more round rounds =>
        exact round.chain_eq_ok (ih.mpr ⟨_, rounds, Nat.lt_of_succ_lt_succ few, ends⟩)

end

/-! ## What is built -/

/-- The node is the tree of the lexemes between the states, as an expression of the form. -/
structure Builds (f : Form) (s : State) (ls : List Lexeme) (node : Node) (s' : State) : Prop where
  rest : s.rest = ls ++ s'.rest
  derives : Derives f (ls.map Lexeme.token) node.expr

/-- What a parser returns it returns from a fit state, too: from one with room for the parentheses
that are open and for the lexemes that are left. -/
theorem Widens.exists_fit {α : Type} {p : Parser α} {s s' : State} {a : α} (widens : Widens p p)
    (run : p s = .ok a s') : ∃ t t', Wider s t ∧ t.Fit ∧ p t = .ok a t' ∧ Wider s' t' := by
  let limits : Limits := { s.limits with nesting := max s.limits.nesting s.depth }
  let t : State := { s with limits, size := max s.size s.rest.length }
  have wider : Wider s t :=
    ⟨rfl, rfl, Nat.le_max_left _ _, Nat.le_refl _, Nat.le_max_left _ _⟩
  obtain ⟨t', run', wider'⟩ := widens s t wider a s' run
  exact ⟨t, t', wider, ⟨Nat.le_max_right _ _, Nat.le_max_right _ _⟩, run', wider'⟩

theorem Reads.builds {f : Form} {s s' t t' : State} {ls : List Lexeme} {node : Node}
    (reads : Reads f t ls node t') (before : Wider s t) (after : Wider s' t') :
    Builds f s ls node s' :=
  ⟨by rw [← before.rest, reads.passes.rest, after.rest], reads.derives⟩

section

variable {fuel least : Nat} {s s' : State} {node : Node}

theorem term_builds (run : term (expression fuel 1) s = .ok node s') :
    ∃ ls, Builds .term s ls node s' := by
  have widens := term_widens (expression_widens (Nat.le_refl fuel) 1)
  obtain ⟨t, t', before, fit, run', after⟩ := widens.exists_fit run
  obtain ⟨ls, reads⟩ := (term_reads (expression_reads fuel 1) fit).of_ok run'
  exact ⟨ls, reads.builds before after⟩

theorem expression_builds (run : expression fuel least s = .ok node s') :
    ∃ ls, Builds (.ofLeast least) s ls node s' ∧ s'.Ends least := by
  have widens := expression_widens (Nat.le_refl fuel) least
  obtain ⟨t, t', before, fit, run', after⟩ := widens.exists_fit run
  obtain ⟨ls, reads, ends⟩ := (expression_reads fuel least t fit).of_ok run'
  rw [after.next] at ends
  exact ⟨ls, reads.builds before after, ends⟩

end

/-! ## Along the rounds -/

/-- Since the state `s` an expression of the form was read, and no tighter operator is next. -/
structure Climbed (s : State) (f : Form) (left : Node) (s₁ : State) : Prop where
  built : ∃ ls, Builds f s ls left s₁
  next : ∀ op, s₁.next = some (.operator op) → op.form.rank ≤ f.rank

/-- The operator takes the whole of what was read since the state `s`: it is the operator's left
operand, and where that is an operation without parentheses around it, it binds at least as tightly.
-/
def Link.TakesWhole (s : State) (a : Link) : Prop :=
  ∃ ls, Builds .sum s ls a.left a.place ∧ ∀ op l r, a.left.expr = .binary op l r →
    ¬ Grouped (ls.map Lexeme.token) → a.op.precedence ≤ op.precedence

section

variable {fuel least : Nat} {s s₁ s' : State} {f : Form} {left node : Node} {op : Operator}
  {links : List Link}

/-- A round applies an operator that binds no tighter than what was read so far. Then what was read
is an operation of that operator. -/
theorem Round.climbed (round : Round (expression fuel) least left s₁ op node s')
    (climbed : Climbed s f left s₁) :
    op.form.rank ≤ f.rank ∧ Climbed s op.form node s' := by
  obtain ⟨⟨ls, built⟩, next⟩ := climbed
  obtain ⟨right, operand, rfl⟩ := round.operands
  obtain ⟨rs, builtRight, ends⟩ := expression_builds operand
  obtain ⟨offset, rest, shape⟩ := rest_of_next round.next
  have loose := next op round.next
  refine ⟨loose, ⟨ls ++ ⟨offset, .operator op⟩ :: rs, ?_, ?_⟩, ?_⟩
  · have inside : rest = rs ++ s'.rest := by simpa [shape] using builtRight.rest
    rw [built.rest, shape, inside, List.append_assoc, List.cons_append]
  · rw [List.map_append, List.map_cons]
    refine .binary op (built.derives.of_le loose) ?_
    rw [← Form.ofLeast_succ_precedence]
    exact builtRight.derives
  · exact fun op' operator => rank_form_le_of_lt (ends op' operator)

theorem Climbed.takesWhole (climbed : Climbed s f left s₁) (loose : op.form.rank ≤ f.rank) :
    Link.TakesWhole s ⟨left, s₁, op⟩ := by
  obtain ⟨⟨ls, rest, derives⟩, -⟩ := climbed
  refine ⟨ls, ⟨rest, derives.of_le (Nat.zero_le _)⟩, fun op' l r binary bare => ?_⟩
  rw [show left.expr = .binary op' l r from binary] at derives
  have tight := derives.grouped_or_rank_le.resolve_left bare
  exact Operator.precedence_le_precedence_iff.mpr (Nat.le_trans loose tight)

/-- Rounds apply looser and looser operators, each of which takes the whole of what was read before
it. -/
theorem Rounds.falls (rounds : Rounds (expression fuel) least left s₁ links node s')
    (climbed : Climbed s f left s₁) :
    (links.Pairwise fun a b => b.op.precedence ≤ a.op.precedence) ∧
    ∀ a ∈ links, a.op.form.rank ≤ f.rank ∧ a.TakesWhole s := by
  -- After a round the form of what was read is that of its operator, which bounds the others.
  induction rounds generalizing f with
  | none => exact ⟨.nil, nofun⟩
  | @more left mid node s₁ s₂ s' op links round _ ih =>
    obtain ⟨loose, climbed'⟩ := round.climbed climbed
    obtain ⟨falling, others⟩ := ih climbed'
    constructor
    · refine List.pairwise_cons.mpr ⟨fun a mem => ?_, falling⟩
      exact Operator.precedence_le_precedence_iff.mpr (others a mem).1
    · refine List.forall_mem_cons.mpr ⟨⟨loose, climbed.takesWhole loose⟩, fun a mem => ?_⟩
      obtain ⟨looser, whole⟩ := others a mem
      exact ⟨Nat.le_trans looser loose, whole⟩

end

/-! ## Expressions -/

theorem Ended.operator_of_step {z y : Situation} {s : State} {t : Token} (h : Ended [] z s)
    (next : s.next = some t) (step : z.step t = some y) : ∃ op, t = .operator op := by
  rw [h.step_eq next] at step
  cases t with
  | operator op => exact ⟨op, rfl⟩
  | _ => cases step

/-- What is returned is the longest expression of its form that comes next. -/
theorem Builds.length_le {fuel least : Nat} {s s' : State} {node : Node} {ls ms : List Lexeme}
    {f : Form} {e : Expr} (built : Builds f s ls node s')
    (run : expression fuel least s = .ok node s') (next : ms <+: s.rest)
    (derives : DerivesFrom least (ms.map Lexeme.token) e) : ms.length ≤ ls.length := by
  obtain ⟨z, ⟨ks, passes, walked⟩, ended, ends⟩ :=
    (expression_diagnoses fuel least [] .start s .operand).of_ok run
  obtain rfl : ks = ls := List.append_cancel_right (passes.rest.symm.trans built.rest)
  refine Nat.not_lt.mp fun longer => ?_
  -- Something comes next that goes on, so it is an operator, and it counts.
  obtain ⟨us, rfl⟩ : ks <+: ms :=
    List.prefix_of_prefix_length_le ⟨_, built.rest.symm⟩ next (Nat.le_of_lt longer)
  obtain ⟨l, us, rfl⟩ : ∃ l us', us = l :: us' :=
    List.exists_cons_of_ne_nil (by rintro rfl; simp at longer)
  obtain ⟨rest, shape⟩ := next
  have both : ks ++ s'.rest = ks ++ l :: (us ++ rest) := by
    rw [← built.rest, ← shape]
    simp
  have next : s'.next = some l.token := next_cons (List.append_cancel_left both)
  rw [List.map_append, List.map_cons] at derives
  obtain ⟨⟨z'', -, through⟩, -⟩ := derives.derives.spans []
  obtain ⟨z', walked', on⟩ := Situation.exists_of_walk_append through
  obtain rfl : z' = z := Option.some.inj (walked'.symm.trans walked)
  obtain ⟨y, step, -⟩ := Option.bind_eq_some_iff.mp on
  obtain ⟨op, operator⟩ := ended.operator_of_step next step
  rw [operator] at next derives
  have counts := derives.least_le op ((joins_append built.derives).mpr (.inr (.inl rfl)))
  exact Nat.not_lt.mpr counts (ends op next)

/-- The contract of the parsers of expressions, in every state. The tokens that were passed form
the tree without operators outside parentheses that bind looser than `least`. No operator comes next
that binds as tightly, and no more of the tokens that were to be read form such an expression. The
operators of the outermost operations bind looser and looser, so each takes the whole of what was
read before it. -/
theorem expression_climbs {fuel least : Nat} {s s' : State} {node : Node}
    (run : expression fuel least s = .ok node s') :
    ∃ ls, s.rest = ls ++ s'.rest ∧ DerivesFrom least (ls.map Lexeme.token) node.expr ∧
      s'.Ends least ∧
      (∀ ms e, ms <+: s.rest → DerivesFrom least (ms.map Lexeme.token) e →
        ms.length ≤ ls.length) ∧
      ∃ inner first s₁ links, fuel = inner + 1 ∧
        term (expression inner 1) s = .ok first s₁ ∧
        Rounds (expression inner) least first s₁ links node s' ∧
        (links.Pairwise fun a b => b.op.precedence ≤ a.op.precedence) ∧
        ∀ a ∈ links, a.TakesWhole s := by
  obtain ⟨ls, built, ends⟩ := expression_builds run
  refine ⟨ls, built.rest, derivesFrom_iff.mpr built.derives, ends,
    fun ms e next derives => built.length_le run next derives, ?_⟩
  cases fuel with
  | zero => cases run
  | succ inner =>
    obtain ⟨first, s₁, begun, rest⟩ := bind_eq_ok_iff.mp run
    obtain ⟨links, rounds, -, -⟩ := chain_eq_ok_iff.mp rest
    have climbed : Climbed s .term first s₁ :=
      ⟨term_builds begun, fun op _ => Nat.le_succ_of_le op.rank_form_le⟩
    obtain ⟨falling, whole⟩ := rounds.falls climbed
    exact ⟨inner, first, s₁, links, rfl, begun, rounds, falling, fun a mem => (whole a mem).2⟩

/-- The lexemes of `(A-B)*C^D/E-F`. -/
def quotientLexemes : List Lexeme :=
  [⟨0, .openParen⟩, ⟨1, .name "A"⟩, ⟨2, .operator .minus⟩, ⟨3, .name "B"⟩, ⟨4, .closeParen⟩,
    ⟨5, .operator .times⟩, ⟨6, .name "C"⟩, ⟨7, .operator .power⟩, ⟨8, .name "D"⟩,
    ⟨9, .operator .divide⟩, ⟨10, .name "E"⟩, ⟨11, .operator .minus⟩, ⟨12, .name "F"⟩]

def quotientTree : Expr :=
  .binary .divide
    (.binary .times (.binary .minus (.var "A") (.var "B")) (.binary .power (.var "C") (.var "D")))
    (.var "E")

/-- What asks for no looser operator than `*` stops before the second minus sign. The first one is
in parentheses, so its operation may be the left operand of `*`. -/
theorem expression_climbs_quotient :
    ∃ s', expression 516 11 (.start .standard "(A-B)*C^D/E-F" quotientLexemes) =
        .ok ⟨quotientTree, 4⟩ s' ∧
      s'.rest = quotientLexemes.drop 11 ∧
      DerivesFrom 11 ((quotientLexemes.take 11).map Lexeme.token) quotientTree ∧
      ∀ ms e, ms <+: quotientLexemes → DerivesFrom 11 (ms.map Lexeme.token) e → ms.length ≤ 11 := by
  have run : ∃ s', expression 516 11 (.start .standard "(A-B)*C^D/E-F" quotientLexemes) =
      .ok ⟨quotientTree, 4⟩ s' ∧ s'.rest = quotientLexemes.drop 11 := ⟨_, rfl, rfl⟩
  obtain ⟨s', run, rest⟩ := run
  obtain ⟨ls, passed, derives, -, longest, -⟩ := expression_climbs run
  obtain rfl : quotientLexemes.take 11 = ls := by
    rw [rest] at passed
    exact List.append_cancel_right ((List.take_append_drop 11 quotientLexemes).trans passed)
  exact ⟨s', run, rest, derives, longest⟩

end Parser

end Calculator
