import Calculator.Proofs.Grammar.Basic

/-!
# Operators outside parentheses

Which operators join the parts of an expression outside of all its parentheses, as its tokens tell:
those that come after an operand where no parenthesis is open. What comes after no operand is a
minus sign that negates. These operators decide which forms the expression is of.

1. `Joins`: the operators outside parentheses.
2. `joins_append`: those of a binary operation are its own and those of its operands.
3. `derivesFrom_iff`: the expressions of a form are those that are joined by operators which bind at
   least as tightly as the form asks for.
4. `Derives.grouped_or_rank_le`: a binary operation is in parentheses or of its operator's form.
-/

namespace Calculator

/-- An operand may end with the last of the tokens. -/
def EndsOperand (ts : List Token) : Prop :=
  ∃ t ∈ ts.getLast?, (∃ v, t = .number v) ∨ (∃ x, t = .name x) ∨ t = .closeParen

/-- The operator comes after an operand among the tokens, where no parenthesis is open. -/
def Joins (op : Operator) (ts : List Token) : Prop :=
  ∃ before after, ts = before ++ .operator op :: after ∧ opened before = 0 ∧ EndsOperand before

/-- The tokens form the tree without operators outside parentheses that bind looser than `least`. -/
structure DerivesFrom (least : Nat) (ts : List Token) (e : Expr) : Prop where
  derives : Derives .sum ts e
  least_le : ∀ op, Joins op ts → least ≤ op.precedence

def Grouped (ts : List Token) : Prop :=
  ∃ inner, Balanced inner ∧ ts = .openParen :: inner ++ [.closeParen]

variable {f g : Form} {ts ls rs inner before after : List Token} {e l r : Expr} {op op' : Operator}

/-! ## Operators of a part -/

theorem not_endsOperand_nil : ¬ EndsOperand [] := by simp [EndsOperand]

theorem endsOperand_append_cons (ts : List Token) (t : Token) (us : List Token) :
    EndsOperand (ts ++ t :: us) ↔ EndsOperand (t :: us) := by
  rw [EndsOperand, List.getLast?_append, EndsOperand, List.getLast?_cons]
  rfl

theorem endsOperand_append_operator (ts : List Token) (op : Operator) (us : List Token) :
    EndsOperand (ts ++ .operator op :: us) ↔ EndsOperand us := by
  rw [endsOperand_append_cons]
  cases us with
  | nil => simp [EndsOperand]
  | cons u us => exact endsOperand_append_cons [.operator op] u us

theorem Derives.endsOperand (h : Derives f ts e) : EndsOperand ts := by
  induction h with
  | number v => exact ⟨_, rfl, .inl ⟨v, rfl⟩⟩
  | var x => exact ⟨_, rfl, .inr (.inl ⟨x, rfl⟩)⟩
  | group | call =>
    rw [endsOperand_append_cons]
    exact ⟨_, rfl, .inr (.inr rfl)⟩
  | neg _ ih => exact (endsOperand_append_operator [] _ _).mpr ih
  | binary op _ _ _ ih => exact (endsOperand_append_operator _ op _).mpr ih
  | loosen _ ih => exact ih

/-- The operators of a binary operation are its own and those of its operands. -/
theorem joins_append (hl : Derives f ls l) :
    Joins op' (ls ++ .operator op :: rs) ↔ Joins op' ls ∨ op' = op ∨ Joins op' rs := by
  constructor
  · rintro ⟨before, after, split, level, ends⟩
    rcases List.append_eq_append_iff.mp split with ⟨as, rfl, tail⟩ | ⟨as, rfl, tail⟩
    · rcases List.cons_eq_append_iff.mp tail with ⟨rfl, same⟩ | ⟨as, rfl, rfl⟩
      · cases same
        exact .inr (.inl rfl)
      · -- Behind the left operand as many parentheses are open as in the right one alone.
        refine .inr (.inr ⟨as, after, rfl, ?_, (endsOperand_append_operator _ _ _).mp ends⟩)
        simpa [hl.opened_eq_zero, Token.rise] using level
    · rcases List.cons_eq_append_iff.mp tail with ⟨rfl, same⟩ | ⟨as, rfl, rfl⟩
      · cases same
        exact .inr (.inl rfl)
      · exact .inl ⟨before, as, rfl, level, ends⟩
  · rintro (⟨before, after, rfl, level, ends⟩ | rfl | ⟨before, after, rfl, level, ends⟩)
    · exact ⟨before, after ++ .operator op :: rs, by simp, level, ends⟩
    · exact ⟨ls, rs, rfl, hl.opened_eq_zero, hl.endsOperand⟩
    · refine ⟨ls ++ .operator op :: before, after, by simp, ?_,
        (endsOperand_append_operator _ _ _).mpr ends⟩
      simp [hl.opened_eq_zero, Token.rise, level]

theorem joins_of_minus (joins : Joins op (.operator .minus :: ts)) : Joins op ts := by
  obtain ⟨before, after, split, level, ends⟩ := joins
  rcases List.cons_eq_append_iff.mp split with ⟨rfl, -⟩ | ⟨before, rfl, rfl⟩
  · exact absurd ends not_endsOperand_nil
  · refine ⟨before, after, rfl, ?_, (endsOperand_append_operator [] _ _).mp ends⟩
    simpa [Token.rise] using level

/-- Before every operator between parentheses one of them is open. -/
theorem opened_pos_of_group (balanced : Balanced inner)
    (split : .openParen :: inner ++ [.closeParen] = before ++ .operator op :: after) :
    0 < opened before := by
  rcases List.cons_eq_append_iff.mp split with ⟨-, same⟩ | ⟨before, rfl, tail⟩
  · cases same
  · rcases List.append_eq_append_iff.mp tail with ⟨as, -, last⟩ | ⟨as, inside, -⟩
    · rcases List.cons_eq_append_iff.mp last with ⟨-, same⟩ | ⟨as, -, none⟩
      · cases same
      · simp at none
    · have := balanced.opened_nonneg inside
      simp only [opened_cons, Token.rise]
      omega

/-! ## Forms -/

/-- No operator outside the parentheses of an expression binds looser than its form. -/
theorem Derives.rank_le_of_joins (h : Derives f ts e) (joins : Joins op ts) :
    f.rank ≤ op.form.rank := by
  -- A primary has none at all.
  induction h with
  | number | var =>
    obtain ⟨before, after, split, -, ends⟩ := joins
    rcases List.cons_eq_append_iff.mp split with ⟨-, same⟩ | ⟨before, rfl, none⟩
    · cases same
    · simp at none
  | group h _ =>
    obtain ⟨before, after, split, level, -⟩ := joins
    have := opened_pos_of_group h.balanced split
    omega
  | call f args h _ =>
    obtain ⟨before, after, split, level, ends⟩ := joins
    have balanced : Balanced ([Token.comma].intercalate (args.map Prod.fst)) :=
      .joined fun a ha => (h a ha).balanced
    rcases List.cons_eq_append_iff.mp split with ⟨rfl, -⟩ | ⟨before, rfl, tail⟩
    · exact absurd ends not_endsOperand_nil
    · have := opened_pos_of_group balanced tail
      simp only [opened_cons, Token.rise] at level
      omega
  | neg _ ih => exact Nat.le_trans (by decide) (ih (joins_of_minus joins))
  | binary op' hl _ ihl ihr =>
    rcases (joins_append hl).mp joins with left | rfl | right
    · exact ihl left
    · exact Nat.le_refl _
    · exact Nat.le_trans (Form.rank_le_rank_tighter _) (ihr right)
  | loosen _ ih => exact Nat.le_trans (Form.rank_le_rank_tighter _) (ih joins)

/-- An expression is of every form that no operator outside its parentheses binds looser than. -/
theorem Derives.of_joins (h : Derives f ts e) (top : g.rank ≤ 3)
    (joins : ∀ op, Joins op ts → g.rank ≤ op.form.rank) : Derives g ts e := by
  have term : g.rank ≤ Form.term.rank := top
  have primary : g.rank ≤ Form.primary.rank := Nat.le_succ_of_le top
  induction h with
  | number v => exact .of_le primary (.number v)
  | var x => exact .of_le primary (.var x)
  | group h _ => exact .of_le primary h.group
  | call f args h _ => exact .of_le primary (.call f args h)
  | neg h _ => exact .of_le term h.neg
  | binary op hl hr _ _ =>
    exact .of_le (joins op ((joins_append hl).mpr (.inr (.inl rfl)))) (.binary op hl hr)
  | loosen _ ih => exact ih joins

theorem derivesFrom_iff {least : Nat} : DerivesFrom least ts e ↔ Derives (.ofLeast least) ts e := by
  constructor
  · rintro ⟨derives, least_le⟩
    exact derives.of_joins (Form.rank_ofLeast_le least) fun op joins =>
      Operator.le_precedence_iff.mp (least_le op joins)
  · intro derives
    refine ⟨derives.of_le (Nat.zero_le _), fun op joins => ?_⟩
    exact Operator.le_precedence_iff.mpr (derives.rank_le_of_joins joins)

/-- A binary operation is in parentheses, or it is no tighter than its operator. -/
theorem Derives.grouped_or_rank_le (h : Derives f ts (.binary op l r)) :
    Grouped ts ∨ f.rank ≤ op.form.rank := by
  generalize tree : Expr.binary op l r = e at h
  induction h with
  | number | var | call | neg => cases tree
  | group h _ => exact .inl ⟨_, h.balanced, rfl⟩
  | binary op' hl hr _ _ =>
    cases tree
    exact .inr (Nat.le_refl _)
  | loosen _ ih => exact (ih tree).imp_right (Nat.le_trans (Form.rank_le_rank_tighter _))

end Calculator
