import Calculator.Expr.Printer
import Calculator.Proofs.Grammar.Ungrouping
import Calculator.Proofs.Subtrees

/-!
# The tokens of a tree

What is printed of a tree, token by token: an operand is in parentheses if its form is looser than
the place asks for. These tokens derive the tree, and no others do with fewer parentheses: whatever
tokens derive it, some of their parentheses taken away leave these.

1. `derives_within`: the printed tokens of a tree without signed numbers derive it.
2. `Derives.ungroupsTo`: every list of tokens that derives the tree ungroups to the printed ones.
-/

namespace Calculator

namespace Value

/-- The value without its sign. That of the least value is out of range, so it is one too small. -/
def abs (v : Value) : Value := clamp v.toInt.natAbs

theorem toInt_abs_of_nonneg {v : Value} (h : 0 ≤ v.toInt) : v.abs.toInt = v.toInt := by
  have : ((v.toInt.natAbs : Nat) : Int) = v.toInt := by omega
  rw [abs, this, clamp_toInt]

theorem toInt_abs {v : Value} (h : v ≠ .least) : v.abs.toInt = v.toInt.natAbs := by
  have apart : v.toInt ≠ least.toInt := fun eq => h (ext eq)
  have low := v.lower
  have high := v.upper
  rw [abs, toInt_clamp]
  simp only [least, greatest] at apart ⊢
  omega

theorem abs_nonneg (v : Value) : 0 ≤ v.abs.toInt := by
  rw [abs, toInt_clamp]
  simp only [least, greatest]
  omega

theorem abs_of_nonneg {v : Value} (h : 0 ≤ v.toInt) : v.abs = v := ext (toInt_abs_of_nonneg h)

/-- The tokens of the value in decimal. A sign is a token of its own. -/
def numeral (v : Value) : List Token :=
  if v.toInt < 0 then [.operator .minus, .number v.abs] else [.number v]

theorem numeral_of_nonneg {v : Value} (h : 0 ≤ v.toInt) : v.numeral = [.number v] :=
  if_neg (Int.not_lt.mpr h)

end Value

def enclose (needed : Bool) (ts : List Token) : List Token :=
  if needed then .openParen :: ts ++ [.closeParen] else ts

namespace Expr

/-- The tightest form that the tree is printed in. -/
def form : Expr → Form
  | number _ | var _ | call .. => .primary
  | neg _ => .term
  | binary op _ _ => op.form

mutual
def tokens : Expr → List Token
  | number v => v.numeral
  | var x => [.name x]
  | call f args =>
    .name f.name :: .openParen :: [Token.comma].intercalate (tokensAll args) ++ [.closeParen]
  | neg e => .operator .minus :: enclose (e.form.rank < Form.primary.rank) e.tokens
  | binary op l r =>
    enclose (l.form.rank < op.form.rank) l.tokens ++
      .operator op :: enclose (r.form.rank < op.form.tighter.rank) r.tokens

def tokensAll : List Expr → List (List Token)
  | [] => []
  | e :: es => e.tokens :: tokensAll es
end

theorem tokensAll_eq_map (es : List Expr) : tokensAll es = es.map tokens := by
  induction es with
  | nil => rfl
  | cons e es ih => rw [tokensAll, ih, List.map_cons]

/-- The tokens of the tree where an expression of the form is asked for. -/
def within (f : Form) (e : Expr) : List Token := enclose (e.form.rank < f.rank) e.tokens

theorem tokens_neg (e : Expr) : (neg e).tokens = .operator .minus :: e.within .primary := by
  rw [tokens, within]

theorem tokens_binary (op : Operator) (l r : Expr) :
    (binary op l r).tokens = l.within op.form ++ .operator op :: r.within op.form.tighter := by
  rw [tokens, within, within]

theorem tokens_call (f : Aggregate) (args : List Expr) :
    (call f args).tokens =
      .name f.name :: .openParen :: [Token.comma].intercalate (args.map tokens) ++
        [.closeParen] := by
  rw [tokens, tokensAll_eq_map]

theorem within_of_lt {f : Form} {e : Expr} (h : e.form.rank < f.rank) :
    e.within f = .openParen :: e.tokens ++ [.closeParen] := by
  simp [within, enclose, h]

theorem within_of_le {f : Form} {e : Expr} (h : f.rank ≤ e.form.rank) : e.within f = e.tokens := by
  simp [within, enclose, Nat.not_lt.mpr h]

theorem within_form (e : Expr) : e.within e.form = e.tokens := within_of_le (Nat.le_refl _)

theorem within_sum (e : Expr) : e.within .sum = e.tokens := within_of_le (Nat.zero_le _)

/-! ## The parentheses of the printer -/

theorem isLooserThan_precedence (op : Operator) (e : Expr) :
    e.isLooserThan op.precedence = decide (e.form.rank < op.form.rank) := by
  cases e with
  | binary op' => cases op <;> cases op' <;> rfl
  | _ => cases op <;> rfl

theorem isLooserThan_succ_precedence (op : Operator) (e : Expr) :
    e.isLooserThan (op.precedence + 1) = decide (e.form.rank < op.form.tighter.rank) := by
  cases e with
  | binary op' => cases op <;> cases op' <;> rfl
  | _ => cases op <;> rfl

theorem not_isPrimary (e : Expr) : (!e.isPrimary) = decide (e.form.rank < Form.primary.rank) := by
  cases e with
  | binary op => cases op <;> rfl
  | _ => rfl

/-! ## The printed tokens derive the tree -/

theorem derives_within {e : Expr} (h : Derives e.form e.tokens e) (f : Form) :
    Derives f (e.within f) e := by
  rcases Nat.lt_or_ge e.form.rank f.rank with looser | tight
  · rw [within_of_lt looser]
    have inner : Derives .sum e.tokens e := h.of_le (Nat.zero_le _)
    exact (Derives.group inner).of_le (by cases f <;> decide)
  · rw [within_of_le tight]
    exact h.of_le tight

theorem derives_form {e : Expr} (unsigned : e.Everywhere Unsigned) :
    Derives e.form e.tokens e := by
  induction e with
  | number v =>
    rw [tokens, Value.numeral_of_nonneg (everywhere_number.mp unsigned)]
    exact .number v
  | var x => exact .var x
  | call f args ih =>
    have unsigned := (everywhere_call.mp unsigned).2
    let parts := args.map fun e => (e.tokens, e)
    have each : ∀ a ∈ parts, Derives .sum a.1 a.2 := by
      intro a ha
      obtain ⟨e, he, rfl⟩ := List.mem_map.mp ha
      exact (ih e he (unsigned e he)).of_le (Nat.zero_le _)
    have texts : parts.map Prod.fst = args.map tokens := by rw [List.map_map]; rfl
    have trees : parts.map Prod.snd = args := by rw [List.map_map]; exact List.map_id args
    have whole := Derives.call f parts each
    rw [texts, trees] at whole
    rw [tokens_call]
    exact whole
  | neg e ih =>
    rw [tokens_neg]
    exact .neg (derives_within (ih (everywhere_neg.mp unsigned).2) .primary)
  | binary op l r ihl ihr =>
    obtain ⟨-, left, right⟩ := everywhere_binary.mp unsigned
    rw [tokens_binary]
    exact .binary op (derives_within (ihl left) _) (derives_within (ihr right) _)

theorem derives_tokens {e : Expr} (unsigned : e.Everywhere Unsigned) :
    Derives .sum e.tokens e := (derives_form unsigned).of_le (Nat.zero_le _)

end Expr

/-! ## No parentheses but those that are needed -/

/-- Where a looser form is asked for, the parentheses may go but none come. -/
theorem Expr.within_ungroupsTo {f g : Form} {e : Expr} (unsigned : e.Everywhere Expr.Unsigned)
    (le : f.rank ≤ g.rank) : UngroupsTo (e.within g) (e.within f) := by
  by_cases looser : e.form.rank < f.rank
  · rw [Expr.within_of_lt looser, Expr.within_of_lt (Nat.lt_of_lt_of_le looser le)]
    exact .refl _
  · rw [Expr.within_of_le (Nat.not_lt.mp looser)]
    rcases Nat.lt_or_ge e.form.rank g.rank with enclosed | bare
    · rw [Expr.within_of_lt enclosed]
      exact .of_group (Expr.derives_tokens unsigned).balanced
    · rw [Expr.within_of_le bare]
      exact .refl _

/-- Tokens that derive a tree have all the parentheses that it is printed with, and any others are
around an expression that is no looser than its place asks for. -/
theorem Derives.ungroupsTo {f : Form} {ts : List Token} {e : Expr} (h : Derives f ts e)
    (unsigned : e.Everywhere Expr.Unsigned) : UngroupsTo ts (e.within f) := by
  induction h with
  | number v =>
    show UngroupsTo _ ((Expr.number v).within (Expr.number v).form)
    rw [Expr.within_form, Expr.tokens,
      Value.numeral_of_nonneg (Expr.everywhere_number.mp unsigned)]
    exact .refl _
  | var x => exact .refl _
  | @group ts e _ ih =>
    have inner := ih unsigned
    rw [Expr.within_sum] at inner
    -- The parentheses around it stay if they are needed under a minus sign.
    have around := (inner.append_right [.closeParen]).cons (t := .openParen) (by simp)
    refine around.trans ?_
    rcases Nat.lt_or_ge e.form.rank Form.primary.rank with needed | free
    · rw [Expr.within_of_lt needed]
      exact .refl _
    · rw [Expr.within_of_le free]
      exact .of_group (Expr.derives_tokens unsigned).balanced
  | call f args _ ih =>
    have unsigned := (Expr.everywhere_call.mp unsigned).2
    have each : UngroupsTo ([Token.comma].intercalate (args.map Prod.fst))
        ([Token.comma].intercalate (args.map fun a => a.2.tokens)) := by
      refine .joined fun a ha => ?_
      have one := ih a ha (unsigned a.2 (List.mem_map_of_mem ha))
      rwa [Expr.within_sum] at one
    let node := Expr.call f (args.map Prod.snd)
    show UngroupsTo _ (node.within node.form)
    rw [Expr.within_form, Expr.tokens_call, List.map_map]
    exact each.context [.name f.name, .openParen] [.closeParen] (by simp)
  | @neg ts e _ ih =>
    show UngroupsTo _ ((Expr.neg e).within (Expr.neg e).form)
    rw [Expr.within_form, Expr.tokens_neg]
    exact (ih (Expr.everywhere_neg.mp unsigned).2).cons (by simp)
  | @binary op ls rs l r _ _ ihl ihr =>
    obtain ⟨-, left, right⟩ := Expr.everywhere_binary.mp unsigned
    show UngroupsTo _ ((Expr.binary op l r).within (Expr.binary op l r).form)
    rw [Expr.within_form, Expr.tokens_binary]
    exact (ihl left).append (by simp) (ihr right)
  | loosen _ ih =>
    exact (ih unsigned).trans (Expr.within_ungroupsTo unsigned (Form.rank_le_rank_tighter _))

end Calculator
