import Calculator.Expr.Eval
import Calculator.Proofs.Grammar.Places
import Calculator.Proofs.Printer.Tokens

/-!
# Signed numbers

A tree built as data may hold negative numbers. Such a number is printed with a sign, and the sign
is read back as a negation of the number without it. So what the printed tokens derive is the tree
with these negations in it, which has the same value; but a number whose sign follows a minus sign
cannot be read at all.

1. `derives_norm`: the printed tokens of a tree derive its normal form, if it negates no signed
   number.
2. `eval_norm`: the normal form has the value of the tree, or its error.
3. `signedOnce_of_derives`: if the printed tokens derive any tree, no signed number is negated.
-/

namespace Calculator

namespace Expr

/-! ## The normal form -/

mutual
/-- The tree with negations in the place of signs. -/
def norm : Expr → Expr
  | number v => if v.toInt < 0 then neg (number v.abs) else number v
  | var x => var x
  | call f args => call f (normAll args)
  | neg e => neg e.norm
  | binary op l r => binary op l.norm r.norm

def normAll : List Expr → List Expr
  | [] => []
  | e :: es => e.norm :: normAll es
end

theorem normAll_eq_map (es : List Expr) : normAll es = es.map norm := by
  induction es with
  | nil => rfl
  | cons e es ih => rw [normAll, ih, List.map_cons]

theorem norm_of_neg {v : Value} (h : v.toInt < 0) : (number v).norm = neg (number v.abs) := by
  rw [norm, if_pos h]

theorem norm_of_nonneg {v : Value} (h : 0 ≤ v.toInt) : (number v).norm = number v := by
  rw [norm, if_neg (Int.not_lt.mpr h)]

theorem unsigned_norm (e : Expr) : e.norm.Everywhere Unsigned := by
  induction e with
  | number v =>
    rcases Int.lt_or_le v.toInt 0 with signed | unsigned
    · rw [norm_of_neg signed]
      simpa [Unsigned] using v.abs_nonneg
    · rw [norm_of_nonneg unsigned]
      simpa [Unsigned] using unsigned
  | var x => simp [norm, Unsigned]
  | call f args ih => simpa [norm, normAll_eq_map, Unsigned] using ih
  | neg e ih => simpa [norm, Unsigned] using ih
  | binary op l r ihl ihr => simpa [norm, Unsigned] using ⟨ihl, ihr⟩

/-! ## The value of the normal form -/

theorem eval_norm {e : Expr} (negatable : e.Everywhere Negatable) (env : Env) :
    e.norm.eval env = e.eval env := by
  induction e with
  | number v =>
    rcases Int.lt_or_le v.toInt 0 with signed | unsigned
    · have back : v.abs.neg? = some v := by
        rw [Value.neg?, Value.ofInt?_eq_some_iff, Value.toInt_abs (everywhere_number.mp negatable)]
        omega
      rw [norm_of_neg signed, eval_neg, eval_number]
      show orOverflow v.abs.neg? = .ok v
      rw [back]
      rfl
    · rw [norm_of_nonneg unsigned]
  | var x => rfl
  | call f args ih =>
    have each := (everywhere_call.mp negatable).2
    have same : evalAll env (args.map norm) = evalAll env args := by
      clear negatable
      induction args with
      | nil => rfl
      | cons e es ihs =>
        obtain ⟨first, others⟩ := List.forall_mem_cons.mp each
        obtain ⟨ih, ihes⟩ := List.forall_mem_cons.mp ih
        rw [List.map_cons, evalAll_cons, evalAll_cons, ih first, ihs ihes others]
    rw [norm, normAll_eq_map, eval_call, eval_call, same]
  | neg e ih => rw [norm, eval_neg, eval_neg, ih (everywhere_neg.mp negatable).2]
  | binary op l r ihl ihr =>
    obtain ⟨-, left, right⟩ := everywhere_binary.mp negatable
    rw [norm, eval_binary, eval_binary, ihl left, ihr right]

/-! ## The tokens of the normal form -/

/-- A negation may stand where a signed number stood, but for under another negation. -/
theorem within_norm {e : Expr} {f : Form} (le : f.rank ≤ 3) (same : e.norm.tokens = e.tokens) :
    e.norm.within f = e.within f := by
  have looser : decide (e.norm.form.rank < f.rank) = decide (e.form.rank < f.rank) := by
    cases e with
    | number v =>
      rw [norm]
      split
      · show decide (3 < f.rank) = decide (4 < f.rank)
        rw [decide_eq_decide]
        omega
      · rfl
    | _ => rfl
  rw [within, within, looser, same]

theorem tokens_norm {e : Expr} (once : e.Everywhere SignedOnce) : e.norm.tokens = e.tokens := by
  induction e with
  | number v =>
    rcases Int.lt_or_le v.toInt 0 with signed | unsigned
    · have bare : (number v.abs).within .primary = [.number v.abs] := by
        show (number v.abs).within (number v.abs).form = _
        rw [within_form, tokens, Value.numeral_of_nonneg v.abs_nonneg]
      rw [norm_of_neg signed, tokens_neg, bare, tokens, Value.numeral, if_pos signed]
    · rw [norm_of_nonneg unsigned]
  | var x => rfl
  | call f args ih =>
    have each := (everywhere_call.mp once).2
    have same : (args.map norm).map tokens = args.map tokens := by
      rw [List.map_map]
      exact List.map_congr_left fun e he => ih e he (each e he)
    rw [norm, normAll_eq_map, tokens_call, tokens_call, same]
  | neg e ih =>
    obtain ⟨here, below⟩ := everywhere_neg.mp once
    have same := ih below
    -- A negated number has no sign, so it is its own normal form.
    have primary : e.norm.within .primary = e.within .primary := by
      cases e with
      | number v => rw [norm_of_nonneg here]
      | _ => rw [within, within, same]; rfl
    rw [norm, tokens_neg, tokens_neg, primary]
  | binary op l r ihl ihr =>
    obtain ⟨-, left, right⟩ := everywhere_binary.mp once
    have := op.rank_form_le
    have := op.rank_tighter
    rw [norm, tokens_binary, tokens_binary, within_norm (by omega) (ihl left),
      within_norm (by omega) (ihr right)]

theorem derives_norm {e : Expr} (once : e.Everywhere SignedOnce) :
    Derives .sum e.tokens e.norm := by
  rw [← tokens_norm once]
  exact derives_tokens e.unsigned_norm

/-! ## A second sign -/

open Place

theorem walk_tokens {e : Expr} (once : e.Everywhere SignedOnce) :
    operand.walk e.tokens = some operator := (derives_norm once).walk.1

theorem walk_enclose (needed : Bool) {ts : List Token}
    (h : operand.walk ts = none ∨ operand.walk ts = some operator) :
    operand.walk (enclose needed ts) = operand.walk ts := by
  cases needed with
  | false => rfl
  | true =>
    show operand.walk (ts ++ [.closeParen]) = operand.walk ts
    rw [walk_append]
    rcases h with stuck | through
    · rw [stuck]
      rfl
    · rw [through]
      rfl

theorem walk_within {e : Expr} (f : Form) (once : e.Everywhere SignedOnce) :
    operand.walk (e.within f) = some operator := by
  have through := walk_tokens once
  rw [within, walk_enclose _ (.inr through), through]

theorem walk_within_of_none {e : Expr} (f : Form) (stuck : operand.walk e.tokens = none) :
    operand.walk (e.within f) = none := by
  rw [within, walk_enclose _ (.inl stuck), stuck]

theorem walk_joined_of_none {es : List Expr} {ts : List Token}
    (each : ∀ e ∈ es, ¬ e.Everywhere SignedOnce → operand.walk e.tokens = none)
    (twice : ¬ ∀ e ∈ es, e.Everywhere SignedOnce) :
    operand.walk ([Token.comma].intercalate (es.map tokens) ++ ts) = none := by
  induction es with
  | nil => exact absurd nofun twice
  | cons e es ih =>
    obtain ⟨first, others⟩ := List.forall_mem_cons.mp each
    rw [List.forall_mem_cons, not_and] at twice
    by_cases once : e.Everywhere SignedOnce
    · have ne : es.map tokens ≠ [] := by
        intro empty
        rw [List.map_eq_nil_iff] at empty
        exact twice once (by simp [empty])
      rw [List.map_cons, joined_cons _ ne, List.append_assoc, walk_append, walk_tokens once]
      exact ih others (twice once)
    · cases es with
      | nil => simp [walk_append, first once]
      | cons =>
        rw [List.map_cons, joined_cons _ (by simp), List.append_assoc, walk_append, first once]
        rfl

/-- A minus sign before a signed number is read as one that negates, and the sign after it has no
place. -/
theorem walk_tokens_eq_none {e : Expr} (twice : ¬ e.Everywhere SignedOnce) :
    operand.walk e.tokens = none := by
  induction e with
  | number v | var x => simp [SignedOnce] at twice
  | call f args ih =>
    have below : ¬ ∀ e ∈ args, e.Everywhere SignedOnce := by simpa [SignedOnce] using twice
    rw [tokens_call]
    exact walk_joined_of_none ih below
  | neg e ih =>
    rw [tokens_neg]
    show negated.walk (e.within .primary) = none
    by_cases below : e.Everywhere SignedOnce
    · -- It is this sign that is one too many, so a number is negated.
      cases e with
      | number v =>
        have signed : v.toInt < 0 := by simpa [SignedOnce] using twice
        show negated.walk (number v).tokens = none
        rw [tokens, Value.numeral, if_pos signed]
        rfl
      | _ => exact absurd ⟨trivial, below⟩ (mt everywhere_neg.mpr twice)
    · -- What is stuck is no number, and begins alike under a minus sign and elsewhere.
      have stuck := walk_within_of_none .primary (ih below)
      cases e with
      | number v | var x => simp [SignedOnce] at below
      | binary op => cases op <;> exact stuck
      | _ => exact stuck
  | binary op l r ihl ihr =>
    rw [tokens_binary, walk_append]
    by_cases left : l.Everywhere SignedOnce
    · have right : ¬ r.Everywhere SignedOnce := by simpa [SignedOnce, left] using twice
      rw [walk_within _ left]
      exact walk_within_of_none _ (ihr right)
    · rw [walk_within_of_none _ (ihl left)]
      rfl

theorem signedOnce_of_derives {e e' : Expr} (h : Derives .sum e.tokens e') :
    e.Everywhere SignedOnce := by
  refine Classical.byContradiction fun twice => ?_
  have stuck := walk_tokens_eq_none twice
  rw [h.walk.1] at stuck
  cases stuck

end Expr

end Calculator
