import Calculator.Grammar
import Calculator.Proofs.Nesting

/-!
# Forms, precedences and parentheses

The forms of the grammar and the precedences of the operators name the same levels: `Form.ofLeast`
is the form of what holds operators of a least precedence only. What the grammar derives is
balanced, so nestings of its parts add up.
-/

namespace Calculator

/-! ## Forms and precedences -/

/-- The loosest form all of whose operators outside parentheses have at least this precedence. -/
def Form.ofLeast (least : Nat) : Form :=
  if least ≤ 10 then .sum else if least ≤ 20 then .product else if least ≤ 30 then .power else .term

theorem Form.rank_ofLeast_le (least : Nat) : (Form.ofLeast least).rank ≤ 3 := by
  unfold Form.ofLeast
  repeat' split
  all_goals decide

theorem Form.ofLeast_succ_precedence (op : Operator) :
    Form.ofLeast (op.precedence + 1) = op.form.tighter := by
  cases op <;> rfl

/-- An operator counts for a least precedence if its form is no looser. -/
theorem Operator.le_precedence_iff {op : Operator} {least : Nat} :
    least ≤ op.precedence ↔ (Form.ofLeast least).rank ≤ op.form.rank := by
  unfold Form.ofLeast
  cases op <;> simp only [Operator.precedence, Operator.form] <;> repeat' split
  all_goals simp only [Form.rank]; omega

theorem Operator.precedence_le_precedence_iff {op op' : Operator} :
    op.precedence ≤ op'.precedence ↔ op.form.rank ≤ op'.form.rank := by
  rw [Operator.le_precedence_iff]
  cases op <;> exact Iff.rfl

theorem Operator.rank_tighter (op : Operator) : op.form.tighter.rank = op.form.rank + 1 := by
  cases op <;> rfl

theorem Operator.rank_form_le (op : Operator) : op.form.rank ≤ 2 := by
  cases op <;> decide

theorem Form.rank_le_rank_tighter (f : Form) : f.rank ≤ f.tighter.rank := by
  cases f <;> decide

/-! ## Lists of arguments -/

theorem joined_cons (ts : List Token) {tss : List (List Token)} (ne : tss ≠ []) :
    [Token.comma].intercalate (ts :: tss) = ts ++ .comma :: [Token.comma].intercalate tss := by
  rw [List.intercalate_cons_of_ne_nil ne, List.append_assoc]
  rfl

theorem mem_joined {tss : List (List Token)} {ts : List Token} {t : Token} (mem : ts ∈ tss)
    (ht : t ∈ ts) : t ∈ [Token.comma].intercalate tss := by
  induction tss with
  | nil => cases mem
  | cons us tss ih =>
    cases tss with
    | nil => simpa [List.mem_singleton.mp mem] using ht
    | cons vs tss =>
      rw [List.intercalate_cons_cons]
      rcases List.mem_cons.mp mem with rfl | mem
      · simp [ht]
      · simp [ih mem]

theorem Balanced.joined {α : Type} {f : α → List Token} {as : List α}
    (h : ∀ a ∈ as, Balanced (f a)) : Balanced ([Token.comma].intercalate (as.map f)) := by
  induction as with
  | nil => exact .nil
  | cons a as ih =>
    obtain ⟨first, others⟩ := List.forall_mem_cons.mp h
    by_cases ne : as = []
    · rw [ne, List.map_singleton, List.intercalate_singleton]
      exact first
    · rw [List.map_cons, joined_cons _ (by simpa using ne)]
      exact first.append (.cons (by decide) (by decide) (ih others))

namespace Derives

/-! ## Parentheses of an expression -/

theorem balanced {f : Form} {ts : List Token} {e : Expr} (h : Derives f ts e) : Balanced ts := by
  induction h with
  | number v => exact .cons (by simp) (by simp) .nil
  | var x => exact .cons (by simp) (by simp) .nil
  | group _ ih => exact .group ih .nil
  | call f args _ ih => exact .cons (by simp) (by simp) (.group (.joined ih) .nil)
  | neg _ ih => exact .cons (by simp) (by simp) ih
  | binary op _ _ ihl ihr => exact ihl.append (.cons (by simp) (by simp) ihr)
  | loosen _ ih => exact ih

theorem opened_eq_zero {f : Form} {ts : List Token} {e : Expr} (h : Derives f ts e) :
    opened ts = 0 := h.balanced.opened_eq_zero

end Derives

theorem nesting_group {inner : List Token} (h : Balanced inner) :
    nesting (.openParen :: inner ++ [.closeParen]) = nesting inner + 1 := by
  have := nesting_nonneg inner
  calc nesting (.openParen :: inner ++ [.closeParen])
      = max 0 (1 + max (nesting inner) (opened inner + 0)) := by
        rw [List.cons_append, nesting_cons, nesting_append]
        rfl
    _ = nesting inner + 1 := by
        rw [h.opened_eq_zero]
        omega

theorem nesting_call {inner : List Token} (x : String) (h : Balanced inner) :
    nesting (.name x :: .openParen :: inner ++ [.closeParen]) = nesting inner + 1 := by
  have := nesting_nonneg inner
  calc nesting (.name x :: .openParen :: inner ++ [.closeParen])
      = max 0 (0 + nesting (.openParen :: inner ++ [.closeParen])) := rfl
    _ = nesting inner + 1 := by
        rw [nesting_group h]
        omega

theorem nesting_separated {ls rs : List Token} {t : Token} (flat : t.rise = 0) (h : Balanced ls) :
    nesting (ls ++ t :: rs) = max (nesting ls) (nesting rs) := by
  have := nesting_nonneg rs
  calc nesting (ls ++ t :: rs)
      = max (nesting ls) (opened ls + max 0 (t.rise + nesting rs)) := nesting_append _ _
    _ = max (nesting ls) (nesting rs) := by
        rw [h.opened_eq_zero, flat]
        omega

end Calculator
