import Calculator.Expr.Basic

/-!
# The grammar

Which tokens form an expression, and which tree they form, without regard to limits:

* a sum is a product, or a sum, `+` or `-`, and a product;
* a product is a power, or a product, `*` or `/`, and a power;
* a power is a term, or a power, `^`, and a term;
* a term is a primary, or `-` and a primary;
* a primary is a number, a variable, a sum in parentheses, or the name of a function and a list of
  sums, separated by commas, in parentheses.

Operators of one form share a precedence, and the left operand has the operator's own form, so all
operators group to the left.

1. `Derives.ne_nil`: no expression is empty.
2. `Derives.of_le`: what is an expression of a tighter form is one of every looser form.
-/

namespace Calculator

/-- The forms of expressions, from the loosest to the tightest. -/
inductive Form where
  | sum
  | product
  | power
  | term
  | primary
  deriving DecidableEq

namespace Form

def rank : Form → Nat
  | sum => 0
  | product => 1
  | power => 2
  | term => 3
  | primary => 4

/-- The next tighter form; a primary is the tightest. -/
def tighter : Form → Form
  | sum => product
  | product => power
  | power => term
  | term | primary => primary

theorem rank_injective {f g : Form} (h : f.rank = g.rank) : f = g := by
  cases f <;> cases g <;> revert h <;> decide

theorem rank_lt_tighter {f g : Form} (h : f.rank < g.rank) : f.rank < f.tighter.rank := by
  cases f <;> cases g <;> revert h <;> decide

theorem rank_tighter_le {f g : Form} (h : f.rank < g.rank) : f.tighter.rank ≤ g.rank := by
  cases f <;> cases g <;> revert h <;> decide

end Form

def Operator.form : Operator → Form
  | plus | minus => .sum
  | times | divide => .product
  | power => .power

/-- The tokens `ts` form the tree `e` as an expression of form `f`. -/
inductive Derives : (f : Form) → (ts : List Token) → (e : Expr) → Prop where
  | number (v : Value) : Derives .primary [.number v] (.number v)
  | var (x : String) : Derives .primary [.name x] (.var x)
  | group {ts : List Token} {e : Expr} :
    Derives .sum ts e → Derives .primary (.openParen :: ts ++ [.closeParen]) e
  | call (f : Aggregate) (args : List (List Token × Expr)) :
    (∀ a ∈ args, Derives .sum a.1 a.2) →
    Derives .primary
      (.name f.name :: .openParen :: [Token.comma].intercalate (args.map Prod.fst) ++
        [.closeParen])
      (.call f (args.map Prod.snd))
  | neg {ts : List Token} {e : Expr} :
    Derives .primary ts e → Derives .term (.operator .minus :: ts) (.neg e)
  | binary (op : Operator) {ls rs : List Token} {l r : Expr} :
    Derives op.form ls l → Derives op.form.tighter rs r →
    Derives op.form (ls ++ .operator op :: rs) (.binary op l r)
  | loosen {f : Form} {ts : List Token} {e : Expr} : Derives f.tighter ts e → Derives f ts e

namespace Derives

theorem ne_nil {f : Form} {ts : List Token} {e : Expr} (h : Derives f ts e) : ts ≠ [] := by
  induction h with
  | loosen _ ih => exact ih
  | _ => simp

theorem of_le {f g : Form} {ts : List Token} {e : Expr} (le : f.rank ≤ g.rank)
    (h : Derives g ts e) : Derives f ts e := by
  by_cases eq : f = g
  · exact eq ▸ h
  · have lt : f.rank < g.rank := Nat.lt_of_le_of_ne le fun r => eq (Form.rank_injective r)
    exact .loosen (of_le (Form.rank_tighter_le lt) h)
termination_by g.rank - f.rank
decreasing_by
  have := Form.rank_lt_tighter lt
  omega

end Derives

end Calculator
