import Calculator.Expr.Basic

/-!
# Printing expressions

The text of a tree, with the parentheses that reading it back needs and no others: around a left
operand that binds looser than its operator, around a right operand that does not bind tighter, and
around a negated operand that is itself a negation or a binary operation.
-/

namespace Calculator

namespace Expr

/-- Whether the tree is a binary operation whose operator binds looser than `least`. -/
def isLooserThan (least : Nat) : Expr → Bool
  | binary op _ _ => op.precedence < least
  | _ => false

/-- Whether a minus sign before the text of the tree negates all of it. -/
def isPrimary : Expr → Bool
  | number _ | var _ | call .. => true
  | neg _ | binary .. => false

end Expr

def parenthesize (needed : Bool) (text : String) : String :=
  if needed then "(" ++ text ++ ")" else text

namespace Expr

mutual
/-- The text of the tree. Arguments are separated by a comma and a space, and an operator stands
between spaces. -/
def render : Expr → String
  | number v => v.render
  | var x => x
  | call f args => f.name ++ "(" ++ ", ".intercalate (renderAll args) ++ ")"
  | neg e => "-" ++ parenthesize (!e.isPrimary) e.render
  | binary op l r =>
    parenthesize (l.isLooserThan op.precedence) l.render ++ " " ++ op.symbol ++ " " ++
      parenthesize (r.isLooserThan (op.precedence + 1)) r.render

def renderAll : List Expr → List String
  | [] => []
  | e :: es => e.render :: renderAll es
end

theorem renderAll_eq_map (es : List Expr) : renderAll es = es.map render := by
  induction es with
  | nil => rfl
  | cons e es ih => rw [renderAll, ih, List.map_cons]

end Expr

end Calculator
