import Calculator.Token

/-!
# Expressions

The tree of an expression, its height, and equality of trees. A tree may be built as data and then
hold what no source text gives: negative numbers, names of any characters, any height.
-/

namespace Calculator

/-- A function of any number of values. -/
inductive Aggregate where
  | sum
  | average
  deriving DecidableEq

namespace Aggregate

def all : List Aggregate := [sum, average]

def name : Aggregate → String
  | sum => "SUM"
  | average => "AVERAGE"

/-- The function with this name, upper and lower case told apart. -/
def ofName? (x : String) : Option Aggregate := all.find? fun f => f.name == x

theorem ofName?_eq_some_iff {x : String} {f : Aggregate} : ofName? x = some f ↔ x = f.name := by
  constructor
  · intro h
    have := List.find?_some h
    exact (beq_iff_eq.mp this).symm
  · rintro rfl
    cases f <;> decide

end Aggregate

inductive Expr where
  | number (value : Value)
  | var (name : String)
  | call (function : Aggregate) (args : List Expr)
  | neg (operand : Expr)
  | binary (op : Operator) (left right : Expr)

namespace Expr

/-! ## Induction -/

/-- Induction over trees, with the hypothesis for every argument of a call. -/
@[induction_eliminator]
theorem induct {motive : Expr → Prop} (number : ∀ v, motive (.number v))
    (var : ∀ x, motive (.var x))
    (call : ∀ f args, (∀ e ∈ args, motive e) → motive (.call f args))
    (neg : ∀ e, motive e → motive (.neg e))
    (binary : ∀ op l r, motive l → motive r → motive (.binary op l r)) (e : Expr) : motive e :=
  Expr.rec (motive_1 := motive) (motive_2 := fun es => ∀ e ∈ es, motive e) number var call neg
    binary (fun _ h => nomatch h)
    (fun _ _ head tail _ h => (List.mem_cons.mp h).elim (fun h => h ▸ head) (tail _)) e

/-! ## Height -/

mutual
/-- The number of nodes on the longest way down. A call without arguments is as low as a leaf. -/
def height : Expr → Nat
  | number _ => 1
  | var _ => 1
  | call _ args => heightAll args + 1
  | neg e => e.height + 1
  | binary _ l r => max l.height r.height + 1

/-- The greatest height in the list, zero for the empty one. -/
def heightAll : List Expr → Nat
  | [] => 0
  | e :: es => max e.height (heightAll es)
end

theorem height_pos (e : Expr) : 0 < e.height := by
  cases e <;> simp [height]

/-! ## Equality -/

mutual
def decEq : (a b : Expr) → Decidable (a = b)
  | number v, number w => if h : v = w then isTrue (by rw [h]) else isFalse (by simp [h])
  | var x, var y => if h : x = y then isTrue (by rw [h]) else isFalse (by simp [h])
  | call f as, call g bs =>
    if h : f = g then
      match decEqAll as bs with
      | isTrue hs => isTrue (by rw [h, hs])
      | isFalse hs => isFalse (by simp [hs])
    else isFalse (by simp [h])
  | neg a, neg b =>
    match decEq a b with
    | isTrue h => isTrue (by rw [h])
    | isFalse h => isFalse (by simp [h])
  | binary o a a', binary p b b' =>
    if h : o = p then
      match decEq a b with
      | isTrue hl =>
        match decEq a' b' with
        | isTrue hr => isTrue (by rw [h, hl, hr])
        | isFalse hr => isFalse (by simp [hr])
      | isFalse hl => isFalse (by simp [hl])
    else isFalse (by simp [h])
  | number _, var _ | number _, call .. | number _, neg _ | number _, binary .. | var _, number _
  | var _, call .. | var _, neg _ | var _, binary .. | call .., number _ | call .., var _
  | call .., neg _ | call .., binary .. | neg _, number _ | neg _, var _ | neg _, call ..
  | neg _, binary .. | binary .., number _ | binary .., var _ | binary .., call ..
  | binary .., neg _ => isFalse (by simp)

def decEqAll : (as bs : List Expr) → Decidable (as = bs)
  | [], [] => isTrue rfl
  | a :: as, b :: bs =>
    match decEq a b with
    | isTrue h =>
      match decEqAll as bs with
      | isTrue hs => isTrue (by rw [h, hs])
      | isFalse hs => isFalse (by simp [hs])
    | isFalse h => isFalse (by simp [h])
  | [], _ :: _ | _ :: _, [] => isFalse (by simp)
end

instance : DecidableEq Expr := decEq

end Expr

end Calculator
