import Calculator.Proofs.Grammar.Basic
import Calculator.Proofs.Lexer.Basic

/-!
# Subtrees

The nodes of a tree, and properties that every node has. What a source text can give is said by such
properties: its numbers have no sign and its names are names.
-/

namespace Calculator

namespace Expr

mutual
/-- The tree and all trees below it, each before those below it. -/
def subtrees : Expr → List Expr
  | number v => [number v]
  | var x => [var x]
  | call f args => call f args :: subtreesAll args
  | neg e => neg e :: e.subtrees
  | binary op l r => binary op l r :: (l.subtrees ++ r.subtrees)

def subtreesAll : List Expr → List Expr
  | [] => []
  | e :: es => e.subtrees ++ subtreesAll es
end

theorem subtreesAll_eq_flatMap (es : List Expr) : subtreesAll es = es.flatMap subtrees := by
  induction es with
  | nil => rfl
  | cons e es ih => rw [subtreesAll, ih, List.flatMap_cons]

/-- Every node of the tree has the property. -/
def Everywhere (p : Expr → Prop) (e : Expr) : Prop := ∀ s ∈ e.subtrees, p s

section

variable {p : Expr → Prop}

@[simp] theorem everywhere_number {v : Value} : Everywhere p (.number v) ↔ p (.number v) := by
  simp [Everywhere, subtrees]

@[simp] theorem everywhere_var {x : String} : Everywhere p (.var x) ↔ p (.var x) := by
  simp [Everywhere, subtrees]

@[simp] theorem everywhere_call {f : Aggregate} {args : List Expr} :
    Everywhere p (.call f args) ↔ p (.call f args) ∧ ∀ e ∈ args, Everywhere p e := by
  simp only [Everywhere, subtrees, subtreesAll_eq_flatMap, List.forall_mem_cons]
  refine and_congr_right fun _ => ⟨fun h e he s hs => ?_, fun h s hs => ?_⟩
  · exact h s (List.mem_flatMap.mpr ⟨e, he, hs⟩)
  · obtain ⟨e, he, hs⟩ := List.mem_flatMap.mp hs
    exact h e he s hs

@[simp] theorem everywhere_neg {e : Expr} :
    Everywhere p (.neg e) ↔ p (.neg e) ∧ Everywhere p e := by
  simp only [Everywhere, subtrees, List.forall_mem_cons]

@[simp] theorem everywhere_binary {op : Operator} {l r : Expr} :
    Everywhere p (.binary op l r) ↔ p (.binary op l r) ∧ Everywhere p l ∧ Everywhere p r := by
  simp only [Everywhere, subtrees, List.forall_mem_cons, List.forall_mem_append]

end

/-! ## Properties of nodes -/

def Named : Expr → Prop
  | var x => isName x.toList = true
  | _ => True

def Unsigned : Expr → Prop
  | number v => 0 ≤ v.toInt
  | _ => True

def Negatable : Expr → Prop
  | number v => v ≠ .least
  | _ => True

theorem Unsigned.negatable {e : Expr} (h : e.Unsigned) : e.Negatable := by
  cases e with
  | number v =>
    intro eq
    have unsigned : 0 ≤ v.toInt := h
    rw [eq] at unsigned
    revert unsigned
    decide
  | _ => trivial

/-- A number that is negated here has no sign. -/
def SignedOnce : Expr → Prop
  | neg (number v) => 0 ≤ v.toInt
  | _ => True

end Expr

/-! ## Where nodes come from -/

theorem Derives.everywhere_plain {f : Form} {ts : List Token} {e : Expr} (h : Derives f ts e)
    (plain : ∀ t ∈ ts, t.Plain) : e.Everywhere fun s => s.Named ∧ s.Unsigned := by
  induction h with
  | number v => simpa [Expr.Named, Expr.Unsigned, Token.Plain] using plain
  | var x => simpa [Expr.Named, Expr.Unsigned, Token.Plain] using plain
  | group _ ih => exact ih fun t ht => plain t (by simp [ht])
  | call f args _ ih =>
    refine Expr.everywhere_call.mpr ⟨⟨trivial, trivial⟩, fun e he => ?_⟩
    obtain ⟨a, ha, rfl⟩ := List.mem_map.mp he
    refine ih a ha fun t ht => plain t ?_
    have := mem_joined (List.mem_map_of_mem (f := Prod.fst) ha) ht
    simp [this]
  | neg _ ih =>
    exact Expr.everywhere_neg.mpr ⟨⟨trivial, trivial⟩, ih fun t ht => plain t (by simp [ht])⟩
  | binary op _ _ ihl ihr =>
    refine Expr.everywhere_binary.mpr ⟨⟨trivial, trivial⟩, ?_, ?_⟩
    · exact ihl fun t ht => plain t (by simp [ht])
    · exact ihr fun t ht => plain t (by simp [ht])
  | loosen _ ih => exact ih plain

end Calculator
