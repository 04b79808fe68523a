import Calculator.Expr.Basic

/-!
# Nodes in the order of evaluation

The nodes of a tree with the operands of each before it, from left to right. This is the order in
which evaluation computes them.

1. `postorder_eq`: the nodes of a tree are those of its operands and then itself.
2. `eq_append_of_postorder`: wherever a node stands, the nodes of its operands are just before it.
-/

namespace Calculator

namespace Expr

/-- The trees that the value of the node is computed from, from left to right. -/
def operands : Expr → List Expr
  | number _ => []
  | var _ => []
  | call _ args => args
  | neg e => [e]
  | binary _ l r => [l, r]

mutual
/-- The tree and all trees below it, each after those below it. -/
def postorder : Expr → List Expr
  | number v => [number v]
  | var x => [var x]
  | call f args => postorderAll args ++ [call f args]
  | neg e => e.postorder ++ [neg e]
  | binary op l r => l.postorder ++ r.postorder ++ [binary op l r]

def postorderAll : List Expr → List Expr
  | [] => []
  | e :: es => e.postorder ++ postorderAll es
end

theorem postorderAll_eq_flatMap (es : List Expr) : postorderAll es = es.flatMap postorder := by
  induction es with
  | nil => rfl
  | cons e es ih => rw [postorderAll, ih, List.flatMap_cons]

theorem postorder_eq (e : Expr) : e.postorder = postorderAll e.operands ++ [e] := by
  cases e <;> simp [postorder, operands, postorderAll]

/-- Induction over trees, with the hypothesis for every operand of a node. -/
theorem induct_operands {motive : Expr → Prop}
    (step : ∀ e : Expr, (∀ o ∈ e.operands, motive o) → motive e) (e : Expr) : motive e := by
  induction e with
  | number v => exact step _ nofun
  | var x => exact step _ nofun
  | call f args ih => exact step _ ih
  | neg e ih => exact step _ (List.forall_mem_singleton.mpr ih)
  | binary op l r ihl ihr =>
    exact step _ (List.forall_mem_cons.mpr ⟨ihl, List.forall_mem_singleton.mpr ihr⟩)

/-- A node among those of several trees is one of a single tree, and the nodes of the trees on the
left come before that tree's. -/
theorem split_postorderAll {es before after : List Expr} {s : Expr}
    (h : postorderAll es = before ++ s :: after) :
    ∃ e ∈ es, ∃ left right outside,
      e.postorder = left ++ s :: right ∧ before = outside ++ left := by
  induction es generalizing before with
  | nil => simp [postorderAll] at h
  | cons e es ih =>
    rw [postorderAll] at h
    rcases List.append_eq_append_iff.mp h with ⟨as, rfl, tail⟩ | ⟨bs, head, tail⟩
    · obtain ⟨e', mem, left, right, outside, split, rfl⟩ := ih tail
      exact ⟨e', List.mem_cons_of_mem e mem, left, right, e.postorder ++ outside, split, by simp⟩
    · cases bs with
      | nil =>
        -- The node is the first one of the other trees.
        have first : postorderAll es = [] ++ s :: after := tail.symm
        obtain ⟨e', mem, left, right, outside, split, empty⟩ := ih first
        refine ⟨e', List.mem_cons_of_mem e mem, left, right, e.postorder ++ outside, split, ?_⟩
        rw [List.append_assoc, ← empty, head, List.append_nil, List.append_nil]
      | cons b bs =>
        obtain ⟨rfl, rfl⟩ := List.cons.inj tail
        exact ⟨e, List.mem_cons_self, before, bs, [], head, rfl⟩

theorem eq_append_of_postorder {e s : Expr} {before after : List Expr}
    (h : e.postorder = before ++ s :: after) :
    ∃ outside, before = outside ++ postorderAll s.operands := by
  induction e using induct_operands generalizing before after with
  | step e ih =>
    rw [postorder_eq] at h
    rcases List.append_eq_append_iff.mp h with ⟨as, rfl, root⟩ | ⟨bs, inside, tail⟩
    · -- The node is the root, so nothing else is before it.
      obtain ⟨rfl, root⟩ | ⟨_, -, absent⟩ := List.append_eq_cons_iff.mp root.symm
      · obtain ⟨rfl, -⟩ := List.cons.inj root
        exact ⟨[], List.append_nil _⟩
      · simp at absent
    · cases bs with
      | nil =>
        obtain ⟨rfl, -⟩ := List.cons.inj tail
        exact ⟨[], by rw [inside, List.append_nil]; rfl⟩
      | cons b bs =>
        obtain ⟨rfl, -⟩ := List.cons.inj tail
        obtain ⟨o, mem, left, right, outside, split, rfl⟩ := split_postorderAll inside
        obtain ⟨outside', rfl⟩ := ih o mem split
        exact ⟨outside ++ outside', by rw [List.append_assoc]⟩

end Expr

end Calculator
