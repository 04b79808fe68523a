import Calculator.Proofs.Grammar.Basic
import Mathlib.Logic.Relation

/-!
# Taking parentheses away

A step takes away one pair of parentheses that group. It leaves every other token where it is, so
after any number of steps there are no more parentheses than before and they are nested no deeper.
-/

namespace Calculator

open Relation

/-- The second list is the first without one pair of parentheses that belong together and group.
Those after a name are the parentheses of a call. -/
inductive Ungroups : List Token → List Token → Prop where
  | drop (before inner after : List Token) :
    (∀ x, before.getLast? ≠ some (.name x)) → Balanced inner →
    Ungroups (before ++ .openParen :: inner ++ .closeParen :: after) (before ++ inner ++ after)

namespace Ungroups

theorem count_openParen {ts us : List Token} (h : Ungroups ts us) :
    ts.count .openParen = us.count .openParen + 1 := by
  obtain ⟨_, _, _, -, -⟩ := h
  simp
  omega

theorem nesting_le {ts us : List Token} (h : Ungroups ts us) : nesting us ≤ nesting ts := by
  obtain ⟨_, _, _, -, balanced⟩ := h
  simp only [nesting_append, nesting_cons, opened_append, opened_cons, balanced.opened_eq_zero,
    Token.rise]
  omega

/-- A step stays one between other tokens, as long as no name comes to stand before it. -/
theorem context {ts us : List Token} (before after : List Token)
    (no_name : ∀ x, before.getLast? ≠ some (.name x)) (h : Ungroups ts us) :
    Ungroups (before ++ ts ++ after) (before ++ us ++ after) := by
  obtain ⟨front, inner, back, front_no_name, balanced⟩ := h
  -- What stands before the pair is the end of `front`, or of `before` if `front` is empty.
  have front_no_name' : ∀ x, (before ++ front).getLast? ≠ some (.name x) := by
    intro x
    rw [List.getLast?_append]
    cases last : front.getLast? with
    | none => simpa using no_name x
    | some t => simpa [last] using front_no_name x
  have step := Ungroups.drop _ _ (back ++ after) front_no_name' balanced
  simpa only [List.append_assoc, List.cons_append] using step

end Ungroups

/-- The second list is the first without some of the pairs of parentheses that group. -/
def UngroupsTo : List Token → List Token → Prop := ReflTransGen Ungroups

namespace UngroupsTo

variable {ts us : List Token}

theorem refl (ts : List Token) : UngroupsTo ts ts := ReflTransGen.refl

theorem trans {vs : List Token} (h₁ : UngroupsTo ts us) (h₂ : UngroupsTo us vs) :
    UngroupsTo ts vs := ReflTransGen.trans h₁ h₂

theorem count_openParen_le (h : UngroupsTo ts us) : us.count .openParen ≤ ts.count .openParen := by
  induction h with
  | refl => exact Nat.le_refl _
  | tail _ step ih =>
    have := step.count_openParen
    omega

theorem nesting_le (h : UngroupsTo ts us) : nesting us ≤ nesting ts := by
  induction h with
  | refl => exact Int.le_refl _
  | tail _ step ih => exact Int.le_trans step.nesting_le ih

theorem context (before after : List Token)
    (no_name : ∀ x, before.getLast? ≠ some (.name x)) (h : UngroupsTo ts us) :
    UngroupsTo (before ++ ts ++ after) (before ++ us ++ after) := by
  induction h with
  | refl => exact refl _
  | tail _ step ih => exact ReflTransGen.tail ih (step.context before after no_name)

theorem append_right (after : List Token) (h : UngroupsTo ts us) :
    UngroupsTo (ts ++ after) (us ++ after) := context [] after (by simp) h

theorem cons {t : Token} (no_name : ∀ x, t ≠ .name x) (h : UngroupsTo ts us) :
    UngroupsTo (t :: ts) (t :: us) := by
  simpa using context [t] [] (by simpa using no_name) h

theorem append {t : Token} {ts' us' : List Token} (no_name : ∀ x, t ≠ .name x)
    (h : UngroupsTo ts us) (h' : UngroupsTo ts' us') :
    UngroupsTo (ts ++ t :: ts') (us ++ t :: us') := by
  -- First in the one list, then in the other.
  refine (h.append_right _).trans ?_
  simpa using context (us ++ [t]) [] (by simpa using no_name) h'

theorem of_group (h : Balanced ts) : UngroupsTo (.openParen :: ts ++ [.closeParen]) ts := by
  have step := Ungroups.drop [] ts [] (by simp) h
  exact ReflTransGen.single (by simpa using step)

theorem joined {α : Type} {f g : α → List Token} {as : List α}
    (h : ∀ a ∈ as, UngroupsTo (f a) (g a)) :
    UngroupsTo ([Token.comma].intercalate (as.map f)) ([Token.comma].intercalate (as.map g)) := by
  induction as with
  | nil => exact refl _
  | cons a as ih =>
    obtain ⟨first, others⟩ := List.forall_mem_cons.mp h
    by_cases ne : as = []
    · subst ne
      simpa using first
    · rw [List.map_cons, List.map_cons, joined_cons _ (by simpa using ne),
        joined_cons _ (by simpa using ne)]
      exact first.append (by simp) (ih others)

end UngroupsTo

end Calculator
