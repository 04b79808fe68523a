import Calculator.Proofs.Grammar.Basic

/-!
# Places

What may come next in an expression, as far as the tokens just before it tell. Open parentheses are
not counted, so this allows more than the grammar does; it is enough to see that no minus sign comes
after one that negates.
-/

namespace Calculator

/-- What may come next. -/
inductive Place where
  /-- An operand, a minus sign first if it is negated. -/
  | operand
  /-- The primary that a minus sign negates. -/
  | negated
  /-- An operator, or what ends an expression. -/
  | operator
  deriving DecidableEq

namespace Place

/-- What may come after the token, if the token may come. The parentheses of a call may be closed at
once, so they may be wherever an operand may come. -/
def step : Place → Token → Option Place
  | operand, .operator .minus => some negated
  | operand, .number _ | operand, .name _ | operand, .closeParen => some operator
  | negated, .number _ | negated, .name _ => some operator
  | operand, .openParen | negated, .openParen | operator, .openParen => some operand
  | operator, .operator _ | operator, .comma => some operand
  | operator, .closeParen => some operator
  | _, _ => none

def walk : Place → List Token → Option Place
  | p, [] => some p
  | p, t :: ts => (p.step t).bind fun q => walk q ts

theorem walk_append (p : Place) (ts us : List Token) :
    p.walk (ts ++ us) = (p.walk ts).bind fun q => q.walk us := by
  induction ts generalizing p with
  | nil => rfl
  | cons t ts ih =>
    rw [List.cons_append, walk, walk]
    cases p.step t with
    | none => rfl
    | some q => exact ih q

theorem walk_joined (tss : List (List Token)) (h : ∀ ts ∈ tss, operand.walk ts = some operator) :
    operand.walk ([Token.comma].intercalate tss ++ [.closeParen]) = some operator := by
  induction tss with
  | nil => rfl
  | cons ts tss ih =>
    obtain ⟨first, others⟩ := List.forall_mem_cons.mp h
    by_cases ne : tss = []
    · rw [ne, List.intercalate_singleton, walk_append, first]
      rfl
    · rw [joined_cons _ ne, List.append_assoc, walk_append, first]
      exact ih others

end Place

open Place

/-- An expression may come where an operand may, and is followed by what follows an operand. A
primary may be negated. -/
theorem Derives.walk {f : Form} {ts : List Token} {e : Expr} (h : Derives f ts e) :
    operand.walk ts = some operator ∧ (f = .primary → negated.walk ts = some operator) := by
  induction h with
  | number v | var x => exact ⟨rfl, fun _ => rfl⟩
  | @group ts e _ ih =>
    have inner : operand.walk (ts ++ [.closeParen]) = some operator := by
      rw [walk_append, ih.1]
      rfl
    exact ⟨inner, fun _ => inner⟩
  | call f args _ ih =>
    have inner := walk_joined (args.map Prod.fst) fun ts mem => by
      obtain ⟨a, ha, rfl⟩ := List.mem_map.mp mem
      exact (ih a ha).1
    exact ⟨inner, fun _ => inner⟩
  | neg _ ih => exact ⟨ih.2 rfl, nofun⟩
  | @binary op ls rs _ _ _ _ ihl ihr =>
    refine ⟨?_, fun primary => ?_⟩
    · rw [walk_append, ihl.1]
      exact ihr.1
    · cases op <;> cases primary
  | loosen _ ih => exact ⟨ih.1, fun primary => ih.2 (by rw [primary]; rfl)⟩

end Calculator
