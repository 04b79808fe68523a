import Calculator.Proofs.Grammar.Basic

/-!
# Going over tokens

A name is that of a function if an opening parenthesis comes next, and that of a variable otherwise.
What is done with the tokens of a list one by one may depend on that, and on nothing else around
them. It is done to two lists separately if the second does not begin with such a parenthesis, as
no operator, comma or closing parenthesis does that comes after a part of an expression.
-/

namespace Calculator

section

variable {α : Type} {f : Token → (opens : Bool) → List α}

/-- What becomes of the tokens one by one, where `f` is told whether an opening parenthesis comes
next. -/
def tokenwise (f : Token → (opens : Bool) → List α) : List Token → List α
  | [] => []
  | t :: ts => f t (ts.head? = some .openParen) ++ tokenwise f ts

theorem tokenwise_cons (t : Token) (ts : List Token) :
    tokenwise f (t :: ts) = f t (ts.head? = some .openParen) ++ tokenwise f ts := rfl

/-- Lists are gone over separately if no name at the end of the first is a function's. -/
theorem tokenwise_append (ts : List Token) {rest : List Token}
    (ne : rest.head? ≠ some .openParen) :
    tokenwise f (ts ++ rest) = tokenwise f ts ++ tokenwise f rest := by
  induction ts with
  | nil => rfl
  | cons t ts ih =>
    have next : (ts ++ rest).head? = some .openParen ↔ ts.head? = some .openParen := by
      cases ts with
      | nil => simpa using ne
      | cons => simp
    rw [List.cons_append, tokenwise_cons, tokenwise_cons, ih, List.append_assoc]
    simp only [next]

theorem tokenwise_joined {comma : List α} (h : ∀ opens, f .comma opens = comma)
    (tss : List (List Token)) :
    tokenwise f ([Token.comma].intercalate tss) = comma.intercalate (tss.map (tokenwise f)) := by
  induction tss with
  | nil => rfl
  | cons ts tss ih =>
    by_cases ne : tss = []
    · simp [ne]
    · rw [joined_cons _ ne, tokenwise_append _ (by simp), tokenwise_cons, h, ih, List.map_cons,
        List.intercalate_cons_of_ne_nil (by simpa using ne), List.append_assoc]

end

end Calculator
