import Calculator.Proofs.Grammar.Tokenwise

/-!
# Substitution

A tree in the place of a variable, and the tokens of that tree, in parentheses, in the place of the
variable's. Parentheses make a primary of every expression, and a primary may be wherever a variable
may, so the tokens after the substitution derive the tree after it.

1. `substituteTokens`: the tokens after the substitution.
2. `Derives.substitute`: they derive the tree after the substitution.
-/

namespace Calculator

/-! ## Trees -/

namespace Expr

mutual
def substitute (x : String) (f : Expr) : Expr → Expr
  | number v => number v
  | var y => if y = x then f else var y
  | call g args => call g (substituteAll x f args)
  | neg e => neg (substitute x f e)
  | binary op l r => binary op (substitute x f l) (substitute x f r)

def substituteAll (x : String) (f : Expr) : List Expr → List Expr
  | [] => []
  | e :: es => substitute x f e :: substituteAll x f es
end

theorem substituteAll_eq_map (x : String) (f : Expr) (es : List Expr) :
    substituteAll x f es = es.map (substitute x f) := by
  induction es with
  | nil => rfl
  | cons e es ih => rw [substituteAll, ih, List.map_cons]

end Expr

/-! ## Tokens -/

/-- The tokens with `us`, in parentheses, in the place of every variable `x`. A name before an
opening parenthesis is that of a function. -/
def substituteTokens (x : String) (us : List Token) : List Token → List Token :=
  tokenwise fun t opens =>
    if t = .name x ∧ opens = false then .openParen :: us ++ [.closeParen] else [t]

section

variable {x : String} {us : List Token}

theorem substituteTokens_var {ts : List Token} (ne : ts.head? ≠ some .openParen) :
    substituteTokens x us (.name x :: ts) =
      .openParen :: us ++ .closeParen :: substituteTokens x us ts := by
  rw [substituteTokens, tokenwise_cons, if_pos ⟨rfl, decide_eq_false ne⟩, List.append_assoc]
  rfl

theorem substituteTokens_keep {t : Token} {ts : List Token}
    (h : ¬ (t = .name x ∧ ts.head? ≠ some .openParen)) :
    substituteTokens x us (t :: ts) = t :: substituteTokens x us ts := by
  rw [substituteTokens, tokenwise_cons, if_neg (by simpa using h)]
  rfl

theorem substituteTokens_cons {t : Token} (ts : List Token) (ne : t ≠ .name x) :
    substituteTokens x us (t :: ts) = t :: substituteTokens x us ts :=
  substituteTokens_keep fun h => ne h.1

/-! ## Derivations -/

theorem Derives.substitute {f : Form} {ts : List Token} {e g : Expr} (h : Derives f ts e)
    (hg : Derives .sum us g) : Derives f (substituteTokens x us ts) (.substitute x g e) := by
  induction h with
  | number v => exact .number v
  | var y =>
    by_cases same : y = x
    · rw [same, substituteTokens_var (by simp), Expr.substitute, if_pos rfl]
      exact .group hg
    · rw [substituteTokens_cons _ (by simpa using same), Expr.substitute, if_neg same]
      exact .var y
  | group _ ih =>
    rw [List.cons_append, substituteTokens_cons _ (by simp), substituteTokens,
      tokenwise_append _ (by simp)]
    exact .group ih
  | call f args _ ih =>
    have parts : ∀ a ∈ args.map fun a => (substituteTokens x us a.1, Expr.substitute x g a.2),
        Derives .sum a.1 a.2 := by
      intro a ha
      obtain ⟨b, hb, rfl⟩ := List.mem_map.mp ha
      exact ih b hb
    have call := Derives.call f _ parts
    rw [List.map_map, List.map_map] at call
    rw [List.cons_append, List.cons_append, substituteTokens_keep (by simp),
      substituteTokens_cons _ (by simp), substituteTokens, tokenwise_append _ (by simp),
      tokenwise_joined (fun _ => if_neg (by simp)), List.map_map, Expr.substitute,
      Expr.substituteAll_eq_map, List.map_map]
    exact call
  | neg _ ih =>
    rw [substituteTokens_cons _ (by simp), Expr.substitute]
    exact .neg ih
  | binary op _ _ ihl ihr =>
    rw [substituteTokens, tokenwise_append _ (by simp), Expr.substitute]
    exact .binary op ihl ihr
  | loosen _ ih => exact .loosen ih

end

end Calculator
