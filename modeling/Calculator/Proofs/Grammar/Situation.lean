import Calculator.Proofs.Grammar.Basic

/-!
# Situations

What may come next in an expression, as all the tokens before it tell: what was read last, and the
parentheses that are open, of groups and of calls.

1. `Situation.step`: what one token changes, if it may come.
2. `Derives.spans`: an expression leads from before an operand to after one, whatever it is
   enclosed by.
-/

namespace Calculator

/-- What an open parenthesis belongs to. -/
inductive Enclosure where
  | group
  | call
  deriving DecidableEq

/-- What may come next in the innermost enclosure. -/
inductive Stage where
  /-- An operand, a minus sign first if it is negated. -/
  | operand
  /-- The first argument of a call, or the end of the call. -/
  | first
  /-- The primary that a minus sign negates. -/
  | negated
  /-- What comes after an operand. -/
  | operator
  /-- What comes after an operand, too, and the parenthesis of a call. -/
  | named (x : String)
  deriving DecidableEq

/-- What may come next, and the open parentheses, the innermost first. -/
structure Situation where
  stage : Stage
  enclosures : List Enclosure
  deriving DecidableEq

namespace Situation

variable {z z' z'' : Situation} {es : List Enclosure} {ts us : List Token} {t : Token}

/-! ## Steps -/

def start : Situation := ⟨.operand, []⟩

def begins (es : List Enclosure) : Token → Option Situation
  | .number _ => some ⟨.operator, es⟩
  | .name x => some ⟨.named x, es⟩
  | .openParen => some ⟨.operand, .group :: es⟩
  | _ => none

def follows : List Enclosure → Token → Option Situation
  | es, .operator _ => some ⟨.operand, es⟩
  | _ :: es, .closeParen => some ⟨.operator, es⟩
  | .call :: es, .comma => some ⟨.operand, .call :: es⟩
  | _, _ => none

/-- What the token leads to, if it may come. -/
def step (z : Situation) (t : Token) : Option Situation :=
  match z.stage, t with
  | .operand, .operator .minus | .first, .operator .minus => some ⟨.negated, z.enclosures⟩
  | .first, .closeParen => some ⟨.operator, z.enclosures.tail⟩
  | .named x, .openParen => (Aggregate.ofName? x).map fun _ => ⟨.first, .call :: z.enclosures⟩
  | .operand, t | .first, t | .negated, t => begins z.enclosures t
  | .operator, t | .named _, t => follows z.enclosures t

/-- What the tokens lead to, if each of them may come where it does. -/
def walk (z : Situation) (ts : List Token) : Option Situation := ts.foldlM step z

theorem walk_nil (z : Situation) : z.walk [] = some z := rfl

theorem walk_cons (z : Situation) (t : Token) (ts : List Token) :
    z.walk (t :: ts) = (z.step t).bind fun z' => z'.walk ts := rfl

theorem walk_append (h : z.walk ts = some z') : z.walk (ts ++ us) = z'.walk us := by
  rw [walk, List.foldlM_append, ← walk, h]
  rfl

theorem exists_of_walk_append (h : z.walk (ts ++ us) = some z'') :
    ∃ z', z.walk ts = some z' ∧ z'.walk us = some z'' := by
  rw [walk, List.foldlM_append] at h
  exact Option.bind_eq_some_iff.mp h

/-! ## Before an operand -/

theorem step_negated (es : List Enclosure) (t : Token) :
    step ⟨.negated, es⟩ t = begins es t := by
  cases t <;> rfl

theorem step_operand (es : List Enclosure) (ne : t ≠ .operator .minus) :
    step ⟨.operand, es⟩ t = begins es t := by
  cases t with
  | operator op =>
    cases op with
    | minus => exact absurd rfl ne
    | _ => rfl
  | _ => rfl

theorem step_first (es : List Enclosure) (ne : t ≠ .closeParen) :
    step ⟨.first, es⟩ t = step ⟨.operand, es⟩ t := by
  cases t with
  | closeParen => exact absurd rfl ne
  | operator op => cases op <;> rfl
  | _ => rfl

theorem walk_of_step (ne : ts ≠ []) (more : ∀ t y, z.step t = some y → z'.step t = some y)
    (h : z.walk ts = some z'') : z'.walk ts = some z'' := by
  obtain ⟨t, ts, rfl⟩ := List.exists_cons_of_ne_nil ne
  rw [walk_cons] at h ⊢
  obtain ⟨y, hy, rest⟩ := Option.bind_eq_some_iff.mp h
  rw [more t y hy]
  exact rest

theorem step_operand_of_negated (t : Token) (y : Situation)
    (h : step ⟨.negated, es⟩ t = some y) : step ⟨.operand, es⟩ t = some y := by
  rwa [step_operand es (by rintro rfl; cases h), ← step_negated]

theorem step_first_of_operand (t : Token) (y : Situation)
    (h : step ⟨.operand, es⟩ t = some y) : step ⟨.first, es⟩ t = some y := by
  rwa [step_first es (by rintro rfl; cases h)]

/-! ## After an operand -/

theorem step_operator (es : List Enclosure) (t : Token) :
    step ⟨.operator, es⟩ t = follows es t := by
  cases t <;> rfl

theorem step_named (x : String) (es : List Enclosure) (ne : t ≠ .openParen) :
    step ⟨.named x, es⟩ t = follows es t := by
  cases t with
  | openParen => exact absurd rfl ne
  | _ => rfl

/-- An operand has just ended inside the enclosures. -/
inductive After (es : List Enclosure) : Situation → Prop where
  | operator : After es ⟨.operator, es⟩
  | named (x : String) : After es ⟨.named x, es⟩

theorem After.step_eq (h : After es z) (ne : t ≠ .openParen) : z.step t = follows es t := by
  cases h with
  | operator => exact step_operator es t
  | named x => exact step_named x es ne

theorem After.walk_through (h : After es z') (walked : z.walk ts = some z') (t : Token)
    (ne : t ≠ .openParen) : z.walk (ts ++ t :: us) = (follows es t).bind fun y => y.walk us := by
  rw [walk_append walked, walk_cons, h.step_eq ne]

/-- The tokens are an operand, in the enclosures of the situation that they begin in. -/
def Spans (z : Situation) (ts : List Token) : Prop :=
  ∃ z', After z.enclosures z' ∧ z.walk ts = some z'

theorem walk_joined (tss : List (List Token)) (ne : tss ≠ [])
    (h : ∀ ts ∈ tss, Spans ⟨.operand, .call :: es⟩ ts) :
    walk ⟨.operand, .call :: es⟩ ([Token.comma].intercalate tss ++ [.closeParen]) =
      some ⟨.operator, es⟩ := by
  induction tss with
  | nil => exact absurd rfl ne
  | cons ts tss ih =>
    obtain ⟨⟨z, after, walked⟩, others⟩ := List.forall_mem_cons.mp h
    by_cases last : tss = []
    · rw [last, List.intercalate_singleton, after.walk_through walked .closeParen nofun]
      rfl
    · rw [joined_cons _ last, List.append_assoc, List.cons_append,
        after.walk_through walked .comma nofun]
      exact ih last others

end Situation

open Situation

/-- An expression may come where an operand may, and leads to what comes after an operand. A primary
may come after a minus sign. -/
theorem Derives.spans {f : Form} {ts : List Token} {e : Expr} (h : Derives f ts e)
    (es : List Enclosure) :
    Spans ⟨.operand, es⟩ ts ∧ (f = .primary → Spans ⟨.negated, es⟩ ts) := by
  have primary {ts : List Token} {es : List Enclosure} (ne : ts ≠ [])
      (negated : Spans ⟨.negated, es⟩ ts) :
      Spans ⟨.operand, es⟩ ts ∧ (Form.primary = .primary → Spans ⟨.negated, es⟩ ts) := by
    obtain ⟨z, after, walked⟩ := negated
    exact ⟨⟨z, after, walk_of_step ne step_operand_of_negated walked⟩, fun _ => ⟨z, after, walked⟩⟩
  induction h generalizing es with
  | number v => exact primary (by simp) ⟨_, .operator, rfl⟩
  | var x => exact primary (by simp) ⟨_, .named x, rfl⟩
  | @group ts e _ ih =>
    obtain ⟨⟨z, after, walked⟩, -⟩ := ih (.group :: es)
    refine primary (by simp) ⟨_, .operator, ?_⟩
    have closed : Situation.walk ⟨.operand, .group :: es⟩ (ts ++ [.closeParen]) =
        some ⟨.operator, es⟩ := by
      rw [after.walk_through walked .closeParen nofun]
      rfl
    exact closed
  | call f args _ ih =>
    refine primary (by simp) ⟨_, .operator, ?_⟩
    rw [List.cons_append, List.cons_append, walk_cons]
    show ((Aggregate.ofName? f.name).map _).bind _ = _
    rw [Aggregate.ofName?_eq_some_iff.mpr rfl]
    show Situation.walk ⟨.first, .call :: es⟩
      ([Token.comma].intercalate (args.map Prod.fst) ++ [.closeParen]) = some ⟨.operator, es⟩
    by_cases ne : args = []
    · rw [ne]
      rfl
    · refine walk_of_step (by simp) step_first_of_operand (walk_joined _ (by simpa using ne) ?_)
      intro ts mem
      obtain ⟨a, ha, rfl⟩ := List.mem_map.mp mem
      exact (ih a ha (.call :: es)).1
  | neg _ ih => exact ⟨(ih es).2 rfl, nofun⟩
  | @binary op ls rs _ _ _ _ ihl ihr =>
    obtain ⟨⟨z, after, left⟩, -⟩ := ihl es
    obtain ⟨⟨z', after', right⟩, -⟩ := ihr es
    refine ⟨⟨z', after', ?_⟩, fun primary => by cases op <;> cases primary⟩
    rw [after.walk_through left (.operator op) nofun]
    exact right
  | loosen _ ih => exact ⟨(ih es).1, fun primary => (ih es).2 (by rw [primary]; rfl)⟩

end Calculator
