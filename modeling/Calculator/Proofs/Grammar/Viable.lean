import Calculator.Proofs.Grammar.Situation

/-!
# What expressions begin with

A token list is viable if an expression begins with it. The walk over situations decides this: the
tokens that it gets through can be completed, by an operand if one is missing and by the parentheses
that are open.

1. `Derives.append_operand`: an operator and a term go on with any expression.
2. `viable_iff`: the viable lists are those that the walk gets through.
3. `accepted_iff`: the expressions are those that it leaves after an operand, with nothing open.
-/

namespace Calculator

def Accepted (ts : List Token) : Prop := ∃ e, Derives .sum ts e

/-- An expression begins with the tokens. -/
def Viable (ts : List Token) : Prop := ∃ us, Accepted (ts ++ us)

theorem Accepted.viable {ts : List Token} (h : Accepted ts) : Viable ts :=
  ⟨[], by rwa [List.append_nil]⟩

theorem Viable.of_append {ts us : List Token} (h : Viable (ts ++ us)) : Viable ts := by
  obtain ⟨vs, accepted⟩ := h
  exact ⟨us ++ vs, by rwa [← List.append_assoc]⟩

/-! ## Going on after an expression -/

/-- An operator and a term go on with an expression of a form that is no tighter than the
operator's. -/
theorem Derives.append_operand {f : Form} {ls rs : List Token} {l r : Expr} {op : Operator}
    (hl : Derives f ls l) (le : f.rank ≤ op.form.rank) (hr : Derives .term rs r) :
    ∃ e, Derives f (ls ++ .operator op :: rs) e := by
  have top := op.rank_form_le
  -- The whole of the left side is the operator's operand if it is of the operator's form, and the
  -- last operand in it otherwise.
  have whole {f : Form} {ls : List Token} {l : Expr} (same : f = op.form) (hl : Derives f ls l) :
      ∃ e, Derives f (ls ++ .operator op :: rs) e := by
    subst same
    refine ⟨_, .binary op hl (hr.of_le ?_)⟩
    rw [op.rank_tighter]
    exact Nat.succ_le_succ top
  induction hl with
  | number | var | group | call | neg =>
    have : 3 ≤ op.form.rank := Nat.le_trans (by decide) le
    omega
  | @binary op' ls rs' l r hl hr' _ ih =>
    by_cases same : op'.form = op.form
    · exact whole same (.binary op' hl hr')
    · have lt := Nat.lt_of_le_of_ne le fun ranks => same (Form.rank_injective ranks)
      obtain ⟨e, he⟩ := ih (Form.rank_tighter_le lt)
      exact ⟨_, by simpa using Derives.binary op' hl he⟩
  | @loosen f ls l hl ih =>
    by_cases same : f = op.form
    · exact whole same (.loosen hl)
    · have lt := Nat.lt_of_le_of_ne le fun ranks => same (Form.rank_injective ranks)
      obtain ⟨e, he⟩ := ih (Form.rank_tighter_le lt)
      exact ⟨e, .loosen he⟩

/-- With any expression of the form in addition, the tokens form an expression. -/
def Awaits (f : Form) (ts : List Token) : Prop := ∀ us e, Derives f us e → Accepted (ts ++ us)

namespace Awaits

variable {ts : List Token}

theorem nil : Awaits .term [] := fun _ e h => ⟨e, h.of_le (by decide)⟩

theorem primary (h : Awaits .term ts) : Awaits .primary ts := fun us e hu => h us e (.loosen hu)

theorem minus (h : Awaits .term ts) : Awaits .primary (ts ++ [.operator .minus]) := by
  intro us e hu
  simpa using h _ _ hu.neg

theorem operator (h : Accepted ts) (op : Operator) : Awaits .term (ts ++ [.operator op]) := by
  intro us e hu
  obtain ⟨l, hl⟩ := h
  obtain ⟨e', he'⟩ := hl.append_operand (Nat.zero_le _) hu
  exact ⟨e', by simpa using he'⟩

end Awaits

/-! ## Open parentheses -/

/-- The tokens open the enclosures, and an expression may come after them. Arguments before it are
followed by commas. -/
inductive Enclosed : List Enclosure → List Token → Prop where
  | outside : Enclosed [] []
  | group {es : List Enclosure} {ts cur : List Token} :
    Enclosed es ts → Awaits .primary cur → Enclosed (.group :: es) (ts ++ cur ++ [.openParen])
  | call {es : List Enclosure} {ts cur : List Token} (f : Aggregate)
    (args : List (List Token × Expr)) :
    Enclosed es ts → Awaits .primary cur → (∀ a ∈ args, Derives .sum a.1 a.2) →
    Enclosed (.call :: es)
      (ts ++ cur ++ .name f.name :: .openParen :: args.flatMap fun a => a.1 ++ [.comma])

theorem joined_concat (args : List (List Token × Expr)) (cur : List Token) (e : Expr) :
    [Token.comma].intercalate ((args ++ [(cur, e)]).map Prod.fst) =
      args.flatMap (fun a => a.1 ++ [.comma]) ++ cur := by
  induction args with
  | nil => simp
  | cons a args ih =>
    have ne : (args ++ [(cur, e)]).map Prod.fst ≠ [] := by simp
    rw [List.cons_append, List.map_cons, joined_cons _ ne, ih]
    simp

theorem derives_concat {args : List (List Token × Expr)} {cur : List Token} {e : Expr}
    (derives : ∀ a ∈ args, Derives .sum a.1 a.2) (last : Derives .sum cur e) :
    ∀ a ∈ args ++ [(cur, e)], Derives .sum a.1 a.2 :=
  List.forall_mem_append.mpr ⟨derives, List.forall_mem_singleton.mpr last⟩

namespace Enclosed

variable {e : Enclosure} {es : List Enclosure} {ts cur : List Token}

theorem close (h : Enclosed (e :: es) ts) (inner : Accepted cur) :
    ∃ ts' cur', Enclosed es ts' ∧ Accepted cur' ∧ ts ++ cur ++ [.closeParen] = ts' ++ cur' := by
  obtain ⟨l, last⟩ := inner
  cases h with
  | @group _ ts before outer awaits =>
    exact ⟨ts, _, outer, awaits _ _ (.group last), by simp⟩
  | @call _ ts before f args outer awaits derives =>
    refine ⟨ts, _, outer, awaits _ _ (.call f _ (derives_concat derives last)), ?_⟩
    rw [joined_concat]
    simp

theorem comma (h : Enclosed (.call :: es) ts) (argument : Accepted cur) :
    Enclosed (.call :: es) (ts ++ cur ++ [.comma]) := by
  obtain ⟨l, last⟩ := argument
  cases h with
  | call f args outer awaits derives =>
    simpa using Enclosed.call f _ outer awaits (derives_concat derives last)

/-- An expression inside open parentheses is completed by closing them. -/
theorem viable (h : Enclosed es ts) (inner : Accepted cur) : Viable (ts ++ cur) := by
  induction es generalizing ts cur with
  | nil =>
    cases h
    exact inner.viable
  | cons e es ih =>
    obtain ⟨ts', cur', outer, closed, eq⟩ := h.close inner
    have completed := ih outer closed
    rw [← eq] at completed
    exact completed.of_append

theorem viable_of_append {us : List Token} (h : Enclosed es ts) (inner : Accepted (cur ++ us)) :
    Viable (ts ++ cur) := by
  have completed := h.viable inner
  rw [← List.append_assoc] at completed
  exact completed.of_append

end Enclosed

/-! ## What tokens lead to -/

/-- How tokens make a situation: those that open its enclosures, and those inside. -/
inductive Leads : List Token → Situation → Prop where
  | operand {es : List Enclosure} {ts cur : List Token} :
    Enclosed es ts → Awaits .term cur → Leads (ts ++ cur) ⟨.operand, es⟩
  | first {es : List Enclosure} {ts cur : List Token} (f : Aggregate) :
    Enclosed es ts → Awaits .primary cur →
    Leads (ts ++ cur ++ [.name f.name, .openParen]) ⟨.first, .call :: es⟩
  | negated {es : List Enclosure} {ts cur : List Token} :
    Enclosed es ts → Awaits .primary cur → Leads (ts ++ cur) ⟨.negated, es⟩
  | operator {es : List Enclosure} {ts cur : List Token} :
    Enclosed es ts → Accepted cur → Leads (ts ++ cur) ⟨.operator, es⟩
  | named {es : List Enclosure} {ts cur : List Token} (x : String) :
    Enclosed es ts → Awaits .primary cur → Leads (ts ++ cur ++ [.name x]) ⟨.named x, es⟩

namespace Leads

variable {es : List Enclosure} {ts cur us : List Token} {t : Token} {z z' : Situation}

theorem begins (h : Enclosed es ts) (awaits : Awaits .primary cur)
    (step : Situation.begins es t = some z) : Leads (ts ++ cur ++ [t]) z := by
  unfold Situation.begins at step
  split at step <;> cases step
  · next v =>
    rw [List.append_assoc]
    exact .operator h (awaits _ _ (.number v))
  · next x => exact .named x h awaits
  · simpa using Leads.operand (h.group awaits) .nil

theorem follows (h : Enclosed es ts) (accepted : Accepted cur)
    (step : Situation.follows es t = some z) : Leads (ts ++ cur ++ [t]) z := by
  unfold Situation.follows at step
  split at step <;> cases step
  · next op =>
    rw [List.append_assoc]
    exact .operand h (.operator accepted op)
  · obtain ⟨ts', cur', outer, closed, eq⟩ := h.close accepted
    rw [eq]
    exact .operator outer closed
  · simpa using Leads.operand (h.comma accepted) .nil

theorem opens {x : String} (h : Enclosed es ts) (awaits : Awaits .primary cur)
    (step : Situation.step ⟨.named x, es⟩ .openParen = some z) :
    Leads (ts ++ cur ++ [.name x] ++ [.openParen]) z := by
  obtain ⟨f, found, rfl⟩ := Option.map_eq_some_iff.mp step
  rw [Aggregate.ofName?_eq_some_iff.mp found]
  simpa using Leads.first f h awaits

theorem step (h : Leads ts z) (step : z.step t = some z') : Leads (ts ++ [t]) z' := by
  -- What may come in a place where an operand may.
  have operand {es : List Enclosure} {ts cur : List Token} {z' : Situation}
      (outer : Enclosed es ts) (awaits : Awaits .term cur)
      (step : Situation.step ⟨.operand, es⟩ t = some z') : Leads (ts ++ cur ++ [t]) z' := by
    by_cases minus : t = .operator .minus
    · rw [minus] at step ⊢
      cases step
      rw [List.append_assoc]
      exact .negated outer awaits.minus
    · rw [Situation.step_operand es minus] at step
      exact .begins outer awaits.primary step
  cases h with
  | operand outer awaits => exact operand outer awaits step
  | first f outer awaits =>
    by_cases close : t = .closeParen
    · rw [close] at step ⊢
      cases step
      have called : Accepted _ := awaits _ _ (.call f [] (by simp))
      simpa using Leads.operator outer called
    · rw [Situation.step_first _ close] at step
      have opened := outer.call f [] awaits (by simp)
      simpa using operand opened .nil step
  | negated outer awaits =>
    rw [Situation.step_negated] at step
    exact .begins outer awaits step
  | operator outer accepted =>
    rw [Situation.step_operator] at step
    exact .follows outer accepted step
  | named x outer awaits =>
    by_cases opens : t = .openParen
    · rw [opens] at step ⊢
      exact .opens outer awaits step
    · rw [Situation.step_named x _ opens] at step
      have read : Accepted _ := awaits _ _ (.var x)
      simpa using Leads.follows outer read step

theorem walk (h : Leads ts z) (walked : z.walk us = some z') : Leads (ts ++ us) z' := by
  induction us generalizing ts z with
  | nil =>
    cases walked
    rwa [List.append_nil]
  | cons u us ih =>
    obtain ⟨y, hy, walked⟩ := Option.bind_eq_some_iff.mp walked
    simpa using ih (h.step hy) walked

/-- What leads somewhere can be completed, with an operand if one is missing. -/
theorem viable (h : Leads ts z) : Viable ts := by
  have zero : Derives .primary [.number 0] (.number 0) := .number 0
  cases h with
  | operand outer awaits => exact outer.viable_of_append (awaits _ _ (.loosen zero))
  | @first es ts cur f outer awaits =>
    have called : Accepted (cur ++ [.name f.name, .openParen] ++ [.closeParen]) := by
      simpa using awaits _ _ (.call f [] (by simp))
    rw [List.append_assoc]
    exact outer.viable_of_append called
  | negated outer awaits => exact outer.viable_of_append (awaits _ _ zero)
  | operator outer accepted => exact outer.viable accepted
  | named x outer awaits =>
    rw [List.append_assoc]
    exact outer.viable (awaits _ _ (.var x))

theorem accepted (h : Leads ts z) (after : Situation.After [] z) : Accepted ts := by
  cases after with
  | operator =>
    cases h with
    | operator outer accepted =>
      cases outer
      exact accepted
  | named x =>
    cases h with
    | named x outer awaits =>
      cases outer
      exact awaits _ _ (.var x)

end Leads

open Situation

theorem leads_of_walk {ts : List Token} {z : Situation} (h : start.walk ts = some z) :
    Leads ts z := (Leads.operand .outside .nil).walk h

theorem viable_iff {ts : List Token} : Viable ts ↔ ∃ z, start.walk ts = some z := by
  constructor
  · intro h
    obtain ⟨us, e, he⟩ := h
    obtain ⟨⟨z, -, walked⟩, -⟩ := he.spans []
    obtain ⟨z', walked, -⟩ := exists_of_walk_append walked
    exact ⟨z', walked⟩
  · intro h
    obtain ⟨z, walked⟩ := h
    exact (leads_of_walk walked).viable

/-- The walk gets through an expression to the place after an operand, with nothing open. -/
theorem accepted_iff {ts : List Token} :
    Accepted ts ↔ ∃ z, start.walk ts = some z ∧ After [] z := by
  constructor
  · intro h
    obtain ⟨e, he⟩ := h
    obtain ⟨⟨z, after, walked⟩, -⟩ := he.spans []
    exact ⟨z, walked, after⟩
  · intro h
    obtain ⟨z, walked, after⟩ := h
    exact (leads_of_walk walked).accepted after

/-- A call may be without arguments, but there is one after each comma. -/
example :
    start.walk [.name "SUM", .openParen, .closeParen] = some ⟨.operator, []⟩ ∧
    start.walk [.name "SUM", .openParen, .name "A", .comma, .closeParen] = none := by decide

end Calculator
