import Calculator.Value

/-!
# Environments

The values of variables. An environment is a finite map from names, which may be any text; the last
value given to a name is the one it has. It is kept as a list in strictly increasing order of names,
so two environments with the same values are equal as data, whatever was written in what order.

1. `Env.exchange_fst`: what a write gives back is the value that the name had.
2. `Env.get?_insert`: a write sets its own name and no other.
3. `Env.get?_extend`: of writes in a row the last one counts.
4. `Env.ext_get?`: environments that agree on every name are equal.
-/

namespace Calculator

/-! ## Lists in order -/

abbrev Bindings := List (String × Value)

namespace Bindings

/-- In strictly increasing order of names. -/
def Increasing (bs : Bindings) : Prop := bs.Pairwise fun a b => a.1 < b.1

instance (bs : Bindings) : Decidable bs.Increasing :=
  inferInstanceAs (Decidable (bs.Pairwise fun a b => a.1 < b.1))

def find? (x : String) : Bindings → Option Value
  | [] => none
  | (y, w) :: rest => if x = y then some w else find? x rest

/-- Writes into a list in order. The first component is the value that the name had. -/
def put (x : String) (v : Value) : Bindings → Option Value × Bindings
  | [] => (none, [(x, v)])
  | (y, w) :: rest =>
    if x < y then (none, (x, v) :: (y, w) :: rest)
    else if x = y then (some w, (x, v) :: rest)
    else ((put x v rest).1, (y, w) :: (put x v rest).2)

theorem Increasing.head_lt {y : String} {w : Value} {rest : Bindings}
    (h : Increasing ((y, w) :: rest)) : ∀ b ∈ rest, y < b.1 := (List.pairwise_cons.mp h).1

theorem Increasing.tail {b : String × Value} {rest : Bindings} (h : Increasing (b :: rest)) :
    Increasing rest := (List.pairwise_cons.mp h).2

theorem find?_eq_none {x : String} {bs : Bindings} (h : ∀ b ∈ bs, x < b.1) :
    find? x bs = none := by
  induction bs with
  | nil => rfl
  | cons b rest ih =>
    have ne : x ≠ b.1 := fun e => String.lt_irrefl b.1 (e ▸ h b List.mem_cons_self)
    simp only [find?, ne, if_false]
    exact ih fun c hc => h c (List.mem_cons_of_mem b hc)

theorem mem_put {x : String} {v : Value} {bs : Bindings} {b : String × Value}
    (h : b ∈ (put x v bs).2) : b = (x, v) ∨ b ∈ bs := by
  induction bs with
  | nil => exact .inl (List.mem_singleton.mp h)
  | cons a rest ih =>
    unfold put at h
    split at h
    · exact List.mem_cons.mp h
    · split at h
      · exact (List.mem_cons.mp h).imp_right (List.mem_cons_of_mem a)
      · rcases List.mem_cons.mp h with rfl | h
        · exact .inr List.mem_cons_self
        · exact (ih h).imp_right (List.mem_cons_of_mem a)

theorem Increasing.put {x : String} {v : Value} {bs : Bindings} (h : bs.Increasing) :
    (put x v bs).2.Increasing := by
  induction bs with
  | nil => exact List.pairwise_singleton _ _
  | cons a rest ih =>
    unfold Bindings.put
    split
    · next lt =>
      refine List.pairwise_cons.mpr ⟨fun b hb => ?_, h⟩
      rcases List.mem_cons.mp hb with rfl | hb
      · exact lt
      · exact String.lt_trans lt (h.head_lt b hb)
    · next nlt =>
      split
      · next eq => exact List.pairwise_cons.mpr ⟨fun b hb => eq ▸ h.head_lt b hb, h.tail⟩
      · next ne =>
        refine List.pairwise_cons.mpr ⟨fun b hb => ?_, ih h.tail⟩
        rcases mem_put hb with rfl | hb
        · exact String.not_le.mp fun le => ne (String.le_antisymm le (String.not_lt.mp nlt))
        · exact h.head_lt b hb

theorem put_fst {x : String} {v : Value} {bs : Bindings} (h : bs.Increasing) :
    (put x v bs).1 = find? x bs := by
  induction bs with
  | nil => rfl
  | cons a rest ih =>
    unfold put
    split
    · next lt =>
      refine (find?_eq_none fun b hb => ?_).symm
      rcases List.mem_cons.mp hb with rfl | hb
      · exact lt
      · exact String.lt_trans lt (h.head_lt b hb)
    · split
      · next eq => simp only [find?, eq, if_true]
      · next ne => simp only [find?, ne, if_false, ih h.tail]

theorem find?_put (x y : String) (v : Value) (bs : Bindings) :
    find? y (put x v bs).2 = if y = x then some v else find? y bs := by
  induction bs with
  | nil => rfl
  | cons a rest ih =>
    unfold put
    split
    · rfl
    · split
      · next eq => by_cases h : y = x <;> simp [find?, h, ← eq]
      · next ne =>
        by_cases h : y = a.1
        · simp [find?, h, Ne.symm ne]
        · simp [find?, h, ih]

theorem Increasing.ext {as bs : Bindings} (ha : as.Increasing) (hb : bs.Increasing)
    (h : ∀ x, find? x as = find? x bs) : as = bs := by
  induction as generalizing bs with
  | nil =>
    cases bs with
    | nil => rfl
    | cons b bs => simpa [find?] using h b.1
  | cons a as ih =>
    cases bs with
    | nil => simpa [find?] using h a.1
    | cons b bs =>
      have first : a.1 = b.1 := by
        refine Classical.byContradiction fun ne => ?_
        by_cases lt : a.1 < b.1
        · have := h a.1
          rw [find?, if_pos rfl, find?, if_neg ne,
            find?_eq_none fun c hc => String.lt_trans lt (hb.head_lt c hc)] at this
          exact absurd this (by simp)
        · have gt : b.1 < a.1 :=
            String.not_le.mp fun le => ne (String.le_antisymm le (String.not_lt.mp lt))
          have := h b.1
          rw [find?, if_neg (Ne.symm ne), find?, if_pos rfl,
            find?_eq_none fun c hc => String.lt_trans gt (ha.head_lt c hc)] at this
          exact absurd this (by simp)
      obtain ⟨x, v⟩ := a
      obtain ⟨y, w⟩ := b
      cases first
      have second : v = w := by simpa [find?] using h x
      cases second
      refine congrArg _ (ih ha.tail hb.tail fun z => ?_)
      by_cases hz : z = x
      · rw [hz, find?_eq_none ha.head_lt, find?_eq_none hb.head_lt]
      · simpa [find?, hz] using h z

end Bindings

/-! ## Environments -/

/-- A finite map from names to values. -/
structure Env where
  /-- The names with their values. -/
  bindings : Bindings
  increasing : bindings.Increasing
  deriving DecidableEq

namespace Env

def empty : Env := ⟨[], List.Pairwise.nil⟩

instance : EmptyCollection Env := ⟨empty⟩

def get? (env : Env) (x : String) : Option Value := env.bindings.find? x

def contains (env : Env) (x : String) : Bool := env.bindings.any fun b => b.1 == x

def size (env : Env) : Nat := env.bindings.length

def isEmpty (env : Env) : Bool := env.bindings.isEmpty

/-- Gives the name a value, and tells which one it had. -/
def exchange (env : Env) (x : String) (v : Value) : Option Value × Env :=
  ((env.bindings.put x v).1, ⟨(env.bindings.put x v).2, env.increasing.put⟩)

def insert (env : Env) (x : String) (v : Value) : Env := (env.exchange x v).2

/-- Writes the pairs one after the other. -/
def extend (env : Env) (pairs : List (String × Value)) : Env :=
  pairs.foldl (fun env p => env.insert p.1 p.2) env

/-- The environment of the pairs, a later one overriding an earlier one. -/
def ofList (pairs : List (String × Value)) : Env := empty.extend pairs

@[simp] theorem get?_empty (x : String) : empty.get? x = none := rfl

theorem exchange_fst (env : Env) (x : String) (v : Value) :
    (env.exchange x v).1 = env.get? x := Bindings.put_fst env.increasing

/-- A write sets its own name and leaves every other as it was. -/
@[simp] theorem get?_insert (env : Env) (x y : String) (v : Value) :
    (env.insert x v).get? y = if y = x then some v else env.get? y :=
  Bindings.find?_put x y v env.bindings

/-- After writes in a row a name has the value that was written to it last, if any was. -/
theorem get?_extend (env : Env) (pairs : List (String × Value)) (x : String) :
    (env.extend pairs).get? x = (pairs.reverse.lookup x).or (env.get? x) := by
  induction pairs generalizing env with
  | nil => rfl
  | cons p pairs ih =>
    obtain ⟨y, v⟩ := p
    have next : (env.extend ((y, v) :: pairs)).get? x = ((env.insert y v).extend pairs).get? x :=
      rfl
    rw [next, ih, get?_insert, List.reverse_cons, List.lookup_append, Option.or_assoc]
    have last : [(y, v)].lookup x = if x = y then some v else none := by
      by_cases eq : x = y
      · rw [if_pos eq, List.lookup_cons, beq_iff_eq.mpr eq]
      · rw [if_neg eq, List.lookup_cons, beq_false_of_ne eq]
        rfl
    rw [last]
    split <;> rfl

theorem ext_get? {a b : Env} (h : ∀ x, a.get? x = b.get? x) : a = b := by
  have := a.increasing.ext b.increasing h
  cases a; cases b; cases this; rfl

end Env

end Calculator
