import Calculator.Env

/-!
# Histories of environments

What an environment holds after any steps: made anew or from pairs, written to one pair at a time or
many, kept as a copy and brought back. The pairs that were written to it are found by looking back
through the history, up to where the environment was replaced; where a copy was brought back, the
search goes on from where the copy was kept. These pairs say all that there is to know of the
environment.

1. `Env.run`: the environments of a history, step by step.
2. `Env.written`: the pairs written to the environment in use, by looking back.
3. `Env.run_eq`: every environment is the one that is made from the pairs written to it.
4. `env_last_write_wins`: what this means for look-ups, sizes, batches and equality.
-/

namespace Calculator

/-! ## Histories -/

/-- One in use, and copies kept in numbered places. -/
@[ext] structure Kept (α : Type) where
  current : α
  copies : Nat → α

namespace Kept

variable {α : Type}

def everywhere (a : α) : Kept α := ⟨a, fun _ => a⟩

def change (f : α → α) (k : Kept α) : Kept α := { k with current := f k.current }

def save (place : Nat) (k : Kept α) : Kept α :=
  { k with copies := fun i => if i = place then k.current else k.copies i }

def restore (place : Nat) (k : Kept α) : Kept α := { k with current := k.copies place }

end Kept

namespace Env

inductive Step where
  | new
  | collect (pairs : Bindings)
  | extend (pairs : Bindings)
  | insert (name : String) (value : Value)
  | save (place : Nat)
  | restore (place : Nat)

def Step.apply : Step → Kept Env → Kept Env
  | new => Kept.change fun _ => .empty
  | collect pairs => Kept.change fun _ => .ofList pairs
  | extend pairs => Kept.change fun env => env.extend pairs
  | insert x v => Kept.change fun env => env.insert x v
  | save place => Kept.save place
  | restore place => Kept.restore place

/-- The environments after a history, all empty before it. -/
def run (history : List Step) : Kept Env :=
  history.foldl (fun k step => step.apply k) (.everywhere .empty)

mutual

/-- The pairs written to the environment in use, in order, since it was last replaced. The steps are
those of the history, the last one first. -/
def lookBack : List Step → Bindings
  | [] => []
  | .new :: _ => []
  | .collect pairs :: _ => pairs
  | .extend pairs :: earlier => lookBack earlier ++ pairs
  | .insert x v :: earlier => lookBack earlier ++ [(x, v)]
  | .save _ :: earlier => lookBack earlier
  | .restore place :: earlier => lookBackAt place earlier

/-- The pairs that had been written when a copy was last kept in the place. -/
def lookBackAt : Nat → List Step → Bindings
  | _, [] => []
  | place, .save i :: earlier => if place = i then lookBack earlier else lookBackAt place earlier
  | place, .new :: earlier | place, .collect _ :: earlier | place, .extend _ :: earlier
  | place, .insert _ _ :: earlier | place, .restore _ :: earlier => lookBackAt place earlier

end

/-- The pairs written to the environment in use since it was last replaced. -/
def written (history : List Step) : Bindings := lookBack history.reverse

theorem run_append (history more : List Step) :
    run (history ++ more) = more.foldl (fun k step => step.apply k) (run history) :=
  List.foldl_append

/-! ## Environments from what was written -/

theorem ofList_append (pairs more : Bindings) :
    ofList (pairs ++ more) = (ofList pairs).extend more :=
  List.foldl_append

/-- The environments of a history are those made from the pairs that looking back finds. -/
theorem run_reverse (steps : List Step) :
    run steps.reverse =
      ⟨ofList (lookBack steps), fun place => ofList (lookBackAt place steps)⟩ := by
  induction steps with
  | nil => rfl
  | cons step earlier ih =>
    rw [List.reverse_cons, run_append, ih, List.foldl_cons, List.foldl_nil]
    cases step with
    | new | collect pairs | restore place => rfl
    | extend pairs => exact Kept.ext (ofList_append _ _).symm rfl
    | insert x v => exact Kept.ext (ofList_append _ [(x, v)]).symm rfl
    | save i =>
      refine Kept.ext rfl (funext fun place => ?_)
      exact (apply_ite ofList _ _ _).symm

theorem run_eq (history : List Step) : (run history).current = ofList (written history) := by
  have found := run_reverse history.reverse
  rw [List.reverse_reverse] at found
  rw [found, written]

theorem apply_extend (pairs : Bindings) (k : Kept Env) :
    (Step.extend pairs).apply k =
      (pairs.map fun p => Step.insert p.1 p.2).foldl (fun k step => step.apply k) k := by
  induction pairs generalizing k with
  | nil => rfl
  | cons p pairs ih =>
    rw [List.map_cons, List.foldl_cons, ← ih]
    rfl

/-! ## Names -/

def names (env : Env) : List String := env.bindings.map Prod.fst

theorem nodup_names (env : Env) : env.names.Nodup := by
  rw [names, List.Nodup, List.pairwise_map]
  exact env.increasing.imp fun lt => String.ne_of_lt lt

theorem mem_names {env : Env} {x : String} : x ∈ env.names ↔ (env.get? x).isSome = true := by
  rw [names, get?]
  induction env.bindings with
  | nil => simp [Bindings.find?]
  | cons b rest ih =>
    by_cases eq : x = b.1
    · simp [Bindings.find?, eq]
    · simp [Bindings.find?, eq, ← ih]

theorem contains_iff {env : Env} {x : String} :
    env.contains x = true ↔ (env.get? x).isSome = true := by
  rw [← mem_names, contains, names, List.any_eq_true, List.mem_map]
  simp only [beq_iff_eq]

end Env

/-- An environment is a map in which the last write to a name counts, whatever its history. A name
has the value that was written to it last since the environment was replaced. The size is the number
of names that have a value. A single write gives back the value before it, and leaves other names as
they were. Writing pairs at once is writing them one by one, and making an environment from pairs is
making it from the first of them and writing the others. Environments of any two histories are equal
if they give the same value to every name. -/
theorem env_last_write_wins (history : List Env.Step) :
    let env := (Env.run history).current
    (∀ x, env.get? x = (Env.written history).reverse.lookup x) ∧
    (∀ x, env.contains x = true ↔ (env.get? x).isSome = true) ∧
    (∃ names : List String, names.Nodup ∧ (∀ x, x ∈ names ↔ (env.get? x).isSome = true) ∧
      env.size = names.length) ∧
    (env.isEmpty = true ↔ env.size = 0) ∧
    (∀ x v, (env.exchange x v).1 = env.get? x ∧
      ∀ y, (env.exchange x v).2.get? y = if y = x then some v else env.get? y) ∧
    (∀ pairs, Env.run (history ++ [.extend pairs]) =
      Env.run (history ++ pairs.map fun p => .insert p.1 p.2)) ∧
    (∀ pairs more, Env.run (history ++ [.collect (pairs ++ more)]) =
      Env.run (history ++ [.collect pairs, .extend more])) ∧
    ∀ history', env = (Env.run history').current ↔
      ∀ x, env.get? x = (Env.run history').current.get? x := by
  intro env
  refine ⟨fun x => ?_, fun x => Env.contains_iff, ?_, ?_,
    fun x v => ⟨env.exchange_fst x v, fun y => ?_⟩, fun pairs => ?_, fun pairs more => ?_,
    fun history' => ?_⟩
  · have made : env = Env.ofList (Env.written history) := Env.run_eq history
    rw [made, Env.ofList, Env.get?_extend, Env.get?_empty, Option.or_none]
  · exact ⟨env.names, env.nodup_names, fun x => Env.mem_names, (List.length_map _).symm⟩
  · rw [Env.isEmpty, Env.size, List.isEmpty_iff, List.length_eq_zero_iff]
  · exact env.get?_insert x y v
  · rw [Env.run_append, Env.run_append]
    exact Env.apply_extend pairs _
  · rw [Env.run_append, Env.run_append]
    show Kept.change (fun _ => Env.ofList (pairs ++ more)) _ = _
    rw [Env.ofList_append]
    rfl
  · exact ⟨fun same x => by rw [same], Env.ext_get?⟩

/-- A copy keeps what was written to it, and the order of the first writes leaves no trace. -/
example :
    (Env.run [.insert "B" 0, .extend [("A", .least), ("B", .greatest)], .save 0, .new,
      .insert "C" 0, .restore 0, .insert "A" 0]).current =
      (Env.run [.collect [("A", 0), ("B", .greatest)]]).current := by decide +kernel

end Calculator
