import Calculator.Command.Basic
import Calculator.Proofs.Binding.Syntax
import Calculator.Proofs.Eval.Variables
import Calculator.Proofs.Phases
import Calculator.Proofs.Printer.RoundTrip

/-!
# Bindings and variables

A binding gives a value to a name, and an expression reads the values of its variables. The two are
read by different readers, one that trims and divides at an equals sign, and one that takes the
longest run of letters. Both have the same names, so every variable can be given a value, and every
name that is given one can be read.

1. `Binding.parse_render`: a binding is read from its text.
2. `parse_of_isName`: a name by itself is a variable.
3. `Env.get?_ofBindings`: of the bindings of a name the last one counts.
4. `names_are_variables`: the names of bindings are the variables of expressions.
-/

namespace Calculator

namespace Binding

/-- The binding as it is written, without blanks. -/
def render (b : Binding) : String := b.name ++ "=" ++ b.value.render

theorem isName_of_parse {text : String} {b : Binding} (h : parse text = .ok b) :
    isName b.name.toList = true := by
  have denotes := parse_eq_ok_iff.mp h
  exact isName_iff.mpr ⟨denotes.name_ne, denotes.letters⟩

theorem parse_render {b : Binding} (name : isName b.name.toList = true) :
    parse b.render = .ok b := by
  have written : b.render = "" ++ b.name ++ "" ++ "=" ++ "" ++ b.value.render ++ "" := by
    simp [render]
  rw [written]
  exact parse_between name (by simp) (by simp) (by simp) (by simp)

theorem mapM_parse_render {bs : List Binding} (names : ∀ b ∈ bs, isName b.name.toList = true) :
    (bs.map render).mapM parse = .ok bs := by
  induction bs with
  | nil => rfl
  | cons b bs ih =>
    obtain ⟨first, others⟩ := List.forall_mem_cons.mp names
    rw [List.map_cons, List.mapM_cons, parse_render first, ih others]
    rfl

end Binding

/-! ## Names by themselves -/

theorem tokenize_of_isName {x : String} (h : isName x.toList = true) :
    tokenize x = .ok [⟨0, .name x⟩] := by
  obtain ⟨ne, letters⟩ := isName_iff.mp h
  have run : scan 0 (x.toList ++ []) =
      (scan (0 + x.toList.length) []).cons ⟨0, .name (String.ofList x.toList)⟩ :=
    scan_name ne letters (by simp)
  rw [List.append_nil, scan_nil, String.ofList_toList] at run
  rw [tokenize, run]
  rfl

theorem parse_of_isName {x : String} (h : isName x.toList = true) : parse x = .ok (.var x) := by
  have derives : Derives .sum [.name x] (.var x) := (Derives.var x).of_le (Nat.zero_le _)
  have level : nesting [.name x] ≤ Limits.standard.nesting := by
    simp [Token.rise]
  exact parse_eq_ok_iff.mpr
    ⟨_, tokenize_of_isName h, derives, level, Limits.standard.height_pos⟩

theorem isName_of_mem_vars {src : String} {e : Expr} {x : String} (h : parse src = .ok e)
    (hx : x ∈ e.vars) : isName x.toList = true :=
  (everywhere_of_parse h).1 (.var x) (Expr.mem_vars.mp hx)

/-! ## Environments of bindings -/

namespace Env

theorem get?_ofBindings {before after : List Binding} {b : Binding}
    (last : ∀ b' ∈ after, b'.name ≠ b.name) :
    (ofBindings (before ++ b :: after)).get? b.name = some b.value := by
  have later : (after.map Binding.toPair).reverse.lookup b.name = none := by
    rw [List.lookup_eq_none_iff]
    intro p hp
    obtain ⟨b', hb', rfl⟩ := List.mem_map.mp (List.mem_reverse.mp hp)
    simpa [Binding.toPair] using (last b' hb').symm
  rw [ofBindings, ofList, get?_extend, List.map_append, List.map_cons, List.reverse_append,
    List.reverse_cons, List.append_assoc, List.lookup_append, later]
  simp [Binding.toPair]

theorem get?_ofBindings_ne_none {bs : List Binding} {b : Binding} (h : b ∈ bs) :
    (ofBindings bs).get? b.name ≠ none := by
  rw [ofBindings, ofList, get?_extend]
  intro absent
  obtain ⟨unwritten, -⟩ := Option.or_eq_none_iff.mp absent
  have other := List.lookup_eq_none_iff.mp unwritten b.toPair
    (List.mem_reverse.mpr (List.mem_map_of_mem h))
  simp [Binding.toPair] at other

end Env

/-! ## One set of names -/

/-- The names of bindings are the variables of expressions. A name that a binding gives a value is
one token and a variable by itself, and has the value of its last binding. Every variable of an
expression can be bound to every value, and where each has a binding none is missed. -/
theorem names_are_variables :
    (∀ x, (∃ text b, Binding.parse text = .ok b ∧ b.name = x) ↔
      ∃ src e, parse src = .ok e ∧ x ∈ e.vars) ∧
    (∀ text b, Binding.parse text = .ok b →
      tokenize b.name = .ok [⟨0, .name b.name⟩] ∧ parse b.name = .ok (.var b.name) ∧
      ∀ before after : List Binding, (∀ b' ∈ after, b'.name ≠ b.name) →
        evaluate b.name (.ofBindings (before ++ b :: after)) = .ok b.value) ∧
    ∀ src e, parse src = .ok e →
      (∀ x ∈ e.vars, ∀ v, Binding.parse (x ++ "=" ++ v.render) = .ok ⟨x, v⟩) ∧
      ∀ bs : List Binding, (∀ b ∈ bs, b.name ∈ e.vars) → (∀ x ∈ e.vars, ∃ b ∈ bs, b.name = x) →
        (bs.map Binding.render).mapM Binding.parse = .ok bs ∧
        ∀ x, e.eval (.ofBindings bs) ≠ .error (.undefinedVariable x) := by
  refine ⟨fun x => ⟨?_, ?_⟩, fun text b bound => ?_, fun src e read => ⟨?_, ?_⟩⟩
  · rintro ⟨text, b, bound, rfl⟩
    exact ⟨b.name, .var b.name, parse_of_isName (Binding.isName_of_parse bound), by simp⟩
  · rintro ⟨src, e, read, hx⟩
    exact ⟨_, ⟨x, 0⟩, Binding.parse_render (isName_of_mem_vars read hx), rfl⟩
  · have name := Binding.isName_of_parse bound
    have single := parse_of_isName name
    refine ⟨tokenize_of_isName name, single, fun before after last => ?_⟩
    rw [evaluate_of_parse_ok single, Expr.eval_var, Env.get?_ofBindings last]
  · intro x hx v
    exact Binding.parse_render (b := ⟨x, v⟩) (isName_of_mem_vars read hx)
  · intro bs only all
    refine ⟨Binding.mapM_parse_render fun b hb => isName_of_mem_vars read (only b hb), ?_⟩
    intro x missed
    obtain ⟨hx, none⟩ := Expr.eval_eq_undefinedVariable missed
    obtain ⟨b, hb, rfl⟩ := all x hx
    exact Env.get?_ofBindings_ne_none hb none

/-- Blanks around a name are no part of it, of two bindings the last one counts, and the smallest
value can be bound. -/
theorem names_are_variables_product :
    let b : Binding := ⟨"Rate", .least⟩
    let e : Expr := .binary .times (.var "a") (.neg (.var "b"))
    Binding.parse " Rate\t= -9223372036854775808 " = .ok b ∧ parse b.name = .ok (.var b.name) ∧
    evaluate b.name (.ofBindings [⟨"Rate", 0⟩, b, ⟨"rate", 0⟩]) = .ok .least ∧
    parse "a*-b" = .ok e ∧ Binding.parse "b=-9223372036854775808" = .ok ⟨"b", .least⟩ ∧
    ∀ x, e.eval (.ofBindings [⟨"b", .least⟩, ⟨"a", 0⟩]) ≠ .error (.undefinedVariable x) := by
  intro b e
  obtain ⟨-, names, vars⟩ := names_are_variables
  have bound : Binding.parse " Rate\t= -9223372036854775808 " = .ok b := by decide +kernel
  have read : parse "a*-b" = .ok e := by decide +kernel
  obtain ⟨-, single, last⟩ := names _ b bound
  obtain ⟨inverse, all⟩ := vars _ e read
  refine ⟨bound, single, last [⟨"Rate", 0⟩] [⟨"rate", 0⟩] (by decide +kernel), read, ?_, ?_⟩
  · exact inverse "b" (by decide +kernel) .least
  · exact (all _ (by decide +kernel) (by decide +kernel)).2

end Calculator
