import Calculator.Proofs.Parser.Failing
import Mathlib.Control.Monad.Basic

/-!
# What syntax errors report

A syntax error points at the first token that no expression goes on with, and names alternatives
that expressions do go on with. It names all of them but two: the parenthesis of a call directly
after a name, and the end of a call directly after its parenthesis.

1. `Situation.step_iff`: the tokens that may come are those that an alternative names, and two more.
2. `syntax_error_at_first_wrong_token`: where errors point, and that their alternatives are right.
3. `syntax_error_names_alternatives`: which alternatives errors name.
-/

namespace Calculator

/-! ## Alternatives and continuations -/

/-- With the alternative, the tokens begin an expression; with the end of the input they form one.
-/
def Expectation.Continues (ts : List Token) : Expectation → Prop
  | .endOfInput => Accepted ts
  | a => ∀ t, a.names t = true → Viable (ts ++ [t])

/-- The tokens end with the name of a function and the parenthesis of its call. -/
def OpensCall (ts : List Token) : Prop :=
  ∃ us, ∃ f : Aggregate, ts = us ++ [.name f.name, .openParen]

namespace Situation

variable {z z' : Situation} {es : List Enclosure} {ts : List Token} {t : Token}

theorem begins_iff : (∃ z, begins es t = some z) ↔
    ∃ a ∈ [Expectation.integer, .identifier, .openParen], a.names t = true := by
  cases t <;> simp [begins, Expectation.names]

theorem follows_iff : (∃ z, follows es t = some z) ↔
    ∃ a ∈ expectedAfter es, a.names t = true := by
  rcases es with _ | ⟨_ | _, es⟩ <;> cases t <;> simp [follows, expectedAfter, Expectation.names]

/-- The tokens that may come are those that an alternative is a name for, the end of a call without
arguments, and the parenthesis of a call. -/
theorem step_iff : (∃ z', z.step t = some z') ↔
    (∃ a ∈ z.expected, a.names t = true) ∨ (z.stage = .first ∧ t = .closeParen) ∨
      (t = .openParen ∧ ∃ f : Aggregate, z.stage = .named f.name) := by
  obtain ⟨stage, es⟩ := z
  cases stage with
  | operand | first =>
    cases t with
    | operator op => cases op <;> simp [step, begins, Expectation.names, expected]
    | _ => simp [step, begins, Expectation.names, expected]
  | negated => simp [step_negated, begins_iff, expected]
  | operator => simp [step_operator, follows_iff, expected]
  | named x =>
    by_cases opens : t = .openParen
    · have calls : (∃ z', step ⟨.named x, es⟩ .openParen = some z') ↔
          ∃ f : Aggregate, x = f.name := by
        simp [step, ← Aggregate.ofName?_eq_some_iff]
      have unnamed : ¬ ∃ a ∈ expectedAfter es, a.names .openParen = true := by
        rw [← follows_iff]
        rcases es with _ | ⟨_ | _, es⟩ <;> simp [follows]
      simp [opens, calls, unnamed, expected]
    · simp [step_named x es opens, follows_iff, opens, expected]

theorem endOfInput_mem_expectedAfter : .endOfInput ∈ expectedAfter es ↔ es = [] := by
  rcases es with _ | ⟨_ | _, es⟩ <;> simp [expectedAfter]

theorem endOfInput_mem_expected : .endOfInput ∈ z.expected ↔ After [] z := by
  obtain ⟨stage, es⟩ := z
  constructor
  · intro mem
    cases stage with
    | operator =>
      obtain rfl := endOfInput_mem_expectedAfter.mp mem
      exact .operator
    | named x =>
      obtain rfl := endOfInput_mem_expectedAfter.mp mem
      exact .named x
    | _ => simp [expected] at mem
  · intro after
    cases after <;> exact endOfInput_mem_expectedAfter.mpr rfl

/-- What goes on with viable tokens is what may come after them. -/
theorem viable_concat_iff (walked : start.walk ts = some z) :
    Viable (ts ++ [t]) ↔ ∃ z', z.step t = some z' := by
  rw [viable_iff, walk_append walked]
  simp [walk_cons, walk_nil]

theorem accepted_iff_after (walked : start.walk ts = some z) : Accepted ts ↔ After [] z := by
  rw [accepted_iff, walked]
  simp

theorem continues (walked : start.walk ts = some z) {a : Expectation} (mem : a ∈ z.expected) :
    a.Continues ts := by
  cases a with
  | endOfInput => exact (accepted_iff_after walked).mpr (endOfInput_mem_expected.mp mem)
  | _ =>
    intro t names
    exact (viable_concat_iff walked).mpr (step_iff.mpr (.inl ⟨_, mem, names⟩))

theorem eq_named_of_step {x : String} (h : z.step (.name x) = some z') :
    z' = ⟨.named x, z.enclosures⟩ := by
  obtain ⟨stage, es⟩ := z
  cases stage with
  | operator | named _ => rcases es with _ | ⟨_ | _, es⟩ <;> cases h
  | _ =>
    cases h
    rfl

theorem exists_name_of_stage {x : String} (walked : start.walk ts = some z)
    (named : z.stage = .named x) : ∃ us, ts = us ++ [.name x] := by
  cases leads_of_walk walked with
  | named x' =>
    cases named
    exact ⟨_, rfl⟩
  | _ => cases named

theorem stage_eq_first_iff (walked : start.walk ts = some z) :
    z.stage = .first ↔ OpensCall ts := by
  constructor
  · intro first
    cases leads_of_walk walked with
    | @first es us cur f => exact ⟨us ++ cur, f, rfl⟩
    | _ => cases first
  · rintro ⟨us, f, rfl⟩
    obtain ⟨y, -, walked⟩ := exists_of_walk_append walked
    obtain ⟨y', named, walked⟩ := Option.bind_eq_some_iff.mp walked
    obtain rfl := eq_named_of_step named
    obtain ⟨z', opened, walked⟩ := Option.bind_eq_some_iff.mp walked
    obtain ⟨-, -, rfl⟩ := Option.map_eq_some_iff.mp opened
    cases walked
    rfl

end Situation

open Situation

/-! ## The first wrong token -/

/-- The first token that is wrong comes after `before`: what is before it begins an expression, and
with it no expression begins. Where no token is left, the end of the input is wrong. -/
inductive FirstWrong (src : String) (before : List Lexeme) :
    (after : List Lexeme) → (position : Nat) → (found : String) → Prop where
  | token {l : Lexeme} {after : List Lexeme} :
    Viable (before.map Lexeme.token) → ¬ Viable ((before ++ [l]).map Lexeme.token) →
    FirstWrong src before (l :: after) l.offset l.token.quoted
  | ending :
    Viable (before.map Lexeme.token) → ¬ Accepted (before.map Lexeme.token) →
    FirstWrong src before [] src.utf8ByteSize "end of input"

namespace Parser

variable {src : String} {s' : State}

/-- What is refused after the lexemes before it is wrong there, and nothing before it is. -/
theorem firstWrong_of_refused {before : List Lexeme} {z : Situation}
    (walked : start.walk (before.map Lexeme.token) = some z) (stop : s'.stop = src.utf8ByteSize)
    (refused : ¬ z.Takes s'.next) (expected : List Expectation) :
    ∃ found, (Failure.unexpected s'.position s'.next expected).toError src.utf8ByteSize =
      .unexpected s'.position found (expected.map Expectation.label) ∧
      FirstWrong src before s'.rest s'.position found := by
  have viable : Viable (before.map Lexeme.token) := viable_iff.mpr ⟨z, walked⟩
  obtain ⟨limits, rest, size, depth, stop', calls⟩ := s'
  cases rest with
  | nil =>
    refine ⟨_, rfl, ?_⟩
    have wrong : ¬ Accepted (before.map Lexeme.token) := by
      rwa [accepted_iff_after walked]
    obtain rfl : stop' = src.utf8ByteSize := stop
    exact .ending viable wrong
  | cons l after =>
    refine ⟨_, rfl, .token viable ?_⟩
    rw [List.map_append, List.map_singleton, viable_concat_iff walked]
    exact refused

end Parser

section

variable {src : String} {lexemes : List Lexeme}

/-- How the failure of a source is found: the lexemes before it are walked, and it blames the
situation that they lead to. -/
theorem parse_eq_error (tokens : tokenize src = .ok lexemes) {err : Error}
    (h : parse src = .error err) :
    ∃ failure s' before z, err = failure.toError src.utf8ByteSize ∧
      lexemes = before ++ s'.rest ∧ start.walk (before.map Lexeme.token) = some z ∧
      s'.stop = src.utf8ByteSize ∧ Parser.Blames z s' failure := by
  rw [parse_of_tokenize tokens] at h
  obtain ⟨before, s', failure, fails, eq, -⟩ := parseLexemes_fails h
  obtain ⟨z, walked, blames⟩ := fails.blames
  exact ⟨failure, s', before, z, eq, fails.passed, walked, fails.stop, blames⟩

theorem parse_eq_unexpected (tokens : tokenize src = .ok lexemes) {position : Nat} {found : String}
    {expected : List String} (h : parse src = .error (.unexpected position found expected)) :
    ∃ before after z, lexemes = before ++ after ∧
      start.walk (before.map Lexeme.token) = some z ∧ FirstWrong src before after position found ∧
      expected = z.expected.map Expectation.label := by
  obtain ⟨failure, s', before, z, eq, split, walked, stop, blames⟩ := parse_eq_error tokens h
  cases failure with
  | unexpected p next alternatives =>
    obtain ⟨rfl, rfl, rfl, refused⟩ := blames
    obtain ⟨found', error, wrong⟩ :=
      Parser.firstWrong_of_refused walked stop refused z.expected
    rw [error] at eq
    cases eq
    exact ⟨before, s'.rest, z, split, walked, wrong, rfl⟩
  | unknownFunction | tooNested | tooHigh | exhausted => cases eq

/-- A syntax error points at the first wrong token, or at the end, and an expression can go on with
every alternative that it names. A name in the place of a function is none, and what is before it
begins an expression. -/
theorem syntax_error_at_first_wrong_token (tokens : tokenize src = .ok lexemes) :
    (∀ position found expected, parse src = .error (.unexpected position found expected) →
      ∃ (before after : List Lexeme) (alternatives : List Expectation), lexemes = before ++ after ∧
        FirstWrong src before after position found ∧
        expected = alternatives.map Expectation.label ∧
        ∀ a ∈ alternatives, a.Continues (before.map Lexeme.token)) ∧
    (∀ name position, parse src = .error (.unknownFunction name position) →
      ∃ before offset after,
        lexemes = before ++ ⟨position, .name name⟩ :: ⟨offset, .openParen⟩ :: after ∧
        name ≠ "SUM" ∧ name ≠ "AVERAGE" ∧ Viable (before.map Lexeme.token)) := by
  constructor
  · intro position found expected h
    obtain ⟨before, after, z, split, walked, wrong, eq⟩ := parse_eq_unexpected tokens h
    exact ⟨before, after, z.expected, split, wrong, eq, fun a mem => continues walked mem⟩
  · intro name position h
    obtain ⟨failure, s', before, z, eq, split, walked, -, blames⟩ := parse_eq_error tokens h
    cases failure with
    | unexpected p next alternatives => cases next <;> cases eq
    | tooNested | tooHigh | exhausted => cases eq
    | unknownFunction x p =>
      cases eq
      obtain ⟨unknown, after, offset, here⟩ := blames
      have other (f : Aggregate) : name ≠ f.name := by
        intro called
        rw [Aggregate.ofName?_eq_some_iff.mpr called] at unknown
        cases unknown
      exact ⟨before, offset, after, by rw [split, here], other .sum, other .average,
        viable_iff.mpr ⟨z, walked⟩⟩

/-- A token where an argument has to end, and a name that is no function. -/
theorem syntax_error_at_first_wrong_token_argument :
    parse "SUM(A B" = .error (.unexpected 6 "`B`" ["operator", "`,`", "`)`"]) ∧
    (∃ (before after : List Lexeme) (alternatives : List Expectation),
      [⟨0, .name "SUM"⟩, ⟨3, .openParen⟩, ⟨4, .name "A"⟩, ⟨6, .name "B"⟩] = before ++ after ∧
      FirstWrong "SUM(A B" before after 6 "`B`" ∧
      ["operator", "`,`", "`)`"] = alternatives.map Expectation.label ∧
      ∀ a ∈ alternatives, a.Continues (before.map Lexeme.token)) ∧
    parse "-F(" = .error (.unknownFunction "F" 1) ∧
    ∃ before offset after,
      [⟨0, .operator .minus⟩, ⟨1, .name "F"⟩, ⟨2, .openParen⟩] =
        before ++ ⟨1, .name "F"⟩ :: ⟨offset, .openParen⟩ :: after ∧
      "F" ≠ "SUM" ∧ "F" ≠ "AVERAGE" ∧ Viable (before.map Lexeme.token) := by
  have failed : parse "SUM(A B" = .error (.unexpected 6 "`B`" ["operator", "`,`", "`)`"]) := by
    decide +kernel
  have failed' : parse "-F(" = .error (.unknownFunction "F" 1) := by decide +kernel
  exact ⟨failed, (syntax_error_at_first_wrong_token (by decide +kernel)).1 _ _ _ failed,
    failed', (syntax_error_at_first_wrong_token (by decide +kernel)).2 _ _ failed'⟩

/-- A syntax error names every alternative but two: the parenthesis of a call directly after a name,
and the end of a call directly after its parenthesis. The end of a call may come there, but is not
named. -/
theorem syntax_error_names_alternatives (tokens : tokenize src = .ok lexemes) {position : Nat}
    {found : String} {expected : List String}
    (h : parse src = .error (.unexpected position found expected)) :
    ∃ (before after : List Lexeme) (alternatives : List Expectation), lexemes = before ++ after ∧
      FirstWrong src before after position found ∧
      expected = alternatives.map Expectation.label ∧
      (∀ t, Viable (before.map Lexeme.token ++ [t]) →
        (∃ a ∈ alternatives, a.names t = true) ∨
        (t = .openParen ∧ ∃ ts x, before.map Lexeme.token = ts ++ [.name x]) ∨
        (t = .closeParen ∧ OpensCall (before.map Lexeme.token))) ∧
      (Accepted (before.map Lexeme.token) → .endOfInput ∈ alternatives) ∧
      (OpensCall (before.map Lexeme.token) →
        Viable (before.map Lexeme.token ++ [.closeParen]) ∧ .closeParen ∉ alternatives) := by
  obtain ⟨before, after, z, split, walked, wrong, eq⟩ := parse_eq_unexpected tokens h
  refine ⟨before, after, z.expected, split, wrong, eq, fun t viable => ?_, fun accepted => ?_,
    fun opened => ?_⟩
  · rcases step_iff.mp ((viable_concat_iff walked).mp viable) with named | ⟨first, rfl⟩ | call
    · exact .inl named
    · exact .inr (.inr ⟨rfl, (stage_eq_first_iff walked).mp first⟩)
    · obtain ⟨rfl, f, stage⟩ := call
      obtain ⟨ts, last⟩ := exists_name_of_stage walked stage
      exact .inr (.inl ⟨rfl, ts, f.name, last⟩)
  · exact endOfInput_mem_expected.mpr ((accepted_iff_after walked).mp accepted)
  · have first := (stage_eq_first_iff walked).mpr opened
    refine ⟨(viable_concat_iff walked).mpr (step_iff.mpr (.inr (.inl ⟨first, rfl⟩))), ?_⟩
    simp [Situation.expected, first]

/-- The report of a call that is not ended. -/
theorem syntax_error_names_alternatives_call :
    parse "SUM(A" = .error (.unexpected 5 "end of input" ["operator", "`,`", "`)`"]) ∧
    ∃ (before after : List Lexeme) (alternatives : List Expectation),
      [⟨0, .name "SUM"⟩, ⟨3, .openParen⟩, ⟨4, .name "A"⟩] = before ++ after ∧
      FirstWrong "SUM(A" before after 5 "end of input" ∧
      ["operator", "`,`", "`)`"] = alternatives.map Expectation.label ∧
      (∀ t, Viable (before.map Lexeme.token ++ [t]) →
        (∃ a ∈ alternatives, a.names t = true) ∨
        (t = .openParen ∧ ∃ ts x, before.map Lexeme.token = ts ++ [.name x]) ∨
        (t = .closeParen ∧ OpensCall (before.map Lexeme.token))) ∧
      (Accepted (before.map Lexeme.token) → .endOfInput ∈ alternatives) ∧
      (OpensCall (before.map Lexeme.token) →
        Viable (before.map Lexeme.token ++ [.closeParen]) ∧ .closeParen ∉ alternatives) := by
  have failed : parse "SUM(A" =
      .error (.unexpected 5 "end of input" ["operator", "`,`", "`)`"]) := by decide +kernel
  exact ⟨failed, syntax_error_names_alternatives (by decide +kernel) failed⟩

/-- After the parenthesis of a call the message does not name the parenthesis that would end it. -/
theorem syntax_error_omits_call_end :
    tokenize "SUM(" = .ok [⟨0, .name "SUM"⟩, ⟨3, .openParen⟩] ∧
    parse "SUM(" = .error (.unexpected 4 "end of input" ["integer", "identifier", "`(`", "`-`"]) ∧
    FirstWrong "SUM(" [⟨0, .name "SUM"⟩, ⟨3, .openParen⟩] [] 4 "end of input" ∧
    Viable ([.name "SUM", .openParen] ++ [.closeParen]) ∧
    Expectation.closeParen.label ∉ ["integer", "identifier", "`(`", "`-`"] := by
  have walked : start.walk [.name "SUM", .openParen] = some ⟨.first, [.call]⟩ := rfl
  have viable : Viable [.name "SUM", .openParen] := viable_iff.mpr ⟨_, walked⟩
  have wrong : ¬ Accepted [.name "SUM", .openParen] := by
    rw [accepted_iff_after walked]
    nofun
  refine ⟨by decide +kernel, by decide +kernel, .ending viable wrong, ?_, by decide⟩
  exact (viable_concat_iff walked).mpr ⟨_, rfl⟩

end

end Calculator
