import Calculator.Proofs.Lexer.Offsets
import Calculator.Proofs.Parser.Diagnosis
import Calculator.Proofs.Parser.Recognition
import Calculator.Proofs.Trace.Calls

/-!
# Where parsers fail

A source that is refused was read up to a state, and the error is about what is next there. What is
known of that state is put together here from what the parsers promise one by one: its lexemes and
calls are those of the source, its place is the one that the error reports, and it is not for want
of fuel that the parser failed. A name that calls nothing has been taken when the parser stops, so
the state that the error is about may be an earlier one.

1. `FailsIn`: what is known of the state that the failure of a whole source is about.
2. `whole_fails`, `parseLexemes_fails`: every source that is refused fails so.
-/

namespace Calculator

/-- The quotes tell the tokens in a message from the end of the input. -/
theorem Token.quoted_ne_endOfInput (t : Token) : t.quoted ≠ Expectation.endOfInput.label := by
  intro same
  have first := congrArg (fun text => text.toList.head?) same
  simp [quoted, Expectation.label] at first

namespace Parser

/-- Where the failure is reported, if that is at a place in the source. -/
def Failure.position? : Failure → Option Nat
  | unexpected p .. | unknownFunction _ p | tooNested p | tooHigh p => some p
  | exhausted => none

/-- The failure is about the state `s`, after the lexemes `before` of the lexemes of a source. -/
structure FailsIn (src : String) (lexemes before : List Lexeme) (s : State) (failure : Failure) :
    Prop where
  passed : lexemes = before ++ s.rest
  stop : s.stop = src.utf8ByteSize
  ledger : s.ledger = callSites lexemes
  not_exhausted : failure ≠ .exhausted
  blames : ∃ z, Situation.start.walk (before.map Lexeme.token) = some z ∧ Blames z s failure

variable {src : String} {lexemes before : List Lexeme} {s : State} {failure : Failure}

theorem Failure.position?_toError {stop p : Nat} (not_exhausted : failure ≠ .exhausted)
    (h : ∀ q ∈ failure.position?, q = p) : (failure.toError stop).position? = some p := by
  cases failure with
  | exhausted => exact absurd rfl not_exhausted
  | unexpected q found expected =>
    obtain rfl := h q rfl
    cases found <;> rfl
  | unknownFunction _ q | tooNested q | tooHigh q =>
    obtain rfl := h q rfl
    rfl

theorem Blames.position_eq {z : Situation} (h : Blames z s failure) :
    ∀ q ∈ failure.position?, q = s.position := by
  intro q reported
  cases failure with
  | exhausted => cases reported
  | unexpected p found expected =>
    cases reported
    exact h.1
  | unknownFunction x p =>
    cases reported
    obtain ⟨-, rest, q, shape⟩ := h
    rw [State.position, shape]
  | tooNested p | tooHigh p =>
    cases reported
    exact h

/-- A failure leaves the calls as they were: what was taken since is no call of a function. -/
theorem Failure.Leaves.calls {z : Situation} {s' : State} (leaves : failure.Leaves s s')
    (blames : Blames z s failure) : s'.calls = s.calls ∧ s'.ledger = s.ledger := by
  cases failure with
  | unknownFunction x p =>
    obtain ⟨rest, calls, rfl⟩ := leaves
    refine ⟨rfl, ?_⟩
    rw [State.ledger, State.ledger, calls.callSites_eq, blames.1]
    rfl
  | _ =>
    obtain rfl := leaves
    exact ⟨rfl, rfl⟩

namespace FailsIn

theorem reported (fails : FailsIn src lexemes before s failure) :
    ∀ q ∈ failure.position?, q = s.position := by
  obtain ⟨z, -, blames⟩ := fails.blames
  exact blames.position_eq

theorem position? (fails : FailsIn src lexemes before s failure) (stop : Nat) :
    (failure.toError stop).position? = some s.position :=
  Failure.position?_toError fails.not_exhausted fails.reported

/-- The failure comes after the lexemes that were passed, and at the next one if any is left. -/
theorem position_between (fails : FailsIn src lexemes before s failure)
    (tokens : tokenize src = .ok lexemes) :
    (∀ l ∈ before, l.offset < s.position) ∧ ∀ l ∈ s.rest, s.position ≤ l.offset := by
  obtain ⟨rising, inside⟩ := offsets_of_tokenize tokens
  rw [fails.passed, List.map_append, List.pairwise_append] at rising
  obtain ⟨-, later, apart⟩ := rising
  rw [State.position]
  cases shape : s.rest with
  | nil =>
    refine ⟨fun l hl => ?_, by simp⟩
    rw [fails.stop]
    exact inside l (by simp [fails.passed, hl])
  | cons l rest =>
    rw [shape] at later apart
    refine ⟨fun l' hl' => ?_, List.forall_mem_cons.mpr ⟨Nat.le_refl _, fun l' hl' => ?_⟩⟩
    · exact apart _ (List.mem_map_of_mem hl') _ List.mem_cons_self
    · exact Nat.le_of_lt (List.rel_of_pairwise_cons later (List.mem_map_of_mem hl'))

theorem toError_at_end (fails : FailsIn src lexemes before s failure) (last : s.rest = [])
    (stop : Nat) : (∃ expected, failure.toError stop =
      .unexpected s.position Expectation.endOfInput.label expected) ∨
      failure.toError stop = .nestingTooDeep s.position := by
  obtain ⟨z, -, blames⟩ := fails.blames
  cases failure with
  | exhausted => exact absurd rfl fails.not_exhausted
  | unexpected p found expected =>
    obtain ⟨rfl, rfl, -⟩ := blames
    rw [next_nil last]
    exact .inl ⟨_, rfl⟩
  | unknownFunction x p =>
    obtain ⟨-, rest, q, here⟩ := blames
    rw [last] at here
    cases here
  | tooNested p | tooHigh p =>
    obtain rfl := fails.reported p rfl
    exact .inr rfl

theorem rest_eq_nil_of_unexpected (fails : FailsIn src lexemes before s failure) {stop p : Nat}
    {expected : List String}
    (h : failure.toError stop = .unexpected p Expectation.endOfInput.label expected) :
    s.rest = [] := by
  obtain ⟨z, -, blames⟩ := fails.blames
  cases failure with
  | unexpected p found expected =>
    obtain ⟨rfl, rfl, -⟩ := blames
    cases next : s.next with
    | none => rwa [State.next, Option.map_eq_none_iff, List.head?_eq_none_iff] at next
    | some t =>
      rw [next] at h
      injection h with _ found
      exact absurd found t.quoted_ne_endOfInput
  | unknownFunction | tooNested | tooHigh | exhausted => cases h

end FailsIn

theorem whole_fails {s' : State}
    (run : whole Limits.standard.active (.start .standard src lexemes) = .error failure s') :
    ∃ before s, FailsIn src lexemes before s failure ∧ failure.Leaves s s' ∧
      s'.calls = s.calls := by
  have accounts := whole_accounts (s := .start .standard src lexemes) Limits.standard.active rfl
  have diagnoses := whole_diagnoses Limits.standard.active (.start .standard src lexemes)
  have reads := whole_reads .standard src lexemes Limits.standard.active
  obtain ⟨z, s, ⟨before, passes, walked⟩, blames, leaves⟩ := diagnoses.of_error run
  obtain ⟨calls, ledger⟩ := leaves.calls blames
  have not_exhausted := reads.of_error run (Nat.le_refl _)
  refine ⟨before, s, ⟨passes.rest, passes.stop, ?_, not_exhausted, z, walked, blames⟩, leaves,
    calls⟩
  exact ledger.symm.trans (accounts.of_error run)

end Parser

/-- A source that is refused fails after some of its lexemes, with the error and the calls noted. -/
theorem parseLexemes_fails {src : String} {lexemes : List Lexeme} {err : Error}
    (h : (parseLexemes src lexemes).1 = .error err) :
    ∃ before s failure, Parser.FailsIn src lexemes before s failure ∧
      err = failure.toError src.utf8ByteSize ∧
      parseLexemes src lexemes = (.error err, s.calls.toList) := by
  unfold parseLexemes at h ⊢
  split at h
  · cases h
  · next failure s' run =>
    cases h
    obtain ⟨before, s, fails, -, calls⟩ := Parser.whole_fails run
    exact ⟨before, s, failure, fails, rfl, by rw [calls]⟩

end Calculator
