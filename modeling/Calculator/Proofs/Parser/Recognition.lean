import Calculator.Proofs.Parser.Completeness
import Mathlib.Control.Monad.Basic

/-!
# The parser recognises the grammar

What parsing a whole source gives is decided by the grammar and the two limits. Within the limits
the tree of a derived token list is found, beyond them the nesting is refused, and nothing is found
that is not derived. The same holds for a parser with any limits, so a token list has one tree at
most: with room enough the parser finds every tree that is derived from it.
-/

namespace Calculator

namespace Parser

/-- The tokens derive the tree, which the limits allow. -/
structure Recognised (limits : Limits) (ts : List Token) (e : Expr) : Prop where
  derives : Derives .sum ts e
  nesting_le : nesting ts ≤ limits.nesting
  height_le : e.height ≤ limits.height

section

variable {lexemes : List Lexeme}

theorem State.start_fit (limits : Limits) (src : String) (lexemes : List Lexeme) :
    State.Fit (.start limits src lexemes) := ⟨Nat.zero_le _, Nat.le_refl _⟩

theorem demand_start (limits : Limits) (src : String) (lexemes : List Lexeme) :
    State.demand (.start limits src lexemes) 1 = limits.active := by
  show 4 * (limits.nesting - 0) + 4 = 4 * (limits.nesting + 1)
  omega

theorem whole_reads (limits : Limits) (src : String) (lexemes : List Lexeme) (fuel : Nat) :
    Ensures (whole fuel) (.start limits src lexemes)
      (fun e _ => Recognised limits (lexemes.map Lexeme.token) e)
      (fun failure _ => limits.active ≤ fuel → failure ≠ .exhausted) := by
  rw [whole, ensures_bind]
  apply (expression_reads fuel 1 _ (State.start_fit limits src lexemes)).imp
  · intro node s' outcome
    obtain ⟨ls, reads, -⟩ := outcome
    rw [ensures_bind, ensures_peek]
    split
    · next last =>
      have empty : s'.rest = [] := by
        rw [State.next, Option.map_eq_none_iff, List.head?_eq_none_iff] at last
        exact last
      have all : lexemes = ls := by simpa [State.start, empty] using reads.passes.rest
      subst all
      have level := reads.nesting_le
      refine ⟨reads.derives, ?_, ?_⟩
      · simpa [State.start] using level
      · rw [← reads.height_eq]
        exact reads.height_le
    · rw [ensures_unexpected]
      intro _
      simp
  · intro failure s' outcome enough
    obtain ⟨-, not_exhausted⟩ := outcome
    refine not_exhausted ?_
    rw [demand_start]
    exact enough

theorem whole_finds (limits : Limits) (src : String) (fuel : Nat) {e : Expr}
    (h : Derives .sum (lexemes.map Lexeme.token) e) :
    Ensures (whole fuel) (.start limits src lexemes) (fun e' _ => e' = e)
      (fun failure _ => Stopped (¬ Recognised limits (lexemes.map Lexeme.token) e) failure) := by
  have all : (State.start limits src lexemes).rest = lexemes ++ [] := (List.append_nil _).symm
  have found := (begins_of_derives h).1.finds_sum fuel rfl all (by simp) (by simp)
  rw [whole, ensures_bind]
  apply found.imp
  · intro node s' outcome
    obtain ⟨rfl, passes⟩ := outcome
    have last : s'.rest = [] := by simpa [State.start] using passes.rest
    rw [ensures_bind, ensures_peek, next_nil last]
    exact rfl
  · intro failure s' stopped
    refine stopped.mono fun broken recognised => broken ⟨?_, recognised.height_le⟩
    have := recognised.nesting_le
    simpa [State.start] using this

end

/-- What a parser with enough fuel returns from a derived token list that the limits allow. -/
theorem whole_of_recognised {limits : Limits} (src : String) {lexemes : List Lexeme} {fuel : Nat}
    {e : Expr} (enough : limits.active ≤ fuel)
    (h : Recognised limits (lexemes.map Lexeme.token) e) :
    ∃ s, whole fuel (.start limits src lexemes) = .ok e s := by
  have reads := whole_reads limits src lexemes fuel
  have finds := whole_finds limits src fuel h.derives
  -- By the one contract what is returned is right, by the other there is no reason to fail.
  unfold Ensures at reads finds
  split at reads
  · next run => rw [run] at finds ⊢; exact ⟨_, by rw [finds]⟩
  · next failure s run =>
    rw [run] at finds
    cases failure with
    | exhausted => exact absurd rfl (reads enough)
    | tooNested | tooHigh => exact absurd h finds
    | unexpected | unknownFunction => exact finds.elim

end Parser

theorem Derives.unique {ts : List Token} {e₁ e₂ : Expr} (h₁ : Derives .sum ts e₁)
    (h₂ : Derives .sum ts e₂) : e₁ = e₂ := by
  -- Within limits that allow both trees the parser returns the one and the other.
  let limits : Limits := ⟨(nesting ts).toNat, max e₁.height e₂.height,
    Nat.lt_of_lt_of_le e₁.height_pos (Nat.le_max_left _ _)⟩
  let lexemes : List Lexeme := ts.map (Lexeme.mk 0)
  have tokens : lexemes.map Lexeme.token = ts := by simp [lexemes, Function.comp_def]
  have level : nesting ts ≤ limits.nesting := Int.self_le_toNat _
  have found {e : Expr} (h : Derives .sum ts e) (height : e.height ≤ limits.height) :
      ∃ s, Parser.whole limits.active (.start limits "" lexemes) = .ok e s :=
    Parser.whole_of_recognised "" (Nat.le_refl _)
      ⟨by rw [tokens]; exact h, by rw [tokens]; exact level, height⟩
  obtain ⟨s₁, run₁⟩ := found h₁ (Nat.le_max_left _ _)
  obtain ⟨s₂, run₂⟩ := found h₂ (Nat.le_max_right _ _)
  rw [run₁] at run₂
  injection run₂

theorem parseLexemes_eq_ok_iff {src : String} {lexemes : List Lexeme} {e : Expr} :
    (parseLexemes src lexemes).1 = .ok e ↔
      Parser.Recognised .standard (lexemes.map Lexeme.token) e := by
  constructor
  · intro h
    have reads := Parser.whole_reads .standard src lexemes Limits.standard.active
    unfold parseLexemes at h
    unfold Parser.Ensures at reads
    split at h
    · next run =>
      rw [run] at reads
      cases h
      exact reads
    · cases h
  · intro h
    obtain ⟨s, run⟩ := Parser.whole_of_recognised src (Nat.le_refl _) h
    rw [parseLexemes, run]

/-- A derived token list that breaks a limit is refused for its nesting. -/
theorem parseLexemes_eq_nestingTooDeep (src : String) {lexemes : List Lexeme} {e : Expr}
    (h : Derives .sum (lexemes.map Lexeme.token) e)
    (broken : ¬ Parser.Recognised .standard (lexemes.map Lexeme.token) e) :
    ∃ p, (parseLexemes src lexemes).1 = .error (.nestingTooDeep p) := by
  have finds := Parser.whole_finds .standard src Limits.standard.active h
  cases result : (parseLexemes src lexemes).1 with
  | ok e' =>
    have recognised := parseLexemes_eq_ok_iff.mp result
    rw [h.unique recognised.derives] at broken
    exact absurd recognised broken
  | error err =>
    unfold parseLexemes at result
    unfold Parser.Ensures at finds
    split at result
    · cases result
    · next failure s run =>
      rw [run] at finds
      cases result
      cases failure with
      | exhausted | tooNested | tooHigh => exact ⟨_, rfl⟩
      | unexpected | unknownFunction => exact finds.elim

theorem parse_of_tokenize {src : String} {lexemes : List Lexeme}
    (tokens : tokenize src = .ok lexemes) : parse src = (parseLexemes src lexemes).1 := by
  rw [parse, tokens]
  rfl

theorem parse_of_tokenize_error {src : String} {err : Error} (h : tokenize src = .error err) :
    parse src = .error err := by
  rw [parse, h]
  rfl

theorem parse_eq_ok_iff {src : String} {e : Expr} :
    parse src = .ok e ↔ ∃ lexemes, tokenize src = .ok lexemes ∧
      Parser.Recognised .standard (lexemes.map Lexeme.token) e := by
  unfold parse
  cases tokens : tokenize src with
  | error err => simp [bind, Except.bind]
  | ok lexemes =>
    show (parseLexemes src lexemes).1 = .ok e ↔ _
    rw [parseLexemes_eq_ok_iff]
    simp

theorem Parser.recognised_standard_iff {ts : List Token} {e : Expr} :
    Recognised .standard ts e ↔ Derives .sum ts e ∧
      (∀ p, p <+: ts → opened p ≤ maxNesting) ∧ e.height ≤ maxHeight := by
  constructor
  · intro recognised
    obtain ⟨derives, level, height⟩ := recognised
    exact ⟨derives, nesting_le_iff.mp level, height⟩
  · intro h
    obtain ⟨derives, level, height⟩ := h
    exact ⟨derives, nesting_le_iff.mpr level, height⟩

/-- The parser returns the tree that the grammar gives the tokens, if no more than `maxNesting`
parentheses are ever open and the tree is no higher than `maxHeight`. There is one tree at most, and
where a limit is broken the nesting is what is refused. -/
theorem parse_recognises_grammar :
    (∀ src e, parse src = .ok e ↔ ∃ lexemes, tokenize src = .ok lexemes ∧
      Derives .sum (lexemes.map Lexeme.token) e ∧
      (∀ p, p <+: lexemes.map Lexeme.token → opened p ≤ maxNesting) ∧ e.height ≤ maxHeight) ∧
    (∀ ts e₁ e₂, Derives .sum ts e₁ → Derives .sum ts e₂ → e₁ = e₂) ∧
    (∀ src lexemes e, Derives .sum (lexemes.map Lexeme.token) e →
      ((∃ p, p <+: lexemes.map Lexeme.token ∧ maxNesting < opened p) ∨ maxHeight < e.height) →
      ∃ position, (parseLexemes src lexemes).1 = .error (.nestingTooDeep position) ∧
        (tokenize src = .ok lexemes → parse src = .error (.nestingTooDeep position))) := by
  refine ⟨fun src e => ?_, fun ts e₁ e₂ => Derives.unique, fun src lexemes e derives broken => ?_⟩
  · rw [parse_eq_ok_iff]
    simp only [Parser.recognised_standard_iff]
  · have refused : ¬ Parser.Recognised .standard (lexemes.map Lexeme.token) e := by
      intro recognised
      obtain ⟨-, level, height⟩ := Parser.recognised_standard_iff.mp recognised
      rcases broken with ⟨p, prefixed, above⟩ | above
      · have := level p prefixed
        omega
      · omega
    obtain ⟨position, failed⟩ := parseLexemes_eq_nestingTooDeep src derives refused
    refine ⟨position, failed, fun tokens => ?_⟩
    rw [parse, tokens]
    exact failed

def groups : Nat → List Token
  | 0 => [.number 0]
  | n + 1 => .openParen :: groups n ++ [.closeParen]

theorem derives_groups (n : Nat) : Derives .sum (groups n) (.number 0) := by
  have primary : Derives .primary (groups n) (.number 0) := by
    induction n with
    | zero => exact .number 0
    | succ n ih => exact .group (ih.of_le (Nat.zero_le _))
  exact primary.of_le (Nat.zero_le _)

/-- The grammar and the limits at work: on a source within them, on a token list that has one tree,
and on one parenthesis too many. -/
theorem parse_recognises_grammar_groups :
    Derives .sum (groups 1) (.number 0) ∧ parse "(0)" = .ok (.number 0) ∧
    (∀ e, Derives .sum (groups 1) e → e = .number 0) ∧
    ∃ position, (parseLexemes "" ((groups 129).map (Lexeme.mk 0))).1 =
      .error (.nestingTooDeep position) := by
  obtain ⟨recognised, unique, refused⟩ := parse_recognises_grammar
  refine ⟨derives_groups 1, ?_, fun e h => unique _ _ _ h (derives_groups 1), ?_⟩
  · refine (recognised _ _).mpr
      ⟨[⟨0, .openParen⟩, ⟨1, .number 0⟩, ⟨2, .closeParen⟩], by decide +kernel, derives_groups 1,
        nesting_le_iff.mp (by decide), by decide⟩
  · have tokens : ((groups 129).map (Lexeme.mk 0)).map Lexeme.token = groups 129 := by
      simp [Function.comp_def]
    obtain ⟨position, failed, -⟩ := refused "" ((groups 129).map (Lexeme.mk 0)) (.number 0)
      (by rw [tokens]; exact derives_groups 129)
      (.inl ⟨List.replicate 129 .openParen, by rw [tokens]; decide +kernel, by decide +kernel⟩)
    exact ⟨position, failed⟩

end Calculator
