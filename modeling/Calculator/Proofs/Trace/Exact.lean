import Calculator.Proofs.Parser.Failing
import Calculator.Proofs.Phases
import Calculator.Proofs.Trace.Applications
import Calculator.Proofs.Trace.Records

/-!
# What a trace tells

A trace tells the lexemes, the calls that the parser came past, the tree, the calls that were
evaluated and the value, up to the first error, each of them once and in order. Its result is the
value of the source, whatever is told of it.

1. `parseLexemes_eq_ok`, `parseLexemes_eq_error`: the calls that are noted until the parser ends.
2. `trace_exact`: the events of a source text by the phase that it comes to.
-/

namespace Calculator

/-! ## Calls before a place -/

/-- The calls among the lexemes before a place are those that are before it. -/
theorem filter_callSites {before after : List Lexeme} {p : Nat}
    (low : ∀ l ∈ before, l.offset < p) (high : ∀ l ∈ after, p ≤ l.offset) :
    callSites (before ++ after) =
      (callSites (before ++ after)).filter (fun c => c.offset < p) ++ callSites after := by
  obtain ⟨cs, split, places⟩ := callSites_append before after
  have all : cs.filter (fun c => c.offset < p) = cs := by
    refine List.filter_eq_self.mpr fun c hc => decide_eq_true ?_
    obtain ⟨l, hl, same⟩ := List.mem_map.mp (places.subset (List.mem_map_of_mem hc))
    rw [← same]
    exact low l hl
  have none : (callSites after).filter (fun c => c.offset < p) = [] := by
    refine List.filter_eq_nil_iff.mpr fun c hc => ?_
    obtain ⟨l, hl, same⟩ :=
      List.mem_map.mp ((sublist_offset_callSites after).subset (List.mem_map_of_mem hc))
    have := high l hl
    rw [decide_eq_true_eq]
    omega
  rw [split, List.filter_append, all, none, List.append_nil]

section

variable {src : String} {lexemes : List Lexeme}

/-! ## Parsing -/

theorem parseLexemes_eq_ok {e : Expr} (h : (parseLexemes src lexemes).1 = .ok e) :
    parseLexemes src lexemes = (.ok e, callSites lexemes) := by
  have accounts := Parser.whole_accounts (s := .start .standard src lexemes)
    Limits.standard.active rfl
  unfold parseLexemes at h ⊢
  split at h
  · next e' s run =>
    cases h
    rw [accounts.of_ok run]
    rfl
  · cases h

theorem parseLexemes_eq_error (tokens : tokenize src = .ok lexemes) {err : Error}
    (h : (parseLexemes src lexemes).1 = .error err) :
    ∃ p, err.position? = some p ∧ parseLexemes src lexemes =
      (.error err, (callSites lexemes).filter fun c => c.offset < p) := by
  obtain ⟨before, s, failure, fails, rfl, run⟩ := parseLexemes_fails h
  obtain ⟨low, high⟩ := fails.position_between tokens
  obtain rfl : lexemes = before ++ s.rest := fails.passed
  refine ⟨s.position, fails.position? _, run.trans ?_⟩
  have calls : s.calls.toList ++ callSites s.rest = callSites (before ++ s.rest) := fails.ledger
  rw [filter_callSites low high] at calls
  rw [List.append_cancel_right calls]

/-! ## Sources -/

/-- Up to its fault the source is a text with the lexemes that are traced. -/
theorem ofSource_of_tokenize_error (env : Env) {err : Error} (h : tokenize src = .error err) :
    ∃ before rest ls, src.toList = before ++ rest ∧ err.position? = some (bytes before) ∧
      tokenize (String.ofList before) = .ok ls ∧
      Trace.ofSource src env = ⟨ls.map .lexed, .error err⟩ := by
  obtain ⟨before, rest, split, place, lexed⟩ :=
    (lexes_scan 0 src.toList).before_fault (fault_of_tokenize h)
  rw [Nat.zero_add] at place
  refine ⟨before, rest, (scan 0 src.toList).lexemes, split, place, ?_, ?_⟩
  · rwa [tokenize_eq_ok_iff, String.toList_ofList]
  · rw [tokenize] at h
    simp only [Trace.ofSource, h]

variable (tokens : tokenize src = .ok lexemes)

include tokens

theorem ofSource_of_tokenize_ok (env : Env) :
    Trace.ofSource src env = (Trace.ofLexemes src lexemes env).after (lexemes.map .lexed) := by
  rw [tokenize] at tokens
  simp only [Trace.ofSource, tokens]

theorem ofSource_of_parse_error (env : Env) {err : Error} (h : parse src = .error err) :
    ∃ p, err.position? = some p ∧ Trace.ofSource src env =
      ⟨lexemes.map .lexed ++ ((callSites lexemes).filter fun c => c.offset < p).map .called,
        .error err⟩ := by
  rw [parse_of_tokenize tokens] at h
  obtain ⟨p, place, parsed⟩ := parseLexemes_eq_error tokens h
  refine ⟨p, place, ?_⟩
  rw [ofSource_of_tokenize_ok tokens, Trace.ofLexemes, parsed]
  rfl

theorem ofSource_of_parse_ok (env : Env) {e : Expr} (h : parse src = .ok e) :
    Trace.ofSource src env = (Trace.ofExpr e env).after
      (lexemes.map .lexed ++ ((callSites lexemes).map .called ++ [.parsed src e])) := by
  rw [parse_of_tokenize tokens] at h
  rw [ofSource_of_tokenize_ok tokens, Trace.ofLexemes, parseLexemes_eq_ok h]
  simp [Trace.after]

omit tokens

theorem ofExpr_eq (e : Expr) (env : Env) :
    Trace.ofExpr e env = ⟨(Expr.applied env e.postorder).map .applied ++
      (match e.eval env with
        | .ok v => [.evaluated e v]
        | .error _ => []), e.eval env⟩ := by
  rw [Trace.ofExpr, Expr.evalTraced_eq]
  cases e.eval env <;> simp

theorem result_ofSource (src : String) (env : Env) :
    (Trace.ofSource src env).result = evaluate src env := by
  cases tokens : tokenize src with
  | error err =>
    obtain ⟨before, rest, ls, -, -, -, traced⟩ := ofSource_of_tokenize_error env tokens
    rw [traced, evaluate, parse, tokens]
    rfl
  | ok lexemes =>
    cases parsed : parse src with
    | error err =>
      obtain ⟨p, -, traced⟩ := ofSource_of_parse_error tokens env parsed
      rw [traced, evaluate_of_parse_error parsed]
    | ok e =>
      rw [ofSource_of_parse_ok tokens env parsed, ofExpr_eq, evaluate_of_parse_ok parsed]
      rfl

end

/-- The result is the same at every level. At the lowest level every event is written down, in order
and in the words for its kind; of these records the next level keeps those of its own, and the
highest none. A trace tells the lexemes before the end or before the first fault, the calls of
functions before the end or before the syntax error, and of a source that is parsed its tree, the
calls that are evaluated before the first node that has no value, and the value. Calls come in the
order of the text, which is that of the nodes with each before those below it, and they are
evaluated in the order of the nodes with each after those below it. -/
theorem trace_exact (src : String) (env : Env) :
    (∀ level, ((Trace.ofSource src env).filter level).result = evaluate src env) ∧
    List.Forall₂ Event.Told (Trace.ofSource src env).events
      ((Trace.ofSource src env).records .trace) ∧
    (Trace.ofSource src env).records .debug =
      ((Trace.ofSource src env).records .trace).filter (fun r => r.level = .debug) ∧
    (Trace.ofSource src env).records .info = [] ∧
    (∀ err, tokenize src = .error err →
      ∃ before rest lexemes, src.toList = before ++ rest ∧
        err.position? = some (bytes before) ∧ tokenize (String.ofList before) = .ok lexemes ∧
        (Trace.ofSource src env).events = lexemes.map .lexed) ∧
    ∀ lexemes, tokenize src = .ok lexemes →
      ((callSites lexemes).map CallSite.offset).Pairwise (· < ·) ∧
      (∀ err, parse src = .error err → ∃ p, err.position? = some p ∧
        (Trace.ofSource src env).events = lexemes.map .lexed ++
          ((callSites lexemes).filter fun c => c.offset < p).map .called) ∧
      ∀ e, parse src = .ok e →
        (callSites lexemes).map CallSite.function = e.subtrees.filterMap Expr.function? ∧
        (∀ err, e.eval env = .error err →
          (Trace.ofSource src env).events = lexemes.map .lexed ++ (callSites lexemes).map .called ++
            .parsed src e :: (Expr.applied env e.postorder).map .applied) ∧
        ∀ v, e.eval env = .ok v →
          (Trace.ofSource src env).events = lexemes.map .lexed ++ (callSites lexemes).map .called ++
            .parsed src e :: (Expr.applied env e.postorder).map .applied ++ [.evaluated e v] ∧
          (Expr.applied env e.postorder).length = (callSites lexemes).length := by
  refine ⟨fun level => result_ofSource src env, Trace.told_records _, Trace.records_debug _,
    Trace.records_info _, fun err refused => ?_, fun lexemes tokens =>
    ⟨?_, fun err refused => ?_, fun e parsed => ?_⟩⟩
  · obtain ⟨before, rest, ls, split, place, lexed, traced⟩ := ofSource_of_tokenize_error env refused
    exact ⟨before, rest, ls, split, place, lexed, by rw [traced]⟩
  · exact (tokenize_eq_ok_iff.mp tokens).offsets.1.sublist (sublist_offset_callSites lexemes)
  · obtain ⟨p, place, traced⟩ := ofSource_of_parse_error tokens env refused
    exact ⟨p, place, by rw [traced]⟩
  · have derives : Derives .sum (lexemes.map Lexeme.token) e := by
      rw [parse_of_tokenize tokens] at parsed
      exact (parseLexemes_eq_ok_iff.mp parsed).derives
    have functions : (callSites lexemes).map CallSite.function =
        e.subtrees.filterMap Expr.function? := by
      rw [map_function_callSites, derives.callees_eq]
    have traced := ofSource_of_parse_ok tokens env parsed
    rw [ofExpr_eq] at traced
    refine ⟨functions, fun err failed => ?_, fun v value => ⟨?_, ?_⟩⟩
    · simp [traced, failed, Trace.after]
    · simp [traced, value, Trace.after]
    · rw [Expr.length_applied_eq value, ← functions, List.length_map]

/-- A sum that is evaluated before a division fails, and one that the parser came past before a name
that is no function. -/
theorem trace_exact_sum :
    tokenize "SUM(X)/0" = .ok [⟨0, .name "SUM"⟩, ⟨3, .openParen⟩, ⟨4, .name "X"⟩, ⟨5, .closeParen⟩,
      ⟨6, .operator .divide⟩, ⟨7, .number 0⟩] ∧
    parse "SUM(X)/0" = .ok (.binary .divide (.call .sum [.var "X"]) (.number 0)) ∧
    Expr.eval (.ofList [("X", .clamp 4)]) (.binary .divide (.call .sum [.var "X"]) (.number 0)) =
      .error .divisionByZero ∧
    (Trace.ofSource "SUM(X)/0" (.ofList [("X", .clamp 4)])).events =
      [.lexed ⟨0, .name "SUM"⟩, .lexed ⟨3, .openParen⟩, .lexed ⟨4, .name "X"⟩,
        .lexed ⟨5, .closeParen⟩, .lexed ⟨6, .operator .divide⟩, .lexed ⟨7, .number 0⟩,
        .called ⟨0, .sum⟩,
        .parsed "SUM(X)/0" (.binary .divide (.call .sum [.var "X"]) (.number 0)),
        .applied ⟨.sum, [.clamp 4], .clamp 4⟩] ∧
    ((Trace.ofSource "SUM(X)/0" (.ofList [("X", .clamp 4)])).records .trace).map Record.text =
      ["0: Id(\"SUM\")", "3: LParen", "4: Id(\"X\")", "5: RParen", "6: Op(Div)", "7: Number(0)",
        "0: call to SUM", "parsed `SUM(X)/0` as SUM(X) / 0", "SUM[4] = 4"] ∧
    (Trace.ofSource "SUM(X)/0" (.ofList [("X", .clamp 4)])).records .debug =
      [⟨.debug, "parsed `SUM(X)/0` as SUM(X) / 0"⟩] ∧
    parse "SUM(F(" = .error (.unknownFunction "F" 4) ∧
    ∃ p, Error.position? (.unknownFunction "F" 4) = some p ∧
      (Trace.ofSource "SUM(F(" ∅).events =
        [.lexed ⟨0, .name "SUM"⟩, .lexed ⟨3, .openParen⟩, .lexed ⟨4, .name "F"⟩,
          .lexed ⟨5, .openParen⟩, .called ⟨0, .sum⟩] := by
  have tokens : tokenize "SUM(X)/0" = .ok [⟨0, .name "SUM"⟩, ⟨3, .openParen⟩, ⟨4, .name "X"⟩,
      ⟨5, .closeParen⟩, ⟨6, .operator .divide⟩, ⟨7, .number 0⟩] := by decide +kernel
  have parsed : parse "SUM(X)/0" =
      .ok (.binary .divide (.call .sum [.var "X"]) (.number 0)) := by decide +kernel
  have failed : Expr.eval (.ofList [("X", .clamp 4)])
      (.binary .divide (.call .sum [.var "X"]) (.number 0)) = .error .divisionByZero := by
    decide +kernel
  have tokens' : tokenize "SUM(F(" = .ok [⟨0, .name "SUM"⟩, ⟨3, .openParen⟩, ⟨4, .name "F"⟩,
      ⟨5, .openParen⟩] := by decide +kernel
  have refused : parse "SUM(F(" = .error (.unknownFunction "F" 4) := by decide +kernel
  obtain ⟨-, -, -, -, -, phases⟩ := trace_exact "SUM(X)/0" (.ofList [("X", .clamp 4)])
  obtain ⟨-, -, -, -, -, phases'⟩ := trace_exact "SUM(F(" ∅
  obtain ⟨-, -, trees⟩ := phases _ tokens
  obtain ⟨-, syntactic, -⟩ := phases' _ tokens'
  obtain ⟨p, place, traced⟩ := syntactic _ refused
  refine ⟨tokens, parsed, failed, ?_, by decide +kernel, by decide +kernel, refused, p, place, ?_⟩
  · rw [(trees _ parsed).2.1 _ failed]
    decide +kernel
  · obtain rfl : 4 = p := Option.some.inj place
    rw [traced]
    decide +kernel

end Calculator
