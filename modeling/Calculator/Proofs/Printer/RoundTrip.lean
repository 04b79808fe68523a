import Calculator.Proofs.Lexer.Spelling
import Calculator.Proofs.Parser.Recognition
import Calculator.Proofs.Printer.Signs

/-!
# Printing and parsing

The printed text of a tree is read as the tree's tokens, and what the grammar says of these decides
what parsing it gives.

1. `readsAs_render`: the text of a tree is read as its tokens, unless a number has no negation.
2. `parse_render_of_parse`: what was parsed is parsed again from its text.
3. `parse_render_iff_norm`: which trees built as data can be parsed from their text, and as what.
4. `render_ungroups`: the text of a parsed tree is its source without some of the parentheses.
-/

namespace Calculator

/-! ## The text of a tree -/

theorem ends_mark {c : Char} {t : Token} {cs : List Char} (h : Token.ofMark? c = some t) :
    EndsRun (c :: cs) := by
  intro d hd
  cases hd
  exact (classes_of_ofMark? h).2

theorem ReadsAs.enclosed {cs : List Char} {p : Prop} {ts : List Token} (h : ReadsAs cs p ts) :
    ReadsAs ('(' :: (cs ++ [')'])) p (.openParen :: ts ++ [.closeParen]) := by
  have close : ReadsAs [')'] True [.closeParen] := .mark rfl .nil
  have inner := (h.append (ends_mark rfl) close).congr (q := p) (by simp)
  exact inner.mark rfl

theorem ReadsAs.parenthesize {text : String} {p : Prop} {ts : List Token} (needed : Bool)
    (h : ReadsAs text.toList p ts) :
    ReadsAs (parenthesize needed text).toList p (enclose needed ts) := by
  cases needed with
  | false => exact h
  | true =>
    show ReadsAs ("(" ++ text ++ ")").toList p (.openParen :: ts ++ [.closeParen])
    simpa using h.enclosed

theorem ReadsAs.joined {α : Type} {texts : α → List Char} {p : α → Prop} {tokens : α → List Token}
    {as : List α} (h : ∀ a ∈ as, ReadsAs (texts a) (p a) (tokens a)) :
    ReadsAs ([',', ' '].intercalate (as.map texts)) (∀ a ∈ as, p a)
      ([Token.comma].intercalate (as.map tokens)) := by
  induction as with
  | nil => exact ReadsAs.nil.congr (by simp)
  | cons a as ih =>
    obtain ⟨first, others⟩ := List.forall_mem_cons.mp h
    by_cases ne : as = []
    · subst ne
      simpa using first
    · have tail := ((ih others).blank (c := ' ') (by decide)).mark (c := ',') rfl
      have whole := (first.append (ends_mark rfl) tail).congr List.forall_mem_cons
      rw [List.map_cons, List.map_cons, joined_cons _ (by simpa using ne),
        List.intercalate_cons_of_ne_nil (by simpa using ne)]
      simpa using whole

theorem Aggregate.isName_name (f : Aggregate) : isName f.name.toList = true := by
  cases f <;> decide

namespace Expr

theorem readsAs_number (v : Value) : ReadsAs v.render.toList (v ≠ .least) v.numeral := by
  have low := v.lower
  have high := v.upper
  have inside : v ≠ .least ↔ v.toInt.natAbs ≤ 9223372036854775807 := by
    rw [ne_eq, Value.ext_iff]
    simp only [Value.least]
    omega
  have digits : ReadsAs (Nat.toDigits 10 v.toInt.natAbs) (v ≠ .least) [.number v.abs] :=
    (ReadsAs.digits v.toInt.natAbs).congr inside
  rw [Value.render, Decimal.write, Value.numeral]
  split
  · have signed := digits.mark (c := '-') rfl
    simpa [Nat.toList_repr] using signed
  · next unsigned =>
    rw [Value.abs_of_nonneg (Int.not_lt.mp unsigned)] at digits
    simpa [Nat.toList_repr] using digits

theorem readsAs_render {e : Expr} (named : e.Everywhere Named) :
    ReadsAs e.render.toList (e.Everywhere Negatable) e.tokens := by
  induction e with
  | number v => exact (readsAs_number v).congr everywhere_number
  | var x =>
    have name := ReadsAs.name (everywhere_var.mp named)
    rw [String.ofList_toList] at name
    exact name.congr (by simp [Negatable])
  | call f args ih =>
    have each := (everywhere_call.mp named).2
    have inside := ReadsAs.joined fun e he => ih e he (each e he)
    have whole := (ReadsAs.name f.isName_name).append (ends_mark rfl) inside.enclosed
    have read_iff : (call f args).Everywhere Negatable ↔
        True ∧ ∀ e ∈ args, e.Everywhere Negatable := by simp [Negatable]
    rw [render, tokens_call, renderAll_eq_map]
    simpa [Function.comp_def] using whole.congr read_iff
  | neg e ih =>
    have operand := (ih (everywhere_neg.mp named).2).parenthesize (!e.isPrimary)
    have whole := operand.mark (c := '-') rfl
    have read_iff : (neg e).Everywhere Negatable ↔ e.Everywhere Negatable := by simp [Negatable]
    rw [render, tokens, ← not_isPrimary]
    simpa using whole.congr read_iff
  | binary op l r ihl ihr =>
    obtain ⟨-, left, right⟩ := everywhere_binary.mp named
    have first := (ihl left).parenthesize (l.isLooserThan op.precedence)
    have second := (ihr right).parenthesize (r.isLooserThan (op.precedence + 1))
    have read_iff : (binary op l r).Everywhere Negatable ↔
        l.Everywhere Negatable ∧ r.Everywhere Negatable := by simp [Negatable]
    -- The operator is a mark between blanks, so it ends a run before it.
    have spaced {c : Char} (symbol : op.symbol.toList = [c])
        (mark : Token.ofMark? c = some (.operator op)) :
        ReadsAs (binary op l r).render.toList ((binary op l r).Everywhere Negatable)
          (binary op l r).tokens := by
      have tail := ((second.blank (c := ' ') (by decide)).mark mark).blank (c := ' ') (by decide)
      have whole := (first.append (by intro d hd; cases hd; decide) tail).congr read_iff
      rw [render, tokens, ← isLooserThan_precedence, ← isLooserThan_succ_precedence]
      simpa [symbol] using whole
    cases op <;> exact spaced rfl rfl

end Expr

/-! ## Parsing the text of a tree -/

theorem parse_render_eq_ok_iff {e e' : Expr} (named : e.Everywhere Expr.Named) :
    parse e.render = .ok e' ↔
      e.Everywhere Expr.Negatable ∧ Parser.Recognised .standard e.tokens e' := by
  have reads := Expr.readsAs_render named
  rw [parse_eq_ok_iff]
  constructor
  · intro h
    obtain ⟨lexemes, found, recognised⟩ := h
    obtain ⟨readable, tokens⟩ := reads.of_tokenize found
    rw [tokens] at recognised
    exact ⟨readable, recognised⟩
  · intro h
    obtain ⟨printed, found, tokens⟩ := reads.tokenize_eq_ok h.1
    exact ⟨printed, found, by rw [tokens]; exact h.2⟩

theorem everywhere_of_parse {src : String} {e : Expr} (h : parse src = .ok e) :
    e.Everywhere Expr.Named ∧ e.Everywhere Expr.Unsigned ∧ e.Everywhere Expr.Negatable := by
  obtain ⟨lexemes, found, recognised⟩ := parse_eq_ok_iff.mp h
  have plain := recognised.derives.everywhere_plain (plain_of_tokenize found)
  refine ⟨fun s hs => (plain s hs).1, fun s hs => (plain s hs).2, fun s hs => ?_⟩
  exact (plain s hs).2.negatable

/-- The source of a parsed tree has the tokens of its text, and may have more parentheses. -/
theorem ungroupsTo_of_parse {src : String} {e : Expr} (h : parse src = .ok e) :
    ∃ lexemes, tokenize src = .ok lexemes ∧
      Parser.Recognised .standard (lexemes.map Lexeme.token) e ∧
      UngroupsTo (lexemes.map Lexeme.token) e.tokens := by
  obtain ⟨lexemes, found, recognised⟩ := parse_eq_ok_iff.mp h
  obtain ⟨-, unsigned, -⟩ := everywhere_of_parse h
  have fewer := recognised.derives.ungroupsTo unsigned
  rw [Expr.within_sum] at fewer
  exact ⟨lexemes, found, recognised, fewer⟩

/-- What was parsed is parsed again from its text, as the same tree. -/
theorem parse_render_of_parse {src : String} {e : Expr} (h : parse src = .ok e) :
    parse e.render = .ok e := by
  obtain ⟨named, unsigned, negatable⟩ := everywhere_of_parse h
  obtain ⟨lexemes, -, recognised, fewer⟩ := ungroupsTo_of_parse h
  refine (parse_render_eq_ok_iff named).mpr ⟨negatable, ?_⟩
  -- The text nests no deeper than the source, and the tree is as high as it was.
  exact ⟨Expr.derives_tokens unsigned, Int.le_trans fewer.nesting_le recognised.nesting_le,
    recognised.height_le⟩

theorem parse_render_of_parse_groups :
    ∃ e, parse "-((1) + x) * (SUM((2), 3))" = .ok e ∧ e.render = "-(1 + x) * SUM(2, 3)" ∧
      parse e.render = .ok e := by
  let e : Expr := .binary .times
    (.neg (.binary .plus (.number ⟨1, by decide, by decide⟩) (.var "x")))
    (.call .sum [.number ⟨2, by decide, by decide⟩, .number ⟨3, by decide, by decide⟩])
  have source : parse "-((1) + x) * (SUM((2), 3))" = .ok e := by decide +kernel
  exact ⟨e, source, by decide +kernel, parse_render_of_parse source⟩

/-- Which trees are parsed from their text, and as what. The tree may be any, so long as its
variables have names. -/
theorem parse_render_iff_norm {e : Expr} (named : e.Everywhere Expr.Named) :
    ((∃ e', parse e.render = .ok e') ↔
      e.Everywhere Expr.SignedOnce ∧ e.Everywhere Expr.Negatable ∧
        nestingOfChars e.render.toList ≤ maxNesting ∧ e.norm.height ≤ maxHeight) ∧
    ∀ e', parse e.render = .ok e' → e' = e.norm ∧ ∀ env, e.norm.eval env = e.eval env := by
  -- What is parsed is the normal form, since the text derives nothing else.
  have parsed : ∀ e', parse e.render = .ok e' → e' = e.norm ∧ e.Everywhere Expr.SignedOnce ∧
      e.Everywhere Expr.Negatable ∧ Parser.Recognised .standard e.tokens e' := by
    intro e' h
    obtain ⟨negatable, recognised⟩ := (parse_render_eq_ok_iff named).mp h
    have once := Expr.signedOnce_of_derives recognised.derives
    exact ⟨recognised.derives.unique (Expr.derives_norm once), once, negatable, recognised⟩
  -- The parentheses of the text are those of the tokens.
  have level : e.Everywhere Expr.Negatable →
      nestingOfChars e.render.toList = nesting e.tokens := by
    intro negatable
    obtain ⟨printed, found, tokens⟩ := (Expr.readsAs_render named).tokenize_eq_ok negatable
    rw [nestingOfChars_of_tokenize found, tokens]
  refine ⟨⟨?_, ?_⟩, ?_⟩
  · intro h
    obtain ⟨e', h⟩ := h
    obtain ⟨same, once, negatable, recognised⟩ := parsed e' h
    rw [level negatable, ← same]
    exact ⟨once, negatable, recognised.nesting_le, recognised.height_le⟩
  · intro h
    obtain ⟨once, negatable, nested, height⟩ := h
    rw [level negatable] at nested
    refine ⟨e.norm, (parse_render_eq_ok_iff named).mpr ⟨negatable, ?_⟩⟩
    exact ⟨Expr.derives_norm once, nested, height⟩
  · intro e' h
    obtain ⟨same, -, negatable, -⟩ := parsed e' h
    exact ⟨same, Expr.eval_norm negatable⟩

/-- A sign is read as a negation, and the value stays; a sign under a negation is not read. -/
theorem parse_render_iff_norm_signed :
    (∃ e : Expr, e.render = "-5 - -x" ∧
      parse e.render = .ok (.binary .minus (.neg (.number ⟨5, by decide, by decide⟩))
        (.neg (.var "x"))) ∧
      ∀ env, Expr.eval env (.binary .minus (.neg (.number ⟨5, by decide, by decide⟩))
        (.neg (.var "x"))) = e.eval env) ∧
    ∃ e : Expr, e.render = "--5" ∧ ∀ e', parse e.render ≠ .ok e' := by
  constructor
  · let e : Expr := .binary .minus (.number ⟨-5, by decide, by decide⟩) (.neg (.var "x"))
    have named : e.Everywhere Expr.Named := by
      have name : isName "x".toList = true := by decide
      simpa [e, Expr.Named] using name
    obtain ⟨parsed_iff, parsed⟩ := parse_render_iff_norm named
    have once : e.Everywhere Expr.SignedOnce := by simp [e, Expr.SignedOnce]
    have negatable : e.Everywhere Expr.Negatable := by
      simp only [e, Expr.everywhere_binary, Expr.everywhere_neg, Expr.everywhere_number,
        Expr.everywhere_var, Expr.Negatable]
      decide
    obtain ⟨e', h⟩ := parsed_iff.mpr ⟨once, negatable, by decide +kernel, by decide +kernel⟩
    obtain ⟨same, value⟩ := parsed e' h
    rw [same] at h
    exact ⟨e, by decide +kernel, h, value⟩
  · let e : Expr := .neg (.number ⟨-5, by decide, by decide⟩)
    have named : e.Everywhere Expr.Named := by simp [e, Expr.Named]
    refine ⟨e, by decide +kernel, fun e' h => ?_⟩
    have once := ((parse_render_iff_norm named).1.mp ⟨e', h⟩).1
    have unsigned := (Expr.everywhere_neg.mp once).1
    revert unsigned
    simp [Expr.SignedOnce]

/-- The text of a parsed tree is its source without some of the pairs of parentheses that group, so
no source of the tree has fewer parentheses or a smaller nesting of them. -/
theorem render_ungroups {src : String} {e : Expr} (h : parse src = .ok e) :
    ∃ lexemes printed, tokenize src = .ok lexemes ∧ tokenize e.render = .ok printed ∧
      UngroupsTo (lexemes.map Lexeme.token) (printed.map Lexeme.token) ∧
      (printed.map Lexeme.token).count .openParen ≤ (lexemes.map Lexeme.token).count .openParen ∧
      nesting (printed.map Lexeme.token) ≤ nesting (lexemes.map Lexeme.token) := by
  obtain ⟨named, -, negatable⟩ := everywhere_of_parse h
  obtain ⟨lexemes, found, -, fewer⟩ := ungroupsTo_of_parse h
  obtain ⟨printed, found', tokens⟩ := (Expr.readsAs_render named).tokenize_eq_ok negatable
  rw [← tokens] at fewer
  exact ⟨lexemes, printed, found, found', fewer, fewer.count_openParen_le, fewer.nesting_le⟩

theorem render_ungroups_groups :
    ∃ e lexemes printed, parse "-((1) + x)" = .ok e ∧ tokenize "-((1) + x)" = .ok lexemes ∧
      tokenize e.render = .ok printed ∧
      UngroupsTo (lexemes.map Lexeme.token) (printed.map Lexeme.token) := by
  let e : Expr := .neg (.binary .plus (.number ⟨1, by decide, by decide⟩) (.var "x"))
  have source : parse "-((1) + x)" = .ok e := by decide +kernel
  obtain ⟨lexemes, printed, found, found', fewer, -, -⟩ := render_ungroups source
  exact ⟨e, lexemes, printed, source, found, found', fewer⟩

end Calculator
