import Calculator.Proofs.Grammar.Substitution
import Calculator.Proofs.Lexer.Layout
import Calculator.Proofs.Lexer.Spelling
import Calculator.Proofs.Parser.Recognition
import Calculator.Proofs.Phases

/-!
# Substitution in a text

A source text in parentheses in the place of a variable of another. The characters of a text are
replaced, but what they are read as is what comes of it: nothing around a variable is read
otherwise than before, the parentheses make a primary of the text between them, and its value is
that of the variable.

1. `Lexes.substitute`: a text after the substitution is lexed as its tokens after it.
2. `eval_substitute`: a tree in the place of a variable counts as a binding of the variable.
3. `substitution_sound`: what parsing and evaluating a text give after the substitution.
-/

namespace Calculator

/-! ## Replacing characters -/

/-- Where the variables `x` are, in bytes. A name before an opening parenthesis is that of a
function. -/
def placesOf (x : String) : List Lexeme → List Nat
  | [] => []
  | l :: ls =>
    if l.token = .name x ∧ ls.head?.map Lexeme.token ≠ some .openParen then
      l.offset :: placesOf x ls
    else placesOf x ls

/-- The characters with `new` in the place of `old`, which comes after so many bytes. -/
def replaceAt (old new : List Char) : (place : Nat) → List Char → List Char
  | 0, cs => new ++ cs.drop old.length
  | _ + 1, [] => []
  | place + 1, c :: cs => c :: replaceAt old new (place + 1 - c.utf8Size) cs

/-- The source text `s` with the text `t`, in parentheses, in the place of every variable `x`. The
last one is replaced first, so the places of the others stay what they are. -/
def substituteText (x t s : String) : String :=
  String.ofList ((placesOf x (scan 0 s.toList).lexemes).foldr
    (replaceAt x.toList ('(' :: t.toList ++ [')'])) s.toList)

theorem replaceAt_bytes (old new before rest : List Char) :
    replaceAt old new (bytes before) (before ++ old ++ rest) = before ++ new ++ rest := by
  induction before with
  | nil => simp [replaceAt]
  | cons c before ih =>
    have size := bytes_cons c before
    have pos := c.utf8Size_pos
    obtain ⟨n, hn⟩ : ∃ n, bytes (c :: before) = n + 1 := ⟨bytes (c :: before) - 1, by omega⟩
    have next : n + 1 - c.utf8Size = bytes before := by omega
    rw [hn, List.cons_append, List.cons_append, replaceAt, next, ih]
    rfl

/-! ## Lexing what is replaced -/

/-- Wherever they stand, the characters are lexed to their end as the tokens. -/
def LexedAs (cs : List Char) (ts : List Token) : Prop :=
  ∀ offset, ∃ ls, Lexes offset cs ⟨ls, none⟩ ∧ ls.map Lexeme.token = ts

namespace LexedAs

variable {cs : List Char} {ts : List Token}

theorem nil : LexedAs [] [] := fun _ => ⟨[], .nil, rfl⟩

theorem blank {c : Char} (blank : isBlank c = true) (h : LexedAs cs ts) : LexedAs (c :: cs) ts := by
  intro offset
  obtain ⟨ls, lexed, tokens⟩ := h (offset + c.utf8Size)
  exact ⟨ls, .blank blank lexed, tokens⟩

theorem mark {c : Char} {t : Token} (mark : Token.ofMark? c = some t) (h : LexedAs cs ts) :
    LexedAs (c :: cs) (t :: ts) := by
  intro offset
  obtain ⟨ls, lexed, tokens⟩ := h (offset + 1)
  exact ⟨⟨offset, t⟩ :: ls, .mark mark lexed, congrArg (t :: ·) tokens⟩

theorem name {w : List Char} (name : isName w = true) (stop : ∀ c ∈ cs.head?, c.isAlpha = false)
    (h : LexedAs cs ts) : LexedAs (w ++ cs) (.name (String.ofList w) :: ts) := by
  intro offset
  obtain ⟨ls, lexed, tokens⟩ := h (offset + w.length)
  exact ⟨_ :: ls, .name name stop lexed, congrArg (_ :: ·) tokens⟩

theorem number {w : List Char} {v : Value} (ne : w ≠ []) (digits : ∀ c ∈ w, c.isDigit = true)
    (stop : ∀ c ∈ cs.head?, c.isDigit = false) (value : Decimal.ofDigits? w = some v)
    (h : LexedAs cs ts) : LexedAs (w ++ cs) (.number v :: ts) := by
  intro offset
  obtain ⟨ls, lexed, tokens⟩ := h (offset + w.length)
  exact ⟨_ :: ls, .number ne digits stop value lexed, congrArg (_ :: ·) tokens⟩

theorem group {inner : List Char} {us : List Token} (spells : Spells inner us)
    (h : LexedAs cs ts) :
    LexedAs ('(' :: inner ++ [')'] ++ cs) (.openParen :: us ++ .closeParen :: ts) := by
  intro offset
  obtain ⟨ms, next, tokens, run⟩ := spells (offset + 1) (')' :: cs) fun c hc => by
    cases hc
    decide
  obtain ⟨ls, lexed, tokens'⟩ := h (next + 1)
  refine ⟨⟨offset, .openParen⟩ :: (ms ++ ⟨next, .closeParen⟩ :: ls), ?_, ?_⟩
  · rw [lexes_iff, List.append_assoc, List.cons_append, List.singleton_append,
      scan_mark (t := .openParen) rfl, run, scan_mark (t := .closeParen) rfl, lexes_iff.mp lexed]
    rfl
  · rw [List.map_cons, List.map_append, List.map_cons, tokens, tokens']
    rfl

end LexedAs

/-- What is lexed to its end is lexed after the substitution too, as its tokens after it. It begins
with the character that it began with, or with a parenthesis, so nothing before it is prolonged. -/
theorem Lexes.substitute {offset : Nat} {cs : List Char} {s : Scan} (h : Lexes offset cs s)
    {before : List Char} (at_place : offset = bytes before) (ok : s.fault = none) (x : String)
    {inner : List Char} {us : List Token} (spells : Spells inner us) :
    ∃ cs', (placesOf x s.lexemes).foldr (replaceAt x.toList ('(' :: inner ++ [')']))
        (before ++ cs) = before ++ cs' ∧
      (∀ c ∈ cs'.head?, c ∈ cs.head? ∨ c = '(') ∧
      LexedAs cs' (substituteTokens x us (s.lexemes.map Lexeme.token)) := by
  -- A run that ended still ends, whichever of the two characters comes next.
  have ends {p : Char → Bool} {cs cs' : List Char} (first : ∀ c ∈ cs'.head?, c ∈ cs.head? ∨ c = '(')
      (stop : ∀ c ∈ cs.head?, p c = false) (opens : p '(' = false) :
      ∀ c ∈ cs'.head?, p c = false := by
    intro c hc
    rcases first c hc with same | rfl
    · exact stop c same
    · exact opens
  induction h generalizing before with
  | nil => exact ⟨[], rfl, by simp, .nil⟩
  | @blank offset c rest s blank _ ih =>
    obtain ⟨cs', replaced, -, lexed⟩ := @ih (before ++ [c]) (by simp [at_place]) ok
    rw [List.append_assoc, List.append_assoc] at replaced
    exact ⟨c :: cs', replaced, by simp, lexed.blank blank⟩
  | @mark offset c t rest s mark _ ih =>
    obtain ⟨cs', replaced, -, lexed⟩ := @ih (before ++ [c])
      (by simp [at_place, utf8Size_of_mark mark]) ok
    have no_name : t ≠ .name x := by
      rintro rfl
      unfold Token.ofMark? at mark
      split at mark <;> cases mark
    rw [List.append_assoc, List.append_assoc] at replaced
    refine ⟨c :: cs', ?_, by simp, ?_⟩
    · simpa [placesOf, Scan.cons, no_name] using replaced
    · rw [Scan.cons, List.map_cons, substituteTokens_cons _ no_name]
      exact lexed.mark mark
  | @name offset w rest s name stop _ ih =>
    obtain ⟨ne, letters⟩ := isName_iff.mp name
    have at_next : offset + w.length = bytes (before ++ w) := by
      rw [at_place, bytes_append, bytes_of_letters letters]
    obtain ⟨cs', replaced, first, lexed⟩ := ih at_next ok
    by_cases var : Token.name (String.ofList w) = .name x ∧
        s.lexemes.head?.map Lexeme.token ≠ some .openParen
    · obtain ⟨same, no_call⟩ := var
      have old : x.toList = w := by rw [← Token.name.inj same, String.toList_ofList]
      refine ⟨'(' :: inner ++ [')'] ++ cs', ?_, by simp, ?_⟩
      · rw [Scan.cons, placesOf, if_pos ⟨same, no_call⟩, List.foldr_cons, ← List.append_assoc,
          replaced, old, at_place, replaceAt_bytes, List.append_assoc]
      · rw [Scan.cons, List.map_cons, same, substituteTokens_var (by rwa [List.head?_map])]
        exact lexed.group spells
    · rw [List.append_assoc, List.append_assoc] at replaced
      refine ⟨w ++ cs', ?_, ?_, ?_⟩
      · rw [Scan.cons, placesOf, if_neg var]
        exact replaced
      · obtain ⟨d, w, rfl⟩ := List.exists_cons_of_ne_nil ne
        simp
      · rw [Scan.cons, List.map_cons, substituteTokens_keep (by rwa [List.head?_map])]
        exact lexed.name name (ends first stop (by decide))
  | @number offset w rest v s ne digits stop value _ ih =>
    have at_next : offset + w.length = bytes (before ++ w) := by
      rw [at_place, bytes_append, bytes_of_digits digits]
    obtain ⟨cs', replaced, first, lexed⟩ := ih at_next ok
    rw [List.append_assoc, List.append_assoc] at replaced
    refine ⟨w ++ cs', ?_, ?_, ?_⟩
    · simpa [placesOf, Scan.cons] using replaced
    · obtain ⟨d, w, rfl⟩ := List.exists_cons_of_ne_nil ne
      simp
    · rw [Scan.cons, List.map_cons, substituteTokens_cons _ (by simp)]
      exact lexed.number ne digits (ends first stop (by decide)) value
  | outOfRange | unrecognized => cases ok

theorem tokenize_substituteText {s t : String} {ls ms : List Lexeme} (hs : tokenize s = .ok ls)
    (ht : tokenize t = .ok ms) (x : String) :
    ∃ ls', tokenize (substituteText x t s) = .ok ls' ∧
      ls'.map Lexeme.token =
        substituteTokens x (ms.map Lexeme.token) (ls.map Lexeme.token) := by
  have lexed := tokenize_eq_ok_iff.mp hs
  have spells := (tokenize_eq_ok_iff.mp ht).spells rfl
  obtain ⟨cs', replaced, -, lexed'⟩ := lexed.substitute bytes_nil.symm rfl x spells
  obtain ⟨ls', lexes, tokens⟩ := lexed' 0
  refine ⟨ls', tokenize_eq_ok_iff.mpr ?_, tokens⟩
  rw [List.nil_append, List.nil_append] at replaced
  rw [substituteText, lexes_iff.mp lexed, replaced, String.toList_ofList]
  exact lexes

/-! ## Values -/

/-- In the place of a variable a tree that has a value counts as a binding of the variable, whatever
the tree itself says of the variable. -/
theorem Expr.eval_substitute {env : Env} {x : String} {f : Expr} {v : Value}
    (value : f.eval env = .ok v) (e : Expr) :
    (substitute x f e).eval env = e.eval (env.insert x v) := by
  induction e with
  | number w => rfl
  | var y =>
    rw [substitute, eval_var, Env.get?_insert]
    split
    · exact value
    · exact eval_var env y
  | call g args ih =>
    have each : evalAll env (substituteAll x f args) = evalAll (env.insert x v) args := by
      induction args with
      | nil => rfl
      | cons e es ih_es =>
        obtain ⟨first, others⟩ := List.forall_mem_cons.mp ih
        rw [substituteAll, evalAll_cons, evalAll_cons, first, ih_es others]
    rw [substitute, eval_call, eval_call, each]
  | neg e ih => rw [substitute, eval_neg, eval_neg, ih]
  | binary op l r ihl ihr => rw [substitute, eval_binary, eval_binary, ihl, ihr]

/-! ## Texts -/

/-- A text in parentheses may be in the place of a variable of another, if both can be parsed. What
is parsed is the one tree in the place of the variable of the other, unless a limit is broken; then
the nesting is refused. Where the text has a value, evaluating gives what the other text gives with
the variable bound to the value, be it a value or an error. -/
theorem substitution_sound {s t : String} {e f : Expr} (x : String) (hs : parse s = .ok e)
    (ht : parse t = .ok f) :
    ((∃ p, parse (substituteText x t s) = .error (.nestingTooDeep p)) ∨
      parse (substituteText x t s) = .ok (.substitute x f e)) ∧
    (parse (substituteText x t s) = .ok (.substitute x f e) ↔
      nestingOfChars (substituteText x t s).toList ≤ maxNesting ∧
      (Expr.substitute x f e).height ≤ maxHeight) ∧
    ∀ e', parse (substituteText x t s) = .ok e' → ∀ env v, evaluate t env = .ok v →
      evaluate (substituteText x t s) env = evaluate s (env.insert x v) := by
  obtain ⟨ls, lexed_s, recognised_s⟩ := parse_eq_ok_iff.mp hs
  obtain ⟨ms, lexed_t, recognised_t⟩ := parse_eq_ok_iff.mp ht
  obtain ⟨ls', lexed, tokens⟩ := tokenize_substituteText lexed_s lexed_t x
  have derives : Derives .sum (ls'.map Lexeme.token) (.substitute x f e) := by
    rw [tokens]
    exact recognised_s.derives.substitute recognised_t.derives
  have parsed : parse (substituteText x t s) = (parseLexemes (substituteText x t s) ls').1 := by
    rw [parse, lexed]
    rfl
  have within : parse (substituteText x t s) = .ok (.substitute x f e) ↔
      Parser.Recognised .standard (ls'.map Lexeme.token) (.substitute x f e) := by
    rw [parsed, parseLexemes_eq_ok_iff]
  have either : (∃ p, parse (substituteText x t s) = .error (.nestingTooDeep p)) ∨
      parse (substituteText x t s) = .ok (.substitute x f e) := by
    by_cases recognised : Parser.Recognised .standard (ls'.map Lexeme.token) (.substitute x f e)
    · exact .inr (within.mpr recognised)
    · rw [parsed]
      exact .inl (parseLexemes_eq_nestingTooDeep _ derives recognised)
  refine ⟨either, ?_, fun e' parsed' env v value => ?_⟩
  · rw [within, nestingOfChars_of_tokenize lexed]
    constructor
    · exact fun recognised => ⟨recognised.nesting_le, recognised.height_le⟩
    · exact fun limits => ⟨derives, limits.1, limits.2⟩
  · have found : parse (substituteText x t s) = .ok (.substitute x f e) := by
      rcases either with ⟨p, refused⟩ | found
      · rw [refused] at parsed'
        cases parsed'
      · exact found
    rw [evaluate_of_parse_ok ht] at value
    rw [evaluate_of_parse_ok found, evaluate_of_parse_ok hs, Expr.eval_substitute value]

/-- Next to a function of the same name, with a blank between the name and the parenthesis, and with
a text that holds the variable itself. -/
theorem substitution_sound_sum :
    substituteText "SUM" "1-SUM" "-SUM^SUM (2,SUM)" = "-(1-SUM)^SUM (2,(1-SUM))" ∧
    parse "-SUM^SUM (2,SUM)" = .ok (.binary .power (.neg (.var "SUM"))
      (.call .sum [.number (.clamp 2), .var "SUM"])) ∧
    parse "1-SUM" = .ok (.binary .minus (.number (.clamp 1)) (.var "SUM")) ∧
    evaluate "1-SUM" (.ofList [("SUM", .clamp 4)]) = .ok (.clamp (-3)) ∧
    evaluate "-(1-SUM)^SUM (2,(1-SUM))" (.ofList [("SUM", .clamp 4)]) =
      evaluate "-SUM^SUM (2,SUM)"
        (Env.insert (.ofList [("SUM", .clamp 4)]) "SUM" (.clamp (-3))) := by
  have text : substituteText "SUM" "1-SUM" "-SUM^SUM (2,SUM)" = "-(1-SUM)^SUM (2,(1-SUM))" := by
    decide +kernel
  have hs : parse "-SUM^SUM (2,SUM)" = .ok (.binary .power (.neg (.var "SUM"))
      (.call .sum [.number (.clamp 2), .var "SUM"])) := by decide +kernel
  have ht : parse "1-SUM" = .ok (.binary .minus (.number (.clamp 1)) (.var "SUM")) := by
    decide +kernel
  have value : evaluate "1-SUM" (.ofList [("SUM", .clamp 4)]) = .ok (.clamp (-3)) := by
    decide +kernel
  obtain ⟨-, within, values⟩ := substitution_sound "SUM" hs ht
  refine ⟨text, hs, ht, value, ?_⟩
  rw [text] at within values
  exact values _ (within.mpr ⟨by decide +kernel, by decide +kernel⟩) _ _ value

end Calculator
