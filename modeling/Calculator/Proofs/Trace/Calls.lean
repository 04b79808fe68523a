import Calculator.Proofs.Grammar.Tokenwise
import Calculator.Proofs.Parser.Run
import Calculator.Proofs.Subtrees
import Mathlib.Data.List.Basic

/-!
# The calls that a parser notes

A parser notes a call where it passes the name of a function and an opening parenthesis, and passes
no such name otherwise. So the calls that are noted and those among the lexemes that are still to be
read are the same together in every state that a parser comes to, whichever way it took, and
whether it ends with a result or with a failure.

1. `callSites`: the calls among lexemes.
2. `whole_accounts`: in the last state they are those that are noted and those after the failure.
3. `Derives.callees_eq`: the calls among the tokens of a tree are those of its nodes, each before
   the calls in its arguments.
-/

namespace Calculator

/-- The function that a name calls before an opening parenthesis. -/
def Token.callee? : Token → (opens : Bool) → Option Aggregate
  | name x, true => Aggregate.ofName? x
  | _, _ => none

theorem Token.callee?_eq_none {t : Token} (no_name : ∀ x, t ≠ name x) (opens : Bool) :
    t.callee? opens = none := by
  unfold callee?
  split
  · next x => exact absurd rfl (no_name x)
  · rfl

def callSites : List Lexeme → List CallSite
  | [] => []
  | l :: rest =>
    ((l.token.callee? (rest.head?.map Lexeme.token = some .openParen)).map
      (CallSite.mk l.offset)).toList ++ callSites rest

def callees : List Token → List Aggregate := tokenwise fun t opens => (t.callee? opens).toList

theorem map_function_callSites (ls : List Lexeme) :
    (callSites ls).map CallSite.function = callees (ls.map Lexeme.token) := by
  induction ls with
  | nil => rfl
  | cons l rest ih =>
    rw [callSites, List.map_append, ih, List.map_cons, callees, tokenwise_cons, List.head?_map]
    cases l.token.callee? (rest.head?.map Lexeme.token = some .openParen) <;> rfl

/-- The calls among the first lexemes of a list are where those lexemes are. -/
theorem callSites_append (ls rest : List Lexeme) : ∃ cs,
    callSites (ls ++ rest) = cs ++ callSites rest ∧
      (cs.map CallSite.offset).Sublist (ls.map Lexeme.offset) := by
  induction ls with
  | nil => exact ⟨[], rfl, List.Sublist.refl _⟩
  | cons l ls ih =>
    obtain ⟨cs, split, places⟩ := ih
    rw [List.cons_append, callSites, split]
    cases l.token.callee? ((ls ++ rest).head?.map Lexeme.token = some .openParen) with
    | none => exact ⟨cs, rfl, places.cons _⟩
    | some f => exact ⟨⟨l.offset, f⟩ :: cs, rfl, places.cons_cons _⟩

theorem sublist_offset_callSites (ls : List Lexeme) :
    ((callSites ls).map CallSite.offset).Sublist (ls.map Lexeme.offset) := by
  obtain ⟨cs, split, places⟩ := callSites_append ls []
  rw [List.append_nil, callSites, List.append_nil] at split
  rw [split]
  exact places

/-! ## Calls in a tree -/

def Expr.function? : Expr → Option Aggregate
  | call f _ => some f
  | _ => none

theorem callees_cons {t : Token} (ts : List Token) (no_name : ∀ x, t ≠ .name x) :
    callees (t :: ts) = callees ts := by
  rw [callees, tokenwise_cons, Token.callee?_eq_none no_name]
  rfl

theorem callees_append (ts : List Token) {rest : List Token}
    (ne : rest.head? ≠ some .openParen) : callees (ts ++ rest) = callees ts ++ callees rest :=
  tokenwise_append ts ne

theorem callees_joined {args : List (List Token × Expr)}
    (h : ∀ a ∈ args, callees a.1 = a.2.subtrees.filterMap Expr.function?) :
    callees ([Token.comma].intercalate (args.map Prod.fst)) =
      (Expr.subtreesAll (args.map Prod.snd)).filterMap Expr.function? := by
  have flat (as : List (List Aggregate)) : ([] : List Aggregate).intercalate as = as.flatten := by
    induction as with
    | nil => rfl
    | cons a as ih =>
      by_cases ne : as = []
      · simp [ne]
      · rw [List.intercalate_cons_of_ne_nil ne, ih, List.append_nil, List.flatten_cons]
  calc callees ([Token.comma].intercalate (args.map Prod.fst))
      = [].intercalate ((args.map Prod.fst).map callees) := tokenwise_joined (fun _ => rfl) _
    _ = args.flatMap fun a => callees a.1 := by
        rw [flat, List.map_map, List.flatMap_def]
        rfl
    _ = args.flatMap fun a => a.2.subtrees.filterMap Expr.function? := List.flatMap_congr h
    _ = (Expr.subtreesAll (args.map Prod.snd)).filterMap Expr.function? := by
        rw [Expr.subtreesAll_eq_flatMap, List.filterMap_flatMap, List.flatMap_map]

/-- The functions that are called among the tokens of a tree are those of its nodes. -/
theorem Derives.callees_eq {f : Form} {ts : List Token} {e : Expr} (h : Derives f ts e) :
    callees ts = e.subtrees.filterMap Expr.function? := by
  -- A closing parenthesis at the end calls nothing.
  have closed (ts : List Token) : callees (ts ++ [.closeParen]) = callees ts := by
    rw [callees_append _ (by simp), callees_cons _ (by simp)]
    exact List.append_nil _
  induction h with
  | number v => rfl
  | var x => rfl
  | group _ ih => rw [List.cons_append, callees_cons _ (by simp), closed, ih]
  | call f args _ ih =>
    have name : Token.callee? (.name f.name) true = some f :=
      Aggregate.ofName?_eq_some_iff.mpr rfl
    have arguments := callees_joined ih
    calc callees (.name f.name :: .openParen :: [Token.comma].intercalate (args.map Prod.fst) ++
            [.closeParen])
        = f :: callees (.openParen :: ([Token.comma].intercalate (args.map Prod.fst) ++
            [.closeParen])) := by
          rw [callees, List.cons_append, List.cons_append, tokenwise_cons]
          simp [name]
      _ = f :: (Expr.subtreesAll (args.map Prod.snd)).filterMap Expr.function? := by
          rw [callees_cons _ (by simp), closed, arguments]
      _ = (Expr.call f (args.map Prod.snd)).subtrees.filterMap Expr.function? := by
          rw [Expr.subtrees]
          rfl
  | neg _ ih =>
    rw [callees_cons _ (by simp), ih, Expr.subtrees]
    rfl
  | binary op _ _ ihl ihr =>
    rw [callees_append _ (by simp), callees_cons _ (by simp), ihl, ihr, Expr.subtrees,
      List.filterMap_cons_none rfl, List.filterMap_append]
  | loosen _ ih => exact ih

namespace Parser

/-! ## Keeping account -/

/-- The calls that are noted, and those that are still to be read. -/
def State.ledger (s : State) : List CallSite := s.calls.toList ++ callSites s.rest

/-- A call that is next is among those to be read, if its name is that of a function. -/
theorem State.Calls.callSites_eq {s : State} {p : Nat} {x : String} {rest : List Lexeme}
    (h : s.Calls p x rest) :
    callSites s.rest = ((Aggregate.ofName? x).map (CallSite.mk p)).toList ++ callSites rest := by
  obtain ⟨q, shape⟩ := h
  rw [shape]
  simp [callSites, Token.callee?]

/-- The calls are these in the end, whichever way the parser ends. -/
def Accounts {α : Type} (sites : List CallSite) (p : Parser α) (s : State) : Prop :=
  Ensures p s (fun _ s' => s'.ledger = sites) (fun _ s' => s'.ledger = sites)

def AccountsExpression (sites : List CallSite) (expression : Parser Node) : Prop :=
  ∀ s : State, s.ledger = sites → Accounts sites expression s

section

variable {α β : Type} {sites : List CallSite} {s : State} {E : Parser Node}

theorem Accounts.bind {p : Parser β} {f : β → Parser α} (h : Accounts sites p s)
    (next : ∀ b s', s'.ledger = sites → Accounts sites (f b) s') :
    Accounts sites (p >>= f) s := by
  rw [Accounts, ensures_bind]
  exact Ensures.imp h next fun _ _ fails => fails

theorem accounts_unexpected (h : s.ledger = sites) (expected : List Expectation) :
    Accounts sites (unexpected expected : Parser α) s := by
  rw [Accounts, ensures_unexpected]
  exact h

theorem accounts_exhausted (h : s.ledger = sites) :
    Accounts sites (throw .exhausted : Parser α) s := h

theorem accounts_limited (h : s.ledger = sites) (node : Node) :
    Accounts sites (limited node) s := by
  rw [Accounts, ensures_limited]
  split <;> exact h

theorem accounts_nested {body : Parser α} (h : s.ledger = sites)
    (inside : Accounts sites body { s with depth := s.depth + 1 }) :
    Accounts sites (nested body) s := by
  rw [Accounts, ensures_nested]
  split
  · exact inside
  · exact h

/-- No call is next: no name of a function with an opening parenthesis. -/
def State.CallsNothing (s : State) : Prop :=
  ∀ l rest, s.rest = l :: rest →
    l.token.callee? (rest.head?.map Lexeme.token = some .openParen) = none

theorem State.NoCall.callsNothing (h : s.NoCall) : s.CallsNothing := by
  intro l rest shape
  unfold Token.callee?
  split
  · next x name opens =>
    obtain ⟨p, t⟩ := l
    obtain rfl : t = .name x := name
    cases rest with
    | nil => simp at opens
    | cons l' rest =>
      obtain ⟨q, t'⟩ := l'
      obtain rfl : t' = .openParen := by simpa using opens
      exact absurd ⟨q, shape⟩ (h p x rest)
  · rfl

theorem State.CallsNothing.of_next {t : Token} (next : s.next = some t)
    (no_name : ∀ x, t ≠ .name x) : s.CallsNothing := by
  intro l rest shape
  rw [next_cons shape] at next
  cases next
  exact Token.callee?_eq_none no_name _

theorem accounts_advance {f : Unit → Parser α} (h : s.ledger = sites) (nothing : s.CallsNothing)
    (next : ∀ s', s'.ledger = sites → Accounts sites (f ()) s') :
    Accounts sites (advance >>= f) s := by
  rw [Accounts, ensures_bind, ensures_advance]
  refine next _ ?_
  rw [← h, State.ledger, State.ledger]
  cases shape : s.rest with
  | nil => rfl
  | cons l rest =>
    rw [callSites, nothing l rest shape]
    rfl

/-! ## Forms -/

theorem group_accounts (hE : AccountsExpression sites E) (h : s.ledger = sites)
    (opens : s.next = some .openParen) : Accounts sites (group E) s := by
  refine accounts_nested h (accounts_advance h (.of_next opens (by simp)) fun s₁ h₁ => ?_)
  refine (hE s₁ h₁).bind fun node s₂ h₂ => ?_
  rw [Accounts, ensures_bind, ensures_peek]
  split
  · next close => exact accounts_advance h₂ (.of_next close (by simp)) fun s₃ h₃ => h₃
  · exact accounts_unexpected h₂ _

theorem argumentsFrom_accounts (hE : AccountsExpression sites E) (bound : Nat)
    (h : s.ledger = sites) : Accounts sites (argumentsFrom E bound) s := by
  induction bound generalizing s with
  | zero => exact accounts_exhausted h
  | succ bound ih =>
    refine (hE s h).bind fun first s₁ h₁ => ?_
    rw [Accounts, ensures_bind, ensures_peek]
    split
    · next close => exact accounts_advance h₁ (.of_next close (by simp)) fun s₂ h₂ => h₂
    · next comma =>
      refine accounts_advance h₁ (.of_next comma (by simp)) fun s₂ h₂ => ?_
      exact (ih h₂).bind fun others s₃ h₃ => h₃
    · exact accounts_unexpected h₁ _

theorem arguments_accounts (hE : AccountsExpression sites E) (h : s.ledger = sites) :
    Accounts sites (arguments E) s := by
  rw [arguments, Accounts, ensures_bind, ensures_peek]
  split
  · next close => exact accounts_advance h (.of_next close (by simp)) fun s₁ h₁ => h₁
  · exact argumentsFrom_accounts hE _ h

theorem callOf_accounts (hE : AccountsExpression sites E) (f : Aggregate) (h : s.ledger = sites) :
    Accounts sites (callOf E f) s :=
  (accounts_nested h (arguments_accounts hE h)).bind fun _ _ h₁ => accounts_limited h₁ _

/-- A call is noted where its name and its parenthesis are passed. If none is read, none is next. -/
theorem call?_accounts (hE : AccountsExpression sites E) (h : s.ledger = sites) :
    Ensures (call? E) s
      (fun result s' => s'.ledger = sites ∧ (result = none → s'.CallsNothing))
      (fun _ s' => s'.ledger = sites) := by
  refine ensures_call? (fun noCall => ⟨h, fun _ => noCall.callsNothing⟩)
    (fun p x rest calls unknown => ?_) fun p f rest calls => ?_
  · -- What calls no function is on neither list.
    rw [← h, State.ledger, State.ledger, calls.callSites_eq, unknown]
    rfl
  · -- The call goes from the one list to the other.
    have noted : State.ledger { s with rest, calls := s.calls.push ⟨p, f⟩ } = sites := by
      rw [← h, State.ledger, State.ledger, calls.callSites_eq,
        Aggregate.ofName?_eq_some_iff.mpr rfl]
      simp
    exact (callOf_accounts hE f noted).imp (fun _ _ h₁ => ⟨h₁, nofun⟩) fun _ _ h₁ => h₁

theorem primary_accounts (hE : AccountsExpression sites E) (expected : List Expectation)
    (h : s.ledger = sites) : Accounts sites (primary E expected) s := by
  rw [primary, Accounts, ensures_bind]
  refine (call?_accounts hE h).imp (fun result s₁ outcome => ?_) fun _ _ fails => fails
  obtain ⟨h₁, nothing⟩ := outcome
  cases result with
  | some node => exact h₁
  | none =>
    rw [ensures_bind, ensures_peek]
    split
    · exact accounts_advance h₁ (nothing rfl) fun s₂ h₂ => h₂
    · exact accounts_advance h₁ (nothing rfl) fun s₂ h₂ => h₂
    · next opens => exact group_accounts hE h₁ opens
    · exact accounts_unexpected h₁ _

theorem term_accounts (hE : AccountsExpression sites E) (h : s.ledger = sites) :
    Accounts sites (term E) s := by
  rw [term, Accounts, ensures_bind, ensures_peek]
  split
  · next minus =>
    refine accounts_advance h (.of_next minus (by simp)) fun s₁ h₁ => ?_
    exact (primary_accounts hE _ h₁).bind fun node s₂ h₂ => accounts_limited h₂ _
  · exact primary_accounts hE _ h

theorem chain_accounts {operand : Nat → Parser Node}
    (hop : ∀ least, AccountsExpression sites (operand least)) (least bound : Nat)
    (left : Node) (h : s.ledger = sites) : Accounts sites (chain operand least bound left) s := by
  induction bound generalizing left s with
  | zero => exact accounts_exhausted h
  | succ bound ih =>
    rw [chain, Accounts, ensures_bind, ensures_peek]
    split
    · next op operator =>
      split
      · exact h
      · refine accounts_advance h (.of_next operator (by simp)) fun s₁ h₁ => ?_
        refine (hop _ s₁ h₁).bind fun right s₂ h₂ => ?_
        exact (accounts_limited h₂ _).bind fun node s₃ h₃ => ih node h₃
    · exact h

theorem expression_accounts (fuel least : Nat) :
    AccountsExpression sites (expression fuel least) := by
  induction fuel generalizing least with
  | zero => exact fun s h => accounts_exhausted h
  | succ fuel ih =>
    intro s h
    refine (term_accounts (ih 1) h).bind fun left s₁ h₁ => ?_
    exact chain_accounts ih least _ left h₁

theorem whole_accounts (fuel : Nat) (h : s.ledger = sites) :
    Ensures (whole fuel) s (fun _ s' => s'.calls.toList = sites)
      (fun _ s' => s'.ledger = sites) := by
  rw [whole, ensures_bind]
  refine (expression_accounts fuel 1 s h).imp (fun node s₁ h₁ => ?_) fun _ _ fails => fails
  rw [ensures_bind, ensures_peek]
  split
  · next last =>
    have empty : s₁.rest = [] := by simpa [State.next] using last
    rw [ensures_pure]
    simpa [State.ledger, empty, callSites] using h₁
  · rw [ensures_unexpected]
    exact h₁

end

end Parser

end Calculator
