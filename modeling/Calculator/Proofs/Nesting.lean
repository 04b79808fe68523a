import Calculator.Token

/-!
# Nesting

How many parentheses are open after the tokens of a list, and the greatest such number over all its
prefixes. The same is counted over the characters of a text.

1. `nesting_le_iff`: a nesting is within a bound if no prefix leaves more parentheses open.
2. `nesting_append`: the nesting of what follows is counted from what is open there.
3. `Balanced.opened_eq_zero`: what is balanced leaves as many open as it found.
-/

namespace Calculator

/-! ## Peaks -/

section

variable {α : Type} {rise : α → Int}

/-- The height after the list, if every element changes it by its rise. -/
def net (rise : α → Int) : List α → Int
  | [] => 0
  | a :: as => rise a + net rise as

/-- The greatest height after a prefix. -/
def peak (rise : α → Int) : List α → Int
  | [] => 0
  | a :: as => max 0 (rise a + peak rise as)

theorem net_append (as bs : List α) : net rise (as ++ bs) = net rise as + net rise bs := by
  induction as with
  | nil =>
    show net rise bs = 0 + net rise bs
    omega
  | cons a as ih =>
    rw [List.cons_append, net, ih, net]
    omega

theorem peak_nonneg (as : List α) : 0 ≤ peak rise as := by
  cases as with
  | nil => exact Int.le_refl 0
  | cons a as => exact Int.le_max_left _ _

theorem peak_append (as bs : List α) :
    peak rise (as ++ bs) = max (peak rise as) (net rise as + peak rise bs) := by
  induction as with
  | nil =>
    have nonneg : 0 ≤ peak rise bs := peak_nonneg bs
    simp only [List.nil_append, peak, net]
    omega
  | cons a as ih =>
    rw [List.cons_append, peak, ih, peak, net]
    omega

theorem peak_le_iff {as : List α} {n : Int} :
    peak rise as ≤ n ↔ ∀ p, p <+: as → net rise p ≤ n := by
  induction as generalizing n with
  | nil => simp [peak, net]
  | cons a as ih =>
    constructor
    · intro h p hp
      have rest : peak rise as ≤ n - rise a := by rw [peak] at h; omega
      cases p with
      | nil =>
        rw [peak] at h
        simp only [net]
        omega
      | cons b p =>
        obtain ⟨same, tail⟩ := List.cons_prefix_cons.mp hp
        have := ih.mp rest p tail
        rw [net, same]
        omega
    · intro h
      have start : 0 ≤ n := h [] List.nil_prefix
      have rest : peak rise as ≤ n - rise a := by
        apply ih.mpr
        intro p hp
        have := h (a :: p) (List.cons_prefix_cons.mpr ⟨rfl, hp⟩)
        rw [net] at this
        omega
      rw [peak]
      omega

end

/-! ## Parentheses among tokens -/

/-- By how many the token changes the number of open parentheses. -/
def Token.rise : Token → Int
  | openParen => 1
  | closeParen => -1
  | _ => 0

def opened (ts : List Token) : Int := net Token.rise ts

/-- How many parentheses are open at most after a prefix of the tokens. -/
def nesting (ts : List Token) : Int := peak Token.rise ts

theorem nesting_le_iff {ts : List Token} {n : Int} :
    nesting ts ≤ n ↔ ∀ p, p <+: ts → opened p ≤ n := peak_le_iff

theorem nesting_nonneg (ts : List Token) : 0 ≤ nesting ts := peak_nonneg ts

@[simp] theorem opened_nil : opened [] = 0 := rfl

@[simp] theorem opened_cons (t : Token) (ts : List Token) :
    opened (t :: ts) = t.rise + opened ts := rfl

@[simp] theorem opened_append (ts us : List Token) : opened (ts ++ us) = opened ts + opened us :=
  net_append ts us

@[simp] theorem nesting_nil : nesting [] = 0 := rfl

@[simp] theorem nesting_cons (t : Token) (ts : List Token) :
    nesting (t :: ts) = max 0 (t.rise + nesting ts) := rfl

@[simp] theorem nesting_append (ts us : List Token) :
    nesting (ts ++ us) = max (nesting ts) (opened ts + nesting us) := peak_append ts us

/-! ## Balanced tokens -/

/-- Every parenthesis among the tokens has its partner there. -/
inductive Balanced : List Token → Prop where
  | nil : Balanced []
  | cons {t : Token} {ts : List Token} :
    t ≠ .openParen → t ≠ .closeParen → Balanced ts → Balanced (t :: ts)
  | group {inner ts : List Token} :
    Balanced inner → Balanced ts → Balanced (.openParen :: inner ++ .closeParen :: ts)

namespace Balanced

theorem append {ts us : List Token} (hts : Balanced ts) (hus : Balanced us) :
    Balanced (ts ++ us) := by
  induction hts with
  | nil => exact hus
  | cons opens closes _ ih => exact .cons opens closes ih
  | group inner _ _ ih =>
    rw [List.append_assoc, List.cons_append]
    exact .group inner ih

theorem opened_eq_zero {ts : List Token} (h : Balanced ts) : opened ts = 0 := by
  induction h with
  | nil => rfl
  | @cons t ts opens closes _ ih => cases t <;> simp_all [Token.rise]
  | group _ _ ih₁ ih₂ => simp [Token.rise, ih₁, ih₂]

theorem opened_nonneg {ts us vs : List Token} (h : Balanced ts) (split : ts = us ++ vs) :
    0 ≤ opened us := by
  induction h generalizing us vs with
  | nil =>
    obtain ⟨rfl, -⟩ := List.nil_eq_append_iff.mp split
    exact Int.le_refl _
  | @cons t ts opens closes _ ih =>
    rcases List.cons_eq_append_iff.mp split with ⟨rfl, -⟩ | ⟨us', rfl, tail⟩
    · exact Int.le_refl _
    · have := ih tail
      rw [opened_cons]
      cases t <;> simp_all [Token.rise]
  | @group inner ts balanced _ ih₁ ih₂ =>
    rcases List.cons_eq_append_iff.mp split with ⟨rfl, -⟩ | ⟨us', rfl, tail⟩
    · exact Int.le_refl _
    · -- Inside the parentheses one more is open, and behind them none of theirs.
      rw [opened_cons]
      rcases List.append_eq_append_iff.mp tail with ⟨as, rfl, last⟩ | ⟨as, inside, -⟩
      · rw [opened_append, balanced.opened_eq_zero]
        rcases List.cons_eq_append_iff.mp last with ⟨rfl, -⟩ | ⟨as', rfl, after⟩
        · decide
        · have := ih₂ after
          simp only [opened_cons, Token.rise]
          omega
      · have := ih₁ inside
        simp only [Token.rise]
        omega

theorem head_ne_closeParen {ts : List Token} (h : Balanced ts) : ts.head? ≠ some .closeParen := by
  cases h with
  | nil => simp
  | cons _ closes _ => simpa using closes
  | group => simp

end Balanced

/-! ## Parentheses in a text -/

/-- By how many the character changes the number of open parentheses. -/
def riseOfChar (c : Char) : Int := if c = '(' then 1 else if c = ')' then -1 else 0

/-- How many parentheses are open at most after a prefix of the characters. -/
def nestingOfChars (cs : List Char) : Int := peak riseOfChar cs

end Calculator
