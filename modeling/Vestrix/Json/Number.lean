/-
# Number tokens

`scanNumber` takes the longest number a text starts with, `-?(0|[1-9]\d*)` with an
optional fraction and an optional exponent.  The number is kept as its characters, a
`NumberToken`; what it denotes is for each reader to say, and all of them start from
its significand and exponent (`NumberToken.value`).

An integer is written as its numeral (`intToken`), and reading the text of any token
gives its characters back (`scanNumber_text`).
-/

import Vestrix.Text.Digits
import Mathlib.Algebra.Order.Field.Rat
import Mathlib.Tactic.FieldSimp

namespace Vestrix
namespace Json

open Text

/-- The characters of a number: no fraction is the empty list of digits, and the
exponent has a sign and digits. -/
structure NumberToken where
  negative : Bool
  int : List Char
  frac : List Char
  exp : Option (Bool × List Char)
deriving DecidableEq

/-- A minus sign, or nothing. -/
def signText (negative : Bool) : List Char := if negative then ['-'] else []

namespace NumberToken

/-- The text of a number, with the sign of its exponent written. -/
def text (t : NumberToken) : List Char :=
  signText t.negative ++ (t.int ++ ((if t.frac = [] then [] else '.' :: t.frac) ++
    match t.exp with
    | none => []
    | some (negative, ds) => 'e' :: (if negative then '-' else '+') :: ds))

/-- Whether the number has neither fraction nor exponent. -/
def isInteger (t : NumberToken) : Bool := t.frac.isEmpty && t.exp.isNone

/-- All digits of the number before its exponent, as one number. -/
def significand (t : NumberToken) : ℕ := digitsValue (t.int ++ t.frac)

/-- The number that an exponent part stands for. -/
def writtenExponent (t : NumberToken) : ℤ :=
  match t.exp with
  | none => 0
  | some (negative, ds) => if negative then -(digitsValue ds : ℤ) else digitsValue ds

/-- The power of ten that the significand is multiplied with. -/
def exponent (t : NumberToken) : ℤ := t.writtenExponent - t.frac.length

/-- The magnitude of the number. -/
def value (t : NumberToken) : ℚ := t.significand * 10 ^ t.exponent

/-- What is a number token at all. -/
structure WellFormed (t : NumberToken) : Prop where
  int : IsNumeral t.int
  frac : AllDigits t.frac
  exp : ∀ b ds, t.exp = some (b, ds) → ds ≠ [] ∧ AllDigits ds

/-- The text of a number is a digit and more after its sign. -/
theorem WellFormed.text_eq {t : NumberToken} (ht : t.WellFormed) :
    ∃ d s, t.text = signText t.negative ++ d :: s ∧ d.isDigit = true := by
  rcases ht.int with h | ⟨d, ds, h, -, hall⟩
  · exact ⟨'0', _, by rw [text, h]; rfl, rfl⟩
  · rw [h] at hall
    exact ⟨d, _, by rw [text, h]; rfl, hall d List.mem_cons_self⟩

/-- The text of a number starts with its sign or a digit. -/
theorem WellFormed.text_head {t : NumberToken} (ht : t.WellFormed) :
    ∃ c s, t.text = c :: s ∧ (c = '-' ∨ c.isDigit = true) := by
  obtain ⟨d, s, h, hd⟩ := ht.text_eq
  rw [h]
  cases t.negative with
  | true => exact ⟨'-', _, rfl, Or.inl rfl⟩
  | false => exact ⟨d, s, rfl, Or.inr hd⟩

end NumberToken

/-- The token of an integer. -/
def intToken (n : ℤ) : NumberToken := ⟨decide (n < 0), numeral n.natAbs, [], none⟩

/-- `int.__repr__` and `i64::to_string`. -/
def intText (n : ℤ) : List Char := (intToken n).text

/-- The text of an integer is a number of JSON. -/
theorem intToken_wellFormed (n : ℤ) : (intToken n).WellFormed :=
  ⟨isNumeral_numeral _, fun _ h => absurd h List.not_mem_nil, fun _ _ h => (nomatch h)⟩

/-- The integer of a token without fraction and exponent. -/
def NumberToken.toInt (t : NumberToken) : ℤ :=
  if t.negative then -(digitsValue t.int : ℤ) else digitsValue t.int

/-- An integer is read back from its text. -/
@[simp] theorem toInt_intToken (n : ℤ) : (intToken n).toInt = n := by
  simp only [NumberToken.toInt, intToken, digitsValue_numeral, decide_eq_true_eq]
  split_ifs <;> omega

/-! ### Scanning -/

/-- A minus sign, if there is one. -/
def scanMinus : Str → Bool × Str
  | .scalar c :: s => if c = '-' then (true, s) else (false, .scalar c :: s)
  | s => (false, s)

/-- The digits before the point: a zero stands alone. -/
def scanInt : Str → Option (List Char × Str)
  | .scalar c :: s =>
    if c = '0' then some (['0'], s)
    else if c.isDigit then some (spanDigits (.scalar c :: s))
    else none
  | _ => none

/-- The digits after a point, if there are any. -/
def scanFrac : Str → List Char × Str
  | .scalar c :: s =>
    if c = '.' ∧ (spanDigits s).1 ≠ [] then spanDigits s else ([], .scalar c :: s)
  | s => ([], s)

/-- The sign of an exponent. -/
def scanSign : Str → Bool × Str
  | .scalar c :: s =>
    if c = '-' then (true, s) else if c = '+' then (false, s) else (false, .scalar c :: s)
  | s => (false, s)

/-- An exponent, if there is one with digits. -/
def scanExp : Str → Option (Bool × List Char) × Str
  | .scalar c :: s =>
    let digits := spanDigits (scanSign s).2
    if (c = 'e' ∨ c = 'E') ∧ digits.1 ≠ [] then (some ((scanSign s).1, digits.1), digits.2)
    else (none, .scalar c :: s)
  | s => (none, s)

/-- The longest number a text starts with. -/
def scanNumber (s : Str) : Option (NumberToken × Str) :=
  let minus := scanMinus s
  match scanInt minus.2 with
  | none => none
  | some (int, s) =>
    let frac := scanFrac s
    let exp := scanExp frac.2
    some (⟨minus.1, int, frac.1, exp.1⟩, exp.2)

/-- A character that could continue a number. -/
def isNumberChar (c : Char) : Bool := c.isDigit || c == '.' || c == 'e' || c == 'E'

/-- What does not belong to a number is no digit, no point and no exponent. -/
theorem isNumberChar_eq_false {c : Char} (h : isNumberChar c = false) :
    c.isDigit = false ∧ c ≠ '.' ∧ c ≠ 'e' ∧ c ≠ 'E' := by
  simp only [isNumberChar, Bool.or_eq_false_iff, beq_eq_false_iff_ne] at h
  exact ⟨h.1.1.1, h.1.1.2, h.1.2, h.2⟩

/-- Where no minus comes first, none is read. -/
theorem scanMinus_of_headNot {s : Str} (h : HeadNot (· == '-') s) : scanMinus s = (false, s) := by
  cases s with
  | nil => rfl
  | cons a s =>
    cases a with
    | surrogate u => rfl
    | scalar c => rw [scanMinus, if_neg (by simpa using h c s rfl)]

/-- A numeral is read up to what is no digit. -/
theorem scanInt_append {ds : List Char} (hds : IsNumeral ds) {s : Str}
    (hs : HeadNot Char.isDigit s) : scanInt (ofChars ds ++ s) = some (ds, s) := by
  rcases hds with rfl | ⟨d, ds, rfl, hd, hall⟩
  · rfl
  · rw [ofChars_cons, List.cons_append, scanInt, if_neg hd,
      if_pos (hall d List.mem_cons_self), ← List.cons_append, ← ofChars_cons,
      spanDigits_append hall hs]

/-- Where no point comes first, there is no fraction. -/
theorem scanFrac_of_headNot {s : Str} (h : HeadNot isNumberChar s) : scanFrac s = ([], s) := by
  cases s with
  | nil => rfl
  | cons a s =>
    cases a with
    | surrogate u => rfl
    | scalar c => rw [scanFrac, if_neg fun hc => (isNumberChar_eq_false (h c s rfl)).2.1 hc.1]

/-- A point and digits are a fraction. -/
theorem scanFrac_point {ds : List Char} (hne : ds ≠ []) (hds : AllDigits ds) {s : Str}
    (hs : HeadNot Char.isDigit s) : scanFrac (.scalar '.' :: (ofChars ds ++ s)) = (ds, s) := by
  rw [scanFrac, spanDigits_append hds hs, if_pos ⟨rfl, hne⟩]

/-- Where no `e` comes first, there is no exponent. -/
theorem scanExp_of_headNot {s : Str} (h : HeadNot isNumberChar s) : scanExp s = (none, s) := by
  cases s with
  | nil => rfl
  | cons a s =>
    cases a with
    | surrogate u => rfl
    | scalar c =>
      obtain ⟨-, -, he, hE⟩ := isNumberChar_eq_false (h c s rfl)
      simp only [scanExp, he, hE, or_self, false_and, if_false]

/-- An `e`, a sign and digits are an exponent. -/
theorem scanExp_exp {b : Bool} {ds : List Char} (hne : ds ≠ []) (hds : AllDigits ds) {s : Str}
    (hs : HeadNot Char.isDigit s) :
    scanExp (.scalar 'e' :: .scalar (if b then '-' else '+') :: (ofChars ds ++ s)) =
      (some (b, ds), s) := by
  have hsign : scanSign (.scalar (if b then '-' else '+') :: (ofChars ds ++ s)) =
      (b, ofChars ds ++ s) := by cases b <;> rfl
  simp only [scanExp, hsign, spanDigits_append hds hs, true_or, true_and, if_pos hne]

/-- **Reading a number gives its characters back**, whatever follows that does not
continue it. -/
theorem scanNumber_text {t : NumberToken} (ht : t.WellFormed) {s : Str}
    (hs : HeadNot isNumberChar s) : scanNumber (ofChars t.text ++ s) = some (t, s) := by
  obtain ⟨negative, int, frac, exp⟩ := t
  obtain ⟨hint, hfrac, hexp⟩ := ht
  simp only at hint hfrac hexp
  have hdigit : ∀ c, isNumberChar c = false → c.isDigit = false := fun c hc =>
    (isNumberChar_eq_false hc).1
  -- from the right: each part ends where the next one starts
  obtain ⟨s₁, hs₁, hexp₁, hnum₁⟩ : ∃ s₁, ofChars (match exp with
      | none => []
      | some (negative, ds) => 'e' :: (if negative then '-' else '+') :: ds) ++ s = s₁ ∧
      scanExp s₁ = (exp, s) ∧ (HeadNot isNumberChar s₁ ∨ ∃ t, s₁ = .scalar 'e' :: t) := by
    cases exp with
    | none => exact ⟨s, rfl, scanExp_of_headNot hs, Or.inl hs⟩
    | some e =>
      obtain ⟨b, ds⟩ := e
      obtain ⟨hne, hds⟩ := hexp b ds rfl
      exact ⟨_, rfl, scanExp_exp hne hds (hs.imp hdigit), Or.inr ⟨_, rfl⟩⟩
  have hdig₁ : HeadNot Char.isDigit s₁ := by
    rcases hnum₁ with h | ⟨t, rfl⟩
    · exact h.imp hdigit
    · exact HeadNot.cons rfl t
  obtain ⟨s₂, hs₂, hfrac₂, hdig₂⟩ : ∃ s₂, ofChars (if frac = [] then [] else '.' :: frac) ++ s₁ = s₂ ∧
      scanFrac s₂ = (frac, s₁) ∧ HeadNot Char.isDigit s₂ := by
    by_cases hne : frac = []
    · subst hne
      refine ⟨s₁, rfl, ?_, hdig₁⟩
      rcases hnum₁ with h | ⟨t, rfl⟩
      · exact scanFrac_of_headNot h
      · rfl
    · refine ⟨_, rfl, ?_, ?_⟩
      · rw [if_neg hne]
        exact scanFrac_point hne hfrac hdig₁
      · rw [if_neg hne]
        exact HeadNot.cons rfl _
  have hint₂ := scanInt_append hint hdig₂
  have hminus : scanMinus (ofChars (signText negative) ++ (ofChars int ++ s₂)) =
      (negative, ofChars int ++ s₂) := by
    cases negative with
    | true => rfl
    | false =>
      refine scanMinus_of_headNot ?_
      rcases hint with rfl | ⟨d, ds, rfl, -, hall⟩
      · exact HeadNot.cons rfl _
      · refine HeadNot.cons ?_ _
        have hd := hall d List.mem_cons_self
        rw [beq_eq_false_iff_ne]
        rintro rfl
        cases hd
  simp only [NumberToken.text, ofChars_append, List.append_assoc]
  rw [hs₁, hs₂, scanNumber, hminus]
  simp only [hint₂, hfrac₂, hexp₁]

end Json
end Vestrix
