/-
# Decimal and hexadecimal digits

Numerals are those of the core library: `Nat.toDigits 10` writes a number without
superfluous zeros and `Nat.ofDigitChars 10` reads digits.  Here is what a scanner
needs of them: where a run of digits ends (`spanDigits_append`) and how the numeral
of a number starts and ends.  Bytes are written as two lowercase hexadecimal digits.
-/

import Vestrix.Text.CodePoint
import Mathlib.Data.List.Induction
import Mathlib.Data.Nat.Basic
import Mathlib.Tactic.IntervalCases
import Mathlib.Tactic.Ring

namespace Vestrix
namespace Text

/-- The decimal numeral of a number. -/
def numeral (n : ℕ) : List Char := Nat.toDigits 10 n

/-- The number that digits stand for. -/
def digitsValue (ds : List Char) : ℕ := Nat.ofDigitChars 10 ds 0

/-- ASCII decimal digits only. -/
def AllDigits (ds : List Char) : Prop := ∀ d ∈ ds, d.isDigit = true

/-- The numeral of a number: zero alone, or digits that start with another one. -/
def IsNumeral (ds : List Char) : Prop :=
  ds = ['0'] ∨ ∃ d ds', ds = d :: ds' ∧ d ≠ '0' ∧ AllDigits ds

/-- A digit is none of the characters that are not digits. -/
theorem isDigit_ne {c d : Char} (h : c.isDigit = true) (hd : d.isDigit = false) : c ≠ d := by
  rintro rfl
  rw [h] at hd
  cases hd

/-- A numeral has the value of its number. -/
@[simp] theorem digitsValue_numeral (n : ℕ) : digitsValue (numeral n) = n :=
  Nat.ofDigitChars_ten_toDigits

/-- Two numbers with one numeral are the same. -/
theorem numeral_injective : Function.Injective numeral := fun m n h => by
  rw [← digitsValue_numeral m, h, digitsValue_numeral]

/-- A numeral has digits only. -/
theorem allDigits_numeral (n : ℕ) : AllDigits (numeral n) := fun _ h =>
  Nat.isDigit_of_mem_toDigits (by norm_num) le_rfl h

/-- No numeral is empty. -/
theorem numeral_ne_nil (n : ℕ) : numeral n ≠ [] := Nat.toDigits_ne_nil

/-- The numeral of a number from ten on is that of its tens, and the last digit. -/
theorem numeral_of_ten_le {n : ℕ} (h : 10 ≤ n) :
    numeral n = numeral (n / 10) ++ [(n % 10).digitChar] :=
  Nat.toDigits_of_base_le (by norm_num) h

/-- A number below ten is written with one digit. -/
theorem numeral_of_lt_ten {n : ℕ} (h : n < 10) : numeral n = [n.digitChar] :=
  Nat.toDigits_of_lt_base h

/-- Only zero is written as `0`. -/
theorem digitChar_ne_zero {n : ℕ} (h₀ : 0 < n) (h : n < 10) : n.digitChar ≠ '0' := by
  interval_cases n <;> decide

/-- A numeral does not start with a zero, unless it is that of zero. -/
theorem numeral_head_ne_zero {n : ℕ} (h : 0 < n) : ∃ d ds, numeral n = d :: ds ∧ d ≠ '0' := by
  induction n using Nat.strong_induction_on with
  | _ n ih =>
    rcases Nat.lt_or_ge n 10 with hlt | hge
    · exact ⟨_, [], numeral_of_lt_ten hlt, digitChar_ne_zero h hlt⟩
    · obtain ⟨d, ds, hn, hd⟩ := ih (n / 10) (by omega) (by omega)
      exact ⟨d, ds ++ [(n % 10).digitChar], by rw [numeral_of_ten_le hge, hn, List.cons_append], hd⟩

/-- A numeral ends with the last digit of its number. -/
theorem numeral_getLast (n : ℕ) : (numeral n).getLast? = some (n % 10).digitChar := by
  rcases Nat.lt_or_ge n 10 with hlt | hge
  · rw [numeral_of_lt_ten hlt, Nat.mod_eq_of_lt hlt]
    rfl
  · rw [numeral_of_ten_le hge, List.getLast?_concat]

/-- A numeral has no leading zero, unless it is `0`. -/
theorem isNumeral_numeral (n : ℕ) : IsNumeral (numeral n) := by
  rcases Nat.eq_zero_or_pos n with rfl | h
  · exact Or.inl rfl
  · obtain ⟨d, ds, hn, hd⟩ := numeral_head_ne_zero h
    exact Or.inr ⟨d, ds, hn, hd, allDigits_numeral n⟩

/-- A text that is a numeral has digits only. -/
theorem IsNumeral.allDigits {ds : List Char} (h : IsNumeral ds) : AllDigits ds := by
  rcases h with rfl | ⟨-, -, -, -, h⟩
  · simp only [AllDigits, List.forall_mem_singleton]
    rfl
  · exact h

/-- The digits in front count for the power of ten of those behind them. -/
theorem digitsValue_append (ds es : List Char) :
    digitsValue (ds ++ es) = digitsValue ds * 10 ^ es.length + digitsValue es := by
  induction es using List.reverseRecOn with
  | nil => simp [digitsValue]
  | append_singleton es e ih =>
    rw [← List.append_assoc, digitsValue, Nat.ofDigitChars_append, ← digitsValue, ih]
    simp only [digitsValue, Nat.ofDigitChars_append, Nat.ofDigitChars_cons, Nat.ofDigitChars_nil,
      List.length_append, List.length_singleton, pow_succ]
    ring

/-- A text of `n` digits has a value below `10 ^ n`. -/
theorem digitsValue_lt {ds : List Char} (h : AllDigits ds) : digitsValue ds < 10 ^ ds.length := by
  induction ds with
  | nil => exact Nat.one_pos
  | cons d ds ih =>
    obtain ⟨hd, hds⟩ := List.forall_mem_cons.1 h
    have hdigit : digitsValue [d] ≤ 9 := by
      rw [Char.isDigit, Bool.and_eq_true, decide_eq_true_eq, decide_eq_true_eq] at hd
      have hle : d.toNat ≤ '9'.toNat := hd.2
      simp only [digitsValue, Nat.ofDigitChars_cons, Nat.ofDigitChars_nil, Nat.mul_zero, Nat.zero_add]
      exact Nat.sub_le_of_le_add hle
    have hrest := ih hds
    rw [← List.singleton_append, digitsValue_append, List.length_append, List.length_singleton, pow_add,
      pow_one]
    have := Nat.mul_le_mul_right (10 ^ ds.length) hdigit
    omega

/-- Zeros have the value zero. -/
theorem digitsValue_zeros (n : ℕ) : digitsValue (List.replicate n '0') = 0 := by
  rw [digitsValue, Nat.ofDigitChars_replicate_zero, Nat.mul_zero]

/-! ### Runs of digits -/

/-- The digits a text starts with, and the rest. -/
def spanDigits : Str → List Char × Str
  | .scalar c :: s =>
    if c.isDigit then (c :: (spanDigits s).1, (spanDigits s).2) else ([], .scalar c :: s)
  | s => ([], s)

/-- The first character is not one of those that `p` picks. -/
def HeadNot (p : Char → Bool) (s : Str) : Prop := ∀ c t, s = .scalar c :: t → p c = false

/-- A text that does not begin with a character of one kind does not begin with one of a smaller
kind. -/
theorem HeadNot.imp {p q : Char → Bool} {s : Str} (h : HeadNot p s)
    (hpq : ∀ c, p c = false → q c = false) : HeadNot q s := fun c t hs => hpq c (h c t hs)

/-- A text begins with its first character. -/
theorem HeadNot.cons {p : Char → Bool} {c : Char} (h : p c = false) (s : Str) :
    HeadNot p (.scalar c :: s) := by
  intro d t hd
  rw [List.cons.injEq, CodePoint.scalar.injEq] at hd
  rwa [← hd.1]

/-- Where no digit comes first, none is taken. -/
theorem spanDigits_of_headNot {s : Str} (h : HeadNot Char.isDigit s) : spanDigits s = ([], s) := by
  cases s with
  | nil => rfl
  | cons a s =>
    cases a with
    | surrogate u => rfl
    | scalar c => rw [spanDigits, if_neg (by rw [h c s rfl]; decide)]

/-- A run of digits is read to its end. -/
theorem spanDigits_append {ds : List Char} {s : Str} (hds : AllDigits ds)
    (hs : HeadNot Char.isDigit s) : spanDigits (ofChars ds ++ s) = (ds, s) := by
  induction ds with
  | nil => exact spanDigits_of_headNot hs
  | cons d ds ih =>
    rw [AllDigits, List.forall_mem_cons] at hds
    rw [ofChars_cons, List.cons_append, spanDigits, if_pos hds.1, ih hds.2]

/-! ### Hexadecimal -/

/-- `bytes.hex()`: two lowercase digits for each byte. -/
def hex (bytes : List UInt8) : List Char :=
  bytes.flatMap fun b => [(b.toNat / 16).digitChar, (b.toNat % 16).digitChar]

/-- A lowercase hexadecimal digit. -/
def isLowerHex (c : Char) : Bool := c.isDigit || ('a' ≤ c && c ≤ 'f')

/-- The value of a hexadecimal digit of either case. -/
def hexValue? : CodePoint → Option ℕ
  | .scalar c =>
    if c.isDigit then some (c.toNat - '0'.toNat)
    else if 'a' ≤ c ∧ c ≤ 'f' then some (c.toNat - 'a'.toNat + 10)
    else if 'A' ≤ c ∧ c ≤ 'F' then some (c.toNat - 'A'.toNat + 10)
    else none
  | .surrogate _ => none

/-- A digit below 16 is written in lower case. -/
theorem isLowerHex_digitChar {n : ℕ} (h : n < 16) : isLowerHex n.digitChar = true := by
  interval_cases n <;> decide

/-- A hexadecimal digit is read as the number that it was written for. -/
theorem hexValue?_digitChar {n : ℕ} (h : n < 16) : hexValue? (.scalar n.digitChar) = some n := by
  interval_cases n <;> decide

/-- Each byte is written with two characters. -/
theorem length_hex (bytes : List UInt8) : (hex bytes).length = 2 * bytes.length := by
  induction bytes with
  | nil => rfl
  | cons b bytes ih =>
    rw [hex, List.flatMap_cons, List.length_append, ← hex, ih, List.length_cons]
    simp only [List.length_cons, List.length_nil]
    omega

/-- Bytes are written with lower-case hexadecimal digits only. -/
theorem isLowerHex_of_mem_hex {bytes : List UInt8} {c : Char} (h : c ∈ hex bytes) :
    isLowerHex c = true := by
  obtain ⟨b, -, hc⟩ := List.mem_flatMap.1 h
  have hb := b.toNat_lt
  rcases List.mem_cons.1 hc with rfl | hc
  · exact isLowerHex_digitChar (by omega)
  · rw [List.mem_singleton.1 hc]
    exact isLowerHex_digitChar (by omega)

/-- The bytes of pairs of hexadecimal digits (`bytes.fromhex` on digits alone). -/
def fromHex : List Char → Option (List UInt8)
  | [] => some []
  | a :: b :: s =>
    match hexValue? (.scalar a), hexValue? (.scalar b), fromHex s with
    | some x, some y, some bytes => some (UInt8.ofNat (16 * x + y) :: bytes)
    | _, _, _ => none
  | [_] => none

/-- **Reading inverts writing** in hexadecimal. -/
@[simp] theorem fromHex_hex (bytes : List UInt8) : fromHex (hex bytes) = some bytes := by
  induction bytes with
  | nil => rfl
  | cons b bytes ih =>
    have hb := b.toNat_lt
    rw [hex, List.flatMap_cons, ← hex, List.cons_append, List.cons_append, List.nil_append, fromHex,
      hexValue?_digitChar (by omega), hexValue?_digitChar (by omega), ih]
    simp only [Nat.div_add_mod, UInt8.ofNat_toNat]

/-- Bytes are determined by their hexadecimal text. -/
theorem hex_injective : Function.Injective hex := fun a b h => by
  have := congrArg fromHex h
  rwa [fromHex_hex, fromHex_hex, Option.some.injEq] at this

end Text
end Vestrix
