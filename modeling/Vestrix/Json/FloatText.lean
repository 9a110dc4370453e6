/-
# The text of a binary64 number

`layout` places the digits of a decimal as `float.__repr__` does and CHAIN_FORMAT.md
asks: plain when the adjusted exponent is from `-4` to `15`, with at least one digit
after the point, and scientific otherwise, with a sign and at least two digits in the
exponent.  The digits are those of the shortest decimal that rounds to the number.

The token denotes exactly the decimal (`layout_value`), so that rounding what it
denotes gives the number back (`ofDecimal_floatToken`).
-/

import Vestrix.Json.Number
import Vestrix.Rounding.Shortest

namespace Vestrix
namespace Json

open Text Rounding

/-- The digits of a decimal: some, the first not a zero. -/
structure IsDigits (ds : List Char) : Prop where
  digits : AllDigits ds
  head : ∃ d ds', ds = d :: ds' ∧ d ≠ '0'

/-- The numeral of an exponent, of two digits at least. -/
def twoDigits (n : ℕ) : List Char := if n < 10 then '0' :: numeral n else numeral n

/-- The token of the decimal with digits `ds`, the first of them worth `10 ^ k`. -/
def layout (negative : Bool) (ds : List Char) (k : ℤ) : NumberToken :=
  if -4 ≤ k ∧ k < 16 then
    if k < 0 then ⟨negative, ['0'], List.replicate (-k - 1).toNat '0' ++ ds, none⟩
    else if (k + 1).toNat < ds.length then
      ⟨negative, ds.take (k + 1).toNat, ds.drop (k + 1).toNat, none⟩
    else ⟨negative, ds ++ List.replicate ((k + 1).toNat - ds.length) '0', ['0'], none⟩
  else ⟨negative, ds.take 1, ds.drop 1, some (decide (k < 0), twoDigits k.natAbs)⟩

/-- The token of a number. -/
def floatToken (x : Binary64) : NumberToken :=
  if x.index = 0 then ⟨x.negative, ['0'], ['0'], none⟩
  else
    layout x.negative (numeral (shortest x.index).1)
      ((shortest x.index).2 + (numeral (shortest x.index).1).length - 1)

/-- `float.__repr__`. -/
def floatRepr (x : Binary64) : List Char := (floatToken x).text

/-- Two digits have the value that they were written for. -/
theorem digitsValue_twoDigits (n : ℕ) : digitsValue (twoDigits n) = n := by
  unfold twoDigits
  split_ifs
  · rw [← List.singleton_append, digitsValue_append, digitsValue_numeral]
    exact (congrArg (· + n) (Nat.zero_mul _)).trans (Nat.zero_add n)
  · exact digitsValue_numeral n

/-- A text has digits only just if the first character is one and the others are. -/
theorem allDigits_cons {d : Char} {ds : List Char} :
    AllDigits (d :: ds) ↔ d.isDigit = true ∧ AllDigits ds := List.forall_mem_cons

/-- Two texts together have digits only just if each has. -/
theorem allDigits_append {ds es : List Char} :
    AllDigits (ds ++ es) ↔ AllDigits ds ∧ AllDigits es := List.forall_mem_append

/-- Zeros are digits. -/
theorem allDigits_replicate (n : ℕ) : AllDigits (List.replicate n '0') := fun d hd => by
  rw [List.eq_of_mem_replicate hd]
  rfl

/-- The first digits are digits. -/
theorem AllDigits.take {ds : List Char} (h : AllDigits ds) (n : ℕ) : AllDigits (ds.take n) :=
  fun d hd => h d (List.mem_of_mem_take hd)

/-- The last digits are digits. -/
theorem AllDigits.drop {ds : List Char} (h : AllDigits ds) (n : ℕ) : AllDigits (ds.drop n) :=
  fun d hd => h d (List.mem_of_mem_drop hd)

/-- An exponent is written with digits only. -/
theorem allDigits_twoDigits (n : ℕ) : AllDigits (twoDigits n) := by
  unfold twoDigits
  split_ifs
  · exact allDigits_cons.2 ⟨rfl, allDigits_numeral n⟩
  · exact allDigits_numeral n

/-- An exponent has a digit. -/
theorem twoDigits_ne_nil (n : ℕ) : twoDigits n ≠ [] := by
  unfold twoDigits
  split_ifs
  · exact List.cons_ne_nil _ _
  · exact numeral_ne_nil n

/-- The numeral of a positive number is one of significant digits. -/
theorem isDigits_numeral {m : ℕ} (h : 0 < m) : IsDigits (numeral m) :=
  ⟨allDigits_numeral m, numeral_head_ne_zero h⟩

/-- The digits up to a place are a numeral. -/
theorem IsDigits.isNumeral_append {ds es : List Char} (h : IsDigits ds) (hes : AllDigits es) {n : ℕ}
    (hn : 0 < n) : IsNumeral (ds.take n ++ es) := by
  obtain ⟨d, ds', rfl, hd⟩ := h.head
  obtain ⟨n, rfl⟩ : ∃ i, n = i + 1 := ⟨n - 1, by omega⟩
  exact Or.inr ⟨d, _, by rw [List.take_succ_cons, List.cons_append], hd,
    allDigits_append.2 ⟨AllDigits.take h.digits _, hes⟩⟩

/-- A layout is a number token. -/
theorem layout_wellFormed (negative : Bool) {ds : List Char} (h : IsDigits ds) (k : ℤ) :
    (layout negative ds k).WellFormed := by
  have hall := h.digits
  have hnil : AllDigits [] := fun d hd => absurd hd List.not_mem_nil
  unfold layout
  split_ifs with h₁ h₂ h₃
  · exact ⟨Or.inl rfl, allDigits_append.2 ⟨allDigits_replicate _, hall⟩, fun _ _ h => (nomatch h)⟩
  · refine ⟨?_, AllDigits.drop hall _, fun _ _ h => (nomatch h)⟩
    have := h.isNumeral_append hnil (n := (k + 1).toNat) (by omega)
    rwa [List.append_nil] at this
  · refine ⟨?_, allDigits_cons.2 ⟨rfl, hnil⟩, fun _ _ h => (nomatch h)⟩
    have := h.isNumeral_append (allDigits_replicate ((k + 1).toNat - ds.length))
      (n := (k + 1).toNat) (by omega)
    rwa [List.take_of_length_le (by omega)] at this
  · refine ⟨?_, AllDigits.drop hall _, ?_⟩
    · have := h.isNumeral_append hnil (n := 1) one_pos
      rwa [List.append_nil] at this
    · rintro b es he
      obtain ⟨-, rfl⟩ := Prod.mk.inj (Option.some.inj he)
      exact ⟨twoDigits_ne_nil _, allDigits_twoDigits _⟩

/-- **A layout denotes the decimal** whose digits and exponent it is made of. -/
theorem layout_value (negative : Bool) {ds : List Char} (hds : ds ≠ []) (k : ℤ) :
    (layout negative ds k).value = digitsValue ds * 10 ^ (k + 1 - ds.length) := by
  have hlen := List.length_pos_iff.2 hds
  have hten : (10 : ℚ) ≠ 0 := by norm_num
  unfold layout NumberToken.value
  split_ifs with h₁ h₂ h₃
  · simp only [NumberToken.significand, NumberToken.exponent, NumberToken.writtenExponent,
      digitsValue_append, digitsValue_zeros, List.length_append, List.length_replicate]
    rw [show digitsValue ['0'] = 0 from rfl, Nat.zero_mul, Nat.zero_mul, Nat.zero_add, Nat.zero_add]
    congr 2
    omega
  · simp only [NumberToken.significand, NumberToken.exponent, NumberToken.writtenExponent,
      List.take_append_drop, List.length_drop]
    congr 2
    omega
  · simp only [NumberToken.significand, NumberToken.exponent, NumberToken.writtenExponent,
      digitsValue_append, digitsValue_zeros, List.length_replicate, List.length_singleton]
    rw [show digitsValue ['0'] = 0 from rfl, Nat.add_zero, Nat.add_zero, Nat.cast_mul, Nat.cast_mul,
      mul_assoc, mul_assoc]
    congr 1
    rw [pow_one, Nat.cast_pow, Nat.cast_ofNat, ← zpow_natCast, ← zpow_one_add₀ hten,
      ← zpow_add₀ hten]
    congr 1
    omega
  · simp only [NumberToken.significand, NumberToken.exponent, NumberToken.writtenExponent,
      List.take_append_drop, List.length_drop, digitsValue_twoDigits, decide_eq_true_eq]
    congr 2
    split_ifs <;> omega

/-- **The text of a float is a number of JSON.** -/
theorem floatToken_wellFormed (x : Binary64) : (floatToken x).WellFormed := by
  unfold floatToken
  split_ifs with h
  · exact ⟨Or.inl rfl, allDigits_replicate 1, fun _ _ h => (nomatch h)⟩
  · refine layout_wellFormed _ (isDigits_numeral ?_) _
    exact Nat.pos_of_ne_zero fun h₀ =>
      shortest_mod_ten (Nat.pos_of_ne_zero h) x.finite (by rw [h₀])

/-- The sign of a float is written. -/
theorem floatToken_negative (x : Binary64) : (floatToken x).negative = x.negative := by
  unfold floatToken layout
  split_ifs <;> rfl

/-- The token of a number denotes the shortest decimal that rounds to it. -/
theorem floatToken_value (x : Binary64) :
    (floatToken x).value = (shortest x.index).1 * 10 ^ (shortest x.index).2 := by
  unfold floatToken
  split_ifs with h
  · have h₀ : (⟨x.negative, ['0'], ['0'], none⟩ : NumberToken).significand = 0 := rfl
    rw [NumberToken.value, h₀, h, show shortest 0 = (0, 0) from rfl]
    simp only [Nat.cast_zero, zero_mul]
  · rw [layout_value _ (numeral_ne_nil _), digitsValue_numeral]
    congr 2
    omega

/-- **Rounding what the token of a number denotes gives the number back.** -/
theorem ofDecimal_floatToken (x : Binary64) :
    ofDecimal (floatToken x).significand (floatToken x).exponent = x.index := by
  have h := (ofDecimal_eq_iff _ _ _).1 (ofDecimal_shortest x.finite)
  rw [← floatToken_value] at h
  exact (ofDecimal_eq_iff _ _ _).2 h

/-- A float is never written as an integer. -/
theorem layout_isInteger (negative : Bool) {ds : List Char} (hds : ds ≠ []) (k : ℤ) :
    (layout negative ds k).isInteger = false := by
  unfold layout NumberToken.isInteger
  split_ifs with h₁ h₂ h₃
  · rw [Bool.and_eq_false_imp, List.isEmpty_iff, List.append_eq_nil_iff]
    exact fun h => absurd h.2 hds
  · rw [Bool.and_eq_false_imp, List.isEmpty_iff, List.drop_eq_nil_iff]
    exact fun h => absurd h (by omega)
  · rfl
  · exact Bool.and_false _

/-- The text of a number is never that of an integer. -/
theorem floatToken_isInteger (x : Binary64) : (floatToken x).isInteger = false := by
  unfold floatToken
  split_ifs
  · rfl
  · exact layout_isInteger _ (numeral_ne_nil _) _

end Json
end Vestrix
