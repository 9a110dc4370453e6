/-
# Finite binary64 numbers

The finite non-negative binary64 numbers, listed in increasing order, are the
multiples `units b · 2^-1074`: below `2^52` the index is the subnormal
significand, and from there the biased exponent is `b / 2^52` and the fraction
field `b % 2^52`.  The index is the bit pattern without its sign, and the numbers
are finite below `2047 · 2^52`; past it the same grid continues, so that an
overflow is an index that is too large.

`nearest p d` is the index of the number nearest to `p / d`, found with one
integer division and one comparison with a halfway point
(`roundsTo_nearest`).  Decimal conversion, multiplication and division are
`nearest` at the exact rational result.
-/

import Vestrix.Rounding.Grid
import Mathlib.Data.Nat.Log
import Mathlib.Algebra.Order.Field.Power
import Mathlib.Tactic.FieldSimp
import Mathlib.Tactic.NormNum
import Mathlib.Tactic.Positivity
import Mathlib.Tactic.Ring

namespace Vestrix
namespace Rounding

/-- The number of index `b`, in units of `2^-1074`. -/
def units (b : ℕ) : ℕ :=
  if b < 2 ^ 52 then b else (2 ^ 52 + b % 2 ^ 52) * 2 ^ (b / 2 ^ 52 - 1)

/-- The least positive number is `2 ^ -leastExponent`. -/
def leastExponent : ℕ := 1074

/-- How many units of the least positive number make one. -/
def scale : ℕ := 2 ^ leastExponent

/-- The unit is a positive part of one. -/
theorem scale_pos : 0 < scale := Nat.two_pow_pos _

-- its value is never needed, and no tactic should try to compute it
attribute [irreducible] scale

/-- The unit is a part of one. -/
theorem scale_ne_zero : (scale : ℚ) ≠ 0 := by exact_mod_cast scale_pos.ne'

/-- The number of index `b`. -/
def val (b : ℕ) : ℚ := units b / scale

/-- The first index past the finite numbers. -/
def infinite : ℕ := 2047 * 2 ^ 52

/-- A finite binary64 number: a sign and the index of its magnitude. -/
structure Binary64 where
  negative : Bool
  index : ℕ
  finite : index < infinite
deriving DecidableEq

/-- The number with a given bit pattern, if it is finite. -/
def Binary64.ofBits (w : ℕ) : Option Binary64 :=
  if h : w % 2 ^ 63 < infinite then some ⟨w / 2 ^ 63 % 2 = 1, w % 2 ^ 63, h⟩ else none

/-- A binary64 value, of a Python `float` or a Rust `f64`. -/
inductive Float64 where
  | finite (x : Binary64)
  | infinite (negative : Bool)
  | nan
deriving DecidableEq

/-- Neighbouring numbers are one unit in the last place apart. -/
theorem units_succ (b : ℕ) : units (b + 1) = units b + 2 ^ (b / 2 ^ 52 - 1) := by
  rcases Nat.lt_or_ge (b + 1) (2 ^ 52) with h | h
  · have h₀ : b / 2 ^ 52 = 0 := Nat.div_eq_of_lt (by omega)
    simp only [units, h, show b < 2 ^ 52 by omega, h₀, ite_true, Nat.zero_sub, pow_zero]
  · rcases Nat.lt_or_ge b (2 ^ 52) with hb | hb
    · obtain rfl : b = 2 ^ 52 - 1 := by omega
      norm_num [units]
    · simp only [units, Nat.not_lt.2 h, Nat.not_lt.2 hb, ite_false]
      rcases Nat.lt_or_ge (b % 2 ^ 52 + 1) (2 ^ 52) with hf | hf
      · have h₁ : (b + 1) % 2 ^ 52 = b % 2 ^ 52 + 1 := by omega
        have h₂ : (b + 1) / 2 ^ 52 = b / 2 ^ 52 := by omega
        rw [h₁, h₂]
        ring
      · have h₁ : (b + 1) % 2 ^ 52 = 0 := by omega
        have h₂ : (b + 1) / 2 ^ 52 = (b / 2 ^ 52 - 1) + 1 + 1 := by omega
        have h₃ : b % 2 ^ 52 = 2 ^ 52 - 1 := by omega
        rw [h₁, h₂, h₃, Nat.add_sub_cancel, pow_succ]
        ring

/-- Greater indices are of greater numbers of units. -/
theorem units_strictMono : StrictMono units :=
  strictMono_nat_of_lt_succ fun b => by
    have := Nat.two_pow_pos (b / 2 ^ 52 - 1)
    rw [units_succ]
    omega

/-- The first float is zero. -/
@[simp] theorem units_zero : units 0 = 0 := rfl

/-- **The floats are ordered as their indices.** -/
theorem val_strictMono : StrictMono val := fun _ _ h =>
  div_lt_div_of_pos_right (Nat.cast_lt.2 (units_strictMono h)) (by exact_mod_cast scale_pos)

/-- The first float is zero. -/
@[simp] theorem val_zero : val 0 = 0 := by simp [val]

/-- The other floats are positive. -/
theorem val_pos {b : ℕ} (hb : 0 < b) : 0 < val b := by
  rw [← val_zero]
  exact val_strictMono hb

/-- The number that a finite binary64 value is. -/
def Binary64.value (x : Binary64) : ℚ := if x.negative then -val x.index else val x.index

/-- A float is not below zero just if it is zero or has no sign. -/
theorem Binary64.value_nonneg {x : Binary64} : 0 ≤ x.value ↔ x.index = 0 ∨ x.negative = false := by
  rw [value]
  rcases Nat.eq_zero_or_pos x.index with h | h
  · simp [h]
  · have hpos := val_pos h
    cases x.negative with
    | false => simp [hpos.le]
    | true => simpa [h.ne'] using hpos

/-- A float is at most one just if it has no more units than one. -/
theorem val_le_one {b : ℕ} : val b ≤ 1 ↔ units b ≤ scale := by
  rw [val, div_le_one (by exact_mod_cast scale_pos), Nat.cast_le]

/-- The number is between zero, of either sign, and one. -/
theorem Binary64.value_mem_unit {x : Binary64} :
    (0 ≤ x.value ∧ x.value ≤ 1) ↔ (x.index = 0 ∨ x.negative = false) ∧ units x.index ≤ scale := by
  rw [value_nonneg]
  refine and_congr_right fun h => ?_
  rw [← val_le_one, value]
  rcases h with h | h
  · simp [h]
  · simp [h]

/-- The gap above the float of index `b` is a power of two. -/
theorem val_succ (b : ℕ) : val (b + 1) = val b + 2 ^ (b / 2 ^ 52 - 1) / scale := by
  simp only [val, units_succ, Nat.cast_add, Nat.cast_pow, Nat.cast_ofNat, add_div]

/-- A number is below `2^53` gaps, whichever side the gap is on. -/
theorem units_lt (b : ℕ) : units b < 2 ^ 53 * 2 ^ (b / 2 ^ 52 - 1) := by
  unfold units
  split_ifs with h
  · have := Nat.two_pow_pos (b / 2 ^ 52 - 1)
    nlinarith
  · have : b % 2 ^ 52 < 2 ^ 52 := Nat.mod_lt _ (by norm_num)
    exact Nat.mul_lt_mul_of_pos_right (by omega) (Nat.two_pow_pos _)

/-- The index of the largest number that is at most `t` units. -/
def floorIndex (t : ℕ) : ℕ := (t.log2 - 52) * 2 ^ 52 + t / 2 ^ (t.log2 - 52)

/-- The subnormal floats and the first normal ones are their indices in units. -/
theorem units_of_lt {b : ℕ} (hb : b < 2 ^ 53) : units b = b := by
  unfold units
  split_ifs with h
  · rfl
  · have h₁ : b / 2 ^ 52 = 1 := by omega
    have h₂ : b % 2 ^ 52 = b - 2 ^ 52 := by omega
    rw [h₁, h₂]
    omega

/-- A normal number is a 53-bit significand times a power of two. -/
theorem units_normal {s m : ℕ} (hs : 1 ≤ s) (h₁ : 2 ^ 52 ≤ m) (h₂ : m < 2 ^ 53) :
    units (s * 2 ^ 52 + m) = m * 2 ^ s := by
  have hd : (s * 2 ^ 52 + m) / 2 ^ 52 = s + 1 := by omega
  have hr : (s * 2 ^ 52 + m) % 2 ^ 52 = m - 2 ^ 52 := by omega
  have hn : ¬ s * 2 ^ 52 + m < 2 ^ 52 := by omega
  simp only [units, hn, ite_false, hd, hr, Nat.add_sub_cancel, Nat.add_sub_cancel' h₁]

/-- The index found brackets `t`. -/
theorem floorIndex_spec (t : ℕ) :
    units (floorIndex t) ≤ t ∧ t < units (floorIndex t + 1) := by
  rcases Nat.lt_or_ge t (2 ^ 53) with h | h
  · have hs : t.log2 - 52 = 0 := by
      rcases Nat.eq_zero_or_pos t with rfl | ht
      · simp
      · have := (Nat.log2_lt (by omega)).2 h
        omega
    have hf : floorIndex t = t := by simp [floorIndex, hs]
    have := Nat.two_pow_pos (t / 2 ^ 52 - 1)
    rw [hf, units_succ, units_of_lt h]
    omega
  · have ht : t ≠ 0 := by omega
    have hlo := Nat.log2_self_le ht
    have hhi := Nat.lt_log2_self (n := t)
    have h53 : 53 ≤ t.log2 := by
      by_contra hlt
      have : t < 2 ^ 53 := (Nat.log2_lt ht).1 (by omega)
      omega
    obtain ⟨s, hs⟩ : ∃ s, t.log2 = s + 52 := ⟨t.log2 - 52, by omega⟩
    rw [hs, pow_add] at hlo
    rw [hs, Nat.add_assoc, pow_add] at hhi
    have h2s : 0 < 2 ^ s := Nat.two_pow_pos s
    have h₁ : 2 ^ 52 ≤ t / 2 ^ s := (Nat.le_div_iff_mul_le h2s).2 (by omega)
    have h₂ : t / 2 ^ s < 2 ^ 53 := (Nat.div_lt_iff_lt_mul h2s).2 (by omega)
    have hf : floorIndex t = s * 2 ^ 52 + t / 2 ^ s := by
      simp only [floorIndex, hs, Nat.add_sub_cancel]
    have hg : (s * 2 ^ 52 + t / 2 ^ s) / 2 ^ 52 - 1 = s := by omega
    rw [hf, units_succ, units_normal (by omega) h₁ h₂, hg]
    refine ⟨Nat.div_mul_le_self t _, ?_⟩
    have := Nat.lt_div_mul_add h2s (a := t)
    omega

/-- The index of the number nearest to `p / d`, ties to even. -/
def nearest (p d : ℕ) : ℕ :=
  let b := floorIndex (p * scale / d)
  let twice := 2 * (p * scale)
  let halfway := (units b + units (b + 1)) * d
  if twice < halfway then b
  else if twice = halfway then if b % 2 = 0 then b else b + 1
  else b + 1

/-- The middle of two floats is half the sum of their units. -/
theorem mid_val (b : ℕ) :
    mid val b = ((units b + units (b + 1) : ℕ) : ℚ) / ((2 * scale : ℕ) : ℚ) := by
  have := scale_ne_zero
  simp only [mid, val, Nat.cast_add, Nat.cast_mul, Nat.cast_ofNat]
  field_simp

/-- A fraction is below the middle of two floats, in units. -/
theorem lt_mid_iff (p : ℕ) {d : ℕ} (hd : 0 < d) (b : ℕ) :
    (p : ℚ) / d < mid val b ↔ 2 * (p * scale) < (units b + units (b + 1)) * d := by
  rw [mid_val, div_lt_div_iff₀ (by exact_mod_cast hd)
    (by exact_mod_cast Nat.mul_pos two_pos scale_pos), ← Nat.cast_mul, ← Nat.cast_mul, Nat.cast_lt,
    Nat.mul_left_comm]

/-- A fraction is the middle of two floats, in units. -/
theorem eq_mid_iff (p : ℕ) {d : ℕ} (hd : 0 < d) (b : ℕ) :
    (p : ℚ) / d = mid val b ↔ 2 * (p * scale) = (units b + units (b + 1)) * d := by
  rw [mid_val, div_eq_div_iff (by exact_mod_cast hd.ne')
    (by exact_mod_cast (Nat.mul_pos two_pos scale_pos).ne'), ← Nat.cast_mul, ← Nat.cast_mul,
    Nat.cast_inj, Nat.mul_left_comm]

/-- **`nearest` rounds to nearest, ties to even.** -/
theorem roundsTo_nearest (p : ℕ) {d : ℕ} (hd : 0 < d) :
    RoundsTo val ((p : ℚ) / d) (nearest p d) := by
  have hdq : (0 : ℚ) < d := by exact_mod_cast hd
  have hsq : (0 : ℚ) < scale := by exact_mod_cast scale_pos
  obtain ⟨hlo, hhi⟩ := floorIndex_spec (p * scale / d)
  rw [Nat.le_div_iff_mul_le hd] at hlo
  rw [Nat.div_lt_iff_lt_mul hd] at hhi
  unfold nearest
  generalize floorIndex (p * scale / d) = b at hlo hhi ⊢
  have hle : val b ≤ (p : ℚ) / d := by
    rw [val, div_le_div_iff₀ hsq hdq]
    exact_mod_cast hlo
  have hlt : (p : ℚ) / d < val (b + 1) := by
    rw [val, div_lt_div_iff₀ hdq hsq]
    exact_mod_cast hhi
  have habove : ∀ a, a + 1 = b → mid val a < (p : ℚ) / d ∨ mid val a = (p : ℚ) / d ∧ Even b := by
    rintro a rfl
    exact Or.inl (lt_of_lt_of_le (mid_lt val_strictMono a) hle)
  have hbelow : (p : ℚ) / d < mid val (b + 1) := hlt.trans (lt_mid val_strictMono (b + 1))
  simp only
  split_ifs with h₁ h₂ h₃
  · exact ⟨habove, Or.inl ((lt_mid_iff p hd b).2 h₁)⟩
  · exact ⟨habove, Or.inr ⟨(eq_mid_iff p hd b).2 h₂, Nat.even_iff.2 h₃⟩⟩
  · have heven : Even (b + 1) := (Nat.odd_iff.2 (by omega)).add_one
    refine ⟨fun a ha => ?_, Or.inl hbelow⟩
    obtain rfl : b = a := by omega
    exact Or.inr ⟨((eq_mid_iff p hd b).2 h₂).symm, heven⟩
  · refine ⟨fun a ha => ?_, Or.inl hbelow⟩
    obtain rfl : b = a := by omega
    refine Or.inl (lt_of_le_of_ne (not_lt.1 fun h => h₁ ((lt_mid_iff p hd b).1 h)) fun h => ?_)
    exact h₂ ((eq_mid_iff p hd b).1 h.symm)

/-- A rational given by two fractions rounds to one index. -/
theorem nearest_eq_iff {p d : ℕ} (hd : 0 < d) {q : ℚ} (hq : q = (p : ℚ) / d) (b : ℕ) :
    nearest p d = b ↔ RoundsTo val q b := by
  subst hq
  exact ⟨fun h => h ▸ roundsTo_nearest p hd,
    (roundsTo_nearest p hd).unique val_strictMono⟩

/-- The decimal `m · 10^e`, rounded once. -/
def ofDecimal (m : ℕ) : ℤ → ℕ
  | .ofNat e => nearest (m * 10 ^ e) 1
  | .negSucc e => nearest m (10 ^ (e + 1))

/-- `ofDecimal` rounds the decimal number to the nearest float, ties to even. -/
theorem ofDecimal_eq_iff (m : ℕ) (e : ℤ) (b : ℕ) :
    ofDecimal m e = b ↔ RoundsTo val (m * 10 ^ e) b := by
  cases e with
  | ofNat e => exact nearest_eq_iff one_pos (by simp) b
  | negSucc e =>
    exact nearest_eq_iff (by positivity) (by rw [zpow_negSucc, div_eq_mul_inv]; simp) b

/-- The product of two numbers, rounded once. -/
def mulIndex (a b : ℕ) : ℕ := nearest (units a * units b) (scale * scale)

/-- The quotient of two numbers, rounded once. -/
def divIndex (a b : ℕ) : ℕ := nearest (units a) (units b)

/-- The product of two floats is rounded to the nearest float, ties to even. -/
theorem mulIndex_eq_iff (a b c : ℕ) : mulIndex a b = c ↔ RoundsTo val (val a * val b) c :=
  nearest_eq_iff (Nat.mul_pos scale_pos scale_pos)
    (by simp only [val, Nat.cast_mul]; rw [div_mul_div_comm]) c

/-- The quotient of two floats is rounded to the nearest float, ties to even. -/
theorem divIndex_eq_iff (a : ℕ) {b : ℕ} (hb : 0 < b) (c : ℕ) :
    divIndex a b = c ↔ RoundsTo val (val a / val b) c :=
  nearest_eq_iff (by rw [← units_zero]; exact units_strictMono hb)
    (by simp only [val]; rw [div_div_div_cancel_right₀ scale_ne_zero]) c

example : Binary64.ofBits 0x3fd3333333333334 =
    some ⟨false, ofDecimal 30000000000000004 (-17), by decide +kernel⟩ := by decide +kernel

/-! ### One and two -/

/-- The index of one. -/
def one : ℕ := 1023 * 2 ^ 52

/-- One has all its units. -/
theorem units_one : units one = scale := by
  have h := units_normal (s := 1022) (m := 2 ^ 52) (by decide) (by decide) (by decide)
  rw [show one = 1022 * 2 ^ 52 + 2 ^ 52 from rfl, h, ← pow_add]
  unfold scale leastExponent
  rfl

/-- A float is at most one just if its index is. -/
theorem units_le_scale {b : ℕ} : units b ≤ scale ↔ b ≤ one := by
  rw [← units_one, units_strictMono.le_iff_le]

/-- A larger integer is not nearest to a smaller number. -/
theorem nearest_mono {m n : ℕ} (h : m ≤ n) : nearest m 1 ≤ nearest n 1 :=
  (roundsTo_nearest m Nat.one_pos).mono val_strictMono (by simpa using h) (roundsTo_nearest n Nat.one_pos)

end Rounding
end Vestrix
