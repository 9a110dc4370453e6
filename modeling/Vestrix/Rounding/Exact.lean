/-
# Integers that are binary64 numbers

An integer with at most 53 bits before some zeros is a finite number, as long as it is less
than `2^1024`, and is then not changed by rounding.  Rounding a rational is therefore monotone, and
keeps it on its side of such an integer.
-/

import Vestrix.Rounding.Binary64

namespace Vestrix
namespace Rounding

/-- A positive integer is rounded to a positive float. -/
theorem nearest_pos {m : ℕ} (hm : 0 < m) : 0 < nearest m 1 := by
  have hone : 0 < nearest 1 1 := by decide +kernel
  exact hone.trans_le (nearest_mono hm)

/-- An integer with at most 53 bits before some zeros is a number. -/
theorem exists_val {a : ℕ} (ha : a < 2 ^ 53) (i : ℕ) : ∃ b, val b = ((a * 2 ^ i : ℕ) : ℚ) := by
  have hunits : ∀ j, ∃ b, units b = a * 2 ^ j := by
    intro j
    induction j with
    | zero => exact ⟨a, by rw [units_of_lt ha, pow_zero, Nat.mul_one]⟩
    | succ j ih =>
      obtain ⟨b, hb⟩ := ih
      rcases Nat.lt_or_ge b (2 ^ 52) with hsub | hnormal
      · -- twice a subnormal number is the number of twice its index
        have hlt : b < 2 ^ 53 := by omega
        rw [units_of_lt hlt] at hb
        exact ⟨2 * b, by rw [units_of_lt (by omega), hb, pow_succ]; ring⟩
      · refine ⟨b + 2 ^ 52, ?_⟩
        have hdiv : (b + 2 ^ 52) / 2 ^ 52 - 1 = (b / 2 ^ 52 - 1) + 1 := by omega
        have hmod : (b + 2 ^ 52) % 2 ^ 52 = b % 2 ^ 52 := by omega
        have hnot : ¬ b < 2 ^ 52 := by omega
        have hnot' : ¬ b + 2 ^ 52 < 2 ^ 52 := by omega
        rw [units, if_neg hnot] at hb
        rw [units, if_neg hnot', hdiv, hmod, pow_succ 2 (b / 2 ^ 52 - 1), ← Nat.mul_assoc, hb,
          pow_succ 2 j, ← Nat.mul_assoc]
  obtain ⟨b, hb⟩ := hunits (i + leastExponent)
  refine ⟨b, ?_⟩
  rw [val, div_eq_iff scale_ne_zero, hb, pow_add, ← Nat.mul_assoc, Nat.cast_mul]
  unfold scale
  rfl

/-- A number that is an integer is what the integer is rounded to. -/
theorem val_nearest {n b : ℕ} (h : val b = n) : val (nearest n 1) = n := by
  have hround := roundsTo_self val_strictMono b
  rw [h] at hround
  rw [(nearest_eq_iff Nat.one_pos (by rw [Nat.cast_one, div_one]) b).2 hround, h]

/-- An integer up to `2 ^ 53` is a float. -/
theorem val_nearest_of_le {m : ℕ} (hm : m ≤ 2 ^ 53) : val (nearest m 1) = m := by
  rcases hm.lt_or_eq with hlt | rfl
  · obtain ⟨b, hb⟩ := exists_val hlt 0
    rw [pow_zero, Nat.mul_one] at hb
    exact val_nearest hb
  · obtain ⟨b, hb⟩ := exists_val (a := 1) (by norm_num) 53
    rw [Nat.one_mul] at hb
    exact val_nearest hb

/-- The finite numbers end where the powers of two do not fit. -/
theorem val_infinite : val infinite = 2 ^ 1024 := by
  have hunits := units_normal (s := 2046) (m := 2 ^ 52) (by decide) (by decide) (by decide)
  rw [← show infinite = 2046 * 2 ^ 52 + 2 ^ 52 from rfl, ← pow_add] at hunits
  rw [val, hunits, div_eq_iff scale_ne_zero]
  unfold scale leastExponent
  rw [Nat.cast_pow, Nat.cast_pow, Nat.cast_ofNat, ← pow_add]

/-- An integer that is a number is finite when it is less than `2^1024`. -/
theorem nearest_lt_infinite_iff {n b : ℕ} (h : val b = n) : nearest n 1 < infinite ↔ n < 2 ^ 1024 := by
  rw [← val_strictMono.lt_iff_lt, val_nearest h, val_infinite]
  exact_mod_cast Iff.rfl

/-- Past an odd index and the halfway point behind it is the same. -/
theorem RoundsTo.lt_iff {g : ℕ → ℚ} (hg : StrictMono g) {q : ℚ} {b c : ℕ} (hc : Even (c + 1))
    (h : RoundsTo g q b) : c < b ↔ mid g c ≤ q := by
  constructor
  · intro hlt
    obtain ⟨a, rfl⟩ : ∃ a, b = a + 1 := ⟨b - 1, by omega⟩
    exact ((mid_strictMono hg).monotone (by omega)).trans h.mid_le
  · intro hle
    by_contra hnot
    have hmid : mid g b ≤ mid g c := (mid_strictMono hg).monotone (Nat.not_lt.1 hnot)
    rcases h.below with hq | ⟨hq, heven⟩
    · exact absurd (hle.trans_lt hq) (not_lt.2 hmid)
    · have hbc : b = c := (mid_strictMono hg).injective (le_antisymm hmid (hq ▸ hle))
      rw [hbc] at heven
      exact (Nat.even_add_one.1 hc) heven

/-- **The integers that do not fit** are those from halfway between the largest number and the next
power of two on. -/
theorem infinite_le_nearest_iff {n : ℕ} : infinite ≤ nearest n 1 ↔ 2 ^ 1024 - 2 ^ 970 ≤ n := by
  have hround : RoundsTo val n (nearest n 1) :=
    (nearest_eq_iff Nat.one_pos (by rw [Nat.cast_one, div_one]) _).1 rfl
  have hsucc : infinite - 1 + 1 = infinite := rfl
  have hindex : (infinite - 1) / 2 ^ 52 - 1 = 971 + leastExponent := by
    norm_num [infinite, leastExponent]
  have hle : 2 ^ 970 ≤ 2 ^ 1024 := Nat.pow_le_pow_right Nat.two_pos (by norm_num)
  have hpow : (2 : ℚ) ^ 971 = 2 * 2 ^ 970 := pow_succ' 2 970
  have hlast : val (infinite - 1 + 1) = val (infinite - 1) + 2 ^ 971 := by
    rw [val_succ, hindex, add_right_inj, div_eq_iff scale_ne_zero]
    unfold scale leastExponent
    rw [Nat.cast_pow, Nat.cast_ofNat, ← pow_add]
  have hmid : mid val (infinite - 1) = ((2 ^ 1024 - 2 ^ 970 : ℕ) : ℚ) := by
    rw [hsucc, val_infinite] at hlast
    rw [mid, hsucc, val_infinite, eq_sub_of_add_eq hlast.symm,
      Nat.cast_sub hle, Nat.cast_pow, Nat.cast_pow, Nat.cast_ofNat, hpow]
    generalize (2 : ℚ) ^ 1024 = a, (2 : ℚ) ^ 970 = b
    ring
  have hcast : 2 ^ 1024 - 2 ^ 970 ≤ n ↔ mid val (infinite - 1) ≤ n := by rw [hmid, Nat.cast_le]
  have heven : Even (infinite - 1 + 1) := by decide
  have hpos : 0 < infinite := by decide
  rw [hcast, ← hround.lt_iff val_strictMono heven]
  omega

/-! ### Rounding a rational -/

/-- The number that a rational of at least zero is rounded to. -/
def rounded (q : ℚ) : ℚ := val (nearest q.num.toNat q.den)

/-- The float of `rounded` is the nearest one, ties to even. -/
theorem roundsTo_rounded {q : ℚ} (hq : 0 ≤ q) : RoundsTo val q (nearest q.num.toNat q.den) := by
  have hnum : ((q.num.toNat : ℕ) : ℤ) = q.num := Int.toNat_of_nonneg (Rat.num_nonneg.2 hq)
  refine (nearest_eq_iff q.pos ?_ _).1 rfl
  rw [← Int.cast_natCast, hnum]
  exact (Rat.num_div_den q).symm

/-- Rounding is monotone. -/
theorem rounded_mono {p q : ℚ} (hp : 0 ≤ p) (hpq : p ≤ q) : rounded p ≤ rounded q :=
  val_strictMono.monotone
    ((roundsTo_rounded hp).mono val_strictMono hpq (roundsTo_rounded (hp.trans hpq)))

/-- An integer of at most 53 bits is not changed. -/
theorem rounded_natCast {m : ℕ} (hm : m ≤ 2 ^ 53) : rounded m = m := by
  rw [rounded, Rat.num_natCast, Rat.den_natCast, Int.toNat_natCast, val_nearest_of_le hm]

/-- A rational that is not less than such an integer is not rounded to less. -/
theorem le_rounded {m : ℕ} {q : ℚ} (hm : m ≤ 2 ^ 53) (h : m ≤ q) : m ≤ rounded q :=
  (rounded_natCast hm).symm.trans_le (rounded_mono (Nat.cast_nonneg m) h)

/-- A rational that is not more than such an integer is not rounded to more. -/
theorem rounded_le {m : ℕ} {q : ℚ} (hm : m ≤ 2 ^ 53) (hq : 0 ≤ q) (h : q ≤ m) : rounded q ≤ m :=
  (rounded_mono hq h).trans_eq (rounded_natCast hm)

/-- Rounding goes not below zero. -/
theorem rounded_nonneg {q : ℚ} : 0 ≤ rounded q := div_nonneg (Nat.cast_nonneg _) (Nat.cast_nonneg _)

end Rounding
end Vestrix
