/-
# The delay before a retry

`retry_delay_seconds`: an exponential delay that is capped, and a jitter in proportion to the
delay that is not.  The jitter is a product of an integer and floats, for which the integer
must fit into a binary64 number; products and sums of floats are exact in `retryDelaySeconds` and
rounded in `retryDelayFloat`.

The delay is bounded and monotone where it exists, and it exists for the first 1015 attempts
(`backoff_iff`).  Rounding keeps its bounds (`retryDelayFloat_bounds`).
-/

import Vestrix.Outcome
import Vestrix.Rounding.Exact

namespace Vestrix
namespace Anchor

open Rounding Outcome

/-- What `retry_delay_seconds` raises. -/
inductive DelayError where
  | attemptCount
  | jitterSample
  | overflow
deriving DecidableEq

/-- `BACKOFF_BASE_SECONDS`. -/
def backoffBaseSeconds : ℕ := 15 * 60

/-- `BACKOFF_MAX_SECONDS`. -/
def backoffMaxSeconds : ℕ := 24 * 60 * 60

/-- `BACKOFF_JITTER_RATIO`. -/
def backoffJitterRatio : ℚ := 1 / 4

/-- `BACKOFF_FINAL_MAX_SECONDS`. -/
def backoffFinalMaxSeconds : ℚ := backoffMaxSeconds * (5 / 4)

/-- The conversion of an integer that is multiplied by a float. -/
def toFloat (n : ℕ) : Except DelayError ℚ := do
  require (nearest n 1 < infinite) .overflow
  return val (nearest n 1)

/-- `retry_delay_seconds`. -/
def retryDelaySeconds (attemptCount : ℤ) (jitterSample : ℚ) : Except DelayError ℚ := do
  require (¬ attemptCount < 1) .attemptCount
  require (0 ≤ jitterSample ∧ jitterSample ≤ 1) .jitterSample
  let rawDelay := backoffBaseSeconds * 2 ^ (attemptCount - 1).toNat
  let cappedDelay := min rawDelay backoffMaxSeconds
  let factor ← toFloat rawDelay
  let jitter := factor * backoffJitterRatio * jitterSample
  return min (cappedDelay + jitter) backoffFinalMaxSeconds

/-- The delay of an attempt, where it exists. -/
def delay (n : ℕ) (jitterSample : ℚ) : ℚ :=
  min ((min (backoffBaseSeconds * 2 ^ n) backoffMaxSeconds : ℕ) +
    ((backoffBaseSeconds * 2 ^ n : ℕ) : ℚ) * backoffJitterRatio * jitterSample) backoffFinalMaxSeconds

/-- The delay of an attempt exists, is between its bounds, and is not less than that of an earlier
attempt or a smaller sample. -/
def Backoff (attemptCount : ℤ) (jitterSample : ℚ) : Prop :=
  ∃ d, retryDelaySeconds attemptCount jitterSample = .ok d ∧
    min (900 * 2 ^ (attemptCount - 1).toNat) 86400 ≤ d ∧ d ≤ 108000 ∧
    ∀ earlier sample, 1 ≤ earlier → earlier ≤ attemptCount → 0 ≤ sample → sample ≤ jitterSample →
      ∃ d', retryDelaySeconds earlier sample = .ok d' ∧ d' ≤ d

variable {attemptCount : ℤ} {jitterSample : ℚ} {n m : ℕ}

/-! ### The conversion -/

/-- Each `900 * 2 ^ n` is a binary64 number, as its significand is short. -/
theorem exists_val_delay (n : ℕ) : ∃ b, val b = ((backoffBaseSeconds * 2 ^ n : ℕ) : ℚ) :=
  exists_val (by decide) n

/-- The delay is less than `2 ^ 1024` for the first exponents only. -/
theorem delay_lt_iff : backoffBaseSeconds * 2 ^ n < 2 ^ 1024 ↔ n ≤ 1014 := by
  constructor
  · intro h
    by_contra hlt
    have hle : 2 ^ 1024 ≤ 2 ^ 9 * 2 ^ n := by
      rw [← pow_add]
      exact Nat.pow_le_pow_right (by decide) (by omega)
    exact absurd (h.trans_le hle) (Nat.not_lt_of_le (Nat.mul_le_mul_right _ (by decide)))
  · intro h
    calc backoffBaseSeconds * 2 ^ n < 2 ^ 10 * 2 ^ n :=
          Nat.mul_lt_mul_of_pos_right (by decide) (Nat.two_pow_pos n)
      _ = 2 ^ (10 + n) := (pow_add 2 10 n).symm
      _ ≤ 2 ^ 1024 := Nat.pow_le_pow_right (by decide) (by omega)

/-- `900 * 2 ^ n` fits a float up to `n = 1014`, and is then exact. -/
theorem toFloat_eq_ok {factor : ℚ} : toFloat (backoffBaseSeconds * 2 ^ n) = .ok factor ↔
    n ≤ 1014 ∧ factor = ((backoffBaseSeconds * 2 ^ n : ℕ) : ℚ) := by
  obtain ⟨b, hb⟩ := exists_val_delay n
  simp only [toFloat, bind_eq_ok, require_eq_ok, exists_const, val_nearest hb]
  rw [nearest_lt_infinite_iff hb, delay_lt_iff]
  constructor
  · rintro ⟨hn, h⟩
    exact ⟨hn, (Except.ok.inj h).symm⟩
  · rintro ⟨hn, rfl⟩
    exact ⟨hn, rfl⟩

/-- **There is a delay for the attempts 1 to 1015** and the samples from 0 to 1, and `delay` is its
value. -/
theorem retryDelaySeconds_eq_ok {d : ℚ} : retryDelaySeconds attemptCount jitterSample = .ok d ↔
    (1 ≤ attemptCount ∧ attemptCount ≤ 1015) ∧ (0 ≤ jitterSample ∧ jitterSample ≤ 1) ∧
      d = delay (attemptCount - 1).toNat jitterSample := by
  simp only [retryDelaySeconds, bind_eq_ok, require_eq_ok, toFloat_eq_ok, exists_const, not_lt]
  constructor
  · rintro ⟨hcount, hsample, factor, ⟨hn, rfl⟩, h⟩
    exact ⟨⟨hcount, by omega⟩, hsample, (Except.ok.inj h).symm⟩
  · rintro ⟨⟨hcount, hn⟩, hsample, rfl⟩
    exact ⟨hcount, hsample, _, ⟨by omega, rfl⟩, rfl⟩

/-! ### Bounds and order -/

/-- The longest delay is thirty hours. -/
theorem backoffFinalMaxSeconds_eq : backoffFinalMaxSeconds = 108000 := by
  norm_num [backoffFinalMaxSeconds, backoffMaxSeconds]

/-- No delay is longer than thirty hours. -/
theorem delay_le : delay n jitterSample ≤ 108000 :=
  (min_le_right _ _).trans_eq backoffFinalMaxSeconds_eq

/-- A delay is at least the doubled base, or a day. -/
theorem le_delay (h : 0 ≤ jitterSample) : min (900 * 2 ^ n) 86400 ≤ delay n jitterSample := by
  have hjitter : 0 ≤ ((backoffBaseSeconds * 2 ^ n : ℕ) : ℚ) * backoffJitterRatio * jitterSample :=
    mul_nonneg (mul_nonneg (Nat.cast_nonneg _) (by norm_num [backoffJitterRatio])) h
  have hcapped : min ((900 : ℚ) * 2 ^ n) 86400 = (min (backoffBaseSeconds * 2 ^ n) backoffMaxSeconds : ℕ) := by
    rw [Nat.cast_min, Nat.cast_mul, Nat.cast_pow]
    norm_num [backoffBaseSeconds, backoffMaxSeconds]
  rw [delay, hcapped]
  refine le_min (le_add_of_nonneg_right hjitter) ?_
  rw [← hcapped, backoffFinalMaxSeconds_eq]
  exact (min_le_right _ _).trans (by norm_num)

/-- The delay grows with the attempts and with the sample. -/
theorem delay_mono {sample : ℚ} (hn : n ≤ m) (hsample : 0 ≤ sample) (h : sample ≤ jitterSample) :
    delay n sample ≤ delay m jitterSample := by
  have hraw : backoffBaseSeconds * 2 ^ n ≤ backoffBaseSeconds * 2 ^ m :=
    Nat.mul_le_mul_left _ (Nat.pow_le_pow_right (by decide) hn)
  have hratio : (0 : ℚ) ≤ backoffJitterRatio := by norm_num [backoffJitterRatio]
  refine min_le_min_right _ (add_le_add (Nat.cast_le.2 (min_le_min_right _ hraw)) ?_)
  exact mul_le_mul (mul_le_mul_of_nonneg_right (Nat.cast_le.2 hraw) hratio) h hsample
    (mul_nonneg (Nat.cast_nonneg _) hratio)

/-- **The delay is total, bounded and monotone for the first 1015 attempts**, and raises an
exception from then on. -/
theorem backoff_iff (hcount : 1 ≤ attemptCount) (hsample : 0 ≤ jitterSample ∧ jitterSample ≤ 1) :
    Backoff attemptCount jitterSample ↔ attemptCount ≤ 1015 := by
  constructor
  · rintro ⟨d, hd, -⟩
    exact (retryDelaySeconds_eq_ok.1 hd).1.2
  · intro h
    refine ⟨_, retryDelaySeconds_eq_ok.2 ⟨⟨hcount, h⟩, hsample, rfl⟩, le_delay hsample.1, delay_le,
      fun earlier sample hearlier hle hsample₀ hsample₁ => ?_⟩
    exact ⟨_, retryDelaySeconds_eq_ok.2 ⟨⟨hearlier, hle.trans h⟩, ⟨hsample₀, hsample₁.trans hsample.2⟩, rfl⟩,
      delay_mono (by omega) hsample₀ hsample₁⟩

/-- The twentieth attempt has a delay. -/
theorem backoff_iff_twentieth : Backoff 20 1 :=
  (backoff_iff (by decide) ⟨by norm_num, le_refl 1⟩).2 (by decide)

/-- **There is an attempt without a delay.** -/
theorem backoff_overflows : ¬ ∀ (attemptCount : ℤ) (jitterSample : ℚ), 1 ≤ attemptCount →
    0 ≤ jitterSample ∧ jitterSample ≤ 1 → Backoff attemptCount jitterSample := by
  intro h
  obtain ⟨d, hd, -⟩ := h 1016 0 (by decide) ⟨le_refl 0, by norm_num⟩
  exact absurd (retryDelaySeconds_eq_ok.1 hd).1.2 (by decide)

/-! ### In binary64 -/

/-- `retry_delay_seconds` with the products and the sum of floats rounded to binary64.  The other numbers are
binary64 numbers already. -/
def retryDelayFloat (attemptCount : ℤ) (jitterSample : ℚ) : Except DelayError ℚ := do
  require (¬ attemptCount < 1) .attemptCount
  require (0 ≤ jitterSample ∧ jitterSample ≤ 1) .jitterSample
  let rawDelay := backoffBaseSeconds * 2 ^ (attemptCount - 1).toNat
  let cappedDelay := min rawDelay backoffMaxSeconds
  let factor ← toFloat rawDelay
  let jitter := rounded (rounded (factor * backoffJitterRatio) * jitterSample)
  return min (rounded (cappedDelay + jitter)) backoffFinalMaxSeconds

/-- **The delay in binary64** exists for the first 1015 attempts only, and is between the same bounds. -/
theorem retryDelayFloat_bounds {d : ℚ} (h : retryDelayFloat attemptCount jitterSample = .ok d) :
    (1 ≤ attemptCount ∧ attemptCount ≤ 1015) ∧
      (min (900 * 2 ^ (attemptCount - 1).toNat) 86400 : ℕ) ≤ d ∧ d ≤ (108000 : ℕ) := by
  simp only [retryDelayFloat, bind_eq_ok, require_eq_ok, toFloat_eq_ok, exists_const, not_lt] at h
  obtain ⟨hcount, ⟨hsample, -⟩, factor, ⟨hn, rfl⟩, h⟩ := h
  obtain rfl := Except.ok.inj h
  refine ⟨⟨hcount, by omega⟩, le_min (le_rounded ?_ ?_) ?_, ?_⟩
  · exact (min_le_right _ _).trans (by norm_num)
  · exact le_add_of_nonneg_right rounded_nonneg
  · rw [backoffFinalMaxSeconds_eq]
    exact (Nat.cast_le.2 (min_le_right _ _)).trans (by norm_num)
  · exact (min_le_right _ _).trans_eq (by rw [backoffFinalMaxSeconds_eq]; norm_num)

end Anchor
end Vestrix
