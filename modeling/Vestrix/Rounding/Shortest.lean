/-
# The shortest decimal that rounds to a binary64 number

`shortest b` is the decimal `m · 10^e` that CPython's `repr` and Ryu print for
the positive number of index `b`: of the decimals that round to it those with
the largest exponent, and of these the nearest.  `candidate b p` looks at one
exponent `p`, where only the multiples of `10^p` just below and just above the
number need to be tried (`exists_candidate`), and `search` goes down from the
largest exponent to the first with a candidate.

The search always ends with a decimal that rounds back
(`ofDecimal_shortest`): seventeen significant digits are enough, because a
number is below `2^53` times the gap on either side of it and `2^53 < 10^16`.
-/

import Vestrix.Rounding.Binary64
import Mathlib.Data.Int.Log
import Mathlib.Data.Rat.Floor

namespace Vestrix
namespace Rounding

/-- The number of index `b` divided by `10^p`, as a fraction. -/
def scaled (b : ℕ) : ℤ → ℕ × ℕ
  | .ofNat p => (units b, scale * 10 ^ p)
  | .negSucc p => (units b * 10 ^ (p + 1), scale)

/-- The multiple of `10^p` just below the number of index `b`. -/
def lowerDigits (b : ℕ) (p : ℤ) : ℕ := (scaled b p).1 / (scaled b p).2

/-- Of the two multiples `m · 10^p` around the number of index `b`, the nearer of
those that round to it, ties to even. -/
def candidate (b : ℕ) (p : ℤ) : Option ℕ :=
  let m := lowerDigits b p
  if ofDecimal m p = b then
    if ofDecimal (m + 1) p = b then
      let twice := 2 * (scaled b p).1
      let halfway := (2 * m + 1) * (scaled b p).2
      if twice < halfway ∨ twice = halfway ∧ m % 2 = 0 then some m else some (m + 1)
    else some m
  else if ofDecimal (m + 1) p = b then some (m + 1)
  else none

/-- An exponent above which no multiple of a power of ten rounds to the number of
index `b`, since `2^3 < 10`. -/
def start (b : ℕ) : ℤ := (units b / scale).log2 / 3 + 1

/-- The first of `n` exponents downwards from `p` with a candidate. -/
def search (b : ℕ) : ℕ → ℤ → ℕ × ℤ
  | 0, p => (0, p)
  | n + 1, p =>
    match candidate b p with
    | some m => (m, p)
    | none => search b n (p - 1)

/-- The shortest decimal `m · 10^e` that rounds to the number of index `b`. -/
def shortest (b : ℕ) : ℕ × ℤ := if b = 0 then (0, 0) else search b 700 (start b)

/-- The denominator of a scaled float is positive. -/
theorem scaled_pos (b : ℕ) (p : ℤ) : 0 < (scaled b p).2 := by
  cases p with
  | ofNat p => exact Nat.mul_pos scale_pos (Nat.pow_pos (by norm_num))
  | negSucc p => exact scale_pos

/-- A float is its scaled fraction, times the power of ten. -/
theorem val_eq_scaled (b : ℕ) (p : ℤ) :
    val b = ((scaled b p).1 : ℚ) / (scaled b p).2 * 10 ^ p := by
  have hs := scale_ne_zero
  cases p with
  | ofNat p =>
    simp only [scaled, val, Int.ofNat_eq_natCast, zpow_natCast, Nat.cast_mul, Nat.cast_pow,
      Nat.cast_ofNat]
    field_simp
  | negSucc p =>
    simp only [scaled, val, zpow_negSucc, Nat.cast_mul, Nat.cast_pow, Nat.cast_ofNat]
    field_simp

/-- `lowerDigits` brackets the number between neighbouring multiples. -/
theorem lowerDigits_spec (b : ℕ) (p : ℤ) :
    (lowerDigits b p : ℚ) * 10 ^ p ≤ val b ∧ val b < ((lowerDigits b p + 1 : ℕ) : ℚ) * 10 ^ p := by
  have hd := scaled_pos b p
  have hdq : (0 : ℚ) < (scaled b p).2 := by exact_mod_cast hd
  have hp : (0 : ℚ) < 10 ^ p := by positivity
  rw [val_eq_scaled b p]
  constructor
  · refine mul_le_mul_of_nonneg_right ((le_div_iff₀ hdq).2 ?_) hp.le
    exact_mod_cast Nat.div_mul_le_self _ _
  · refine mul_lt_mul_of_pos_right ((div_lt_iff₀ hdq).2 ?_) hp
    exact_mod_cast Nat.lt_mul_of_div_lt (Nat.lt_succ_self _) hd

/-- A candidate rounds back, and is one of the two neighbouring multiples. -/
theorem candidate_spec {b m : ℕ} {p : ℤ} (h : candidate b p = some m) :
    ofDecimal m p = b ∧ m ≤ lowerDigits b p + 1 := by
  unfold candidate at h
  simp only at h
  split_ifs at h with h₁ h₂ h₃ h₂ <;> obtain rfl := Option.some.inj h
  · exact ⟨h₁, Nat.le_succ _⟩
  · exact ⟨h₂, le_rfl⟩
  · exact ⟨h₁, Nat.le_succ _⟩
  · exact ⟨h₂, le_rfl⟩

/-- **Two multiples are enough.**  If any multiple of `10^p` rounds to the number,
so does the neighbouring one on its side. -/
theorem exists_candidate {b d : ℕ} {p : ℤ} (h : RoundsTo val (d * 10 ^ p) b) :
    ∃ m, candidate b p = some m := by
  obtain ⟨hlo, hhi⟩ := lowerDigits_spec b p
  have hp : (0 : ℚ) < 10 ^ p := by positivity
  have hself := roundsTo_self val_strictMono b
  have hround : ofDecimal (lowerDigits b p) p = b ∨ ofDecimal (lowerDigits b p + 1) p = b := by
    rcases Nat.lt_or_ge (lowerDigits b p) d with hd | hd
    · right
      rw [ofDecimal_eq_iff]
      have hle : ((lowerDigits b p + 1 : ℕ) : ℚ) * 10 ^ p ≤ d * 10 ^ p :=
        mul_le_mul_of_nonneg_right (by exact_mod_cast hd) hp.le
      exact hself.convex h hhi.le hle
    · left
      rw [ofDecimal_eq_iff]
      have hle : (d : ℚ) * 10 ^ p ≤ lowerDigits b p * 10 ^ p :=
        mul_le_mul_of_nonneg_right (by exact_mod_cast hd) hp.le
      exact h.convex hself hle hlo
  unfold candidate
  simp only
  rcases hround with h₁ | h₂
  · rw [if_pos h₁]
    split_ifs <;> exact ⟨_, rfl⟩
  · split_ifs <;> exact ⟨_, rfl⟩

/-- A number is far below `10^16` times the gaps beside it. -/
theorem val_lt_gap (b : ℕ) :
    val b < 10 ^ 16 * (val (b + 1) - val b) ∧
      ∀ a, a + 1 = b → val b < 10 ^ 16 * (val b - val a) := by
  have hs : (0 : ℚ) < scale := by exact_mod_cast scale_pos
  have hlt : ∀ c, val c < 2 ^ 53 * (val (c + 1) - val c) := by
    intro c
    rw [val_succ, add_sub_cancel_left, val, ← mul_div_assoc]
    exact div_lt_div_of_pos_right (by exact_mod_cast units_lt c) hs
  have hgap : ∀ c, 0 < val (c + 1) - val c := fun c =>
    sub_pos.2 (val_strictMono (Nat.lt_succ_self c))
  refine ⟨(hlt b).trans_le (mul_le_mul_of_nonneg_right (by norm_num) (hgap b).le), ?_⟩
  rintro a rfl
  have h₁ := hlt a
  have h₂ := hgap a
  linarith

/-- **Seventeen digits are enough.**  Where `10^p` is at most a `10^16`th of the
number, the nearer multiple of `10^p` rounds to it. -/
theorem exists_candidate_of_fine {b : ℕ} {p : ℤ} (hp : (10 : ℚ) ^ p * 10 ^ 16 ≤ val b) :
    ∃ m, candidate b p = some m := by
  obtain ⟨hlo, hhi⟩ := lowerDigits_spec b p
  obtain ⟨hup, hdown⟩ := val_lt_gap b
  push_cast at hhi
  have hnear : ∃ d : ℕ, 2 * |(d : ℚ) * 10 ^ p - val b| ≤ 10 ^ p := by
    rcases le_total (2 * (val b - lowerDigits b p * 10 ^ p)) (10 ^ p) with h | h
    · refine ⟨lowerDigits b p, ?_⟩
      rw [abs_sub_comm, abs_of_nonneg (by linarith)]
      exact h
    · refine ⟨lowerDigits b p + 1, ?_⟩
      push_cast
      rw [abs_of_nonneg (by linarith)]
      linarith
  obtain ⟨d, hd⟩ := hnear
  refine exists_candidate (d := d) (roundsTo_of_near (by linarith) fun a ha => ?_)
  have := hdown a ha
  linarith

/-- What `search` returns when some exponent in its range has a candidate: the
candidate of the largest such exponent. -/
theorem search_spec {b : ℕ} {q : ℤ} (hq : ∃ m, candidate b q = some m) :
    ∀ (n : ℕ) (p : ℤ), q ≤ p → p < q + n →
      candidate b (search b n p).2 = some (search b n p).1 ∧ q ≤ (search b n p).2 ∧
        (search b n p).2 ≤ p ∧ ∀ r, (search b n p).2 < r → r ≤ p → candidate b r = none
  | 0, p, h₁, h₂ => by simp at h₂; omega
  | n + 1, p, h₁, h₂ => by
    rw [search]
    cases hc : candidate b p with
    | some m =>
      exact ⟨hc, h₁, le_rfl, fun r h₃ h₄ => absurd h₄ (not_le.2 h₃)⟩
    | none =>
      have hne : q ≠ p := by
        rintro rfl
        obtain ⟨m, hm⟩ := hq
        rw [hc] at hm
        cases hm
      push_cast at h₂
      obtain ⟨ih₁, ih₂, ih₃, ih₄⟩ := search_spec hq n (p - 1) (by omega) (by omega)
      refine ⟨ih₁, ih₂, ih₃.trans (by omega), fun r h₃ h₄ => ?_⟩
      rcases h₄.lt_or_eq with hlt | rfl
      · exact ih₄ r h₃ (by omega)
      · exact hc

/-- The unit of the floats is not below `10 ^ (-324)`. -/
theorem scale_le : scale ≤ 10 ^ 324 := by decide +kernel

/-- The finite floats are at most `2 ^ 1024`. -/
theorem units_infinite_le : units infinite ≤ 2 ^ 1024 * scale := by decide +kernel

/-- A positive float is at least `10 ^ (-324)`. -/
theorem le_val {b : ℕ} (hb : 0 < b) : (10 : ℚ) ^ (-324 : ℤ) ≤ val b := by
  have hs : (0 : ℚ) < scale := by exact_mod_cast scale_pos
  have h₁ : 1 ≤ units b := units_strictMono hb
  have h₂ : (scale : ℚ) ≤ 10 ^ 324 := by exact_mod_cast scale_le
  rw [val, show (-324 : ℤ) = -(324 : ℕ) from rfl, zpow_neg, zpow_natCast, ← one_div]
  exact div_le_div₀ (by positivity) (by exact_mod_cast h₁) hs h₂

/-- The search for the shortest digits starts at an exponent of at most 342. -/
theorem start_le {b : ℕ} (hfin : b < infinite) : start b ≤ 342 := by
  have h : units b / scale < 2 ^ 1024 :=
    (Nat.div_lt_iff_lt_mul scale_pos).2 ((units_strictMono hfin).trans_le units_infinite_le)
  have hlog : (units b / scale).log2 ≤ 1023 := by
    rcases Nat.eq_zero_or_pos (units b / scale) with h₀ | h₀
    · rw [h₀]
      decide
    · exact Nat.le_of_lt_succ ((Nat.log2_lt (k := 1024) h₀.ne').2 h)
  unfold start
  omega

/-- The starting exponent is high enough. -/
theorem two_mul_val_le (b : ℕ) : 2 * val b ≤ 10 ^ (start b + 1) := by
  set L := (units b / scale).log2 with hL
  have hs : (0 : ℚ) < scale := by exact_mod_cast scale_pos
  have h₁ : units b < 2 ^ (L + 1) * scale :=
    Nat.lt_mul_of_div_lt Nat.lt_log2_self scale_pos
  have h₂ : 2 ^ (L + 1) ≤ 10 ^ (L / 3 + 1) := calc
    2 ^ (L + 1) ≤ 2 ^ (3 * (L / 3 + 1)) := Nat.pow_le_pow_right (by norm_num) (by omega)
    _ = 8 ^ (L / 3 + 1) := by rw [pow_mul]; norm_num
    _ ≤ 10 ^ (L / 3 + 1) := Nat.pow_le_pow_left (by norm_num) _
  have h₃ : val b ≤ 10 ^ (L / 3 + 1) := by
    rw [val, div_le_iff₀ hs]
    exact_mod_cast h₁.le.trans (Nat.mul_le_mul_right _ h₂)
  have h₄ : (10 : ℚ) ^ (start b + 1) = 10 * 10 ^ (L / 3 + 1) := by
    rw [start, ← hL, ← pow_succ', ← zpow_natCast]
    congr 1
  have : (0 : ℚ) < 10 ^ (L / 3 + 1) := by positivity
  rw [h₄]
  linarith

/-- A rational twice as large as a positive number does not round to it. -/
theorem not_roundsTo_of_large {b : ℕ} {q : ℚ} (hb : 0 < b) (hq : 2 * val b ≤ q) :
    ¬ RoundsTo val q b := by
  intro h
  have hgap : val (b + 1) ≤ 2 * val b := by
    have hs : (0 : ℚ) < scale := by exact_mod_cast scale_pos
    have hpow : 2 ^ (b / 2 ^ 52 - 1) ≤ units b := by
      unfold units
      split_ifs with hlt
      · rw [Nat.div_eq_of_lt hlt]
        exact hb
      · exact Nat.le_mul_of_pos_left _ (by omega)
    rw [val_succ, two_mul]
    exact add_le_add_right (div_le_div_of_nonneg_right (by exact_mod_cast hpow) hs.le) _
  have := (roundsTo_self val_strictMono (b + 1)).mono val_strictMono (hgap.trans hq) h
  omega

/-- **What `shortest` returns**: a decimal that rounds back, of at most seventeen
digits, and no decimal of a larger exponent rounds back. -/
theorem shortest_spec {b : ℕ} (hb : 0 < b) (hfin : b < infinite) :
    RoundsTo val ((shortest b).1 * 10 ^ (shortest b).2) b ∧ (shortest b).1 ≤ 10 ^ 17 ∧
      -340 ≤ (shortest b).2 ∧ (shortest b).2 ≤ 342 ∧
        ∀ (d : ℕ) (p : ℤ), (shortest b).2 < p → ¬ RoundsTo val (d * 10 ^ p) b := by
  have hmin := le_val hb
  have hv := val_pos hb
  have hstart := start_le hfin
  have htop := two_mul_val_le b
  set k := Int.log 10 (val b) with hk
  have hlo : ((10 : ℕ) : ℚ) ^ k ≤ val b := Int.zpow_log_le_self (by norm_num) hv
  have hhi : val b < ((10 : ℕ) : ℚ) ^ (k + 1) := Int.lt_zpow_succ_log_self (by norm_num) _
  push_cast at hlo hhi
  have hkmin : -324 ≤ k := by
    have := (zpow_lt_zpow_iff_right₀ (by norm_num : (1 : ℚ) < 10)).1 (hmin.trans_lt hhi)
    omega
  have hkmax : k < start b + 1 :=
    (zpow_lt_zpow_iff_right₀ (by norm_num : (1 : ℚ) < 10)).1 (by linarith)
  have hq : ∃ m, candidate b (k - 16) = some m := by
    refine exists_candidate_of_fine ?_
    rw [← zpow_natCast, ← zpow_add₀ (by norm_num)]
    simpa using hlo
  obtain ⟨hc, hge, hle, hnone⟩ := search_spec hq 700 (start b) (by omega) (by norm_num; omega)
  rw [shortest, if_neg hb.ne']
  set m := (search b 700 (start b)).1
  set e := (search b 700 (start b)).2
  obtain ⟨hround, hm⟩ := candidate_spec hc
  refine ⟨(ofDecimal_eq_iff m e b).1 hround, ?_, by omega, by omega, ?_⟩
  · have h₁ := (lowerDigits_spec b e).1
    have h₂ : (10 : ℚ) ^ (k + 1) ≤ 10 ^ (17 : ℤ) * 10 ^ e := by
      rw [← zpow_add₀ (by norm_num)]
      exact zpow_le_zpow_right₀ (by norm_num) (by omega)
    have h₃ : (lowerDigits b e : ℚ) < 10 ^ (17 : ℤ) := by
      have he : (0 : ℚ) < 10 ^ e := by positivity
      exact lt_of_mul_lt_mul_right (h₁.trans_lt (hhi.trans_le h₂)) he.le
    have h₄ : lowerDigits b e < 10 ^ 17 := by exact_mod_cast h₃
    omega
  · intro d p hp hd
    rcases le_or_gt p (start b) with h | h
    · obtain ⟨c, hcand⟩ := exists_candidate hd
      rw [hnone p hp h] at hcand
      cases hcand
    · rcases Nat.eq_zero_or_pos d with rfl | hd₀
      · have h₀ := roundsTo_self val_strictMono 0
        rw [val_zero] at h₀
        rw [Nat.cast_zero, zero_mul] at hd
        exact hb.ne (h₀.unique val_strictMono hd)
      · have h₁ : (10 : ℚ) ^ (start b + 1) ≤ 10 ^ p := zpow_le_zpow_right₀ (by norm_num) (by omega)
        have h₂ : (1 : ℚ) ≤ d := by exact_mod_cast hd₀
        exact not_roundsTo_of_large hb
          (htop.trans (h₁.trans (le_mul_of_one_le_left (by positivity) h₂))) hd

/-- The shortest decimal reads back as the number it was printed for. -/
theorem ofDecimal_shortest {b : ℕ} (hfin : b < infinite) :
    ofDecimal (shortest b).1 (shortest b).2 = b := by
  rcases Nat.eq_zero_or_pos b with rfl | hb
  · decide +kernel
  · exact (ofDecimal_eq_iff _ _ b).2 (shortest_spec hb hfin).1

/-- A shortest decimal has no trailing zero. -/
theorem shortest_mod_ten {b : ℕ} (hb : 0 < b) (hfin : b < infinite) :
    (shortest b).1 % 10 ≠ 0 := by
  obtain ⟨hround, -, -, -, hnone⟩ := shortest_spec hb hfin
  intro h
  refine hnone ((shortest b).1 / 10) ((shortest b).2 + 1) (by omega) ?_
  have h₁ : (shortest b).1 = (shortest b).1 / 10 * 10 := by omega
  rw [h₁, Nat.cast_mul] at hround
  rw [zpow_add_one₀ (by norm_num)]
  convert hround using 1
  push_cast
  ring

example : shortest (ofDecimal 30000000000000004 (-17)) = (30000000000000004, -17) := by
  decide +kernel

end Rounding
end Vestrix
