/-
# Floats that are read and written again

The verifier reads a float token with `serde_json` and writes it with `canonicalize_float`.
Without its feature `float_roundtrip`, `serde_json` rounds the significand before it scales
it with a power of ten (`fromParts`), so that the decimal of a number need not be read as that
number.  `canonical_float_survives_iff` says for which numbers it is.
-/

import Vestrix.Rounding.Exact
import Vestrix.Verifier.Unambiguous

namespace Vestrix
namespace Verifier

open Text Rounding Json Outcome

/-- The entry `10^k` of the table `POW10`. -/
def pow10 (k : ℕ) : ℕ := ofDecimal 1 k

/-- The loop of `f64_from_parts` on an exponent below zero; no more rounds than its magnitude
are needed. -/
def divideLoop : ℕ → ℕ → ℕ → ℕ
  | 0, f, _ => f
  | rounds + 1, f, exponent =>
    if exponent ≤ 308 then divIndex f (pow10 exponent)
    else if f = 0 then 0
    else divideLoop rounds (divIndex f (pow10 308)) (exponent - 308)

/-- `f64_from_parts`: what `serde_json` makes of a significand and an exponent, or an overflow. -/
def fromParts (significand : ℕ) : ℤ → Option ℕ
  | .ofNat exponent =>
    if exponent ≤ 308 then
      if mulIndex (nearest significand 1) (pow10 exponent) < infinite then
        some (mulIndex (nearest significand 1) (pow10 exponent))
      else none
    else if nearest significand 1 = 0 then some 0
    else none
  | .negSucc exponent => some (divideLoop (exponent + 1) (nearest significand 1) (exponent + 1))

/-- `serde_json` on a token that is no integer and whose digits fit into 64 bits. -/
def serdeFloat : FloatReader := fun t =>
  (fromParts t.significand t.exponent).bind fun b =>
    if h : b < infinite then some ⟨t.negative, b, h⟩ else none

/-- A reader of floats that is `serde_json`'s on such tokens. -/
def ReadsAsSerde (readFloat : FloatReader) : Prop :=
  ∀ t : NumberToken, t.WellFormed → t.isInteger = false → t.significand < 2 ^ 64 →
    readFloat t = serdeFloat t

variable {readFloat : FloatReader} {x : Binary64}

/-! ### Reading a token -/

/-- A number token is read as a number. -/
theorem readScalar_number {t : NumberToken} (ht : t.WellFormed) :
    readScalar readFloat (ofChars t.text) = (readNumber readFloat t).map fun n => (.number n, []) := by
  have hnil : HeadNot isNumberChar [] := fun c s h => (nomatch h)
  have hscan := scanNumber_text ht hnil
  rw [List.append_nil] at hscan
  have hread : readNumberText readFloat (ofChars t.text) =
      (readNumber readFloat t).map fun n => (.number n, []) := by
    rw [readNumberText, hscan]
    rfl
  obtain ⟨c, s, htext, hc⟩ := ht.text_head
  have hne : ∀ d : Char, d.isDigit = false → d ≠ '-' → c ≠ d := by
    rintro d hd hminus rfl
    rcases hc with rfl | hc
    · exact hminus rfl
    · rw [hc] at hd
      cases hd
  rw [htext, ofChars_cons] at hread ⊢
  rw [readScalar, skipText, if_neg fun h => hne quoteMark rfl (by decide) (CodePoint.scalar.inj h)]
  simp only [List.head?_cons, Option.some.injEq, CodePoint.scalar.injEq]
  rw [if_neg (hne 'n' rfl (by decide)), if_neg (hne 't' rfl (by decide)),
    if_neg (hne 'f' rfl (by decide)), hread]

/-- **`parse` reads a number token as its number.** -/
theorem parse_number {t : NumberToken} (ht : t.WellFormed) :
    parse readFloat t.text = (readNumber readFloat t).map fun n => .atom (.number n) := by
  have hscalar : readScalar readFloat (ofChars t.text) = _ := readScalar_number ht
  obtain ⟨c, s, htext, hc⟩ := ht.text_head
  have hstart := Grammar.startsAtom_of_number hc
  simp only [Grammar.startsAtom, Bool.not_eq_true', Bool.or_eq_false_iff, beq_eq_false_iff_ne] at hstart
  have hspace : c ≠ ' ' ∧ c ≠ '\t' ∧ c ≠ '\n' ∧ c ≠ '\r' := by tauto
  rw [htext, ofChars_cons] at hscalar
  rw [parse, Grammar.parse, htext, ofChars_cons, Grammar.parseValue, Grammar.skipChar_cons hspace,
    if_neg (by tauto), Grammar.skipChar_cons hspace, if_neg (by tauto), Grammar.skipSpace_cons hspace]
  rw [show (grammar readFloat).readAtom (.scalar c :: ofChars s) =
    readScalar readFloat (.scalar c :: ofChars s) from rfl, hscalar]
  cases readNumber readFloat t with
  | error e => rfl
  | ok n => rfl

/-- The token of a float is read as the float that the reader makes of it. -/
theorem readNumber_float :
    readNumber readFloat (floatToken x) =
      match readFloat (floatToken x) with
      | some y => .ok (.float y)
      | none => .error .numberRange := by
  rw [readNumber, floatToken_isInteger]
  rfl

/-- A float is determined by its token. -/
theorem floatToken_injective : Function.Injective floatToken := fun x y h => by
  have hread := nearestFloat_floatToken x
  rw [h, nearestFloat_floatToken y] at hread
  exact (Option.some.inj hread).symm

/-- A float is determined by its text. -/
theorem formatFiniteFloat_injective : Function.Injective formatFiniteFloat := fun x y h => by
  rw [formatFiniteFloat_eq, formatFiniteFloat_eq, floatRepr, floatRepr] at h
  have hnil : HeadNot isNumberChar [] := fun c s h => by cases h
  have hx := scanNumber_text (floatToken_wellFormed x) hnil
  rw [h, scanNumber_text (floatToken_wellFormed y) hnil] at hx
  exact floatToken_injective (Prod.mk.inj (Option.some.inj hx)).1.symm

/-- A float is written as its text. -/
theorem serialize_float (y : Binary64) :
    serialize (.atom (.number (.float y))) = .ok (utf8 (formatFiniteFloat y)) := by
  have hpermitted : Permitted (.atom (.number (.float y))) := .atom trivial
  rw [serialize_eq hpermitted, formatFiniteFloat_eq]
  rfl

/-- **A float is written back as it was** if its token is read as the float, and only then. -/
theorem survives_iff_read : (∃ v, parse readFloat (formatFiniteFloat x) = .ok v ∧
    serialize v = .ok (utf8 (formatFiniteFloat x))) ↔ readFloat (floatToken x) = some x := by
  have hparse : parse readFloat (formatFiniteFloat x) =
      (readNumber readFloat (floatToken x)).map fun n => .atom (.number n) := by
    rw [formatFiniteFloat_eq]
    exact parse_number (floatToken_wellFormed x)
  rw [hparse, readNumber_float]
  cases hread : readFloat (floatToken x) with
  | none => exact ⟨fun ⟨_, h, _⟩ => (nomatch h), fun h => (nomatch h)⟩
  | some y =>
    constructor
    · rintro ⟨v, hv, hserialize⟩
      obtain rfl := Except.ok.inj hv
      rw [serialize_float, Except.ok.injEq] at hserialize
      rw [formatFiniteFloat_injective (utf8_injective hserialize)]
    · intro h
      rw [Option.some.inj h]
      exact ⟨_, rfl, serialize_float x⟩

/-! ### The token of a float -/

/-- The digits of a layout are those of its decimal, or fill the place of sixteen digits and
one after the point. -/
theorem layout_significand_le (negative : Bool) {ds : List Char} (h : AllDigits ds)
    (hds : digitsValue ds ≤ 10 ^ 17) (k : ℤ) : (layout negative ds k).significand ≤ 10 ^ 17 := by
  unfold layout NumberToken.significand
  split_ifs with h₁ h₂ h₃
  · rw [digitsValue_append, digitsValue_append, digitsValue_zeros, show digitsValue ['0'] = 0 from rfl]
    omega
  · rw [List.take_append_drop]
    exact hds
  · have hlt := digitsValue_lt h
    obtain ⟨n, hn⟩ : ∃ n, (k + 1).toNat = ds.length + n := ⟨(k + 1).toNat - ds.length, by omega⟩
    rw [hn, Nat.add_sub_cancel_left, digitsValue_append, digitsValue_append, digitsValue_zeros,
      List.length_replicate, show digitsValue ['0'] = 0 from rfl, List.length_singleton, Nat.add_zero,
      Nat.add_zero, pow_one]
    calc digitsValue ds * 10 ^ n * 10 ≤ 10 ^ ds.length * 10 ^ n * 10 := by
          gcongr
      _ = 10 ^ (ds.length + n + 1) := by rw [← pow_add, ← pow_succ]
      _ ≤ 10 ^ 17 := Nat.pow_le_pow_right (by norm_num) (by omega)
  · rw [List.take_append_drop]
    exact hds

/-- The exponent of a layout is that of its decimal, or shows one zero after the point. -/
theorem layout_exponent (negative : Bool) {ds : List Char} (hds : ds ≠ []) (k : ℤ) :
    (layout negative ds k).exponent = k + 1 - ds.length ∨ (layout negative ds k).exponent = -1 := by
  have hlen := List.length_pos_iff.2 hds
  unfold layout NumberToken.exponent NumberToken.writtenExponent
  split_ifs with h₁ h₂ h₃
  · refine Or.inl ?_
    simp only [List.length_append, List.length_replicate]
    omega
  · refine Or.inl ?_
    simp only [List.length_drop]
    omega
  · exact Or.inr rfl
  · refine Or.inl ?_
    simp only [List.length_drop, digitsValue_twoDigits, decide_eq_true_eq]
    split_ifs <;> omega

/-- The significand of a float's token has 64 bits at most. -/
theorem floatToken_significand_lt (x : Binary64) : (floatToken x).significand < 2 ^ 64 := by
  unfold floatToken
  split_ifs with h
  · show digitsValue ['0', '0'] < 2 ^ 64
    decide
  · obtain ⟨-, hdigits, -⟩ := shortest_spec (Nat.pos_of_ne_zero h) x.finite
    refine lt_of_le_of_lt (layout_significand_le _ (allDigits_numeral _) ?_ _) (by norm_num)
    rw [digitsValue_numeral]
    exact hdigits

/-- The finite floats are at most `2 ^ 1024`. -/
theorem val_infinite_le : val infinite ≤ 2 ^ 1024 := by
  rw [val, div_le_iff₀ (by exact_mod_cast scale_pos)]
  exact_mod_cast units_infinite_le

/-- The exponent of a float's token is from -340 to 308. -/
theorem floatToken_exponent (x : Binary64) :
    -340 ≤ (floatToken x).exponent ∧ (floatToken x).exponent ≤ 308 := by
  by_cases h : x.index = 0
  · rw [floatToken, if_pos h]
    show (-340 : ℤ) ≤ 0 - ((1 : ℕ) : ℤ) ∧ 0 - ((1 : ℕ) : ℤ) ≤ 308
    decide
  · obtain ⟨hround, -, hlow, -, -⟩ := shortest_spec (Nat.pos_of_ne_zero h) x.finite
    have hm : (shortest x.index).1 ≠ 0 := fun h₀ =>
      shortest_mod_ten (Nat.pos_of_ne_zero h) x.finite (by rw [h₀])
    -- a decimal of a larger exponent is beyond the finite numbers
    have hhigh : (shortest x.index).2 ≤ 308 := by
      by_contra hlarge
      have hmid := hround.le_mid
      have hbelow : mid val x.index < val infinite :=
        (mid_lt val_strictMono x.index).trans_le (val_strictMono.monotone x.finite)
      have hpow : (10 : ℚ) ^ 309 ≤ 10 ^ (shortest x.index).2 := by
        rw [← zpow_natCast]
        exact zpow_le_zpow_right₀ (by norm_num) (by omega)
      have hone : (1 : ℚ) ≤ (shortest x.index).1 := by exact_mod_cast Nat.pos_of_ne_zero hm
      have hvalue : (10 : ℚ) ^ (shortest x.index).2 ≤
          (shortest x.index).1 * 10 ^ (shortest x.index).2 :=
        le_mul_of_one_le_left (by positivity) hone
      have hbound : (2 : ℚ) ^ 1024 < 10 ^ 309 := by
        exact_mod_cast (show 2 ^ 1024 < 10 ^ 309 by decide +kernel)
      exact absurd (hbound.trans_le (hpow.trans (hvalue.trans (hmid.trans (hbelow.le.trans val_infinite_le)))))
        (lt_irrefl _)
    rw [floatToken, if_neg h]
    rcases layout_exponent x.negative (numeral_ne_nil (shortest x.index).1)
      ((shortest x.index).2 + (numeral (shortest x.index).1).length - 1) with he | he
    · rw [he]
      omega
    · rw [he]
      omega

/-! ### Rounding twice -/

/-- The rational that `serde_json` rounds last. -/
def lastRational (significand : ℕ) : ℤ → ℚ
  | .ofNat exponent => val (nearest significand 1) * val (pow10 exponent)
  | .negSucc exponent =>
    if exponent + 1 ≤ 308 then val (nearest significand 1) / val (pow10 (exponent + 1))
    else val (divIndex (nearest significand 1) (pow10 308)) / val (pow10 (exponent + 1 - 308))

/-- The decimal `m · 10^e` that is written for a number rounds to it even after `m` has been
rounded by itself. -/
def Survives (x : Binary64) : Prop :=
  RoundsTo val (lastRational (floatToken x).significand (floatToken x).exponent) x.index

/-- The table of powers of ten has no zero. -/
theorem pow10_pos {k : ℕ} : 0 < pow10 k := by
  rw [pow10]
  show 0 < nearest (1 * 10 ^ k) 1
  exact nearest_pos (by positivity)

/-- **What `serde_json` returns** is what the last rational rounds to. -/
theorem fromParts_eq_some {m : ℕ} {e : ℤ} (he : -616 ≤ e ∧ e ≤ 308) (hm : e < -308 → 0 < m) {b : ℕ}
    (hb : b < infinite) : fromParts m e = some b ↔ RoundsTo val (lastRational m e) b := by
  cases e with
  | ofNat e =>
    have hle : e ≤ 308 := by
      have := he.2
      simp only [Int.ofNat_eq_natCast] at this
      omega
    rw [fromParts, if_pos hle, lastRational, ← mulIndex_eq_iff]
    constructor
    · intro h
      split_ifs at h
      exact Option.some.inj h
    · intro h
      rw [h, if_pos hb]
  | negSucc e =>
    have hle : e + 1 ≤ 616 := by
      have := he.1
      rw [Int.negSucc_eq] at this
      omega
    rw [fromParts, Option.some.injEq, divideLoop, lastRational]
    split_ifs with hsmall hzero
    · exact divIndex_eq_iff _ pow10_pos _
    · have hpos := nearest_pos (hm (by rw [Int.negSucc_eq]; omega))
      exact absurd hzero hpos.ne'
    · obtain ⟨rounds, rfl⟩ : ∃ n, e = n + 1 := ⟨e - 1, by omega⟩
      rw [divideLoop, if_pos (by omega)]
      exact divIndex_eq_iff _ pow10_pos _

/-- The token of a number is read as the number if its decimal survives. -/
theorem serdeFloat_floatToken : serdeFloat (floatToken x) = some x ↔ Survives x := by
  have hexponent := floatToken_exponent x
  have hsignificand : (floatToken x).exponent < -308 → 0 < (floatToken x).significand := by
    intro hlow
    refine Nat.pos_of_ne_zero fun hzero => ?_
    have hx := ofDecimal_floatToken x
    have hindex : x.index = 0 := by
      have hround := (ofDecimal_eq_iff _ _ _).1 hx
      rw [hzero, Nat.cast_zero, zero_mul] at hround
      have hself := roundsTo_self val_strictMono 0
      rw [val_zero] at hself
      exact hround.unique val_strictMono hself
    rw [floatToken, if_pos hindex] at hlow
    exact absurd hlow (by show ¬ (0 - ((1 : ℕ) : ℤ) < -308); decide)
  rw [Survives, ← fromParts_eq_some ⟨by omega, hexponent.2⟩ hsignificand x.finite, serdeFloat]
  constructor
  · intro h
    obtain ⟨b, hb, hsome⟩ := Option.bind_eq_some_iff.1 h
    split_ifs at hsome
    rw [hb, ← Option.some.inj hsome]
  · intro h
    rw [h, Option.bind_some, dif_pos x.finite]
    refine congrArg some ?_
    simp only [floatToken_negative]

/-! ### Where nothing is rounded twice -/

/-- The powers of ten up to `10 ^ 22` are floats. -/
theorem val_pow10 {k : ℕ} (hk : k ≤ 22) : val (pow10 k) = 10 ^ k := by
  have hfive : 5 ^ k < 2 ^ 53 := lt_of_le_of_lt (Nat.pow_le_pow_right (by norm_num) hk) (by norm_num)
  obtain ⟨b, hb⟩ := exists_val hfive k
  have hten : 5 ^ k * 2 ^ k = 1 * 10 ^ k := by rw [← Nat.mul_pow, Nat.one_mul]
  rw [hten] at hb
  show val (nearest (1 * 10 ^ k) 1) = 10 ^ k
  rw [val_nearest hb, Nat.one_mul, Nat.cast_pow, Nat.cast_ofNat]

/-- **Significands of 53 bits and the first powers of ten are exact**, so that their quotients
and products are rounded once. -/
theorem survives_of_exact (hm : (floatToken x).significand ≤ 2 ^ 53)
    (he : -22 ≤ (floatToken x).exponent ∧ (floatToken x).exponent ≤ 22) : Survives x := by
  have hround := (ofDecimal_eq_iff _ _ _).1 (ofDecimal_floatToken x)
  have hlast : lastRational (floatToken x).significand (floatToken x).exponent =
      (floatToken x).significand * 10 ^ (floatToken x).exponent := by
    generalize (floatToken x).significand = m at hm
    generalize (floatToken x).exponent = e at he
    cases e with
    | ofNat e =>
      have hle : e ≤ 22 := by
        have := he.2
        simp only [Int.ofNat_eq_natCast] at this
        omega
      rw [lastRational, val_nearest_of_le hm, val_pow10 hle, Int.ofNat_eq_natCast, zpow_natCast]
    | negSucc e =>
      have hle : e + 1 ≤ 22 := by
        have := he.1
        rw [Int.negSucc_eq] at this
        omega
      rw [lastRational, if_pos (by omega), val_nearest_of_le hm, val_pow10 hle, zpow_negSucc, div_eq_mul_inv]
  rw [Survives, hlast]
  exact hround

/-- **Which canonical floats the verifier writes back as they were**: those whose decimal
survives that `serde_json` rounds its significand first, among them all with a significand
of 53 bits and a power of ten that is exact. -/
theorem canonical_float_survives_iff (hserde : ReadsAsSerde readFloat) (x : Binary64) :
    ((∃ v, parse readFloat (formatFiniteFloat x) = .ok v ∧
      serialize v = .ok (utf8 (formatFiniteFloat x))) ↔ Survives x) ∧
    ((floatToken x).significand ≤ 2 ^ 53 →
      -22 ≤ (floatToken x).exponent ∧ (floatToken x).exponent ≤ 22 → Survives x) := by
  refine ⟨?_, survives_of_exact⟩
  rw [survives_iff_read, hserde _ (floatToken_wellFormed x) (floatToken_isInteger x)
    (floatToken_significand_lt x)]
  exact serdeFloat_floatToken

/-- The number one half. -/
def oneHalf : Binary64 := ⟨false, 0x3fe0000000000000, by decide⟩

/-- One half is written back as it was. -/
theorem canonical_float_survives_iff_sample : ∃ v,
    parse serdeFloat (formatFiniteFloat oneHalf) = .ok v ∧
      serialize v = .ok (utf8 (formatFiniteFloat oneHalf)) := by
  have hserde : ReadsAsSerde serdeFloat := fun _ _ _ _ => rfl
  have htoken : floatToken oneHalf = ⟨false, ['0'], ['5'], none⟩ := by decide +kernel
  obtain ⟨hiff, hexact⟩ := canonical_float_survives_iff hserde oneHalf
  refine hiff.2 (hexact ?_ ?_)
  · rw [htoken]
    decide
  · rw [htoken]
    decide

/-- The number that is written `0.9452706955539223`. -/
def rejectedFloat : Binary64 := ⟨false, 4606689461049798204, by decide⟩

/-- **Not every canonical float is written back as it was**: the significand
`9452706955539223` has 54 bits, and what it is rounded to gives the next number. -/
theorem canonical_float_lost : ¬ ∀ readFloat : FloatReader, ReadsAsSerde readFloat → ∀ x : Binary64,
    ∃ v, parse readFloat (formatFiniteFloat x) = .ok v ∧
      serialize v = .ok (utf8 (formatFiniteFloat x)) := by
  intro h
  have htoken : floatToken rejectedFloat = ⟨false, ['0'], "9452706955539223".toList, none⟩ := by
    decide +kernel
  have hread := survives_iff_read.1 (h serdeFloat (fun _ _ _ _ => rfl) rejectedFloat)
  rw [htoken] at hread
  have hparts : serdeFloat ⟨false, ['0'], "9452706955539223".toList, none⟩ ≠ some rejectedFloat := by
    decide +kernel
  exact hparts hread

end Verifier
end Vestrix
