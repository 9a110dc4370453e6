/-
# `format_finite_float` on machine integers

The rearrangement of Ryu's text with its arithmetic as it runs: the exponent is an `i32`, counts and
positions are `usize`, and what goes out of range, an index, a slice or a conversion that
must not fail is a panic.  Some conversions have a value to go on with; where `strict` is set these
must not fail either.

None of it can fail on a text that prints a decimal, in any of the layouts of Ryu and with any
exponent a binary64 number can have, and what comes out is the token of CHAIN_FORMAT.md
(`float_layout_exact`).
-/

import Vestrix.Outcome
import Vestrix.Verifier.FloatFormat

namespace Vestrix
namespace Verifier
namespace Machine

open Text Rounding Json Outcome

/-- What can go wrong. -/
inductive Fault where
  | overflow
  | slice
  | conversion
deriving DecidableEq

/-- A result of `i32` arithmetic. -/
def i32 (n : ℤ) : Except Fault ℤ := if -2 ^ 31 ≤ n ∧ n < 2 ^ 31 then .ok n else .error .overflow

/-- A difference of two `usize`. -/
def usizeSub (m n : ℕ) : Except Fault ℕ := if n ≤ m then .ok (m - n) else .error .overflow

/-- `i32::try_from` of a `usize`. -/
def i32TryFrom (n : ℕ) : Option ℤ := if n < 2 ^ 31 then some n else none

/-- `usize::try_from` of an `i32`. -/
def usizeTryFrom (n : ℤ) : Option ℕ := if 0 ≤ n then some n.toNat else none

/-- `i32::MAX`. -/
def i32Max : ℤ := 2 ^ 31 - 1

/-- `usize::MAX`. -/
def usizeMax : ℕ := 2 ^ 64 - 1

/-- `unwrap_or`; where `strict` is set, having to take the other value is a fault. -/
def unwrapOr {α : Type} (strict : Bool) (other : α) : Option α → Except Fault α
  | some a => .ok a
  | none => if strict = true then .error .conversion else .ok other

/-- `&digits[..n]`. -/
def sliceTo (digits : List Char) (n : ℕ) : Except Fault (List Char) :=
  if n ≤ digits.length then .ok (digits.take n) else .error .slice

/-- `&digits[n..]`. -/
def sliceFrom (digits : List Char) (n : ℕ) : Except Fault (List Char) :=
  if n ≤ digits.length then .ok (digits.drop n) else .error .slice

variable (strict : Bool)

/-- The number of an exponent that is written, and zero where there is none. -/
def explicitOf : Option (List Char) → Except Fault ℤ
  | none => .ok 0
  | some exponent => unwrapOr strict 0 (parseI32 exponent)

/-- The digits of a mantissa and the exponent of the first of them. -/
def analyse (mantissa : List Char) (explicitExponent : Option (List Char)) :
    Except Fault (List Char × ℤ) := do
  let decimalPosition := (mantissa.takeWhile (· != '.')).length
  let digits := mantissa.filter (· != '.')
  let leadingZeroes := (digits.takeWhile (· == '0')).length
  let digits := digits.drop leadingZeroes
  let explicit ← explicitOf strict explicitExponent
  let position ← unwrapOr strict i32Max (i32TryFrom decimalPosition)
  let exponent ← i32 (explicit + position)
  let exponent ← i32 (exponent - 1)
  let leading ← unwrapOr strict i32Max (i32TryFrom leadingZeroes)
  let exponent ← i32 (exponent - leading)
  let digits := popZeros digits
  if digits = [] then return (['0'], 0) else return (digits, exponent)

/-- The text of the digits with the exponent of the first of them. -/
def render (negative : Bool) (digits : List Char) (exponent : ℤ) : Except Fault (List Char) := do
  let sign := signText negative
  if ¬ (-4 ≤ exponent ∧ exponent < 16) then
    let first ← orError .slice digits.head?
    let fraction ← if 1 < digits.length then (sliceFrom digits 1).map ('.' :: ·) else .ok []
    return sign ++ (first :: (fraction ++
      ('e' :: (if 0 ≤ exponent then '+' else '-') :: twoDigits exponent.natAbs)))
  else
    let point ← i32 (exponent + 1)
    if point ≤ 0 then
      let zeroes ← i32 (-point)
      return sign ++ ('0' :: '.' :: (List.replicate zeroes.toNat '0' ++ digits))
    else if (usizeTryFrom point).any (· < digits.length) then
      let point ← orError .conversion (usizeTryFrom point)
      let front ← sliceTo digits point
      let back ← sliceFrom digits point
      return sign ++ (front ++ ('.' :: back))
    else
      let point ← unwrapOr strict usizeMax (usizeTryFrom point)
      let zeroes ← usizeSub point digits.length
      return sign ++ (digits ++ (List.replicate zeroes '0' ++ ['.', '0']))

/-- What `format_finite_float` makes of the text that Ryu prints. -/
def rearrange (shortest : List Char) : Except Fault (List Char) := do
  let (negative, unsigned) := stripMinus shortest
  let (mantissa, explicitExponent) := splitExponent unsigned
  let (digits, exponent) ← analyse strict mantissa explicitExponent
  render strict negative digits exponent

variable {strict} {negative : Bool} {mantissa digits text : List Char} {exponent n : ℤ}

/-! ### No step fails -/

/-- A number in the range of 32 bits does not overflow. -/
theorem i32_eq_ok (h : -2 ^ 31 ≤ n ∧ n < 2 ^ 31) : i32 n = .ok n := if_pos h

/-- A length below `2 ^ 31` is an `i32`. -/
theorem i32TryFrom_eq_some {m : ℕ} (h : m < 2 ^ 31) : i32TryFrom m = some (m : ℤ) := if_pos h

/-- A number from 0 on is a `usize`. -/
theorem usizeTryFrom_eq_some (h : 0 ≤ n) : usizeTryFrom n = some n.toNat := if_pos h

/-- The exponent of a mantissa that is not too long is computed within its range. -/
theorem analyse_eq_ok {explicitExponent : Option (List Char)} {explicit : ℤ}
    (hexplicit : explicitOf strict explicitExponent = .ok explicit)
    (hrange : -2 ^ 30 ≤ explicit ∧ explicit < 2 ^ 30)
    (hlength : mantissa.length < 2 ^ 30) :
    analyse strict mantissa explicitExponent = .ok (Verifier.analyse mantissa explicit) := by
  have hposition : (mantissa.takeWhile (· != '.')).length ≤ mantissa.length :=
    (List.takeWhile_sublist _).length_le
  have hzeroes : ((mantissa.filter (· != '.')).takeWhile (· == '0')).length ≤ mantissa.length :=
    ((List.takeWhile_sublist _).trans List.filter_sublist).length_le
  rw [analyse, Verifier.analyse]
  simp only [hexplicit, ok_bind]
  generalize (mantissa.takeWhile (· != '.')).length = position at hposition ⊢
  generalize ((mantissa.filter (· != '.')).takeWhile (· == '0')).length = zeroes at hzeroes ⊢
  simp only [i32TryFrom_eq_some (show position < 2 ^ 31 by omega), unwrapOr, ok_bind,
    i32_eq_ok (n := explicit + position) (by omega), i32_eq_ok (n := explicit + position - 1) (by omega),
    i32TryFrom_eq_some (show zeroes < 2 ^ 31 by omega),
    i32_eq_ok (n := explicit + position - 1 - zeroes) (by omega)]
  split_ifs
  · rfl
  · rfl

/-- Digits are placed without a failure, whatever their exponent. -/
theorem render_eq_ok (hdigits : digits ≠ []) :
    render strict negative digits exponent = .ok (Verifier.render negative digits exponent) := by
  have hlength := List.length_pos_iff.2 hdigits
  obtain ⟨d, ds, rfl⟩ := List.exists_cons_of_ne_nil hdigits
  rw [render, Verifier.render]
  by_cases hscientific : ¬ (-4 ≤ exponent ∧ exponent < 16)
  · rw [if_pos hscientific, if_pos hscientific]
    simp only [orError, List.head?_cons, ok_bind]
    by_cases hmore : 1 < (d :: ds).length
    · simp only [if_pos hmore, sliceFrom, if_pos hmore.le]
      rfl
    · simp only [if_neg hmore]
      rfl
  · have hrange := not_not.1 hscientific
    rw [if_neg hscientific, if_neg hscientific]
    simp only [i32_eq_ok (n := exponent + 1) (by omega), ok_bind]
    by_cases hpoint : exponent + 1 ≤ 0
    · rw [if_pos hpoint, if_pos hpoint]
      simp only [i32_eq_ok (n := -(exponent + 1)) (by omega), ok_bind]
      rfl
    · rw [if_neg hpoint, if_neg hpoint]
      simp only [usizeTryFrom_eq_some (n := exponent + 1) (by omega), Option.any_some, decide_eq_true_eq,
        orError, unwrapOr, ok_bind]
      split_ifs with hinside
      · simp only [sliceTo, sliceFrom, if_pos hinside.le]
        rfl
      · simp only [usizeSub, if_pos (Nat.not_lt.1 hinside)]
        rfl

/-- **Nothing fails on a printed decimal** of moderate length and exponent. -/
theorem rearrange_eq_ok {ds : List Char} {k : ℤ} (hds : IsDigits ds) (hlast : ds.getLast? ≠ some '0')
    (hlength : ds.length ≤ 10 ^ 6) (hk : k.natAbs ≤ 10 ^ 6) (h : Printed negative ds k text) :
    rearrange strict text = .ok (layout negative ds k).text := by
  obtain ⟨mantissa, explicit, hsplits⟩ := h.splits hds hlast
  obtain ⟨c, s, hcons, hc⟩ := hsplits.head
  have hne : ds ≠ [] := by
    obtain ⟨d, ds', rfl, -⟩ := hds.head
    exact List.cons_ne_nil d ds'
  have hsign : stripMinus text = (negative, mantissa ++ exponentText explicit) := by
    rw [hsplits.text_eq, hcons, List.cons_append]
    exact stripMinus_sign negative hc _
  have hexplicit : explicitOf strict (explicit.map intText) = .ok (explicit.getD 0) := by
    cases hexp : explicit with
    | none => rfl
    | some e =>
      have he := hsplits.exponent e hexp
      rw [Option.map_some, explicitOf, parseI32_intText (by omega) (by omega)]
      rfl
  have hrange : -2 ^ 30 ≤ explicit.getD 0 ∧ explicit.getD 0 < 2 ^ 30 := by
    cases hexp : explicit with
    | none => exact ⟨by decide, by decide⟩
    | some e =>
      have he := hsplits.exponent e hexp
      rw [Option.getD_some]
      omega
  have hshort : mantissa.length < 2 ^ 30 := by
    have := hsplits.length
    omega
  rw [rearrange, hsign]
  simp only [splitExponent_mantissa hsplits.chars, analyse_eq_ok hexplicit hrange hshort, ok_bind,
    hsplits.analyse_eq, render_eq_ok hne, render_eq _ hne]

/-! ### The token -/

/-- The token of CHAIN_FORMAT.md for the decimal with digits `ds`, the first of them worth `10 ^ k`:
fixed point with a digit after the point at least and no zero after it that could be left out, or one
digit before the point and an exponent of two digits at least, with its sign. -/
structure Canonical (negative : Bool) (ds : List Char) (k : ℤ) (t : NumberToken) : Prop where
  wellFormed : t.WellFormed
  negative_eq : t.negative = negative
  value_eq : t.value = digitsValue ds * 10 ^ (k + 1 - ds.length)
  fixed : -4 ≤ k ∧ k < 16 → t.exp = none ∧ t.frac ≠ [] ∧ (t.frac = ['0'] ∨ t.frac.getLast? ≠ some '0')
  scientific : ¬ (-4 ≤ k ∧ k < 16) → t.int.length = 1 ∧ t.int ≠ ['0'] ∧ t.frac.getLast? ≠ some '0' ∧
    ∃ es, t.exp = some (decide (k < 0), es) ∧ digitsValue es = k.natAbs ∧ 2 ≤ es.length ∧
      (2 < es.length → es.head? ≠ some '0')

/-- The last digits do not end with a zero if all do not. -/
theorem getLast?_drop {n : ℕ} {ds : List Char} (hlast : ds.getLast? ≠ some '0') :
    (ds.drop n).getLast? ≠ some '0' := by
  rw [List.getLast?_drop]
  split_ifs
  · exact Option.some_ne_none _ |>.symm
  · exact hlast

/-- An exponent has two digits at least, and of more the first is not a zero. -/
theorem twoDigits_digits (n : ℕ) :
    2 ≤ (twoDigits n).length ∧ (2 < (twoDigits n).length → (twoDigits n).head? ≠ some '0') := by
  rw [twoDigits]
  split_ifs with hn
  · rw [numeral_of_lt_ten hn]
    exact ⟨le_rfl, fun h => absurd h (lt_irrefl 2)⟩
  · have hpos := List.length_pos_iff.2 (numeral_ne_nil (n / 10))
    obtain ⟨d, ds, hnumeral, hd⟩ := numeral_head_ne_zero (show 0 < n by omega)
    refine ⟨?_, fun _ => ?_⟩
    · rw [numeral_of_ten_le (by omega), List.length_append, List.length_singleton]
      omega
    · rw [hnumeral, List.head?_cons, Ne, Option.some.injEq]
      exact hd

/-- The layout of the digits is the canonical one. -/
theorem canonical_layout (negative : Bool) {ds : List Char} (hds : IsDigits ds)
    (hlast : ds.getLast? ≠ some '0') (k : ℤ) : Canonical negative ds k (layout negative ds k) := by
  have hne : ds ≠ [] := by
    obtain ⟨d, ds', rfl, -⟩ := hds.head
    exact List.cons_ne_nil d ds'
  refine ⟨layout_wellFormed negative hds k, ?_, layout_value negative hne k, ?_, ?_⟩
  · unfold layout
    split_ifs <;> rfl
  · intro hfixed
    rw [layout, if_pos hfixed]
    split_ifs with hbelow hinside
    · have hlast' : (List.replicate (-k - 1).toNat '0' ++ ds).getLast? ≠ some '0' := by
        rwa [List.getLast?_append_of_ne_nil _ hne]
      exact ⟨rfl, fun h => hne (List.append_eq_nil_iff.1 h).2, Or.inr hlast'⟩
    · exact ⟨rfl, fun h => (List.drop_eq_nil_iff.1 h).not_gt hinside, Or.inr (getLast?_drop hlast)⟩
    · exact ⟨rfl, List.cons_ne_nil _ _, Or.inl rfl⟩
  · intro hscientific
    obtain ⟨d, ds', rfl, hd⟩ := hds.head
    rw [layout, if_neg hscientific]
    obtain ⟨hlength, hhead⟩ := twoDigits_digits k.natAbs
    exact ⟨rfl, fun h => hd (List.cons.inj h).1, getLast?_drop hlast, _, rfl, digitsValue_twoDigits _,
      hlength, hhead⟩

/-- **Float layout is exact.**  For a decimal of at most 17 digits, with no zero at either end, and any
exponent of a binary64 number, every text that prints it is rearranged without a failure into the
token of CHAIN_FORMAT.md, which denotes the same decimal and is read back as it is. -/
theorem float_layout_exact (strict negative : Bool) {ds : List Char} {k : ℤ} {text : List Char}
    (hds : IsDigits ds) (hlast : ds.getLast? ≠ some '0') (hlength : ds.length ≤ 17)
    (hk : -324 ≤ k ∧ k ≤ 308) (h : Printed negative ds k text) :
    rearrange strict text = .ok (layout negative ds k).text ∧
      Canonical negative ds k (layout negative ds k) ∧
      scanNumber (ofChars (layout negative ds k).text) = some (layout negative ds k, []) := by
  have hwellFormed := layout_wellFormed negative hds k
  refine ⟨rearrange_eq_ok hds hlast (by omega) (by omega) h, canonical_layout negative hds hlast k, ?_⟩
  have hread := scanNumber_text hwellFormed (s := []) fun _ _ h => (nomatch h)
  rwa [List.append_nil] at hread

/-- A number that Ryu prints with an exponent, and CHAIN_FORMAT.md too. -/
theorem float_layout_exact_sample : rearrange true "-1.2345e20".toList = .ok "-1.2345e+20".toList := by
  have hds : IsDigits "12345".toList := ⟨List.all_eq_true.1 (by decide), ⟨'1', "2345".toList, rfl, by decide⟩⟩
  exact (float_layout_exact true true hds (k := 20) (by decide) (by decide) (by decide)
    (.scientific (by decide))).1

/-- **The verifier's floats**: nothing fails on the text of any number. -/
theorem rearrange_ryuText (x : Binary64) (hx : x.index ≠ 0) :
    rearrange strict (ryuText x) = .ok (floatRepr x) := by
  obtain ⟨-, hm, he₁, he₂, -⟩ := shortest_spec (Nat.pos_of_ne_zero hx) x.finite
  obtain ⟨hds, hlast⟩ := numeral_shortest x hx
  have hlen : (numeral (shortest x.index).1).length ≤ 18 :=
    (Nat.length_toDigits_le_iff (by norm_num) (by norm_num)).2 (by omega)
  have hprinted := printed_ryuFormat x.negative (numeral_ne_nil (shortest x.index).1) (shortest x.index).2
  rw [ryuText, rearrange_eq_ok hds hlast (by omega) (by omega) hprinted, floatRepr, floatToken, if_neg hx]

end Machine
end Verifier
end Vestrix
