/-
# `format_finite_float`

The verifier lets Ryu print a number and rearranges the text: it takes the sign, the
digits and the exponent out of Ryu's layout (`analyse`) and places the digits again
(`render`).  `ryuFormat` is the layout of `ryu::Buffer::format_finite` for the decimal
with digits `ds` times `10 ^ k`.

The text that comes out is that of CHAIN_FORMAT.md, for the digits of every decimal
(`rearrange_ryuFormat`), and hence the `float.__repr__` of every binary64 number
(`formatFiniteFloat_eq`).
-/

import Vestrix.Json.FloatText

namespace Vestrix
namespace Verifier

open Text Rounding Json

/-- The text Ryu prints for the decimal with digits `ds` times `10 ^ k`. -/
def ryuFormat (negative : Bool) (ds : List Char) (k : ℤ) : List Char :=
  let kk : ℤ := ds.length + k
  let sign := signText negative
  if 0 ≤ k ∧ kk ≤ 16 then sign ++ (ds ++ (List.replicate k.toNat '0' ++ ['.', '0']))
  else if 0 < kk ∧ kk ≤ 16 then sign ++ (ds.take kk.toNat ++ ('.' :: ds.drop kk.toNat))
  else if -5 < kk ∧ kk ≤ 0 then sign ++ ('0' :: '.' :: (List.replicate (-kk).toNat '0' ++ ds))
  else if ds.length = 1 then sign ++ (ds ++ ('e' :: intText (kk - 1)))
  else sign ++ (ds.take 1 ++ ('.' :: (ds.drop 1 ++ ('e' :: intText (kk - 1)))))

/-- The sign of a decimal integer, and the rest. -/
def stripSign : List Char → Bool × List Char
  | [] => (false, [])
  | c :: s => if c = '-' then (true, s) else if c = '+' then (false, s) else (false, c :: s)

/-- `str::parse::<i32>`. -/
def parseI32 (s : List Char) : Option ℤ :=
  let ds := (stripSign s).2
  let n : ℤ := if (stripSign s).1 then -(digitsValue ds : ℤ) else digitsValue ds
  if ds ≠ [] ∧ ds.all Char.isDigit ∧ -2 ^ 31 ≤ n ∧ n < 2 ^ 31 then some n else none

/-- `strip_prefix('-')`. -/
def stripMinus : List Char → Bool × List Char
  | [] => (false, [])
  | c :: s => if c = '-' then (true, s) else (false, c :: s)

/-- `split_once(['e', 'E'])`: what comes before the exponent, and the exponent. -/
def splitExponent (s : List Char) : List Char × Option (List Char) :=
  let mantissa := s.takeWhile fun c => c != 'e' && c != 'E'
  match s.drop mantissa.length with
  | [] => (mantissa, none)
  | _ :: exponent => (mantissa, some exponent)

/-- The digits without the zeros they end with. -/
def popZeros (ds : List Char) : List Char := (ds.reverse.dropWhile (· == '0')).reverse

/-- The digits of a text with a point in it, and the exponent of the first of them. -/
def analyse (mantissa : List Char) (explicit : ℤ) : List Char × ℤ :=
  let decimalPosition := (mantissa.takeWhile (· != '.')).length
  let all := mantissa.filter (· != '.')
  let leadingZeroes := (all.takeWhile (· == '0')).length
  let digits := popZeros (all.drop leadingZeroes)
  if digits = [] then (['0'], 0) else (digits, explicit + decimalPosition - 1 - leadingZeroes)

/-- The text of a decimal, from its digits and the exponent of the first of them. -/
def render (negative : Bool) (digits : List Char) (exponent : ℤ) : List Char :=
  let sign := signText negative
  if ¬ (-4 ≤ exponent ∧ exponent < 16) then
    sign ++ (digits.take 1 ++ ((if 1 < digits.length then '.' :: digits.drop 1 else []) ++
      ('e' :: (if 0 ≤ exponent then '+' else '-') :: twoDigits exponent.natAbs)))
  else
    let point := exponent + 1
    if point ≤ 0 then sign ++ ('0' :: '.' :: (List.replicate (-point).toNat '0' ++ digits))
    else if point.toNat < digits.length then
      sign ++ (digits.take point.toNat ++ ('.' :: digits.drop point.toNat))
    else
      sign ++ (digits ++ (List.replicate (point.toNat - digits.length) '0' ++ ['.', '0']))

/-- What `format_finite_float` makes of the text that Ryu prints. -/
def rearrange (shortest : List Char) : List Char :=
  let (negative, unsigned) := stripMinus shortest
  let (mantissa, explicitExponent) := splitExponent unsigned
  let explicit := (explicitExponent.bind parseI32).getD 0
  let (digits, exponent) := analyse mantissa explicit
  render negative digits exponent

/-- The text Ryu prints for a number that is not zero. -/
def ryuText (x : Binary64) : List Char :=
  ryuFormat x.negative (numeral (shortest x.index).1) (shortest x.index).2

/-- `format_finite_float`. -/
def formatFiniteFloat (x : Binary64) : List Char :=
  if x.index = 0 then (if x.negative then ['-', '0', '.', '0'] else ['0', '.', '0'])
  else rearrange (ryuText x)

/-! ### Taking Ryu's text apart -/

/-- Characters are taken up to the first one that is not picked. -/
theorem takeWhile_append_cons {p : Char → Bool} {xs : List Char} {y : Char} (hxs : ∀ x ∈ xs, p x = true)
    (hy : p y = false) (ys : List Char) : (xs ++ y :: ys).takeWhile p = xs := by
  rw [List.takeWhile_append_of_pos hxs, List.takeWhile_cons_of_neg (by rw [hy]; decide),
    List.append_nil]

/-- Where all characters are picked, all are taken. -/
theorem takeWhile_eq_self {p : Char → Bool} {xs : List Char} (hxs : ∀ x ∈ xs, p x = true) :
    xs.takeWhile p = xs := by
  have h : (xs ++ []).takeWhile p = xs ++ [].takeWhile p := List.takeWhile_append_of_pos hxs
  rwa [List.append_nil, List.takeWhile_nil, List.append_nil] at h

/-- Digits have no point. -/
theorem filter_digits {ds : List Char} (h : AllDigits ds) : ds.filter (· != '.') = ds :=
  List.filter_eq_self.2 fun d hd => bne_iff_ne.2 (isDigit_ne (h d hd) rfl)

/-- Zeros at the end go, up to a digit that is none. -/
theorem popZeros_append {ds : List Char} (hne : ds ≠ []) (hlast : ds.getLast? ≠ some '0') (n : ℕ) :
    popZeros (ds ++ List.replicate n '0') = ds := by
  rw [popZeros, List.reverse_append, List.reverse_replicate]
  have hzeros : ∀ x ∈ List.replicate n '0', (x == '0') = true := fun x hx => by
    rw [List.eq_of_mem_replicate hx]
    rfl
  rw [List.dropWhile_append_of_pos hzeros]
  obtain ⟨es, d, rfl⟩ : ∃ es d, ds = es ++ [d] :=
    ⟨ds.dropLast, ds.getLast hne, (List.dropLast_append_getLast hne).symm⟩
  rw [List.getLast?_concat, Ne, Option.some.injEq] at hlast
  rw [List.reverse_append, List.reverse_singleton, List.singleton_append,
    List.dropWhile_cons_of_neg (by rw [beq_iff_eq]; exact hlast), List.reverse_cons,
    List.reverse_reverse]

/-- The digits between zeros on both sides, whatever the place of the point. -/
theorem analyse_eq {mantissa ds : List Char} (hds : IsDigits ds) (hlast : ds.getLast? ≠ some '0')
    {zeros trailing : ℕ} (hfilter : mantissa.filter (· != '.') =
      List.replicate zeros '0' ++ (ds ++ List.replicate trailing '0')) (explicit : ℤ) :
    analyse mantissa explicit =
      (ds, explicit + (mantissa.takeWhile (· != '.')).length - 1 - zeros) := by
  obtain ⟨d, ds', rfl, hd⟩ := hds.head
  have hzeros : ∀ x ∈ List.replicate zeros '0', (x == '0') = true := fun x hx => by
    rw [List.eq_of_mem_replicate hx]
    rfl
  have hleading : (mantissa.filter (· != '.')).takeWhile (· == '0') = List.replicate zeros '0' := by
    rw [hfilter, List.cons_append]
    exact takeWhile_append_cons hzeros (beq_eq_false_iff_ne.2 hd) _
  have hdrop : (mantissa.filter (· != '.')).drop (List.replicate zeros '0').length =
      d :: ds' ++ List.replicate trailing '0' := by rw [hfilter, List.drop_left]
  rw [analyse, hleading, hdrop, popZeros_append (List.cons_ne_nil d ds') hlast, if_neg (List.cons_ne_nil d ds'),
    List.length_replicate]

/-- A text without `e` has no exponent. -/
theorem splitExponent_none {s : List Char} (h : ∀ c ∈ s, (c != 'e' && c != 'E') = true) :
    splitExponent s = (s, none) := by
  rw [splitExponent, takeWhile_eq_self h]
  simp only [List.drop_length]

/-- A text is split at its first `e`. -/
theorem splitExponent_some {s t : List Char} (h : ∀ c ∈ s, (c != 'e' && c != 'E') = true) :
    splitExponent (s ++ 'e' :: t) = (s, some t) := by
  rw [splitExponent, takeWhile_append_cons h rfl]
  simp only [List.drop_left]

/-- An integer of 32 bits is read back from its text. -/
theorem parseI32_intText {n : ℤ} (h₁ : -2 ^ 31 ≤ n) (h₂ : n < 2 ^ 31) :
    parseI32 (intText n) = some n := by
  have hall : (numeral n.natAbs).all Char.isDigit = true := List.all_eq_true.2 (allDigits_numeral _)
  have hne := numeral_ne_nil n.natAbs
  rcases lt_or_ge n 0 with hn | hn
  · have htext : intText n = '-' :: numeral n.natAbs := by
      simp [intText, intToken, NumberToken.text, signText, hn]
    have hval : -(n.natAbs : ℤ) = n := by omega
    have hsign : stripSign ('-' :: numeral n.natAbs) = (true, numeral n.natAbs) := rfl
    rw [htext, parseI32, hsign]
    simp only [digitsValue_numeral, if_true, hval]
    rw [if_pos ⟨hne, hall, h₁, h₂⟩]
  · have htext : intText n = numeral n.natAbs := by
      simp [intText, intToken, NumberToken.text, signText, hn]
    have hval : (n.natAbs : ℤ) = n := by omega
    have hsign : stripSign (numeral n.natAbs) = (false, numeral n.natAbs) := by
      obtain ⟨d, ds, hd⟩ := List.exists_cons_of_ne_nil hne
      have hdigit := allDigits_numeral n.natAbs d (by rw [hd]; exact List.mem_cons_self)
      rw [hd, stripSign, if_neg (isDigit_ne hdigit rfl), if_neg (isDigit_ne hdigit rfl)]
    rw [htext, parseI32, hsign]
    simp only [digitsValue_numeral, Bool.false_eq_true, if_false, hval]
    rw [if_pos ⟨hne, hall, h₁, h₂⟩]

/-- The sign is split from the text of a float. -/
theorem stripMinus_sign (negative : Bool) {c : Char} (hc : c.isDigit = true) (s : List Char) :
    stripMinus (signText negative ++ c :: s) = (negative, c :: s) := by
  cases negative with
  | true => rfl
  | false => exact if_neg (isDigit_ne hc rfl)

/-- A mantissa has no exponent in it. -/
theorem forall_mantissa {s : List Char} (h : ∀ c ∈ s, c.isDigit = true ∨ c = '.') :
    ∀ c ∈ s, (c != 'e' && c != 'E') = true := fun c hc => by
  rcases h c hc with h | rfl
  · rw [Bool.and_eq_true, bne_iff_ne, bne_iff_ne]
    exact ⟨isDigit_ne h rfl, isDigit_ne h rfl⟩
  · rfl

/-- What follows the mantissa in Ryu's text. -/
def exponentText : Option ℤ → List Char
  | none => []
  | some e => 'e' :: intText e

/-- A text of digits and a point is split from its exponent. -/
theorem splitExponent_mantissa {mantissa : List Char} (hm : ∀ c ∈ mantissa, c.isDigit = true ∨ c = '.')
    (explicit : Option ℤ) :
    splitExponent (mantissa ++ exponentText explicit) = (mantissa, explicit.map intText) := by
  cases explicit with
  | none => rw [exponentText, List.append_nil, splitExponent_none (forall_mantissa hm), Option.map_none]
  | some e => rw [exponentText, splitExponent_some (forall_mantissa hm), Option.map_some]

/-- What is made of a text with the given sign, mantissa and exponent. -/
theorem rearrange_eq (negative : Bool) {mantissa : List Char} {c : Char} {s : List Char}
    (hm : ∀ c ∈ mantissa, c.isDigit = true ∨ c = '.') (hcons : mantissa = c :: s)
    (hc : c.isDigit = true) {explicit : Option ℤ}
    (hexp : ∀ e, explicit = some e → -2 ^ 31 ≤ e ∧ e < 2 ^ 31) {ds : List Char} {k : ℤ}
    (hk : analyse mantissa (explicit.getD 0) = (ds, k)) :
    rearrange (signText negative ++ (mantissa ++ exponentText explicit)) =
      render negative ds k := by
  have hsign : stripMinus (signText negative ++ (mantissa ++ exponentText explicit)) =
      (negative, mantissa ++ exponentText explicit) := by
    rw [hcons, List.cons_append]
    exact stripMinus_sign negative hc _
  have hparse : (explicit.map intText).bind parseI32 = explicit := by
    cases explicit with
    | none => rfl
    | some e => exact parseI32_intText (hexp e rfl).1 (hexp e rfl).2
  rw [rearrange, hsign]
  simp only [splitExponent_mantissa hm, hparse, hk]

/-- Without the point, the digits before and behind it remain. -/
theorem filter_point {a b : List Char} (ha : AllDigits a) (hb : AllDigits b) :
    (a ++ '.' :: b).filter (· != '.') = a ++ b := by
  rw [List.filter_append, List.filter_cons_of_neg (by decide), filter_digits ha, filter_digits hb]

/-- A text that comes apart into a sign, a mantissa and an exponent, of the decimal with digits `ds`,
the first of them worth `10 ^ k`. -/
structure Splits (negative : Bool) (ds : List Char) (k : ℤ) (text mantissa : List Char)
    (explicit : Option ℤ) : Prop where
  text_eq : text = signText negative ++ (mantissa ++ exponentText explicit)
  chars : ∀ c ∈ mantissa, c.isDigit = true ∨ c = '.'
  head : ∃ c s, mantissa = c :: s ∧ c.isDigit = true
  length : mantissa.length ≤ ds.length + k.natAbs + 3
  exponent : ∀ e, explicit = some e → e = k
  analyse_eq : analyse mantissa (explicit.getD 0) = (ds, k)

/-- A mantissa with a point is split into its digits, and the exponent is theirs. -/
theorem splits_point (negative : Bool) {a b : List Char} (ha : AllDigits a) (hne : a ≠ [])
    (hb : AllDigits b) {explicit : Option ℤ} {k : ℤ} (hexp : ∀ e, explicit = some e → e = k)
    {ds : List Char} (hds : IsDigits ds) (hlast : ds.getLast? ≠ some '0') {zeros trailing : ℕ}
    (hab : a ++ b = List.replicate zeros '0' ++ (ds ++ List.replicate trailing '0'))
    (hlength : zeros + trailing ≤ k.natAbs + 2) (hk : explicit.getD 0 + a.length - 1 - zeros = k) :
    Splits negative ds k (signText negative ++ ((a ++ '.' :: b) ++ exponentText explicit)) (a ++ '.' :: b)
      explicit := by
  obtain ⟨c, s, rfl⟩ := List.exists_cons_of_ne_nil hne
  have hpoint : ∀ x ∈ c :: s, (x != '.') = true := fun x hx => bne_iff_ne.2 (isDigit_ne (ha x hx) rfl)
  have hfilter : (c :: s ++ '.' :: b).filter (· != '.') =
      List.replicate zeros '0' ++ (ds ++ List.replicate trailing '0') := by
    rw [filter_point ha hb, hab]
  refine ⟨rfl, ?_, ⟨c, _, List.cons_append .., ha c List.mem_cons_self⟩, ?_, hexp, ?_⟩
  · intro x hx
    rcases List.mem_append.1 hx with hx | hx
    · exact Or.inl (ha x hx)
    · rcases List.mem_cons.1 hx with rfl | hx
      · exact Or.inr rfl
      · exact Or.inl (hb x hx)
  · have hsum := congrArg List.length hab
    simp only [List.length_append, List.length_cons, List.length_replicate] at hsum ⊢
    omega
  · rw [analyse_eq hds hlast hfilter, takeWhile_append_cons hpoint (by decide), hk]

/-- A mantissa of one digit is that digit. -/
theorem splits_digit (negative : Bool) {ds : List Char} (hds : IsDigits ds)
    (hlast : ds.getLast? ≠ some '0') (hlength : ds.length = 1) (k : ℤ) :
    Splits negative ds k (signText negative ++ (ds ++ exponentText (some k))) ds (some k) := by
  obtain ⟨c, s, rfl, -⟩ := hds.head
  have hall := hds.digits
  have hpoint : ∀ x ∈ c :: s, (x != '.') = true := fun x hx =>
    bne_iff_ne.2 (isDigit_ne (hall x hx) rfl)
  have hfilter : (c :: s).filter (· != '.') =
      List.replicate 0 '0' ++ (c :: s ++ List.replicate 0 '0') := by
    rw [filter_digits hall]
    exact (List.append_nil _).symm
  refine ⟨rfl, fun x hx => Or.inl (hall x hx), ⟨c, s, rfl, hall c List.mem_cons_self⟩, by omega,
    fun e he => (Option.some.inj he).symm, ?_⟩
  rw [analyse_eq hds hlast hfilter, takeWhile_eq_self hpoint, Option.getD_some, hlength, Nat.cast_zero,
    sub_zero, Nat.cast_one, add_sub_cancel_right]

/-- The texts that print the decimal with digits `ds`, the first of them worth `10 ^ k`: with a point
and no exponent, or with an exponent and one digit before the point, if there is one. -/
inductive Printed (negative : Bool) (ds : List Char) (k : ℤ) : List Char → Prop
  | whole (h : ds.length ≤ k + 1) : Printed negative ds k
      (signText negative ++ (ds ++ (List.replicate (k + 1 - ds.length).toNat '0' ++ ['.', '0'])))
  | within (h₁ : 0 ≤ k) (h₂ : k + 1 < ds.length) : Printed negative ds k
      (signText negative ++ (ds.take (k + 1).toNat ++ ('.' :: ds.drop (k + 1).toNat)))
  | below (h : k < 0) : Printed negative ds k
      (signText negative ++ ('0' :: '.' :: (List.replicate (-k - 1).toNat '0' ++ ds)))
  | digit (h : ds.length = 1) : Printed negative ds k
      (signText negative ++ (ds ++ ('e' :: intText k)))
  | scientific (h : 1 < ds.length) : Printed negative ds k
      (signText negative ++ (ds.take 1 ++ ('.' :: (ds.drop 1 ++ ('e' :: intText k)))))

/-- **A printed decimal comes apart** into its digits and their exponent, whatever its layout. -/
theorem Printed.splits {negative : Bool} {ds : List Char} {k : ℤ} {text : List Char}
    (h : Printed negative ds k text) (hds : IsDigits ds) (hlast : ds.getLast? ≠ some '0') :
    ∃ mantissa explicit, Splits negative ds k text mantissa explicit := by
  have hall := hds.digits
  have hne : ds ≠ [] := by
    obtain ⟨d, ds', rfl, -⟩ := hds.head
    exact List.cons_ne_nil d ds'
  have hlen := List.length_pos_iff.2 hne
  have hnone : ∀ e : ℤ, none = some e → e = k := fun e he => (nomatch he)
  have htake : ∀ {n}, 0 < n → ds.take n ≠ [] := fun hn h =>
    (List.take_eq_nil_iff.1 h).elim hn.ne' hne
  have hsplit : ∀ n, ds.take n ++ ds.drop n =
      List.replicate 0 '0' ++ (ds ++ List.replicate 0 '0') := fun n => by
    rw [List.take_append_drop]
    exact (List.append_nil _).symm
  cases h with
  | whole h =>
    have hdigits : AllDigits (ds ++ List.replicate (k + 1 - ds.length).toNat '0') :=
      allDigits_append.2 ⟨hall, allDigits_replicate _⟩
    have hzeros : ds ++ List.replicate (k + 1 - ds.length).toNat '0' ++ ['0'] =
        List.replicate 0 '0' ++ (ds ++ List.replicate ((k + 1 - ds.length).toNat + 1) '0') := by
      rw [List.append_assoc, List.replicate_succ', List.replicate_zero, List.nil_append]
    have hsplits := splits_point negative hdigits (fun h => hne (List.append_eq_nil_iff.1 h).1)
      (allDigits_replicate 1) hnone hds hlast hzeros (by omega) (by
        rw [List.length_append, List.length_replicate, Option.getD_none]
        omega)
    rw [exponentText, List.append_nil, List.append_assoc, List.replicate_one] at hsplits
    exact ⟨_, _, hsplits⟩
  | within h₁ h₂ =>
    have hsplits := splits_point negative (AllDigits.take hall _) (htake (by omega))
      (AllDigits.drop hall _) hnone hds hlast (hsplit (k + 1).toNat) (by omega) (by
        rw [List.length_take, Option.getD_none]
        omega)
    rw [exponentText, List.append_nil] at hsplits
    exact ⟨_, _, hsplits⟩
  | below h =>
    have hzeros : ['0'] ++ (List.replicate (-k - 1).toNat '0' ++ ds) =
        List.replicate ((-k - 1).toNat + 1) '0' ++ (ds ++ List.replicate 0 '0') := by
      rw [List.replicate_succ, List.replicate_zero, List.append_nil, List.singleton_append,
        List.cons_append]
    have hsplits := splits_point negative (allDigits_replicate 1) (List.cons_ne_nil _ _)
      (allDigits_append.2 ⟨allDigits_replicate _, hall⟩) hnone hds hlast hzeros (by omega) (by
        rw [List.length_replicate, Option.getD_none]
        omega)
    rw [exponentText, List.append_nil, List.replicate_one, List.singleton_append] at hsplits
    exact ⟨_, _, hsplits⟩
  | digit h => exact ⟨_, _, splits_digit negative hds hlast h k⟩
  | scientific h =>
    have hexp : ∀ e, some k = some e → e = k := fun e he => (Option.some.inj he).symm
    have hsplits := splits_point negative (AllDigits.take hall 1) (htake one_pos)
      (AllDigits.drop hall 1) hexp hds hlast (hsplit 1) (by omega) (by
        rw [List.length_take, Option.getD_some]
        omega)
    rw [exponentText, List.append_assoc, List.cons_append] at hsplits
    exact ⟨_, _, hsplits⟩

/-! ### The text of CHAIN_FORMAT.md -/

/-- `render` writes the layout of the digits. -/
theorem render_eq (negative : Bool) {ds : List Char} (hds : ds ≠ []) (k : ℤ) :
    render negative ds k = (layout negative ds k).text := by
  have hlen := List.length_pos_iff.2 hds
  unfold render layout NumberToken.text
  by_cases h₁ : -4 ≤ k ∧ k < 16
  · rw [if_neg (not_not_intro h₁), if_pos h₁]
    by_cases h₂ : k < 0
    · have hne : List.replicate (-k - 1).toNat '0' ++ ds ≠ [] := fun h =>
        hds (List.append_eq_nil_iff.1 h).2
      rw [if_pos (by omega), if_pos h₂]
      simp only [if_neg hne, List.append_nil, show -(k + 1) = -k - 1 by omega, List.cons_append,
        List.nil_append]
    · rw [if_neg (by omega), if_neg h₂]
      by_cases h₃ : (k + 1).toNat < ds.length
      · have hne : ds.drop (k + 1).toNat ≠ [] := by
          rw [Ne, List.drop_eq_nil_iff]
          omega
        rw [if_pos h₃, if_pos h₃]
        simp only [if_neg hne, List.append_nil]
      · rw [if_neg h₃, if_neg h₃]
        simp only [if_neg (List.cons_ne_nil '0' []), List.append_nil, List.append_assoc]
  · rw [if_pos h₁, if_neg h₁]
    have htail : ds.drop 1 = [] ↔ ¬ 1 < ds.length := by rw [List.drop_eq_nil_iff, not_lt]
    simp only [htail, ite_not, decide_eq_true_eq]
    congr 4
    by_cases hk : k < 0
    · rw [if_neg (by omega), if_pos hk]
    · rw [if_pos (by omega), if_neg hk]

/-- Ryu's text prints the decimal. -/
theorem printed_ryuFormat (negative : Bool) {ds : List Char} (hne : ds ≠ []) (k : ℤ) :
    Printed negative ds (k + ds.length - 1) (ryuFormat negative ds k) := by
  have hlen := List.length_pos_iff.2 hne
  rw [ryuFormat]
  split_ifs with h₁ h₂ h₃ h₄
  · have hp := @Printed.whole negative ds (k + ds.length - 1) (by omega)
    rwa [show k + ds.length - 1 + 1 - ds.length = k by omega] at hp
  · have hp := @Printed.within negative ds (k + ds.length - 1) (by omega) (by omega)
    rwa [show k + ds.length - 1 + 1 = ds.length + k by omega] at hp
  · have hp := @Printed.below negative ds (k + ds.length - 1) (by omega)
    rwa [show -(k + ds.length - 1) - 1 = -(ds.length + k) by omega] at hp
  · rw [show (ds.length : ℤ) + k - 1 = k + ds.length - 1 by omega]
    exact .digit h₄
  · rw [show (ds.length : ℤ) + k - 1 = k + ds.length - 1 by omega]
    exact .scientific (by omega)

/-- **Rearranging Ryu's text**: for the digits of any decimal, without zeros at either
end, what comes out is the layout of CHAIN_FORMAT.md. -/
theorem rearrange_ryuFormat (negative : Bool) {ds : List Char} (hds : IsDigits ds)
    (hlast : ds.getLast? ≠ some '0') {k : ℤ} (hk : -10 ^ 9 ≤ k ∧ k + ds.length ≤ 10 ^ 9) :
    rearrange (ryuFormat negative ds k) = (layout negative ds (k + ds.length - 1)).text := by
  have hne : ds ≠ [] := by
    obtain ⟨d, ds', rfl, -⟩ := hds.head
    exact List.cons_ne_nil d ds'
  obtain ⟨mantissa, explicit, hsplits⟩ := (printed_ryuFormat negative hne k).splits hds hlast
  obtain ⟨c, s, hcons, hc⟩ := hsplits.head
  have hexp : ∀ e, explicit = some e → -2 ^ 31 ≤ e ∧ e < 2 ^ 31 := fun e he => by
    rw [hsplits.exponent e he]
    omega
  rw [hsplits.text_eq, rearrange_eq negative hsplits.chars hcons hc hexp hsplits.analyse_eq, render_eq _ hne]

/-- The digits of a shortest decimal have no zeros at either end. -/
theorem numeral_shortest (x : Binary64) (hx : x.index ≠ 0) :
    IsDigits (numeral (shortest x.index).1) ∧ (numeral (shortest x.index).1).getLast? ≠ some '0' := by
  have hmod := shortest_mod_ten (Nat.pos_of_ne_zero hx) x.finite
  refine ⟨isDigits_numeral (Nat.pos_of_ne_zero fun h => hmod (by rw [h])), ?_⟩
  rw [numeral_getLast, Ne, Option.some.injEq]
  exact digitChar_ne_zero (Nat.pos_of_ne_zero hmod) (Nat.mod_lt _ (by norm_num))

/-- **The verifier prints a number as Python does.** -/
theorem formatFiniteFloat_eq (x : Binary64) : formatFiniteFloat x = floatRepr x := by
  rw [formatFiniteFloat, floatRepr, floatToken]
  by_cases hx : x.index = 0
  · rw [if_pos hx, if_pos hx]
    cases x.negative <;> rfl
  · obtain ⟨-, hm, he₁, he₂, -⟩ := shortest_spec (Nat.pos_of_ne_zero hx) x.finite
    obtain ⟨hds, hlast⟩ := numeral_shortest x hx
    have hlen : (numeral (shortest x.index).1).length ≤ 18 :=
      (Nat.length_toDigits_le_iff (by norm_num) (by norm_num)).2 (by omega)
    rw [if_neg hx, if_neg hx, ryuText, rearrange_ryuFormat _ hds hlast (by omega)]

end Verifier
end Vestrix
