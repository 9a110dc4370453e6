/-
# What the verifier's schema check accepts

`validate_schema` of `chain.rs` succeeds on the objects that conform to a `Shape`, with
the timestamps that `validate_timestamp` reads off the bytes (`validateSchema_eq_ok`).

A timestamp is ASCII, so that its bytes and its characters are the same list but for the
type; `utf8_ascii` goes from one to the other.
-/

import Vestrix.Record.Schema
import Vestrix.Text.Timestamp
import Vestrix.Verifier.Chain

namespace Vestrix
namespace Verifier

open Text Rounding Json Outcome Record

/-! ### Timestamps -/

/-- The timestamps that the verifier reads: of the calendar, and of ASCII digits. -/
structure IsTimestamp (t : Stamp Char) : Prop where
  shaped : t.Shaped (·.isDigit = true)
  calendar : t.OnCalendar
  fraction : ∀ c ∈ t.fraction, c.isDigit = true

/-- The digits are the characters from `0x30` to `0x39`. -/
theorem digit_toNat {c : Char} (h : c.isDigit = true) : 0x30 ≤ c.toNat ∧ c.toNat ≤ 0x39 := by
  rw [Char.isDigit, Bool.and_eq_true, decide_eq_true_eq, decide_eq_true_eq] at h
  exact h

/-- The bytes of digits are those from `0x30` to `0x39`. -/
theorem isAsciiDigit_iff {b : UInt8} : isAsciiDigit b = true ↔ 0x30 ≤ b.toNat ∧ b.toNat ≤ 0x39 := by
  rw [isAsciiDigit, Bool.and_eq_true, decide_eq_true_eq, decide_eq_true_eq, UInt8.le_iff_toNat_le,
    UInt8.le_iff_toNat_le]
  rfl

/-- The byte of a digit is one of a digit. -/
theorem isAsciiDigit_asciiByte {c : Char} (h : c.isDigit = true) : isAsciiDigit (asciiByte c) = true := by
  have hc := digit_toNat h
  rw [isAsciiDigit_iff, asciiByte_toNat (by omega)]
  exact hc

/-- The character of a digit's byte is a digit. -/
theorem isDigit_asciiChar {b : UInt8} (h : isAsciiDigit b = true) : (asciiChar b).isDigit = true := by
  have hb := isAsciiDigit_iff.1 h
  rw [Char.isDigit, Bool.and_eq_true, decide_eq_true_eq, decide_eq_true_eq]
  have hchar := asciiChar_toNat (b := b) (by omega)
  show 0x30 ≤ (asciiChar b).toNat ∧ (asciiChar b).toNat ≤ 0x39
  rwa [hchar]

/-- The byte of a digit is that of its character. -/
theorem asciiByte_asciiChar_digit {b : UInt8} (h : isAsciiDigit b = true) : asciiByte (asciiChar b) = b :=
  asciiByte_asciiChar (by have := isAsciiDigit_iff.1 h; omega)

/-- Reading the bytes of digits is reading the digits. -/
theorem decimal_map {ds : List Char} (h : ∀ c ∈ ds, c.isDigit = true) :
    decimal (ds.map asciiByte) = digitsValue ds := by
  have hfold : ∀ (ds : List Char) (value : ℕ), (∀ c ∈ ds, c.isDigit = true) →
      (ds.map asciiByte).foldl (fun value digit => value * 10 + (digit - 0x30).toNat) value =
        Nat.ofDigitChars 10 ds value := by
    intro ds
    induction ds with
    | nil => exact fun _ _ => rfl
    | cons c ds ih =>
      intro value h
      obtain ⟨hc, hds⟩ := List.forall_mem_cons.1 h
      have hc := digit_toNat hc
      have hbyte := asciiByte_toNat (c := c) (by omega)
      have hsub : (asciiByte c - 0x30).toNat = c.toNat - '0'.toNat := by
        rw [UInt8.toNat_sub_of_le _ _ (by rw [UInt8.le_iff_toNat_le, hbyte]; exact hc.1), hbyte]
        rfl
      rw [List.map_cons, List.foldl_cons, ih _ hds, Nat.ofDigitChars_cons, hsub, Nat.mul_comm]
  exact hfold ds 0 h

/-- The days that the verifier allows are those of the calendar. -/
theorem maxDay_spec (year month day : ℕ) :
    (∃ m, maxDay year month = some m ∧ 1 ≤ day ∧ day ≤ m) ↔
      (1 ≤ month ∧ month ≤ 12) ∧ 1 ≤ day ∧ day ≤ daysInMonth year month := by
  have hleap : (year % 4 = 0 ∧ (¬ year % 100 = 0 ∨ year % 400 = 0)) ↔ isLeap year = true := by
    simp only [isLeap, Bool.and_eq_true, Bool.or_eq_true, beq_iff_eq, bne_iff_ne, ne_eq]
  unfold maxDay daysInMonth
  simp only [hleap]
  split_ifs <;> simp only [Option.some.injEq, exists_eq_left', false_and, exists_false,
    false_iff] <;> omega

section Bytes

variable {bytes : List UInt8}

/-- Behind the first `i` bytes comes the byte at `i`. -/
theorem drop_of_getElem? {i : ℕ} {b : UInt8} (h : bytes[i]? = some b) :
    bytes.drop i = b :: bytes.drop (i + 1) := by
  obtain ⟨hi, rfl⟩ := List.getElem?_eq_some_iff.1 h
  exact List.drop_eq_getElem_cons hi

/-- Behind the first `i` bytes comes the slice up to `j`. -/
theorem drop_of_slice {i j : ℕ} (h : i ≤ j) : bytes.drop i = slice bytes i j ++ bytes.drop j := by
  conv_lhs => rw [← List.take_append_drop (j - i) (bytes.drop i), List.drop_drop, Nat.add_sub_cancel' h]
  rfl

/-- A slice has as many bytes as it is long. -/
theorem length_slice {i j : ℕ} (hj : j ≤ bytes.length) : (slice bytes i j).length = j - i := by
  rw [slice, List.length_take, List.length_drop]
  omega

/-- Behind all bytes but one comes the last. -/
theorem drop_of_getLast? {b : UInt8} (h : bytes.getLast? = some b) :
    bytes.drop (bytes.length - 1) = [b] := by
  obtain ⟨front, rfl⟩ := List.getLast?_eq_some_iff.1 h
  rw [List.length_append, List.length_singleton, Nat.add_sub_cancel, List.drop_left]

/-- The first two checks of `validate_timestamp` are that the bytes are those of fields of
ASCII digits. -/
def HasShape (bytes : List UInt8) : Prop :=
  (20 ≤ bytes.length ∧ bytes[4]? = some 0x2D ∧ bytes[7]? = some 0x2D ∧ bytes[10]? = some 0x54 ∧
    bytes[13]? = some 0x3A ∧ bytes[16]? = some 0x3A ∧ bytes.getLast? = some 0x5A ∧
    (bytes.length = 20 ∨ (bytes[19]? = some 0x2E ∧ 21 < bytes.length))) ∧
  (digitRanges.all fun r => (slice bytes r.1 r.2).all isAsciiDigit) = true ∧
    (20 < bytes.length → (slice bytes 20 (bytes.length - 1)).all isAsciiDigit = true)

/-- Bytes of the shape that is checked are the text of a timestamp. -/
theorem HasShape.exists_stamp (h : HasShape bytes) : ∃ t : Stamp UInt8,
    t.Shaped (isAsciiDigit · = true) ∧ (∀ b ∈ t.fraction, isAsciiDigit b = true) ∧
      bytes = t.text asciiByte := by
  obtain ⟨⟨hlen, h4, h7, h10, h13, h16, hlast, hrest⟩, hdigits, hfraction⟩ := h
  have hfield : ∀ i j n, (i, j) ∈ digitRanges → j ≤ 20 → j - i = n → (slice bytes i j).length = n ∧
      ∀ b ∈ slice bytes i j, isAsciiDigit b = true := fun i j n hmem hj hn =>
    ⟨(length_slice (hj.trans hlen)).trans hn,
      List.all_eq_true.1 (List.all_eq_true.1 hdigits (i, j) hmem)⟩
  have hshaped : ∀ f, Stamp.Shaped (isAsciiDigit · = true) ⟨slice bytes 0 4, slice bytes 5 7, slice bytes 8 10,
      slice bytes 11 13, slice bytes 14 16, slice bytes 17 19, f⟩ := fun f =>
    ⟨hfield 0 4 4 (by decide) (by decide) rfl, hfield 5 7 2 (by decide) (by decide) rfl,
      hfield 8 10 2 (by decide) (by decide) rfl, hfield 11 13 2 (by decide) (by decide) rfl,
      hfield 14 16 2 (by decide) (by decide) rfl, hfield 17 19 2 (by decide) (by decide) rfl⟩
  have hfront : bytes = slice bytes 0 4 ++ 0x2D :: (slice bytes 5 7 ++ 0x2D :: (slice bytes 8 10 ++ 0x54 ::
      (slice bytes 11 13 ++ 0x3A :: (slice bytes 14 16 ++ 0x3A :: (slice bytes 17 19 ++
        bytes.drop 19))))) := by
    conv_lhs => rw [← List.drop_zero (l := bytes), drop_of_slice (Nat.zero_le 4), drop_of_getElem? h4,
      drop_of_slice (show 5 ≤ 7 by decide), drop_of_getElem? h7, drop_of_slice (show 8 ≤ 10 by decide),
      drop_of_getElem? h10, drop_of_slice (show 11 ≤ 13 by decide), drop_of_getElem? h13,
      drop_of_slice (show 14 ≤ 16 by decide), drop_of_getElem? h16, drop_of_slice (show 17 ≤ 19 by decide)]
  have hZ := drop_of_getLast? hlast
  rcases hrest with h20 | ⟨h19, h21⟩
  · refine ⟨_, hshaped [], fun b hb => absurd hb List.not_mem_nil, ?_⟩
    rw [h20] at hZ
    refine hfront.trans ?_
    rw [hZ]
    simp only [Stamp.text, Stamp.dateText, Stamp.timeText, Stamp.fractionText, if_true, List.append_nil,
      List.append_assoc, List.cons_append]
    rfl
  · refine ⟨_, hshaped (slice bytes 20 (bytes.length - 1)),
      List.all_eq_true.1 (hfraction (by omega)), ?_⟩
    have htail : bytes.drop 19 = 0x2E :: (slice bytes 20 (bytes.length - 1) ++ [0x5A]) := by
      rw [drop_of_getElem? h19, drop_of_slice (show 20 ≤ bytes.length - 1 by omega), hZ]
    have hne : slice bytes 20 (bytes.length - 1) ≠ [] := by
      rw [← List.length_pos_iff, length_slice (Nat.sub_le _ _)]
      omega
    refine hfront.trans ?_
    rw [htail]
    simp only [Stamp.text, Stamp.dateText, Stamp.timeText, Stamp.fractionText, if_neg hne,
      List.append_assoc, List.cons_append]
    rfl

/-- The fields of a timestamp are found where they are. -/
theorem slices_text {t : Stamp UInt8} (ht : t.Shaped (isAsciiDigit · = true)) :
    let bytes := t.text asciiByte
    (slice bytes 0 4 = t.year ∧ slice bytes 5 7 = t.month ∧ slice bytes 8 10 = t.day ∧
      slice bytes 11 13 = t.hour ∧ slice bytes 14 16 = t.minute ∧ slice bytes 17 19 = t.second) ∧
    (bytes[4]? = some 0x2D ∧ bytes[7]? = some 0x2D ∧ bytes[10]? = some 0x54 ∧ bytes[13]? = some 0x3A ∧
      bytes[16]? = some 0x3A) ∧
    bytes.length = 20 + (t.fractionText asciiByte).length ∧
    bytes.drop 19 = t.fractionText asciiByte ++ [0x5A] := by
  obtain ⟨y, mo, d, h, mi, sec, f⟩ := t
  obtain ⟨⟨hy, -⟩, ⟨hmo, -⟩, ⟨hd, -⟩, ⟨hh, -⟩, ⟨hmi, -⟩, ⟨hsec, -⟩⟩ := ht
  obtain ⟨y₀, y₁, y₂, y₃, rfl⟩ := List.length_eq_four.1 hy
  obtain ⟨mo₀, mo₁, rfl⟩ := List.length_eq_two.1 hmo
  obtain ⟨d₀, d₁, rfl⟩ := List.length_eq_two.1 hd
  obtain ⟨h₀, h₁, rfl⟩ := List.length_eq_two.1 hh
  obtain ⟨mi₀, mi₁, rfl⟩ := List.length_eq_two.1 hmi
  obtain ⟨s₀, s₁, rfl⟩ := List.length_eq_two.1 hsec
  refine ⟨⟨rfl, rfl, rfl, rfl, rfl, rfl⟩, ⟨rfl, rfl, rfl, rfl, rfl⟩, ?_, rfl⟩
  simp only [Stamp.text, Stamp.dateText, Stamp.timeText, List.length_append, List.length_cons,
    List.length_nil]
  omega

/-- The text of a timestamp has the shape that is checked. -/
theorem hasShape_text {t : Stamp UInt8} (ht : t.Shaped (isAsciiDigit · = true))
    (hf : ∀ b ∈ t.fraction, isAsciiDigit b = true) : HasShape (t.text asciiByte) := by
  obtain ⟨⟨hy, hmo, hd, hh, hmi, hsec⟩, ⟨h4, h7, h10, h13, h16⟩, hlen, htail⟩ := slices_text ht
  have hlast : (t.text asciiByte).getLast? = some 0x5A := by
    rw [← List.take_append_drop 19 (t.text asciiByte), htail, ← List.append_assoc]
    exact List.getLast?_concat
  have hdigits : (digitRanges.all fun r => (slice (t.text asciiByte) r.1 r.2).all isAsciiDigit) = true := by
    simp only [digitRanges, List.all_cons, List.all_nil, hy, hmo, hd, hh, hmi, hsec, Bool.and_eq_true,
      List.all_eq_true, and_true]
    exact ⟨ht.year.2, ht.month.2, ht.day.2, ht.hour.2, ht.minute.2, ht.second.2⟩
  by_cases hnil : t.fraction = []
  · rw [Stamp.fractionText, if_pos hnil, List.length_nil] at hlen
    exact ⟨⟨hlen.ge, h4, h7, h10, h13, h16, hlast, Or.inl hlen⟩, hdigits, fun h => absurd hlen h.ne'⟩
  · rw [Stamp.fractionText, if_neg hnil] at hlen htail
    have hpos := List.length_pos_iff.2 hnil
    rw [List.length_cons] at hlen
    have h19 : (t.text asciiByte)[19]? = some 0x2E := by
      rw [← List.head?_drop, htail]
      rfl
    have hslice : slice (t.text asciiByte) 20 ((t.text asciiByte).length - 1) = t.fraction := by
      rw [slice, show 20 = 19 + 1 from rfl, ← List.drop_drop, htail, hlen]
      exact List.take_left' (by omega)
    exact ⟨⟨by omega, h4, h7, h10, h13, h16, hlast, Or.inr ⟨h19, by omega⟩⟩, hdigits,
      fun _ => List.all_eq_true.2 (by rwa [hslice])⟩

end Bytes

/-- The text of a timestamp of ASCII digits is ASCII. -/
theorem asciiText {t : Stamp Char} (ht : t.Shaped (·.isDigit = true))
    (hf : ∀ c ∈ t.fraction, c.isDigit = true) : ∀ c ∈ t.text id, c.toNat < 0x80 := by
  have hdigit : ∀ c : Char, c.isDigit = true → c.toNat < 0x80 := fun c hc => by
    have := digit_toNat hc
    omega
  have hfraction : ∀ c ∈ t.fractionText id, c.toNat < 0x80 := by
    intro c hc
    rw [Stamp.fractionText] at hc
    split_ifs at hc
    · exact absurd hc List.not_mem_nil
    · rcases List.mem_cons.1 hc with rfl | hc
      · decide
      · exact hdigit c (hf c hc)
  intro c hc
  simp only [Stamp.text, Stamp.dateText, Stamp.timeText, List.mem_append, List.mem_cons, id_eq,
    List.not_mem_nil, or_false] at hc
  rcases hc with (hc | rfl | hc | rfl | hc) | rfl | (hc | rfl | hc | rfl | hc | hc) | rfl
  · exact hdigit c (ht.year.2 c hc)
  · decide
  · exact hdigit c (ht.month.2 c hc)
  · decide
  · exact hdigit c (ht.day.2 c hc)
  · decide
  · exact hdigit c (ht.hour.2 c hc)
  · decide
  · exact hdigit c (ht.minute.2 c hc)
  · decide
  · exact hdigit c (ht.second.2 c hc)
  · exact hfraction c hc
  · decide

/-- The bytes of a timestamp are those of its fields. -/
theorem utf8_text {t : Stamp Char} (ht : t.Shaped (·.isDigit = true))
    (hf : ∀ c ∈ t.fraction, c.isDigit = true) : utf8 (t.text id) = (t.map asciiByte).text asciiByte := by
  rw [utf8_ascii (asciiText ht hf), ← Stamp.text_map]
  rfl

/-- What `validate_timestamp` checks once the bytes have their shape. -/
theorem validateTimestamp_stamp {t : Stamp Char} (ht : t.Shaped (·.isDigit = true))
    (hf : ∀ c ∈ t.fraction, c.isDigit = true) {u : Unit} :
    validateTimestamp (t.text id) = .ok u ↔ t.OnCalendar := by
  have ht' : (t.map asciiByte).Shaped (isAsciiDigit · = true) :=
    ht.map fun c hc => isAsciiDigit_asciiByte hc
  have hshape := hasShape_text ht' (List.forall_mem_map.2 fun c hc => isAsciiDigit_asciiByte (hf c hc))
  obtain ⟨⟨hy, hmo, hd, hh, hmi, hsec⟩, -⟩ := slices_text ht'
  have hday := maxDay_spec (digitsValue t.year) (digitsValue t.month) (digitsValue t.day)
  obtain ⟨hforms, hdigits⟩ := hshape
  rw [← utf8_text ht hf] at hforms hdigits hy hmo hd hh hmi hsec
  simp only [validateTimestamp, bind_eq_ok, require_eq_ok, orError_eq_ok, exists_and_left, exists_const, hy,
    hmo, hd, hh, hmi, hsec, Stamp.map, decimal_map ht.year.2, decimal_map ht.month.2, decimal_map ht.day.2,
    decimal_map ht.hour.2, decimal_map ht.minute.2, decimal_map ht.second.2]
  constructor
  · rintro ⟨-, -, m, hm, hrange, htime⟩
    obtain ⟨hmonth, hday⟩ := hday.1 ⟨m, hm, hrange⟩
    exact ⟨hmonth, hday, htime.1, htime.2.1, htime.2.2⟩
  · intro h
    obtain ⟨m, hm, hrange⟩ := hday.2 ⟨h.month, h.day⟩
    exact ⟨hforms, hdigits, m, hm, hrange, h.hour, h.minute, h.second⟩

/-- **The verifier accepts just the timestamps of the format**, on the calendar. -/
theorem validateTimestamp_eq_ok {value : List Char} {u : Unit} : validateTimestamp value = .ok u ↔
    ∃ t : Stamp Char, IsTimestamp t ∧ value = t.text id := by
  constructor
  · intro h
    have hshape : HasShape (utf8 value) := by
      simp only [validateTimestamp, bind_eq_ok, require_eq_ok, exists_and_left, exists_const] at h
      exact ⟨h.1, h.2.1⟩
    obtain ⟨t, ht, hf, hbytes⟩ := hshape.exists_stamp
    have hfield : ∀ ds : List UInt8, (∀ b ∈ ds, isAsciiDigit b = true) →
        (ds.map asciiChar).map asciiByte = ds := fun ds hds => by
      conv_rhs => rw [← List.map_id ds]
      rw [List.map_map]
      exact List.map_congr_left fun b hb => asciiByte_asciiChar_digit (hds b hb)
    have hmap : (t.map asciiChar).map asciiByte = t := by
      cases t
      simp only [Stamp.map, Stamp.mk.injEq]
      exact ⟨hfield _ ht.year.2, hfield _ ht.month.2, hfield _ ht.day.2, hfield _ ht.hour.2,
        hfield _ ht.minute.2, hfield _ ht.second.2, hfield _ hf⟩
    have ht' : (t.map asciiChar).Shaped (·.isDigit = true) := ht.map fun b hb => isDigit_asciiChar hb
    have hf' : ∀ c ∈ (t.map asciiChar).fraction, c.isDigit = true :=
      List.forall_mem_map.2 fun b hb => isDigit_asciiChar (hf b hb)
    have hvalue : value = (t.map asciiChar).text id :=
      utf8_injective (by rw [hbytes, utf8_text ht' hf', hmap])
    rw [hvalue] at h
    exact ⟨_, ⟨ht', (validateTimestamp_stamp ht' hf').1 h, hf'⟩, hvalue⟩
  · rintro ⟨t, ht, rfl⟩
    exact (validateTimestamp_stamp ht.shaped ht.fraction).2 ht.calendar

/-! ### Single fields -/

/-- The values of the verifier, as the schema sees them.  Whatever `parse` returns may be
part of a record. -/
def view : View Value where
  text? := asStr
  integer? := asI64
  number?
    | .atom (.number (.int n _)) => some n
    | .atom (.number (.float x)) => some x.value
    | _ => none
  Permitted _ := True

/-- The texts that `validate_timestamp` lets through. -/
def IsTimestampText (t : List Char) : Prop := ∃ s : Stamp Char, IsTimestamp s ∧ t = s.text id

/-- What a field of an object may hold. -/
abbrev Holds (kind : Kind) (v : Value) : Prop := kind.Holds view IsTimestampText v

/-- A field is there, with a value it may hold. -/
def Has (object : Object) (f : Field) : Prop := ∃ v, lookup object f.1 = some v ∧ Holds f.2 v

section Fields

variable {object : Object} {field : List Char} {u : Unit}

/-- A number is read from a field that has one from 0 to `2 ^ 63 - 1`. -/
theorem integerField_eq_ok {n : ℕ} : integerField object field = .ok n ↔
    ∃ v, lookup object field = some v ∧ view.integer? v = some (n : ℤ) := by
  rw [integerField, orError_eq_ok, Option.bind_eq_some_iff]
  simp only [Option.bind_eq_some_iff, Option.ite_none_right_eq_some, Option.some.injEq]
  constructor
  · rintro ⟨m, ⟨v, hv, hm⟩, hnonneg, rfl⟩
    exact ⟨v, hv, by rw [Int.toNat_of_nonneg hnonneg]; exact hm⟩
  · rintro ⟨v, hv, hn⟩
    exact ⟨n, ⟨v, hv, hn⟩, Int.natCast_nonneg n, Int.toNat_natCast n⟩

/-- A number that is read is below `2 ^ 63`. -/
theorem asI64_lt {v : Value} {n : ℤ} (h : view.integer? v = some n) : n < 2 ^ 63 := by
  simp only [view, asI64] at h
  split at h
  · rename_i m
    cases m with
    | int m hm =>
      rw [Number.asI64] at h
      split_ifs at h with hlt
      obtain rfl := Option.some.inj h
      exact hlt
    | float x => cases h
  · cases h

/-- A field is taken as a counter just if it is one. -/
theorem counterField_isOk : (∃ n, integerField object field = .ok n) ↔ Has object (field, .counter) := by
  simp only [integerField_eq_ok]
  constructor
  · rintro ⟨n, v, hv, hn⟩
    exact ⟨v, hv, n, hn, Int.natCast_nonneg n, asI64_lt hn⟩
  · rintro ⟨v, hv, n, hn, hnonneg, -⟩
    exact ⟨n.toNat, v, hv, by rw [Int.toNat_of_nonneg hnonneg]; exact hn⟩

/-- A string is read from a field that has one. -/
theorem stringField_eq_ok {s : List Char} : stringField object field = .ok s ↔
    ∃ v, lookup object field = some v ∧ view.text? v = some s := by
  rw [stringField, orError_eq_ok, Option.bind_eq_some_iff]
  rfl

/-- A field is taken as a text just if it has one that is not empty. -/
theorem nonemptyField_eq_ok : nonemptyField object field = .ok u ↔ Has object (field, .nonempty) := by
  simp only [nonemptyField, bind_eq_ok, stringField_eq_ok, require_eq_ok]
  constructor
  · rintro ⟨s, ⟨v, hv, hs⟩, hne⟩
    exact ⟨v, hv, s, hs, hne⟩
  · rintro ⟨v, hv, s, hs, hne⟩
    exact ⟨s, ⟨v, hv, hs⟩, hne⟩

/-- The lower-case hexadecimal digits are the characters `0` to `9` and `a` to `f`. -/
theorem isLowerHex_iff {c : Char} : isLowerHex c = true ↔
    (0x30 ≤ c.toNat ∧ c.toNat ≤ 0x39) ∨ (0x61 ≤ c.toNat ∧ c.toNat ≤ 0x66) := by
  rw [isLowerHex, Bool.or_eq_true, Char.isDigit, Bool.and_eq_true, Bool.and_eq_true, decide_eq_true_eq,
    decide_eq_true_eq, decide_eq_true_eq, decide_eq_true_eq]
  exact Iff.rfl

/-- The bytes that `validate_lower_hex` allows are those of `0` to `9` and `a` to `f`. -/
theorem isHexByte_iff {b : UInt8} :
    (isAsciiDigit b || decide (0x61 ≤ b) && decide (b ≤ 0x66)) = true ↔
      (0x30 ≤ b.toNat ∧ b.toNat ≤ 0x39) ∨ (0x61 ≤ b.toNat ∧ b.toNat ≤ 0x66) := by
  rw [Bool.or_eq_true, isAsciiDigit_iff, Bool.and_eq_true, decide_eq_true_eq, decide_eq_true_eq,
    UInt8.le_iff_toNat_le, UInt8.le_iff_toNat_le]
  exact Iff.rfl

/-- A text is taken as hexadecimal just if it has `n` lower-case digits. -/
theorem validateLowerHex_eq_ok {value : List Char} {n : ℕ} :
    validateLowerHex field value n = .ok u ↔ IsHex n value := by
  simp only [validateLowerHex, bind_eq_ok, require_eq_ok, exists_and_left, exists_const, List.all_eq_true,
    isHexByte_iff]
  have hbytes : (∀ c ∈ value, c.toNat < 0x80) → ((∀ b ∈ utf8 value, (0x30 ≤ b.toNat ∧ b.toNat ≤ 0x39) ∨
      (0x61 ≤ b.toNat ∧ b.toNat ≤ 0x66)) ↔ ∀ c ∈ value, isLowerHex c = true) := fun hascii => by
    rw [utf8_ascii hascii, List.forall_mem_map]
    refine forall₂_congr fun c hc => ?_
    rw [asciiByte_toNat (hascii c hc), isLowerHex_iff]
  constructor
  · rintro ⟨hlen, hall⟩
    have hascii := ascii_of_utf8 fun b hb => by have := hall b hb; omega
    rw [utf8_ascii hascii, List.length_map] at hlen
    exact ⟨hlen, (hbytes hascii).1 hall⟩
  · rintro ⟨hlen, hall⟩
    have hascii : ∀ c ∈ value, c.toNat < 0x80 := fun c hc => by
      have := isLowerHex_iff.1 (hall c hc)
      omega
    exact ⟨by rw [utf8_ascii hascii, List.length_map, hlen], (hbytes hascii).2 hall⟩

/-- A field is taken as a hash just if it has one. -/
theorem hexField_eq_ok {n : ℕ} : hexField object n field = .ok u ↔ Has object (field, .hex n) := by
  simp only [hexField, bind_eq_ok, stringField_eq_ok, validateLowerHex_eq_ok]
  constructor
  · rintro ⟨s, ⟨v, hv, hs⟩, hhex⟩
    exact ⟨v, hv, s, hs, hhex⟩
  · rintro ⟨v, hv, s, hs, hhex⟩
    exact ⟨s, ⟨v, hv, hs⟩, hhex⟩

/-- A float is in the unit interval just if its value is. -/
theorem inUnitInterval_finite {x : Binary64} :
    inUnitInterval (.finite x) = true ↔ 0 ≤ x.value ∧ x.value ≤ 1 := by
  rw [Binary64.value_mem_unit, inUnitInterval, Bool.and_eq_true, Bool.or_eq_true, beq_iff_eq,
    Bool.not_eq_true', decide_eq_true_eq]

/-- An integer is between zero and one when the nearest float is. -/
theorem inUnitInterval_int {n : ℤ} :
    inUnitInterval (toFloat64 (decide (n < 0)) n.natAbs 1) = true ↔ 0 ≤ n ∧ n ≤ 1 := by
  have hone : nearest 1 1 = one := by decide +kernel
  have htwo : one < nearest 2 1 := by decide +kernel
  rw [toFloat64]
  split_ifs with hfinite
  · rw [inUnitInterval, Bool.and_eq_true, Bool.or_eq_true, beq_iff_eq, Bool.not_eq_true',
      decide_eq_true_eq, decide_eq_false_iff_not, units_le_scale]
    constructor
    · rintro ⟨hsign, hle⟩
      have hle : nearest n.natAbs 1 ≤ one := hle
      have hsmall : n.natAbs ≤ 1 := by
        by_contra hlt
        exact absurd (nearest_mono (show 2 ≤ n.natAbs by omega)) (by omega)
      rcases hsign with h0 | hpos
      · have h0 : nearest n.natAbs 1 = 0 := h0
        rcases Nat.eq_zero_or_pos n.natAbs with hn | hn
        · omega
        · have := nearest_mono (show 1 ≤ n.natAbs from hn)
          rw [h0, hone] at this
          exact absurd this (by decide)
      · omega
    · rintro ⟨h0, h1⟩
      have hle := nearest_mono (show n.natAbs ≤ 1 by omega)
      rw [hone] at hle
      exact ⟨Or.inr (by omega), hle⟩
  · constructor
    · intro h
      cases h
    · rintro ⟨h0, h1⟩
      have hle := nearest_mono (show n.natAbs ≤ 1 by omega)
      rw [hone] at hle
      exact absurd (hle.trans_lt (by decide)) hfinite

/-- The confidence is taken just if it is a number from 0 to 1. -/
theorem validateConfidence_eq_ok : validateConfidence object = .ok u ↔
    Has object ("confidence".toList, .confidence) := by
  have hnumber : ∀ v : Value, (∃ n, asNumber v = some n ∧ inUnitInterval n.asF64 = true) ↔
      Holds .confidence v := by
    intro v
    show _ ↔ ∃ q, view.number? v = some q ∧ 0 ≤ q ∧ q ≤ 1
    simp only [asNumber, view]
    split
    · rename_i n
      cases n with
      | int n hn =>
        have hcast : ((0 : ℚ) ≤ n ∧ (n : ℚ) ≤ 1) ↔ (0 ≤ n ∧ n ≤ 1) := by
          rw [Int.cast_nonneg_iff, ← Int.cast_one, Int.cast_le]
        simp only [Option.some.injEq, exists_eq_left', Number.asF64, inUnitInterval_int, hcast]
      | float x => simp only [Option.some.injEq, exists_eq_left', Number.asF64, inUnitInterval_finite]
    · rename_i hne
      constructor
      · rintro ⟨n, hn, -⟩
        cases hn
      · rintro ⟨q, hq, -⟩
        split at hq
        · exact absurd rfl (hne _)
        · exact absurd rfl (hne _)
        · cases hq
  simp only [validateConfidence, bind_eq_ok, orError_eq_ok, Option.bind_eq_some_iff, require_eq_ok]
  constructor
  · rintro ⟨n, ⟨v, hv, hn⟩, hunit⟩
    exact ⟨v, hv, (hnumber v).1 ⟨n, hn, hunit⟩⟩
  · rintro ⟨v, hv, hholds⟩
    obtain ⟨n, hn, hunit⟩ := (hnumber v).2 hholds
    exact ⟨n, ⟨v, hv, hn⟩, hunit⟩

end Fields

/-! ### Records -/

/-- An object conforms to the fields of a kind of record. -/
abbrev Conforms (fields : List Field) (object : Object) : Prop :=
  Record.Conforms view IsTimestampText id fields (lookup object)

/-- The names that go with a kind of record. -/
def fieldsOf : Shape → List (List Char)
  | .v1 => v1Fields
  | .ingestion => v2IngestionFields
  | .classification => v2ClassificationFields

/-- What the choice of the names looks at. -/
def Declares (object : Object) : Shape → Prop
  | .v1 => lookup object "format_version".toList = none
  | .ingestion => (∃ v, lookup object "format_version".toList = some v ∧ view.integer? v = some 2) ∧
      ∃ v, lookup object "event_type".toList = some v ∧ view.text? v = some "ingestion_accepted".toList
  | .classification => (∃ v, lookup object "format_version".toList = some v ∧ view.integer? v = some 2) ∧
      ∃ v, lookup object "event_type".toList = some v ∧
        view.text? v = some "classification_decision".toList

/-- The fields of a shape are those that the format names. -/
theorem mem_fieldsOf (shape : Shape) (k : List Char) :
    k ∈ fieldsOf shape ↔ ∃ f ∈ shape.recordFields, k = f.1 := by
  have hsub : ∀ k ∈ fieldsOf shape, k ∈ shape.recordFields.map Prod.fst := by
    cases shape <;> decide
  have hsup : ∀ f ∈ shape.recordFields, f.1 ∈ fieldsOf shape := by
    cases shape <;> decide
  constructor
  · intro h
    obtain ⟨f, hf, hk⟩ := List.mem_map.1 (hsub k h)
    exact ⟨f, hf, hk.symm⟩
  · rintro ⟨f, hf, rfl⟩
    exact hsup f hf

/-- The expected fields are those of the shape that the object declares. -/
theorem expectedFields_eq_ok {object : Object} {version : ℕ} {fields : List (List Char)} :
    expectedFields object = .ok (version, fields) ↔
      ∃ shape, Declares object shape ∧ version = shape.version ∧ fields = fieldsOf shape := by
  constructor
  · intro h
    unfold expectedFields at h
    split at h
    · rename_i hnone
      obtain ⟨rfl, rfl⟩ := Prod.mk.inj (Except.ok.inj h)
      exact ⟨.v1, hnone, rfl, rfl⟩
    · simp only [bind_eq_ok, integerField_eq_ok, require_eq_ok, stringField_eq_ok, exists_and_left,
        exists_const] at h
      obtain ⟨n, hversion, rfl, word, htype, h⟩ := h
      split_ifs at h with hword hword'
      · obtain ⟨rfl, rfl⟩ := Prod.mk.inj (Except.ok.inj h)
        exact ⟨.ingestion, ⟨hversion, hword ▸ htype⟩, rfl, rfl⟩
      · obtain ⟨rfl, rfl⟩ := Prod.mk.inj (Except.ok.inj h)
        exact ⟨.classification, ⟨hversion, hword' ▸ htype⟩, rfl, rfl⟩
  · rintro ⟨shape, h, rfl, rfl⟩
    have hsecond : ∀ word, (∃ v, lookup object "format_version".toList = some v ∧ view.integer? v = some 2) →
        (∃ v, lookup object "event_type".toList = some v ∧ view.text? v = some word) →
        ((word = "ingestion_accepted".toList ∧ fieldsOf shape = v2IngestionFields) ∨
          (word = "classification_decision".toList ∧ fieldsOf shape = v2ClassificationFields)) →
        expectedFields object = .ok (2, fieldsOf shape) := by
      intro word hversion htype hword
      obtain ⟨v, hv, htwo⟩ := hversion
      have hinteger : integerField object "format_version".toList = .ok 2 :=
        integerField_eq_ok.2 ⟨v, hv, htwo⟩
      have hstring : stringField object "event_type".toList = .ok word := stringField_eq_ok.2 htype
      rw [expectedFields, hv]
      simp only [hinteger, hstring, ok_bind, require_true]
      rcases hword with ⟨rfl, hfields⟩ | ⟨rfl, hfields⟩
      · rw [hfields]
        exact if_pos rfl
      · rw [hfields]
        exact (if_neg (by decide)).trans (if_pos rfl)
    cases shape with
    | v1 => rw [expectedFields, h]; rfl
    | ingestion => exact hsecond _ h.1 h.2 (Or.inl ⟨rfl, rfl⟩)
    | classification => exact hsecond _ h.1 h.2 (Or.inr ⟨rfl, rfl⟩)

/-- An object with the fields of a shape declares it. -/
theorem Conforms.declares {object : Object} {shape : Shape} (h : Conforms shape.recordFields object) :
    Declares object shape := by
  cases shape with
  | v1 => exact h.absent Function.injective_id (by decide)
  | ingestion =>
    exact ⟨h.field (show ("format_version".toList, Kind.version) ∈ _ by decide),
      h.field (show ("event_type".toList, Kind.word _) ∈ _ by decide)⟩
  | classification =>
    exact ⟨h.field (show ("format_version".toList, Kind.version) ∈ _ by decide),
      h.field (show ("event_type".toList, Kind.word _) ∈ _ by decide)⟩

/-- The event is asked for its type just if it is not one of the ingestion. -/
theorem isDecision_iff {object : Object} {shape : Shape} (h : Declares object shape) :
    (shape.version = 1 ∨ (lookup object "event_type".toList).bind asStr =
      some "classification_decision".toList) ↔ shape ≠ .ingestion := by
  cases shape with
  | v1 => exact ⟨fun _ => by decide, fun _ => Or.inl rfl⟩
  | ingestion =>
    obtain ⟨-, v, hv, ht⟩ := h
    have ht : asStr v = some "ingestion_accepted".toList := ht
    refine ⟨fun hor => ?_, fun hne => absurd rfl hne⟩
    rcases hor with hor | hor
    · exact absurd hor (by decide)
    · rw [hv, Option.bind_some, ht] at hor
      exact absurd hor (by decide)
  | classification =>
    obtain ⟨-, v, hv, ht⟩ := h
    have ht : asStr v = some "classification_decision".toList := ht
    exact ⟨fun _ => by decide, fun _ => Or.inr (by rw [hv, Option.bind_some, ht])⟩

/-- The part of `validate_schema` that depends on the kind of record. -/
theorem validateKind_eq_ok {object : Object} {shape : Shape} {version : ℕ} :
    (if shape ≠ Shape.ingestion then do
      checkAll (nonemptyField object) ["model_id".toList, "class".toList]
      checkAll (hexField object 64) ["features_hash".toList, "model_config_hash".toList]
      validateConfidence object
      pure shape.version
    else do
      nonemptyField object "collector_schema_version".toList
      let _ ← integerField object "collector_sequence_number".toList
      pure shape.version : Except Reason ℕ) = .ok version ↔
    (if shape ≠ .ingestion then ∀ f ∈ decisionFields, f.2 ≠ .json → Has object f
      else ∀ f ∈ collectorFields, Has object f) ∧ shape.version = version := by
  have hpure : ∀ {v : ℕ}, (pure v : Except Reason ℕ) = .ok version ↔ v = version :=
    ⟨Except.ok.inj, congrArg _⟩
  split_ifs with h
  · simp only [bind_eq_ok, checkAll_eq_ok, nonemptyField_eq_ok, hexField_eq_ok,
      validateConfidence_eq_ok, List.forall_mem_cons, List.not_mem_nil, false_imp_iff, implies_true,
      and_true, exists_const, hpure, decisionFields, ne_eq, reduceCtorEq, not_true_eq_false,
      not_false_eq_true, forall_const]
    constructor
    · rintro ⟨⟨hmodel, hclass⟩, ⟨hfeatures, hconfig⟩, hconfidence, hversion⟩
      exact ⟨⟨hfeatures, hmodel, hconfig, hclass, hconfidence⟩, hversion⟩
    · rintro ⟨⟨hfeatures, hmodel, hconfig, hclass, hconfidence⟩, hversion⟩
      exact ⟨⟨hmodel, hclass⟩, ⟨hfeatures, hconfig⟩, hconfidence, hversion⟩
  · simp only [bind_eq_ok, nonemptyField_eq_ok, exists_const, exists_and_right, counterField_isOk,
      collectorFields, List.forall_mem_cons, List.not_mem_nil, false_imp_iff, implies_true, and_true,
      hpure]
    rw [and_assoc]

/-- What `validate_schema` checks once the kind of record is known. -/
theorem validateSchema_of_declares {object : Object} {shape : Shape} (h : Declares object shape)
    {version : ℕ} : validateSchema object = .ok version ↔
      ((∀ k ∈ fieldsOf shape, k ∈ object.map Prod.fst) ∧
        ∀ k ∈ object.map Prod.fst, k ∈ fieldsOf shape) ∧
      (∀ f ∈ commonFields ++ chainFields, Has object f) ∧
      (if shape ≠ .ingestion then ∀ f ∈ decisionFields, f.2 ≠ .json → Has object f
        else ∀ f ∈ collectorFields, Has object f) ∧ shape.version = version := by
  have hfields := expectedFields_eq_ok.2 ⟨shape, h, rfl, rfl⟩
  rw [validateSchema, hfields, ok_bind]
  simp only [bind_eq_ok, require_eq_ok, List.filter_eq_nil_iff, decide_eq_true_eq, not_not,
    exists_const, stringField_eq_ok, validateTimestamp_eq_ok, nonemptyField_eq_ok, checkAll_eq_ok,
    hexField_eq_ok, isDecision_iff h, validateKind_eq_ok, List.forall_mem_cons, List.not_mem_nil,
    false_imp_iff, implies_true, and_true, commonFields, chainFields, List.cons_append,
    List.nil_append]
  rw [exists_and_right, counterField_isOk]
  constructor
  · rintro ⟨hkeys, hseq, s, ⟨v, hv, hs⟩, htime, hnode, ⟨hraw, hprev, hrecord⟩, hsignature, hkind⟩
    exact ⟨hkeys, ⟨⟨v, hv, s, hs, htime⟩, hnode, hraw, hseq, hprev, hrecord, hsignature⟩, hkind⟩
  · rintro ⟨hkeys, ⟨⟨v, hv, s, hs, htime⟩, hnode, hraw, hseq, hprev, hrecord, hsignature⟩, hkind⟩
    exact ⟨hkeys, hseq, s, ⟨v, hv, hs⟩, htime, hnode, ⟨hraw, hprev, hrecord⟩, hsignature, hkind⟩

/-- The fields that `expected_fields` has looked at. -/
def versionFieldsOf : Shape → List Field
  | .v1 => []
  | .ingestion => versionFields "ingestion_accepted"
  | .classification => versionFields "classification_decision"

/-- The fields of a record, as `validate_schema` goes through them. -/
theorem forall_recordFields {P : Field → Prop} (shape : Shape) : (∀ f ∈ shape.recordFields, P f) ↔
    (∀ f ∈ commonFields ++ chainFields, P f) ∧
      (if shape ≠ .ingestion then ∀ f ∈ decisionFields, P f else ∀ f ∈ collectorFields, P f) ∧
      ∀ f ∈ versionFieldsOf shape, P f := by
  cases shape with
  | v1 =>
    rw [if_pos (by decide)]
    simp only [Shape.recordFields, Shape.eventFields, versionFieldsOf, List.forall_mem_append,
      List.not_mem_nil, false_imp_iff, implies_true]
    constructor
    · rintro ⟨⟨hcommon, hdecision⟩, hchain⟩
      exact ⟨⟨hcommon, hchain⟩, hdecision, trivial⟩
    · rintro ⟨⟨hcommon, hchain⟩, hdecision, -⟩
      exact ⟨⟨hcommon, hdecision⟩, hchain⟩
  | ingestion =>
    rw [if_neg (by decide)]
    simp only [Shape.recordFields, Shape.eventFields, versionFieldsOf, List.forall_mem_append]
    constructor
    · rintro ⟨⟨hversion, hcommon, hcollector⟩, hchain⟩
      exact ⟨⟨hcommon, hchain⟩, hcollector, hversion⟩
    · rintro ⟨⟨hcommon, hchain⟩, hcollector, hversion⟩
      exact ⟨⟨hversion, hcommon, hcollector⟩, hchain⟩
  | classification =>
    rw [if_pos (by decide)]
    simp only [Shape.recordFields, Shape.eventFields, versionFieldsOf, List.forall_mem_append]
    constructor
    · rintro ⟨⟨hversion, hcommon, hdecision⟩, hchain⟩
      exact ⟨⟨hcommon, hchain⟩, hdecision, hversion⟩
    · rintro ⟨⟨hcommon, hchain⟩, hdecision, hversion⟩
      exact ⟨⟨hversion, hcommon, hdecision⟩, hchain⟩

/-- An object that declares a shape has its version fields. -/
theorem Declares.versionFields {object : Object} {shape : Shape} (h : Declares object shape) :
    ∀ f ∈ versionFieldsOf shape, Has object f := by
  cases shape with
  | v1 => exact fun f hf => absurd hf List.not_mem_nil
  | ingestion => exact List.forall_mem_cons.2 ⟨h.1, List.forall_mem_singleton.2 h.2⟩
  | classification => exact List.forall_mem_cons.2 ⟨h.1, List.forall_mem_singleton.2 h.2⟩

/-- **What `validate_schema` accepts**: the records of one of the three kinds. -/
theorem validateSchema_eq_ok {object : Object} {version : ℕ} : validateSchema object = .ok version ↔
    ∃ shape : Shape, Conforms shape.recordFields object ∧ version = shape.version := by
  constructor
  · intro hok
    obtain ⟨⟨v, fields⟩, hfields, -⟩ := bind_eq_ok.1 hok
    obtain ⟨shape, h, -⟩ := expectedFields_eq_ok.1 hfields
    obtain ⟨⟨hall, hknown⟩, hcommon, hkind, rfl⟩ := (validateSchema_of_declares h).1 hok
    have hjson : shape ≠ .ingestion → ∀ f ∈ decisionFields, Has object f := by
      intro hs f hf
      by_cases hj : f.2 = .json
      · have hmem : f.1 ∈ fieldsOf shape := (mem_fieldsOf shape f.1).2
          ⟨f, by cases shape <;> simp_all [Shape.recordFields, Shape.eventFields], rfl⟩
        obtain ⟨v, hv⟩ := lookup_isSome.2 (hall _ hmem)
        exact ⟨v, hv, by rw [hj]; trivial⟩
      · exact (if_pos hs ▸ hkind) f hf hj
    refine ⟨shape, ⟨fun k v hv => ?_, (forall_recordFields shape).2 ⟨hcommon, ?_, h.versionFields⟩⟩, rfl⟩
    · exact (mem_fieldsOf shape k).1 (hknown k (lookup_isSome.1 ⟨v, hv⟩))
    · split_ifs at hkind ⊢ with hs
      · exact hjson hs
      · exact hkind
  · rintro ⟨shape, h, rfl⟩
    obtain ⟨hcommon, hkind, -⟩ := (forall_recordFields shape).1 h.holds
    refine (validateSchema_of_declares h.declares).2
      ⟨⟨fun k hk => ?_, fun k hk => ?_⟩, hcommon, ?_, rfl⟩
    · obtain ⟨f, hf, rfl⟩ := (mem_fieldsOf shape k).1 hk
      obtain ⟨v, hv, -⟩ := h.holds f hf
      exact lookup_isSome.1 ⟨v, hv⟩
    · obtain ⟨v, hv⟩ := lookup_isSome.2 hk
      exact (mem_fieldsOf shape k).2 (h.known k v hv)
    · split_ifs at hkind ⊢ with hs
      · exact fun f hf _ => hkind f hf
      · exact hkind

end Verifier
end Vestrix
