/-
# `re` digits and `datetime.fromisoformat`

What the timestamp check of `forensics` needs of the standard library.  In a `str`
pattern `\d` is any character of the Unicode category Nd (Unicode 14, as in CPython
3.11), while `datetime.fromisoformat` reads ASCII digits.

`fromisoformat` follows CPython 3.11's C parser for a date and a time with separators
and an offset, the only layout that the pattern lets through.  The parser takes at most
six digits of a fraction and does not look at what comes between them and the offset.
-/

import Vestrix.Text.Timestamp

namespace Vestrix
namespace Python

open Text

/-- The runs of decimal digits in Unicode 14: where each starts, and how long it is. -/
def decimalRuns : List (ℕ × ℕ) :=
  [(0x30, 10), (0x660, 10), (0x6F0, 10), (0x7C0, 10), (0x966, 10), (0x9E6, 10), (0xA66, 10),
    (0xAE6, 10), (0xB66, 10), (0xBE6, 10), (0xC66, 10), (0xCE6, 10), (0xD66, 10), (0xDE6, 10),
    (0xE50, 10), (0xED0, 10), (0xF20, 10), (0x1040, 10), (0x1090, 10), (0x17E0, 10),
    (0x1810, 10), (0x1946, 10), (0x19D0, 10), (0x1A80, 10), (0x1A90, 10), (0x1B50, 10),
    (0x1BB0, 10), (0x1C40, 10), (0x1C50, 10), (0xA620, 10), (0xA8D0, 10), (0xA900, 10),
    (0xA9D0, 10), (0xA9F0, 10), (0xAA50, 10), (0xABF0, 10), (0xFF10, 10), (0x104A0, 10),
    (0x10D30, 10), (0x11066, 10), (0x110F0, 10), (0x11136, 10), (0x111D0, 10), (0x112F0, 10),
    (0x11450, 10), (0x114D0, 10), (0x11650, 10), (0x116C0, 10), (0x11730, 10), (0x118E0, 10),
    (0x11950, 10), (0x11C50, 10), (0x11D50, 10), (0x11DA0, 10), (0x16A60, 10), (0x16AC0, 10),
    (0x16B50, 10), (0x1D7CE, 50), (0x1E140, 10), (0x1E2F0, 10), (0x1E950, 10), (0x1FBF0, 10)]

/-- `\d` in a `str` pattern. -/
def isDecimal (c : CodePoint) : Bool :=
  decimalRuns.any fun r => decide (r.1 ≤ c.ord) && decide (c.ord < r.1 + r.2)

/-- `n` characters that match `\d`. -/
def skipDecimals : ℕ → Str → Option Str
  | 0, s => some s
  | _ + 1, [] => none
  | n + 1, c :: s => if isDecimal c then skipDecimals n s else none

/-- One given character. -/
def skipOne (c : Char) : Str → Option Str
  | [] => none
  | d :: s => if d = .scalar c then some s else none

/-- An optional fraction and the letter Z. -/
def matchesEnd (s : Str) : Bool :=
  match skipOne '.' s with
  | none => s == lit "Z"
  | some s => !(s.takeWhile isDecimal).isEmpty && s.dropWhile isDecimal == lit "Z"

/-- What follows the digits of a time in a timestamp. -/
def skipFields (s : Str) : Option Str := do
  let s ← skipDecimals 4 s
  let s ← skipOne '-' s
  let s ← skipDecimals 2 s
  let s ← skipOne '-' s
  let s ← skipDecimals 2 s
  let s ← skipOne 'T' s
  let s ← skipDecimals 2 s
  let s ← skipOne ':' s
  let s ← skipDecimals 2 s
  let s ← skipOne ':' s
  skipDecimals 2 s

/-- `\d{4}-\d{2}-\d{2}T\d{2}:\d{2}:\d{2}(?:\.\d+)?Z\Z`. -/
def matchesRfc3339Utc (s : Str) : Bool := (skipFields s).any matchesEnd

/-- `n` ASCII digits as a number, after the digits of `value`. -/
def parseDigits : ℕ → ℕ → Str → Option (ℕ × Str)
  | 0, value, s => some (value, s)
  | n + 1, value, .scalar c :: s =>
    if c.isDigit then parseDigits n (value * 10 + (c.toNat - '0'.toNat)) s else none
  | _ + 1, _, _ => none

/-- A date and time that a Python `datetime` can hold, its offset in minutes; the
microseconds do not matter here. -/
structure Datetime where
  year : ℕ
  month : ℕ
  day : ℕ
  hour : ℕ
  minute : ℕ
  second : ℕ
  utcoffset : ℤ
  year_range : 1 ≤ year ∧ year ≤ 9999
  month_range : 1 ≤ month ∧ month ≤ 12
  day_range : 1 ≤ day ∧ day ≤ daysInMonth year month
  time_range : hour < 24 ∧ minute < 60 ∧ second < 60

/-- `check_date_args` and `check_time_args`. -/
def Datetime.new (year month day hour minute second : ℕ) (utcoffset : ℤ) : Option Datetime :=
  if h₁ : 1 ≤ year ∧ year ≤ 9999 then
    if h₂ : 1 ≤ month ∧ month ≤ 12 then
      if h₃ : 1 ≤ day ∧ day ≤ daysInMonth year month then
        if h₄ : hour < 24 ∧ minute < 60 ∧ second < 60 then
          some ⟨year, month, day, hour, minute, second, utcoffset, h₁, h₂, h₃, h₄⟩
        else none
      else none
    else none
  else none

/-- A character that an offset starts with. -/
def isOffsetSign (c : CodePoint) : Bool := c == .scalar '+' || c == .scalar '-' || c == .scalar 'Z'

/-- What may follow the seconds before an offset: nothing, or a point and a fraction of which the
first six characters must be digits. -/
def fractionParses (s : Str) : Bool :=
  match skipOne '.' s with
  | none => s.isEmpty
  | some s => !s.isEmpty && (s.take 6).all fun c => c.scalar?.any Char.isDigit

/-- The minutes of an offset. -/
def parseOffset (s : Str) : Option ℤ := do
  let sign ← if (skipOne '+' s).isSome then some 1 else if (skipOne '-' s).isSome then some (-1) else none
  let (hour, s) ← parseDigits 2 0 (s.drop 1)
  let s ← skipOne ':' s
  let (minute, s) ← parseDigits 2 0 s
  if s = [] then some (sign * (hour * 60 + minute)) else none

/-- `parse_isoformat_date`, and what follows. -/
def parseDate (s : Str) : Option ((ℕ × ℕ × ℕ) × Str) := do
  let (year, s) ← parseDigits 4 0 s
  let s ← skipOne '-' s
  let (month, s) ← parseDigits 2 0 s
  let s ← skipOne '-' s
  let (day, s) ← parseDigits 2 0 s
  some ((year, month, day), s)

/-- `parse_hh_mm_ss_ff` before an offset. -/
def parseTime (s : Str) : Option (ℕ × ℕ × ℕ) := do
  let (hour, s) ← parseDigits 2 0 s
  let s ← skipOne ':' s
  let (minute, s) ← parseDigits 2 0 s
  let s ← skipOne ':' s
  let (second, s) ← parseDigits 2 0 s
  if fractionParses s then some (hour, minute, second) else none

/-- `datetime.fromisoformat`. -/
def fromisoformat (s : Str) : Option Datetime := do
  let ((year, month, day), s) ← parseDate s
  let (hour, minute, second) ← parseTime ((s.drop 1).takeWhile fun c => !isOffsetSign c)
  let offset ← parseOffset ((s.drop 1).dropWhile fun c => !isOffsetSign c)
  Datetime.new year month day hour minute second offset

/-- The `datetime` of a timestamp that ends in Z, as the validator asks for it. -/
def parseTimestamp (timestamp : Str) : Option Datetime :=
  fromisoformat (timestamp.dropLast ++ lit "+00:00")

/-! ### What the pattern matches -/

/-- A character is skipped just if it comes first. -/
theorem skipOne_eq_some {c : Char} {s r : Str} : skipOne c s = some r ↔ s = .scalar c :: r := by
  cases s with
  | nil => exact ⟨fun h => (nomatch h), fun h => (nomatch h)⟩
  | cons d s =>
    rw [skipOne, List.cons.injEq]
    split_ifs with h
    · rw [Option.some.injEq]
      exact ⟨fun h' => ⟨h, h'⟩, fun h' => h'.2⟩
    · exact ⟨fun h' => (nomatch h'), fun h' => absurd h'.1 h⟩

/-- `n` decimal digits are skipped just if they come first. -/
theorem skipDecimals_eq_some {n : ℕ} {s r : Str} : skipDecimals n s = some r ↔
    ∃ ds, (ds.length = n ∧ ∀ c ∈ ds, isDecimal c = true) ∧ s = ds ++ r := by
  induction n generalizing s with
  | zero =>
    rw [skipDecimals, Option.some.injEq]
    constructor
    · rintro rfl
      exact ⟨[], ⟨rfl, fun c hc => absurd hc List.not_mem_nil⟩, rfl⟩
    · rintro ⟨ds, ⟨hlen, -⟩, rfl⟩
      rw [List.length_eq_zero_iff.1 hlen, List.nil_append]
  | succ n ih =>
    cases s with
    | nil =>
      refine ⟨fun h => (nomatch h), ?_⟩
      rintro ⟨ds, ⟨hlen, -⟩, h⟩
      rw [(List.append_eq_nil_iff.1 h.symm).1] at hlen
      cases hlen
    | cons c s =>
      rw [skipDecimals]
      split_ifs with hc
      · rw [ih]
        constructor
        · rintro ⟨ds, ⟨hlen, hds⟩, rfl⟩
          exact ⟨c :: ds, ⟨congrArg (· + 1) hlen, List.forall_mem_cons.2 ⟨hc, hds⟩⟩, rfl⟩
        · rintro ⟨ds, ⟨hlen, hds⟩, h⟩
          cases ds with
          | nil => cases hlen
          | cons d ds =>
            obtain ⟨rfl, rfl⟩ := List.cons.inj h
            exact ⟨ds, ⟨Nat.succ.inj hlen, (List.forall_mem_cons.1 hds).2⟩, rfl⟩
      · refine ⟨fun h => (nomatch h), ?_⟩
        rintro ⟨ds, ⟨hlen, hds⟩, h⟩
        cases ds with
        | nil => cases hlen
        | cons d ds =>
          obtain ⟨rfl, -⟩ := List.cons.inj h
          exact absurd (List.forall_mem_cons.1 hds).1 hc

/-- A timestamp ends with `Z`, and a fraction of any decimal digits before it. -/
theorem matchesEnd_eq_true {s : Str} : matchesEnd s = true ↔
    ∃ f : Str, (∀ c ∈ f, isDecimal c = true) ∧
      s = (if f = [] then [] else .scalar '.' :: f) ++ [.scalar 'Z'] := by
  rw [matchesEnd]
  cases h : skipOne '.' s with
  | none =>
    simp only [beq_iff_eq]
    constructor
    · rintro rfl
      exact ⟨[], fun c hc => absurd hc List.not_mem_nil, rfl⟩
    · rintro ⟨f, -, rfl⟩
      by_cases hf : f = []
      · rw [hf]
        rfl
      · rw [if_neg hf, List.cons_append, skipOne, if_pos rfl] at h
        cases h
  | some r =>
    obtain rfl := skipOne_eq_some.1 h
    simp only [Bool.and_eq_true, Bool.not_eq_true', List.isEmpty_eq_false_iff, beq_iff_eq]
    constructor
    · rintro ⟨hne, hdrop⟩
      refine ⟨r.takeWhile isDecimal, List.all_eq_true.1 List.all_takeWhile, ?_⟩
      rw [if_neg hne, List.cons_append]
      conv_lhs => rw [← List.takeWhile_append_dropWhile (p := isDecimal) (l := r), hdrop]
      rfl
    · rintro ⟨f, hf, hs⟩
      by_cases hnil : f = []
      · rw [if_pos hnil] at hs
        cases hs
      · rw [if_neg hnil, List.cons_append, List.cons.injEq] at hs
        rw [hs.2, List.takeWhile_append_of_pos hf, List.dropWhile_append_of_pos hf]
        constructor
        · simpa [List.takeWhile_cons, show isDecimal (.scalar 'Z') = false from rfl] using hnil
        · rfl

/-- **The pattern of a timestamp** matches the timestamps with decimal digits of any
script. -/
theorem matchesRfc3339Utc_eq_true {s : Str} : matchesRfc3339Utc s = true ↔
    ∃ t : Stamp CodePoint, t.Shaped (isDecimal · = true) ∧ (∀ c ∈ t.fraction, isDecimal c = true) ∧
      s = t.text CodePoint.scalar := by
  rw [matchesRfc3339Utc, Option.any_eq_true]
  constructor
  · rintro ⟨e, h, hend⟩
    obtain ⟨f, hf, rfl⟩ := matchesEnd_eq_true.1 hend
    simp only [skipFields, Option.bind_eq_bind, Option.bind_eq_some_iff, skipOne_eq_some,
      skipDecimals_eq_some] at h
    obtain ⟨_, ⟨y, hy, rfl⟩, _, rfl, _, ⟨mo, hmo, rfl⟩, _, rfl, _, ⟨d, hd, rfl⟩, _, rfl, _,
      ⟨h, hh, rfl⟩, _, rfl, _, ⟨mi, hmi, rfl⟩, _, rfl, sec, hsec, rfl⟩ := h
    refine ⟨⟨y, mo, d, h, mi, sec, f⟩, ⟨hy, hmo, hd, hh, hmi, hsec⟩, hf, ?_⟩
    simp only [Stamp.text, Stamp.dateText, Stamp.timeText, Stamp.fractionText, List.append_assoc,
      List.cons_append]
  · rintro ⟨t, ht, hf, rfl⟩
    refine ⟨t.fractionText .scalar ++ [.scalar 'Z'], ?_, matchesEnd_eq_true.2 ⟨t.fraction, hf, rfl⟩⟩
    simp only [skipFields, Option.bind_eq_bind, Option.bind_eq_some_iff, skipOne_eq_some,
      skipDecimals_eq_some]
    refine ⟨_, ⟨_, ht.year, ?_⟩, _, rfl, _, ⟨_, ht.month, rfl⟩, _, rfl, _, ⟨_, ht.day, rfl⟩, _, rfl, _,
      ⟨_, ht.hour, rfl⟩, _, rfl, _, ⟨_, ht.minute, rfl⟩, _, rfl, _, ht.second, rfl⟩
    simp only [Stamp.text, Stamp.dateText, Stamp.timeText, List.append_assoc, List.cons_append]

/-! ### Which timestamps are parsed -/

/-- `n` ASCII digits are parsed just if they come first. -/
theorem parseDigits_eq_some {n m value : ℕ} {s r : Str} : parseDigits n value s = some (m, r) ↔
    ∃ ds, (ds.length = n ∧ ∀ c ∈ ds, c.isDigit = true) ∧ s = ofChars ds ++ r ∧
      Nat.ofDigitChars 10 ds value = m := by
  induction n generalizing s value with
  | zero =>
    rw [parseDigits, Option.some.injEq, Prod.mk.injEq]
    constructor
    · rintro ⟨rfl, rfl⟩
      exact ⟨[], ⟨rfl, fun c hc => absurd hc List.not_mem_nil⟩, rfl, rfl⟩
    · rintro ⟨ds, ⟨hlen, -⟩, rfl, rfl⟩
      rw [List.length_eq_zero_iff.1 hlen]
      exact ⟨rfl, rfl⟩
  | succ n ih =>
    have hcons : ∀ ds : List Char, ds.length = n + 1 → ∃ d es, ds = d :: es := fun ds hlen =>
      List.exists_cons_of_length_eq_add_one hlen
    cases s with
    | nil =>
      refine ⟨fun h => (nomatch h), ?_⟩
      rintro ⟨ds, ⟨hlen, -⟩, h, -⟩
      obtain ⟨d, es, rfl⟩ := hcons ds hlen
      cases h
    | cons x s =>
      cases x with
      | surrogate u =>
        refine ⟨fun h => (nomatch h), ?_⟩
        rintro ⟨ds, ⟨hlen, -⟩, h, -⟩
        obtain ⟨d, es, rfl⟩ := hcons ds hlen
        cases (List.cons.inj h).1
      | scalar c =>
        rw [parseDigits]
        split_ifs with hc
        · rw [ih]
          constructor
          · rintro ⟨ds, ⟨hlen, hds⟩, rfl, rfl⟩
            refine ⟨c :: ds, ⟨congrArg (· + 1) hlen, List.forall_mem_cons.2 ⟨hc, hds⟩⟩, rfl, ?_⟩
            rw [Nat.ofDigitChars_cons, Nat.mul_comm]
          · rintro ⟨ds, ⟨hlen, hds⟩, h, rfl⟩
            obtain ⟨d, es, rfl⟩ := hcons ds hlen
            rw [ofChars_cons, List.cons_append, List.cons.injEq, CodePoint.scalar.injEq] at h
            obtain ⟨rfl, rfl⟩ := h
            refine ⟨es, ⟨Nat.succ.inj hlen, (List.forall_mem_cons.1 hds).2⟩, rfl, ?_⟩
            rw [Nat.ofDigitChars_cons, Nat.mul_comm]
        · refine ⟨fun h => (nomatch h), ?_⟩
          rintro ⟨ds, ⟨hlen, hds⟩, h, -⟩
          obtain ⟨d, es, rfl⟩ := hcons ds hlen
          rw [ofChars_cons, List.cons_append, List.cons.injEq, CodePoint.scalar.injEq] at h
          obtain ⟨rfl, -⟩ := h
          exact absurd (List.forall_mem_cons.1 hds).1 hc

/-- A decimal digit is none of the punctuation marks. -/
theorem decimal_ne {c : CodePoint} {d : Char} (h : isDecimal c = true)
    (hd : isDecimal (.scalar d) = false) : c ≠ .scalar d := by
  rintro rfl
  rw [hd] at h
  cases h

/-- ASCII digits are decimal digits. -/
theorem isDecimal_digit {c : Char} (h : c.isDigit = true) : isDecimal (.scalar c) = true := by
  have hrange : 0x30 ≤ c.toNat ∧ c.toNat < 0x30 + 10 := by
    rw [Char.isDigit, Bool.and_eq_true, decide_eq_true_eq, decide_eq_true_eq] at h
    exact ⟨h.1, Nat.lt_succ_of_le h.2⟩
  refine List.any_eq_true.2 ⟨(0x30, 10), List.mem_cons_self, ?_⟩
  rw [CodePoint.ord, decide_eq_true hrange.1, decide_eq_true hrange.2]
  rfl

/-- A decimal digit is no surrogate. -/
theorem exists_scalar_of_isDecimal {c : CodePoint} (h : isDecimal c = true) :
    ∃ d, c = .scalar d := by
  cases c with
  | scalar d => exact ⟨d, rfl⟩
  | surrogate u =>
    have hruns : ∀ r ∈ decimalRuns, r.1 + r.2 ≤ 0xD800 ∨ 0xE000 ≤ r.1 := by decide
    obtain ⟨r, hr, hu⟩ := List.any_eq_true.1 h
    have hrange := hruns r hr
    obtain ⟨hle, hlt⟩ := Bool.and_eq_true_iff.1 hu
    have hle := of_decide_eq_true hle
    have hlt := of_decide_eq_true hlt
    rw [CodePoint.ord] at hle hlt
    omega

/-- Decimal digits are scalar values. -/
theorem exists_ofChars_of_isDecimal {s : Str} (h : ∀ c ∈ s, isDecimal c = true) :
    ∃ t, s = ofChars t := by
  induction s with
  | nil => exact ⟨[], rfl⟩
  | cons c s ih =>
    obtain ⟨hc, hs⟩ := List.forall_mem_cons.1 h
    obtain ⟨d, rfl⟩ := exists_scalar_of_isDecimal hc
    obtain ⟨t, rfl⟩ := ih hs
    exact ⟨d :: t, rfl⟩

/-- A point and characters that are decimal digits parse as a fraction when the first six
of them are ASCII. -/
theorem fractionParses_fractionText (t : Stamp Char) :
    fractionParses ((t.map .scalar).fractionText .scalar) =
      (t.fraction.take 6).all Char.isDigit := by
  unfold Stamp.fractionText Stamp.map
  simp only [List.map_eq_nil_iff]
  split_ifs with h
  · rw [h]
    rfl
  · have hne : (t.fraction.map CodePoint.scalar).isEmpty = false := by
      rwa [List.isEmpty_map, List.isEmpty_eq_false_iff]
    rw [fractionParses, skipOne, if_pos rfl]
    show (!(t.fraction.map CodePoint.scalar).isEmpty && _) = _
    rw [hne, ← List.map_take, List.all_map]
    rfl

/-- A date is four, two and two ASCII digits with `-` between them. -/
theorem parseDate_eq_some {s r : Str} {year month day : ℕ} :
    parseDate s = some ((year, month, day), r) ↔ ∃ y m d : List Char,
      (y.length = 4 ∧ ∀ c ∈ y, c.isDigit = true) ∧ (m.length = 2 ∧ ∀ c ∈ m, c.isDigit = true) ∧
      (d.length = 2 ∧ ∀ c ∈ d, c.isDigit = true) ∧
      s = ofChars y ++ .scalar '-' :: (ofChars m ++ .scalar '-' :: (ofChars d ++ r)) ∧
      digitsValue y = year ∧ digitsValue m = month ∧ digitsValue d = day := by
  simp only [parseDate, Option.bind_eq_bind, Option.bind_eq_some_iff, Prod.exists, skipOne_eq_some,
    parseDigits_eq_some, Option.some.injEq, Prod.mk.injEq]
  constructor
  · rintro ⟨_, _, ⟨y, hy, rfl, rfl⟩, _, rfl, _, _, ⟨m, hm, rfl, rfl⟩, _, rfl, _, _, ⟨d, hd, rfl, rfl⟩,
      ⟨rfl, rfl, rfl⟩, rfl⟩
    exact ⟨y, m, d, hy, hm, hd, rfl, rfl, rfl, rfl⟩
  · rintro ⟨y, m, d, hy, hm, hd, rfl, rfl, rfl, rfl⟩
    exact ⟨_, _, ⟨y, hy, rfl, rfl⟩, _, rfl, _, _, ⟨m, hm, rfl, rfl⟩, _, rfl, _, _, ⟨d, hd, rfl, rfl⟩,
      ⟨rfl, rfl, rfl⟩, rfl⟩

/-- A time is three times two ASCII digits with `:` between them, a fraction that parses, and the
offset. -/
theorem parseTime_eq_some {s : Str} {hour minute second : ℕ} :
    parseTime s = some (hour, minute, second) ↔ ∃ (h m sec : List Char) (f : Str),
      (h.length = 2 ∧ ∀ c ∈ h, c.isDigit = true) ∧ (m.length = 2 ∧ ∀ c ∈ m, c.isDigit = true) ∧
      (sec.length = 2 ∧ ∀ c ∈ sec, c.isDigit = true) ∧ fractionParses f = true ∧
      s = ofChars h ++ .scalar ':' :: (ofChars m ++ .scalar ':' :: (ofChars sec ++ f)) ∧
      digitsValue h = hour ∧ digitsValue m = minute ∧ digitsValue sec = second := by
  simp only [parseTime, Option.bind_eq_bind, Option.bind_eq_some_iff, Prod.exists, skipOne_eq_some,
    parseDigits_eq_some, Option.ite_none_right_eq_some, Option.some.injEq, Prod.mk.injEq]
  constructor
  · rintro ⟨_, _, ⟨h, hh, rfl, rfl⟩, _, rfl, _, _, ⟨m, hm, rfl, rfl⟩, _, rfl, _, f, ⟨sec, hsec, rfl, rfl⟩,
      hf, rfl, rfl, rfl⟩
    exact ⟨h, m, sec, f, hh, hm, hsec, hf, rfl, rfl, rfl, rfl⟩
  · rintro ⟨h, m, sec, f, hh, hm, hsec, hf, rfl, rfl, rfl, rfl⟩
    exact ⟨_, _, ⟨h, hh, rfl, rfl⟩, _, rfl, _, _, ⟨m, hm, rfl, rfl⟩, _, rfl, _, f, ⟨sec, hsec, rfl, rfl⟩,
      hf, rfl, rfl, rfl⟩

section

variable {year month day hour minute second : ℕ} {utcoffset : ℤ}

/-- A datetime is made of fields in range. -/
theorem Datetime.new_eq (h₁ : 1 ≤ year ∧ year ≤ 9999) (h₂ : 1 ≤ month ∧ month ≤ 12)
    (h₃ : 1 ≤ day ∧ day ≤ daysInMonth year month) (h₄ : hour < 24 ∧ minute < 60 ∧ second < 60) :
    Datetime.new year month day hour minute second utcoffset =
      some ⟨year, month, day, hour, minute, second, utcoffset, h₁, h₂, h₃, h₄⟩ := by
  rw [Datetime.new, dif_pos h₁, dif_pos h₂, dif_pos h₃, dif_pos h₄]

/-- The fields of a datetime are in range. -/
theorem Datetime.of_new {d : Datetime}
    (h : Datetime.new year month day hour minute second utcoffset = some d) :
    (1 ≤ year ∧ year ≤ 9999) ∧ (1 ≤ month ∧ month ≤ 12) ∧
      (1 ≤ day ∧ day ≤ daysInMonth year month) ∧ hour < 24 ∧ minute < 60 ∧ second < 60 := by
  unfold Datetime.new at h
  split_ifs at h with h₁ h₂ h₃ h₄
  exact ⟨h₁, h₂, h₃, h₄⟩

end

/-- What comes before the offset has no sign of an offset. -/
theorem notMem_timeText {t : Stamp CodePoint} (ht : t.Shaped (isDecimal · = true))
    (hf : ∀ c ∈ t.fraction, isDecimal c = true) :
    ∀ c ∈ t.timeText .scalar, (!isOffsetSign c) = true := by
  have hdecimal : ∀ c, isDecimal c = true → (!isOffsetSign c) = true := fun c hc => by
    have hsign : ∀ d, isDecimal (.scalar d) = false → (c == .scalar d) = false := fun d hd =>
      beq_eq_false_iff_ne.2 (decimal_ne hc hd)
    rw [isOffsetSign, hsign '+' rfl, hsign '-' rfl, hsign 'Z' rfl]
    rfl
  have hfraction : ∀ c ∈ t.fractionText .scalar, (!isOffsetSign c) = true := by
    intro c hc
    rw [Stamp.fractionText] at hc
    split_ifs at hc
    · exact absurd hc List.not_mem_nil
    · rcases List.mem_cons.1 hc with rfl | hc
      · rfl
      · exact hdecimal c (hf c hc)
  intro c hc
  simp only [Stamp.timeText, List.mem_append, List.mem_cons] at hc
  rcases hc with hc | rfl | hc | rfl | hc | hc
  · exact hdecimal c (ht.hour.2 c hc)
  · rfl
  · exact hdecimal c (ht.minute.2 c hc)
  · rfl
  · exact hdecimal c (ht.second.2 c hc)
  · exact hfraction c hc

/-- A timestamp is parsed as its date, its time and the datetime of both. -/
theorem parseTimestamp_text {t : Stamp CodePoint} (ht : t.Shaped (isDecimal · = true))
    (hf : ∀ c ∈ t.fraction, isDecimal c = true) :
    parseTimestamp (t.text .scalar) =
      (parseDate (t.dateText .scalar ++ .scalar 'T' :: (t.timeText .scalar ++ lit "+00:00"))).bind
        fun d => (parseTime (t.timeText .scalar)).bind fun h =>
          Datetime.new d.1.1 d.1.2.1 d.1.2.2 h.1 h.2.1 h.2.2 0 := by
  have htext : (t.text .scalar).dropLast ++ lit "+00:00" =
      t.dateText .scalar ++ .scalar 'T' :: (t.timeText .scalar ++ lit "+00:00") := by
    rw [Stamp.text, ← List.cons_append, ← List.append_assoc, List.dropLast_concat, List.append_assoc,
      List.cons_append]
  have hparse : ∀ d r, parseDate (t.dateText .scalar ++ .scalar 'T' ::
      (t.timeText .scalar ++ lit "+00:00")) = some (d, r) →
        r = .scalar 'T' :: (t.timeText .scalar ++ lit "+00:00") := by
    rintro ⟨year, month, day⟩ r h
    obtain ⟨y, m, d, hy, hm, hd, h, -⟩ := parseDate_eq_some.1 h
    have hlen : (t.dateText CodePoint.scalar).length =
        (ofChars y ++ .scalar '-' :: (ofChars m ++ .scalar '-' :: ofChars d)).length := by
      simp only [Stamp.length_dateText ht, List.length_append, List.length_cons, ofChars,
        List.length_map, hy.1, hm.1, hd.1]
    exact (List.append_inj (h.trans (by simp only [List.append_assoc, List.cons_append])) hlen).2.symm
  have hsign := notMem_timeText ht hf
  have htake : (t.timeText .scalar ++ lit "+00:00").takeWhile (fun c => !isOffsetSign c) =
      t.timeText .scalar := by
    rw [List.takeWhile_append_of_pos hsign]
    exact List.append_nil _
  have hdrop : (t.timeText .scalar ++ lit "+00:00").dropWhile (fun c => !isOffsetSign c) =
      lit "+00:00" := List.dropWhile_append_of_pos hsign
  rw [parseTimestamp, htext, fromisoformat]
  cases hdate : parseDate (t.dateText .scalar ++ .scalar 'T' :: (t.timeText .scalar ++ lit "+00:00")) with
  | none => rfl
  | some d =>
    obtain ⟨d, r⟩ := d
    rw [hparse d r hdate]
    simp only [Option.bind_eq_bind, Option.bind_some, List.drop_succ_cons, List.drop_zero, htake, hdrop]
    rfl

/-- A timestamp that the pattern matches is one of UTC. -/
theorem utcoffset_eq_zero {s : Str} {d : Datetime} (hs : matchesRfc3339Utc s = true)
    (h : parseTimestamp s = some d) : d.utcoffset = 0 := by
  obtain ⟨t, ht, hf, rfl⟩ := matchesRfc3339Utc_eq_true.1 hs
  rw [parseTimestamp_text ht hf] at h
  obtain ⟨date, -, h⟩ := Option.bind_eq_some_iff.1 h
  obtain ⟨time, -, h⟩ := Option.bind_eq_some_iff.1 h
  rw [Datetime.new] at h
  split_ifs at h
  cases h
  rfl

/-- The timestamps that a Python `datetime` can hold, in the spelling that the pattern and
the parser both let through. -/
structure IsTimestamp (t : Stamp Char) : Prop where
  shaped : t.Shaped (·.isDigit = true)
  calendar : t.OnCalendar
  year : 1 ≤ digitsValue t.year
  second : digitsValue t.second ≤ 59
  decimal : ∀ c ∈ t.fraction, isDecimal (.scalar c) = true
  microseconds : (t.fraction.take 6).all Char.isDigit = true

/-- **The validator accepts just the timestamps of the format**, on the calendar and of UTC. -/
theorem isTimestamp_iff {s : Str} :
    (matchesRfc3339Utc s = true ∧ ∃ d, parseTimestamp s = some d ∧ d.utcoffset = 0) ↔
      ∃ t : Stamp Char, IsTimestamp t ∧ s = ofChars (t.text id) := by
  constructor
  · rintro ⟨hmatch, d, hd, -⟩
    obtain ⟨t, ht, hf, rfl⟩ := matchesRfc3339Utc_eq_true.1 hmatch
    rw [parseTimestamp_text ht hf] at hd
    simp only [Option.bind_eq_some_iff, Prod.exists] at hd
    obtain ⟨year, month, day, r, hdate, hour, minute, second, htime, hnew⟩ := hd
    obtain ⟨hyear, hmonth, hday, hhour, hminute, hsecond⟩ := Datetime.of_new hnew
    obtain ⟨y, mo, da, hy, hmo, hda, hdates, rfl, rfl, rfl⟩ := parseDate_eq_some.1 hdate
    obtain ⟨h, mi, sec, f, hh, hmi, hsec, hfrac, htimes, rfl, rfl, rfl⟩ := parseTime_eq_some.1 htime
    obtain ⟨fr, hfr⟩ := exists_ofChars_of_isDecimal hf
    have hlen : ∀ {n : ℕ} {a : Str} {b : List Char}, (a.length = n ∧ ∀ c ∈ a, isDecimal c = true) →
        (b.length = n ∧ ∀ c ∈ b, c.isDigit = true) → a.length = (ofChars b).length := fun ha hb => by
      rw [ha.1, ofChars, List.length_map, hb.1]
    simp only [Stamp.dateText, List.append_assoc, List.cons_append] at hdates
    obtain ⟨hyear', hdates⟩ := List.append_inj hdates (hlen ht.year hy)
    obtain ⟨hmonth', hdates⟩ := List.append_inj (List.cons.inj hdates).2 (hlen ht.month hmo)
    obtain ⟨hday', -⟩ := List.append_inj (List.cons.inj hdates).2 (hlen ht.day hda)
    obtain ⟨hhour', htimes⟩ := List.append_inj htimes (hlen ht.hour hh)
    obtain ⟨hminute', htimes⟩ := List.append_inj (List.cons.inj htimes).2 (hlen ht.minute hmi)
    obtain ⟨hsecond', htimes⟩ := List.append_inj (List.cons.inj htimes).2 (hlen ht.second hsec)
    have ht' : t = Stamp.map CodePoint.scalar ⟨y, mo, da, h, mi, sec, fr⟩ := by
      cases t
      simp only [Stamp.map, Stamp.mk.injEq]
      exact ⟨hyear', hmonth', hday', hhour', hminute', hsecond', hfr⟩
    refine ⟨⟨y, mo, da, h, mi, sec, fr⟩, ?_, ?_⟩
    · constructor
      · exact ⟨hy, hmo, hda, hh, hmi, hsec⟩
      · exact ⟨hmonth, hday, Nat.le_of_lt_succ hhour, Nat.le_of_lt_succ hminute,
          (Nat.le_of_lt_succ hsecond).trans (by decide)⟩
      · exact hyear.1
      · exact Nat.le_of_lt_succ hsecond
      · exact fun c hc => hf _ (by rw [hfr]; exact List.mem_map_of_mem hc)
      · rwa [← htimes, ht', fractionParses_fractionText] at hfrac
    · rw [ht', ofChars, ← Stamp.text_map]
      rfl
  · rintro ⟨t, ht, rfl⟩
    have htext : ofChars (t.text id) = (t.map .scalar).text .scalar := by
      rw [ofChars, ← Stamp.text_map]
      rfl
    have hshaped : (t.map CodePoint.scalar).Shaped (isDecimal · = true) :=
      ht.shaped.map fun c hc => isDecimal_digit hc
    have hfraction : ∀ c ∈ (t.map CodePoint.scalar).fraction, isDecimal c = true :=
      List.forall_mem_map.2 ht.decimal
    rw [htext]
    refine ⟨matchesRfc3339Utc_eq_true.2 ⟨_, hshaped, hfraction, rfl⟩, ?_⟩
    have hdate : ∀ r, parseDate ((t.map .scalar).dateText .scalar ++ r) =
        some ((digitsValue t.year, digitsValue t.month, digitsValue t.day), r) := fun r => by
      rw [Stamp.dateText, List.append_assoc, List.cons_append, List.append_assoc, List.cons_append]
      exact parseDate_eq_some.2 ⟨t.year, t.month, t.day, ht.shaped.year, ht.shaped.month, ht.shaped.day,
        rfl, rfl, rfl, rfl⟩
    have htime : parseTime ((t.map .scalar).timeText .scalar) =
        some (digitsValue t.hour, digitsValue t.minute, digitsValue t.second) :=
      parseTime_eq_some.2 ⟨t.hour, t.minute, t.second, _, ht.shaped.hour, ht.shaped.minute,
        ht.shaped.second, (fractionParses_fractionText t).trans ht.microseconds, rfl, rfl, rfl, rfl⟩
    have hyear : digitsValue t.year ≤ 9999 := by
      have := digitsValue_lt ht.shaped.year.2
      rw [ht.shaped.year.1] at this
      omega
    rw [parseTimestamp_text hshaped hfraction, hdate, Option.bind_some, htime]
    exact ⟨_, Datetime.new_eq ⟨ht.year, hyear⟩ ht.calendar.month ht.calendar.day
      ⟨Nat.lt_succ_of_le ht.calendar.hour, Nat.lt_succ_of_le ht.calendar.minute,
        Nat.lt_succ_of_le ht.second⟩, rfl⟩

example : matchesRfc3339Utc (lit "2026-02-28T23:59:59.5Z") = true := by decide +kernel

example : (parseTimestamp (lit "2026-02-29T00:00:00Z")).isNone = true := by decide +kernel

end Python
end Vestrix
