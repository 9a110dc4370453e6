/-
# Aware datetimes and their texts

A `datetime` that knows its offset, `astimezone(UTC)`, `isoformat(timespec="microseconds")` and
`str.replace`, as `anchor_worker` writes times with them.

The texts of moments have fields of fixed widths, the larger units first, so that an earlier
moment has a smaller text (`momentText_lt`).
-/

import Vestrix.Calendar
import Vestrix.Text.FixedWidth

namespace Vestrix
namespace Python

open Text Calendar

/-- The microseconds of `datetime.max`, from `datetime.min` on. -/
def maxInstant : ℕ := 315537897599999999

/-- A `datetime` with a time zone: its fields, and what `utcoffset()` returns, in microseconds. -/
structure AwareDatetime where
  moment : Moment
  utcoffset : ℤ
  year_le : moment.date.year ≤ 9999
  utcoffset_range : -86400000000 < utcoffset ∧ utcoffset < 86400000000
deriving DecidableEq

/-- When it is, in microseconds from the year 1 in UTC on. -/
def AwareDatetime.instant (d : AwareDatetime) : ℤ := d.moment.instant - d.utcoffset

/-- A `datetime` whose date in UTC has a year from 1 to 9999. -/
def AwareDatetime.InRange (d : AwareDatetime) : Prop := 0 ≤ d.instant ∧ d.instant ≤ maxInstant

instance (d : AwareDatetime) : Decidable d.InRange := inferInstanceAs (Decidable (_ ∧ _))

/-- A moment is not after `datetime.max` when its year has four digits. -/
theorem year_ofInstant {n : ℕ} (h : n ≤ maxInstant) : (Moment.ofInstant n).date.year ≤ 9999 := by
  have hordinal : (Moment.ofInstant n).date.ordinal = n / 86400000000 + 1 :=
    ordinal_fromordinal (Nat.le_add_left 1 _)
  by_contra hyear
  have hle : daysBeforeYear 10000 ≤ daysBeforeYear (Moment.ofInstant n).date.year :=
    daysBeforeYear_mono (by decide) (Nat.not_le.1 hyear)
  have hdays : daysBeforeYear 10000 = 3652059 := rfl
  have hlt := (Moment.ofInstant n).date.ordinal_range.1
  rw [maxInstant] at h
  omega

/-- The `datetime` in UTC of an instant. -/
def AwareDatetime.utc (n : ℕ) (h : n ≤ maxInstant) : AwareDatetime :=
  ⟨.ofInstant n, 0, year_ofInstant h, by decide⟩

/-- The instant of a UTC datetime is the one it was made from. -/
theorem instant_utc {n : ℕ} (h : n ≤ maxInstant) : (AwareDatetime.utc n h).instant = n := by
  show ((Moment.ofInstant n).instant : ℤ) - 0 = n
  rw [instant_ofInstant, sub_zero]

/-- `astimezone(UTC)`; there is none where it overflows. -/
def AwareDatetime.astimezoneUtc (d : AwareDatetime) : Option AwareDatetime :=
  if h : d.InRange then some (.utc d.instant.toNat (Int.toNat_le.2 h.2)) else none

/-! ### Texts -/

/-- The date in `isoformat`. -/
def dateText (d : Date) : List Char :=
  padded 4 d.year ++ '-' :: (padded 2 d.month ++ '-' :: padded 2 d.day)

/-- The time of day in `isoformat`. -/
def timeText (m : Moment) : List Char :=
  padded 2 m.hour ++ ':' :: (padded 2 m.minute ++ ':' :: (padded 2 m.second ++ '.' :: padded 6 m.microsecond))

/-- The fields in `isoformat`. -/
def momentText (m : Moment) : List Char := dateText m.date ++ 'T' :: timeText m

/-- The offset in `isoformat`. -/
def offsetText (utcoffset : ℤ) : List Char :=
  let n := utcoffset.natAbs
  (if utcoffset < 0 then '-' else '+') :: (padded 2 (n / 3600000000) ++
    ':' :: (padded 2 (n % 3600000000 / 60000000) ++
      if n % 60000000 = 0 then []
      else ':' :: (padded 2 (n % 60000000 / 1000000) ++
        if n % 1000000 = 0 then [] else '.' :: padded 6 (n % 1000000))))

/-- `isoformat(timespec="microseconds")`. -/
def AwareDatetime.isoformat (d : AwareDatetime) : List Char := momentText d.moment ++ offsetText d.utcoffset

/-- `str.replace`, where `skip` more characters of a match are to be dropped. -/
def replaceFrom (old new : List Char) : ℕ → List Char → List Char
  | _, [] => []
  | skip + 1, _ :: s => replaceFrom old new skip s
  | 0, c :: s =>
    if old.isPrefixOf (c :: s) then new ++ replaceFrom old new (old.length - 1) s
    else c :: replaceFrom old new 0 s

/-- `s.replace(old, new)`, where `old` is not empty. -/
def replace (old new s : List Char) : List Char := replaceFrom old new 0 s

/-! ### The order of texts -/

/-- A field decides the order when it differs, and leaves it to what follows when not. -/
theorem padded_append_lt {width m n : ℕ} {s t : List Char} (hw : 0 < width) (hn : n < 10 ^ width)
    (h : m < n ∨ m = n ∧ s < t) : padded width m ++ s < padded width n ++ t := by
  rcases h with h | ⟨rfl, h⟩
  · refine append_lt_append ?_ (padded_lt_padded hw hn h) s t
    rw [length_padded hw (h.trans hn), length_padded hw hn]
  · exact append_lt_append_left _ h

/-- Texts with one first character are ordered as the rests. -/
theorem cons_lt_cons {c : Char} {s t : List Char} (h : s < t) : c :: s < c :: t :=
  List.cons_lt_cons_iff.2 (Or.inr ⟨rfl, h⟩)

/-- A day has two digits. -/
theorem day_lt (d : Date) : d.day < 10 ^ 2 := by
  have hle : daysInMonth d.year d.month ≤ 31 := by
    rw [daysInMonth]
    split_ifs <;> decide
  exact Nat.lt_of_le_of_lt (d.day_range.2.trans hle) (by decide)

/-- A month has two digits. -/
theorem month_lt (d : Date) : d.month < 10 ^ 2 := Nat.lt_of_le_of_lt d.month_range.2 (by decide)

/-- A date up to the year 9999 has ten characters. -/
theorem length_dateText {d : Date} (h : d.year ≤ 9999) : (dateText d).length = 10 := by
  have hyear : d.year < 10 ^ 4 := Nat.lt_succ_of_le h
  simp only [dateText, List.length_append, List.length_cons, length_padded (Nat.succ_pos _) hyear,
    length_padded (Nat.succ_pos _) (month_lt d), length_padded (Nat.succ_pos _) (day_lt d)]

/-- **Texts of dates are ordered as the dates are**, up to the year 9999. -/
theorem dateText_lt {d e : Date} (he : e.year ≤ 9999) (h : d.Precedes e) : dateText d < dateText e := by
  refine padded_append_lt (by decide) (Nat.lt_succ_of_le he) (h.imp id fun h => ⟨h.1, cons_lt_cons ?_⟩)
  refine padded_append_lt (by decide) (month_lt e) (h.2.imp id fun h => ⟨h.1, cons_lt_cons ?_⟩)
  exact padded_lt_padded (by decide) (day_lt e) h.2

/-- **Texts of times are ordered as the times are.** -/
theorem timeText_lt {m n : Moment} (h : m.TimePrecedes n) : timeText m < timeText n := by
  obtain ⟨hhour, hminute, hsecond⟩ := n.time_range
  refine padded_append_lt (by decide) (hhour.trans (by decide)) (h.imp id fun h => ⟨h.1, cons_lt_cons ?_⟩)
  refine padded_append_lt (by decide) (hminute.trans (by decide))
    (h.2.imp id fun h => ⟨h.1, cons_lt_cons ?_⟩)
  refine padded_append_lt (by decide) (hsecond.trans (by decide))
    (h.2.imp id fun h => ⟨h.1, cons_lt_cons ?_⟩)
  exact padded_lt_padded (by decide) n.microsecond_lt h.2

/-- A moment up to the year 9999 has 26 characters. -/
theorem length_momentText {m : Moment} (h : m.date.year ≤ 9999) : (momentText m).length = 26 := by
  obtain ⟨hhour, hminute, hsecond⟩ := m.time_range
  simp only [momentText, timeText, List.length_append, List.length_cons, length_dateText h,
    length_padded (Nat.succ_pos 1) (hhour.trans (by decide)),
    length_padded (Nat.succ_pos 1) (hminute.trans (by decide)),
    length_padded (Nat.succ_pos 1) (hsecond.trans (by decide)),
    length_padded (Nat.succ_pos 5) m.microsecond_lt]

/-- **An earlier moment has a smaller text**, whatever follows. -/
theorem momentText_lt {m n : Moment} (hm : m.date.year ≤ 9999) (hn : n.date.year ≤ 9999)
    (h : m.instant < n.instant) (s t : List Char) : momentText m ++ s < momentText n ++ t := by
  refine append_lt_append ((length_momentText hm).trans (length_momentText hn).symm) ?_ s t
  rcases lexicographic_of_instant_lt h with hdate | ⟨hdate, htime⟩
  · exact append_lt_append ((length_dateText hm).trans (length_dateText hn).symm) (dateText_lt hn hdate) _ _
  · rw [momentText, momentText, hdate]
    exact append_lt_append_left _ (cons_lt_cons (timeText_lt htime))

end Python
end Vestrix
