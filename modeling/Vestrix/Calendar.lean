/-
# The proleptic Gregorian calendar

Dates and times of day as fields, and the numbers that they stand for: the ordinal of a date, where
1 is the first of January of the year 1, and the microseconds of a moment since then.

A number has its fields (`ordinal_fromordinal`, `instant_ofInstant`), and the order of the numbers is
the lexicographic order of the fields (`lexicographic_of_ordinal_lt`, `lexicographic_of_instant_lt`).
-/

import Vestrix.Text.Timestamp
import Mathlib.Data.Nat.Find

namespace Vestrix
namespace Calendar

open Text

/-- The days of a year. -/
def daysInYear (year : ℕ) : ℕ := if isLeap year then 366 else 365

/-- The days before the first of January. -/
def daysBeforeYear (year : ℕ) : ℕ :=
  (year - 1) * 365 + (year - 1) / 4 - (year - 1) / 100 + (year - 1) / 400

/-- The days of a year before the first of a month. -/
def daysBeforeMonth (year : ℕ) : ℕ → ℕ
  | 0 => 0
  | 1 => 0
  | month + 2 => daysBeforeMonth year (month + 1) + daysInMonth year (month + 1)

/-- A day of the calendar. -/
structure Date where
  year : ℕ
  month : ℕ
  day : ℕ
  year_pos : 1 ≤ year
  month_range : 1 ≤ month ∧ month ≤ 12
  day_range : 1 ≤ day ∧ day ≤ daysInMonth year month
deriving DecidableEq

/-- `toordinal`. -/
def Date.ordinal (d : Date) : ℕ := daysBeforeYear d.year + daysBeforeMonth d.year d.month + d.day

/-! ### Years and months -/

variable {year year' month month' : ℕ}

/-- The leap years are the multiples of 4, without the centuries that are not multiples of 400. -/
theorem isLeap_iff : isLeap year = true ↔ 4 ∣ year ∧ (¬ 100 ∣ year ∨ 400 ∣ year) := by
  simp [isLeap, Nat.dvd_iff_mod_eq_zero]

/-- A year begins when the one before it is over. -/
theorem daysBeforeYear_succ (h : 1 ≤ year) :
    daysBeforeYear (year + 1) = daysBeforeYear year + daysInYear year := by
  obtain ⟨n, rfl⟩ := Nat.exists_eq_add_of_le' h
  have hcentury : 100 ∣ n + 1 → 4 ∣ n + 1 := Dvd.dvd.trans (by decide)
  have hcycle : 400 ∣ n + 1 → 100 ∣ n + 1 := Dvd.dvd.trans (by decide)
  have hle : n / 100 ≤ n / 4 := Nat.div_le_div_left (by decide) (by decide)
  simp only [daysBeforeYear, daysInYear, isLeap_iff, Nat.add_sub_cancel, Nat.succ_div]
  split_ifs <;> omega

/-- Later years begin later. -/
theorem daysBeforeYear_mono (h : 1 ≤ year) (hle : year ≤ year') :
    daysBeforeYear year ≤ daysBeforeYear year' := by
  induction year', hle using Nat.le_induction with
  | base => exact le_rfl
  | succ k hk ih =>
    rw [daysBeforeYear_succ (h.trans hk)]
    exact ih.trans (Nat.le_add_right _ _)

/-- A month begins when the one before it is over. -/
theorem daysBeforeMonth_succ (h : 1 ≤ month) :
    daysBeforeMonth year (month + 1) = daysBeforeMonth year month + daysInMonth year month := by
  obtain ⟨k, rfl⟩ := Nat.exists_eq_add_of_le' h
  rfl

/-- Later months of a year begin later. -/
theorem daysBeforeMonth_mono (h : 1 ≤ month) (hle : month ≤ month') :
    daysBeforeMonth year month ≤ daysBeforeMonth year month' := by
  induction month', hle using Nat.le_induction with
  | base => exact le_rfl
  | succ k hk ih =>
    rw [daysBeforeMonth_succ (h.trans hk)]
    exact ih.trans (Nat.le_add_right _ _)

/-- Twelve months make a year. -/
theorem daysBeforeMonth_thirteen : daysBeforeMonth year 13 = daysInYear year := by
  have hmonths : daysBeforeMonth year 13 =
      31 + (if isLeap year then 29 else 28) + 31 + 30 + 31 + 30 + 31 + 31 + 30 + 31 + 30 + 31 := by
    simp [daysBeforeMonth, daysInMonth]
  rw [hmonths, daysInYear]
  split_ifs <;> rfl

/-! ### The order of dates -/

/-- A date is in its month. -/
theorem Date.ordinal_range (d : Date) :
    daysBeforeYear d.year + daysBeforeMonth d.year d.month < d.ordinal ∧
      d.ordinal ≤ daysBeforeYear d.year + daysBeforeMonth d.year (d.month + 1) := by
  have hday := d.day_range
  rw [daysBeforeMonth_succ d.month_range.1, Date.ordinal]
  omega

/-- A date is in its year. -/
theorem Date.ordinal_le (d : Date) : d.ordinal ≤ daysBeforeYear (d.year + 1) := by
  have hmonth : daysBeforeMonth d.year (d.month + 1) ≤ daysBeforeMonth d.year 13 :=
    daysBeforeMonth_mono (Nat.le_add_left 1 _) (Nat.succ_le_succ d.month_range.2)
  rw [daysBeforeMonth_thirteen] at hmonth
  have hrange := d.ordinal_range.2
  rw [daysBeforeYear_succ d.year_pos]
  omega

/-- The order of the fields of two dates. -/
def Date.Precedes (d e : Date) : Prop :=
  d.year < e.year ∨ d.year = e.year ∧ (d.month < e.month ∨ d.month = e.month ∧ d.day < e.day)

/-- A day of an earlier year has a smaller ordinal. -/
theorem Date.ordinal_lt_of_year_lt {d e : Date} (h : d.year < e.year) : d.ordinal < e.ordinal := by
  have hle : daysBeforeYear (d.year + 1) ≤ daysBeforeYear e.year :=
    daysBeforeYear_mono (Nat.le_add_left 1 _) h
  have hd := d.ordinal_le
  have he := e.ordinal_range.1
  omega

/-- A day of an earlier month of the same year has a smaller ordinal. -/
theorem Date.ordinal_lt_of_month_lt {d e : Date} (hyear : d.year = e.year) (h : d.month < e.month) :
    d.ordinal < e.ordinal := by
  have hle : daysBeforeMonth d.year (d.month + 1) ≤ daysBeforeMonth d.year e.month :=
    daysBeforeMonth_mono (Nat.le_add_left 1 _) h
  have hd := d.ordinal_range.2
  have he := e.ordinal_range.1
  rw [← hyear] at he
  omega

/-- Two dates with one ordinal are the same. -/
theorem Date.ordinal_injective : Function.Injective Date.ordinal := by
  intro d e h
  have hyear : d.year = e.year := le_antisymm
    (Nat.not_lt.1 fun hlt => (ordinal_lt_of_year_lt hlt).ne' h)
    (Nat.not_lt.1 fun hlt => (ordinal_lt_of_year_lt hlt).ne h)
  have hmonth : d.month = e.month := le_antisymm
    (Nat.not_lt.1 fun hlt => (ordinal_lt_of_month_lt hyear.symm hlt).ne' h)
    (Nat.not_lt.1 fun hlt => (ordinal_lt_of_month_lt hyear hlt).ne h)
  have hday : d.day = e.day := by
    rw [ordinal, ordinal, hyear, hmonth] at h
    omega
  cases d
  cases e
  simp only at hyear hmonth hday
  simp only [hyear, hmonth, hday]

/-- **Of two dates the earlier one comes first in the order of the fields.** -/
theorem lexicographic_of_ordinal_lt {d e : Date} (h : d.ordinal < e.ordinal) : d.Precedes e := by
  rcases lt_trichotomy d.year e.year with hyear | hyear | hyear
  · exact Or.inl hyear
  · refine Or.inr ⟨hyear, ?_⟩
    rcases lt_trichotomy d.month e.month with hmonth | hmonth | hmonth
    · exact Or.inl hmonth
    · refine Or.inr ⟨hmonth, ?_⟩
      rw [Date.ordinal, Date.ordinal, hyear, hmonth] at h
      omega
    · exact absurd (Date.ordinal_lt_of_month_lt hyear.symm hmonth) h.asymm
  · exact absurd (Date.ordinal_lt_of_year_lt hyear) h.asymm

/-! ### The date of an ordinal -/

/-- The year of a day, counted from 0: cycles of 400, 100, 4 years and 1 year are taken out. -/
def yearOf (n : ℕ) : ℕ :=
  let century := min (n % 146097 / 36524) 3
  let rest := n % 146097 - century * 36524
  400 * (n / 146097) + 100 * century + 4 * (rest / 1461) + min (rest % 1461 / 365) 3 + 1

/-- The days before a year, by its place in the cycles. -/
theorem daysBeforeYear_cycles {a b c d : ℕ} (hb : b ≤ 3) (hc : c ≤ 24) (hd : d ≤ 3) :
    daysBeforeYear (400 * a + 100 * b + 4 * c + d + 1) = 146097 * a + 36524 * b + 1461 * c + 365 * d := by
  have h₄ : (400 * a + 100 * b + 4 * c + d) / 4 = 100 * a + 25 * b + c := by omega
  have h₁₀₀ : (400 * a + 100 * b + 4 * c + d) / 100 = 4 * a + b := by omega
  have h₄₀₀ : (400 * a + 100 * b + 4 * c + d) / 400 = a := by omega
  rw [daysBeforeYear, Nat.add_sub_cancel, h₄, h₁₀₀, h₄₀₀]
  omega

/-- A day is in its year. -/
theorem yearOf_spec (n : ℕ) : daysBeforeYear (yearOf n) ≤ n ∧ n < daysBeforeYear (yearOf n + 1) := by
  rw [yearOf]
  generalize ha : n / 146097 = a
  generalize hm : n % 146097 = m
  generalize hb : min (m / 36524) 3 = b
  generalize hr : m - b * 36524 = r
  generalize hc : r / 1461 = c
  generalize hq : r % 1461 = q
  generalize hd : min (q / 365) 3 = d
  have hn : n = 146097 * a + 36524 * b + 1461 * c + q := by omega
  have hb₃ : b ≤ 3 := hb ▸ Nat.min_le_right _ _
  have hd₃ : d ≤ 3 := hd ▸ Nat.min_le_right _ _
  have hcentury : r < 36525 ∧ (b < 3 → r < 36524) := by omega
  have hc₂₄ : c ≤ 24 := by omega
  have hfour : q < 1461 ∧ (c = 24 → b < 3 → q < 1460) := by omega
  have hyear := daysBeforeYear_cycles (a := a) hb₃ hc₂₄ hd₃
  refine ⟨by omega, ?_⟩
  -- the next year is in the same four years, in the same century, in the same cycle or in the next one
  rcases Nat.lt_or_ge d 3 with hd' | hd'
  · have hnext := daysBeforeYear_cycles (a := a) hb₃ hc₂₄ (show d + 1 ≤ 3 from hd')
    rw [← Nat.add_assoc] at hnext
    omega
  rcases Nat.lt_or_ge c 24 with hc' | hc'
  · have hnext := daysBeforeYear_cycles (a := a) hb₃ (show c + 1 ≤ 24 from hc') (Nat.zero_le 3)
    rw [show 400 * a + 100 * b + 4 * (c + 1) + 0 = 400 * a + 100 * b + 4 * c + d + 1 by omega] at hnext
    omega
  rcases Nat.lt_or_ge b 3 with hb' | hb'
  · have hnext := daysBeforeYear_cycles (a := a) (show b + 1 ≤ 3 from hb') (Nat.zero_le 24) (Nat.zero_le 3)
    rw [show 400 * a + 100 * (b + 1) + 4 * 0 + 0 = 400 * a + 100 * b + 4 * c + d + 1 by omega] at hnext
    omega
  · have hnext := daysBeforeYear_cycles (a := a + 1) (Nat.zero_le 3) (Nat.zero_le 24) (Nat.zero_le 3)
    rw [show 400 * (a + 1) + 100 * 0 + 4 * 0 + 0 = 400 * a + 100 * b + 4 * c + d + 1 by omega] at hnext
    omega

/-- The month of a day of a year, counted from 0. -/
def monthOf (year n : ℕ) : ℕ := Nat.findGreatest (fun month => daysBeforeMonth year month ≤ n) 12

/-- The month of day `n` of a year begins at that day or before, and ends after it. -/
theorem monthOf_spec {n : ℕ} (h : n < daysInYear year) :
    (1 ≤ monthOf year n ∧ monthOf year n ≤ 12) ∧ daysBeforeMonth year (monthOf year n) ≤ n ∧
      n < daysBeforeMonth year (monthOf year n + 1) := by
  have hfirst : daysBeforeMonth year 1 ≤ n := Nat.zero_le n
  have hle : monthOf year n ≤ 12 := Nat.findGreatest_le 12
  refine ⟨⟨Nat.le_findGreatest (by decide) hfirst, hle⟩, ?_, ?_⟩
  · exact Nat.findGreatest_spec (P := fun month => daysBeforeMonth year month ≤ n) (by decide) hfirst
  · rcases Nat.lt_or_ge (monthOf year n) 12 with hlt | hge
    · exact Nat.not_le.1 (Nat.findGreatest_is_greatest (P := fun month => daysBeforeMonth year month ≤ n)
        (Nat.lt_succ_self _) hlt)
    · rwa [Nat.le_antisymm hle hge, daysBeforeMonth_thirteen]

/-- The place of a day in its year, both counted from 0. -/
def dayOfYear (n : ℕ) : ℕ := n - daysBeforeYear (yearOf n)

/-- No day is in the year 0. -/
theorem yearOf_pos (n : ℕ) : 1 ≤ yearOf n := Nat.le_add_left 1 _

/-- A year has no more days than `daysInYear` says. -/
theorem dayOfYear_lt (n : ℕ) : dayOfYear n < daysInYear (yearOf n) := by
  have hyear := yearOf_spec n
  rw [daysBeforeYear_succ (yearOf_pos n)] at hyear
  rw [dayOfYear]
  omega

/-- `fromordinal`. -/
def Date.fromordinal (n : ℕ) : Date where
  year := yearOf (n - 1)
  month := monthOf (yearOf (n - 1)) (dayOfYear (n - 1))
  day := dayOfYear (n - 1) -
    daysBeforeMonth (yearOf (n - 1)) (monthOf (yearOf (n - 1)) (dayOfYear (n - 1))) + 1
  year_pos := yearOf_pos _
  month_range := (monthOf_spec (dayOfYear_lt _)).1
  day_range := by
    obtain ⟨hmonth, hle, hlt⟩ := monthOf_spec (dayOfYear_lt (n - 1))
    rw [daysBeforeMonth_succ hmonth.1] at hlt
    omega

/-- **The date of an ordinal** has this ordinal. -/
theorem ordinal_fromordinal {n : ℕ} (h : 1 ≤ n) : (Date.fromordinal n).ordinal = n := by
  have hyear := (yearOf_spec (n - 1)).1
  have hmonth := (monthOf_spec (dayOfYear_lt (n - 1))).2.1
  have hday : daysBeforeYear (yearOf (n - 1)) + dayOfYear (n - 1) = n - 1 := Nat.add_sub_cancel' hyear
  unfold Date.ordinal Date.fromordinal
  dsimp only
  omega

example : Date.fromordinal 738945 = ⟨2024, 2, 29, by decide, by decide, by decide⟩ := by decide

/-! ### Moments -/

/-- A date and a time of day. -/
structure Moment where
  date : Date
  hour : ℕ
  minute : ℕ
  second : ℕ
  microsecond : ℕ
  time_range : hour < 24 ∧ minute < 60 ∧ second < 60
  microsecond_lt : microsecond < 1000000
deriving DecidableEq

/-- The microseconds of a time of day. -/
def Moment.time (m : Moment) : ℕ := ((m.hour * 60 + m.minute) * 60 + m.second) * 1000000 + m.microsecond

/-- The microseconds since the first moment of the calendar. -/
def Moment.instant (m : Moment) : ℕ := (m.date.ordinal - 1) * 86400000000 + m.time

/-- The moment that is so many microseconds after the first. -/
def Moment.ofInstant (n : ℕ) : Moment where
  date := .fromordinal (n / 86400000000 + 1)
  hour := n % 86400000000 / 3600000000
  minute := n % 86400000000 / 60000000 % 60
  second := n % 86400000000 / 1000000 % 60
  microsecond := n % 86400000000 % 1000000
  time_range := by omega
  microsecond_lt := Nat.mod_lt _ (by decide)

/-- The ordinals of dates begin with 1. -/
theorem Date.ordinal_pos (d : Date) : 1 ≤ d.ordinal := by
  have := d.day_range.1
  rw [Date.ordinal]
  omega

/-- The time of day is less than a day, in microseconds. -/
theorem Moment.time_lt (m : Moment) : m.time < 86400000000 := by
  have := m.time_range
  have := m.microsecond_lt
  rw [Moment.time]
  omega

/-- **The moment of an instant** is this instant. -/
theorem instant_ofInstant (n : ℕ) : (Moment.ofInstant n).instant = n := by
  have htime : (Moment.ofInstant n).time = n % 86400000000 := by
    show ((n % 86400000000 / 3600000000 * 60 + n % 86400000000 / 60000000 % 60) * 60 +
      n % 86400000000 / 1000000 % 60) * 1000000 + n % 86400000000 % 1000000 = _
    omega
  have hordinal : (Moment.ofInstant n).date.ordinal = n / 86400000000 + 1 :=
    ordinal_fromordinal (Nat.le_add_left 1 _)
  rw [Moment.instant, htime, hordinal, Nat.add_sub_cancel, Nat.div_add_mod']

/-- The order of the fields of two times of day. -/
def Moment.TimePrecedes (m n : Moment) : Prop :=
  m.hour < n.hour ∨ m.hour = n.hour ∧ (m.minute < n.minute ∨ m.minute = n.minute ∧
    (m.second < n.second ∨ m.second = n.second ∧ m.microsecond < n.microsecond))

/-- The times of day are ordered as hours, minutes, seconds and microseconds are. -/
theorem lexicographic_of_time_lt {m n : Moment} (h : m.time < n.time) : m.TimePrecedes n := by
  have hm := m.time_range
  have hn := n.time_range
  have hm' := m.microsecond_lt
  have hn' := n.microsecond_lt
  rw [Moment.time, Moment.time] at h
  unfold Moment.TimePrecedes
  omega

/-- **Of two moments the earlier one comes first in the order of the fields.** -/
theorem lexicographic_of_instant_lt {m n : Moment} (h : m.instant < n.instant) :
    m.date.Precedes n.date ∨ m.date = n.date ∧ m.TimePrecedes n := by
  have hm := m.time_lt
  have hn := n.time_lt
  rw [Moment.instant, Moment.instant] at h
  have hmd := m.date.ordinal_pos
  have hnd := n.date.ordinal_pos
  rcases lt_trichotomy m.date.ordinal n.date.ordinal with hdate | hdate | hdate
  · exact Or.inl (lexicographic_of_ordinal_lt hdate)
  · refine Or.inr ⟨Date.ordinal_injective hdate, lexicographic_of_time_lt ?_⟩
    rw [hdate] at h
    exact Nat.lt_of_add_lt_add_left h
  · omega

end Calendar
end Vestrix
