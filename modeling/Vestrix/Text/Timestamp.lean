/-
# Timestamps

The texts `YYYY-MM-DDTHH:MM:SSZ`, with a fraction of a second or without, as their fields
and the calendar that these have to agree with.  The characters are of any type, with
`punct` for the ASCII ones: code points for one program, bytes for another.

`Stamp.text` is injective on fields of the right lengths, so that what two programs
accept can be compared field by field.
-/

import Vestrix.Text.Digits

namespace Vestrix
namespace Text

/-- Whether a year has 366 days. -/
def isLeap (year : ℕ) : Bool := year % 4 == 0 && (year % 100 != 0 || year % 400 == 0)

/-- The days of a month. -/
def daysInMonth (year month : ℕ) : ℕ :=
  if month = 2 then (if isLeap year then 29 else 28)
  else if month = 4 ∨ month = 6 ∨ month = 9 ∨ month = 11 then 30
  else 31

/-- The fields of a timestamp, as they are written; a fraction without digits is none. -/
structure Stamp (α : Type) where
  year : List α
  month : List α
  day : List α
  hour : List α
  minute : List α
  second : List α
  fraction : List α
deriving DecidableEq

namespace Stamp

variable {α β : Type} (punct : Char → α)

/-- The date. -/
def dateText (t : Stamp α) : List α :=
  t.year ++ punct '-' :: (t.month ++ punct '-' :: t.day)

/-- The point and the fraction, if there is one. -/
def fractionText (t : Stamp α) : List α := if t.fraction = [] then [] else punct '.' :: t.fraction

/-- The time. -/
def timeText (t : Stamp α) : List α :=
  t.hour ++ punct ':' :: (t.minute ++ punct ':' :: (t.second ++ t.fractionText punct))

/-- The text of a timestamp. -/
def text (t : Stamp α) : List α := t.dateText punct ++ punct 'T' :: (t.timeText punct ++ [punct 'Z'])

/-- The fields with their characters exchanged. -/
def map (f : α → β) (t : Stamp α) : Stamp β where
  year := t.year.map f
  month := t.month.map f
  day := t.day.map f
  hour := t.hour.map f
  minute := t.minute.map f
  second := t.second.map f
  fraction := t.fraction.map f

/-- The fields before the fraction have their lengths, and their characters satisfy `p`. -/
structure Shaped (p : α → Prop) (t : Stamp α) : Prop where
  year : t.year.length = 4 ∧ ∀ c ∈ t.year, p c
  month : t.month.length = 2 ∧ ∀ c ∈ t.month, p c
  day : t.day.length = 2 ∧ ∀ c ∈ t.day, p c
  hour : t.hour.length = 2 ∧ ∀ c ∈ t.hour, p c
  minute : t.minute.length = 2 ∧ ∀ c ∈ t.minute, p c
  second : t.second.length = 2 ∧ ∀ c ∈ t.second, p c

/-- The fields are a day of the calendar and a time of it; a second may be a leap second. -/
structure OnCalendar (t : Stamp Char) : Prop where
  month : 1 ≤ digitsValue t.month ∧ digitsValue t.month ≤ 12
  day : 1 ≤ digitsValue t.day ∧
    digitsValue t.day ≤ daysInMonth (digitsValue t.year) (digitsValue t.month)
  hour : digitsValue t.hour ≤ 23
  minute : digitsValue t.minute ≤ 59
  second : digitsValue t.second ≤ 60

variable {punct} {p q : α → Prop} {t u : Stamp α}

/-- The parts have their lengths whatever is known of the characters. -/
theorem Shaped.imp (h : ∀ c, p c → q c) (ht : t.Shaped p) : t.Shaped q where
  year := ⟨ht.year.1, fun c hc => h c (ht.year.2 c hc)⟩
  month := ⟨ht.month.1, fun c hc => h c (ht.month.2 c hc)⟩
  day := ⟨ht.day.1, fun c hc => h c (ht.day.2 c hc)⟩
  hour := ⟨ht.hour.1, fun c hc => h c (ht.hour.2 c hc)⟩
  minute := ⟨ht.minute.1, fun c hc => h c (ht.minute.2 c hc)⟩
  second := ⟨ht.second.1, fun c hc => h c (ht.second.2 c hc)⟩

/-- Mapping the characters leaves the lengths of the parts. -/
theorem Shaped.map {f : α → β} {q : β → Prop} (h : ∀ c, p c → q (f c)) (ht : t.Shaped p) :
    (t.map f).Shaped q := by
  have hfield : ∀ {n : ℕ} {ds : List α}, (ds.length = n ∧ ∀ c ∈ ds, p c) →
      (ds.map f).length = n ∧ ∀ c ∈ ds.map f, q c := fun hds =>
    ⟨(List.length_map f).trans hds.1, List.forall_mem_map.2 fun c hc => h c (hds.2 c hc)⟩
  constructor
  exacts [hfield ht.year, hfield ht.month, hfield ht.day, hfield ht.hour, hfield ht.minute,
    hfield ht.second]

/-- The fraction is mapped as its characters are. -/
theorem fractionText_map (f : α → β) (t : Stamp α) :
    (t.map f).fractionText (f ∘ punct) = (t.fractionText punct).map f := by
  unfold fractionText Stamp.map
  simp only [List.map_eq_nil_iff]
  split_ifs
  · rfl
  · rfl

/-- A timestamp is mapped as its characters are. -/
theorem text_map (f : α → β) (t : Stamp α) :
    (t.map f).text (f ∘ punct) = (t.text punct).map f := by
  simp only [text, dateText, timeText, fractionText_map, List.map_append, List.map_cons, List.map_nil,
    Function.comp_apply]
  rfl

/-- The fraction is read from its text. -/
theorem fractionText_injective (h : t.fractionText punct = u.fractionText punct) :
    t.fraction = u.fraction := by
  unfold fractionText at h
  split_ifs at h with ht hu hu
  · rw [ht, hu]
  · exact (List.cons.inj h).2

/-- Year, month and day are read from their text. -/
theorem dateText_injective (ht : t.Shaped p) (hu : u.Shaped q)
    (h : t.dateText punct = u.dateText punct) :
    t.year = u.year ∧ t.month = u.month ∧ t.day = u.day := by
  obtain ⟨hy, h⟩ := List.append_inj h (ht.year.1.trans hu.year.1.symm)
  obtain ⟨hm, h⟩ := List.append_inj (List.cons.inj h).2 (ht.month.1.trans hu.month.1.symm)
  exact ⟨hy, hm, (List.cons.inj h).2⟩

/-- Hour, minute, second and fraction are read from their text. -/
theorem timeText_injective (ht : t.Shaped p) (hu : u.Shaped q)
    (h : t.timeText punct = u.timeText punct) :
    t.hour = u.hour ∧ t.minute = u.minute ∧ t.second = u.second ∧ t.fraction = u.fraction := by
  obtain ⟨hh, h⟩ := List.append_inj h (ht.hour.1.trans hu.hour.1.symm)
  obtain ⟨hm, h⟩ := List.append_inj (List.cons.inj h).2 (ht.minute.1.trans hu.minute.1.symm)
  obtain ⟨hs, h⟩ := List.append_inj (List.cons.inj h).2 (ht.second.1.trans hu.second.1.symm)
  exact ⟨hh, hm, hs, fractionText_injective h⟩

/-- A date has ten characters. -/
theorem length_dateText (ht : t.Shaped p) : (t.dateText punct).length = 10 := by
  rw [dateText, List.length_append, List.length_cons, List.length_append, List.length_cons, ht.year.1,
    ht.month.1, ht.day.1]

/-- **A timestamp is determined by its text.** -/
theorem text_injective (ht : t.Shaped p) (hu : u.Shaped q) (h : t.text punct = u.text punct) :
    t = u := by
  obtain ⟨hdate, h⟩ := List.append_inj h ((length_dateText ht).trans (length_dateText hu).symm)
  obtain ⟨hy, hmo, hd⟩ := dateText_injective ht hu hdate
  obtain ⟨hh, hmi, hs, hf⟩ := timeText_injective ht hu (List.append_cancel_right (List.cons.inj h).2)
  cases t
  cases u
  simp only [Stamp.mk.injEq]
  exact ⟨hy, hmo, hd, hh, hmi, hs, hf⟩

end Stamp

end Text
end Vestrix
