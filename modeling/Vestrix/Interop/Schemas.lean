/-
# The two validators

`validate_stored_record` and `validate_schema` on the same JSON object.  They agree except
on timestamps that only one of them knows (`validators_agree_iff`): a Python `datetime` has
no year 0 and no leap second, and the pattern of the Python side takes other decimal digits
than those of ASCII, which its date parser does not look at behind the sixth of a fraction.
-/

import Vestrix.Interop.Records
import Vestrix.Forensics.Validation

namespace Vestrix
namespace Interop

open Text Rounding Json Outcome Record

/-- A timestamp that a `datetime` cannot hold. -/
def UnknownToPython (t : List Char) : Prop :=
  ∃ s : Stamp Char, Verifier.IsTimestamp s ∧ (digitsValue s.year = 0 ∨ digitsValue s.second = 60) ∧
    t = s.text id

/-- A timestamp with a digit behind the sixth of its fraction that is not an ASCII digit. -/
def UnknownToVerifier (t : List Char) : Prop :=
  ∃ s : Stamp Char, Python.IsTimestamp s ∧ (∃ c ∈ s.fraction.drop 6, c.isDigit = false) ∧ t = s.text id

/-- A timestamp that one of the two does not know. -/
def Disputed (t : List Char) : Prop := UnknownToPython t ∨ UnknownToVerifier t

/-- **The disputed timestamps are those on which the two validators differ.** -/
theorem disputed_iff {t : List Char} :
    Disputed t ↔ ¬ (Forensics.IsTimestamp t ↔ Verifier.IsTimestampText t) := by
  constructor
  · rintro (⟨s, hs, hbound, rfl⟩ | ⟨s, hs, ⟨c, hc, hdigit⟩, rfl⟩) hiff
    · obtain ⟨s', hs', htext⟩ := hiff.2 ⟨s, hs, rfl⟩
      obtain rfl := Stamp.text_injective hs.shaped hs'.shaped htext
      have hyear := hs'.year
      have hsecond := hs'.second
      omega
    · obtain ⟨s', hs', htext⟩ := hiff.1 ⟨s, hs, rfl⟩
      obtain rfl := Stamp.text_injective hs.shaped hs'.shaped htext
      rw [hs'.fraction c (List.mem_of_mem_drop hc)] at hdigit
      cases hdigit
  · intro hne
    rw [not_iff] at hne
    by_cases hpython : Forensics.IsTimestamp t
    · obtain ⟨s, hs, rfl⟩ := hpython
      refine Or.inr ⟨s, hs, ?_, rfl⟩
      by_contra hall
      push Not at hall
      refine hne.2 ⟨s, ⟨hs.shaped, hs.calendar, fun c hc => ?_⟩, rfl⟩ ⟨s, hs, rfl⟩
      rw [← List.take_append_drop 6 s.fraction, List.mem_append] at hc
      rcases hc with hc | hc
      · exact List.all_eq_true.1 hs.microseconds c hc
      · exact (Bool.not_eq_false _).mp (hall c hc)
    · obtain ⟨s, hs, rfl⟩ := hne.1 hpython
      refine Or.inl ⟨s, hs, ?_, rfl⟩
      by_contra hbound
      have hsecond := hs.calendar.second
      refine hpython ⟨s, ⟨hs.shaped, hs.calendar, by omega, by omega,
        fun c hc => Python.isDecimal_digit (hs.fraction c hc), ?_⟩, rfl⟩
      exact List.all_eq_true.2 fun c hc => hs.fraction c (List.mem_of_mem_take hc)

section

variable {object : Verifier.Object}

/-- What the Python validator accepts, as the verifier sees the object. -/
theorem validateStoredRecord_toPython (hobject : Verifier.Encodable (.object object)) {r : Python.Dict} :
    Forensics.validateStoredRecord (toPython (.object object)) = .ok r ↔
      toPython (.object object) = .object r ∧ ∃ shape : Shape,
        Record.Conforms Verifier.view Forensics.IsTimestamp id shape.recordFields (lookup object) := by
  obtain ⟨record, hrecord⟩ : ∃ record, toPython (.object object) = .object record := by
    rw [toPython, map_object]
    exact ⟨_, rfl⟩
  have hsame : SameValue (.object record) (.object object) := by rw [SameValue, hrecord]
  have hdistinct : (Json.object record).DistinctKeys := hrecord ▸ toPython_distinctKeys hobject.2
  rw [hrecord, Forensics.validateStoredRecord_eq_ok, Json.object.injEq]
  simp only [← hsame.conforms_iff hdistinct hobject.2 hobject.1, eq_comm]

/-- **The two validators accept the same objects**, and assign them the same version, unless an
object is a record but for a timestamp that one of them does not know.  The object is nested less deeply than
the interpreter's recursion limit. -/
theorem validators_agree_iff (hobject : Verifier.Encodable (.object object)) :
    (((∃ r, Forensics.validateStoredRecord (toPython (.object object)) = .ok r) ↔
        ∃ version, Verifier.validateSchema object = .ok version) ∧
      ∀ r version, Forensics.validateStoredRecord (toPython (.object object)) = .ok r →
        Verifier.validateSchema object = .ok version →
          Forensics.recordFormatVersion r = version ∧ (version = 1 ∨ version = 2)) ↔
    ¬ ∃ shape : Shape,
      Record.Conforms Verifier.view Disputed id shape.recordFields (lookup object) := by
  have hpython : (∃ r, Forensics.validateStoredRecord (toPython (.object object)) = .ok r) ↔
      ∃ shape : Shape,
        Record.Conforms Verifier.view Forensics.IsTimestamp id shape.recordFields (lookup object) := by
    simp only [validateStoredRecord_toPython hobject]
    constructor
    · rintro ⟨r, -, h⟩
      exact h
    · intro h
      rw [toPython, map_object]
      exact ⟨_, rfl, h⟩
  have hverifier : (∃ version, Verifier.validateSchema object = .ok version) ↔ ∃ shape : Shape,
      Record.Conforms Verifier.view Verifier.IsTimestampText id shape.recordFields (lookup object) := by
    simp only [Verifier.validateSchema_eq_ok]
    constructor
    · rintro ⟨_, shape, h, -⟩
      exact ⟨shape, h⟩
    · rintro ⟨shape, h⟩
      exact ⟨_, shape, h, rfl⟩
  -- the one timestamp of an object
  have hunique : ∀ {p : List Char → Prop} {shape : Shape} {t : List Char} {v : Verifier.Value},
      Record.Conforms Verifier.view p id shape.recordFields (lookup object) →
      lookup object "ts_utc".toList = some v → Verifier.view.text? v = some t → p t := by
    intro p shape t v hq hv ht
    obtain ⟨v', t', hv', ht', htime⟩ := hq.ts_utc
    obtain rfl := Option.some.inj (hv.symm.trans hv')
    obtain rfl := Option.some.inj (ht.symm.trans ht')
    exact htime
  rw [hpython, hverifier]
  constructor
  · rintro ⟨hiff, -⟩ ⟨shape, hdisputed⟩
    obtain ⟨v, t, hv, ht, htime⟩ := hdisputed.ts_utc
    refine disputed_iff.1 htime ⟨fun hp => ?_, fun hr => ?_⟩
    · obtain ⟨shape', hshape'⟩ := hiff.1 ⟨shape, hdisputed.of_timestamp fun v' t' hv' ht' _ => by
        obtain rfl := Option.some.inj (hv.symm.trans hv')
        obtain rfl := Option.some.inj (ht.symm.trans ht')
        exact hp⟩
      exact hunique hshape' hv ht
    · obtain ⟨shape', hshape'⟩ := hiff.2 ⟨shape, hdisputed.of_timestamp fun v' t' hv' ht' _ => by
        obtain rfl := Option.some.inj (hv.symm.trans hv')
        obtain rfl := Option.some.inj (ht.symm.trans ht')
        exact hr⟩
      exact hunique hshape' hv ht
  · intro hundisputed
    have hknown : ∀ {p : List Char → Prop} {shape : Shape},
        Record.Conforms Verifier.view p id shape.recordFields (lookup object) →
        ∀ v t, lookup object "ts_utc".toList = some v → Verifier.view.text? v = some t →
          (Forensics.IsTimestamp t ↔ Verifier.IsTimestampText t) := by
      intro p shape hp v t hv ht
      by_contra hne
      refine hundisputed ⟨shape, hp.of_timestamp fun v' t' hv' ht' _ => ?_⟩
      obtain rfl := Option.some.inj (hv.symm.trans hv')
      obtain rfl := Option.some.inj (ht.symm.trans ht')
      exact disputed_iff.2 hne
    refine ⟨⟨?_, ?_⟩, fun r version hr hversion => ?_⟩
    · rintro ⟨shape, hshape⟩
      exact ⟨shape, hshape.of_timestamp fun v t hv ht htime => (hknown hshape v t hv ht).1 htime⟩
    · rintro ⟨shape, hshape⟩
      exact ⟨shape, hshape.of_timestamp fun v t hv ht htime => (hknown hshape v t hv ht).2 htime⟩
    · obtain ⟨hrecord, shape, hshape⟩ := (validateStoredRecord_toPython hobject).1 hr
      obtain ⟨shape', hshape', rfl⟩ := Verifier.validateSchema_eq_ok.1 hversion
      obtain rfl := hshape.shape_unique Function.injective_id hshape'
      have hsame : SameValue (.object r) (.object object) := by rw [SameValue, hrecord]
      have hdistinct : (Json.object r).DistinctKeys := hrecord ▸ toPython_distinctKeys hobject.2
      have hconforms : Forensics.Conforms shape.recordFields r :=
        (hsame.conforms_iff hdistinct hobject.2 hobject.1).2 hshape
      refine ⟨hconforms.version, ?_⟩
      cases shape
      · exact Or.inl rfl
      · exact Or.inr rfl
      · exact Or.inr rfl

end

/-- A record with the given timestamp, as the verifier reads it. -/
def recordAt (timestamp : String) : Verifier.Object :=
  [("collector_schema_version".toList, .atom (.string "0.1".toList)),
    ("collector_sequence_number".toList, .atom (.number (.int 7 (by decide)))),
    ("event_type".toList, .atom (.string "ingestion_accepted".toList)),
    ("format_version".toList, .atom (.number (.int 2 (by decide)))),
    ("node_id".toList, .atom (.string "node-1".toList)),
    ("prev_hash".toList, .atom (.string genesis)),
    ("raw_csi_hash".toList, .atom (.string (List.replicate 64 'a'))),
    ("record_hash".toList, .atom (.string (List.replicate 64 'b'))),
    ("seq".toList, .atom (.number (.int 0 (by decide)))),
    ("signature".toList, .atom (.string (List.replicate 128 'c'))),
    ("ts_utc".toList, .atom (.string timestamp.toList))]

/-- The fields of an ordinary timestamp. -/
def ordinaryStamp : Stamp Char :=
  ⟨"2026".toList, "07".toList, "01".toList, "12".toList, "00".toList, "00".toList, []⟩

/-- The fields of the sample have their lengths. -/
theorem shaped_ordinary : ordinaryStamp.Shaped (·.isDigit = true) where
  year := ⟨rfl, List.all_eq_true.1 (by decide)⟩
  month := ⟨rfl, List.all_eq_true.1 (by decide)⟩
  day := ⟨rfl, List.all_eq_true.1 (by decide)⟩
  hour := ⟨rfl, List.all_eq_true.1 (by decide)⟩
  minute := ⟨rfl, List.all_eq_true.1 (by decide)⟩
  second := ⟨rfl, List.all_eq_true.1 (by decide)⟩

/-- The sample is on the calendar. -/
theorem onCalendar_ordinary : ordinaryStamp.OnCalendar where
  month := by decide
  day := by decide
  hour := by decide
  minute := by decide
  second := by decide

/-- The validators agree on a record with an ordinary timestamp. -/
theorem validators_agree_iff_sample :
    (∃ r, Forensics.validateStoredRecord (toPython (.object (recordAt "2026-07-01T12:00:00Z"))) = .ok r) ↔
      ∃ version, Verifier.validateSchema (recordAt "2026-07-01T12:00:00Z") = .ok version := by
  have hencodable : Verifier.Encodable (.object (recordAt "2026-07-01T12:00:00Z")) := by decide
  refine ((validators_agree_iff hencodable).2 fun ⟨shape, hshape⟩ => ?_).1
  obtain ⟨v, t, hv, ht, htime⟩ := hshape.ts_utc
  obtain rfl := Option.some.inj hv
  obtain rfl := Option.some.inj ht
  have htext : "2026-07-01T12:00:00Z".toList = ordinaryStamp.text id := rfl
  refine disputed_iff.1 htime ⟨fun _ => ⟨ordinaryStamp, ?_, htext⟩, fun _ => ⟨ordinaryStamp, ?_, htext⟩⟩
  · exact ⟨shaped_ordinary, onCalendar_ordinary, fun c hc => absurd hc List.not_mem_nil⟩
  · exact ⟨shaped_ordinary, onCalendar_ordinary, by decide, by decide,
      fun c hc => absurd hc List.not_mem_nil, rfl⟩

/-- **The validators do not agree on every object**: only Python accepts a digit that is not ASCII
behind the sixth of a fraction. -/
theorem validators_disagree : ¬ ∀ object : Verifier.Object, Verifier.Encodable (.object object) →
    ((∃ r, Forensics.validateStoredRecord (toPython (.object object)) = .ok r) ↔
      ∃ version, Verifier.validateSchema object = .ok version) := by
  intro h
  have hpython : (Forensics.validateStoredRecord
      (toPython (.object (recordAt "2026-07-01T12:00:00.000000\u0660Z")))).isOk = true := by decide +kernel
  have hverifier : (Verifier.validateSchema (recordAt "2026-07-01T12:00:00.000000\u0660Z")).isOk = false := by
    decide +kernel
  have hiff := h (recordAt "2026-07-01T12:00:00.000000\u0660Z") (by decide)
  cases hr : Forensics.validateStoredRecord
      (toPython (.object (recordAt "2026-07-01T12:00:00.000000\u0660Z"))) with
  | error e => rw [hr] at hpython; cases hpython
  | ok r =>
    obtain ⟨version, hversion⟩ := hiff.1 ⟨r, hr⟩
    rw [hversion] at hverifier
    cases hverifier

end Interop
end Vestrix
