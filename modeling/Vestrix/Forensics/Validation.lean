/-
# What the validator of `forensics` accepts

Each check of `_format.py` succeeds on the values that one `Kind` of field may hold
(`requireHash_eq_ok` and the like), and `validate_event` and `validate_stored_record`
succeed on the dictionaries that conform to a `Shape` (`validateStoredRecord_eq_ok`).
Nothing else of the two functions is used after this module.
-/

import Vestrix.Forensics.Format
import Vestrix.Record.Schema
import Mathlib.Data.Rat.Cast.Order

namespace Vestrix
namespace Forensics

open Text Rounding Json Outcome Python Record

/-- The values that a record may hold. -/
def PermittedAtom : Atom → Prop
  | .int n => -2 ^ 63 ≤ n ∧ n < 2 ^ 63
  | .float (.finite _) => True
  | .float _ => False
  | .str s => (scalars? s).isSome = true
  | .other _ => False
  | _ => True

/-- A value of permitted atoms, with keys that have no surrogates. -/
abbrev Permitted : Value → Prop :=
  Json.Forall PermittedAtom fun ks => ∀ k ∈ ks, (scalars? k).isSome = true

/-- The values of Python, as the schema sees them. -/
def view : View Value where
  text?
    | .atom (.str s) => scalars? s
    | _ => none
  integer?
    | .atom (.int n) => some n
    | _ => none
  number?
    | .atom (.int n) => some n
    | .atom (.float (.finite x)) => some x.value
    | _ => none
  Permitted := Permitted

/-- The texts that the check of `ts_utc` lets through. -/
def IsTimestamp (t : List Char) : Prop := ∃ s : Stamp Char, Python.IsTimestamp s ∧ t = s.text id

/-- What a field of a Python dictionary may hold. -/
abbrev Holds (kind : Kind) (v : Value) : Prop := kind.Holds view IsTimestamp v

/-! ### The checks of single values -/

section Checks

variable {v : Value} {u : Unit}

/-- A text is taken just if it has scalar values only. -/
theorem requireUnicodeScalars_eq_ok {s : Str} {path : Path} :
    requireUnicodeScalars s path = .ok u ↔ (scalars? s).isSome = true := require_eq_ok

/-- A text has scalar values only just if it is read as characters. -/
theorem scalars?_isSome {s : Str} : (scalars? s).isSome = true ↔ ∃ t, scalars? s = some t :=
  Option.isSome_iff_exists

/-- What is not a string is no text. -/
theorem text_eq_none (hv : ∀ s, v ≠ .atom (.str s)) : view.text? v = none := by
  simp only [view]

/-- `_require_nonempty_string` takes just the texts that are not empty. -/
theorem requireNonemptyString_eq_ok {field : Str} :
    requireNonemptyString v field = .ok u ↔ Holds .nonempty v := by
  unfold requireNonemptyString
  split
  · rename_i s
    simp only [bind_eq_ok, require_eq_ok, requireUnicodeScalars_eq_ok, exists_and_left, exists_const]
    show _ ↔ ∃ t, scalars? s = some t ∧ t ≠ []
    rw [scalars?_isSome]
    constructor
    · rintro ⟨hs, t, ht⟩
      refine ⟨t, ht, ?_⟩
      rintro rfl
      exact hs (scalars?_eq_some_iff.1 ht)
    · rintro ⟨t, ht, hne⟩
      refine ⟨?_, t, ht⟩
      rintro rfl
      exact hne (Option.some.inj ht).symm
  · rename_i hv
    refine ⟨fun h => (by cases h), ?_⟩
    rintro ⟨t, ht, -⟩
    rw [text_eq_none hv] at ht
    cases ht

/-- A text is hexadecimal just if it has `n` lower-case digits. -/
theorem isHex_eq_true {n : ℕ} {s : Str} : isHex n s = true ↔
    ∃ t, scalars? s = some t ∧ t.length = n ∧ ∀ c ∈ t, isLowerHex c = true := by
  rw [isHex, Bool.and_eq_true, beq_iff_eq, List.all_eq_true]
  constructor
  · rintro ⟨hlen, hall⟩
    have hscalars : ∀ s : Str, (∀ c ∈ s, c.scalar?.any isLowerHex = true) → ∃ t, s = ofChars t ∧
        ∀ c ∈ t, isLowerHex c = true := by
      intro s
      induction s with
      | nil => exact fun _ => ⟨[], rfl, fun c hc => absurd hc List.not_mem_nil⟩
      | cons c s ih =>
        intro h
        obtain ⟨hc, hs⟩ := List.forall_mem_cons.1 h
        obtain ⟨t, rfl, ht⟩ := ih hs
        cases c with
        | surrogate u => cases hc
        | scalar c => exact ⟨c :: t, rfl, List.forall_mem_cons.2 ⟨hc, ht⟩⟩
    obtain ⟨t, rfl, ht⟩ := hscalars s hall
    exact ⟨t, scalars?_ofChars t, by rwa [ofChars, List.length_map] at hlen, ht⟩
  · rintro ⟨t, ht, hlen, hall⟩
    rw [scalars?_eq_some_iff.1 ht]
    exact ⟨(List.length_map _).trans hlen, List.forall_mem_map.2 hall⟩

/-- `_require_hash` takes just 64 hexadecimal digits. -/
theorem requireHash_eq_ok {field : Str} : requireHash v field = .ok u ↔ Holds (.hex 64) v := by
  unfold requireHash
  split
  · exact require_eq_ok.trans isHex_eq_true
  · rename_i hv
    refine ⟨fun h => (nomatch h), ?_⟩
    rintro ⟨t, ht, -⟩
    rw [text_eq_none hv] at ht
    cases ht

/-- A signature is taken just if it is 128 hexadecimal digits. -/
theorem validateSignature_eq_ok : validateSignature v = .ok u ↔ Holds (.hex 128) v := by
  unfold validateSignature
  split
  · exact require_eq_ok.trans isHex_eq_true
  · rename_i hv
    refine ⟨fun h => (nomatch h), ?_⟩
    rintro ⟨t, ht, -⟩
    rw [text_eq_none hv] at ht
    cases ht

/-- A counter is taken just if it is from 0 to `2 ^ 63 - 1`. -/
theorem requireCounter_eq_ok {e : FormatError} : requireCounter v e = .ok u ↔ Holds .counter v := by
  unfold requireCounter
  split
  · rename_i n
    rw [require_eq_ok]
    exact ⟨fun h => ⟨n, rfl, h⟩, fun ⟨m, hm, h⟩ => Option.some.inj hm ▸ h⟩
  · rename_i hv
    refine ⟨fun h => (nomatch h), ?_⟩
    rintro ⟨n, hn, -⟩
    simp only [view] at hn
    cases hn

/-- The integers 0 and 1 fit a float. -/
theorem nearest_lt_infinite_of_unit {n : ℤ} (h : 0 ≤ n ∧ n ≤ 1) : nearest n.natAbs 1 < infinite := by
  obtain rfl | rfl : n = 0 ∨ n = 1 := by omega
  · decide +kernel
  · decide +kernel

/-- A confidence is taken just if it is a number from 0 to 1. -/
theorem validateConfidence_eq_ok : validateConfidence v = .ok u ↔ Holds .confidence v := by
  unfold validateConfidence
  split
  · rename_i n
    have hunit : ((0 : ℚ) ≤ n ∧ (n : ℚ) ≤ 1) ↔ (0 ≤ n ∧ n ≤ 1) := by
      rw [Int.cast_nonneg_iff, ← Int.cast_one, Int.cast_le]
    show _ ↔ ∃ q : ℚ, some (n : ℚ) = some q ∧ 0 ≤ q ∧ q ≤ 1
    simp only [Option.some.injEq, exists_eq_left', hunit, bind_eq_ok, isFinite, require_eq_ok, isUnit,
      decide_eq_true_eq]
    constructor
    · rintro ⟨b, -, -, h⟩
      exact h
    · intro h
      exact ⟨true, if_pos (nearest_lt_infinite_of_unit h), rfl, h⟩
  · rename_i x
    cases x with
    | finite x =>
      show _ ↔ ∃ q : ℚ, some x.value = some q ∧ 0 ≤ q ∧ q ≤ 1
      simp only [Option.some.injEq, exists_eq_left', Binary64.value_mem_unit, bind_eq_ok, isFinite,
        require_eq_ok, isUnit, Except.ok.injEq, true_and, Bool.and_eq_true, Bool.or_eq_true, beq_iff_eq,
        Bool.not_eq_true', decide_eq_true_eq]
    | infinite b =>
      constructor
      · intro h
        obtain ⟨b, hb, h⟩ := bind_eq_ok.1 h
        obtain rfl := Except.ok.inj hb
        exact absurd (require_eq_ok.1 h).1 (by decide)
      · rintro ⟨q, hq, -⟩
        cases hq
    | nan =>
      constructor
      · intro h
        obtain ⟨b, hb, h⟩ := bind_eq_ok.1 h
        obtain rfl := Except.ok.inj hb
        exact absurd (require_eq_ok.1 h).1 (by decide)
      · rintro ⟨q, hq, -⟩
        cases hq
  · rename_i hint hfloat
    refine ⟨fun h => (by cases h), ?_⟩
    rintro ⟨q, hq, -⟩
    simp only [view] at hq
    split at hq
    · exact absurd rfl (hint _)
    · exact absurd rfl (hfloat _)
    · cases hq

/-- A timestamp is taken just if it is one of the format, on the calendar. -/
theorem validateTimestamp_eq_ok : validateTimestamp v = .ok u ↔ Holds .timestamp v := by
  unfold validateTimestamp
  split
  · rename_i s
    have hparse : validateTimestamp (.atom (.str s)) = .ok u ↔
        matchesRfc3339Utc s = true ∧ ∃ d, parseTimestamp s = some d ∧ d.utcoffset = 0 := by
      simp only [validateTimestamp, bind_eq_ok, require_eq_ok, exists_and_left, exists_const]
      refine and_congr_right fun _ => ?_
      cases parseTimestamp s with
      | none =>
        refine ⟨fun h => (by cases h), ?_⟩
        rintro ⟨d, hd, -⟩
        cases hd
      | some d => simp only [require_eq_ok, Option.some.injEq, exists_eq_left']
    refine hparse.trans (isTimestamp_iff.trans ?_)
    show _ ↔ ∃ t, scalars? s = some t ∧ IsTimestamp t
    constructor
    · rintro ⟨t, ht, rfl⟩
      exact ⟨_, scalars?_ofChars _, t, ht, rfl⟩
    · rintro ⟨_, hs, t, ht, rfl⟩
      exact ⟨t, ht, scalars?_eq_some_iff.1 hs⟩
  · rename_i hv
    refine ⟨fun h => (by cases h), ?_⟩
    rintro ⟨t, ht, -⟩
    rw [text_eq_none hv] at ht
    cases ht

/-- An atom is taken just if it is permitted. -/
theorem validateJsonAtom_eq_ok {a : Atom} {path : Path} :
    validateJsonAtom a path = .ok u ↔ PermittedAtom a := by
  cases a with
  | none => exact ⟨fun _ => trivial, fun _ => rfl⟩
  | bool b => exact ⟨fun _ => trivial, fun _ => rfl⟩
  | int n => exact require_eq_ok
  | float x =>
    cases x with
    | finite x => exact ⟨fun _ => trivial, fun _ => rfl⟩
    | infinite b => exact ⟨fun h => (nomatch h), fun h => h.elim⟩
    | nan => exact ⟨fun h => (nomatch h), fun h => h.elim⟩
  | str s => exact requireUnicodeScalars_eq_ok
  | other name => exact ⟨fun h => (nomatch h), fun h => h.elim⟩

/-- A list is taken just if each item is. -/
theorem validateItems_eq_ok {α : Type} {check : α → Path → Except Exc Unit} {p : α → Prop}
    {xs : List α} (h : ∀ x ∈ xs, ∀ path u, check x path = .ok u ↔ p x) {path : Path} {i : ℕ} :
    validateItems path i (xs.map check) = .ok u ↔ ∀ x ∈ xs, p x := by
  induction xs generalizing i with
  | nil => exact ⟨fun _ x hx => absurd hx List.not_mem_nil, fun _ => rfl⟩
  | cons x xs ih =>
    obtain ⟨hx, hxs⟩ := List.forall_mem_cons.1 h
    rw [List.map_cons, validateItems, List.forall_mem_cons]
    simp only [bind_eq_ok, hx, ih hxs, exists_and_left, exists_const]

/-- An object is taken just if its keys are texts and each member is taken. -/
theorem validateMembers_eq_ok {α : Type} {check : α → Path → Except Exc Unit} {p : α → Prop}
    {ms : List (Str × α)} (h : ∀ m ∈ ms, ∀ path u, check m.2 path = .ok u ↔ p m.2) {path : Path} :
    validateMembers path (ms.map (Prod.map id check)) = .ok u ↔
      (∀ k ∈ ms.map Prod.fst, (scalars? k).isSome = true) ∧ ∀ m ∈ ms, p m.2 := by
  induction ms with
  | nil =>
    exact ⟨fun _ => ⟨fun k hk => absurd hk List.not_mem_nil, fun m hm => absurd hm List.not_mem_nil⟩,
      fun _ => rfl⟩
  | cons m ms ih =>
    obtain ⟨hm, hms⟩ := List.forall_mem_cons.1 h
    obtain ⟨k, x⟩ := m
    rw [List.map_cons, List.map_cons, Prod.map_apply, validateMembers, List.forall_mem_cons,
      List.forall_mem_cons]
    simp only [bind_eq_ok, requireUnicodeScalars_eq_ok, id_eq, hm, ih hms, exists_and_left, exists_const]
    tauto

/-- A value is taken just if all of it is permitted. -/
theorem validateJsonValue_eq_ok {path : Path} : validateJsonValue v path = .ok u ↔ Holds .json v := by
  show _ ↔ Permitted v
  induction v using ind generalizing path u with
  | atom a =>
    rw [validateJsonValue, fold_atom, Permitted, forall_atom]
    exact validateJsonAtom_eq_ok
  | array xs ih =>
    rw [validateJsonValue, fold_array, ← validateJsonValue, Permitted, forall_array]
    exact validateItems_eq_ok fun x hx path u => ih x hx
  | object ms ih =>
    rw [validateJsonValue, fold_object, ← validateJsonValue, Permitted, forall_object]
    exact validateMembers_eq_ok fun m hm path u => ih m hm

end Checks

/-! ### Events -/

/-- A dictionary conforms to the fields of a kind of event or record. -/
abbrev Conforms (fields : List Field) (d : Dict) : Prop :=
  Record.Conforms view IsTimestamp ofChars fields d.get?

/-- The fields that `_event_fields` returns for a kind of event. -/
def fieldsOf : Shape → List Str
  | .v1 => v1EventFields
  | .ingestion => v2IngestionEventFields
  | .classification => v2ClassificationEventFields

/-- What `_event_fields` looks at. -/
def Declares (event : Dict) : Shape → Prop
  | .v1 => event.get? (lit "format_version") = none ∧ event.get? (lit "event_type") = none
  | .ingestion => event.get? (lit "format_version") = some (.atom (.int 2)) ∧
      event.get? (lit "event_type") = some (.atom (.str (lit "ingestion_accepted")))
  | .classification => event.get? (lit "format_version") = some (.atom (.int 2)) ∧
      event.get? (lit "event_type") = some (.atom (.str (lit "classification_decision")))

/-- The fields of a shape are those that the format names. -/
theorem mem_fieldsOf (shape : Shape) (k : Str) :
    k ∈ fieldsOf shape ↔ ∃ f ∈ shape.eventFields, k = ofChars f.1 := by
  have hsub : ∀ k ∈ fieldsOf shape, k ∈ shape.eventFields.map fun f => ofChars f.1 := by
    cases shape <;> decide
  have hsup : ∀ f ∈ shape.eventFields, ofChars f.1 ∈ fieldsOf shape := by
    cases shape <;> decide
  constructor
  · intro h
    obtain ⟨f, hf, hk⟩ := List.mem_map.1 (hsub k h)
    exact ⟨f, hf, hk.symm⟩
  · rintro ⟨f, hf, rfl⟩
    exact hsup f hf

/-- A field is missing just if its key is. -/
theorem keys_eq_none {d : Dict} {key : Str} : d.get? key = none ↔ key ∉ d.keys := lookup_eq_none

/-- A field is there just if its key is. -/
theorem keys_isSome {d : Dict} {key : Str} : (∃ v, d.get? key = some v) ↔ key ∈ d.keys := lookup_isSome

/-- **`_event_fields` returns the fields of the shape** that the event declares. -/
theorem eventFields_eq_ok {event : Dict} {fields : List Str} :
    eventFields event = .ok fields ↔ ∃ shape, Declares event shape ∧ fields = fieldsOf shape := by
  constructor
  · intro h
    unfold eventFields at h
    split at h
    · rename_i hversion
      split_ifs at h with htype
      exact ⟨.v1, ⟨hversion, keys_eq_none.2 htype⟩, (Except.ok.inj h).symm⟩
    · rename_i n hversion
      split_ifs at h with hn
      obtain rfl : n = 2 := not_not.1 hn
      split at h
      · rename_i s htype
        split_ifs at h with hs hs'
        · exact ⟨.ingestion, ⟨hversion, hs ▸ htype⟩, (Except.ok.inj h).symm⟩
        · exact ⟨.classification, ⟨hversion, hs' ▸ htype⟩, (Except.ok.inj h).symm⟩
      · cases h
    · cases h
  · rintro ⟨shape, h, rfl⟩
    cases shape with
    | v1 =>
      rw [eventFields, h.1]
      exact if_neg (keys_eq_none.1 h.2)
    | ingestion =>
      rw [eventFields, h.1]
      simp only [h.2]
      rfl
    | classification =>
      rw [eventFields, h.1]
      simp only [h.2]
      rfl

/-- The version of a record is the one that its event type says. -/
theorem recordFormatVersion_eq {event : Dict} {shape : Shape} (h : Declares event shape) :
    recordFormatVersion event = shape.version := by
  cases shape with
  | v1 => rw [recordFormatVersion, h.1]; rfl
  | ingestion => rw [recordFormatVersion, h.1]; rfl
  | classification => rw [recordFormatVersion, h.1]; rfl

/-- A field is fetched just if it is there. -/
theorem fetch_eq_ok {d : Dict} {key : Str} {v : Value} : fetch d key = .ok v ↔ d.get? key = some v :=
  orError_eq_ok

/-- A field is there, and passes its check. -/
theorem checkField_eq_ok {event : Dict} {check : Value → Str → Except Exc Unit} {field : Str}
    {u : Unit} : checkField event check field = .ok u ↔
      ∃ v, event.get? field = some v ∧ check v field = .ok u := by
  rw [checkField, bind_eq_ok]
  simp only [fetch_eq_ok]

/-- An event is a classification just if its type is not the one of an ingestion. -/
theorem isClassification_eq {event : Dict} {shape : Shape} (h : Declares event shape) :
    isClassification event = .ok (decide (shape ≠ .ingestion)) := by
  rw [isClassification, recordFormatVersion_eq h]
  cases shape with
  | v1 => rfl
  | ingestion => rw [fetch, h.2]; rfl
  | classification => rw [fetch, h.2]; rfl

/-- A field is there, with a value it may hold. -/
def Has (d : Dict) (f : Field) : Prop := ∃ v, d.get? (ofChars f.1) = some v ∧ Holds f.2 v

/-- The values of a classification are taken just if its fields are. -/
theorem validateEventValues_decision {event : Dict} {shape : Shape} (h : Declares event shape)
    (hshape : shape ≠ .ingestion) {u : Unit} :
    validateEventValues event = .ok u ↔ ∀ f ∈ commonFields ++ decisionFields, Has event f := by
  have hfields := eventFields_eq_ok.2 ⟨shape, h, rfl⟩
  rw [validateEventValues, hfields, ok_bind, isClassification_eq h, decide_eq_true hshape]
  simp only [bind_eq_ok, ok_bind, checkField_eq_ok, fetch_eq_ok, requireNonemptyString_eq_ok,
    requireHash_eq_ok, validateTimestamp_eq_ok, validateConfidence_eq_ok, validateJsonValue_eq_ok,
    exists_const, if_true, ← and_assoc, exists_and_right]
  simp only [commonFields, decisionFields, List.cons_append, List.nil_append, List.forall_mem_cons,
    List.not_mem_nil, false_imp_iff, implies_true, and_true]
  constructor
  · rintro ⟨⟨⟨⟨⟨⟨⟨⟨hnode, hts⟩, hcsi⟩, hmodel⟩, hclass⟩, hfeatures⟩, hconfig⟩, hconfidence⟩, hshap⟩
    exact ⟨hts, hnode, hcsi, hfeatures, hmodel, hconfig, hclass, hconfidence, hshap⟩
  · rintro ⟨hts, hnode, hcsi, hfeatures, hmodel, hconfig, hclass, hconfidence, hshap⟩
    exact ⟨⟨⟨⟨⟨⟨⟨⟨hnode, hts⟩, hcsi⟩, hmodel⟩, hclass⟩, hfeatures⟩, hconfig⟩, hconfidence⟩, hshap⟩

/-- The values of an ingestion are taken just if its fields are. -/
theorem validateEventValues_collector {event : Dict} (h : Declares event .ingestion) {u : Unit} :
    validateEventValues event = .ok u ↔ ∀ f ∈ commonFields ++ collectorFields, Has event f := by
  have hfields := eventFields_eq_ok.2 ⟨.ingestion, h, rfl⟩
  rw [validateEventValues, hfields, ok_bind, isClassification_eq h, decide_eq_false (not_not.2 rfl)]
  simp only [bind_eq_ok, ok_bind, checkField_eq_ok, fetch_eq_ok, requireNonemptyString_eq_ok,
    requireHash_eq_ok, validateTimestamp_eq_ok, requireCounter_eq_ok, exists_const, Bool.false_eq_true,
    if_false, ← and_assoc, exists_and_right]
  simp only [commonFields, collectorFields, List.cons_append, List.nil_append, List.forall_mem_cons,
    List.not_mem_nil, false_imp_iff, implies_true, and_true]
  constructor
  · rintro ⟨⟨⟨⟨hnode, hts⟩, hcsi⟩, hschema⟩, hsequence⟩
    exact ⟨hts, hnode, hcsi, hschema, hsequence⟩
  · rintro ⟨hts, hnode, hcsi, hschema, hsequence⟩
    exact ⟨⟨⟨⟨hnode, hts⟩, hcsi⟩, hschema⟩, hsequence⟩

/-- **What `_validate_event_values` accepts**, once the kind of event is known. -/
theorem validateEventValues_eq_ok {event : Dict} {shape : Shape} (h : Declares event shape) {u : Unit} :
    validateEventValues event = .ok u ↔ ∀ f ∈ shape.eventFields, Has event f := by
  have hversion : ∀ word : String, event.get? (lit "format_version") = some (.atom (.int 2)) →
      event.get? (lit "event_type") = some (.atom (.str (lit word))) →
        ∀ f ∈ versionFields word, Has event f := by
    intro word hv ht f hf
    rcases List.mem_cons.1 hf with rfl | hf
    · exact ⟨_, hv, rfl⟩
    · rw [List.mem_singleton.1 hf]
      exact ⟨_, ht, scalars?_ofChars _⟩
  cases shape with
  | v1 => exact validateEventValues_decision h (by decide)
  | ingestion =>
    refine (validateEventValues_collector h).trans (Iff.trans ?_ List.forall_mem_append.symm)
    exact ⟨fun hr => ⟨hversion _ h.1 h.2, hr⟩, fun hr => hr.2⟩
  | classification =>
    refine (validateEventValues_decision h (by decide)).trans (Iff.trans ?_ List.forall_mem_append.symm)
    exact ⟨fun hr => ⟨hversion _ h.1 h.2, hr⟩, fun hr => hr.2⟩

/-- A value that is read as an integer is that integer. -/
theorem eq_int {v : Value} {n : ℤ} (h : view.integer? v = some n) : v = .atom (.int n) := by
  simp only [view] at h
  split at h
  · rw [Option.some.inj h]
  · cases h

/-- A value that is read as a text is that string. -/
theorem eq_str {v : Value} {t : List Char} (h : view.text? v = some t) :
    v = .atom (.str (ofChars t)) := by
  simp only [view] at h
  split at h
  · rw [scalars?_eq_some_iff.1 h]
  · cases h

/-- An event with the fields of a shape declares it. -/
theorem Conforms.declares {event : Dict} {shape : Shape} (h : Conforms shape.eventFields event) :
    Declares event shape := by
  have hversion : ∀ word, ("format_version".toList, Kind.version) ∈ shape.eventFields →
      ("event_type".toList, Kind.word word) ∈ shape.eventFields →
        event.get? (lit "format_version") = some (.atom (.int 2)) ∧
          event.get? (lit "event_type") = some (.atom (.str (ofChars word))) := by
    intro word hv ht
    obtain ⟨v, hv, htwo⟩ := h.field hv
    obtain ⟨t, ht, hword⟩ := h.field ht
    exact ⟨hv.trans (congrArg _ (eq_int htwo)), ht.trans (congrArg _ (eq_str hword))⟩
  cases shape with
  | v1 => exact ⟨h.absent ofChars_injective (by decide), h.absent ofChars_injective (by decide)⟩
  | ingestion => exact hversion _ (by decide) (by decide)
  | classification => exact hversion _ (by decide) (by decide)

/-- **What `validate_event` accepts**: the events of one of the three kinds. -/
theorem validateEvent_eq_ok {event e : Dict} : validateEvent (.object event) = .ok e ↔
    e = event ∧ ∃ shape : Shape, Conforms shape.eventFields event := by
  have hbody : ∀ shape, Declares event shape → (validateEvent (.object event) = .ok e ↔
      (∀ k ∈ fieldsOf shape, k ∈ Dict.keys event) ∧ (∀ k ∈ Dict.keys event, k ∈ fieldsOf shape) ∧
        (∀ f ∈ shape.eventFields, Has event f) ∧ event = e) := by
    intro shape h
    have hfields := eventFields_eq_ok.2 ⟨shape, h, rfl⟩
    rw [validateEvent, hfields, ok_bind]
    simp only [bind_eq_ok, require_eq_ok, List.filter_eq_nil_iff, decide_eq_true_eq, not_not,
      validateEventValues_eq_ok h, exists_and_left, exists_const, pure, Except.pure, Except.ok.injEq]
  constructor
  · intro hok
    obtain ⟨fields, hfields, -⟩ := bind_eq_ok.1 hok
    obtain ⟨shape, h, rfl⟩ := eventFields_eq_ok.1 hfields
    obtain ⟨-, hknown, hholds, rfl⟩ := (hbody shape h).1 hok
    exact ⟨rfl, shape, fun k v hv => (mem_fieldsOf shape k).1 (hknown k (keys_isSome.1 ⟨v, hv⟩)), hholds⟩
  · rintro ⟨rfl, shape, h⟩
    refine (hbody shape h.declares).2 ⟨fun k hk => ?_, fun k hk => ?_, h.holds, rfl⟩
    · obtain ⟨f, hf, rfl⟩ := (mem_fieldsOf shape k).1 hk
      obtain ⟨v, hv, -⟩ := h.holds f hf
      exact keys_isSome.1 ⟨v, hv⟩
    · obtain ⟨v, hv⟩ := keys_isSome.2 hk
      exact (mem_fieldsOf shape k).2 (h.known k v hv)

/-! ### Records -/

/-- The event of a record has its fields, without the managed ones. -/
theorem get?_eventOf (record : Dict) (k : Str) :
    (eventOf record).get? k = if k ∈ managedFields then none else record.get? k := by
  rw [Dict.get?, eventOf, lookup_filter (q := fun k => decide (k ∉ managedFields)) fun _ => rfl]
  by_cases hk : k ∈ managedFields
  · rw [if_pos hk, decide_eq_false (not_not.2 hk)]
    rfl
  · rw [if_neg hk, decide_eq_true hk]
    rfl

/-- A record conforms when its event does and the fields of the chain are there. -/
theorem conforms_record {record : Dict} {shape : Shape} : Conforms shape.recordFields record ↔
    Conforms shape.eventFields (eventOf record) ∧ ∀ f ∈ chainFields, Has record f := by
  have hmanaged : ∀ k, k ∈ chainFields.map (ofChars ∘ Prod.fst) ↔ k ∈ managedFields := fun _ => Iff.rfl
  have hdisjoint : ∀ f ∈ shape.eventFields, f.1 ∉ chainFields.map Prod.fst := by
    cases shape <;> decide
  refine (conforms_append ofChars_injective hdisjoint).trans ?_
  simp only [hmanaged, ← get?_eventOf]
  rfl

/-- **What `validate_stored_record` accepts**: the records of one of the three kinds. -/
theorem validateStoredRecord_eq_ok {record r : Dict} : validateStoredRecord (.object record) = .ok r ↔
    r = record ∧ ∃ shape : Shape, Conforms shape.recordFields record := by
  have hevent : (∃ e, validateEvent (.object (eventOf record)) = .ok e) ↔
      ∃ shape : Shape, Conforms shape.eventFields (eventOf record) := by
    simp only [validateEvent_eq_ok, exists_eq_left]
  have hmissing : (∀ f ∈ chainFields, Has record f) → managedFields.filter (· ∉ Dict.keys record) = [] := by
    intro h
    refine List.filter_eq_nil_iff.2 fun k hk => ?_
    obtain ⟨f, hf, rfl⟩ := List.mem_map.1 (show k ∈ chainFields.map (ofChars ∘ Prod.fst) from hk)
    obtain ⟨v, hv, -⟩ := h f hf
    simpa using keys_isSome.1 ⟨v, hv⟩
  have hchain : (∀ f ∈ chainFields, Has record f) ↔ Has record ("seq".toList, .counter) ∧
      Has record ("prev_hash".toList, .hex 64) ∧ Has record ("record_hash".toList, .hex 64) ∧
      Has record ("signature".toList, .hex 128) := by
    simp only [chainFields, List.forall_mem_cons, List.not_mem_nil, false_imp_iff, implies_true, and_true]
  simp only [conforms_record, exists_and_right]
  rw [← hevent, validateStoredRecord]
  simp only [bind_eq_ok, require_eq_ok, checkField_eq_ok, fetch_eq_ok, requireCounter_eq_ok,
    requireHash_eq_ok, validateSignature_eq_ok, exists_and_left, exists_const, pure, Except.pure,
    Except.ok.injEq]
  constructor
  · rintro ⟨-, e, he, seq, hseq, hcounter, hprev, hhash, signature, hsignature, hhex, rfl⟩
    exact ⟨rfl, ⟨e, he⟩, hchain.2 ⟨⟨seq, hseq, hcounter⟩, hprev, hhash, signature, hsignature, hhex⟩⟩
  · rintro ⟨rfl, ⟨e, he⟩, hfields⟩
    obtain ⟨⟨seq, hseq, hcounter⟩, hprev, hhash, signature, hsignature, hhex⟩ := hchain.1 hfields
    exact ⟨hmissing hfields, e, he, seq, hseq, hcounter, hprev, hhash, signature, hsignature, hhex, rfl⟩

/-- The version of a record is that of its shape. -/
theorem Conforms.version {record : Dict} {shape : Shape} (h : Conforms shape.recordFields record) :
    recordFormatVersion record = shape.version := by
  have hget : (eventOf record).get? (lit "format_version") = record.get? (lit "format_version") :=
    (get?_eventOf record _).trans (if_neg (by decide))
  rw [← recordFormatVersion_eq (conforms_record.1 h).1.declares, recordFormatVersion,
    recordFormatVersion, hget]

/-! ### Members in another order -/

/-- Sorting the keys leaves a value permitted. -/
theorem permitted_sorted {v : Value} (h : Permitted v) : Permitted v.sorted :=
  forall_sorted (fun hperm hks k hk => hks k (hperm.mem_iff.2 hk)) h

/-- Sorting the members of a value does not change which fields may hold it. -/
theorem holds_sorted {kind : Kind} {v : Value} (h : Holds kind v) : Holds kind v.sorted := by
  cases v with
  | atom a => exact h
  | array xs =>
    rw [sorted_array]
    cases kind with
    | json => rw [← sorted_array]; exact permitted_sorted h
    | _ => exact h
  | object ms =>
    rw [sorted_object]
    cases kind with
    | json => rw [← sorted_object]; exact permitted_sorted h
    | _ => exact h

/-- Sorting the keys leaves the fields of a shape. -/
theorem Conforms.sorted {fields : List Field} {d e : Dict} (hkeys : d.keys.Nodup)
    (he : (object d).sorted = object e) (h : Conforms fields d) : Conforms fields e where
  known k v hv := by
    rw [Dict.get?, lookup_sorted hkeys he, ← Dict.get?] at hv
    obtain ⟨w, hw, rfl⟩ := Option.map_eq_some_iff.1 hv
    exact h.known k w hw
  holds f hf := by
    obtain ⟨v, hv, hholds⟩ := h.holds f hf
    refine ⟨v.sorted, ?_, holds_sorted hholds⟩
    rw [Dict.get?, lookup_sorted hkeys he, ← Dict.get?, hv]
    rfl

/-! ### The bytes of a value -/

/-- A permitted value can be written. -/
theorem encodable_of_permitted {p : Value} (h : Permitted p) : Encodable p := by
  refine h.imp (fun a ha => ?_) fun _ _ => trivial
  cases a with
  | int n =>
    have hn : -2 ^ 63 ≤ n ∧ n < 2 ^ 63 := ha
    have hlt : n.natAbs < 10 ^ maxStrDigits :=
      lt_of_lt_of_le (show n.natAbs < 10 ^ 19 by omega) (Nat.pow_le_pow_right (by decide) (by decide))
    exact (Nat.length_toDigits_le_iff (by decide) (by decide)).2 hlt
  | float x =>
    cases x with
    | finite x => trivial
    | infinite b => exact ha.elim
    | nan => exact ha.elim
  | other n => exact ha.elim
  | _ => trivial

/-- A value has canonical bytes just if it can be written, and they are the UTF-8 of its text. -/
theorem canonicalJsonBytes_eq_ok {p : Value} {bytes : List UInt8} :
    canonicalJsonBytes p = .ok bytes ↔
      Encodable p ∧ encodeUtf8 (text p) = some bytes := by
  rw [canonicalJsonBytes]
  cases h : Python.dumps p with
  | error e =>
    refine ⟨fun h' => (nomatch h'), ?_⟩
    rintro ⟨henc, -⟩
    rw [Python.dumps_eq_ok.2 ⟨henc, rfl⟩] at h
    cases h
  | ok t =>
    obtain ⟨henc, rfl⟩ := Python.dumps_eq_ok.1 h
    simp only [orError_eq_ok]
    exact ⟨fun h' => ⟨henc, h'⟩, fun h' => h'.2⟩

/-- The bytes of a value do not depend on the order of its members. -/
theorem canonicalJsonBytes_congr {p q : Value} (h : p.sorted = q.sorted) {bytes : List UInt8}
    (hp : canonicalJsonBytes p = .ok bytes) : canonicalJsonBytes q = .ok bytes := by
  obtain ⟨hencodable, hbytes⟩ := canonicalJsonBytes_eq_ok.1 hp
  have hsorted : Encodable q.sorted := h ▸ forall_sorted (fun _ _ => trivial) hencodable
  refine canonicalJsonBytes_eq_ok.2 ⟨forall_of_sorted (fun _ _ => trivial) hsorted, ?_⟩
  rwa [text, ← h, ← text]

/-- What a field may hold is permitted. -/
theorem permitted_of_holds {kind : Kind} {v : Value} (h : Holds kind v) : Permitted v := by
  have hstr : ∀ {t}, view.text? v = some t → Permitted v := fun {t} ht => by
    rw [eq_str ht]
    exact .atom (Option.isSome_iff_exists.2 ⟨t, scalars?_ofChars t⟩)
  have hint : ∀ {n : ℤ}, view.integer? v = some n → 0 ≤ n → n < 2 ^ 63 → Permitted v :=
    fun {n} hn h₀ h₁ => by
      rw [eq_int hn]
      exact .atom ⟨by omega, h₁⟩
  cases kind with
  | version => exact hint h (by decide) (by decide)
  | word w => exact hstr h
  | nonempty => exact hstr h.choose_spec.1
  | timestamp => exact hstr h.choose_spec.1
  | hex n => exact hstr h.choose_spec.1
  | json => exact h
  | counter =>
    obtain ⟨n, hn, h₀, h₁⟩ := h
    exact hint hn h₀ h₁
  | confidence =>
    obtain ⟨q, hq, h₀, h₁⟩ := h
    simp only [view] at hq
    split at hq
    · rename_i n
      obtain rfl := Option.some.inj hq
      exact hint rfl (by exact_mod_cast h₀) (lt_of_le_of_lt (by exact_mod_cast h₁) (by decide))
    · exact .atom trivial
    · cases hq

/-- **A record with the fields of a shape is permitted.** -/
theorem permitted_of_conforms {fields : List Field} {d : Dict} (hkeys : d.keys.Nodup)
    (h : Conforms fields d) : Permitted (.object d) := by
  have hmember : ∀ m ∈ d, ∃ f ∈ fields, m.1 = ofChars f.1 ∧ Holds f.2 m.2 := by
    intro m hm
    have hget : d.get? m.1 = some m.2 := (lookup_eq_some hkeys).2 hm
    obtain ⟨f, hf, hname⟩ := h.known _ _ hget
    obtain ⟨v, hv, hholds⟩ := h.holds f hf
    rw [← hname, hget] at hv
    exact ⟨f, hf, hname, Option.some.inj hv ▸ hholds⟩
  refine .object (List.forall_mem_map.2 fun m hm => ?_) fun m hm => ?_
  · obtain ⟨f, -, hname, -⟩ := hmember m hm
    rw [hname, scalars?_ofChars]
    rfl
  · obtain ⟨f, -, -, hholds⟩ := hmember m hm
    exact permitted_of_holds hholds

end Forensics
end Vestrix
