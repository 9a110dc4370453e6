/-
# Payloads

`models.py`: the schema of what a node sends, and `forensics.py`: the event that the
collector makes of it.

A payload is validated twice, by the collector and then by `forensics`, when its sequence
number is already taken.  The two agree on all but one field: the collector lets a
sequence number use 64 bits, and the record format has 63 (`admitted_loggable`).
-/

import Vestrix.Forensics.Validation

namespace Vestrix
namespace Collector

open Text Json Outcome Python Record Forensics

/-- The texts of `PayloadValidationError`. -/
inductive PayloadError where
  | notObject
  | missingFields (fields : List Str)
  | unknownFields (fields : List Str)
  | schemaVersion
  | nodeId
  | timestampUtc
  | csiWindowSha256
  | sequenceNumber
deriving DecidableEq

/-- `CSIEvent`. -/
structure CSIEvent where
  schemaVersion : Str
  nodeId : Str
  timestampUtc : Str
  csiWindowSha256 : Str
  sequenceNumber : ℕ
deriving DecidableEq

/-- `_FIELDS`. -/
def payloadFields : List Str :=
  [lit "schema_version", lit "node_id", lit "timestamp_utc", lit "csi_window_sha256",
    lit "sequence_number"]

/-- `[A-Za-z0-9._-]`. -/
def isNodeIdChar (c : Char) : Bool := c.isAlphanum || c == '.' || c == '_' || c == '-'

/-- `_NODE_ID_PATTERN.fullmatch`. -/
def matchesNodeId : Str → Bool
  | [] => false
  | c :: s => c.scalar?.any Char.isAlphanum && decide (s.length ≤ 127) &&
    s.all fun c => c.scalar?.any isNodeIdChar

/-- An optional fraction of at most nine digits, and the letter Z. -/
def matchesShortEnd (s : Str) : Bool :=
  match skipOne '.' s with
  | none => s == lit "Z"
  | some s => !(s.takeWhile isDecimal).isEmpty && decide ((s.takeWhile isDecimal).length ≤ 9) &&
    s.dropWhile isDecimal == lit "Z"

/-- `_UTC_TIMESTAMP_PATTERN.fullmatch`. -/
def matchesUtcTimestamp (s : Str) : Bool := (skipFields s).any matchesShortEnd

/-- `s.removesuffix("Z")`. -/
def removeZ (s : Str) : Str := if s.getLast? = some (.scalar 'Z') then s.dropLast else s

/-- `_MAX_SEQUENCE_NUMBER`. -/
def maxSequenceNumber : ℕ := 2 ^ 64 - 1

/-- An item of a payload, if it is a string that satisfies a condition. -/
def strItem (payload : Dict) (key : Str) (p : Str → Bool) : Option Str :=
  match payload.get? key with
  | some (.atom (.str s)) => if p s then some s else none
  | _ => none

/-- The sequence number of a payload, if it is one. -/
def sequenceItem (payload : Dict) : Option ℕ :=
  match payload.get? (lit "sequence_number") with
  | some (.atom (.int n)) => if 0 ≤ n ∧ n ≤ maxSequenceNumber then some n.toNat else none
  | _ => none

/-- The check of `timestamp_utc`. -/
def isPayloadTimestamp (s : Str) : Bool :=
  matchesUtcTimestamp s && (fromisoformat (removeZ s ++ lit "+00:00")).isSome

/-- `validate_payload`. -/
def validatePayload (value : Value) : Except PayloadError CSIEvent :=
  match value with
  | .object payload => do
    let missing := payloadFields.filter (· ∉ Dict.keys payload)
    let unknown := (Dict.keys payload).filter (· ∉ payloadFields)
    require (missing = []) (.missingFields (sortedFields missing))
    require (unknown = []) (.unknownFields (sortedFields unknown))
    let schemaVersion ← orError .schemaVersion (strItem payload (lit "schema_version") (· == lit "0.1"))
    let nodeId ← orError .nodeId (strItem payload (lit "node_id") matchesNodeId)
    let timestamp ← orError .timestampUtc (strItem payload (lit "timestamp_utc") isPayloadTimestamp)
    let digest ← orError .csiWindowSha256 (strItem payload (lit "csi_window_sha256") (isHex 64))
    let sequenceNumber ← orError .sequenceNumber (sequenceItem payload)
    return ⟨schemaVersion, nodeId, timestamp, digest, sequenceNumber⟩
  | _ => .error .notObject

/-- The event that `log_event` of the collector hands to `forensics`. -/
def forensicEvent (event : CSIEvent) : Dict :=
  [(lit "format_version", .atom (.int 2)),
    (lit "event_type", .atom (.str (lit "ingestion_accepted"))),
    (lit "ts_utc", .atom (.str event.timestampUtc)),
    (lit "node_id", .atom (.str event.nodeId)),
    (lit "raw_csi_hash", .atom (.str event.csiWindowSha256)),
    (lit "collector_schema_version", .atom (.str event.schemaVersion)),
    (lit "collector_sequence_number", .atom (.int event.sequenceNumber))]

/-! ### What is admitted -/

/-- What `validate_payload` makes sure of. -/
structure CSIEvent.Valid (event : CSIEvent) : Prop where
  schemaVersion : event.schemaVersion = lit "0.1"
  nodeId : matchesNodeId event.nodeId = true
  timestampUtc : isPayloadTimestamp event.timestampUtc = true
  csiWindowSha256 : isHex 64 event.csiWindowSha256 = true
  sequenceNumber : event.sequenceNumber ≤ maxSequenceNumber

/-- A string of the payload has the property that it is checked for. -/
theorem strItem_eq_some {payload : Dict} {key s : Str} {p : Str → Bool}
    (h : strItem payload key p = some s) : p s = true := by
  rw [strItem] at h
  split at h
  · split_ifs at h with hp
    exact Option.some.inj h ▸ hp
  · cases h

/-- A sequence number of the payload is at most the greatest one. -/
theorem sequenceItem_le {payload : Dict} {n : ℕ} (h : sequenceItem payload = some n) :
    n ≤ maxSequenceNumber := by
  rw [sequenceItem] at h
  split at h
  · split_ifs at h with hn
    rw [← Option.some.inj h]
    exact Int.toNat_le.2 hn.2
  · cases h

/-- Every event that `validate_payload` returns is valid. -/
theorem valid_of_validatePayload {value : Value} {event : CSIEvent}
    (h : validatePayload value = .ok event) : event.Valid := by
  rw [validatePayload.eq_def] at h
  split at h
  · obtain ⟨_, -, h⟩ := bind_eq_ok.1 h
    obtain ⟨_, -, h⟩ := bind_eq_ok.1 h
    obtain ⟨schemaVersion, hschema, h⟩ := bind_eq_ok.1 h
    obtain ⟨nodeId, hnode, h⟩ := bind_eq_ok.1 h
    obtain ⟨timestamp, htime, h⟩ := bind_eq_ok.1 h
    obtain ⟨digest, hdigest, h⟩ := bind_eq_ok.1 h
    obtain ⟨sequenceNumber, hsequence, h⟩ := bind_eq_ok.1 h
    cases h
    exact ⟨beq_iff_eq.1 (strItem_eq_some (p := (· == lit "0.1")) (orError_eq_ok.1 hschema)),
      strItem_eq_some (orError_eq_ok.1 hnode), strItem_eq_some (orError_eq_ok.1 htime),
      strItem_eq_some (orError_eq_ok.1 hdigest), sequenceItem_le (orError_eq_ok.1 hsequence)⟩
  · cases h

/-- A fraction of nine digits at most is a fraction. -/
theorem matchesEnd_of_short {s : Str} (h : matchesShortEnd s = true) : matchesEnd s = true := by
  rw [matchesShortEnd] at h
  rw [matchesEnd]
  cases hs : skipOne '.' s with
  | none => simpa only [hs] using h
  | some r =>
    simp only [hs, Bool.and_eq_true] at h ⊢
    exact ⟨h.1.1, h.2⟩

/-- The collector's pattern is narrower than the one of `forensics`. -/
theorem matchesRfc3339Utc_of_payload {s : Str} (h : matchesUtcTimestamp s = true) :
    matchesRfc3339Utc s = true := by
  obtain ⟨r, hr, hend⟩ := (Option.any_eq_true _ _).1 h
  exact (Option.any_eq_true _ _).2 ⟨r, hr, matchesEnd_of_short hend⟩

/-- **Both parsers see the same timestamp**: what the collector lets through is a timestamp
of `forensics`. -/
theorem exists_stamp_of_payload {s : Str} (h : isPayloadTimestamp s = true) :
    ∃ t : Stamp Char, Python.IsTimestamp t ∧ s = ofChars (t.text id) := by
  obtain ⟨hmatch, hparse⟩ := Bool.and_eq_true_iff.1 h
  have hutc := matchesRfc3339Utc_of_payload hmatch
  obtain ⟨d, hd⟩ := Option.isSome_iff_exists.1 hparse
  have hlast : s.getLast? = some (.scalar 'Z') := by
    obtain ⟨t, -, -, rfl⟩ := matchesRfc3339Utc_eq_true.1 hutc
    rw [Stamp.text, ← List.cons_append, ← List.append_assoc, List.getLast?_append]
    rfl
  rw [removeZ, if_pos hlast] at hd
  exact isTimestamp_iff.1 ⟨hutc, d, hd, utcoffset_eq_zero hutc hd⟩

/-- The name of a node is a text of ASCII characters, and not empty. -/
theorem exists_ofChars_of_matchesNodeId {s : Str} (h : matchesNodeId s = true) :
    ∃ t : List Char, s = ofChars t ∧ t ≠ [] := by
  have hscalars : ∀ {p : Char → Bool} (s : Str), s.all (fun c => c.scalar?.any p) = true →
      ∃ t, s = ofChars t := by
    intro p s
    induction s with
    | nil => exact fun _ => ⟨[], rfl⟩
    | cons c s ih =>
      rw [List.all_cons, Bool.and_eq_true]
      rintro ⟨hc, hs⟩
      obtain ⟨t, rfl⟩ := ih hs
      cases c with
      | surrogate u => cases hc
      | scalar c => exact ⟨c :: t, rfl⟩
  cases s with
  | nil => cases h
  | cons c s =>
    rw [matchesNodeId, Bool.and_eq_true, Bool.and_eq_true] at h
    obtain ⟨t, rfl⟩ := hscalars s h.2
    cases c with
    | surrogate u => exact nomatch h.1.1
    | scalar c => exact ⟨c :: t, rfl, List.cons_ne_nil _ _⟩

/-- The event of a valid payload conforms to the schema of `forensics` up to its sequence
number. -/
theorem conforms_forensicEvent {event : CSIEvent} (h : event.Valid) :
    Forensics.Conforms (Shape.ingestion).eventFields (forensicEvent event) ↔
      event.sequenceNumber < 2 ^ 63 := by
  constructor
  · intro hc
    obtain ⟨v, hv, n, hn, -, hlt⟩ := hc.field
      (show ("collector_sequence_number".toList, Kind.counter) ∈ (Shape.ingestion).eventFields by decide)
    obtain rfl : v = .atom (.int event.sequenceNumber) := (Option.some.inj hv).symm
    obtain rfl : (event.sequenceNumber : ℤ) = n := Option.some.inj hn
    exact_mod_cast hlt
  · intro hlt
    obtain ⟨t, ht, htime⟩ := exists_stamp_of_payload h.timestampUtc
    obtain ⟨node, hnode, hne⟩ := exists_ofChars_of_matchesNodeId h.nodeId
    have hkeys : ∀ k ∈ Dict.keys (forensicEvent event), ∃ f ∈ (Shape.ingestion).eventFields,
        k = ofChars f.1 := by
      show ∀ k ∈ [lit "format_version", lit "event_type", lit "ts_utc", lit "node_id",
        lit "raw_csi_hash", lit "collector_schema_version", lit "collector_sequence_number"], _
      decide
    refine ⟨fun k v hv => hkeys k (lookup_isSome.1 ⟨v, hv⟩), ?_⟩
    show ∀ f ∈ [("format_version".toList, Kind.version),
      ("event_type".toList, .word "ingestion_accepted".toList), ("ts_utc".toList, .timestamp),
      ("node_id".toList, .nonempty), ("raw_csi_hash".toList, .hex 64),
      ("collector_schema_version".toList, .nonempty), ("collector_sequence_number".toList, .counter)],
      ∃ v, (forensicEvent event).get? (ofChars f.1) = some v ∧ _
    simp only [List.forall_mem_cons, List.not_mem_nil, false_imp_iff, implies_true, and_true]
    refine ⟨⟨_, rfl, rfl⟩, ⟨_, rfl, scalars?_ofChars _⟩, ⟨_, rfl, t.text id, ?_, t, ht, rfl⟩,
      ⟨_, rfl, node, ?_, hne⟩, ⟨_, rfl, isHex_eq_true.1 h.csiWindowSha256⟩,
      ⟨_, rfl, "0.1".toList, ?_, by decide⟩,
      ⟨_, rfl, event.sequenceNumber, rfl, Int.natCast_nonneg _, by exact_mod_cast hlt⟩⟩
    · show scalars? event.timestampUtc = _
      rw [htime]
      exact scalars?_ofChars _
    · show scalars? event.nodeId = _
      rw [hnode]
      exact scalars?_ofChars _
    · show scalars? event.schemaVersion = _
      rw [h.schemaVersion]
      exact scalars?_ofChars _

/-- The event of a valid payload is one of `forensics` if its sequence number has 63 bits. -/
theorem validateEvent_forensicEvent {event : CSIEvent} (h : event.Valid) :
    (∃ e, validateEvent (.object (forensicEvent event)) = .ok e) ↔ event.sequenceNumber < 2 ^ 63 := by
  rw [← conforms_forensicEvent h]
  simp only [validateEvent_eq_ok, exists_eq_left]
  constructor
  · rintro ⟨shape, hshape⟩
    have hdeclared := hshape.declares
    cases shape with
    | ingestion => exact hshape
    | v1 =>
      have hnone : some _ = none := hdeclared.1
      cases hnone
    | classification =>
      have htype : some (Json.atom (Atom.str (lit "ingestion_accepted"))) =
        some (.atom (.str (lit "classification_decision"))) := hdeclared.2
      exact absurd (Atom.str.inj (Json.atom.inj (Option.some.inj htype))) (by decide)
  · exact fun hshape => ⟨_, hshape⟩

/-- **What the collector admits can be logged if its sequence number has 63 bits**, and
only then. -/
theorem admitted_loggable {value : Value} {event : CSIEvent} (h : validatePayload value = .ok event) :
    (∃ e, validateEvent (.object (forensicEvent event)) = .ok e) ↔ event.sequenceNumber < 2 ^ 63 :=
  validateEvent_forensicEvent (valid_of_validatePayload h)

/-- A payload of a node. -/
def samplePayload (sequenceNumber : ℤ) : Value :=
  .object [(lit "schema_version", .atom (.str (lit "0.1"))), (lit "node_id", .atom (.str (lit "node-1"))),
    (lit "timestamp_utc", .atom (.str (lit "2026-07-01T12:00:00Z"))),
    (lit "csi_window_sha256", .atom (.str (List.replicate 64 (.scalar 'a')))),
    (lit "sequence_number", .atom (.int sequenceNumber))]

/-- The payload of a sequence number below the bound is admitted, and can be logged. -/
theorem admitted_loggable_sample : ∃ event e, validatePayload (samplePayload 7) = .ok event ∧
    validateEvent (.object (forensicEvent event)) = .ok e := by
  have h : validatePayload (samplePayload 7) = .ok ⟨lit "0.1", lit "node-1",
      lit "2026-07-01T12:00:00Z", List.replicate 64 (.scalar 'a'), 7⟩ := by decide +kernel
  obtain ⟨e, he⟩ := (admitted_loggable h).2 (by decide)
  exact ⟨_, e, h, he⟩

/-- **A sequence number of 64 bits is admitted and then refused.** -/
theorem admitted_not_loggable : ¬ ∀ (value : Value) (event : CSIEvent),
    validatePayload value = .ok event →
      ∃ e, validateEvent (.object (forensicEvent event)) = .ok e := by
  intro h
  have hadmitted : validatePayload (samplePayload (2 ^ 63)) = .ok ⟨lit "0.1", lit "node-1",
      lit "2026-07-01T12:00:00Z", List.replicate 64 (.scalar 'a'), 2 ^ 63⟩ := by decide +kernel
  exact absurd ((validateEvent_forensicEvent (valid_of_validatePayload hadmitted)).1 (h _ _ hadmitted))
    (by decide)

end Collector
end Vestrix
