/-
# The lines of the log, and the answers

`JSONFormatter` writes a record of the log as one JSON object, and `_send_response` answers a node with
one.  Both are lines of printable ASCII that say what was meant: `json.loads` reads from a line the fields
of the record (`format_readable`), whatever they are.

What gets into the fields comes from the network: the names of a certificate, the keys of a payload.  None
of it can break a line or forge one (`log_readable`).
-/

import Vestrix.Collector.AuditLog
import Vestrix.Python.Ascii

namespace Vestrix
namespace Collector
namespace LogLines

open Text Outcome Python Transition Ingest AuditLog
open Json (Unpaired isPrintable)

/-! ### Texts -/

/-- `','.join(fields)`. -/
def joined (fields : List Str) : Str := (lit ",").intercalate fields

/-- `str(exc)` of a `PayloadValidationError`. -/
def payloadErrorText : PayloadError → Str
  | .notObject => lit "payload_not_object"
  | .missingFields fields => lit "missing_fields:" ++ joined fields
  | .unknownFields fields => lit "unknown_fields:" ++ joined fields
  | .schemaVersion => lit "unsupported_schema_version"
  | .nodeId => lit "invalid_node_id"
  | .timestampUtc => lit "invalid_timestamp_utc"
  | .csiWindowSha256 => lit "invalid_csi_window_sha256"
  | .sequenceNumber => lit "invalid_sequence_number"

/-- The reason of a rejection. -/
def reasonText : Reason → Str
  | .tlsHandshakeFailed => lit "tls_handshake_failed"
  | .internalServerError => lit "internal_server_error"
  | .invalidCertificateCn => lit "invalid_certificate_cn"
  | .unenrolledCertificateCn => lit "unenrolled_certificate_cn"
  | .payloadReadTimeout => lit "payload_read_timeout"
  | .payloadMissingNewline => lit "payload_missing_newline"
  | .payloadTooLarge => lit "payload_too_large"
  | .emptyPayload => lit "empty_payload"
  | .payload error => payloadErrorText error
  | .invalidJsonPayload => lit "invalid_json_payload"
  | .nodeIdCertificateCnMismatch => lit "node_id_certificate_cn_mismatch"
  | .replayedOrOutOfOrderSequence => lit "replayed_or_out_of_order_sequence"
  | .forensicsHandoffFailed => lit "forensics_handoff_failed"

/-- The reason of a decision. -/
def decisionReason : Decision → Str
  | .accept => lit "authenticated_event_handed_off"
  | .reject reason => reasonText reason

/-- The word for a decision in the log. -/
def decisionName : Decision → Str
  | .accept => lit "accept"
  | .reject _ => lit "reject"

/-- The word for a decision in an answer. -/
def decisionStatus : Decision → Str
  | .accept => lit "accepted"
  | .reject _ => lit "rejected"

/-- An item with a string. -/
def strField (key : String) (s : Str) : Str × Value := (lit key, .atom (.str s))

/-- An item with a number. -/
def intField (key : String) (n : ℕ) : Str × Value := (lit key, .atom (.int n))

/-- The fields that a call of `_decision` names. -/
def entryFields : Entry → Dict
  | .tlsHandshakeFailed errorType | .internalServerError errorType =>
    [strField "error_type" (ofChars errorType)]
  | .invalidCertificateCn => []
  | .unenrolledCertificateCn name | .payload _ name => [strField "certificate_node_id" name]
  | .nodeIdCertificateCnMismatch name nodeId n =>
    [strField "certificate_node_id" name, strField "payload_node_id" nodeId, intField "sequence_number" n]
  | .replayedOrOutOfOrderSequence name n last =>
    [strField "node_id" name, intField "sequence_number" n, intField "last_sequence_number" last]
  | .forensicsHandoffFailed name n errorType =>
    [strField "node_id" name, intField "sequence_number" n, strField "error_type" (ofChars errorType)]
  | .accept name n digest =>
    [strField "node_id" name, intField "sequence_number" n, strField "csi_window_sha256" digest]

/-- `_format_peer` of an address with a host and a port. -/
def formatPeer (host : List Char) (port : ℕ) : List Char := host ++ ':' :: numeral port

/-- `decision_fields`. -/
def decisionFields (peer : List Char) (e : Entry) : Dict :=
  [strField "decision" (decisionName e.decision), strField "reason" (decisionReason e.decision),
    strField "peer" (ofChars peer)] ++ entryFields e

/-! ### Records -/

/-- What `JSONFormatter` reads of a record: the time it was made, as text, its level and message, and the
attributes that it may have. -/
structure LogRecord where
  timestampUtc : List Char
  levelName : Str
  event : Option Str
  message : Str
  decisionFields : Option Dict

/-- `output.update(fields)`. -/
def update (output fields : Dict) : Dict := fields.foldl (fun output m => output.set m.1 m.2) output

/-- The dictionary that `format` writes. -/
def LogRecord.output (record : LogRecord) : Dict :=
  update
    [strField "timestamp_utc" (ofChars record.timestampUtc), strField "level" record.levelName,
      strField "event" (record.event.getD (lit "collector_log")), strField "message" record.message]
    (record.decisionFields.getD [])

/-- `JSONFormatter.format`. -/
def format (record : LogRecord) : Except DumpsError (List Char) :=
  dumpsAscii (Json.sorted (.object record.output))

/-- The record that `_decision` makes. -/
def decisionRecord (timestampUtc peer : List Char) (e : Entry) : LogRecord where
  timestampUtc := timestampUtc
  levelName := lit "INFO"
  event := some (lit "ingest_decision")
  message := lit "ingest " ++ decisionName e.decision
  decisionFields := some (decisionFields peer e)

/-- The dictionary that `_send_response` writes. -/
def response (d : Decision) : Dict :=
  [strField "status" (decisionStatus d), strField "reason" (decisionReason d)]

/-- The bytes that `_send_response` sends. -/
def sendResponse (d : Decision) : Except DumpsError (List UInt8) :=
  (dumpsAscii (.object (response d))).map fun line => utf8 line ++ [lineFeed]

/-! ### What can be written and read -/

/-- A dictionary that is written and read back. -/
structure Clean (d : Dict) : Prop where
  nodup : d.keys.Nodup
  keys : ∀ k ∈ d.keys, Unpaired k
  atoms : ∀ m ∈ d, ∃ a, m.2 = .atom a ∧ a.Readable

/-- A dictionary stays clean when a clean item is set. -/
theorem Clean.set {d : Dict} (h : Clean d) {m : Str × Value} (hkey : Unpaired m.1)
    (hatom : ∃ a, m.2 = .atom a ∧ a.Readable) : Clean (d.set m.1 m.2) where
  nodup := Dict.nodup_set h.nodup _ _
  keys k hk := by
    rw [Dict.keys_set] at hk
    split_ifs at hk
    · exact h.keys k hk
    · rcases List.mem_append.1 hk with hk | hk
      · exact h.keys k hk
      · exact List.mem_singleton.1 hk ▸ hkey
  atoms n hn := by
    rcases Dict.mem_set hn with hn | hn
    · exact h.atoms n hn
    · rw [hn]
      exact hatom

/-- A dictionary stays clean when it is updated with a clean one. -/
theorem Clean.update {output fields : Dict} (h : Clean output) (hfields : Clean fields) :
    Clean (update output fields) := by
  have hmem : ∀ (ms : Dict) (d : Dict), Clean d → (∀ m ∈ ms, m ∈ fields) → Clean (LogLines.update d ms) := by
    intro ms
    induction ms with
    | nil => exact fun d hd _ => hd
    | cons m ms ih =>
      intro d hd hms
      obtain ⟨hm, hms⟩ := List.forall_mem_cons.1 hms
      exact ih _ (hd.set (hfields.keys _ (List.mem_map_of_mem hm)) (hfields.atoms m hm)) hms
  exact hmem fields output h fun m hm => hm

/-- A dictionary of atoms, as it is read back in any order of its keys. -/
theorem Clean.readable (order : LinearOrder Str) {d : Dict} (h : Clean d)
    (hkeys : d.keys.Pairwise order.lt) : Readable order (.object d) := by
  refine .object ⟨hkeys, h.keys⟩ fun m hm => ?_
  obtain ⟨a, ha, hreadable⟩ := h.atoms m hm
  rw [ha]
  exact .atom hreadable

/-- **A clean dictionary is one line**, and read back. -/
theorem Clean.line (order : LinearOrder Str) {d : Dict} (h : Clean d) (hkeys : d.keys.Pairwise order.lt) :
    ∃ line, dumpsAscii (.object d) = .ok line ∧ (∀ c ∈ line, isPrintable c = true) ∧
      loads (utf8 line) = .ok (.object d) := by
  have hreadable := h.readable order hkeys
  have hwritten : dumpsAscii (.object d) = .ok (asciiText (.object d)) :=
    dumpsAscii_eq_ok.2 ⟨hreadable.imp (fun _ ha => ha.1) fun _ _ => trivial, rfl⟩
  exact ⟨_, hwritten, isPrintable_dumpsAscii hwritten, loads_dumpsAscii order hreadable hwritten⟩

/-- With its keys in order a clean dictionary has the same items, and is clean. -/
theorem Clean.sorted {d : Dict} (h : Clean d) : ∃ ms : Dict, Json.sorted (.object d) = .object ms ∧
    ms.Perm d ∧ Clean ms ∧ ms.keys.Pairwise (· < ·) := by
  have hatoms : d.map (Prod.map id Json.sorted) = d := by
    conv_rhs => rw [← List.map_id d]
    refine List.map_congr_left fun m hm => ?_
    obtain ⟨a, ha, -⟩ := h.atoms m hm
    refine Prod.ext rfl ?_
    rw [Prod.map_snd, ha, Json.sorted_atom]
    exact ha.symm
  have hperm := Json.sortMembers_perm d
  refine ⟨Json.sortMembers d, by rw [Json.sorted_object, hatoms], hperm, ⟨?_, ?_, ?_⟩, ?_⟩
  · exact (hperm.map Prod.fst).nodup_iff.2 h.nodup
  · exact fun k hk => h.keys k ((hperm.map Prod.fst).mem_iff.1 hk)
  · exact fun m hm => h.atoms m (hperm.mem_iff.1 hm)
  · exact List.pairwise_map.2 (Json.increasing_sortMembers h.nodup)

/-- A text of scalar values has no surrogates. -/
theorem unpaired_ofChars (t : List Char) : Unpaired (ofChars t) := by
  induction t with
  | nil => exact .nil
  | cons c t ih => exact ih.scalar

/-- A text of scalar values in front makes no pair of surrogates. -/
theorem unpaired_ofChars_append (t : List Char) {s : Str} (hs : Unpaired s) : Unpaired (ofChars t ++ s) := by
  induction t with
  | nil => exact hs
  | cons c t ih => exact ih.scalar

/-- A string without pairs of surrogates is read back. -/
theorem readable_str {s : Str} (h : Unpaired s) : ∃ a, (.atom (.str s) : Value) = .atom a ∧ a.Readable :=
  ⟨_, rfl, trivial, fun _ hs => by cases hs; exact h⟩

/-- A sequence number is read back. -/
theorem readable_int {n : ℕ} (h : n ≤ maxSequenceNumber) :
    ∃ a, (.atom (.int n) : Value) = .atom a ∧ a.Readable := by
  refine ⟨_, rfl, ?_, fun _ hs => by cases hs⟩
  have hlt : n < 10 ^ maxStrDigits := by
    refine lt_of_lt_of_le (Nat.lt_succ_of_le h) ?_
    exact le_trans (b := 10 ^ 20) (by decide) (Nat.pow_le_pow_right (by decide) (by decide))
  exact (Nat.length_toDigits_le_iff (by decide) (by decide)).2 hlt

/-- What the texts of a record are. -/
structure LogRecord.Clean (record : LogRecord) : Prop where
  levelName : Unpaired record.levelName
  event : ∀ event ∈ record.event, Unpaired event
  message : Unpaired record.message
  fields : ∀ fields ∈ record.decisionFields, LogLines.Clean fields

/-- A record with clean texts and fields is a clean dictionary. -/
theorem LogRecord.Clean.output {record : LogRecord} (h : record.Clean) : LogLines.Clean record.output := by
  have hevent : Unpaired (record.event.getD (lit "collector_log")) := by
    cases hevent : record.event with
    | none => exact unpaired_ofChars _
    | some event => exact h.event event hevent
  have hfields : LogLines.Clean (record.decisionFields.getD []) := by
    cases hfields : record.decisionFields with
    | none =>
      exact ⟨List.nodup_nil, fun k hk => (by cases hk), fun m hm => (by cases hm)⟩
    | some fields => exact h.fields fields hfields
  have hkeys : [lit "timestamp_utc", lit "level", lit "event", lit "message"].Nodup := by decide
  refine Clean.update ⟨hkeys, ?_, ?_⟩ hfields
  · simp only [Dict.keys, List.map_cons, List.map_nil, List.forall_mem_cons]
    exact ⟨unpaired_ofChars _, unpaired_ofChars _, unpaired_ofChars _, unpaired_ofChars _,
      fun k hk => by cases hk⟩
  · simp only [List.forall_mem_cons]
    exact ⟨readable_str (unpaired_ofChars _), readable_str h.levelName, readable_str hevent,
      readable_str h.message, fun m hm => by cases hm⟩

/-- **A record is one line, which says what it is.** -/
theorem format_readable {record : LogRecord} (h : record.Clean) :
    ∃ line ms, format record = .ok line ∧ (∀ c ∈ line, isPrintable c = true) ∧
      loads (utf8 line) = .ok (.object ms) ∧ ms.Perm record.output := by
  obtain ⟨ms, hsorted, hperm, hclean, hkeys⟩ := h.output.sorted
  obtain ⟨line, hline, hprintable, hread⟩ := hclean.line inferInstance hkeys
  exact ⟨line, ms, by rw [format, hsorted, hline], hprintable, hread, hperm⟩

/-- **An answer is one line, which says what it is.** -/
theorem sendResponse_readable {d : Decision} (h : Unpaired (decisionReason d)) :
    ∃ line, sendResponse d = .ok (utf8 line ++ [lineFeed]) ∧ (∀ c ∈ line, isPrintable c = true) ∧
      loads (utf8 line) = .ok (.object (response d)) := by
  have hkeys : [lit "status", lit "reason"].Pairwise fun a b => b < a := by decide
  have hclean : Clean (response d) := by
    refine ⟨hkeys.imp ne_of_gt, ?_, ?_⟩
    · simp only [response, Dict.keys, List.map_cons, List.map_nil, List.forall_mem_cons]
      exact ⟨unpaired_ofChars _, unpaired_ofChars _, fun k hk => by cases hk⟩
    · simp only [response, List.forall_mem_cons]
      refine ⟨readable_str ?_, readable_str h, fun m hm => by cases hm⟩
      cases d <;> exact unpaired_ofChars _
  obtain ⟨line, hline, hprintable, hread⟩ :=
    hclean.line (inferInstanceAs (LinearOrder Strᵒᵈ)) hkeys
  exact ⟨line, by rw [sendResponse, hline]; rfl, hprintable, hread⟩

example : sendResponse (.reject .emptyPayload) = .ok (utf8
    "\x7b\x22status\x22:\x22rejected\x22,\x22reason\x22:\x22empty_payload\x22\x7d\n".toList) := by
  decide

/-! ### What gets into a record -/

/-- A scalar value between two texts keeps their surrogates apart. -/
theorem unpaired_append_scalar {s t : Str} {c : Char} (hs : Unpaired s) (ht : Unpaired t) :
    Unpaired (s ++ .scalar c :: t) := by
  induction s with
  | nil => exact ht.scalar
  | cons a s ih =>
    have hrest := ih (List.IsChain.of_cons hs)
    cases s with
    | nil =>
      refine hrest.cons fun d hd hpair => ?_
      obtain rfl := Option.some.inj hd
      cases a <;> exact hpair
    | cons b s =>
      refine hrest.cons fun d hd => ?_
      obtain rfl := Option.some.inj hd
      exact (List.isChain_cons_cons.1 hs).1

/-- Names joined with commas make no pair of surrogates. -/
theorem unpaired_joined {fields : List Str} (h : ∀ f ∈ fields, Unpaired f) : Unpaired (joined fields) := by
  induction fields with
  | nil => exact .nil
  | cons f fields ih =>
    obtain ⟨hf, hfields⟩ := List.forall_mem_cons.1 h
    cases fields with
    | nil =>
      rw [joined, List.intercalate_singleton]
      exact hf
    | cons g fields =>
      have hjoined : joined (f :: g :: fields) = f ++ .scalar ',' :: joined (g :: fields) := by
        rw [joined, List.intercalate_cons_cons, List.append_assoc]
        rfl
      rw [hjoined]
      exact unpaired_append_scalar hf (ih hfields)

/-- Sorting names keeps them. -/
theorem mem_sortedFields {f : Str} {fields : List Str} : f ∈ Forensics.sortedFields fields ↔ f ∈ fields :=
  (List.perm_insertionSort _ _).mem_iff

/-- `orError` raises its own exception. -/
theorem orError_eq_error {α ε : Type} {e e' : ε} {o : Option α} (h : orError e o = .error e') : e' = e := by
  cases o with
  | none => exact (Except.error.inj h).symm
  | some a => cases h

/-- The fields that an error names are fields of the schema, or keys of the payload. -/
theorem fields_of_validatePayload {payload : Dict} {error : PayloadError}
    (h : validatePayload (.object payload) = .error error) :
    (∀ fields, error = .missingFields fields → ∀ f ∈ fields, f ∈ payloadFields) ∧
      ∀ fields, error = .unknownFields fields → ∀ f ∈ fields, f ∈ payload.keys := by
  rw [validatePayload] at h
  rcases bind_eq_error.1 h with hmissing | ⟨_, -, h⟩
  · obtain ⟨-, rfl⟩ := require_eq_error.1 hmissing
    refine ⟨fun fields heq f hf => ?_, fun fields heq => by cases heq⟩
    cases heq
    exact (List.mem_filter.1 (mem_sortedFields.1 hf)).1
  rcases bind_eq_error.1 h with hunknown | ⟨_, -, h⟩
  · obtain ⟨-, rfl⟩ := require_eq_error.1 hunknown
    refine ⟨fun fields heq => (by cases heq), fun fields heq f hf => ?_⟩
    cases heq
    exact (List.mem_filter.1 (mem_sortedFields.1 hf)).1
  rcases bind_eq_error.1 h with h | ⟨_, -, h⟩
  · rw [orError_eq_error h]
    exact ⟨fun _ heq => (by cases heq), fun _ heq => by cases heq⟩
  rcases bind_eq_error.1 h with h | ⟨_, -, h⟩
  · rw [orError_eq_error h]
    exact ⟨fun _ heq => (by cases heq), fun _ heq => by cases heq⟩
  rcases bind_eq_error.1 h with h | ⟨_, -, h⟩
  · rw [orError_eq_error h]
    exact ⟨fun _ heq => (by cases heq), fun _ heq => by cases heq⟩
  rcases bind_eq_error.1 h with h | ⟨_, -, h⟩
  · rw [orError_eq_error h]
    exact ⟨fun _ heq => (by cases heq), fun _ heq => by cases heq⟩
  rcases bind_eq_error.1 h with h | ⟨_, -, h⟩
  · rw [orError_eq_error h]
    exact ⟨fun _ heq => (by cases heq), fun _ heq => by cases heq⟩
  · cases h

/-- The text of a `PayloadValidationError` has no pair of surrogates if the payload has none. -/
theorem unpaired_payloadErrorText {decoded : Value} {error : PayloadError}
    (hdecoded : decoded.Forall Atom.Unpaired fun ks => ∀ k ∈ ks, Unpaired k)
    (h : validatePayload decoded = .error error) : Unpaired (payloadErrorText error) := by
  cases decoded with
  | atom a | array xs =>
    cases h
    exact unpaired_ofChars _
  | object payload =>
    obtain ⟨hmissing, hunknown⟩ := fields_of_validatePayload h
    have hkeys := (Json.forall_object.1 hdecoded).1
    have hschema : ∀ f ∈ payloadFields, Unpaired f := by
      simp only [payloadFields, List.forall_mem_cons]
      exact ⟨unpaired_ofChars _, unpaired_ofChars _, unpaired_ofChars _, unpaired_ofChars _,
        unpaired_ofChars _, fun f hf => by cases hf⟩
    cases error with
    | missingFields fields =>
      exact unpaired_ofChars_append _ (unpaired_joined fun f hf => hschema f (hmissing fields rfl f hf))
    | unknownFields fields =>
      exact unpaired_ofChars_append _ (unpaired_joined fun f hf => hkeys f (hunknown fields rfl f hf))
    | _ => exact unpaired_ofChars _

/-- The reason for a payload that cannot be read has no pair of surrogates. -/
theorem unpaired_readJsonLine {limit : ℕ} {payload : List UInt8} {chunks : List (List UInt8)}
    {reason : Reason} (h : readJsonLine limit payload chunks = .error reason) :
    Unpaired (reasonText reason) := by
  have hcheck : ∀ {payload}, checkLine limit payload = .error reason → Unpaired (reasonText reason) := by
    intro payload h
    rw [checkLine] at h
    rcases bind_eq_error.1 h with h | ⟨_, -, h⟩
    · obtain ⟨-, rfl⟩ := require_eq_error.1 h
      exact unpaired_ofChars _
    rcases bind_eq_error.1 h with h | ⟨_, -, h⟩
    · obtain ⟨-, rfl⟩ := require_eq_error.1 h
      exact unpaired_ofChars _
    · cases h
  induction chunks generalizing payload with
  | nil =>
    cases h
    exact unpaired_ofChars _
  | cons chunk chunks ih =>
    rw [readJsonLine] at h
    split_ifs at h
    · cases h
      exact unpaired_ofChars _
    · exact hcheck h
    · exact ih h
    · exact hcheck h

/-- The reason for which a payload is rejected has no pair of surrogates. -/
theorem unpaired_readEvent {limit : ℕ} {chunks : List (List UInt8)} {reason : Reason}
    (h : readEvent limit chunks = .error reason) : Unpaired (reasonText reason) := by
  rw [readEvent] at h
  rcases bind_eq_error.1 h with h | ⟨raw, -, h⟩
  · exact unpaired_readJsonLine h
  rcases bind_eq_error.1 h with h | ⟨text, -, h⟩
  · rw [orError_eq_error h]
    exact unpaired_ofChars _
  rcases bind_eq_error.1 h with h | ⟨decoded, hdecoded, h⟩
  · cases hloads : loadsStr (ofChars text) with
    | ok v =>
      rw [hloads] at h
      cases h
    | error e =>
      rw [hloads] at h
      cases e <;> cases h <;> exact unpaired_ofChars _
  · have hread := mapError_eq_ok.1 hdecoded
    rw [loadsStr] at hread
    split_ifs at hread
    cases hvalidate : validatePayload decoded with
    | ok event =>
      rw [hvalidate] at h
      cases h
    | error error =>
      rw [hvalidate] at h
      cases h
      exact unpaired_payloadErrorText (unpaired_parse hread) hvalidate

/-- The event of a handler that has validated one. -/
def event? : Phase → Option CSIEvent
  | .validated _ event => some event
  | phase => phase.matched?.map Prod.snd

/-- What is known of the handlers' names, events and numbers. -/
structure Known (s : State) : Prop where
  names : ∀ k, ∀ name ∈ (s.connections k).names, Unpaired name
  events : ∀ k event, event? (s.connections k).phase = some event → event.Valid
  last : ∀ name n, s.lastSequences name = some n → n ≤ maxSequenceNumber

/-- The texts of a valid event have no pairs of surrogates. -/
theorem unpaired_of_valid {event : CSIEvent} (h : event.Valid) :
    Unpaired event.nodeId ∧ Unpaired event.csiWindowSha256 := by
  obtain ⟨node, hnode, -⟩ := exists_ofChars_of_matchesNodeId h.nodeId
  obtain ⟨digest, hdigest, -⟩ := Forensics.isHex_eq_true.1 h.csiWindowSha256
  rw [hnode, scalars?_eq_some_iff.1 hdigest]
  exact ⟨unpaired_ofChars _, unpaired_ofChars _⟩

/-- An entry whose fields can be written and read. -/
structure CleanEntry (e : Entry) : Prop where
  reason : Unpaired (decisionReason e.decision)
  fields : ∀ m ∈ entryFields e, ∃ a, m.2 = .atom a ∧ a.Readable

/-- The fields of a clean entry are a clean dictionary. -/
theorem clean_decisionFields {e : Entry} (h : CleanEntry e) (peer : List Char) :
    Clean (decisionFields peer e) := by
  have hkeys : (decisionFields peer e).keys.Nodup ∧
      ∀ k ∈ (decisionFields peer e).keys, ∃ t, k = ofChars t := by
    obtain ⟨keys, heq, hnodup⟩ : ∃ keys : List String,
        (decisionFields peer e).keys = keys.map lit ∧ (keys.map lit).Nodup := by
      cases e with
      | tlsHandshakeFailed | internalServerError =>
        exact ⟨["decision", "reason", "peer", "error_type"], rfl, by decide⟩
      | invalidCertificateCn => exact ⟨["decision", "reason", "peer"], rfl, by decide⟩
      | unenrolledCertificateCn | payload =>
        exact ⟨["decision", "reason", "peer", "certificate_node_id"], rfl, by decide⟩
      | nodeIdCertificateCnMismatch =>
        exact ⟨["decision", "reason", "peer", "certificate_node_id", "payload_node_id", "sequence_number"],
          rfl, by decide⟩
      | replayedOrOutOfOrderSequence =>
        exact ⟨["decision", "reason", "peer", "node_id", "sequence_number", "last_sequence_number"], rfl,
          by decide⟩
      | forensicsHandoffFailed =>
        exact ⟨["decision", "reason", "peer", "node_id", "sequence_number", "error_type"], rfl, by decide⟩
      | accept =>
        exact ⟨["decision", "reason", "peer", "node_id", "sequence_number", "csi_window_sha256"], rfl,
          by decide⟩
    rw [heq]
    refine ⟨hnodup, fun k hk => ?_⟩
    obtain ⟨key, -, rfl⟩ := List.mem_map.1 hk
    exact ⟨_, rfl⟩
  refine ⟨hkeys.1, fun k hk => ?_, ?_⟩
  · obtain ⟨t, rfl⟩ := hkeys.2 k hk
    exact unpaired_ofChars t
  · simp only [decisionFields, List.forall_mem_append, List.forall_mem_cons]
    refine ⟨⟨readable_str ?_, readable_str h.reason, readable_str (unpaired_ofChars peer),
      fun m hm => by cases hm⟩, h.fields⟩
    cases e.decision <;> exact unpaired_ofChars _

/-- The entry of a refusal can be written and read. -/
theorem clean_of_refuses {limit : ℕ} {s : State} {k : ℕ} {errorType : List Char} {reason : Reason} {e : Entry}
    (hs : s.Inv) (hknown : Known s) (h : Refuses limit s k errorType reason e) : CleanEntry e := by
  have hname : ∀ {name}, (s.connections k).phase.name? = some name → Unpaired name := fun hname =>
    hknown.names k _ ((enrolled_of_name hs hname).1 ▸ List.mem_singleton_self _)
  have hevent : ∀ {event}, event? (s.connections k).phase = some event → event.Valid :=
    hknown.events k _
  cases h with
  | handshake | digits | uncomparable =>
    refine ⟨unpaired_ofChars _, ?_⟩
    simp only [entryFields, List.forall_mem_cons]
    exact ⟨readable_str (unpaired_ofChars _), fun m hm => by cases hm⟩
  | names => exact ⟨unpaired_ofChars _, fun m hm => by cases hm⟩
  | unenrolled _ hnames =>
    refine ⟨unpaired_ofChars _, ?_⟩
    simp only [entryFields, List.forall_mem_cons]
    exact ⟨readable_str (hknown.names k _ (hnames ▸ List.mem_singleton_self _)), fun m hm => by cases hm⟩
  | payload hphase hreason =>
    refine ⟨?_, ?_⟩
    · rcases hreason with rfl | rfl | ⟨chunks, hread⟩
      · exact unpaired_ofChars _
      · exact unpaired_ofChars _
      · exact unpaired_readEvent hread
    · simp only [entryFields, List.forall_mem_cons]
      exact ⟨readable_str (hname (by rw [hphase]; rfl)), fun m hm => by cases hm⟩
  | mismatch hphase =>
    have hvalid := hevent (by rw [hphase]; rfl)
    refine ⟨unpaired_ofChars _, ?_⟩
    simp only [entryFields, List.forall_mem_cons]
    exact ⟨readable_str (hname (by rw [hphase]; rfl)), readable_str (unpaired_of_valid hvalid).1,
      readable_int hvalid.sequenceNumber, fun m hm => by cases hm⟩
  | replay hphase hlast =>
    have hvalid := hevent (by rw [hphase]; rfl)
    refine ⟨unpaired_ofChars _, ?_⟩
    simp only [entryFields, List.forall_mem_cons]
    exact ⟨readable_str (hname (by rw [hphase]; rfl)), readable_int hvalid.sequenceNumber,
      readable_int (hknown.last _ _ hlast), fun m hm => by cases hm⟩
  | @handoff name event hphase =>
    have hvalid : event.Valid := hevent (by rcases hphase with hphase | hphase <;> rw [hphase] <;> rfl)
    refine ⟨unpaired_ofChars _, ?_⟩
    simp only [entryFields, List.forall_mem_cons]
    exact ⟨readable_str (hname (by rcases hphase with hphase | hphase <;> rw [hphase] <;> rfl)),
      readable_int hvalid.sequenceNumber, readable_str (unpaired_ofChars _), fun m hm => by cases hm⟩

/-! ### Over every schedule -/

/-- The names of a certificate are decoded text. -/
def Decoded : Step → Prop
  | .go _ (.certificate names) => ∀ name ∈ names, ∃ t, name = ofChars t
  | _ => True

section

variable {limit : ℕ} {s t : State} {k : ℕ} {reply : Reply}

/-- The check of a certificate comes before there is an event. -/
theorem event?_checkCertificate (c : Connection) : event? (checkCertificate c) = none := by
  rw [checkCertificate]
  split
  · split_ifs <;> rfl
  · rfl

/-- The comparison of the names keeps the event. -/
theorem event?_checkNodeId {name : Str} {event event' : CSIEvent}
    (h : event? (checkNodeId name event) = some event') : event' = event := by
  rw [checkNodeId] at h
  split at h
  · exact (Option.some.inj h).symm
  · cases h
  · cases h

/-- Where the names and the event of a handler come from. -/
structure Provenance (limit : ℕ) (reply : Reply) (c d : Connection) : Prop where
  names : d.names = c.names ∨ reply = .certificate d.names
  event : ∀ event, event? d.phase = some event →
    event? c.phase = some event ∨ ∃ chunks, readEvent limit chunks = .ok event

/-- Names and events come from the replies that a handler has got. -/
theorem provenance_of_system (h : system limit s (.go k reply) = some t) :
    Provenance limit reply (s.connections k) (t.connections k) := by
  have hquiet : ∀ {c : Connection}, c.names = (s.connections k).names → event? c.phase = none →
      Provenance limit reply (s.connections k) c := fun hnames hevent =>
    ⟨Or.inl hnames, fun event h => by rw [hevent] at h; cases h⟩
  have hkeep : ∀ {c : Connection} {event : CSIEvent}, c.names = (s.connections k).names →
      event? (s.connections k).phase = some event →
      (∀ event', event? c.phase = some event' → event' = event) →
      Provenance limit reply (s.connections k) c := fun hnames hevent hsame =>
    ⟨Or.inl hnames, fun event' h => Or.inl (hsame event' h ▸ hevent)⟩
  have hself : ∀ {event event' : CSIEvent}, some event = some event' → event' = event := fun h =>
    (Option.some.inj h).symm
  rw [system] at h
  split_ifs at h with hk
  rw [handlerStep.eq_def] at h
  dsimp only at h
  split at h
  · cases h
    rw [set_connections_self]
    exact hquiet rfl rfl
  · cases h
    rw [set_connections_self]
    exact ⟨Or.inr rfl, fun event h => by cases h⟩
  · cases h
    rw [set_connections_self]
    exact hquiet rfl rfl
  · cases h
    rw [set_connections_self]
    exact hquiet rfl (event?_checkCertificate _)
  · rename_i chunks hphase
    split at h
    · rename_i event hread
      cases h
      rw [set_connections_self]
      refine ⟨Or.inl rfl, fun event' h => Or.inr ⟨chunks, ?_⟩⟩
      rw [hread, Option.some.inj h]
    · cases h
      rw [set_connections_self]
      exact hquiet rfl rfl
  · cases h
    rw [set_connections_self]
    exact hquiet rfl rfl
  · cases h
    rw [set_connections_self]
    exact hquiet rfl rfl
  · rename_i hphase
    cases h
    rw [set_connections_self]
    exact hkeep rfl (by rw [hphase]; rfl) fun event' h => event?_checkNodeId h
  · rename_i hphase
    split_ifs at h
    · cases h
      rw [set_connections_self]
      exact hquiet rfl rfl
    · cases h
      rw [set_connections_self]
      exact hkeep rfl (by rw [hphase]; rfl) fun event' h => hself h
  · rename_i hphase
    cases h
    rw [set_connections_self]
    exact hkeep rfl (by rw [hphase]; rfl) fun event' h => hself h
  · rename_i hphase
    cases h
    rw [set_connections_self]
    exact hkeep rfl (by rw [hphase]; rfl) fun event' h => hself h
  · rename_i hphase
    cases h
    rw [set_connections_self]
    exact hkeep rfl (by rw [hphase]; rfl) fun event' h => hself h
  · rename_i hphase
    cases h
    rw [set_connections_self]
    exact hkeep rfl (by rw [hphase]; rfl) fun event' h => hself h
  · cases h
    rw [set_connections_self]
    exact hquiet rfl rfl
  · cases h
    rw [set_connections_self]
    exact hquiet rfl rfl
  · cases h
    rw [set_connections_self]
    exact hquiet rfl rfl
  · cases h
    rw [set_connections_self]
    exact hquiet rfl rfl
  · cases h

/-- An event that has been read is valid. -/
theorem valid_of_readEvent {chunks : List (List UInt8)} {event : CSIEvent}
    (h : readEvent limit chunks = .ok event) : event.Valid := by
  rw [readEvent] at h
  obtain ⟨_, -, h⟩ := bind_eq_ok.1 h
  obtain ⟨_, -, h⟩ := bind_eq_ok.1 h
  obtain ⟨_, -, h⟩ := bind_eq_ok.1 h
  exact valid_of_validatePayload (mapError_eq_ok.1 h)

/-- The numbers that a step records are those of its event. -/
theorem last_of_goes {step : Step} (h : Goes s step t) {name : Str} {n : ℕ}
    (hn : t.lastSequences name = some n) : s.lastSequences name = some n ∨
      ∃ k event, event? (s.connections k).phase = some event ∧ n = event.sequenceNumber := by
  cases h with
  | @reserve k reply name' event hk hphase =>
    have hn : Function.update s.lastSequences name' (some event.sequenceNumber) name = some n := hn
    rw [Function.update_apply] at hn
    split_ifs at hn
    · exact Or.inr ⟨k, event, by rw [hphase]; rfl, (Option.some.inj hn).symm⟩
    · exact Or.inl hn
  | _ => exact Or.inl hn

/-- **What every step keeps** of the names, events and numbers. -/
theorem known_step {step : Step} (hs : s.Inv) (h : Known s) (hstep : Decoded step)
    (ht : system limit s step = some t) : Known t := by
  have hgoes := goes_of_system ht
  have hconnection : ∀ k, (∀ name ∈ (t.connections k).names, Unpaired name) ∧
      ∀ event, event? (t.connections k).phase = some event → event.Valid := by
    intro k
    have hsame : t.connections k = s.connections k → (∀ name ∈ (t.connections k).names, Unpaired name) ∧
        ∀ event, event? (t.connections k).phase = some event → event.Valid := by
      intro heq
      rw [heq]
      exact ⟨h.names k, h.events k⟩
    cases step with
    | reload | accept => exact hsame (connections_of_goes hs hgoes (fun _ _ h => by cases h) k)
    | go j reply =>
      by_cases hk : k = j
      · subst hk
        have hfrom := provenance_of_system ht
        refine ⟨fun name hname => ?_, fun event hevent => ?_⟩
        · rcases hfrom.names with hnames | rfl
          · exact h.names k name (hnames ▸ hname)
          · obtain ⟨text, rfl⟩ := hstep name hname
            exact unpaired_ofChars text
        · rcases hfrom.event event hevent with hevent | ⟨chunks, hread⟩
          · exact h.events k event hevent
          · exact valid_of_readEvent hread
      · exact hsame (goes_other hgoes hk)
  refine ⟨fun k => (hconnection k).1, fun k => (hconnection k).2, fun name n hn => ?_⟩
  rcases last_of_goes hgoes hn with hn | ⟨k, event, hevent, rfl⟩
  · exact h.last name n hn
  · exact (h.events k event hevent).sequenceNumber

/-- At the beginning nothing is known. -/
theorem known_initial (nodes : List Str) : Known (.initial nodes) where
  names _ _ h := by cases h
  events _ _ h := by cases h
  last _ _ h := by cases h

/-- What every run keeps whose certificates are decoded. -/
structure Inv (r : Audited) : Prop where
  audited : r.Inv
  known : Known r.state
  entries : ∀ k e, r.entries k = some e → CleanEntry e
  log : ∀ x ∈ r.log, CleanEntry x.2

/-- At the beginning nothing is logged. -/
theorem inv_initial (nodes : List Str) : Inv (.initial nodes) where
  audited := audited_initial nodes
  known := known_initial nodes
  entries _ _ h := by cases h
  log _ h := by cases h

/-- The entry of an accepted event can be written and read. -/
theorem clean_accept {r : Audited} (hr : Inv r) {name : Str} {event : CSIEvent}
    (hphase : (r.state.connections k).phase = .calling name event ∨
      (r.state.connections k).phase = .appended name event) :
    CleanEntry (.accept name event.sequenceNumber event.csiWindowSha256) := by
  have hvalid : event.Valid :=
    hr.known.events k event (by rcases hphase with hphase | hphase <;> rw [hphase] <;> rfl)
  have hname : event.nodeId = name := (hr.audited.state.connection k).matched name event
    (by rcases hphase with hphase | hphase <;> rw [hphase] <;> rfl)
  refine ⟨unpaired_ofChars _, ?_⟩
  simp only [entryFields, List.forall_mem_cons]
  exact ⟨readable_str (hname ▸ (unpaired_of_valid hvalid).1), readable_int hvalid.sequenceNumber,
    readable_str (unpaired_of_valid hvalid).2, fun m hm => by cases hm⟩

/-- What a handler is about to log after a step of its own. -/
theorem clean_record {r : Audited} {errorType : List Char} (hr : Inv r)
    (h : system limit r.state (.go k reply) = some t) {e : Entry}
    (he : (r.record k errorType t).entries k = some e) : CleanEntry e := by
  have hgoes := goes_of_system h
  rw [Audited.record] at he
  split at he
  · rename_i reason hphase
    obtain ⟨e', he', hrefuses⟩ := refuses_of_system errorType h hphase
    dsimp only at he
    rw [Function.update_self, he'] at he
    cases he
    exact clean_of_refuses hr.audited.state hr.known hrefuses
  · rename_i name event hphase
    dsimp only at he
    rw [Function.update_self] at he
    cases he
    exact clean_accept hr (returned_of_goes hgoes hphase)
  · exact hr.entries k e he
  · exact hr.entries k e he

/-- What is in the log after a step of a handler can be written and read. -/
theorem clean_log_record {r : Audited} {errorType : List Char} (hr : Inv r) {x : ℕ × Entry}
    (hx : x ∈ (r.record k errorType t).log) : CleanEntry x.2 := by
  rw [Audited.record] at hx
  split at hx
  · exact hr.log x hx
  · exact hr.log x hx
  · rcases List.mem_append.1 hx with hx | hx
    · exact hr.log x hx
    · obtain ⟨e, he, rfl⟩ := List.mem_map.1 hx
      exact hr.entries k e (Option.mem_toList.1 he)
  · exact hr.log x hx

/-- **Every step keeps the entries clean**, if the certificates are decoded. -/
theorem inv_step {r r' : Audited} {step : Step × List Char} (hr : Inv r) (hstep : Decoded step.1)
    (h : audited limit r step = some r') : Inv r' := by
  have haudited := audited_step hr.audited h
  obtain ⟨step, errorType⟩ := step
  obtain ⟨t, ht, rfl⟩ := Option.map_eq_some_iff.1 h
  have hknown := known_step hr.audited.state hr.known hstep ht
  cases step with
  | reload | accept => exact ⟨haudited, hknown, hr.entries, hr.log⟩
  | go k reply =>
    refine ⟨haudited, ?_, fun j e he => ?_, fun x hx => clean_log_record hr hx⟩
    · rw [record_state]
      exact hknown
    · by_cases hj : j = k
      · subst hj
        exact clean_record hr ht he
      · rw [record_entries_of_ne r t hj] at he
        exact hr.entries j e he

/-- Every run whose certificates are decoded logs clean entries. -/
theorem inv_run {nodes : List Str} {steps : List (Step × List Char)} {r : Audited}
    (hdecoded : ∀ step ∈ steps, Decoded step.1) (hrun : run (audited limit) (.initial nodes) steps = some r) :
    Inv r :=
  run_induction (fun _ _ _ hr hstep h => inv_step hr hstep h) (inv_initial nodes)
    (Meets.of_forall fun step hstep _ => hdecoded step hstep) hrun

/-- The record of a clean entry has clean texts and fields. -/
theorem clean_decisionRecord {e : Entry} (h : CleanEntry e) (timestampUtc peer : List Char) :
    (decisionRecord timestampUtc peer e).Clean := by
  refine ⟨unpaired_ofChars _, fun event hevent => ?_, unpaired_ofChars_append _ ?_, fun fields hfields => ?_⟩
  · cases hevent
    exact unpaired_ofChars _
  · cases e.decision <;> exact unpaired_ofChars _
  · cases hfields
    exact clean_decisionFields h peer

/-- **Nothing that a node sends breaks or forges a line.**  Over every schedule whose certificates are
decoded text, an entry of the log is written as one line of printable ASCII, from which `json.loads` reads
the fields of its record, and the answer to the node as one from which it reads the status and the
reason. -/
theorem log_readable {nodes : List Str} {steps : List (Step × List Char)} {r : Audited}
    (hdecoded : ∀ step ∈ steps, Decoded step.1)
    (hrun : run (audited limit) (.initial nodes) steps = some r) :
    ∀ k e, (k, e) ∈ r.log →
      (∀ timestampUtc peer, ∃ line ms, format (decisionRecord timestampUtc peer e) = .ok line ∧
        (∀ c ∈ line, isPrintable c = true) ∧ loads (utf8 line) = .ok (.object ms) ∧
        ms.Perm (decisionRecord timestampUtc peer e).output) ∧
      ∃ line, sendResponse e.decision = .ok (utf8 line ++ [lineFeed]) ∧
        (∀ c ∈ line, isPrintable c = true) ∧ loads (utf8 line) = .ok (.object (response e.decision)) := by
  intro k e he
  have hclean := (inv_run hdecoded hrun).log (k, e) he
  exact ⟨fun timestampUtc peer => format_readable (clean_decisionRecord hclean timestampUtc peer),
    sendResponse_readable hclean.reason⟩

/-- The certificates of the sample are decoded. -/
theorem decoded_reserves (k : ℕ) (sequenceNumber : String) :
    ∀ step ∈ reserves k sequenceNumber, Decoded step := by
  simp only [reserves, List.forall_mem_cons, Decoded]
  exact ⟨trivial, trivial, ⟨⟨_, rfl⟩, fun _ h => (by cases h)⟩, trivial, trivial, trivial, trivial,
    fun _ h => by cases h⟩

/-- The answer to a replay is one line that says so. -/
theorem log_readable_replayed : ∃ r,
    run (audited 65536) (.initial [lit "n"]) (replaySteps.map fun step => (step, [])) = some r ∧
    (1, .replayedOrOutOfOrderSequence (lit "n") 1 1) ∈ r.log ∧
    ∃ line, sendResponse (.reject .replayedOrOutOfOrderSequence) = .ok (utf8 line ++ [lineFeed]) ∧
      loads (utf8 line) = .ok (.object (response (.reject .replayedOrOutOfOrderSequence))) := by
  have hrun : (run (audited 65536) (.initial [lit "n"]) (replaySteps.map fun step => (step, []))).any
      (fun r => (1, .replayedOrOutOfOrderSequence (lit "n") 1 1) ∈ r.log) = true := by
    decide +kernel
  have hdecoded : ∀ step ∈ replaySteps, Decoded step := by
    simp only [replaySteps, List.forall_mem_append, List.forall_mem_cons]
    exact ⟨⟨⟨decoded_reserves _ _, trivial, trivial, trivial, trivial, fun _ h => (by cases h)⟩,
      decoded_reserves _ _⟩, trivial, fun _ h => by cases h⟩
  obtain ⟨r, hr, hlog⟩ := (Option.any_eq_true _ _).1 hrun
  have hlog := of_decide_eq_true hlog
  obtain ⟨-, line, hline, -, hread⟩ := log_readable (List.forall_mem_map.2 hdecoded) hr 1 _ hlog
  exact ⟨r, hr, hlog, line, hline, hread⟩

end

end LogLines
end Collector
end Vestrix
