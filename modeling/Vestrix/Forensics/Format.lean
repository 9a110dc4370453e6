/-
# The record format

`_format.py`: the fields of events and records, their validation, and the canonical
bytes that are hashed and signed.  An error text is a constructor of `FormatError` with
the field or path that the text names.

A dictionary has string keys here.  One with another key is an `Atom.other`, which every
check below refuses as the source refuses such a key.
-/

import Vestrix.Python.Datetime
import Vestrix.Python.Json
import Vestrix.Record.Digest

namespace Vestrix
namespace Forensics

open Text Rounding Json Outcome Python Record

/-! ### Errors -/

/-- A place in a value: a field, an element or a member below it, or a key. -/
inductive Path where
  | field (name : Str)
  | index (path : Path) (i : ℕ)
  | member (path : Path) (key : Str)
  | objectKey (path : Path)
deriving DecidableEq

/-- The texts of `RecordFormatError`. -/
inductive FormatError where
  | notEncodable (cause : DumpsError)
  | notScalarValues
  | notMapping
  | missingFields (fields : List Str)
  | unknownFields (fields : List Str)
  | notObject
  | missingManaged (fields : List Str)
  | seqRange
  | signatureShape
  | timestampShape
  | timestampInvalid
  | timestampNotUtc
  | confidenceNotNumber
  | confidenceRange
  | sequenceRange
  | versionMissing
  | versionNotTwo
  | eventType
  | emptyString (field : Str)
  | hashShape (field : Str)
  | integerRange (path : Path)
  | nonFinite (path : Path)
  | unsupportedType (path : Path) (typeName : Str)
  | surrogate (path : Path)
deriving DecidableEq

/-- What `except (JSONDecodeError, UnicodeDecodeError, RecordFormatError)` catches. -/
inductive LineError where
  | json
  | unicode
  | format (e : FormatError)
deriving DecidableEq

/-- The reasons of `StoreError`. -/
inductive StoreReason where
  | notTerminated
  | blankLine
  | invalidRecord (cause : LineError)
  | mixesVersions
  | notCanonical
  | seq (expected found : ℤ)
  | prevHash
  | recordHash
  | otherVersion
deriving DecidableEq

/-- The reasons of `AppendError`. -/
inductive AppendReason where
  | invalidChain (line : ℕ) (reason : StoreReason)
  | signature
  | notAppended
deriving DecidableEq

/-- The reasons of `ChainVerificationError`. -/
inductive VerificationReason where
  | store (reason : StoreReason)
  | signature
deriving DecidableEq

/-- The exceptions that functions of `forensics` raise. -/
inductive Exc where
  | recordFormat (e : FormatError)
  | overflowError
  | keyError (key : Str)
  | valueError
  | storeError (line : ℕ) (reason : StoreReason)
  | appendError (reason : AppendReason)
  | chainVerification (line : ℕ) (reason : VerificationReason)
  | fileNotFound
  | osError
  | lockTimeout
  | signerRaised
deriving DecidableEq

/-! ### Fields -/

/-- `GENESIS_PREV_HASH`. -/
def genesisPrevHash : Str := ofChars genesis

def v1EventFields : List Str :=
  [lit "ts_utc", lit "node_id", lit "raw_csi_hash", lit "features_hash", lit "model_id",
    lit "model_config_hash", lit "class", lit "confidence", lit "top_shap"]

def v2CommonEventFields : List Str :=
  [lit "format_version", lit "event_type", lit "ts_utc", lit "node_id", lit "raw_csi_hash"]

def v2IngestionEventFields : List Str :=
  v2CommonEventFields ++ [lit "collector_schema_version", lit "collector_sequence_number"]

def v2ClassificationEventFields : List Str :=
  v2CommonEventFields ++ [lit "features_hash", lit "model_id", lit "model_config_hash", lit "class",
    lit "confidence", lit "top_shap"]

def managedFields : List Str := [lit "seq", lit "prev_hash", lit "record_hash", lit "signature"]

/-- `event[key]`. -/
def fetch (d : Dict) (key : Str) : Except Exc Value := orError (.keyError key) (d.get? key)

/-- Whether a number of Python equals an integer. -/
def eqInt : Value → ℤ → Bool
  | .atom (.int m), n => m == n
  | .atom (.bool b), n => (if b then 1 else 0) == n
  | .atom (.float (.finite x)), n =>
    (if x.negative then -(units x.index : ℤ) else units x.index) == n * scale
  | _, _ => false

/-- `record_format_version`. -/
def recordFormatVersion (record : Dict) : ℕ :=
  if (record.get? (lit "format_version")).any fun v => eqInt v 2 then 2 else 1

/-- `_event_fields`. -/
def eventFields (event : Dict) : Except Exc (List Str) :=
  match event.get? (lit "format_version") with
  | none =>
    if lit "event_type" ∈ event.keys then .error (.recordFormat .versionMissing) else .ok v1EventFields
  | some (.atom (.int n)) =>
    if n ≠ 2 then .error (.recordFormat .versionNotTwo)
    else
      match event.get? (lit "event_type") with
      | some (.atom (.str s)) =>
        if s = lit "ingestion_accepted" then .ok v2IngestionEventFields
        else if s = lit "classification_decision" then .ok v2ClassificationEventFields
        else .error (.recordFormat .eventType)
      | _ => .error (.recordFormat .eventType)
  | some _ => .error (.recordFormat .versionNotTwo)

/-! ### Values -/

/-- `_require_unicode_scalars`. -/
def requireUnicodeScalars (value : Str) (path : Path) : Except Exc Unit :=
  require ((scalars? value).isSome = true) (.recordFormat (.surrogate path))

/-- `_require_nonempty_string`. -/
def requireNonemptyString (value : Value) (field : Str) : Except Exc Unit :=
  match value with
  | .atom (.str s) => do
    require (s ≠ []) (.recordFormat (.emptyString field))
    requireUnicodeScalars s (.field field)
  | _ => .error (.recordFormat (.emptyString field))

/-- `[0-9a-f]{n}\Z`. -/
def isHex (n : ℕ) (s : Str) : Bool := s.length == n && s.all fun c => c.scalar?.any isLowerHex

/-- `_require_hash`. -/
def requireHash (value : Value) (field : Str) : Except Exc Unit :=
  match value with
  | .atom (.str s) => require (isHex 64 s = true) (.recordFormat (.hashShape field))
  | _ => .error (.recordFormat (.hashShape field))

/-- `_validate_json_value` on what is not a container. -/
def validateJsonAtom (a : Atom) (path : Path) : Except Exc Unit :=
  match a with
  | .none => .ok ()
  | .bool _ => .ok ()
  | .str s => requireUnicodeScalars s path
  | .int n => require (-2 ^ 63 ≤ n ∧ n < 2 ^ 63) (.recordFormat (.integerRange path))
  | .float (.finite _) => .ok ()
  | .float _ => .error (.recordFormat (.nonFinite path))
  | .other name => .error (.recordFormat (.unsupportedType path name))

/-- `_validate_json_value` on the items of a list, from the given index on. -/
def validateItems (path : Path) : ℕ → List (Path → Except Exc Unit) → Except Exc Unit
  | _, [] => .ok ()
  | i, check :: checks => do
    check (.index path i)
    validateItems path (i + 1) checks

/-- `_validate_json_value` on the items of a dictionary. -/
def validateMembers (path : Path) : List (Str × (Path → Except Exc Unit)) → Except Exc Unit
  | [] => .ok ()
  | (key, check) :: checks => do
    requireUnicodeScalars key (.objectKey path)
    check (.member path key)
    validateMembers path checks

/-- `_validate_json_value`. -/
def validateJsonValue : Value → Path → Except Exc Unit :=
  fold validateJsonAtom (fun checks path => validateItems path 0 checks) fun checks path =>
    validateMembers path checks

/-- `math.isfinite`, which converts an integer to a float first. -/
def isFinite : Value → Except Exc Bool
  | .atom (.int n) => if nearest n.natAbs 1 < infinite then .ok true else .error .overflowError
  | .atom (.float (.finite _)) => .ok true
  | _ => .ok false

/-- `0 <= value <= 1` for a number. -/
def isUnit : Value → Bool
  | .atom (.int n) => decide (0 ≤ n ∧ n ≤ 1)
  | .atom (.float (.finite x)) => (x.index == 0 || !x.negative) && decide (units x.index ≤ scale)
  | _ => false

/-- The check of `confidence`. -/
def validateConfidence (confidence : Value) : Except Exc Unit :=
  match confidence with
  | .atom (.int _) | .atom (.float _) => do
    let finite ← isFinite confidence
    require (finite = true ∧ isUnit confidence = true) (.recordFormat .confidenceRange)
  | _ => .error (.recordFormat .confidenceNotNumber)

/-- The check of `ts_utc`. -/
def validateTimestamp (timestamp : Value) : Except Exc Unit :=
  match timestamp with
  | .atom (.str s) => do
    require (matchesRfc3339Utc s = true) (.recordFormat .timestampShape)
    match parseTimestamp s with
    | none => .error (.recordFormat .timestampInvalid)
    | some t => require (t.utcoffset = 0) (.recordFormat .timestampNotUtc)
  | _ => .error (.recordFormat .timestampShape)

/-- A sequence number: an integer from `0` to `2^63 - 1`. -/
def requireCounter (value : Value) (e : FormatError) : Except Exc Unit :=
  match value with
  | .atom (.int n) => require (0 ≤ n ∧ n < 2 ^ 63) (.recordFormat e)
  | _ => .error (.recordFormat e)

/-- A field with its check. -/
def checkField (event : Dict) (check : Value → Str → Except Exc Unit) (field : Str) :
    Except Exc Unit := do
  check (← fetch event field) field

/-- Whether an event has the fields of a classification. -/
def isClassification (event : Dict) : Except Exc Bool :=
  if recordFormatVersion event = 1 then .ok true
  else (fetch event (lit "event_type")).map fun v =>
    match v with
    | .atom (.str s) => s == lit "classification_decision"
    | _ => false

/-- `_validate_event_values`. -/
def validateEventValues (event : Dict) : Except Exc Unit := do
  let _ ← eventFields event
  checkField event requireNonemptyString (lit "node_id")
  validateTimestamp (← fetch event (lit "ts_utc"))
  checkField event requireHash (lit "raw_csi_hash")
  if ← isClassification event then
    checkField event requireNonemptyString (lit "model_id")
    checkField event requireNonemptyString (lit "class")
    checkField event requireHash (lit "features_hash")
    checkField event requireHash (lit "model_config_hash")
    validateConfidence (← fetch event (lit "confidence"))
    validateJsonValue (← fetch event (lit "top_shap")) (.field (lit "top_shap"))
  else
    checkField event requireNonemptyString (lit "collector_schema_version")
    requireCounter (← fetch event (lit "collector_sequence_number")) .sequenceRange

/-- `sorted` of a set of strings. -/
def sortedFields (fields : List Str) : List Str := fields.insertionSort (· ≤ ·)

/-- `validate_event`. -/
def validateEvent (event : Value) : Except Exc Dict :=
  match event with
  | .object event => do
    let expected ← eventFields event
    let missing := expected.filter (· ∉ Dict.keys event)
    let unknown := (Dict.keys event).filter (· ∉ expected)
    require (missing = []) (.recordFormat (.missingFields (sortedFields missing)))
    require (unknown = []) (.recordFormat (.unknownFields (sortedFields unknown)))
    validateEventValues event
    return event
  | _ => .error (.recordFormat .notMapping)

/-- The fields of a record that its event has. -/
def eventOf (record : Dict) : Dict := record.filter fun m => m.1 ∉ managedFields

/-- The check of `signature`. -/
def validateSignature (signature : Value) : Except Exc Unit :=
  match signature with
  | .atom (.str s) => require (isHex 128 s = true) (.recordFormat .signatureShape)
  | _ => .error (.recordFormat .signatureShape)

/-- `validate_stored_record`. -/
def validateStoredRecord (record : Value) : Except Exc Dict :=
  match record with
  | .object record => do
    let missing := managedFields.filter (· ∉ Dict.keys record)
    require (missing = []) (.recordFormat (.missingManaged (sortedFields missing)))
    let _ ← validateEvent (.object (eventOf record))
    requireCounter (← fetch record (lit "seq")) .seqRange
    checkField record requireHash (lit "prev_hash")
    checkField record requireHash (lit "record_hash")
    validateSignature (← fetch record (lit "signature"))
    return record
  | _ => .error (.recordFormat .notObject)

/-! ### Bytes -/

/-- `canonical_json_bytes`, of a value that is nested no deeper than the interpreter's recursion limit allows. -/
def canonicalJsonBytes (value : Value) : Except Exc (List UInt8) :=
  match dumps value with
  | .error e => .error (.recordFormat (.notEncodable e))
  | .ok serialized => orError (.recordFormat .notScalarValues) (encodeUtf8 serialized)

/-- The fields of a record that are hashed and signed. -/
def unsignedOf (record : Dict) : Dict :=
  record.filter fun m => m.1 ∉ [lit "record_hash", lit "signature"]

/-- `hash_unsigned_record`. -/
def hashUnsignedRecord (sha256 : Sha256) (record : Dict) : Except Exc (List UInt8 × Str) := do
  let recordBytes ← canonicalJsonBytes (.object (unsignedOf record))
  return (recordBytes, ofChars (sha256.hexdigest recordBytes))

end Forensics
end Vestrix
