/-
# Verifying a chain

`chain.rs`: the record schema and the streaming check of canonical lines.  An error text is
a constructor of `Reason` with what the text names.

The file is a list of bytes, so that reading it does not fail.  SHA-256 and
`VerifyingKey::verify_strict` are parameters, and so is how `serde_json` reads floats.
-/

import Vestrix.Record.Digest
import Vestrix.Text.Lines
import Vestrix.Verifier.Unambiguous

namespace Vestrix
namespace Verifier

open Text Rounding Json Outcome Record

/-- `serde_json::Map`: entries in the order of their keys. -/
abbrev Object := List (List Char × Value)

def v1Fields : List (List Char) :=
  ["seq".toList, "ts_utc".toList, "node_id".toList, "raw_csi_hash".toList, "features_hash".toList,
    "model_id".toList, "model_config_hash".toList, "class".toList, "confidence".toList,
    "top_shap".toList, "prev_hash".toList, "record_hash".toList, "signature".toList]

def v2IngestionFields : List (List Char) :=
  ["format_version".toList, "event_type".toList, "seq".toList, "ts_utc".toList, "node_id".toList,
    "raw_csi_hash".toList, "collector_schema_version".toList, "collector_sequence_number".toList,
    "prev_hash".toList, "record_hash".toList, "signature".toList]

def v2ClassificationFields : List (List Char) :=
  ["format_version".toList, "event_type".toList, "seq".toList, "ts_utc".toList, "node_id".toList,
    "raw_csi_hash".toList, "features_hash".toList, "model_id".toList, "model_config_hash".toList,
    "class".toList, "confidence".toList, "top_shap".toList, "prev_hash".toList, "record_hash".toList,
    "signature".toList]

/-- `ChainTip`. -/
structure ChainTip where
  seq : ℕ
  recordHash : List Char
deriving DecidableEq

/-- `VerificationReport`. -/
structure VerificationReport where
  records : ℕ
  tip : Option ChainTip
deriving DecidableEq

/-- The texts of `ChainError`. -/
inductive Reason where
  | notTerminated
  | blankLine
  | invalidUtf8
  | invalidJson (cause : ParseError)
  | notObject
  | notInteger (field : List Char)
  | notString (field : List Char)
  | versionNotTwo
  | eventType
  | schemaMismatch (missing extra : List (List Char))
  | timestampShape
  | timestampDigits
  | timestampMonth
  | timestampDay
  | timestampTime
  | empty (field : List Char)
  | hexLength (field : List Char)
  | hexDigits (field : List Char)
  | confidenceNotNumber
  | confidenceRange
  | mixesVersions
  | cannotSerialize (cause : CanonicalizeError)
  | notCanonical
  | sequenceGap (found expected : ℕ)
  | sequenceOrder (found expected : ℕ)
  | linkBroken
  | recordHash
  | signature
  | overflow
deriving DecidableEq

/-- `ChainError`. -/
structure ChainError where
  seq : ℕ
  reason : Reason
deriving DecidableEq

/-! ### The schema -/

/-- `Value::as_i64`. -/
def asI64 : Value → Option ℤ
  | .atom (.number n) => n.asI64
  | _ => none

/-- `Value::as_str`. -/
def asStr : Value → Option (List Char)
  | .atom (.string s) => some s
  | _ => none

/-- `Value::as_number`. -/
def asNumber : Value → Option Number
  | .atom (.number n) => some n
  | _ => none

/-- `integer_field`. -/
def integerField (object : Object) (field : List Char) : Except Reason ℕ :=
  orError (.notInteger field) (((lookup object field).bind asI64).bind fun n =>
    if 0 ≤ n then some n.toNat else none)

/-- `string_field`. -/
def stringField (object : Object) (field : List Char) : Except Reason (List Char) :=
  orError (.notString field) ((lookup object field).bind asStr)

/-- `u8::is_ascii_digit`. -/
def isAsciiDigit (b : UInt8) : Bool := decide (0x30 ≤ b) && decide (b ≤ 0x39)

/-- `validate_lower_hex`, with the field that its caller names. -/
def validateLowerHex (field value : List Char) (length : ℕ) : Except Reason Unit := do
  require ((utf8 value).length = length) (.hexLength field)
  require ((utf8 value).all (fun b => isAsciiDigit b || decide (0x61 ≤ b) && decide (b ≤ 0x66)) = true)
    (.hexDigits field)

/-- `decimal`. -/
def decimal (bytes : List UInt8) : ℕ := bytes.foldl (fun value digit => value * 10 + (digit - 0x30).toNat) 0

/-- `bytes[start..stop]`. -/
def slice (bytes : List UInt8) (start stop : ℕ) : List UInt8 := (bytes.drop start).take (stop - start)

/-- The days of a month, if it is one. -/
def maxDay (year month : ℕ) : Option ℕ :=
  let leap := year % 4 = 0 ∧ (¬ year % 100 = 0 ∨ year % 400 = 0)
  if month = 1 ∨ month = 3 ∨ month = 5 ∨ month = 7 ∨ month = 8 ∨ month = 10 ∨ month = 12 then some 31
  else if month = 4 ∨ month = 6 ∨ month = 9 ∨ month = 11 then some 30
  else if month = 2 then (if leap then some 29 else some 28)
  else none

/-- Where the numbers of a timestamp are. -/
def digitRanges : List (ℕ × ℕ) := [(0, 4), (5, 7), (8, 10), (11, 13), (14, 16), (17, 19)]

/-- `validate_timestamp`. -/
def validateTimestamp (value : List Char) : Except Reason Unit := do
  let bytes := utf8 value
  require (20 ≤ bytes.length ∧ bytes[4]? = some 0x2D ∧ bytes[7]? = some 0x2D ∧ bytes[10]? = some 0x54 ∧
    bytes[13]? = some 0x3A ∧ bytes[16]? = some 0x3A ∧ bytes.getLast? = some 0x5A ∧
    (bytes.length = 20 ∨ (bytes[19]? = some 0x2E ∧ 21 < bytes.length))) .timestampShape
  require ((digitRanges.all fun r => (slice bytes r.1 r.2).all isAsciiDigit) = true ∧
    (20 < bytes.length → (slice bytes 20 (bytes.length - 1)).all isAsciiDigit = true)) .timestampDigits
  let year := decimal (slice bytes 0 4)
  let month := decimal (slice bytes 5 7)
  let day := decimal (slice bytes 8 10)
  let hour := decimal (slice bytes 11 13)
  let minute := decimal (slice bytes 14 16)
  let second := decimal (slice bytes 17 19)
  let maxDay ← orError .timestampMonth (maxDay year month)
  require (1 ≤ day ∧ day ≤ maxDay) .timestampDay
  require (hour ≤ 23 ∧ minute ≤ 59 ∧ second ≤ 60) .timestampTime

/-- `(0.0..=1.0).contains`. -/
def inUnitInterval : Float64 → Bool
  | .finite x => (x.index == 0 || !x.negative) && decide (units x.index ≤ scale)
  | _ => false

/-- A field with text that must not be empty. -/
def nonemptyField (object : Object) (field : List Char) : Except Reason Unit := do
  let value ← stringField object field
  require (value ≠ []) (.empty field)

/-- A field with a lowercase hexadecimal number. -/
def hexField (object : Object) (length : ℕ) (field : List Char) : Except Reason Unit := do
  let value ← stringField object field
  validateLowerHex field value length

/-- The format version of a record, and the fields that go with it. -/
def expectedFields (object : Object) : Except Reason (ℕ × List (List Char)) :=
  match lookup object "format_version".toList with
  | none => .ok (1, v1Fields)
  | some _ => do
    let version ← integerField object "format_version".toList
    require (version = 2) .versionNotTwo
    let eventType ← stringField object "event_type".toList
    if eventType = "ingestion_accepted".toList then .ok (version, v2IngestionFields)
    else if eventType = "classification_decision".toList then .ok (version, v2ClassificationFields)
    else .error .eventType

/-- A set of names in order, as a `BTreeSet`. -/
def sortedNames (names : List (List Char)) : List (List Char) := names.insertionSort (· ≤ ·)

/-- The check of `confidence`. -/
def validateConfidence (object : Object) : Except Reason Unit := do
  let number ← orError .confidenceNotNumber ((lookup object "confidence".toList).bind asNumber)
  require (inUnitInterval number.asF64 = true) .confidenceRange

/-- `validate_schema`. -/
def validateSchema (object : Object) : Except Reason ℕ := do
  let (formatVersion, expected) ← expectedFields object
  let actual := object.map Prod.fst
  let missing := expected.filter (· ∉ actual)
  let extra := actual.filter (· ∉ expected)
  require (missing = [] ∧ extra = []) (.schemaMismatch (sortedNames missing) (sortedNames extra))
  let _ ← integerField object "seq".toList
  validateTimestamp (← stringField object "ts_utc".toList)
  nonemptyField object "node_id".toList
  checkAll (hexField object 64) ["raw_csi_hash".toList, "prev_hash".toList, "record_hash".toList]
  hexField object 128 "signature".toList
  if formatVersion = 1 ∨
      (lookup object "event_type".toList).bind asStr = some "classification_decision".toList then
    checkAll (nonemptyField object) ["model_id".toList, "class".toList]
    checkAll (hexField object 64) ["features_hash".toList, "model_config_hash".toList]
    validateConfidence object
  else
    nonemptyField object "collector_schema_version".toList
    let _ ← integerField object "collector_sequence_number".toList
  return formatVersion

/-! ### The chain -/

/-- What the loop of `verify_reader` carries along. -/
structure Progress where
  expectedSeq : ℕ
  expectedPrev : List Char
  tip : Option ChainTip
  chainFormatVersion : Option ℕ
deriving DecidableEq

/-- `GENESIS_HASH` and what else the loop starts from. -/
def Progress.start : Progress := ⟨0, genesis, none, none⟩

/-- `Value::as_object`. -/
def asObject : Value → Option Object
  | .object ms => some ms
  | _ => none

/-- `object.remove` of the fields that are not hashed. -/
def unsignedOf (object : Object) : Object :=
  object.filter fun m => m.1 ∉ ["record_hash".toList, "signature".toList]

section

variable (sha256 : Sha256) (verifyStrict : List UInt8 → List UInt8 → Bool) (readFloat : FloatReader)

/-- The body of the loop of `verify_reader` on one physical line. -/
def verifyLine (p : Progress) (physicalLine : List UInt8) : Except Reason Progress := do
  require (physicalLine.getLast? = some lineFeed) .notTerminated
  let line := physicalLine.dropLast
  require (line ≠ []) .blankLine
  let stored ← orError .invalidUtf8 (fromUtf8 line)
  let value ← (parse readFloat stored).mapError .invalidJson
  let object ← orError .notObject (asObject value)
  let formatVersion ← validateSchema object
  require (∀ v ∈ p.chainFormatVersion, formatVersion = v) .mixesVersions
  let canonical ← (serialize value).mapError .cannotSerialize
  require (canonical = line) .notCanonical
  let seq ← integerField object "seq".toList
  require (seq = p.expectedSeq)
    (if p.expectedSeq < seq then .sequenceGap seq p.expectedSeq else .sequenceOrder seq p.expectedSeq)
  let prevHash ← stringField object "prev_hash".toList
  require (prevHash = p.expectedPrev) .linkBroken
  let recordHash ← stringField object "record_hash".toList
  let signatureHex ← stringField object "signature".toList
  let recordBytes ← (serialize (.object (unsignedOf object))).mapError .cannotSerialize
  require (sha256.hexdigest recordBytes = recordHash) .recordHash
  validateLowerHex "signature".toList signatureHex 128
  let signature ← orError (.hexDigits "signature".toList) (fromHex signatureHex)
  require (verifyStrict signature recordBytes = true) .signature
  require (p.expectedSeq + 1 < 2 ^ 64) .overflow
  return ⟨p.expectedSeq + 1, recordHash, some ⟨seq, recordHash⟩, some formatVersion⟩

/-- The loop of `verify_reader` on the lines that are left. -/
def verifyLines : Progress → List (List UInt8) → Except ChainError Progress
  | p, [] => .ok p
  | p, line :: lines =>
    match verifyLine sha256 verifyStrict readFloat p line with
    | .error reason => .error ⟨p.expectedSeq, reason⟩
    | .ok p => verifyLines p lines

/-- `verify_reader` on a file. -/
def verifyReader (file : List UInt8) : Except ChainError VerificationReport :=
  (verifyLines sha256 verifyStrict readFloat .start (physicalLines file)).map fun p =>
    ⟨p.expectedSeq, p.tip⟩

end

end Verifier
end Vestrix
