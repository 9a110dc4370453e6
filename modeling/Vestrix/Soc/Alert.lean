/-
# Alerts

`mapper.py` of `soc-integration`: the fields of an alert and `validate_alert`.  An error text is a
constructor of `AlertError` with the field or the index that the text names.

A dictionary has string keys here.  One with another key is an `Atom.other`, which is no JSON value
either; where only its hash matters, such an atom counts as hashable.
-/

import Vestrix.Calendar
import Vestrix.Forensics.Format

namespace Vestrix
namespace Soc

open Text Rounding Json Outcome Python Calendar
open Forensics (isHex isUnit sortedFields)

/-! ### Errors -/

/-- A field that an error text names. -/
inductive Place where
  | field (name : Str)
  | feature (index : ℕ)
deriving DecidableEq

/-- The texts of `AlertValidationError`. -/
inductive AlertError where
  | notObject
  | missingFields (fields : List Str)
  | unknownFields (fields : List Str)
  | schemaVersion
  | source
  | timestampShape
  | timestampInvalid
  | timestampNotUtc
  | eventClass
  | confidenceRange
  | confidenceLevel
  | levelMismatch (expectedLevel : Str) (confidence : Binary64)
  | shapNotArray
  | shapNotObject (index : ℕ)
  | shapFields (index : ℕ)
  | shapValue (index : ℕ)
  | shapRank (index : ℕ)
  | pacsStatus
  | pacsMatched
  | pacsMissing
  | pacsNotApplicable
  | hashShape (field : Str)
  | emptyString (place : Place)
  | negativeInteger (field : Str)
deriving DecidableEq

/-- The exceptions of the functions of `mapper.py`. -/
inductive Exc where
  | alertValidation (e : AlertError)
  | typeError
  | overflowError
  | keyError (key : Str)
deriving DecidableEq

/-! ### Fields -/

/-- `SOC_SCHEMA_VERSION`. -/
def socSchemaVersion : Str := lit "1.0"

/-- `_CLASSES`. -/
def classes : List Str := [lit "intrusion", lit "normal", lit "sensor_tamper"]

/-- `_CONFIDENCE_LEVELS`. -/
def confidenceLevels : List Str := [lit "low", lit "borderline", lit "high"]

/-- `_PACS_STATUSES`. -/
def pacsStatuses : List Str := [lit "matched", lit "missing", lit "unknown", lit "not_applicable"]

/-- `_REQUIRED_FIELDS`. -/
def requiredFields : List Str :=
  [lit "schema_version", lit "source", lit "event_id", lit "ts_utc", lit "node_id", lit "site_id",
    lit "zone_id", lit "class", lit "confidence", lit "confidence_level", lit "model_id", lit "top_shap",
    lit "pacs_event_status", lit "pacs_reader_id", lit "pacs_event_id"]

/-- `_OPTIONAL_FIELDS`. -/
def optionalFields : List Str :=
  [lit "csi_window_sha256", lit "sequence_number", lit "seq", lit "record_hash"]

/-- The fields that are strings which are not blank. -/
def textFields : List Str := [lit "event_id", lit "node_id", lit "site_id", lit "zone_id", lit "model_id"]

/-- The optional fields that are hashes. -/
def hashFields : List Str := [lit "csi_window_sha256", lit "record_hash"]

/-- The optional fields that are counters. -/
def counterFields : List Str := [lit "sequence_number", lit "seq"]

/-- `alert[key]`. -/
def fetch (d : Dict) (key : Str) : Except Exc Value := orError (.keyError key) (d.get? key)

/-! ### Python -/

/-- `str.isspace` of one character, in Unicode 14. -/
def isSpace (c : CodePoint) : Bool :=
  [0x9, 0xA, 0xB, 0xC, 0xD, 0x1C, 0x1D, 0x1E, 0x1F, 0x20, 0x85, 0xA0, 0x1680, 0x2000, 0x2001, 0x2002, 0x2003,
    0x2004, 0x2005, 0x2006, 0x2007, 0x2008, 0x2009, 0x200A, 0x2028, 0x2029, 0x202F, 0x205F,
    0x3000].contains c.ord

/-- `str.strip`. -/
def strip (s : Str) : Str := ((s.dropWhile isSpace).reverse.dropWhile isSpace).reverse

/-- Whether a value equals a string. -/
def isText : Value → Str → Bool
  | .atom (.str s), t => s == t
  | _, _ => false

/-- Whether a value is `None`. -/
def isNone : Value → Bool
  | .atom .none => true
  | _ => false

/-- `value in members`, for a `frozenset` of strings: a list or a dictionary has no hash. -/
def isMember (value : Value) (members : List Str) : Except Exc Bool :=
  match value with
  | .array _ => .error .typeError
  | .object _ => .error .typeError
  | .atom (.str s) => .ok (decide (s ∈ members))
  | .atom _ => .ok false

/-- `math.isfinite` of a number. -/
def isFinite (value : Value) : Except Exc Bool := (Forensics.isFinite value).mapError fun _ => .overflowError

/-- `float` of a finite number. -/
def toFloat : Value → Except Exc Binary64
  | .atom (.int n) =>
    if h : nearest n.natAbs 1 < infinite then .ok ⟨decide (n < 0), _, h⟩ else .error .overflowError
  | .atom (.float (.finite x)) => .ok x
  | _ => .error .typeError

/-! ### Timestamps -/

/-- An optional fraction of one to nine digits and the letter Z. -/
def matchesFraction (s : Str) : Bool :=
  match skipOne '.' s with
  | none => s == lit "Z"
  | some s =>
    !(s.takeWhile isDecimal).isEmpty && decide ((s.takeWhile isDecimal).length ≤ 9) &&
      s.dropWhile isDecimal == lit "Z"

/-- `_TIMESTAMP_RE`. -/
def matchesTimestamp (s : Str) : Bool := (skipFields s).any matchesFraction

/-- `value.removesuffix("Z")`. -/
def removeZ (value : Str) : Str := if value.getLast? = some (.scalar 'Z') then value.dropLast else value

/-- The microseconds that `fromisoformat` reads: six digits at most, and zeros for the others. -/
def microsecondOf (value : Str) : ℕ :=
  let ds := ((value.drop 20).take 6).filterMap fun c => c.scalar?.filter Char.isDigit
  digitsValue ds * 10 ^ (6 - ds.length)

/-- The date of a `datetime`. -/
def dateOf (t : Datetime) : Date := ⟨t.year, t.month, t.day, t.year_range.1, t.month_range, t.day_range⟩

/-- The microseconds from the year 1 to a `datetime`, as its fields say. -/
def instantOf (t : Datetime) (microsecond : ℕ) : ℕ :=
  ((dateOf t).ordinal - 1) * 86400000000 + ((t.hour * 60 + t.minute) * 60 + t.second) * 1000000 + microsecond

/-- The same for the first of January 1970. -/
def epoch : ℕ := 719162 * 86400000000

/-- `_to_epoch_millis`. -/
def toEpochMillis (value : Str) : Except Exc ℤ :=
  match fromisoformat (removeZ value ++ lit "+00:00") with
  | none => .error (.alertValidation .timestampInvalid)
  | some parsed => do
    require (parsed.utcoffset = 0) (.alertValidation .timestampNotUtc)
    let delta : ℤ := instantOf parsed (microsecondOf value) - epoch
    return delta / 86400000000 * 86400000 + delta % 86400000000 / 1000000 * 1000 + delta % 1000000 / 1000

example : toEpochMillis (lit "2026-07-13T20:15:01.2345Z") = .ok 1783973701234 := by decide

/-! ### Checks -/

/-- `confidence_level`. -/
def confidenceLevel (confidence : Binary64) : Str :=
  if confidence.negative = false ∧ ofDecimal 90 (-2) ≤ confidence.index then lit "high"
  else if confidence.negative = false ∧ ofDecimal 60 (-2) ≤ confidence.index then lit "borderline"
  else lit "low"

/-- `_require_nonempty_string`. -/
def requireNonemptyString (value : Value) (place : Place) : Except Exc Unit :=
  match value with
  | .atom (.str s) => require (strip s ≠ []) (.alertValidation (.emptyString place))
  | _ => .error (.alertValidation (.emptyString place))

/-- `_require_optional_string`. -/
def requireOptionalString (value : Value) (field : Str) : Except Exc Unit :=
  if isNone value then .ok () else requireNonemptyString value (.field field)

/-- `_require_nonnegative_integer`. -/
def requireNonnegativeInteger (value : Value) (field : Str) : Except Exc Unit :=
  match value with
  | .atom (.int n) => require (¬ n < 0) (.alertValidation (.negativeInteger field))
  | _ => .error (.alertValidation (.negativeInteger field))

/-- The check of the fields that are there. -/
def validateFields (alert : Dict) : Except Exc Unit := do
  let missing := requiredFields.filter (· ∉ Dict.keys alert)
  let unknown := (Dict.keys alert).filter (· ∉ requiredFields ++ optionalFields)
  require (missing = []) (.alertValidation (.missingFields (sortedFields missing)))
  require (unknown = []) (.alertValidation (.unknownFields (sortedFields unknown)))

/-- The check of `ts_utc`. -/
def validateTimestamp (timestamp : Value) : Except Exc Unit :=
  match timestamp with
  | .atom (.str s) => do
    require (matchesTimestamp s = true) (.alertValidation .timestampShape)
    let _ ← toEpochMillis s
  | _ => .error (.alertValidation .timestampShape)

/-- The check of `class`. -/
def validateClass (eventClass : Value) : Except Exc Unit := do
  require ((← isMember eventClass classes) = true) (.alertValidation .eventClass)

/-- The check of `confidence`, and the float that it is. -/
def validateConfidence (confidence : Value) : Except Exc Binary64 :=
  match confidence with
  | .atom (.int _) | .atom (.float _) => do
    require ((← isFinite confidence) = true ∧ isUnit confidence = true) (.alertValidation .confidenceRange)
    toFloat confidence
  | _ => .error (.alertValidation .confidenceRange)

/-- The check of `confidence_level`. -/
def validateLevel (level : Value) (confidence : Binary64) : Except Exc Unit := do
  require ((← isMember level confidenceLevels) = true) (.alertValidation .confidenceLevel)
  require (isText level (confidenceLevel confidence) = true)
    (.alertValidation (.levelMismatch (confidenceLevel confidence) confidence))

/-- The check of `value` in a contribution. -/
def validateContribution (contribution : Value) (index : ℕ) : Except Exc Unit :=
  match contribution with
  | .atom (.int _) | .atom (.float _) => do
    require ((← isFinite contribution) = true) (.alertValidation (.shapValue index))
  | _ => .error (.alertValidation (.shapValue index))

/-- The check of `rank` in a contribution. -/
def validateRank (rank : Value) (index : ℕ) : Except Exc Unit :=
  match rank with
  | .atom (.int n) => require (¬ n ≤ 0) (.alertValidation (.shapRank index))
  | _ => .error (.alertValidation (.shapRank index))

/-- One round of the loop of `_validate_top_shap`. -/
def validateItem (index : ℕ) (item : Value) : Except Exc Unit :=
  match item with
  | .object item => do
    let unknown := (Dict.keys item).filter (· ∉ [lit "feature", lit "value", lit "rank"])
    require (unknown = [] ∧ ∀ key ∈ [lit "feature", lit "value"], key ∈ Dict.keys item)
      (.alertValidation (.shapFields index))
    requireNonemptyString (← fetch item (lit "feature")) (.feature index)
    validateContribution (← fetch item (lit "value")) index
    if lit "rank" ∈ Dict.keys item then validateRank (← fetch item (lit "rank")) index
  | _ => .error (.alertValidation (.shapNotObject index))

/-- The loop of `_validate_top_shap`, from an index on. -/
def validateItems : ℕ → List Value → Except Exc Unit
  | _, [] => .ok ()
  | index, item :: items => do
    validateItem index item
    validateItems (index + 1) items

/-- `_validate_top_shap`. -/
def validateTopShap (value : Value) : Except Exc Unit :=
  match value with
  | .array items => validateItems 0 items
  | _ => .error (.alertValidation .shapNotArray)

/-- `_validate_pacs`. -/
def validatePacs (alert : Dict) : Except Exc Unit := do
  let status ← fetch alert (lit "pacs_event_status")
  require ((← isMember status pacsStatuses) = true) (.alertValidation .pacsStatus)
  let readerId ← fetch alert (lit "pacs_reader_id")
  let eventId ← fetch alert (lit "pacs_event_id")
  requireOptionalString readerId (lit "pacs_reader_id")
  requireOptionalString eventId (lit "pacs_event_id")
  require (¬ (isText status (lit "matched") = true ∧ (isNone readerId = true ∨ isNone eventId = true)))
    (.alertValidation .pacsMatched)
  require (¬ (isText status (lit "missing") = true ∧ isNone eventId = false)) (.alertValidation .pacsMissing)
  require (¬ (isText status (lit "not_applicable") = true ∧
    (isNone readerId = false ∨ isNone eventId = false))) (.alertValidation .pacsNotApplicable)

/-- The check of a hash. -/
def validateHash (value : Value) (field : Str) : Except Exc Unit :=
  match value with
  | .atom (.str s) => require (isHex 64 s = true) (.alertValidation (.hashShape field))
  | _ => .error (.alertValidation (.hashShape field))

/-- The check of a field, if it is there. -/
def checkOptional (alert : Dict) (check : Value → Str → Except Exc Unit) (field : Str) : Except Exc Unit :=
  match alert.get? field with
  | some value => check value field
  | none => .ok ()

/-- `validate_alert`. -/
def validateAlert (alert : Value) : Except Exc Dict :=
  match alert with
  | .object alert => do
    validateFields alert
    require (isText (← fetch alert (lit "schema_version")) socSchemaVersion = true)
      (.alertValidation .schemaVersion)
    require (isText (← fetch alert (lit "source")) (lit "vestrix") = true) (.alertValidation .source)
    checkAll (fun field => do requireNonemptyString (← fetch alert field) (.field field)) textFields
    validateTimestamp (← fetch alert (lit "ts_utc"))
    validateClass (← fetch alert (lit "class"))
    let confidence ← validateConfidence (← fetch alert (lit "confidence"))
    validateLevel (← fetch alert (lit "confidence_level")) confidence
    validateTopShap (← fetch alert (lit "top_shap"))
    validatePacs alert
    checkAll (checkOptional alert validateHash) hashFields
    checkAll (checkOptional alert requireNonnegativeInteger) counterFields
    return alert
  | _ => .error (.alertValidation .notObject)

end Soc
end Vestrix
