/-
# What validation raises

`RecordFormatError` is what the checks of `_format.py` raise, whatever value they are given, with one
exception: `math.isfinite` converts an integer `confidence` to a float, and raises
`OverflowError` where that does not fit.  `validateStoredRecord_overflow` says of which records;
what the checks let through has canonical bytes (`exists_canonicalJsonBytes`).
-/

import Vestrix.Forensics.Validation
import Vestrix.Raises
import Vestrix.Rounding.Exact

namespace Vestrix
namespace Forensics

open Text Rounding Json Outcome Python Record

/-- `RecordFormatError`. -/
def IsFormatError (e : Exc) : Prop := ∃ f, e = .recordFormat f

/-- An overflow is not an error of the format. -/
theorem not_isFormatError_overflow : ¬ IsFormatError .overflowError := by
  rintro ⟨f, hf⟩
  cases hf

/-- The fields of a decision that are checked before `confidence`. -/
def earlierFields : List Field := commonFields ++ decisionFields.take 4

/-- The checks of a record get to a `confidence` that is an integer which does not fit a float. -/
structure Overflows (record : Dict) (shape : Shape) (n : ℤ) : Prop where
  managed : ∀ k ∈ managedFields, k ∈ record.keys
  decision : shape ≠ .ingestion
  declares : Declares (eventOf record) shape
  fields : ∀ k, k ∈ (eventOf record).keys ↔ k ∈ fieldsOf shape
  earlier : ∀ f ∈ earlierFields, Has (eventOf record) f
  confidence : (eventOf record).get? (lit "confidence") = some (.atom (.int n))
  overflow : 2 ^ 1024 - 2 ^ 970 ≤ n.natAbs

/-! ### Single values -/

section Checks

variable {v : Value} {path : Path} {field : Str}

/-- A `RecordFormatError` is an error of the format. -/
theorem isFormatError (e : FormatError) : IsFormatError (.recordFormat e) := ⟨e, rfl⟩

/-- The check of a text's scalar values raises `RecordFormatError` only. -/
theorem raises_requireUnicodeScalars {s : Str} : Raises IsFormatError (requireUnicodeScalars s path) :=
  .require (isFormatError _)

/-- `_require_nonempty_string` raises `RecordFormatError` only. -/
theorem raises_requireNonemptyString : Raises IsFormatError (requireNonemptyString v field) := by
  unfold requireNonemptyString
  split
  · exact (Raises.require (isFormatError _)).bind fun _ _ => raises_requireUnicodeScalars
  · exact .error (isFormatError _)

/-- `_require_hash` raises `RecordFormatError` only. -/
theorem raises_requireHash : Raises IsFormatError (requireHash v field) := by
  unfold requireHash
  split
  · exact .require (isFormatError _)
  · exact .error (isFormatError _)

/-- The check of a signature raises `RecordFormatError` only. -/
theorem raises_validateSignature : Raises IsFormatError (validateSignature v) := by
  unfold validateSignature
  split
  · exact .require (isFormatError _)
  · exact .error (isFormatError _)

/-- The check of a counter raises `RecordFormatError` only. -/
theorem raises_requireCounter {e : FormatError} : Raises IsFormatError (requireCounter v e) := by
  unfold requireCounter
  split
  · exact .require (isFormatError _)
  · exact .error (isFormatError _)

/-- The check of a timestamp raises `RecordFormatError` only. -/
theorem raises_validateTimestamp : Raises IsFormatError (validateTimestamp v) := by
  unfold validateTimestamp
  split
  · refine (Raises.require (isFormatError _)).bind fun _ _ => ?_
    split
    · exact .error (isFormatError _)
    · exact .require (isFormatError _)
  · exact .error (isFormatError _)

/-- The check of an atom raises `RecordFormatError` only. -/
theorem raises_validateJsonAtom {a : Atom} : Raises IsFormatError (validateJsonAtom a path) := by
  cases a with
  | none => exact .ok
  | bool b => exact .ok
  | int n => exact .require (isFormatError _)
  | float x =>
    cases x with
    | finite x => exact .ok
    | infinite b => exact .error (isFormatError _)
    | nan => exact .error (isFormatError _)
  | str s => exact raises_requireUnicodeScalars
  | other name => exact .error (isFormatError _)

/-- The checks of a list raise what those of its items do. -/
theorem raises_validateItems {checks : List (Path → Except Exc Unit)}
    (h : ∀ check ∈ checks, ∀ path, Raises IsFormatError (check path)) {i : ℕ} :
    Raises IsFormatError (validateItems path i checks) := by
  induction checks generalizing i with
  | nil => exact .ok
  | cons check checks ih =>
    obtain ⟨hcheck, hchecks⟩ := List.forall_mem_cons.1 h
    exact (hcheck _).bind fun _ _ => ih hchecks

/-- The checks of an object raise what those of its members do, and `RecordFormatError` for a key. -/
theorem raises_validateMembers {checks : List (Str × (Path → Except Exc Unit))}
    (h : ∀ check ∈ checks, ∀ path, Raises IsFormatError (check.2 path)) :
    Raises IsFormatError (validateMembers path checks) := by
  induction checks with
  | nil => exact .ok
  | cons check checks ih =>
    obtain ⟨hcheck, hchecks⟩ := List.forall_mem_cons.1 h
    exact raises_requireUnicodeScalars.bind fun _ _ => (hcheck _).bind fun _ _ => ih hchecks

/-- The check of a JSON value raises `RecordFormatError` only. -/
theorem raises_validateJsonValue : Raises IsFormatError (validateJsonValue v path) := by
  induction v using ind generalizing path with
  | atom a =>
    rw [validateJsonValue, fold_atom]
    exact raises_validateJsonAtom
  | array xs ih =>
    rw [validateJsonValue, fold_array, ← validateJsonValue]
    exact raises_validateItems (List.forall_mem_map.2 fun x hx path => ih x hx)
  | object ms ih =>
    rw [validateJsonValue, fold_object, ← validateJsonValue]
    exact raises_validateMembers (List.forall_mem_map.2 fun m hm path => ih m hm)

/-- An integer does not fit a float just if it has `2 ^ 1024 - 2 ^ 970` or more. -/
theorem isFinite_overflow {n : ℤ} :
    isFinite (.atom (.int n)) = .error .overflowError ↔ 2 ^ 1024 - 2 ^ 970 ≤ n.natAbs := by
  rw [← infinite_le_nearest_iff, isFinite, ← not_lt]
  split_ifs with h
  · exact ⟨fun h' => (by cases h'), fun h' => absurd h h'⟩
  · exact ⟨fun _ => h, fun _ => rfl⟩

/-- Only the conversion of an integer raises something else. -/
theorem raises_validateConfidence :
    Raises (fun e => IsFormatError e ∨ e = .overflowError ∧ ∃ n, v = .atom (.int n) ∧
      isFinite (.atom (.int n)) = .error .overflowError) (validateConfidence v) := by
  unfold validateConfidence
  split
  · rename_i n
    refine Raises.bind (fun e he => Or.inr ?_) fun _ _ => .require (Or.inl (isFormatError _))
    have hoverflow : e = .overflowError := by
      rw [isFinite] at he
      split_ifs at he
      exact (Except.error.inj he).symm
    exact ⟨hoverflow, n, rfl, hoverflow ▸ he⟩
  · refine Raises.bind (fun e he => ?_) fun _ _ => .require (Or.inl (isFormatError _))
    rename_i x
    cases x <;> cases he
  · exact .error (Or.inl (isFormatError _))

/-- The check of a confidence overflows just for an integer that does not fit a float. -/
theorem validateConfidence_overflow :
    validateConfidence v = .error .overflowError ↔
      ∃ n, v = .atom (.int n) ∧ isFinite (.atom (.int n)) = .error .overflowError := by
  constructor
  · intro h
    rcases raises_validateConfidence _ h with h | ⟨-, h⟩
    · exact absurd h not_isFormatError_overflow
    · exact h
  · rintro ⟨n, rfl, h⟩
    rw [validateConfidence, h]
    rfl

end Checks

/-! ### Events and records -/

section Records

variable {event record : Dict} {shape : Shape} {key : Str}

/-- A key that is there can be fetched. -/
theorem exists_fetch (h : key ∈ event.keys) : ∃ v, fetch event key = .ok v := by
  obtain ⟨v, hv⟩ := keys_isSome.2 h
  exact ⟨v, fetch_eq_ok.2 hv⟩

/-- Fetching a key that is there raises nothing. -/
theorem raises_fetch {P : Exc → Prop} (h : key ∈ event.keys) : Raises P (fetch event key) := by
  obtain ⟨v, hv⟩ := exists_fetch h
  exact .of_ok hv

/-- A field that is there raises what its check does. -/
theorem raises_checkField {check : Value → Str → Except Exc Unit} (h : key ∈ event.keys)
    (hcheck : ∀ v, Raises IsFormatError (check v key)) : Raises IsFormatError (checkField event check key) :=
  (raises_fetch h).bind fun v _ => hcheck v

/-- The check of a field that is there, and what comes after it. -/
theorem checkField_bind_overflow {check : Value → Str → Except Exc Unit} {f : Unit → Except Exc Unit}
    (h : key ∈ event.keys) (hcheck : ∀ v, Raises IsFormatError (check v key)) :
    (checkField event check key >>= f) = .error .overflowError ↔
      (∃ v, event.get? key = some v ∧ check v key = .ok ()) ∧ f () = .error .overflowError := by
  rw [(raises_checkField h hcheck).check_bind_eq_error not_isFormatError_overflow, checkField_eq_ok]

/-- The checks of an event's fields raise `RecordFormatError` only. -/
theorem raises_eventFields : Raises IsFormatError (eventFields event) := by
  intro e he
  unfold eventFields at he
  split at he
  · split_ifs at he
    exact ⟨_, (Except.error.inj he).symm⟩
  · split_ifs at he
    · exact ⟨_, (Except.error.inj he).symm⟩
    · split at he
      · split_ifs at he
        exact ⟨_, (Except.error.inj he).symm⟩
      · exact ⟨_, (Except.error.inj he).symm⟩
  · exact ⟨_, (Except.error.inj he).symm⟩

/-- What the checks of an event with the right fields raise. -/
theorem raises_validateEventValues (h : Declares event shape)
    (hkeys : ∀ k ∈ fieldsOf shape, k ∈ event.keys) :
    Raises (fun e => IsFormatError e ∨ e = .overflowError) (validateEventValues event) := by
  have hfields := eventFields_eq_ok.2 ⟨shape, h, rfl⟩
  have hfield : ∀ {check : Value → Str → Except Exc Unit} {k : Str}, k ∈ fieldsOf shape →
      (∀ v, Raises IsFormatError (check v k)) →
        Raises (fun e => IsFormatError e ∨ e = .overflowError) (checkField event check k) :=
    fun hk hcheck => (raises_checkField (hkeys _ hk) hcheck).mono fun _ => Or.inl
  have hcommon : ∀ k ∈ [lit "node_id", lit "ts_utc", lit "raw_csi_hash"], k ∈ fieldsOf shape := by
    cases shape <;> decide
  rw [validateEventValues, hfields, ok_bind, isClassification_eq h]
  refine (hfield (hcommon _ (by decide)) fun _ => raises_requireNonemptyString).bind fun _ _ => ?_
  refine (raises_fetch (hkeys _ (hcommon _ (by decide)))).bind fun _ _ => ?_
  refine (raises_validateTimestamp.mono fun _ => Or.inl).bind fun _ _ => ?_
  refine (hfield (hcommon _ (by decide)) fun _ => raises_requireHash).bind fun _ _ => ?_
  rw [ok_bind]
  by_cases hshape : shape = .ingestion
  · subst hshape
    refine (hfield (by decide) fun _ => raises_requireNonemptyString).bind fun _ _ => ?_
    exact (raises_fetch (hkeys _ (by decide))).bind fun _ _ => raises_requireCounter.mono fun _ => Or.inl
  · have hdecision : ∀ k ∈ [lit "model_id", lit "class", lit "features_hash", lit "model_config_hash",
        lit "confidence", lit "top_shap"], k ∈ fieldsOf shape := by
      cases shape with
      | ingestion => exact absurd rfl hshape
      | v1 => decide
      | classification => decide
    rw [if_pos (decide_eq_true hshape)]
    refine (hfield (hdecision _ (by decide)) fun _ => raises_requireNonemptyString).bind fun _ _ => ?_
    refine (hfield (hdecision _ (by decide)) fun _ => raises_requireNonemptyString).bind fun _ _ => ?_
    refine (hfield (hdecision _ (by decide)) fun _ => raises_requireHash).bind fun _ _ => ?_
    refine (hfield (hdecision _ (by decide)) fun _ => raises_requireHash).bind fun _ _ => ?_
    refine (raises_fetch (hkeys _ (hdecision _ (by decide)))).bind fun _ _ => ?_
    refine (raises_validateConfidence.mono fun _ he => he.imp_right And.left).bind fun _ _ => ?_
    exact (raises_fetch (hkeys _ (hdecision _ (by decide)))).bind fun _ _ =>
      raises_validateJsonValue.mono fun _ => Or.inl

/-- **The checks of an event overflow just at its confidence**, when the fields checked before it
are valid. -/
theorem validateEventValues_overflow (h : Declares event shape)
    (hkeys : ∀ k ∈ fieldsOf shape, k ∈ event.keys) :
    validateEventValues event = .error .overflowError ↔
      shape ≠ .ingestion ∧ (∀ f ∈ earlierFields, Has event f) ∧
        ∃ n, event.get? (lit "confidence") = some (.atom (.int n)) ∧
          isFinite (.atom (.int n)) = .error .overflowError := by
  have hfields := eventFields_eq_ok.2 ⟨shape, h, rfl⟩
  have hcommon : ∀ k ∈ [lit "node_id", lit "ts_utc", lit "raw_csi_hash"], k ∈ fieldsOf shape := by
    cases shape <;> decide
  have hnode := hkeys _ (hcommon _ (by decide : lit "node_id" ∈ _))
  have hcsi := hkeys _ (hcommon _ (by decide : lit "raw_csi_hash" ∈ _))
  obtain ⟨ts, hts⟩ := keys_isSome.2 (hkeys _ (hcommon _ (by decide : lit "ts_utc" ∈ _)))
  rw [validateEventValues, hfields, ok_bind, isClassification_eq h,
    checkField_bind_overflow hnode fun _ => raises_requireNonemptyString, fetch_eq_ok.2 hts, ok_bind,
    raises_validateTimestamp.check_bind_eq_error not_isFormatError_overflow,
    checkField_bind_overflow hcsi fun _ => raises_requireHash, ok_bind]
  by_cases hshape : shape = .ingestion
  · subst hshape
    refine ⟨fun herror => absurd ?_ not_isFormatError_overflow, fun hoverflow => absurd rfl hoverflow.1⟩
    refine Raises.bind (raises_checkField (hkeys _ (by decide)) fun _ => raises_requireNonemptyString)
      (fun _ _ => ?_) _ herror.2.2.2
    exact (raises_fetch (hkeys _ (by decide))).bind fun _ _ => raises_requireCounter
  · have hdecision : ∀ k ∈ [lit "model_id", lit "class", lit "features_hash", lit "model_config_hash",
        lit "confidence", lit "top_shap"], k ∈ event.keys := by
      refine fun k hk => hkeys k ?_
      revert k
      cases shape with
      | ingestion => exact absurd rfl hshape
      | v1 => decide
      | classification => decide
    obtain ⟨confidence, hconfidence⟩ := keys_isSome.2 (hdecision _ (by decide : lit "confidence" ∈ _))
    have hshap : ∀ u, validateConfidence confidence = .ok u → Raises IsFormatError
        (fetch event (lit "top_shap") >>= fun v => validateJsonValue v (.field (lit "top_shap"))) :=
      fun _ _ => (raises_fetch (hdecision _ (by decide))).bind fun _ _ => raises_validateJsonValue
    rw [if_pos (decide_eq_true hshape),
      checkField_bind_overflow (hdecision _ (by decide)) fun _ => raises_requireNonemptyString,
      checkField_bind_overflow (hdecision _ (by decide)) fun _ => raises_requireNonemptyString,
      checkField_bind_overflow (hdecision _ (by decide)) fun _ => raises_requireHash,
      checkField_bind_overflow (hdecision _ (by decide)) fun _ => raises_requireHash,
      fetch_eq_ok.2 hconfidence, ok_bind, Raises.bind_eq_error_left hshap not_isFormatError_overflow,
      validateConfidence_overflow]
    simp only [requireNonemptyString_eq_ok, requireHash_eq_ok, validateTimestamp_eq_ok, hconfidence,
      Option.some.injEq, earlierFields, commonFields, decisionFields, List.take, List.cons_append,
      List.nil_append, List.forall_mem_cons, List.not_mem_nil, false_imp_iff, implies_true, and_true]
    have hstamp : Has event ("ts_utc".toList, .timestamp) ↔ Holds .timestamp ts := by
      refine ⟨?_, fun hholds => ⟨ts, hts, hholds⟩⟩
      rintro ⟨v, hv, hholds⟩
      exact Option.some.inj (hts.symm.trans hv) ▸ hholds
    rw [hstamp]
    constructor
    · rintro ⟨hnode, hts, hcsi, hmodel, hclass, hfeatures, hconfig, hoverflow⟩
      exact ⟨hshape, ⟨hts, hnode, hcsi, hfeatures, hmodel, hconfig, hclass⟩, hoverflow⟩
    · rintro ⟨-, ⟨hts, hnode, hcsi, hfeatures, hmodel, hconfig, hclass⟩, hoverflow⟩
      exact ⟨hnode, hts, hcsi, hmodel, hclass, hfeatures, hconfig, hoverflow⟩

/-- The fields of an event that passes the first two checks of `validate_event`. -/
theorem keys_iff {fields : List Str} (hmissing : fields.filter (· ∉ Dict.keys event) = [])
    (hunknown : (Dict.keys event).filter (· ∉ fields) = []) : ∀ k, k ∈ event.keys ↔ k ∈ fields := by
  simp only [List.filter_eq_nil_iff, decide_eq_true_eq, not_not] at hmissing hunknown
  exact fun k => ⟨hunknown k, hmissing k⟩

/-- `validate_event` raises `RecordFormatError` or an overflow. -/
theorem raises_validateEvent :
    Raises (fun e => IsFormatError e ∨ e = .overflowError) (validateEvent (.object event)) := by
  refine (raises_eventFields.mono fun _ => Or.inl).bind fun fields hfields => ?_
  obtain ⟨shape, h, rfl⟩ := eventFields_eq_ok.1 hfields
  refine Raises.bind (.require (Or.inl (isFormatError _))) fun _ hmissing => ?_
  refine Raises.bind (.require (Or.inl (isFormatError _))) fun _ hunknown => ?_
  have hkeys := keys_iff (require_eq_ok.1 hmissing) (require_eq_ok.1 hunknown)
  exact (raises_validateEventValues h fun k hk => (hkeys k).2 hk).bind fun _ _ => .ok

/-- **`validate_event` overflows just for a classification** with all its fields, those before the
confidence valid and an integer there that does not fit a float. -/
theorem validateEvent_overflow : validateEvent (.object event) = .error .overflowError ↔
    ∃ shape, Declares event shape ∧ (∀ k, k ∈ event.keys ↔ k ∈ fieldsOf shape) ∧
      shape ≠ .ingestion ∧ (∀ f ∈ earlierFields, Has event f) ∧
        ∃ n, event.get? (lit "confidence") = some (.atom (.int n)) ∧
          isFinite (.atom (.int n)) = .error .overflowError := by
  have hvalues : ∀ u, validateEventValues event = .ok u →
      Raises IsFormatError (Except.ok event : Except Exc Dict) := fun _ _ => .ok
  rw [validateEvent, raises_eventFields.bind_eq_error not_isFormatError_overflow]
  constructor
  · rintro ⟨fields, hfields, herror⟩
    obtain ⟨shape, h, rfl⟩ := eventFields_eq_ok.1 hfields
    obtain ⟨hmissing, herror⟩ := require_bind_error herror (by rintro ⟨⟩)
    obtain ⟨hunknown, herror⟩ := require_bind_error herror (by rintro ⟨⟩)
    have hkeys := keys_iff hmissing hunknown
    refine ⟨shape, h, hkeys, ?_⟩
    exact (validateEventValues_overflow h fun k hk => (hkeys k).2 hk).1
      ((Raises.bind_eq_error_left hvalues not_isFormatError_overflow).1 herror)
  · rintro ⟨shape, h, hkeys, hoverflow⟩
    refine ⟨fieldsOf shape, eventFields_eq_ok.2 ⟨shape, h, rfl⟩, ?_⟩
    have hmissing : (fieldsOf shape).filter (· ∉ Dict.keys event) = [] := by
      simp only [List.filter_eq_nil_iff, decide_eq_true_eq, not_not]
      exact fun k hk => (hkeys k).2 hk
    have hunknown : (Dict.keys event).filter (· ∉ fieldsOf shape) = [] := by
      simp only [List.filter_eq_nil_iff, decide_eq_true_eq, not_not]
      exact fun k hk => (hkeys k).1 hk
    dsimp only
    rw [require_true hmissing, ok_bind, require_true hunknown, ok_bind]
    exact (Raises.bind_eq_error_left hvalues not_isFormatError_overflow).2
      ((validateEventValues_overflow h fun k hk => (hkeys k).2 hk).2 hoverflow)

/-- The checks of the four fields of the chain raise `RecordFormatError` only. -/
theorem raises_managed (h : ∀ k ∈ managedFields, k ∈ record.keys) : Raises IsFormatError (do
    requireCounter (← fetch record (lit "seq")) .seqRange
    checkField record requireHash (lit "prev_hash")
    checkField record requireHash (lit "record_hash")
    validateSignature (← fetch record (lit "signature"))
    return record) := by
  refine (raises_fetch (h _ (by decide))).bind fun _ _ => ?_
  refine raises_requireCounter.bind fun _ _ => ?_
  refine (raises_checkField (h _ (by decide)) fun _ => raises_requireHash).bind fun _ _ => ?_
  refine (raises_checkField (h _ (by decide)) fun _ => raises_requireHash).bind fun _ _ => ?_
  refine (raises_fetch (h _ (by decide))).bind fun _ _ => ?_
  exact raises_validateSignature.bind fun _ _ => .ok

/-- No managed field is missing just if all are there. -/
theorem managed_iff : managedFields.filter (· ∉ Dict.keys record) = [] ↔
    ∀ k ∈ managedFields, k ∈ record.keys := by
  simp only [List.filter_eq_nil_iff, decide_eq_true_eq, not_not]

/-- `validate_stored_record` raises `RecordFormatError` or an overflow. -/
theorem raises_validateStoredRecord {parsed : Value} :
    Raises (fun e => IsFormatError e ∨ e = .overflowError) (validateStoredRecord parsed) := by
  cases parsed with
  | atom a => exact .error (Or.inl (isFormatError _))
  | array xs => exact .error (Or.inl (isFormatError _))
  | object record =>
    refine Raises.bind (.require (Or.inl (isFormatError _))) fun _ hmissing => ?_
    refine raises_validateEvent.bind fun _ _ => ?_
    exact (raises_managed (managed_iff.1 (require_eq_ok.1 hmissing))).mono fun _ => Or.inl

/-- **`validate_stored_record` overflows just for the records** that `Overflows` describes. -/
theorem validateStoredRecord_overflow {parsed : Value} :
    validateStoredRecord parsed = .error .overflowError ↔
      ∃ record shape n, parsed = .object record ∧ Overflows record shape n := by
  constructor
  · intro h
    cases parsed with
    | atom a => exact absurd ⟨_, (Except.error.inj h).symm⟩ not_isFormatError_overflow
    | array xs => exact absurd ⟨_, (Except.error.inj h).symm⟩ not_isFormatError_overflow
    | object record =>
      obtain ⟨hmissing, h⟩ := require_bind_error h (by rintro ⟨⟩)
      have hmanaged := managed_iff.1 hmissing
      obtain ⟨shape, hdeclares, hkeys, hdecision, hearlier, n, hn, hoverflow⟩ := validateEvent_overflow.1
        ((Raises.bind_eq_error_left (fun _ _ => raises_managed hmanaged) not_isFormatError_overflow).1 h)
      exact ⟨record, shape, n, rfl, hmanaged, hdecision, hdeclares, hkeys, hearlier, hn,
        isFinite_overflow.1 hoverflow⟩
  · rintro ⟨record, shape, n, rfl, h⟩
    have hevent := validateEvent_overflow.2
      ⟨shape, h.declares, h.fields, h.decision, h.earlier, n, h.confidence,
        isFinite_overflow.2 h.overflow⟩
    rw [validateStoredRecord, require_true (managed_iff.2 h.managed), ok_bind, hevent]
    rfl

end Records

/-! ### Bytes -/

/-- An atom that has a text in UTF-8. -/
def Writable : Atom → Prop
  | .str s => (scalars? s).isSome = true
  | a => a.Encodable

/-- A value whose atoms and keys have a text in UTF-8 has canonical bytes. -/
theorem exists_canonicalJsonBytes {v : Value}
    (h : Json.Forall Writable (fun ks => ∀ k ∈ ks, (scalars? k).isSome = true) v) :
    ∃ bytes, canonicalJsonBytes v = .ok bytes := by
  have hquote : ∀ {s : Str}, (scalars? s).isSome = true → ∃ t, quote s = ofChars t := by
    intro s hs
    obtain ⟨t, ht⟩ := scalars?_isSome.1 hs
    rw [scalars?_eq_some_iff.1 ht, quote_ofChars]
    exact ⟨_, rfl⟩
  have hatom : ∀ a, Writable a → a.Encodable ∧ ∃ t, atomText a = ofChars t := by
    intro a ha
    cases a with
    | none => exact ⟨trivial, _, rfl⟩
    | bool b => exact ⟨trivial, _, rfl⟩
    | int n => exact ⟨ha, _, rfl⟩
    | float x =>
      cases x with
      | finite x => exact ⟨trivial, _, rfl⟩
      | infinite b => exact ha.elim
      | nan => exact ha.elim
    | str s => exact ⟨trivial, hquote ha⟩
    | other name => exact ha.elim
  have htext : text v = ofChars (compact id (fun k => (scalars? (quote k)).getD [])
      (fun a => (scalars? (atomText a)).getD []) v.sorted) := by
    rw [ofChars_compact, text]
    refine compact_congr _ ((forall_sorted ?_ h).imp (fun a ha => ?_) fun ks hks k hk => ?_)
    · exact fun hperm hks k hk => hks k (hperm.mem_iff.2 hk)
    · obtain ⟨-, t, ht⟩ := hatom a ha
      rw [ht, scalars?_ofChars]
      rfl
    · obtain ⟨t, ht⟩ := hquote (hks k hk)
      rw [ht, scalars?_ofChars]
      rfl
  have hbytes : ∃ bytes, encodeUtf8 (text v) = some bytes := by
    rw [htext, encodeUtf8, scalars?_ofChars]
    exact ⟨_, rfl⟩
  obtain ⟨bytes, hbytes⟩ := hbytes
  exact ⟨bytes, canonicalJsonBytes_eq_ok.2
    ⟨h.imp (fun a ha => (hatom a ha).1) fun _ _ => trivial, hbytes⟩⟩

/-- A permitted value has nothing that `json.dumps` does not write. -/
theorem writable_of_permitted {v : Value} (h : Permitted v) :
    Json.Forall Writable (fun ks => ∀ k ∈ ks, (scalars? k).isSome = true) v := by
  refine (h.and (encodable_of_permitted h)).imp (fun a ha => ?_) fun ks hks => hks.1
  cases a with
  | str s => exact ha.1
  | _ => exact ha.2

/-- Without its hash and its signature, a record can still be written. -/
theorem writable_unsignedOf {d : Dict}
    (h : Json.Forall Writable (fun ks => ∀ k ∈ ks, (scalars? k).isSome = true) (.object d)) :
    Json.Forall Writable (fun ks => ∀ k ∈ ks, (scalars? k).isSome = true) (.object (unsignedOf d)) := by
  obtain ⟨hkeys, hms⟩ := forall_object.1 h
  refine .object (List.forall_mem_map.2 fun m hm => ?_) fun m hm => hms m (List.mem_of_mem_filter hm)
  exact hkeys m.1 (List.mem_map_of_mem (List.mem_of_mem_filter hm))

end Forensics
end Vestrix
