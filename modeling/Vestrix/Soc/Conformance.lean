/-
# What an alert must be

`validate_alert` takes the alerts that conform to SCHEMA.md, one lemma for each check and one for the
whole (`validateAlert_eq_ok`).  The predicates are stated up to each check in turn, since what a
later check is given has passed the earlier ones.
-/

import Vestrix.Soc.Alert
import Vestrix.Forensics.Checks
import Mathlib.Data.List.TakeWhile

namespace Vestrix
namespace Soc

open Text Rounding Json Outcome Python
open Forensics (isHex isUnit sortedFields keys_isSome keys_eq_none)

/-! ### Values -/

/-- A string that is not blank. -/
def NotBlank (v : Value) : Prop := ∃ s, v = .atom (.str s) ∧ ∃ c ∈ s, isSpace c = false

/-- `None`, or a string that is not blank. -/
def OptionalText (v : Value) : Prop := v = .atom .none ∨ NotBlank v

/-- One of some strings. -/
def OneOf (members : List Str) (v : Value) : Prop := ∃ s ∈ members, v = .atom (.str s)

/-- A list or a dictionary. -/
def Container (v : Value) : Prop := (∃ xs, v = .array xs) ∨ ∃ ms, v = .object ms

/-- A timestamp of the calendar. -/
def IsTimestamp (v : Value) : Prop :=
  ∃ s, v = .atom (.str s) ∧ matchesTimestamp s = true ∧
    ∃ t, fromisoformat (removeZ s ++ lit "+00:00") = some t ∧ t.utcoffset = 0

/-- A number from 0 to 1, and the float that it is. -/
def IsConfidence (v : Value) (x : Binary64) : Prop := isUnit v = true ∧ toFloat v = .ok x

/-- An integer that does not fit a float. -/
def TooLarge (v : Value) : Prop := ∃ n, v = .atom (.int n) ∧ 2 ^ 1024 - 2 ^ 970 ≤ n.natAbs

/-- A finite number that fits a float. -/
def IsFinite (v : Value) : Prop :=
  (∃ n, v = .atom (.int n) ∧ n.natAbs < 2 ^ 1024 - 2 ^ 970) ∨ ∃ x, v = .atom (.float (.finite x))

/-- Sixty-four lowercase hexadecimal digits. -/
def IsHash (v : Value) : Prop := ∃ s, v = .atom (.str s) ∧ isHex 64 s = true

/-- A contribution up to its value. -/
structure Named (item : Dict) : Prop where
  known : ∀ key ∈ item.keys, key ∈ [lit "feature", lit "value", lit "rank"]
  feature : ∃ v, item.get? (lit "feature") = some v ∧ NotBlank v
  value : lit "value" ∈ item.keys

/-- A contribution. -/
def Contribution (v : Value) : Prop :=
  ∃ item : Dict, v = .object item ∧ Named item ∧ (∃ w, item.get? (lit "value") = some w ∧ IsFinite w) ∧
    ∀ w, item.get? (lit "rank") = some w → ∃ n, w = .atom (.int n) ∧ 0 < n

/-! ### Alerts -/

/-- An alert with the right fields. -/
structure HasFields (d : Dict) : Prop where
  required : ∀ key ∈ requiredFields, key ∈ d.keys
  known : ∀ key ∈ d.keys, key ∈ requiredFields ++ optionalFields

/-- An alert up to its class. -/
structure Headed (d : Dict) : Prop extends HasFields d where
  schemaVersion : d.get? (lit "schema_version") = some (.atom (.str socSchemaVersion))
  source : d.get? (lit "source") = some (.atom (.str (lit "vestrix")))
  texts : ∀ key ∈ textFields, ∃ v, d.get? key = some v ∧ NotBlank v
  timestamp : ∃ v, d.get? (lit "ts_utc") = some v ∧ IsTimestamp v

/-- An alert up to its confidence. -/
structure Classed (d : Dict) : Prop extends Headed d where
  eventClass : ∃ v, d.get? (lit "class") = some v ∧ OneOf classes v

/-- An alert up to its level. -/
structure Confident (d : Dict) (x : Binary64) : Prop extends Classed d where
  confidence : ∃ v, d.get? (lit "confidence") = some v ∧ IsConfidence v x

/-- An alert up to its contributions. -/
structure Levelled (d : Dict) (x : Binary64) : Prop extends Confident d x where
  level : d.get? (lit "confidence_level") = some (.atom (.str (confidenceLevel x)))

/-- An alert up to its PACS fields. -/
structure Explained (d : Dict) (x : Binary64) : Prop extends Levelled d x where
  topShap : ∃ items, d.get? (lit "top_shap") = some (.array items) ∧ ∀ item ∈ items, Contribution item

/-- The PACS fields. -/
structure Badged (d : Dict) (status readerId eventId : Value) : Prop where
  known : d.get? (lit "pacs_event_status") = some status ∧ OneOf pacsStatuses status
  reader : d.get? (lit "pacs_reader_id") = some readerId ∧ OptionalText readerId
  event : d.get? (lit "pacs_event_id") = some eventId ∧ OptionalText eventId
  matched : isText status (lit "matched") = true → isNone readerId = false ∧ isNone eventId = false
  missing : isText status (lit "missing") = true → isNone eventId = true
  notApplicable : isText status (lit "not_applicable") = true → isNone readerId = true ∧ isNone eventId = true

/-- An alert that conforms to the schema. -/
structure Conforms (d : Dict) (x : Binary64) : Prop extends Explained d x where
  pacs : ∃ status readerId eventId, Badged d status readerId eventId
  hashes : ∀ key ∈ hashFields, ∀ v, d.get? key = some v → IsHash v
  counters : ∀ key ∈ counterFields, ∀ v, d.get? key = some v → ∃ n, v = .atom (.int n) ∧ 0 ≤ n

/-! ### Checks of values -/

variable {v : Value} {field : Str} {place : Place} {index : ℕ} {u : Unit} {d : Dict}

/-- A field is fetched just if it is there. -/
theorem fetch_eq_ok {key : Str} : fetch d key = .ok v ↔ d.get? key = some v := orError_eq_ok

/-- A value is a text just if it is this string. -/
theorem isText_eq_true {t : Str} : isText v t = true ↔ v = .atom (.str t) := by
  cases v with
  | atom a =>
    cases a with
    | str s => simp [isText]
    | _ => simp [isText]
  | array _ => simp [isText]
  | object _ => simp [isText]

/-- A value is `None` just if it is. -/
theorem isNone_eq_true : isNone v = true ↔ v = .atom .none := by
  cases v with
  | atom a => cases a <;> simp [isNone]
  | array _ => simp [isNone]
  | object _ => simp [isNone]

/-- A string is blank when all its characters are spaces. -/
theorem strip_ne_nil {s : Str} : strip s ≠ [] ↔ ∃ c ∈ s, isSpace c = false := by
  rw [strip, Ne, List.reverse_eq_nil_iff, List.dropWhile_eq_nil_iff]
  simp only [List.mem_reverse]
  constructor
  · intro h
    by_contra hall
    refine h fun c hc => ?_
    by_contra hspace
    exact hall ⟨c, (List.dropWhile_sublist _).mem hc, Bool.not_eq_true _ ▸ hspace⟩
  · rintro ⟨c, hc, hspace⟩ hall
    have hdrop : s.dropWhile isSpace = [] := by
      by_contra hne
      have hhead := List.head_dropWhile_not isSpace hne
      rw [hall _ (List.head_mem hne)] at hhead
      cases hhead
    rw [List.dropWhile_eq_nil_iff.1 hdrop c hc] at hspace
    cases hspace

/-- `_require_nonempty_string` takes just the strings that are not blank. -/
theorem requireNonemptyString_eq_ok : requireNonemptyString v place = .ok u ↔ NotBlank v := by
  unfold requireNonemptyString
  split
  · rename_i s
    rw [require_eq_ok, strip_ne_nil, NotBlank]
    simp
  · rename_i hne
    exact error_eq_ok_iff fun h => h.elim fun s h => hne s h.1

/-- `_require_optional_string` takes just `None` and the strings that are not blank. -/
theorem requireOptionalString_eq_ok : requireOptionalString v field = .ok u ↔ OptionalText v := by
  rw [requireOptionalString, OptionalText, ← isNone_eq_true]
  split_ifs with h
  · exact ⟨fun _ => Or.inl h, fun _ => rfl⟩
  · rw [requireNonemptyString_eq_ok, or_iff_right h]

/-- `_require_nonnegative_integer` takes just the integers from 0 on. -/
theorem requireNonnegativeInteger_eq_ok :
    requireNonnegativeInteger v field = .ok u ↔ ∃ n, v = .atom (.int n) ∧ 0 ≤ n := by
  unfold requireNonnegativeInteger
  split
  · simp
  · rename_i hne
    exact error_eq_ok_iff fun h => h.elim fun n h => hne n h.1

/-- A value is a member of a set of texts just if it is one of them. -/
theorem isMember_eq_ok {members : List Str} : isMember v members = .ok true ↔ OneOf members v := by
  unfold isMember OneOf
  split
  · simp
  · simp
  · simp
  · rename_i a hne
    refine ⟨fun h => (by cases h), ?_⟩
    rintro ⟨s, -, h⟩
    exact absurd (Json.atom.inj h) (hne s)

/-- A hash is taken just if it is 64 hexadecimal digits. -/
theorem validateHash_eq_ok : validateHash v field = .ok u ↔ IsHash v := by
  unfold validateHash IsHash
  split
  · simp
  · rename_i hne
    exact error_eq_ok_iff fun h => h.elim fun s h => hne s h.1

/-- A timestamp has milliseconds just if it parses as one of UTC. -/
theorem toEpochMillis_isOk {s : Str} : (∃ ms, toEpochMillis s = .ok ms) ↔
    ∃ t, fromisoformat (removeZ s ++ lit "+00:00") = some t ∧ t.utcoffset = 0 := by
  unfold toEpochMillis
  split
  · rename_i hnone
    simp [hnone]
  · rename_i t ht
    constructor
    · rintro ⟨ms, h⟩
      obtain ⟨_, hoffset, -⟩ := bind_eq_ok.1 h
      exact ⟨t, ht, require_eq_ok.1 hoffset⟩
    · rintro ⟨t', ht', hoffset⟩
      obtain rfl := Option.some.inj (ht.symm.trans ht')
      rw [require_true hoffset, ok_bind]
      exact ⟨_, rfl⟩

/-- A timestamp is taken just if it ends in `Z` and has milliseconds. -/
theorem validateTimestamp_eq_ok : validateTimestamp v = .ok u ↔ IsTimestamp v := by
  unfold validateTimestamp IsTimestamp
  split
  · rename_i s
    have hpure : ∀ ms, toEpochMillis s = .ok ms ∧ (pure () : Except Exc Unit) = .ok u ↔
        toEpochMillis s = .ok ms := fun _ => and_iff_left rfl
    simp only [bind_eq_ok, require_eq_ok, exists_const, ← toEpochMillis_isOk, Json.atom.injEq, Atom.str.injEq,
      exists_eq_left', hpure]
  · rename_i hne
    exact error_eq_ok_iff fun h => h.elim fun s h => hne s h.1

/-- A class is taken just if it is one of the classes. -/
theorem validateClass_eq_ok : validateClass v = .ok u ↔ OneOf classes v := by
  rw [validateClass, bind_eq_ok, ← isMember_eq_ok]
  simp

/-- An integer fits a float just if it is below `2 ^ 1024 - 2 ^ 970`. -/
theorem nearest_lt_iff {n : ℤ} : nearest n.natAbs 1 < infinite ↔ n.natAbs < 2 ^ 1024 - 2 ^ 970 := by
  rw [← not_le, infinite_le_nearest_iff, not_le]

/-- `math.isfinite` is true just of the finite numbers that fit a float. -/
theorem isFinite_eq_ok : isFinite v = .ok true ↔ IsFinite v := by
  rw [isFinite, mapError_eq_ok]
  unfold Forensics.isFinite IsFinite
  split
  · rename_i n
    split_ifs with h
    · exact ⟨fun _ => Or.inl ⟨n, rfl, nearest_lt_iff.1 h⟩, fun _ => rfl⟩
    · refine ⟨fun h' => (by cases h'), ?_⟩
      rintro (⟨m, hm, hlt⟩ | ⟨x, hx⟩)
      · obtain rfl := Atom.int.inj (Json.atom.inj hm)
        exact absurd (nearest_lt_iff.2 hlt) h
      · cases hx
  · rename_i x
    exact ⟨fun _ => Or.inr ⟨x, rfl⟩, fun _ => rfl⟩
  · rename_i hint hfloat
    refine ⟨fun h => (by cases h), ?_⟩
    rintro (⟨n, rfl, -⟩ | ⟨x, rfl⟩)
    · exact absurd rfl (hint n)
    · exact absurd rfl (hfloat x)

/-- What is a float is finite. -/
theorem isFinite_of_toFloat {x : Binary64} (h : toFloat v = .ok x) : IsFinite v := by
  unfold toFloat at h
  split at h
  · rename_i n
    split_ifs at h with hlt
    exact Or.inl ⟨n, rfl, nearest_lt_iff.1 hlt⟩
  · rename_i y
    exact Or.inr ⟨y, rfl⟩
  · cases h

/-- A confidence is taken just if it is a number from 0 to 1, as that float. -/
theorem validateConfidence_eq_ok {x : Binary64} : validateConfidence v = .ok x ↔ IsConfidence v x := by
  have hchecks : (isFinite v >>= fun b => require (b = true ∧ isUnit v = true)
      (.alertValidation .confidenceRange) >>= fun _ => toFloat v) = .ok x ↔ IsConfidence v x := by
    simp only [bind_eq_ok, require_eq_ok, exists_const]
    constructor
    · rintro ⟨b, -, ⟨-, hunit⟩, hx⟩
      exact ⟨hunit, hx⟩
    · rintro ⟨hunit, hx⟩
      exact ⟨true, isFinite_eq_ok.2 (isFinite_of_toFloat hx), ⟨rfl, hunit⟩, hx⟩
  unfold validateConfidence
  split
  · exact hchecks
  · exact hchecks
  · rename_i hint hfloat
    refine ⟨fun h => (by cases h), fun h => ?_⟩
    rcases isFinite_of_toFloat h.2 with ⟨n, rfl, -⟩ | ⟨y, rfl⟩
    · exact absurd rfl (hint n)
    · exact absurd rfl (hfloat _)

/-- The level of a confidence is one of the levels. -/
theorem confidenceLevel_mem (x : Binary64) : confidenceLevel x ∈ confidenceLevels := by
  unfold confidenceLevel
  split_ifs <;> decide

/-- A level is taken just if it is that of the confidence. -/
theorem validateLevel_eq_ok {x : Binary64} :
    validateLevel v x = .ok u ↔ v = .atom (.str (confidenceLevel x)) := by
  rw [validateLevel, bind_eq_ok]
  simp only [bind_eq_ok, require_eq_ok, exists_const, isText_eq_true]
  constructor
  · rintro ⟨b, -, -, h⟩
    exact h
  · intro h
    exact ⟨true, isMember_eq_ok.2 ⟨_, confidenceLevel_mem x, h⟩, rfl, h⟩

/-! ### Checks of alerts -/

/-- Nothing is left over just if all are among the others. -/
theorem filter_notMem_eq_nil {xs ys : List Str} : xs.filter (· ∉ ys) = [] ↔ ∀ x ∈ xs, x ∈ ys := by
  simp [List.filter_eq_nil_iff]

/-- The fields are taken just if all required ones are there, and no unknown one. -/
theorem validateFields_eq_ok : validateFields d = .ok u ↔ HasFields d := by
  rw [validateFields, bind_eq_ok]
  simp only [require_eq_ok, filter_notMem_eq_nil, exists_const]
  exact ⟨fun h => ⟨h.1, h.2⟩, fun h => ⟨h.1, h.2⟩⟩

/-- The value of a contribution is taken just if it is finite. -/
theorem validateContribution_eq_ok : validateContribution v index = .ok u ↔ IsFinite v := by
  have hchecks : (isFinite v >>= fun b => require (b = true) (.alertValidation (.shapValue index))) = .ok u ↔
      IsFinite v := by
    rw [bind_eq_ok, ← isFinite_eq_ok]
    simp
  unfold validateContribution
  split
  · exact hchecks
  · exact hchecks
  · rename_i hint hfloat
    refine ⟨fun h => (by cases h), ?_⟩
    rintro (⟨n, rfl, -⟩ | ⟨x, rfl⟩)
    · exact absurd rfl (hint n)
    · exact absurd rfl (hfloat _)

/-- A rank is taken just if it is a positive integer. -/
theorem validateRank_eq_ok : validateRank v index = .ok u ↔ ∃ n, v = .atom (.int n) ∧ 0 < n := by
  unfold validateRank
  split
  · simp
  · rename_i hne
    exact error_eq_ok_iff fun h => h.elim fun n h => hne n h.1

/-- A rank is taken just if it is missing or a positive integer. -/
theorem checkRank_eq_ok {item : Dict} :
    (if lit "rank" ∈ Dict.keys item then fetch item (lit "rank") >>= fun rank => validateRank rank index
      else pure ()) = .ok u ↔ ∀ w, item.get? (lit "rank") = some w → ∃ n, w = .atom (.int n) ∧ 0 < n := by
  cases hrank : item.get? (lit "rank") with
  | none =>
    rw [if_neg (keys_eq_none.1 hrank)]
    exact ⟨fun _ w hw => (by cases hw), fun _ => rfl⟩
  | some rank =>
    rw [if_pos (keys_isSome.1 ⟨rank, hrank⟩), fetch_eq_ok.2 hrank, ok_bind, validateRank_eq_ok]
    exact ⟨fun h w hw => Option.some.inj hw ▸ h, fun h => h rank rfl⟩

/-- A contribution has the keys that it must have, and a name that is not blank. -/
theorem named_iff {item : Dict} : Named item ↔
    ((item.keys.filter (· ∉ [lit "feature", lit "value", lit "rank"]) = [] ∧
      ∀ key ∈ [lit "feature", lit "value"], key ∈ item.keys) ∧
        ∃ v, item.get? (lit "feature") = some v ∧ NotBlank v) := by
  rw [filter_notMem_eq_nil]
  constructor
  · rintro ⟨hknown, ⟨v, hv, hblank⟩, hvalue⟩
    refine ⟨⟨hknown, List.forall_mem_cons.2 ⟨keys_isSome.1 ⟨v, hv⟩, ?_⟩⟩, v, hv, hblank⟩
    exact List.forall_mem_singleton.2 hvalue
  · rintro ⟨⟨hknown, hkeys⟩, hfeature⟩
    exact ⟨hknown, hfeature, hkeys _ (List.mem_cons_of_mem _ List.mem_cons_self)⟩

/-- An item is taken just if it is a contribution. -/
theorem validateItem_eq_ok : validateItem index v = .ok u ↔ Contribution v := by
  unfold validateItem Contribution
  split
  · rename_i item
    simp only [bind_eq_ok, require_eq_ok, fetch_eq_ok, requireNonemptyString_eq_ok,
      validateContribution_eq_ok, checkRank_eq_ok, Json.object.injEq, exists_eq_left', named_iff, exists_const]
    constructor
    · rintro ⟨hkeys, f, hf, hblank, w, hw, hfinite, hrank⟩
      exact ⟨⟨hkeys, f, hf, hblank⟩, ⟨w, hw, hfinite⟩, hrank⟩
    · rintro ⟨⟨hkeys, f, hf, hblank⟩, ⟨w, hw, hfinite⟩, hrank⟩
      exact ⟨hkeys, f, hf, hblank, w, hw, hfinite, hrank⟩
  · rename_i hne
    exact error_eq_ok_iff fun h => h.elim fun item h => hne item h.1

/-- The items are taken just if each is a contribution. -/
theorem validateItems_eq_ok {items : List Value} :
    validateItems index items = .ok u ↔ ∀ item ∈ items, Contribution item := by
  induction items generalizing index with
  | nil => exact ⟨fun _ _ h => absurd h List.not_mem_nil, fun _ => rfl⟩
  | cons item items ih =>
    rw [validateItems, bind_eq_ok, List.forall_mem_cons]
    simp only [validateItem_eq_ok, ih, exists_const]

/-- `top_shap` is taken just if it is a list of contributions. -/
theorem validateTopShap_eq_ok :
    validateTopShap v = .ok u ↔ ∃ items, v = .array items ∧ ∀ item ∈ items, Contribution item := by
  unfold validateTopShap
  split
  · simp [validateItems_eq_ok]
  · rename_i hne
    exact error_eq_ok_iff fun h => h.elim fun items h => hne items h.1

/-- The PACS fields are taken just if their status allows for the reader and the event. -/
theorem validatePacs_eq_ok :
    validatePacs d = .ok u ↔ ∃ status readerId eventId, Badged d status readerId eventId := by
  rw [validatePacs, bind_eq_ok]
  simp only [bind_eq_ok, fetch_eq_ok, require_eq_ok, requireOptionalString_eq_ok, exists_const]
  constructor
  · rintro ⟨status, hstatus, b, hmember, rfl, readerId, hreader, eventId, hevent, hr, he, hm, hmi, hn⟩
    refine ⟨status, readerId, eventId, ⟨hstatus, isMember_eq_ok.1 hmember⟩, ⟨hreader, hr⟩, ⟨hevent, he⟩,
      ?_, ?_, ?_⟩
    · simpa using hm
    · simpa using hmi
    · simpa using hn
  · rintro ⟨status, readerId, eventId, h⟩
    refine ⟨status, h.known.1, true, isMember_eq_ok.2 h.known.2, rfl, readerId, h.reader.1, eventId,
      h.event.1, h.reader.2, h.event.2, ?_, ?_, ?_⟩
    · simpa using h.matched
    · simpa using h.missing
    · simpa using h.notApplicable

/-- An optional field is taken just if it is missing or its value is. -/
theorem checkOptional_eq_ok {check : Value → Str → Except Exc Unit} {P : Value → Prop}
    (hcheck : ∀ v, check v field = .ok () ↔ P v) :
    checkOptional d check field = .ok () ↔ ∀ v, d.get? field = some v → P v := by
  unfold checkOptional
  split
  · rename_i v hv
    rw [hcheck, hv]
    simp
  · rename_i hnone
    simp [hnone]

/-- **`validate_alert` takes just the alerts that conform.** -/
theorem validateAlert_eq_ok {alert : Value} :
    validateAlert alert = .ok d ↔ alert = .object d ∧ ∃ x, Conforms d x := by
  unfold validateAlert
  split
  · rename_i e
    simp only [bind_eq_ok, validateFields_eq_ok, fetch_eq_ok, require_eq_ok, isText_eq_true, exists_const,
      checkAll_eq_ok, requireNonemptyString_eq_ok, validateTimestamp_eq_ok, validateClass_eq_ok,
      validateConfidence_eq_ok, validateLevel_eq_ok, validateTopShap_eq_ok, validatePacs_eq_ok,
      checkOptional_eq_ok (fun _ => validateHash_eq_ok),
      checkOptional_eq_ok (fun _ => requireNonnegativeInteger_eq_ok), Json.object.injEq]
    constructor
    · rintro ⟨hfields, _, hversion, rfl, _, hsource, rfl, htexts, t, ht, htimestamp, c, hc, hclass, v, hv, x,
        hconfidence, _, hlevel, rfl, _, hshap, ⟨items, rfl, hitems⟩, hpacs, hhashes, hcounters, heq⟩
      obtain rfl := Except.ok.inj heq
      have headed : Headed e := ⟨hfields, hversion, hsource, htexts, t, ht, htimestamp⟩
      have levelled : Levelled e x := ⟨⟨⟨headed, c, hc, hclass⟩, v, hv, hconfidence⟩, hlevel⟩
      exact ⟨rfl, x, ⟨levelled, items, hshap, hitems⟩, hpacs, hhashes, hcounters⟩
    · rintro ⟨rfl, x, h⟩
      obtain ⟨t, ht, htimestamp⟩ := h.timestamp
      obtain ⟨c, hc, hclass⟩ := h.eventClass
      obtain ⟨v, hv, hconfidence⟩ := h.confidence
      obtain ⟨items, hshap, hitems⟩ := h.topShap
      exact ⟨h.toHasFields, _, h.schemaVersion, rfl, _, h.source, rfl, h.texts, t, ht, htimestamp, c, hc,
        hclass, v, hv, x, hconfidence, _, h.level, rfl, _, hshap, ⟨items, rfl, hitems⟩, h.pacs, h.hashes,
        h.counters, rfl⟩
  · rename_i hne
    exact error_eq_ok_iff fun h => hne d h.1

end Soc
end Vestrix
