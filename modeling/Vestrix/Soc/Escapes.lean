/-
# Errors that escape validation

`validate_alert` reports what does not conform as an `AlertValidationError`, and two kinds of values
make it raise something else.  A list or a dictionary as `class`, `confidence_level` or
`pacs_event_status` has no hash, so that `in` is a `TypeError`; and an integer that does not fit a
float as `confidence` or as the `value` of a contribution is an `OverflowError` of `math.isfinite`.

A `Hazard` says where, with what the checks before it have let through, and no other alert makes
`validate_alert` or one of the two formats raise another error (`failsOwnWay_iff`).
-/

import Vestrix.Soc.Mapping

namespace Vestrix
namespace Soc

open Text Rounding Json Outcome Python
open Forensics (isUnit keys_isSome)

/-- `AlertValidationError`. -/
def Own (e : Exc) : Prop := ∃ a, e = .alertValidation a

/-- A contribution with a value that does not fit a float. -/
def Excessive (v : Value) : Prop :=
  ∃ item : Dict, v = .object item ∧ Named item ∧ ∃ w, item.get? (lit "value") = some w ∧ TooLarge w

/-- A list with such a contribution, after others that conform. -/
def HasExcessive (items : List Value) : Prop :=
  ∃ before item after, items = before ++ item :: after ∧ (∀ b ∈ before, Contribution b) ∧ Excessive item

/-- A field that is not tested before it is used, in an alert that conforms up to there. -/
inductive Hazard (d : Dict) : Exc → Prop where
  | eventClass {v : Value} (h : Headed d) (hv : d.get? (lit "class") = some v) (hc : Container v) :
    Hazard d .typeError
  | confidence {v : Value} (h : Classed d) (hv : d.get? (lit "confidence") = some v) (hl : TooLarge v) :
    Hazard d .overflowError
  | level {v : Value} {x : Binary64} (h : Confident d x) (hv : d.get? (lit "confidence_level") = some v)
    (hc : Container v) : Hazard d .typeError
  | contribution {items : List Value} {x : Binary64} (h : Levelled d x)
    (hv : d.get? (lit "top_shap") = some (.array items)) (hl : HasExcessive items) : Hazard d .overflowError
  | status {v : Value} {x : Binary64} (h : Explained d x) (hv : d.get? (lit "pacs_event_status") = some v)
    (hc : Container v) : Hazard d .typeError

/-- What escapes is not the mapper's own exception. -/
theorem Hazard.not_own {d : Dict} {e : Exc} (h : Hazard d e) : ¬ Own e := by
  rintro ⟨a, rfl⟩
  cases h

/-- All hazards come after the header. -/
theorem Hazard.headed {d : Dict} {e : Exc} (h : Hazard d e) : Headed d := by
  cases h with
  | eventClass h => exact h
  | confidence h => exact h.toHeaded
  | level h => exact h.toHeaded
  | contribution h => exact h.toHeaded
  | status h => exact h.toHeaded

/-! ### Checks that report -/

variable {v : Value} {field : Str} {place : Place} {index : ℕ} {d : Dict} {e : Exc} {x : Binary64}

/-- `AlertValidationError` is the mapper's own exception. -/
theorem own (a : AlertError) : Own (.alertValidation a) := ⟨a, rfl⟩

/-- `_require_nonempty_string` raises `AlertValidationError` only. -/
theorem raises_requireNonemptyString : Raises Own (requireNonemptyString v place) := by
  unfold requireNonemptyString
  split
  · exact .require (own _)
  · exact .error (own _)

/-- `_require_optional_string` raises `AlertValidationError` only. -/
theorem raises_requireOptionalString : Raises Own (requireOptionalString v field) := by
  unfold requireOptionalString
  split_ifs
  · exact .ok
  · exact raises_requireNonemptyString

/-- `_require_nonnegative_integer` raises `AlertValidationError` only. -/
theorem raises_requireNonnegativeInteger : Raises Own (requireNonnegativeInteger v field) := by
  unfold requireNonnegativeInteger
  split
  · exact .require (own _)
  · exact .error (own _)

/-- The check of a hash raises `AlertValidationError` only. -/
theorem raises_validateHash : Raises Own (validateHash v field) := by
  unfold validateHash
  split
  · exact .require (own _)
  · exact .error (own _)

/-- The check of a rank raises `AlertValidationError` only. -/
theorem raises_validateRank : Raises Own (validateRank v index) := by
  unfold validateRank
  split
  · exact .require (own _)
  · exact .error (own _)

/-- A rank is checked if it is there, which raises `AlertValidationError` only. -/
theorem raises_checkRank {item : Dict} : Raises Own (if lit "rank" ∈ Dict.keys item then
    fetch item (lit "rank") >>= fun rank => validateRank rank index else pure ()) := by
  split_ifs with h
  · obtain ⟨w, hw⟩ := keys_isSome.2 h
    exact (raises_fetch hw).bind fun _ _ => raises_validateRank
  · exact .ok

/-- `_to_epoch_millis` raises `AlertValidationError` only, for a text that does not parse as one of
UTC. -/
theorem raises_toEpochMillis {s : Str} : Raises Own (toEpochMillis s) := by
  unfold toEpochMillis
  split
  · exact .error (own _)
  · exact (Raises.require (own _)).bind fun _ _ => .ok

/-- The check of a timestamp raises `AlertValidationError` only. -/
theorem raises_validateTimestamp : Raises Own (validateTimestamp v) := by
  unfold validateTimestamp
  split
  · refine (Raises.require (own _)).bind fun _ _ => ?_
    exact raises_toEpochMillis.bind fun _ _ => .ok
  · exact .error (own _)

/-- The check of the keys raises `AlertValidationError` only. -/
theorem raises_validateFields : Raises Own (validateFields d) :=
  (Raises.require (own _)).bind fun _ _ => .require (own _)

/-- An optional field raises what its check does. -/
theorem raises_checkOptional {check : Value → Str → Except Exc Unit} (h : ∀ v, Raises Own (check v field)) :
    Raises Own (checkOptional d check field) := by
  unfold checkOptional
  split
  · exact h _
  · exact .ok

/-! ### Checks that do not -/

/-- Asking whether a value is a member raises just `TypeError`, for one that cannot be hashed. -/
theorem isMember_eq_error {members : List Str} :
    isMember v members = .error e ↔ Container v ∧ e = .typeError := by
  cases v with
  | array xs =>
    refine ⟨fun h => ⟨Or.inl ⟨xs, rfl⟩, (Except.error.inj h).symm⟩, ?_⟩
    rintro ⟨-, rfl⟩
    rfl
  | object ms =>
    refine ⟨fun h => ⟨Or.inr ⟨ms, rfl⟩, (Except.error.inj h).symm⟩, ?_⟩
    rintro ⟨-, rfl⟩
    rfl
  | atom a =>
    constructor
    · intro h
      cases a <;> cases h
    · rintro ⟨⟨_, h⟩ | ⟨_, h⟩, -⟩ <;> cases h

/-- `math.isfinite` raises just `OverflowError`, for an integer that does not fit a float. -/
theorem isFinite_eq_error : isFinite v = .error e ↔ TooLarge v ∧ e = .overflowError := by
  unfold isFinite Forensics.isFinite TooLarge
  split
  · rename_i n
    split_ifs with h
    · refine ⟨fun h' => (by cases h'), ?_⟩
      rintro ⟨⟨m, hm, hle⟩, -⟩
      obtain rfl := Atom.int.inj (Json.atom.inj hm)
      exact absurd hle (not_le.2 (nearest_lt_iff.1 h))
    · constructor
      · intro h'
        exact ⟨⟨n, rfl, not_lt.1 (mt nearest_lt_iff.2 h)⟩, (Except.error.inj h').symm⟩
      · rintro ⟨-, rfl⟩
        rfl
  · refine ⟨fun h => (by cases h), ?_⟩
    rintro ⟨⟨_, h, -⟩, -⟩
    cases h
  · rename_i hint _
    refine ⟨fun h => (by cases h), ?_⟩
    rintro ⟨⟨n, rfl, -⟩, -⟩
    exact absurd rfl (hint n)

/-- A finite number is a float. -/
theorem exists_toFloat (h : IsFinite v) : ∃ x, toFloat v = .ok x := by
  rcases h with ⟨n, rfl, hlt⟩ | ⟨x, rfl⟩
  · exact ⟨_, dif_pos (nearest_lt_iff.2 hlt)⟩
  · exact ⟨x, rfl⟩

section

variable (he : ¬ Own e)

include he

/-- An error that is reported is no other, as what is false does not hold. -/
theorem own_eq_error_iff {α : Type} {a : AlertError} {p : Prop} (h : ¬ p) :
    (Except.error (.alertValidation a) : Except Exc α) = .error e ↔ p :=
  ⟨fun h' => absurd ⟨a, (Except.error.inj h').symm⟩ he, fun hp => absurd hp h⟩

/-- A demand of the mapper's own hides nothing else that is raised where it is met. -/
theorem require_bind_eq_error {β : Type} {p : Prop} [Decidable p] {a : AlertError}
    {f : Unit → Except Exc β} :
    (require p (.alertValidation a) >>= f) = .error e ↔ p ∧ f () = .error e :=
  (Raises.require (own a)).check_bind_eq_error he |>.trans (and_congr_left fun _ => require_eq_ok)

/-- Behind a field that is there, its value decides what is raised. -/
theorem fetch_bind_eq_error {β : Type} {key : Str} (h : key ∈ d.keys) {f : Value → Except Exc β} :
    (fetch d key >>= f) = .error e ↔ ∃ v, d.get? key = some v ∧ f v = .error e := by
  obtain ⟨v, hv⟩ := keys_isSome.2 h
  rw [(raises_fetch hv).bind_eq_error he]
  simp only [fetch_eq_ok]

/-- A test of membership that is reported lets `TypeError` escape, for a list or an object. -/
theorem isMember_bind_eq_error {members : List Str} {a : AlertError} :
    (isMember v members >>= fun b => require (b = true) (.alertValidation a)) = .error e ↔
      Container v ∧ e = .typeError := by
  rw [Raises.bind_eq_error_left (fun b _ => .require (own a)) he, isMember_eq_error]

/-- The check of a class lets `TypeError` escape, for a list or an object. -/
theorem validateClass_eq_error : validateClass v = .error e ↔ Container v ∧ e = .typeError :=
  isMember_bind_eq_error he

/-- The check of a level lets `TypeError` escape, for a list or an object. -/
theorem validateLevel_eq_error : validateLevel v x = .error e ↔ Container v ∧ e = .typeError := by
  rw [validateLevel, Raises.bind_eq_error_left (fun b _ => ?_) he, isMember_eq_error]
  exact (Raises.require (own _)).bind fun _ _ => .require (own _)

/-- The check of a confidence lets `OverflowError` escape, for an integer that does not fit a float. -/
theorem validateConfidence_eq_error : validateConfidence v = .error e ↔ TooLarge v ∧ e = .overflowError := by
  have hchecks : (isFinite v >>= fun b => require (b = true ∧ isUnit v = true)
      (.alertValidation .confidenceRange) >>= fun _ => toFloat v) = .error e ↔
      TooLarge v ∧ e = .overflowError := by
    rw [Raises.bind_eq_error_left (fun b hb => ?_) he, isFinite_eq_error]
    refine (Raises.require (own _)).bind fun _ hrequire => ?_
    obtain ⟨rfl, -⟩ := require_eq_ok.1 hrequire
    obtain ⟨y, hy⟩ := exists_toFloat (isFinite_eq_ok.1 hb)
    exact .of_ok hy
  unfold validateConfidence
  split
  · exact hchecks
  · exact hchecks
  · rename_i hint _
    exact own_eq_error_iff he fun h => h.1.elim fun n h => hint n h.1

/-- The check of a contribution's value lets `OverflowError` escape, for an integer that does not
fit a float. -/
theorem validateContribution_eq_error :
    validateContribution v index = .error e ↔ TooLarge v ∧ e = .overflowError := by
  have hchecks : (isFinite v >>= fun b => require (b = true) (.alertValidation (.shapValue index))) =
      .error e ↔ TooLarge v ∧ e = .overflowError := by
    rw [Raises.bind_eq_error_left (fun b _ => .require (own _)) he, isFinite_eq_error]
  unfold validateContribution
  split
  · exact hchecks
  · exact hchecks
  · rename_i hint _
    exact own_eq_error_iff he fun h => h.1.elim fun n h => hint n h.1

/-- An item lets `OverflowError` escape just for such a value. -/
theorem validateItem_eq_error : validateItem index v = .error e ↔ Excessive v ∧ e = .overflowError := by
  unfold validateItem Excessive
  split
  · rename_i item
    rw [require_bind_eq_error he, filter_notMem_eq_nil]
    simp only [Json.object.injEq, exists_eq_left', named_iff, filter_notMem_eq_nil, and_assoc]
    refine and_congr_right fun _ => and_congr_right fun hkeys => ?_
    have hfeature := hkeys (lit "feature") List.mem_cons_self
    have hvalue := hkeys (lit "value") (List.mem_cons_of_mem _ List.mem_cons_self)
    rw [fetch_bind_eq_error he hfeature]
    simp only [raises_requireNonemptyString.bind_eq_error he, requireNonemptyString_eq_ok, exists_const,
      fetch_bind_eq_error he hvalue, Raises.bind_eq_error_left (fun _ _ => raises_checkRank) he,
      validateContribution_eq_error he]
    constructor
    · rintro ⟨f, hf, hblank, w, hw, hl, rfl⟩
      exact ⟨⟨f, hf, hblank⟩, ⟨w, hw, hl⟩, rfl⟩
    · rintro ⟨⟨f, hf, hblank⟩, ⟨w, hw, hl⟩, rfl⟩
      exact ⟨f, hf, hblank, w, hw, hl, rfl⟩
  · rename_i hne
    exact own_eq_error_iff he fun h => h.1.elim fun item h => hne item h.1

/-- The items let `OverflowError` escape just if one of them does, with all before it taken. -/
theorem validateItems_eq_error {items : List Value} :
    validateItems index items = .error e ↔ HasExcessive items ∧ e = .overflowError := by
  induction items generalizing index with
  | nil =>
    refine ⟨fun h => (by cases h), ?_⟩
    rintro ⟨⟨before, item, after, h, -⟩, -⟩
    exact absurd h.symm (List.append_ne_nil_of_right_ne_nil _ (List.cons_ne_nil _ _))
  | cons item items ih =>
    rw [validateItems, bind_eq_error, validateItem_eq_error he]
    simp only [validateItem_eq_ok, ih, exists_const]
    constructor
    · rintro (⟨hitem, rfl⟩ | ⟨hitem, ⟨before, later, after, rfl, hbefore, hlater⟩, rfl⟩)
      · exact ⟨⟨[], item, items, rfl, fun _ h => absurd h List.not_mem_nil, hitem⟩, rfl⟩
      · exact ⟨⟨item :: before, later, after, rfl, List.forall_mem_cons.2 ⟨hitem, hbefore⟩, hlater⟩, rfl⟩
    · rintro ⟨⟨before, later, after, hitems, hbefore, hlater⟩, rfl⟩
      cases before with
      | nil =>
        obtain ⟨rfl, rfl⟩ := List.cons.inj hitems
        exact Or.inl ⟨hlater, rfl⟩
      | cons first before =>
        obtain ⟨rfl, rfl⟩ := List.cons.inj hitems
        obtain ⟨hfirst, hbefore⟩ := List.forall_mem_cons.1 hbefore
        exact Or.inr ⟨hfirst, ⟨before, later, after, rfl, hbefore, hlater⟩, rfl⟩

/-- `top_shap` lets `OverflowError` escape just if it is a list whose items do. -/
theorem validateTopShap_eq_error : validateTopShap v = .error e ↔
    (∃ items, v = .array items ∧ HasExcessive items) ∧ e = .overflowError := by
  unfold validateTopShap
  split
  · simp only [validateItems_eq_error he, Json.array.injEq, exists_eq_left']
  · rename_i hne
    exact own_eq_error_iff he fun h => h.1.elim fun items h => hne items h.1

/-- The PACS fields let `TypeError` escape just for a status that is a list or an object. -/
theorem validatePacs_eq_error (h : HasFields d) : validatePacs d = .error e ↔
    (∃ v, d.get? (lit "pacs_event_status") = some v ∧ Container v) ∧ e = .typeError := by
  have hkey : ∀ {key}, key ∈ requiredFields → key ∈ d.keys := fun hkey => h.required _ hkey
  obtain ⟨readerId, hreader⟩ := keys_isSome.2 (hkey (by decide : lit "pacs_reader_id" ∈ _))
  obtain ⟨eventId, hevent⟩ := keys_isSome.2 (hkey (by decide : lit "pacs_event_id" ∈ _))
  rw [validatePacs, fetch_bind_eq_error he (hkey (by decide)), exists_and_right.symm]
  refine exists_congr fun status => ?_
  rw [and_assoc]
  refine and_congr_right fun _ => ?_
  rw [Raises.bind_eq_error_left (fun b _ => ?_) he, isMember_eq_error]
  -- the fields are there, and each check after the first test reports
  refine (Raises.require (own _)).bind fun _ _ => (raises_fetch hreader).bind fun _ _ => ?_
  refine (raises_fetch hevent).bind fun _ _ => raises_requireOptionalString.bind fun _ _ => ?_
  refine raises_requireOptionalString.bind fun _ _ => (Raises.require (own _)).bind fun _ _ => ?_
  exact (Raises.require (own _)).bind fun _ _ => .require (own _)

end

/-- The checks of the texts raise `AlertValidationError` only. -/
theorem raises_textChecks (h : HasFields d) : Raises Own (checkAll (fun field => do
    requireNonemptyString (← fetch d field) (.field field)) textFields) := by
  have hrequired : ∀ key ∈ textFields, key ∈ requiredFields := by decide
  refine raises_checkAll fun key hkey => ?_
  obtain ⟨v, hv⟩ := keys_isSome.2 (h.required key (hrequired key hkey))
  exact (raises_fetch hv).bind fun _ _ => raises_requireNonemptyString

/-- **What escapes.**  Another error than those that report comes out where there is a hazard. -/
theorem validateAlert_eq_error (he : ¬ Own e) : validateAlert (.object d) = .error e ↔ Hazard d e := by
  rw [validateAlert, raises_validateFields.check_bind_eq_error he, validateFields_eq_ok]
  by_cases hfields : HasFields d
  · have hfetch : ∀ {key} {f : Value → Except Exc Dict}, key ∈ requiredFields →
        ((fetch d key >>= f) = .error e ↔ ∃ v, d.get? key = some v ∧ f v = .error e) :=
      fun hkey => fetch_bind_eq_error he (hfields.required _ hkey)
    have hhashes : Raises Own (checkAll (checkOptional d validateHash) hashFields) :=
      raises_checkAll fun _ _ => raises_checkOptional fun _ => raises_validateHash
    have hcounters : Raises Own (checkAll (checkOptional d requireNonnegativeInteger) counterFields) :=
      raises_checkAll fun _ _ => raises_checkOptional fun _ => raises_requireNonnegativeInteger
    simp (disch := decide) only [hfetch, require_bind_eq_error he, isText_eq_true,
      (raises_textChecks hfields).check_bind_eq_error he, checkAll_eq_ok, bind_eq_ok, fetch_eq_ok,
      requireNonemptyString_eq_ok, raises_validateTimestamp.check_bind_eq_error he, validateTimestamp_eq_ok,
      bind_eq_error (x := validateClass _), validateClass_eq_error he, validateClass_eq_ok,
      bind_eq_error (x := validateConfidence _), validateConfidence_eq_error he, validateConfidence_eq_ok,
      bind_eq_error (x := validateLevel _ _), validateLevel_eq_error he, validateLevel_eq_ok,
      bind_eq_error (x := validateTopShap _), validateTopShap_eq_error he, validateTopShap_eq_ok,
      bind_eq_error (x := validatePacs _), validatePacs_eq_error he hfields, validatePacs_eq_ok,
      hhashes.check_bind_eq_error he, hcounters.check_bind_eq_error he, exists_const]
    constructor
    · rintro ⟨-, _, hversion, rfl, _, hsource, rfl, htexts, t, ht, htimestamp, c, hc, hrest⟩
      have headed : Headed d := ⟨hfields, hversion, hsource, htexts, t, ht, htimestamp⟩
      obtain ⟨hcontainer, rfl⟩ | ⟨hclass, v, hv, hrest⟩ := hrest
      · exact .eventClass headed hc hcontainer
      have classed : Classed d := ⟨headed, c, hc, hclass⟩
      obtain ⟨hlarge, rfl⟩ | ⟨x, hconfidence, l, hl, hrest⟩ := hrest
      · exact .confidence classed hv hlarge
      have confident : Confident d x := ⟨classed, v, hv, hconfidence⟩
      obtain ⟨hcontainer, rfl⟩ | ⟨rfl, s, hs, hrest⟩ := hrest
      · exact .level confident hl hcontainer
      have levelled : Levelled d x := ⟨confident, hl⟩
      obtain ⟨⟨items, rfl, hexcessive⟩, rfl⟩ | ⟨⟨items, rfl, hitems⟩, hrest⟩ := hrest
      · exact .contribution levelled hs hexcessive
      obtain ⟨⟨p, hp, hcontainer⟩, rfl⟩ | ⟨-, -, -, hreturn⟩ := hrest
      · exact .status ⟨levelled, items, hs, hitems⟩ hp hcontainer
      · cases hreturn
    · intro h
      have headed := h.headed
      obtain ⟨t, ht, htimestamp⟩ := headed.timestamp
      refine ⟨hfields, _, headed.schemaVersion, rfl, _, headed.source, rfl, headed.texts, t, ht, htimestamp, ?_⟩
      cases h with
      | eventClass _ hv hcontainer => exact ⟨_, hv, Or.inl ⟨hcontainer, rfl⟩⟩
      | confidence h hv hlarge =>
        obtain ⟨c, hc, hclass⟩ := h.eventClass
        exact ⟨c, hc, Or.inr ⟨hclass, _, hv, Or.inl ⟨hlarge, rfl⟩⟩⟩
      | level h hl hcontainer =>
        obtain ⟨c, hc, hclass⟩ := h.eventClass
        obtain ⟨v, hv, hconfidence⟩ := h.confidence
        exact ⟨c, hc, Or.inr ⟨hclass, v, hv, Or.inr ⟨_, hconfidence, _, hl, Or.inl ⟨hcontainer, rfl⟩⟩⟩⟩
      | contribution h hs hexcessive =>
        obtain ⟨c, hc, hclass⟩ := h.eventClass
        obtain ⟨v, hv, hconfidence⟩ := h.confidence
        exact ⟨c, hc, Or.inr ⟨hclass, v, hv, Or.inr ⟨_, hconfidence, _, h.level, Or.inr ⟨rfl, _, hs,
          Or.inl ⟨⟨_, rfl, hexcessive⟩, rfl⟩⟩⟩⟩⟩
      | status h hp hcontainer =>
        obtain ⟨c, hc, hclass⟩ := h.eventClass
        obtain ⟨v, hv, hconfidence⟩ := h.confidence
        obtain ⟨items, hs, hitems⟩ := h.topShap
        exact ⟨c, hc, Or.inr ⟨hclass, v, hv, Or.inr ⟨_, hconfidence, _, h.level, Or.inr ⟨rfl, _, hs,
          Or.inr ⟨⟨items, rfl, hitems⟩, Or.inl ⟨⟨_, hp, hcontainer⟩, rfl⟩⟩⟩⟩⟩⟩
  · exact ⟨fun h => absurd h.1 hfields, fun h => absurd h.headed.toHasFields hfields⟩

/-! ### All three functions -/

/-- Validation and the two formats fail with `AlertValidationError` only, and on the same values. -/
structure FailsOwnWay (alert : Value) : Prop where
  validate : Raises Own (validateAlert alert)
  wazuh : Raises Own (toWazuh alert)
  ocsf : Raises Own (toOcsf alert)
  wazuh_accepts : (∃ output, toWazuh alert = .ok output) ↔ ∃ d, validateAlert alert = .ok d
  ocsf_accepts : (∃ event, toOcsf alert = .ok event) ↔ ∃ d, validateAlert alert = .ok d

/-- **When alerts are refused in the right way.**  All three functions take the same values, and refuse
the others with `AlertValidationError`, unless there is a hazard. -/
theorem failsOwnWay_iff (alert : Value) : FailsOwnWay alert ↔ ∀ d e, alert = .object d → ¬ Hazard d e := by
  have hvalidate : Raises Own (validateAlert alert) ↔ ∀ d e, alert = .object d → ¬ Hazard d e := by
    constructor
    · rintro h d e rfl hazard
      have he : ¬ Own e := hazard.not_own
      exact he (h e ((validateAlert_eq_error he).2 hazard))
    · intro h e herror
      by_contra he
      cases alert with
      | object d => exact h d e rfl ((validateAlert_eq_error he).1 herror)
      | atom a => exact he ⟨_, (Except.error.inj herror).symm⟩
      | array xs => exact he ⟨_, (Except.error.inj herror).symm⟩
  rw [← hvalidate]
  refine ⟨FailsOwnWay.validate, fun h => ⟨h, raises_toWazuh_iff.2 h, raises_toOcsf_iff.2 h, ?_, ?_⟩⟩
  · rw [← raises_false_iff, raises_toWazuh_iff, raises_false_iff]
  · rw [← raises_false_iff, raises_toOcsf_iff, raises_false_iff]

/-- An alert of a sensor, but for its class. -/
def sampleAlert (eventClass : Value) : Dict :=
  [(lit "schema_version", str "1.0"), (lit "source", str "vestrix"),
    (lit "event_id", str "vestrix-20260713T201501Z-node-07-0042"), (lit "ts_utc", str "2026-07-13T20:15:01Z"),
    (lit "node_id", str "node-07"), (lit "site_id", str "hq-karachi"), (lit "zone_id", str "server-room-west"),
    (lit "class", eventClass), (lit "confidence", int 1), (lit "confidence_level", str "high"),
    (lit "model_id", str "rf-csi-v1.4.2"),
    (lit "top_shap",
      .array [.object [(lit "feature", str "phase_delta_mean"), (lit "value", int 0), (lit "rank", int 1)]]),
    (lit "pacs_event_status", str "matched"), (lit "pacs_reader_id", str "reader-west-02"),
    (lit "pacs_event_id", str "pacs-884103")]

example : (validateAlert (.object (sampleAlert (str "intrusion")))).isOk = true := by decide +kernel

/-- **Not all values are.**  The class of this alert is a list. -/
theorem class_escapes : ¬ ∀ alert, FailsOwnWay alert := by
  intro h
  have herror : validateAlert (.object (sampleAlert (.array []))) = .error .typeError := rfl
  obtain ⟨_, hown⟩ := (h _).validate _ herror
  cases hown

end Soc
end Vestrix
