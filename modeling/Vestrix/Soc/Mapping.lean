/-
# The two SOC formats

`to_wazuh` and `to_ocsf`: both validate an alert first, and work with what that returns.  Where
`mapper.py` relies on the schema (a level that is one of three, a field that is a string), the
functions here have an error instead, and what validation has let through never leads to one
(`raises_toWazuh_iff`, `raises_toOcsf_iff`).

Copies are not modelled: values do not change, and a valid alert is not nested deeply.
-/

import Vestrix.Soc.Conformance

namespace Vestrix
namespace Soc

open Text Rounding Json Outcome Python
open Forensics (isUnit)

/-! ### The formats -/

/-- A string literal as a value. -/
def str (s : String) : Value := .atom (.str (lit s))

/-- An integer as a value. -/
def int (n : ℤ) : Value := .atom (.int n)

/-- Zero is finite. -/
theorem zero_lt_infinite : 0 < infinite := by decide

/-- `0.0`. -/
def zero : Binary64 := ⟨false, 0, zero_lt_infinite⟩

/-- `item[key]`. -/
def subscript (item : Value) (key : Str) : Except Exc Value :=
  match item with
  | .object item => fetch item key
  | _ => .error .typeError

/-- A string in a formatted string. -/
def formatted : Value → Except Exc Str
  | .atom (.str s) => .ok s
  | _ => .error .typeError

/-- `table[key]`, where the key is a string. -/
def lookupText {α : Type} (table : List (Str × α)) : Value → Except Exc α
  | .atom (.str s) => orError (.keyError s) (lookup table s)
  | _ => .error .typeError

/-- `to_wazuh`, after validation. -/
def wazuhOf (canonical : Dict) : Except Exc Dict := do
  let topShap ← fetch canonical (lit "top_shap")
  let output := (canonical.filter fun m => m.1 ≠ lit "top_shap").filter fun m => !isNone m.2
  match topShap with
  | .array (item :: _) =>
    let feature ← subscript item (lit "feature")
    let value ← subscript item (lit "value")
    return Dict.set (Dict.set output (lit "shap_top_feature") feature) (lit "shap_top_value") value
  | _ =>
    return Dict.set (Dict.set output (lit "shap_top_feature") (str "none")) (lit "shap_top_value")
      (.atom (.float (.finite zero)))

/-- `to_wazuh`. -/
def toWazuh (alert : Value) : Except Exc Dict := do
  wazuhOf (← validateAlert alert)

/-- The numbers of the levels. -/
def levelIds : List (Str × ℤ) := [(lit "low", 1), (lit "borderline", 2), (lit "high", 3)]

/-- The names of the numbers. -/
def levelNames : List (ℤ × Value) := [(1, str "Low"), (2, str "Medium"), (3, str "High")]

/-- The severities of an intrusion. -/
def levelSeverities : List (Str × ℤ × Value) :=
  [(lit "high", 4, str "High"), (lit "borderline", 3, str "Medium"), (lit "low", 2, str "Low")]

/-- `_severity`. -/
def severity (alert : Dict) : Except Exc (ℤ × Value) := do
  let eventClass ← fetch alert (lit "class")
  if isText eventClass (lit "normal") then return (1, str "Informational")
  else if isText eventClass (lit "sensor_tamper") then return (4, str "High")
  else
    let status ← fetch alert (lit "pacs_event_status")
    if isText status (lit "missing") then return (5, str "Critical")
    else lookupText levelSeverities (← fetch alert (lit "confidence_level"))

/-- `_title`. -/
def title (alert : Dict) : Except Exc Str := do
  let eventClass ← fetch alert (lit "class")
  let siteId ← formatted (← fetch alert (lit "site_id"))
  let zoneId ← formatted (← fetch alert (lit "zone_id"))
  let zone := siteId ++ lit "/" ++ zoneId
  if isText eventClass (lit "sensor_tamper") then return lit "Vestrix sensor tamper detected at " ++ zone
  else if isText eventClass (lit "normal") then return lit "Vestrix benign physical activity at " ++ zone
  else
    let status ← fetch alert (lit "pacs_event_status")
    if isText status (lit "missing") then
      return lit "Vestrix intrusion without corresponding PACS event at " ++ zone
    else return lit "Vestrix physical intrusion detected at " ++ zone

/-- `round` of a magnitude, to even where it is half-way. -/
def roundIndex (index : ℕ) : ℕ :=
  let whole := units index / scale
  let rest := units index % scale
  if 2 * rest < scale ∨ 2 * rest = scale ∧ whole % 2 = 0 then whole else whole + 1

/-- `round(confidence * 100)`. -/
def confidenceScore (confidence : Binary64) : Except Exc ℤ := do
  let product := mulIndex confidence.index (nearest 100 1)
  require (product < infinite) .overflowError
  return if confidence.negative then -roundIndex product else roundIndex product

/-- `to_ocsf`, after validation. -/
def ocsfOf (canonical : Dict) : Except Exc Dict := do
  let eventClass ← fetch canonical (lit "class")
  let confidence ← toFloat (← fetch canonical (lit "confidence"))
  let confidenceId ← lookupText levelIds (← fetch canonical (lit "confidence_level"))
  let time ← toEpochMillis (← formatted (← fetch canonical (lit "ts_utc")))
  let (severityId, severity) ← severity canonical
  let title ← title canonical
  let confidenceName ← orError (.keyError []) (lookup levelNames confidenceId)
  let score ← confidenceScore confidence
  let eventId ← fetch canonical (lit "event_id")
  let timestamp ← fetch canonical (lit "ts_utc")
  let className ← formatted eventClass
  let siteId ← formatted (← fetch canonical (lit "site_id"))
  let zoneId ← formatted (← fetch canonical (lit "zone_id"))
  let modelId ← fetch canonical (lit "model_id")
  let nodeId ← fetch canonical (lit "node_id")
  let desc := lit "Vestrix classified physical activity as " ++ className ++ lit " in " ++ siteId ++
    lit "/" ++ zoneId ++ lit "."
  return [
    (lit "activity_id", int 1), (lit "activity_name", str "Create"), (lit "category_uid", int 2),
    (lit "category_name", str "Findings"), (lit "class_uid", int 2004),
    (lit "class_name", str "Detection Finding"), (lit "type_uid", int 200401),
    (lit "type_name", str "Detection Finding: Create"), (lit "time", int time),
    (lit "severity_id", int severityId), (lit "severity", severity), (lit "confidence_id", int confidenceId),
    (lit "confidence", confidenceName), (lit "confidence_score", int score), (lit "status_id", int 1),
    (lit "status", str "New"), (lit "is_alert", .atom (.bool (!isText eventClass (lit "normal")))),
    (lit "message", .atom (.str title)),
    (lit "metadata", .object [
      (lit "version", str "1.8.0"),
      (lit "product", .object [(lit "name", str "Vestrix"), (lit "vendor_name", str "Vestrix"),
        (lit "version", .atom (.str socSchemaVersion))]),
      (lit "original_event_uid", eventId), (lit "original_time", timestamp),
      (lit "log_name", str "vestrix-alerts"), (lit "log_provider", str "Vestrix"),
      (lit "source", str "Vestrix canonical SOC alert")]),
    (lit "finding_info", .object [
      (lit "uid", eventId), (lit "title", .atom (.str title)), (lit "desc", .atom (.str desc)),
      (lit "analytic", .object [(lit "name", modelId), (lit "uid", modelId), (lit "type_id", int 4),
        (lit "type", str "Learning (ML/DL)")]),
      (lit "types", .array [str "Physical Security", str "WiFi CSI Sensing"])]),
    (lit "device", .object [(lit "uid", nodeId), (lit "name", nodeId), (lit "type_id", int 99),
      (lit "type", str "WiFi CSI sensor"), (lit "vendor_name", str "Vestrix")]),
    (lit "unmapped", .object [(lit "vestrix", .object canonical)])]

/-- `to_ocsf`. -/
def toOcsf (alert : Value) : Except Exc Dict := do
  ocsfOf (← validateAlert alert)

/-! ### No failure after validation -/

variable {P : Exc → Prop} {d : Dict} {x : Binary64} {v : Value}

/-- The text fields of a valid alert have strings. -/
theorem Conforms.exists_text (h : Conforms d x) {key : Str} (hkey : key ∈ textFields) :
    ∃ s, d.get? key = some (.atom (.str s)) := by
  obtain ⟨_, hv, s, rfl, -⟩ := h.texts key hkey
  exact ⟨s, hv⟩

/-- Fetching a field that is there raises nothing. -/
theorem raises_fetch {key : Str} (h : d.get? key = some v) : Raises P (fetch d key) :=
  .of_ok (fetch_eq_ok.2 h)

/-- Nothing fails on the alerts that are taken, in the format of Wazuh. -/
theorem raises_wazuhOf (h : Conforms d x) : Raises P (wazuhOf d) := by
  obtain ⟨items, hshap, hitems⟩ := h.topShap
  rw [wazuhOf, fetch_eq_ok.2 hshap, ok_bind]
  cases items with
  | nil => exact .ok
  | cons item items =>
    obtain ⟨item, rfl, hnamed, ⟨w, hw, -⟩, -⟩ := hitems item List.mem_cons_self
    obtain ⟨f, hf, -⟩ := hnamed.feature
    show Raises P (fetch item (lit "feature") >>= fun feature => fetch item (lit "value") >>= fun value => _)
    rw [fetch_eq_ok.2 hf, ok_bind, fetch_eq_ok.2 hw, ok_bind]
    exact .ok

/-- A confidence is at most one. -/
theorem IsConfidence.le_one (h : IsConfidence v x) : val x.index ≤ 1 := by
  obtain ⟨hunit, hfloat⟩ := h
  unfold toFloat at hfloat
  split at hfloat
  · rename_i n
    have hn : 0 ≤ n ∧ n ≤ 1 := of_decide_eq_true hunit
    split_ifs at hfloat with hlt
    obtain rfl := Except.ok.inj hfloat
    show val (nearest n.natAbs 1) ≤ 1
    rw [val_nearest_of_le (by omega), Nat.cast_le_one]
    omega
  · obtain rfl := Except.ok.inj hfloat
    exact val_le_one.2 (of_decide_eq_true (Bool.and_eq_true_iff.1 hunit).2)
  · cases hfloat

/-- A hundred times a confidence is a finite number. -/
theorem mulIndex_lt_infinite {b : ℕ} (hb : val b ≤ 1) : mulIndex b (nearest 100 1) < infinite := by
  have hround := (mulIndex_eq_iff b (nearest 100 1) _).1 rfl
  have hnonneg : 0 ≤ val (nearest 100 1) := val_zero ▸ val_strictMono.monotone (Nat.zero_le _)
  have hle : mulIndex b (nearest 100 1) ≤ nearest 100 1 :=
    hround.mono val_strictMono (mul_le_of_le_one_left hnonneg hb) (roundsTo_self val_strictMono _)
  have hfinite : nearest 100 1 < infinite := by decide +kernel
  exact hle.trans_lt hfinite

/-- A confidence has a score. -/
theorem Confident.raises_score (h : Confident d x) : Raises P (confidenceScore x) := by
  obtain ⟨v, -, hconfidence⟩ := h.confidence
  rw [confidenceScore, require_true (mulIndex_lt_infinite hconfidence.le_one), ok_bind]
  exact .ok

/-- Each level has a severity. -/
theorem level_severity (x : Binary64) :
    ∃ a, lookupText levelSeverities (.atom (.str (confidenceLevel x))) = .ok a := by
  unfold confidenceLevel
  split_ifs
  · exact ⟨(4, str "High"), rfl⟩
  · exact ⟨(3, str "Medium"), rfl⟩
  · exact ⟨(2, str "Low"), rfl⟩

/-- A level has a number, and the number a name. -/
theorem level_name (x : Binary64) : ∃ id name,
    lookupText levelIds (.atom (.str (confidenceLevel x))) = .ok id ∧ lookup levelNames id = some name := by
  unfold confidenceLevel
  split_ifs
  · exact ⟨3, str "High", rfl, rfl⟩
  · exact ⟨2, str "Medium", rfl, rfl⟩
  · exact ⟨1, str "Low", rfl, rfl⟩

/-- A valid alert has a severity. -/
theorem Conforms.raises_severity (h : Conforms d x) : Raises P (severity d) := by
  obtain ⟨c, hc, -⟩ := h.eventClass
  obtain ⟨status, _, _, hbadged⟩ := h.pacs
  obtain ⟨a, ha⟩ := level_severity x
  rw [severity, fetch_eq_ok.2 hc, ok_bind, fetch_eq_ok.2 hbadged.known.1, fetch_eq_ok.2 h.level]
  simp only [ok_bind, ha]
  split_ifs <;> exact .ok

/-- A valid alert has a title. -/
theorem Conforms.raises_title (h : Conforms d x) : Raises P (title d) := by
  obtain ⟨c, hc, -⟩ := h.eventClass
  obtain ⟨siteId, hsite⟩ := h.exists_text (by decide : lit "site_id" ∈ textFields)
  obtain ⟨zoneId, hzone⟩ := h.exists_text (by decide : lit "zone_id" ∈ textFields)
  obtain ⟨status, _, _, hbadged⟩ := h.pacs
  rw [title, fetch_eq_ok.2 hc, fetch_eq_ok.2 hsite, fetch_eq_ok.2 hzone, fetch_eq_ok.2 hbadged.known.1]
  simp only [ok_bind, formatted]
  split_ifs <;> exact .ok

/-- The timestamp of a valid alert has milliseconds. -/
theorem Headed.exists_millis (h : Headed d) :
    ∃ s ms, d.get? (lit "ts_utc") = some (.atom (.str s)) ∧ toEpochMillis s = .ok ms := by
  obtain ⟨_, ht, s, rfl, -, hcalendar⟩ := h.timestamp
  obtain ⟨ms, hms⟩ := toEpochMillis_isOk.2 hcalendar
  exact ⟨s, ms, ht, hms⟩

/-- Nothing fails on the alerts that are taken, in the format of OCSF. -/
theorem raises_ocsfOf (h : Conforms d x) : Raises P (ocsfOf d) := by
  obtain ⟨_, hc, c, -, rfl⟩ := h.eventClass
  obtain ⟨v, hv, hconfidence⟩ := h.confidence
  obtain ⟨s, ms, hs, hms⟩ := h.exists_millis
  obtain ⟨eventId, hevent⟩ := h.exists_text (by decide : lit "event_id" ∈ textFields)
  obtain ⟨nodeId, hnode⟩ := h.exists_text (by decide : lit "node_id" ∈ textFields)
  obtain ⟨siteId, hsite⟩ := h.exists_text (by decide : lit "site_id" ∈ textFields)
  obtain ⟨zoneId, hzone⟩ := h.exists_text (by decide : lit "zone_id" ∈ textFields)
  obtain ⟨modelId, hmodel⟩ := h.exists_text (by decide : lit "model_id" ∈ textFields)
  obtain ⟨id, name, hid, hname⟩ := level_name x
  rw [ocsfOf, fetch_eq_ok.2 hc, ok_bind, fetch_eq_ok.2 hv, ok_bind, hconfidence.2, ok_bind,
    fetch_eq_ok.2 h.level, ok_bind, hid, ok_bind, fetch_eq_ok.2 hs, ok_bind, formatted, ok_bind, hms, ok_bind]
  refine h.raises_severity.bind fun severity _ => h.raises_title.bind fun title _ => ?_
  rw [orError_eq_ok.2 hname, ok_bind]
  refine h.raises_score.bind fun score _ => ?_
  rw [fetch_eq_ok.2 hevent, fetch_eq_ok.2 hsite, fetch_eq_ok.2 hzone, fetch_eq_ok.2 hmodel,
    fetch_eq_ok.2 hnode]
  exact .ok

/-- **The format of Wazuh adds no failure to validation.** -/
theorem raises_toWazuh_iff {alert : Value} : Raises P (toWazuh alert) ↔ Raises P (validateAlert alert) := by
  refine Raises.bind_iff fun d hd => ?_
  obtain ⟨-, x, h⟩ := validateAlert_eq_ok.1 hd
  exact raises_wazuhOf h

/-- **`to_ocsf` raises just what `validate_alert` does.** -/
theorem raises_toOcsf_iff {alert : Value} : Raises P (toOcsf alert) ↔ Raises P (validateAlert alert) := by
  refine Raises.bind_iff fun d hd => ?_
  obtain ⟨-, x, h⟩ := validateAlert_eq_ok.1 hd
  exact raises_ocsfOf h

end Soc
end Vestrix
