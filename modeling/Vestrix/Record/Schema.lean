/-
# The record schema

CHAIN_FORMAT.md's three kinds of record, as data: the fields of each, and what a field may
hold.  Nothing here is about one of the two programs.  A program sees its values through
a `View`, and a record is a partial function from its keys to its values; what counts as
a timestamp is a parameter.

The validators of both programs accept the records that conform to one of the three
shapes, each with its own view and its own timestamps.
-/

import Vestrix.Json.Tree
import Vestrix.Text.Digits
import Mathlib.Data.Rat.Defs

namespace Vestrix
namespace Record

open Text

/-- What a program sees of its values: strings of Unicode scalar values, integers and
numbers, and whether a value may be part of a record at all. -/
structure View (V : Type) where
  text? : V → Option (List Char)
  integer? : V → Option ℤ
  number? : V → Option ℚ
  Permitted : V → Prop

/-- What a field may hold. -/
inductive Kind where
  | version
  | word (w : List Char)
  | nonempty
  | timestamp
  | hex (n : ℕ)
  | confidence
  | json
  | counter
deriving DecidableEq

/-- A field and what it may hold. -/
abbrev Field := List Char × Kind

/-- The three kinds of record. -/
inductive Shape where
  | v1
  | ingestion
  | classification
deriving DecidableEq

/-- The format version of a kind of record. -/
def Shape.version : Shape → ℕ
  | .v1 => 1
  | .ingestion => 2
  | .classification => 2

/-- What tells the kinds of version 2 apart. -/
def Shape.eventType : Shape → Option (List Char)
  | .v1 => none
  | .ingestion => some "ingestion_accepted".toList
  | .classification => some "classification_decision".toList

/-- Each shape has an event type of its own. -/
theorem Shape.eventType_injective : Function.Injective Shape.eventType := by
  intro s s' h
  cases s <;> cases s' <;> first | rfl | exact absurd h (by decide)

/-- The fields of every event. -/
def commonFields : List Field :=
  [("ts_utc".toList, .timestamp), ("node_id".toList, .nonempty), ("raw_csi_hash".toList, .hex 64)]

/-- The fields that say what was classified, and how. -/
def decisionFields : List Field :=
  [("features_hash".toList, .hex 64), ("model_id".toList, .nonempty),
    ("model_config_hash".toList, .hex 64), ("class".toList, .nonempty),
    ("confidence".toList, .confidence), ("top_shap".toList, .json)]

/-- The fields that say what was received. -/
def collectorFields : List Field :=
  [("collector_schema_version".toList, .nonempty), ("collector_sequence_number".toList, .counter)]

/-- The fields of an event of version 2 only. -/
def versionFields (eventType : String) : List Field :=
  [("format_version".toList, .version), ("event_type".toList, .word eventType.toList)]

/-- The fields of an event. -/
def Shape.eventFields : Shape → List Field
  | .v1 => commonFields ++ decisionFields
  | .ingestion => versionFields "ingestion_accepted" ++ (commonFields ++ collectorFields)
  | .classification => versionFields "classification_decision" ++ (commonFields ++ decisionFields)

/-- The fields that the writer adds. -/
def chainFields : List Field :=
  [("seq".toList, .counter), ("prev_hash".toList, .hex 64), ("record_hash".toList, .hex 64),
    ("signature".toList, .hex 128)]

/-- The fields of a record. -/
def Shape.recordFields (shape : Shape) : List Field := shape.eventFields ++ chainFields

variable {V W σ τ : Type}

/-- A value that a field may hold. -/
def Kind.Holds (view : View V) (timestamp : List Char → Prop) : Kind → V → Prop
  | .version, v => view.integer? v = some 2
  | .word w, v => view.text? v = some w
  | .nonempty, v => ∃ t, view.text? v = some t ∧ t ≠ []
  | .timestamp, v => ∃ t, view.text? v = some t ∧ timestamp t
  | .hex n, v => ∃ t, view.text? v = some t ∧ t.length = n ∧ ∀ c ∈ t, isLowerHex c = true
  | .confidence, v => ∃ q, view.number? v = some q ∧ 0 ≤ q ∧ q ≤ 1
  | .json, v => view.Permitted v
  | .counter, v => ∃ n, view.integer? v = some n ∧ 0 ≤ n ∧ n < 2 ^ 63

/-- A record has the given fields, each with a value it may hold, and no others. -/
structure Conforms (view : View V) (timestamp : List Char → Prop) (name : List Char → σ)
    (fields : List Field) (record : σ → Option V) : Prop where
  known : ∀ k v, record k = some v → ∃ f ∈ fields, k = name f.1
  holds : ∀ f ∈ fields, ∃ v, record (name f.1) = some v ∧ f.2.Holds view timestamp v

section

variable {view : View V} {view' : View W} {timestamp timestamp' : List Char → Prop}
  {name : List Char → σ} {name' : List Char → τ} {record : σ → Option V}

/-- More timestamps may be taken for a field. -/
theorem Kind.Holds.mono (h : ∀ t, timestamp t → timestamp' t) {kind : Kind} {v : V}
    (hv : kind.Holds view timestamp v) : kind.Holds view timestamp' v := by
  cases kind with
  | timestamp =>
    obtain ⟨t, ht, htime⟩ := hv
    exact ⟨t, ht, h t htime⟩
  | _ => exact hv

/-- Two values that look the same are held by the same fields. -/
theorem Kind.holds_congr {v : V} {w : W} (htext : view'.text? w = view.text? v)
    (hinteger : view'.integer? w = view.integer? v) (hnumber : view'.number? w = view.number? v)
    (hjson : view'.Permitted w ↔ view.Permitted v) {kind : Kind} :
    kind.Holds view' timestamp w ↔ kind.Holds view timestamp v := by
  cases kind with
  | json => exact hjson
  | _ => simp only [Kind.Holds, htext, hinteger, hnumber]

/-- More timestamps may be taken for a record. -/
theorem Conforms.mono (h : ∀ t, timestamp t → timestamp' t) {fields : List Field}
    (hr : Conforms view timestamp name fields record) :
    Conforms view timestamp' name fields record where
  known := hr.known
  holds f hf := by
    obtain ⟨v, hv, hkind⟩ := hr.holds f hf
    exact ⟨v, hv, hkind.mono h⟩

/-- A field of the shape is there, with a value that it may hold. -/
theorem Conforms.field {fields : List Field} (hr : Conforms view timestamp name fields record)
    {key : List Char} {kind : Kind} (hf : (key, kind) ∈ fields) :
    ∃ v, record (name key) = some v ∧ kind.Holds view timestamp v := hr.holds _ hf

/-- A key that is no field of the shape is not there. -/
theorem Conforms.absent (hname : Function.Injective name) {fields : List Field}
    (hr : Conforms view timestamp name fields record) {key : List Char}
    (hkey : key ∉ fields.map Prod.fst) : record (name key) = none := by
  cases h : record (name key) with
  | none => rfl
  | some v =>
    obtain ⟨f, hf, hk⟩ := hr.known _ _ h
    exact absurd (List.mem_map.2 ⟨f, hf, (hname hk).symm⟩) hkey

/-- Two groups of fields with no name in common: a record conforms to both when what it has
besides the second conforms to the first. -/
theorem conforms_append [DecidableEq σ] (hname : Function.Injective name) {fs gs : List Field}
    (hdisjoint : ∀ f ∈ fs, f.1 ∉ gs.map Prod.fst) :
    Conforms view timestamp name (fs ++ gs) record ↔
      Conforms view timestamp name fs
        (fun k => if k ∈ gs.map (name ∘ Prod.fst) then none else record k) ∧
      ∀ g ∈ gs, ∃ v, record (name g.1) = some v ∧ g.2.Holds view timestamp v := by
  have hnotMem : ∀ f ∈ fs, name f.1 ∉ gs.map (name ∘ Prod.fst) := by
    rintro f hf hmem
    obtain ⟨g, hg, hk⟩ := List.mem_map.1 hmem
    exact hdisjoint f hf (List.mem_map.2 ⟨g, hg, hname hk⟩)
  constructor
  · intro h
    refine ⟨⟨fun k v hv => ?_, fun f hf => ?_⟩, fun g hg => h.holds g (List.mem_append_right _ hg)⟩
    · split_ifs at hv with hk
      obtain ⟨f, hf, rfl⟩ := h.known k v hv
      rcases List.mem_append.1 hf with hf | hf
      · exact ⟨f, hf, rfl⟩
      · exact absurd (List.mem_map.2 ⟨f, hf, rfl⟩) hk
    · rw [if_neg (hnotMem f hf)]
      exact h.holds f (List.mem_append_left _ hf)
  · rintro ⟨h, hgs⟩
    refine ⟨fun k v hv => ?_, fun f hf => ?_⟩
    · by_cases hk : k ∈ gs.map (name ∘ Prod.fst)
      · obtain ⟨g, hg, rfl⟩ := List.mem_map.1 hk
        exact ⟨g, List.mem_append_right _ hg, rfl⟩
      · obtain ⟨f, hf, hkf⟩ := h.known k v (by rwa [if_neg hk])
        exact ⟨f, List.mem_append_left _ hf, hkf⟩
    · rcases List.mem_append.1 hf with hf | hf
      · have hfield := h.holds f hf
        rwa [if_neg (hnotMem f hf)] at hfield
      · exact hgs f hf

/-- Every record has a timestamp. -/
theorem Conforms.ts_utc {shape : Shape}
    (hr : Conforms view timestamp name shape.recordFields record) :
    ∃ v t, record (name "ts_utc".toList) = some v ∧ view.text? v = some t ∧ timestamp t := by
  have hmem : ("ts_utc".toList, Kind.timestamp) ∈ shape.recordFields := by
    cases shape <;> decide
  obtain ⟨v, hv, t, ht, htime⟩ := hr.field hmem
  exact ⟨v, t, hv, ht, htime⟩

/-- What a conforming record satisfies with its timestamp exchanged. -/
theorem Conforms.of_timestamp {shape : Shape}
    (hr : Conforms view timestamp name shape.recordFields record)
    (h : ∀ v t, record (name "ts_utc".toList) = some v → view.text? v = some t → timestamp t →
      timestamp' t) : Conforms view timestamp' name shape.recordFields record where
  known := hr.known
  holds f hf := by
    obtain ⟨v, hv, hkind⟩ := hr.holds f hf
    refine ⟨v, hv, ?_⟩
    by_cases hts : f.2 = .timestamp
    · have hkey : ∀ g ∈ shape.recordFields, g.2 = .timestamp → g.1 = "ts_utc".toList := by
        cases shape <;> decide
      rw [hkey f hf hts] at hv
      rw [hts] at hkind ⊢
      obtain ⟨t, ht, htime⟩ := hkind
      exact ⟨t, ht, h v t hv ht htime⟩
    · cases hkind' : f.2 with
      | timestamp => exact absurd hkind' hts
      | _ => rw [hkind'] at hkind; exact hkind

/-- The event type of a record is that of its shape. -/
theorem Conforms.eventType (hname : Function.Injective name) {shape : Shape}
    (hr : Conforms view timestamp name shape.recordFields record) :
    (record (name "event_type".toList)).bind view.text? = shape.eventType := by
  have hword : ∀ word, ("event_type".toList, Kind.word word) ∈ shape.recordFields →
      (record (name "event_type".toList)).bind view.text? = some word := fun word hf => by
    obtain ⟨v, hv, ht⟩ := hr.field hf
    rw [hv]
    exact ht
  cases shape with
  | v1 => rw [hr.absent hname (by decide)]; rfl
  | ingestion => exact hword _ (by decide)
  | classification => exact hword _ (by decide)

/-- **A record has one shape at most.** -/
theorem Conforms.shape_unique (hname : Function.Injective name) {shape shape' : Shape}
    (hr : Conforms view timestamp name shape.recordFields record)
    (hr' : Conforms view timestamp' name shape'.recordFields record) : shape = shape' :=
  Shape.eventType_injective ((hr.eventType hname).symm.trans (hr'.eventType hname))

/-- **Two records that look the same conform together**: the second has the values of the
first under other names. -/
theorem conforms_congr (hname : Function.Injective name) (hname' : Function.Injective name')
    {record' : τ → Option W} {fields : List Field}
    (hkeys : ∀ k w, record' k = some w → ∃ key, k = name' key)
    (hrecord : ∀ key, (record' (name' key) = none ∧ record (name key) = none) ∨
      ∃ v w, record (name key) = some v ∧ record' (name' key) = some w ∧
        ∀ kind : Kind, kind.Holds view' timestamp w ↔ kind.Holds view timestamp v)
    (hkeys' : ∀ k v, record k = some v → ∃ key, k = name key) :
    Conforms view' timestamp name' fields record' ↔ Conforms view timestamp name fields record := by
  constructor
  · intro h
    constructor
    · intro k v hv
      obtain ⟨key, rfl⟩ := hkeys' k v hv
      rcases hrecord key with ⟨-, hnone⟩ | ⟨v', w, -, hw, -⟩
      · rw [hnone] at hv
        cases hv
      · obtain ⟨f, hf, hk⟩ := h.known _ _ hw
        exact ⟨f, hf, by rw [hname' hk]⟩
    · intro f hf
      obtain ⟨w, hw, hkind⟩ := h.holds f hf
      rcases hrecord f.1 with ⟨hnone, -⟩ | ⟨v, w', hv, hw', hiff⟩
      · rw [hnone] at hw
        cases hw
      · obtain rfl := Option.some.inj (hw.symm.trans hw')
        exact ⟨v, hv, (hiff f.2).1 hkind⟩
  · intro h
    constructor
    · intro k w hw
      obtain ⟨key, rfl⟩ := hkeys k w hw
      rcases hrecord key with ⟨hnone, -⟩ | ⟨v, w', hv, -, -⟩
      · rw [hnone] at hw
        cases hw
      · obtain ⟨f, hf, hk⟩ := h.known _ _ hv
        exact ⟨f, hf, by rw [hname hk]⟩
    · intro f hf
      obtain ⟨v, hv, hkind⟩ := h.holds f hf
      rcases hrecord f.1 with ⟨-, hnone⟩ | ⟨v', w, hv', hw, hiff⟩
      · rw [hnone] at hv
        cases hv
      · obtain rfl := Option.some.inj (hv.symm.trans hv')
        exact ⟨w, hw, (hiff f.2).2 hkind⟩

end

end Record
end Vestrix
