/-
# The same record in both programs

A record is a dictionary in Python and an object in the verifier.  Two that are the same
value have the same fields (`SameValue.get?`), and each field holds the same kinds of
value in both, so that the two conform to the schema together when a timestamp means the
same in both (`SameValue.conforms_iff`).
-/

import Vestrix.Interop.Values
import Vestrix.Verifier.Schema

namespace Vestrix
namespace Interop

open Text Rounding Json Outcome Record

/-- The same value as a scalar is that scalar. -/
theorem SameValue.atom {p : Python.Value} {a : Verifier.Scalar} (h : SameValue p (.atom a)) :
    p = .atom (toPythonAtom a) := by
  have hsorted : p.sorted = .atom (toPythonAtom a) := h
  cases p with
  | atom b => exact hsorted
  | array xs =>
    rw [sorted_array] at hsorted
    cases hsorted
  | object ms =>
    rw [sorted_object] at hsorted
    cases hsorted

/-- A value that the verifier permits is permitted in Python. -/
theorem SameValue.permitted {p : Python.Value} {v : Verifier.Value} (h : SameValue p v)
    (hv : Verifier.Permitted v) : Forensics.Permitted p := by
  have hsorted : Forensics.Permitted p.sorted := h ▸ Forensics.permitted_sorted (permitted_toPython hv)
  exact forall_of_sorted (fun hperm hks k hk => hks k (hperm.mem_iff.2 hk)) hsorted

/-- What is no scalar in one program is none in the other. -/
theorem SameValue.not_atom {p : Python.Value} {v : Verifier.Value} (h : SameValue p v)
    (hv : ∀ a, v ≠ .atom a) : ∀ a, p ≠ .atom a := by
  rintro a rfl
  have hsorted : Json.atom a = (toPython v).sorted := h
  cases v with
  | atom b => exact hv b rfl
  | array xs =>
    rw [toPython, map_array, sorted_array] at hsorted
    cases hsorted
  | object ms =>
    rw [toPython, map_object, sorted_object] at hsorted
    cases hsorted

/-- **The same value is the same text, integer and number** in both programs. -/
theorem SameValue.view_eq {p : Python.Value} {v : Verifier.Value} (h : SameValue p v)
    (hv : Verifier.Permitted v) : Forensics.view.text? p = Verifier.view.text? v ∧
      Forensics.view.integer? p = Verifier.view.integer? v ∧
        Forensics.view.number? p = Verifier.view.number? v := by
  have hcontainer : (∀ a, v ≠ .atom a) → Forensics.view.text? p = Verifier.view.text? v ∧
      Forensics.view.integer? p = Verifier.view.integer? v ∧
        Forensics.view.number? p = Verifier.view.number? v := by
    intro hne
    have hpne := h.not_atom hne
    cases v with
    | atom a => exact absurd rfl (hne a)
    | _ =>
      cases p with
      | atom a => exact absurd rfl (hpne a)
      | _ => exact ⟨rfl, rfl, rfl⟩
  cases v with
  | array xs => exact hcontainer fun a ha => (nomatch ha)
  | object ms => exact hcontainer fun a ha => (nomatch ha)
  | atom a =>
    obtain rfl := h.atom
    cases a with
    | null => exact ⟨rfl, rfl, rfl⟩
    | bool b => exact ⟨rfl, rfl, rfl⟩
    | string s => exact ⟨scalars?_ofChars s, rfl, rfl⟩
    | number n =>
      cases n with
      | float x => exact ⟨rfl, rfl, rfl⟩
      | int n hn =>
        have hp : (Verifier.Scalar.number (.int n hn)).Permitted := forall_atom.1 hv
        have hlt : n < 2 ^ 63 := hp
        exact ⟨rfl, (if_pos hlt).symm, rfl⟩

/-- The same value may stand in the same fields. -/
theorem SameValue.holds_iff {p : Python.Value} {v : Verifier.Value} (h : SameValue p v)
    (hv : Verifier.Permitted v) {timestamp : List Char → Prop} (kind : Kind) :
    kind.Holds Forensics.view timestamp p ↔ kind.Holds Verifier.view timestamp v := by
  obtain ⟨htext, hinteger, hnumber⟩ := h.view_eq hv
  exact Kind.holds_congr htext hinteger hnumber ⟨fun _ => trivial, fun _ => h.permitted hv⟩

section

variable {record : Python.Dict} {object : Verifier.Object}

/-- **The same record has the same fields**, with the same values. -/
theorem SameValue.get? (h : SameValue (.object record) (.object object))
    (hrecord : (Json.object record).DistinctKeys) (hobject : (Json.object object).DistinctKeys)
    (key : List Char) :
    (lookup object key = none ∧ record.get? (ofChars key) = none) ∨
      ∃ p v, record.get? (ofChars key) = some p ∧ lookup object key = some v ∧ SameValue p v := by
  have hsorted : (Json.object record).sorted = (toPython (.object object)).sorted := h
  rw [toPython, map_object, ← toPython] at hsorted
  have hkeys : (record.map Prod.fst).Nodup := (forall_object.1 hrecord).1
  have hkeys' : ((object.map (Prod.map ofChars toPython)).map Prod.fst).Nodup := by
    rw [keys_map]
    exact (forall_object.1 hobject).1.map ofChars_injective
  obtain ⟨ns, hns⟩ : ∃ ns, (Json.object record).sorted = .object ns := ⟨_, sorted_object record⟩
  have hleft := lookup_sorted hkeys hns (ofChars key)
  have hright := lookup_sorted hkeys' (hsorted ▸ hns) (ofChars key)
  rw [lookup_map ofChars_injective, hleft] at hright
  rw [Python.Dict.get?]
  cases hv : lookup object key with
  | none =>
    rw [hv, Option.map_none, Option.map_none, Option.map_eq_none_iff] at hright
    exact Or.inl ⟨rfl, hright⟩
  | some v =>
    rw [hv, Option.map_some, Option.map_some, Option.map_eq_some_iff] at hright
    obtain ⟨p, hp, hpv⟩ := hright
    exact Or.inr ⟨p, v, hp, rfl, hpv⟩

/-- The names of the same record are those of the verifier. -/
theorem SameValue.exists_key (h : SameValue (.object record) (.object object))
    {k : Str} {p : Python.Value} (hk : record.get? k = some p) : ∃ key, k = ofChars key := by
  obtain ⟨ns, hns⟩ : ∃ ns, (Json.object record).sorted = .object ns := ⟨_, sorted_object record⟩
  have hsorted : (toPython (.object object)).sorted = .object ns := by rw [← hns, ← h]
  rw [toPython, map_object, ← toPython] at hsorted
  have hmem : k ∈ record.map Prod.fst := lookup_isSome.1 ⟨p, hk⟩
  rw [← (keys_sorted hns).mem_iff, (keys_sorted hsorted).mem_iff, keys_map] at hmem
  obtain ⟨key, -, rfl⟩ := List.mem_map.1 hmem
  exact ⟨key, rfl⟩

/-- **The same record conforms to the schema in both programs**, when a timestamp is the
same in both. -/
theorem SameValue.conforms_iff (h : SameValue (.object record) (.object object))
    (hrecord : (Json.object record).DistinctKeys) (hobject : (Json.object object).DistinctKeys)
    (hpermitted : Verifier.Permitted (.object object)) {timestamp : List Char → Prop}
    {fields : List Field} :
    Record.Conforms Forensics.view timestamp ofChars fields record.get? ↔
      Record.Conforms Verifier.view timestamp id fields (lookup object) := by
  have hvalue : ∀ {key v}, lookup object key = some v → Verifier.Permitted v := fun hv =>
    (forall_object.1 hpermitted).2 _ (mem_of_lookup hv)
  refine conforms_congr Function.injective_id ofChars_injective
    (fun k p hk => h.exists_key hk) (fun key => ?_) fun k v _ => ⟨k, rfl⟩
  rcases h.get? hrecord hobject key with hnone | ⟨p, v, hp, hv, hpv⟩
  · exact Or.inl ⟨hnone.2, hnone.1⟩
  · exact Or.inr ⟨v, p, hv, hp, fun kind => hpv.holds_iff (hvalue hv) kind⟩

/-- The same record has the same strings in its fields. -/
theorem SameValue.stringField (h : SameValue (.object record) (.object object))
    (hrecord : (Json.object record).DistinctKeys) (hobject : (Json.object object).DistinctKeys)
    (hpermitted : Verifier.Permitted (.object object)) {key t : List Char} :
    record.get? (ofChars key) = some (.atom (.str (ofChars t))) ↔
      Verifier.stringField object key = .ok t := by
  rw [Verifier.stringField_eq_ok]
  rcases h.get? hrecord hobject key with ⟨hnone, hnone'⟩ | ⟨p, v, hp, hv, hpv⟩
  · rw [hnone, hnone']
    exact ⟨fun h => (nomatch h), fun ⟨_, h, _⟩ => (nomatch h)⟩
  · have hview := (hpv.view_eq ((forall_object.1 hpermitted).2 _ (mem_of_lookup hv))).1
    rw [hp, hv]
    constructor
    · intro hstr
      obtain rfl := Option.some.inj hstr
      exact ⟨v, rfl, hview.symm.trans (scalars?_ofChars t)⟩
    · rintro ⟨_, hsome, ht⟩
      obtain rfl := Option.some.inj hsome
      rw [Forensics.eq_str (hview.trans ht)]

/-- The same record has the same integers in its fields. -/
theorem SameValue.integerField (h : SameValue (.object record) (.object object))
    (hrecord : (Json.object record).DistinctKeys) (hobject : (Json.object object).DistinctKeys)
    (hpermitted : Verifier.Permitted (.object object)) {key : List Char} {n : ℕ} :
    record.get? (ofChars key) = some (.atom (.int n)) ↔ Verifier.integerField object key = .ok n := by
  rw [Verifier.integerField_eq_ok]
  rcases h.get? hrecord hobject key with ⟨hnone, hnone'⟩ | ⟨p, v, hp, hv, hpv⟩
  · rw [hnone, hnone']
    exact ⟨fun h => (nomatch h), fun ⟨_, h, _⟩ => (nomatch h)⟩
  · have hview := (hpv.view_eq ((forall_object.1 hpermitted).2 _ (mem_of_lookup hv))).2.1
    rw [hp, hv]
    constructor
    · intro hint
      obtain rfl := Option.some.inj hint
      exact ⟨v, rfl, hview.symm⟩
    · rintro ⟨_, hsome, hn⟩
      obtain rfl := Option.some.inj hsome
      rw [Forensics.eq_int (hview.trans hn)]

/-- **The same record is the same without its hash and its signature.** -/
theorem SameValue.unsignedOf (h : SameValue (.object record) (.object object))
    (hrecord : (Json.object record).DistinctKeys) (hobject : (Json.object object).DistinctKeys) :
    SameValue (.object (Forensics.unsignedOf record)) (.object (Verifier.unsignedOf object)) := by
  have hsorted : (Json.object record).sorted = (toPython (.object object)).sorted := h
  have hdistinct := toPython_distinctKeys hobject
  rw [toPython, map_object, ← toPython] at hsorted hdistinct
  obtain ⟨ns, hns⟩ : ∃ ns, (Json.object record).sorted = .object ns := ⟨_, sorted_object record⟩
  let p : Str → Bool := fun k => decide (k ∉ [lit "record_hash", lit "signature"])
  have hleft := sorted_filter hrecord hns p
  have hright := sorted_filter hdistinct (hsorted ▸ hns) p
  have hfilter : (object.map (Prod.map ofChars toPython)).filter (fun m => p m.1) =
      (Verifier.unsignedOf object).map (Prod.map ofChars toPython) := by
    rw [List.filter_map, Verifier.unsignedOf]
    refine congrArg _ (List.filter_congr fun m _ => ?_)
    refine decide_eq_decide.2 (not_congr ?_)
    have hkeys : [lit "record_hash", lit "signature"] =
        ["record_hash".toList, "signature".toList].map ofChars := rfl
    rw [hkeys, Prod.map_fst, List.mem_map_of_injective ofChars_injective]
  rw [hfilter] at hright
  show _ = (toPython (.object (Verifier.unsignedOf object))).sorted
  rw [toPython, map_object, ← toPython, ← hright]
  exact hleft.symm

end

end Interop
end Vestrix
