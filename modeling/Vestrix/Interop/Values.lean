/-
# The same value in both programs

`toPython` is the Python value of a value of the verifier: `json.loads` and
`serde_json` make the two of one text.  The Python values that a record may hold are just
those of permitted values of the verifier (`toPython_fromPython`), and what the two
programs write for them is the same (`canonicalJsonBytes_toPython`), where the interpreter allows a
call for each level of nesting (`canonical_bytes_agree`).
-/

import Vestrix.Forensics.Nesting
import Vestrix.Verifier.Unambiguous

namespace Vestrix
namespace Interop

open Text Rounding Json Outcome

/-- The Python value of a scalar. -/
def toPythonAtom : Verifier.Scalar → Python.Atom
  | .null => .none
  | .bool b => .bool b
  | .number (.int n _) => .int n
  | .number (.float x) => .float (.finite x)
  | .string s => .str (ofChars s)

/-- The Python value of a value. -/
def toPython : Verifier.Value → Python.Value := Json.map ofChars toPythonAtom

/-- The scalar of a permitted Python value that is one. -/
def fromPythonAtom : Python.Atom → Verifier.Scalar
  | .bool b => .bool b
  | .int n => if h : -2 ^ 63 ≤ n ∧ n < 2 ^ 64 then .number (.int n h) else .null
  | .float (.finite x) => .number (.float x)
  | .str s => .string ((scalars? s).getD [])
  | _ => .null

/-- The verifier's value of a permitted Python value. -/
def fromPython : Python.Value → Verifier.Value :=
  Json.map (fun k => (scalars? k).getD []) fromPythonAtom

/-- Two values are the same JSON value, whatever order their members are in. -/
def SameValue (p : Python.Value) (v : Verifier.Value) : Prop := p.sorted = (toPython v).sorted

/-- Code points are ordered as characters are. -/
theorem ofChars_strictMono : StrictMono ofChars := fun s t h => (ofChars_lt_iff s t).2 h

/-- A text of scalar values is read as characters and back. -/
theorem ofChars_getD {s : Str} (h : (scalars? s).isSome = true) : ofChars ((scalars? s).getD []) = s := by
  obtain ⟨t, ht⟩ := Option.isSome_iff_exists.1 h
  rw [ht, scalars?_eq_some_iff.1 ht]
  rfl

/-- A permitted atom of Python is one of Rust and back. -/
theorem toPython_fromPythonAtom {a : Python.Atom} (h : Forensics.PermittedAtom a) :
    toPythonAtom (fromPythonAtom a) = a ∧ (fromPythonAtom a).Permitted := by
  cases a with
  | none => exact ⟨rfl, trivial⟩
  | bool b => exact ⟨rfl, trivial⟩
  | int n =>
    have hn : -2 ^ 63 ≤ n ∧ n < 2 ^ 63 := h
    rw [fromPythonAtom, dif_pos ⟨hn.1, by omega⟩]
    exact ⟨rfl, hn.2⟩
  | float x =>
    cases x with
    | finite x => exact ⟨rfl, trivial⟩
    | infinite b => exact h.elim
    | nan => exact h.elim
  | str s => exact ⟨congrArg _ (ofChars_getD h), trivial⟩
  | other n => exact h.elim

/-- **The permitted Python values are those of the verifier's permitted values.** -/
theorem toPython_fromPython {p : Python.Value} (h : Forensics.Permitted p) :
    toPython (fromPython p) = p ∧ Verifier.Permitted (fromPython p) := by
  induction p using ind with
  | atom a =>
    obtain ⟨ha, hp⟩ := toPython_fromPythonAtom (forall_atom.1 h)
    exact ⟨congrArg Json.atom ha, .atom hp⟩
  | array xs ih =>
    have hxs := forall_array.1 h
    rw [fromPython, map_array, ← fromPython, toPython, map_array, ← toPython, List.map_map]
    refine ⟨congrArg Json.array ?_, .array (List.forall_mem_map.2 fun x hx => (ih x hx (hxs x hx)).2)⟩
    conv_rhs => rw [← List.map_id xs]
    exact List.map_congr_left fun x hx => (ih x hx (hxs x hx)).1
  | object ms ih =>
    obtain ⟨hkeys, hms⟩ := forall_object.1 h
    rw [fromPython, map_object, ← fromPython, toPython, map_object, ← toPython, List.map_map]
    refine ⟨congrArg Json.object ?_,
      .object trivial (List.forall_mem_map.2 fun m hm => (ih m hm (hms m hm)).2)⟩
    conv_rhs => rw [← List.map_id ms]
    exact List.map_congr_left fun m hm =>
      Prod.ext (ofChars_getD (hkeys m.1 (List.mem_map_of_mem hm))) (ih m hm (hms m hm)).1

/-- A permitted atom of Rust is permitted in Python. -/
theorem permittedAtom_toPython {a : Verifier.Scalar} (h : a.Permitted) :
    Forensics.PermittedAtom (toPythonAtom a) := by
  cases a with
  | number n =>
    cases n with
    | int n hn => exact ⟨hn.1, h⟩
    | float x => trivial
  | string s => exact Option.isSome_iff_exists.2 ⟨s, scalars?_ofChars s⟩
  | _ => trivial

/-- A permitted value of Rust is permitted in Python. -/
theorem permitted_toPython {v : Verifier.Value} (h : Verifier.Permitted v) :
    Forensics.Permitted (toPython v) := by
  refine forall_map _ _ (h.imp (fun a ha => permittedAtom_toPython ha) fun ks _ => ?_)
  exact List.forall_mem_map.2 fun k _ => Option.isSome_iff_exists.2 ⟨k, scalars?_ofChars k⟩

/-- Keys are sorted in the same order in both programs. -/
theorem sorted_toPython (v : Verifier.Value) : (toPython v).sorted = toPython v.sorted :=
  (map_sorted ofChars_strictMono toPythonAtom v).symm

/-- A value has each key once in both programs. -/
theorem toPython_distinctKeys {v : Verifier.Value} (h : v.DistinctKeys) : (toPython v).DistinctKeys :=
  forall_map _ _ (h.imp (fun _ _ => trivial) fun _ hks => hks.map ofChars_injective)

/-- **Both programs write an atom the same way.** -/
theorem atomText_toPython (a : Verifier.Scalar) :
    Python.atomText (toPythonAtom a) = ofChars (Verifier.scalarText a) := by
  cases a with
  | number n => cases n <;> rfl
  | string s => exact quote_ofChars s
  | null => rfl
  | bool b => rfl

/-- Python writes the text that the verifier writes. -/
theorem text_toPython (v : Verifier.Value) : Python.text (toPython v) = ofChars (Verifier.text v) := by
  rw [Python.text, Verifier.text, sorted_toPython, ofChars_compact, toPython, compact_map]
  simp only [atomText_toPython, quote_ofChars]

/-- **The canonical bytes in Python are those of the verifier**, for a value that it encodes. -/
theorem canonicalJsonBytes_toPython {v : Verifier.Value} (hv : Verifier.Encodable v) {p : Python.Value}
    (hp : SameValue p v) : Forensics.canonicalJsonBytes p = .ok (utf8 (Verifier.text v)) := by
  have hsorted : Python.Encodable p.sorted := by
    rw [hp]
    exact forall_sorted (fun _ _ => trivial) (Forensics.encodable_of_permitted (permitted_toPython hv.1))
  have htext : Python.text p = ofChars (Verifier.text v) := by
    rw [← text_toPython, Python.text, Python.text, hp]
  refine Forensics.canonicalJsonBytes_eq_ok.2 ⟨forall_of_sorted (fun _ _ => trivial) hsorted, ?_⟩
  rw [htext, encodeUtf8, scalars?_ofChars]
  rfl

/-- A value is nested as deeply in both programs. -/
theorem SameValue.depth_eq {p : Python.Value} {v : Verifier.Value} (h : SameValue p v) :
    p.depth = v.depth := by
  rw [← depth_sorted p, h, depth_sorted, toPython, depth_map]

/-- **Both programs write the same bytes** for a value, however its members are ordered in
each, exactly where `json.dumps` is allowed a nested call for each level of the value. -/
theorem canonical_bytes_agree (limit : ℕ) (v : Verifier.Value) (hv : Verifier.Encodable v)
    (p : Python.Value) (hp : SameValue p v) :
    (∃ bytes, Forensics.canonicalJsonBytesWithin limit p = .ok bytes ∧ Verifier.serialize v = .ok bytes) ↔
      v.depth ≤ limit := by
  have hbytes := canonicalJsonBytes_toPython hv hp
  rw [← hp.depth_eq]
  constructor
  · rintro ⟨bytes, hpython, -⟩
    by_contra hdeep
    rw [Forensics.canonicalJsonBytesWithin_recursionError (Forensics.canonicalJsonBytes_eq_ok.1 hbytes).1
      (Nat.lt_of_not_le hdeep)] at hpython
    cases hpython
  · intro hdepth
    refine ⟨_, ?_, hv.serialize⟩
    rw [Forensics.canonicalJsonBytesWithin_of_depth hdepth, hbytes, Except.mapError]

/-- An object of the verifier. -/
def ordered : Verifier.Value :=
  .object [(['a', '\n'], .atom (.string [Char.ofNat 0x2028])),
    (['b'], .array [.atom (.number (.float ⟨true, 0, by decide⟩)), .atom (.number (.int (-1) (by decide)))])]

/-- The same object in Python, its members in another order. -/
def shuffled : Python.Value :=
  .object [(lit "b", .array [.atom (.float (.finite ⟨true, 0, by decide⟩)), .atom (.int (-1))]),
    (lit "a\n", .atom (.str [.scalar (Char.ofNat 0x2028)]))]

/-- An object whose members are in another order in Python. -/
theorem canonical_bytes_agree_shuffled : ∃ bytes,
    Forensics.canonicalJsonBytesWithin 1000 shuffled = .ok bytes ∧ Verifier.serialize ordered = .ok bytes :=
  (canonical_bytes_agree 1000 ordered (by decide) shuffled (by rfl)).2 (by decide)

/-- An empty list in so many others. -/
def nestedLists : ℕ → Verifier.Value
  | 0 => .array []
  | n + 1 => .array [nestedLists n]

/-- The sample has one level more than lists in each other. -/
theorem depth_nestedLists (n : ℕ) : (nestedLists n).depth = n + 1 := by
  induction n with
  | zero => rfl
  | succ n ih =>
    rw [nestedLists, depth_array, List.map_singleton, ih]
    exact congrArg Nat.succ (Nat.max_zero _)

/-- The sample has canonical bytes in the verifier. -/
theorem encodable_nestedLists (n : ℕ) : Verifier.Encodable (nestedLists n) := by
  induction n with
  | zero => decide
  | succ n ih =>
    exact ⟨.array (List.forall_mem_singleton.2 ih.1), .array (List.forall_mem_singleton.2 ih.2)⟩

/-- **Not every value has canonical bytes in Python**: 1001 lists in each other are more than an interpreter
with the usual limit of 1000 calls encodes. -/
theorem canonical_bytes_recursionError : ¬ ∀ (v : Verifier.Value), Verifier.Encodable v →
    ∀ (p : Python.Value), SameValue p v → ∃ bytes,
      Forensics.canonicalJsonBytesWithin 1000 p = .ok bytes ∧ Verifier.serialize v = .ok bytes := by
  intro h
  obtain ⟨bytes, hpython, -⟩ := h (nestedLists 1000) (encodable_nestedLists 1000) (toPython _) rfl
  have hencodable : Python.Encodable (toPython (nestedLists 1000)) :=
    Forensics.encodable_of_permitted (permitted_toPython (encodable_nestedLists 1000).1)
  have hdepth : (toPython (nestedLists 1000)).depth = 1001 := by
    rw [toPython, depth_map, depth_nestedLists]
  rw [Forensics.canonicalJsonBytesWithin_recursionError hencodable (by rw [hdepth]; decide)] at hpython
  cases hpython

end Interop
end Vestrix
