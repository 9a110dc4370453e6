/-
# The recursion limit of `json.dumps`

`json.dumps` calls itself for each container in a container, and raises RecursionError where the
interpreter allows no further call.  This is no TypeError and no ValueError, so that
`canonical_json_bytes` does not turn it into a RecordFormatError.

`dumpsWithin` is `dumps` with the number of calls that are still allowed.  On a value that is nested
no deeper it does what `dumps` does (`dumpsWithin_of_depth`), and on a deeper one that could
be encoded it raises RecursionError (`dumpsWithin_recursionError`).
-/

import Vestrix.Forensics.Validation

namespace Vestrix
namespace Forensics

open Text Rounding Json Outcome Python Record

/-! ### `json.dumps` in an interpreter -/

/-- The exceptions of `json.dumps` and of the interpreter below it. -/
inductive DumpsInterrupt where
  | raised (cause : DumpsError)
  | recursionError
deriving DecidableEq

/-- The text of a list, with the calls that are still allowed. -/
def dumpsListWithin (values : List (ℕ → Except DumpsInterrupt Str)) (limit : ℕ) :
    Except DumpsInterrupt Str := do
  require (0 < limit) .recursionError
  (Outcome.sequence (values.map fun value => value (limit - 1))).map (arrayText CodePoint.scalar)

/-- The text of a dictionary, its items sorted, with the calls that are still allowed. -/
def dumpsDictWithin (items : List (Str × (ℕ → Except DumpsInterrupt Str))) (limit : ℕ) :
    Except DumpsInterrupt Str := do
  require (0 < limit) .recursionError
  (Outcome.sequence ((sortMembers items).map fun m => (m.2 (limit - 1)).map fun t => (m.1, t))).map
    (objectText CodePoint.scalar quote)

/-- `json.dumps` as in `dumps`, where so many nested calls are still allowed. -/
def dumpsWithin (limit : ℕ) (value : Value) : Except DumpsInterrupt Str :=
  fold (fun a _ => (dumpsAtom a).mapError .raised) dumpsListWithin dumpsDictWithin value limit

/-- The exceptions of `canonical_json_bytes` in an interpreter. -/
inductive Interrupt where
  | exc (cause : Exc)
  | recursionError
deriving DecidableEq

/-- `canonical_json_bytes`, where so many nested calls are still allowed: the first `except` clause is for
TypeError and ValueError. -/
def canonicalJsonBytesWithin (limit : ℕ) (value : Value) : Except Interrupt (List UInt8) :=
  match dumpsWithin limit value with
  | .error .recursionError => .error .recursionError
  | .error (.raised e) => .error (.exc (.recordFormat (.notEncodable e)))
  | .ok serialized => (orError (.recordFormat .notScalarValues) (encodeUtf8 serialized)).mapError .exc

/-! ### One level of it -/

variable {limit : ℕ} {v : Value}

/-- An atom is written without a nested call. -/
theorem dumpsWithin_atom (a : Atom) :
    dumpsWithin limit (.atom a) = (dumpsAtom a).mapError .raised := by
  rw [dumpsWithin, fold_atom]

/-- A list has one call less for its elements. -/
theorem dumpsWithin_array (xs : List Value) : dumpsWithin (limit + 1) (.array xs) =
    (Outcome.sequence (xs.map (dumpsWithin limit))).map (arrayText CodePoint.scalar) := by
  rw [dumpsWithin, fold_array, dumpsListWithin, require_true (Nat.succ_pos limit), ok_bind, List.map_map]
  rfl

/-- A dictionary has one call less for its values. -/
theorem dumpsWithin_object (ms : Dict) : dumpsWithin (limit + 1) (.object ms) =
    (Outcome.sequence ((sortMembers ms).map fun m => (dumpsWithin limit m.2).map fun t => (m.1, t))).map
      (objectText CodePoint.scalar quote) := by
  rw [dumpsWithin, fold_object, dumpsDictWithin, require_true (Nat.succ_pos limit), ok_bind,
    ← map_sortMembers strictMono_id, List.map_map]
  rfl

/-- Without a call that is allowed, no container is written. -/
theorem dumpsWithin_zero (h : 0 < depth v) : dumpsWithin 0 v = .error .recursionError := by
  cases v with
  | atom a => exact absurd h (Nat.lt_irrefl 0)
  | array xs =>
    rw [dumpsWithin, fold_array, dumpsListWithin, require_false (Nat.lt_irrefl 0)]
    rfl
  | object ms =>
    rw [dumpsWithin, fold_object, dumpsDictWithin, require_false (Nat.lt_irrefl 0)]
    rfl

/-! ### Within the limit, and beyond -/

/-- **Within the limit `json.dumps` does what it does without one.** -/
theorem dumpsWithin_of_depth (h : depth v ≤ limit) :
    dumpsWithin limit v = (dumps v).mapError .raised := by
  induction v using ind generalizing limit with
  | atom a => rw [dumpsWithin_atom, dumps, fold_atom]
  | array xs ih =>
    obtain _ | limit := limit
    · rw [depth_array] at h
      exact absurd h (Nat.not_succ_le_zero _)
    · have hxs := depth_array_le.1 h
      rw [dumpsWithin_array, List.map_congr_left fun x hx => ih x hx (hxs x hx), dumps, fold_array, ← dumps,
        dumpsList, ← map_mapError, ← sequence_mapError, List.map_map]
      rfl
  | object ms ih =>
    obtain _ | limit := limit
    · rw [depth_object] at h
      exact absurd h (Nat.not_succ_le_zero _)
    · have hms := depth_object_le.1 h
      have hitem : ∀ m ∈ sortMembers ms, ((dumpsWithin limit m.2).map fun t => (m.1, t)) =
          ((dumps m.2).map fun t => (m.1, t)).mapError .raised := by
        intro m hm
        rw [ih m (mem_sortMembers.1 hm) (hms m (mem_sortMembers.1 hm)), map_mapError]
      rw [dumpsWithin_object, List.map_congr_left hitem, dumps, fold_object, ← dumps, dumpsDict,
        ← map_mapError, ← sequence_mapError, List.map_map, ← map_sortMembers strictMono_id, List.map_map]
      rfl

/-- **Beyond the limit** a value that could be encoded ends in RecursionError. -/
theorem dumpsWithin_recursionError (hv : Encodable v) (h : limit < depth v) :
    dumpsWithin limit v = .error .recursionError := by
  induction v using ind generalizing limit with
  | atom a => exact absurd h (Nat.not_lt_zero _)
  | array xs ih =>
    obtain _ | limit := limit
    · exact dumpsWithin_zero h
    · have hxs := forall_array.1 hv
      -- an element that is nested too deeply, and none with another error
      have hdeep : ¬ ∀ x ∈ xs, depth x ≤ limit := fun hle => absurd (depth_array_le.2 hle) (Nat.not_le_of_lt h)
      push Not at hdeep
      obtain ⟨x, hx, hlimit⟩ := hdeep
      have hends : ∀ x ∈ xs, (∃ t, dumpsWithin limit x = .ok t) ∨
          dumpsWithin limit x = .error .recursionError := by
        intro x hx
        rcases Nat.lt_or_ge limit (depth x) with hlimit | hlimit
        · exact Or.inr (ih x hx (hxs x hx) hlimit)
        · rw [dumpsWithin_of_depth hlimit, dumps_eq_ok.2 ⟨hxs x hx, rfl⟩]
          exact Or.inl ⟨_, rfl⟩
      rw [dumpsWithin_array, sequence_eq_error
        (List.mem_map.2 ⟨x, hx, ih x hx (hxs x hx) hlimit⟩) (List.forall_mem_map.2 hends)]
      rfl
  | object ms ih =>
    obtain _ | limit := limit
    · exact dumpsWithin_zero h
    · obtain ⟨-, hms⟩ := forall_object.1 hv
      have hdeep : ¬ ∀ m ∈ ms, depth m.2 ≤ limit := fun hle =>
        absurd (depth_object_le.2 hle) (Nat.not_le_of_lt h)
      push Not at hdeep
      obtain ⟨m, hm, hlimit⟩ := hdeep
      have hfails : ∀ {m}, m ∈ ms → limit < depth m.2 →
          ((dumpsWithin limit m.2).map fun t => (m.1, t)) = .error .recursionError := by
        intro m hm hlimit
        rw [ih m hm (hms m hm) hlimit]
        rfl
      have hends : ∀ m ∈ sortMembers ms, (∃ t, ((dumpsWithin limit m.2).map fun t => (m.1, t)) = .ok t) ∨
          ((dumpsWithin limit m.2).map fun t => (m.1, t)) = .error .recursionError := by
        intro m hm
        have hmem := mem_sortMembers.1 hm
        rcases Nat.lt_or_ge limit (depth m.2) with hlimit | hlimit
        · exact Or.inr (hfails hmem hlimit)
        · rw [dumpsWithin_of_depth hlimit, dumps_eq_ok.2 ⟨hms m hmem, rfl⟩]
          exact Or.inl ⟨_, rfl⟩
      rw [dumpsWithin_object, sequence_eq_error
        (List.mem_map.2 ⟨m, mem_sortMembers.2 hm, hfails hm hlimit⟩) (List.forall_mem_map.2 hends)]
      rfl

/-! ### Canonical bytes -/

/-- Within the limit `canonical_json_bytes` does what it does without one. -/
theorem canonicalJsonBytesWithin_of_depth (h : depth v ≤ limit) :
    canonicalJsonBytesWithin limit v = (canonicalJsonBytes v).mapError .exc := by
  rw [canonicalJsonBytesWithin, canonicalJsonBytes, dumpsWithin_of_depth h]
  cases dumps v with
  | error e => rfl
  | ok t => rfl

/-- **`canonical_json_bytes` beyond the limit** raises RecursionError, which its `except` clauses miss. -/
theorem canonicalJsonBytesWithin_recursionError (hv : Encodable v) (h : limit < depth v) :
    canonicalJsonBytesWithin limit v = .error .recursionError := by
  rw [canonicalJsonBytesWithin, dumpsWithin_recursionError hv h]

end Forensics
end Vestrix
