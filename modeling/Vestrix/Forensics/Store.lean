/-
# Reading the store

`_store.py` and `chain_check.py`: `iter_validated_records` walks the physical lines of the
store and yields each record that is canonical, numbered and linked; `chain_tip` and
`verify_chain` are loops over what it yields.

One step of the walk is `checkLine`, and `checkLine_eq_ok` says when it succeeds.  A walk
over several lines is `Reads`, from what is expected of the first to what would be
expected of a next one.
-/

import Vestrix.Forensics.Validation
import Vestrix.Text.Lines

namespace Vestrix
namespace Forensics

open Text Rounding Json Outcome Python Record

/-- A file: its bytes, or none where there is no file. -/
abbrev Store := Option (List UInt8)

/-- What `iter_validated_records` expects of the next record. -/
structure Expected where
  seq : ℕ
  prevHash : Str
  formatVersion : Option ℕ
deriving DecidableEq

/-- What is expected of the first record. -/
def Expected.first : Expected := ⟨0, genesisPrevHash, none⟩

/-- What `iter_validated_records` yields. -/
structure Entry where
  lineNumber : ℕ
  record : Dict
  signedBytes : List UInt8

/-- `record[key]` where it is known to be an integer. -/
def fetchInt (d : Dict) (key : Str) : Except Exc ℤ :=
  match d.get? key with
  | some (.atom (.int n)) => .ok n
  | _ => .error (.keyError key)

/-- `record[key]` where it is known to be a string. -/
def fetchStr (d : Dict) (key : Str) : Except Exc Str :=
  match d.get? key with
  | some (.atom (.str s)) => .ok s
  | _ => .error (.keyError key)

/-- How the walk reports an error in a record. -/
def invalidRecord (lineNumber : ℕ) : Exc → Exc
  | .recordFormat e => .storeError lineNumber (.invalidRecord (.format e))
  | e => e

/-- The record on a line: `json.loads` and `validate_stored_record`, with the errors of both
that the source catches. -/
def parseRecord (lineNumber : ℕ) (line : List UInt8) : Except Exc Dict :=
  match loads line with
  | .error .jsonDecode => .error (.storeError lineNumber (.invalidRecord .json))
  | .error .unicodeDecode => .error (.storeError lineNumber (.invalidRecord .unicode))
  | .error .intDigits => .error .valueError
  | .ok parsed => (validateStoredRecord parsed).mapError (invalidRecord lineNumber)

section

variable (sha256 : Sha256)

/-- The body of the loop of `iter_validated_records`. -/
def checkLine (lineNumber : ℕ) (expected : Expected) (physicalLine : List UInt8) :
    Except Exc (Entry × Expected) := do
  require (physicalLine.getLast? = some lineFeed) (.storeError lineNumber .notTerminated)
  let line := physicalLine.dropLast
  require (line ≠ []) (.storeError lineNumber .blankLine)
  let record ← parseRecord lineNumber line
  let formatVersion := recordFormatVersion record
  require (∀ v ∈ expected.formatVersion, v = formatVersion) (.storeError lineNumber .mixesVersions)
  let canonical ← canonicalJsonBytes (.object record)
  require (canonical = line) (.storeError lineNumber .notCanonical)
  let seq ← fetchInt record (lit "seq")
  require (seq = expected.seq) (.storeError lineNumber (.seq expected.seq seq))
  let prevHash ← fetchStr record (lit "prev_hash")
  require (prevHash = expected.prevHash) (.storeError lineNumber .prevHash)
  let (signedBytes, expectedRecordHash) ← hashUnsignedRecord sha256 record
  let recordHash ← fetchStr record (lit "record_hash")
  require (recordHash = expectedRecordHash) (.storeError lineNumber .recordHash)
  return (⟨lineNumber, record, signedBytes⟩, ⟨expected.seq + 1, recordHash, some formatVersion⟩)

/-- `iter_validated_records` from a line on. -/
def iterFrom : ℕ → Expected → List (List UInt8) → Generator Exc Entry
  | _, _, [] => .done
  | lineNumber, expected, physicalLine :: lines =>
    match checkLine sha256 lineNumber expected physicalLine with
    | .error e => .raise e
    | .ok (entry, expected) => .yield entry (iterFrom (lineNumber + 1) expected lines)

/-- `iter_validated_records`. -/
def iterValidatedRecords (store : Store) : Generator Exc Entry :=
  match store with
  | none => .done
  | some bytes => iterFrom sha256 1 .first (physicalLines bytes)

/-- The body of the loop of `chain_tip`. -/
def tipStep (requiredFormatVersion : Option ℕ) (_ : ℤ × Str) (entry : Entry) : Except Exc (ℤ × Str) := do
  require (∀ v ∈ requiredFormatVersion, recordFormatVersion entry.record = v)
    (.storeError entry.lineNumber .otherVersion)
  let seq ← fetchInt entry.record (lit "seq")
  let recordHash ← fetchStr entry.record (lit "record_hash")
  return (seq + 1, recordHash)

/-- `chain_tip`. -/
def chainTip (store : Store) (requiredFormatVersion : Option ℕ) : Except Exc (ℤ × Str) :=
  (iterValidatedRecords sha256 store).forEach (tipStep requiredFormatVersion) (0, genesisPrevHash)

/-- `VerificationResult`. -/
structure VerificationResult where
  recordsVerified : ℕ
  tipHash : Option Str
deriving DecidableEq

/-- The body of the loop of `verify_chain`; `verify` is `public_key.verify` on a signature
and a message. -/
def verifyStep (verify : List UInt8 → List UInt8 → Bool) (result : VerificationResult) (entry : Entry) :
    Except Exc VerificationResult := do
  let signature ← fetchStr entry.record (lit "signature")
  let bytes ← orError .valueError ((scalars? signature).bind fromHex)
  require (verify bytes entry.signedBytes = true) (.chainVerification entry.lineNumber .signature)
  let recordHash ← fetchStr entry.record (lit "record_hash")
  return ⟨result.recordsVerified + 1, some recordHash⟩

/-- `verify_chain`, with the lock held. -/
def verifyChain (verify : List UInt8 → List UInt8 → Bool) (store : Store) :
    Except Exc VerificationResult :=
  match store with
  | none => .error .fileNotFound
  | some bytes =>
    match (iterValidatedRecords sha256 (some bytes)).forEach (verifyStep verify) ⟨0, none⟩ with
    | .error (.storeError lineNumber reason) => .error (.chainVerification lineNumber (.store reason))
    | .error e => .error e
    | .ok result => .ok result

end

/-! ### One line -/

/-- A record as `iter_validated_records` accepts it: of a known kind, with the given place in
the chain, and with the digest of its other fields. -/
structure Valid (sha256 : Sha256) (record : Dict) (seq : ℕ) (prevHash recordHash : Str)
    (signedBytes : List UInt8) : Prop where
  conforms : ∃ shape : Shape, Conforms shape.recordFields record
  seq_eq : record.get? (lit "seq") = some (.atom (.int seq))
  prevHash_eq : record.get? (lit "prev_hash") = some (.atom (.str prevHash))
  recordHash_eq : record.get? (lit "record_hash") = some (.atom (.str recordHash))
  hash_eq : hashUnsignedRecord sha256 record = .ok (signedBytes, recordHash)

/-- The canonical line of a record. -/
structure IsLine (record : Dict) (line : List UInt8) : Prop where
  loads : loads line = .ok (.object record)
  canonical : canonicalJsonBytes (.object record) = .ok line

/-- A number is fetched from a field that has one. -/
theorem fetchInt_eq_ok {d : Dict} {key : Str} {n : ℤ} :
    fetchInt d key = .ok n ↔ d.get? key = some (.atom (.int n)) := by
  unfold fetchInt
  split
  · rename_i m hm
    rw [hm, Except.ok.injEq, Option.some.injEq, Json.atom.injEq, Atom.int.injEq]
  · rename_i hne
    exact ⟨fun h => (nomatch h), fun h => absurd h (hne n)⟩

/-- A string is fetched from a field that has one. -/
theorem fetchStr_eq_ok {d : Dict} {key : Str} {s : Str} :
    fetchStr d key = .ok s ↔ d.get? key = some (.atom (.str s)) := by
  unfold fetchStr
  split
  · rename_i t ht
    rw [ht, Except.ok.injEq, Option.some.injEq, Json.atom.injEq, Atom.str.injEq]
  · rename_i hne
    exact ⟨fun h => (nomatch h), fun h => absurd h (hne s)⟩

/-- A line is parsed to the object that it holds, if this has the fields of a record. -/
theorem parseRecord_eq_ok {n : ℕ} {line : List UInt8} {record : Dict} :
    parseRecord n line = .ok record ↔
      loads line = .ok (.object record) ∧ ∃ shape : Shape, Conforms shape.recordFields record := by
  have hvalidate : ∀ parsed, validateStoredRecord parsed = .ok record ↔
      parsed = .object record ∧ ∃ shape : Shape, Conforms shape.recordFields record := by
    intro parsed
    cases parsed with
    | atom a => exact ⟨fun h => (nomatch h), fun h => (nomatch h.1)⟩
    | array xs => exact ⟨fun h => (nomatch h), fun h => (nomatch h.1)⟩
    | object d =>
      rw [validateStoredRecord_eq_ok, Json.object.injEq]
      constructor
      · rintro ⟨rfl, h⟩
        exact ⟨rfl, h⟩
      · rintro ⟨rfl, h⟩
        exact ⟨rfl, h⟩
  unfold parseRecord
  cases hloads : loads line with
  | error e =>
    refine ⟨fun h => ?_, fun h => (nomatch h.1)⟩
    cases e <;> cases h
  | ok parsed => rw [Except.ok.injEq, ← hvalidate parsed, mapError_eq_ok]

/-- The line of a record is not empty. -/
theorem IsLine.ne_nil {record : Dict} {line : List UInt8} (h : IsLine record line) : line ≠ [] := by
  rintro rfl
  cases h.loads

variable {sha256 : Sha256} {n : ℕ} {x x' : Expected}

/-- **A line is accepted just if it is the canonical line of a valid record** with the number, the
digest and the version that are expected. -/
theorem checkLine_eq_ok {physicalLine : List UInt8} {entry : Entry} :
    checkLine sha256 n x physicalLine = .ok (entry, x') ↔ ∃ record line signedBytes recordHash,
      physicalLine = line ++ [lineFeed] ∧ IsLine record line ∧
      Valid sha256 record x.seq x.prevHash recordHash signedBytes ∧
      (∀ v ∈ x.formatVersion, v = recordFormatVersion record) ∧
      entry = ⟨n, record, signedBytes⟩ ∧
      x' = ⟨x.seq + 1, recordHash, some (recordFormatVersion record)⟩ := by
  constructor
  · intro h
    simp only [checkLine, bind_eq_ok, require_eq_ok, parseRecord_eq_ok, fetchInt_eq_ok, fetchStr_eq_ok,
      exists_and_left, exists_const, Prod.exists] at h
    obtain ⟨hlast, -, record, ⟨hloads, hshape⟩, hversion, line, hcanonical, rfl, seq, hseq, rfl, prevHash,
      hprev, rfl, signedBytes, expectedHash, hhash, recordHash, hrecordHash, rfl, hresult⟩ := h
    obtain ⟨rfl, rfl⟩ := Prod.mk.inj (Except.ok.inj hresult)
    exact ⟨record, _, signedBytes, recordHash, (List.dropLast_append_getLast? _ hlast).symm,
      ⟨hloads, hcanonical⟩, ⟨hshape, hseq, hprev, hrecordHash, hhash⟩, hversion, rfl, rfl⟩
  · rintro ⟨record, line, signedBytes, recordHash, rfl, hline, hvalid, hversion, rfl, rfl⟩
    simp only [checkLine, bind_eq_ok, require_eq_ok, parseRecord_eq_ok, fetchInt_eq_ok, fetchStr_eq_ok,
      exists_and_left, exists_const, Prod.exists, List.dropLast_concat, List.getLast?_concat]
    exact ⟨trivial, hline.ne_nil, record, ⟨hline.loads, hvalid.conforms⟩, hversion, line, hline.canonical, rfl,
      _, hvalid.seq_eq, rfl, _, hvalid.prevHash_eq, rfl, signedBytes, _, hvalid.hash_eq, recordHash,
      hvalid.recordHash_eq, rfl, rfl⟩

/-! ### The whole store -/

/-- Reading some lines succeeds, yields the entries and leaves an expectation. -/
inductive Reads (sha256 : Sha256) : ℕ → Expected → List (List UInt8) → List Entry → Expected → Prop
  | nil {n : ℕ} {x : Expected} : Reads sha256 n x [] [] x
  | cons {n : ℕ} {x x' x'' : Expected} {line : List UInt8} {lines : List (List UInt8)} {entry : Entry}
      {entries : List Entry} (head : checkLine sha256 n x line = .ok (entry, x'))
      (tail : Reads sha256 (n + 1) x' lines entries x'') :
      Reads sha256 n x (line :: lines) (entry :: entries) x''

/-- Lines are read one part after the other. -/
theorem Reads.append {lines lines' : List (List UInt8)} {entries entries' : List Entry} {y z : Expected}
    (h : Reads sha256 n x lines entries y) (h' : Reads sha256 (n + lines.length) y lines' entries' z) :
    Reads sha256 n x (lines ++ lines') (entries ++ entries') z := by
  induction h with
  | nil => exact h'
  | cons head tail ih =>
    rw [List.length_cons, ← Nat.add_assoc, Nat.add_right_comm] at h'
    exact .cons head (ih h')

/-- All records are yielded just if all lines can be read. -/
theorem iterFrom_toList {lines : List (List UInt8)} {entries : List Entry} :
    (iterFrom sha256 n x lines).toList = .ok entries ↔ ∃ y, Reads sha256 n x lines entries y := by
  induction lines generalizing n x entries with
  | nil =>
    constructor
    · intro h
      obtain rfl := Except.ok.inj h
      exact ⟨x, .nil⟩
    · rintro ⟨y, h⟩
      cases h
      rfl
  | cons line lines ih =>
    rw [iterFrom]
    cases hline : checkLine sha256 n x line with
    | error e =>
      refine ⟨fun h => (nomatch h), ?_⟩
      rintro ⟨y, h⟩
      cases h with
      | cons head tail => rw [hline] at head; cases head
    | ok r =>
      obtain ⟨entry, x'⟩ := r
      simp only [Generator.toList, map_eq_ok, ih]
      constructor
      · rintro ⟨es, ⟨y, h⟩, rfl⟩
        exact ⟨y, .cons hline h⟩
      · rintro ⟨y, h⟩
        cases h with
        | cons head tail =>
          rw [hline, Except.ok.injEq, Prod.mk.injEq] at head
          obtain ⟨rfl, rfl⟩ := head
          exact ⟨_, ⟨y, tail⟩, rfl⟩

/-- The lines of a store. -/
def Store.lines (store : Store) : List (List UInt8) := physicalLines (store.getD [])

/-- The records are those of the lines of the store, from the first on. -/
theorem iterValidatedRecords_eq (store : Store) :
    iterValidatedRecords sha256 store = iterFrom sha256 1 .first store.lines := by
  cases store with
  | none => rfl
  | some bytes => rfl

/-- **A whole walk yields the records of all lines, if each can be read.** -/
theorem iterValidatedRecords_toList {store : Store} {entries : List Entry} :
    (iterValidatedRecords sha256 store).toList = .ok entries ↔
      ∃ y, Reads sha256 1 .first store.lines entries y := by
  rw [iterValidatedRecords_eq]
  exact iterFrom_toList

/-! ### What a walk knows at its end -/

section

variable {y : Expected} {lines : List (List UInt8)} {entries : List Entry}

/-- Each line that is read raises the number by one. -/
theorem Reads.seq_eq (h : Reads sha256 n x lines entries y) : y.seq = x.seq + lines.length := by
  induction h with
  | nil => rfl
  | cons head tail ih =>
    obtain ⟨_, _, _, _, -, -, -, -, -, rfl⟩ := checkLine_eq_ok.1 head
    rw [ih, List.length_cons, Nat.add_assoc, Nat.add_comm 1]

/-- Lines are read in one way only. -/
theorem Reads.unique {y' : Expected} {entries' : List Entry} (h : Reads sha256 n x lines entries y)
    (h' : Reads sha256 n x lines entries' y') : entries = entries' ∧ y = y' := by
  induction h generalizing entries' with
  | nil =>
    cases h'
    exact ⟨rfl, rfl⟩
  | cons head tail ih =>
    cases h' with
    | cons head' tail' =>
      obtain ⟨rfl, rfl⟩ := Prod.mk.inj (Except.ok.inj (head.symm.trans head'))
      obtain ⟨rfl, rfl⟩ := ih tail'
      exact ⟨rfl, rfl⟩

/-- There is one record for each line. -/
theorem Reads.length_eq (h : Reads sha256 n x lines entries y) : entries.length = lines.length := by
  induction h with
  | nil => rfl
  | cons _ _ ih => rw [List.length_cons, List.length_cons, ih]

/-- Every line that is read ends with a line feed. -/
theorem Reads.terminated (h : Reads sha256 n x lines entries y) :
    ∀ l ∈ lines, l.getLast? = some lineFeed := by
  induction h with
  | nil => exact fun l hl => absurd hl List.not_mem_nil
  | cons head tail ih =>
    obtain ⟨_, _, _, _, rfl, -⟩ := checkLine_eq_ok.1 head
    exact List.forall_mem_cons.2 ⟨List.getLast?_concat, ih⟩

/-- The digest that is expected next is 64 hexadecimal digits, if the first one is. -/
theorem Reads.holds_prevHash (h : Reads sha256 n x lines entries y)
    (hx : Holds (.hex 64) (.atom (.str x.prevHash))) : Holds (.hex 64) (.atom (.str y.prevHash)) := by
  induction h with
  | nil => exact hx
  | cons head tail ih =>
    obtain ⟨_, _, _, _, -, -, hvalid, -, -, rfl⟩ := checkLine_eq_ok.1 head
    obtain ⟨shape, hshape⟩ := hvalid.conforms
    have hfield : ("record_hash".toList, Kind.hex 64) ∈ shape.recordFields := by
      cases shape <;> decide
    obtain ⟨v, hv, hhex⟩ := hshape.field hfield
    obtain rfl := Option.some.inj (hv.symm.trans hvalid.recordHash_eq)
    exact ih hhex

/-- All records have the version that is expected of a next one. -/
theorem Reads.version (h : Reads sha256 n x lines entries y) :
    (∀ v ∈ x.formatVersion, y.formatVersion = some v) ∧
      ∀ e ∈ entries, y.formatVersion = some (recordFormatVersion e.record) := by
  induction h with
  | nil => exact ⟨fun v hv => hv, fun e he => absurd he List.not_mem_nil⟩
  | cons head tail ih =>
    obtain ⟨record, _, _, _, -, -, -, hversion, rfl, rfl⟩ := checkLine_eq_ok.1 head
    have hnext := ih.1 _ rfl
    refine ⟨fun v hv => ?_, List.forall_mem_cons.2 ⟨hnext, ih.2⟩⟩
    rw [hversion v hv, hnext]

/-- What `chain_tip` carries along is what the walk expects. -/
theorem Reads.foldlM_tipStep (h : Reads sha256 n x lines entries y) {required : Option ℕ}
    {tip : ℤ × Str} :
    entries.foldlM (tipStep required) ((x.seq : ℤ), x.prevHash) = .ok tip ↔
      tip = ((y.seq : ℤ), y.prevHash) ∧
        ∀ e ∈ entries, ∀ v ∈ required, recordFormatVersion e.record = v := by
  induction h with
  | nil =>
    rw [List.foldlM_nil]
    exact ⟨fun h => ⟨(Except.ok.inj h).symm, fun e he => absurd he List.not_mem_nil⟩,
      fun h => congrArg Except.ok h.1.symm⟩
  | cons head tail ih =>
    obtain ⟨record, _, _, recordHash, -, -, hvalid, -, rfl, rfl⟩ := checkLine_eq_ok.1 head
    rw [List.foldlM_cons, bind_eq_ok, List.forall_mem_cons]
    simp only [tipStep, bind_eq_ok, require_eq_ok, fetchInt_eq_ok, fetchStr_eq_ok, exists_and_left,
      exists_const]
    have hseq := hvalid.seq_eq
    have hhash := hvalid.recordHash_eq
    push_cast at ih
    constructor
    · rintro ⟨_, ⟨hversion, seq, hseq', hash, hhash', hnext⟩, hrest⟩
      obtain rfl := Atom.int.inj (Json.atom.inj (Option.some.inj (hseq'.symm.trans hseq)))
      obtain rfl := Atom.str.inj (Json.atom.inj (Option.some.inj (hhash'.symm.trans hhash)))
      obtain rfl := (Except.ok.inj hnext).symm
      obtain ⟨htip, hall⟩ := ih.1 hrest
      exact ⟨htip, hversion, hall⟩
    · rintro ⟨htip, hversion, hall⟩
      exact ⟨_, ⟨hversion, _, hseq, _, hhash, rfl⟩, ih.2 ⟨htip, hall⟩⟩

end

/-- **What `chain_tip` returns** is the place of a next record, if the chain has the version
that it asks for. -/
theorem chainTip_eq_ok {store : Store} {required : Option ℕ} {tip : ℤ × Str} :
    chainTip sha256 store required = .ok tip ↔ ∃ entries y,
      Reads sha256 1 .first store.lines entries y ∧ tip = ((y.seq : ℤ), y.prevHash) ∧
        ∀ v ∈ required, ∀ w ∈ y.formatVersion, w = v := by
  rw [chainTip, Generator.forEach_eq_ok]
  simp only [iterValidatedRecords_toList]
  have hversions : ∀ {entries y}, Reads sha256 1 .first store.lines entries y →
      ((∀ e ∈ entries, ∀ v ∈ required, recordFormatVersion e.record = v) ↔
        ∀ v ∈ required, ∀ w ∈ y.formatVersion, w = v) := by
    intro entries y h
    constructor
    · intro hall v hv w hw
      rcases entries with _ | ⟨e, entries⟩
      · generalize store.lines = lines at h
        cases h
        cases hw
      · have hsome := h.version.2 e List.mem_cons_self
        rw [Option.mem_def.1 hw, Option.some.injEq] at hsome
        rw [hsome]
        exact hall e List.mem_cons_self v hv
    · exact fun hall e he v hv => hall v hv _ (h.version.2 e he)
  constructor
  · rintro ⟨entries, ⟨y, h⟩, hfold⟩
    obtain ⟨htip, hall⟩ := h.foldlM_tipStep.1 hfold
    exact ⟨entries, y, h, htip, (hversions h).1 hall⟩
  · rintro ⟨entries, y, h, htip, hall⟩
    exact ⟨entries, ⟨y, h⟩, h.foldlM_tipStep.2 ⟨htip, (hversions h).2 hall⟩⟩

end Forensics
end Vestrix
