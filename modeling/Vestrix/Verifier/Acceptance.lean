/-
# What the verifier accepts

One line that `verify_reader` accepts is the canonical line of an object that conforms to
the schema, names its place in the chain, and carries the digest and a signature of its
other fields (`verifyLine_eq_ok`).  A whole file is accepted line by line, and the report
is about its last line (`verifyReader_eq_ok`).
-/

import Vestrix.Verifier.Schema

namespace Vestrix
namespace Verifier

open Text Rounding Json Outcome Record

/-- The canonical line of an object. -/
structure IsLine (readFloat : FloatReader) (object : Object) (line : List UInt8) : Prop where
  parse : ∃ stored, fromUtf8 line = some stored ∧ parse readFloat stored = .ok (.object object)
  serialize : serialize (.object object) = .ok line

/-- An object with the given place in the chain, the digest of its other fields and a
signature of them. -/
structure Valid (sha256 : Sha256) (verifyStrict : List UInt8 → List UInt8 → Bool) (object : Object)
    (version seq : ℕ) (prevHash recordHash : List Char) (recordBytes : List UInt8) : Prop where
  schema : validateSchema object = .ok version
  seq_eq : integerField object "seq".toList = .ok seq
  prevHash_eq : stringField object "prev_hash".toList = .ok prevHash
  recordHash_eq : stringField object "record_hash".toList = .ok recordHash
  recordBytes_eq : Verifier.serialize (.object (unsignedOf object)) = .ok recordBytes
  hash_eq : sha256.hexdigest recordBytes = recordHash
  signature : ∃ signatureHex signature, stringField object "signature".toList = .ok signatureHex ∧
    fromHex signatureHex = some signature ∧ verifyStrict signature recordBytes = true

variable {sha256 : Sha256} {verifyStrict : List UInt8 → List UInt8 → Bool} {readFloat : FloatReader}
  {object : Object} {p q : Progress}

/-- The line of an object is not empty. -/
theorem IsLine.ne_nil {line : List UInt8} (h : IsLine readFloat object line) : line ≠ [] := by
  rintro rfl
  obtain ⟨stored, hstored, hparse⟩ := h.parse
  obtain rfl := Option.some.inj hstored
  cases hparse

/-- A value is read as an object just if it is one. -/
theorem asObject_eq_some {v : Value} : asObject v = some object ↔ v = .object object := by
  cases v with
  | object ms => rw [asObject, Option.some.injEq, Json.object.injEq]
  | atom a => exact ⟨fun h => (nomatch h), fun h => (nomatch h)⟩
  | array xs => exact ⟨fun h => (nomatch h), fun h => (nomatch h)⟩

/-- A value is read as a string just if it is one. -/
theorem asStr_eq_some {v : Value} {t : List Char} : asStr v = some t ↔ v = .atom (.string t) := by
  refine ⟨fun h => ?_, fun h => h ▸ rfl⟩
  rw [asStr.eq_def] at h
  split at h
  · rw [Option.some.inj h]
  · cases h

/-- The signature of an object that conforms to the schema has 128 hexadecimal digits. -/
theorem validateLowerHex_signature {version : ℕ} {signatureHex : List Char}
    (h : validateSchema object = .ok version)
    (hsignature : stringField object "signature".toList = .ok signatureHex) :
    validateLowerHex "signature".toList signatureHex 128 = .ok () := by
  obtain ⟨shape, hshape, -⟩ := validateSchema_eq_ok.1 h
  have hfield : ("signature".toList, Kind.hex 128) ∈ shape.recordFields := by
    cases shape <;> decide
  obtain ⟨v, hv, s, hs, hhex⟩ := hshape.field hfield
  obtain ⟨v', hv', hs'⟩ := stringField_eq_ok.1 hsignature
  obtain rfl := Option.some.inj (hv.symm.trans hv')
  obtain rfl := Option.some.inj (hs.symm.trans hs')
  exact validateLowerHex_eq_ok.2 hhex

/-- **A line is accepted just if it is the canonical line of a valid record** with the number, the
digest and the version that are expected. -/
theorem verifyLine_eq_ok {physicalLine : List UInt8} :
    verifyLine sha256 verifyStrict readFloat p physicalLine = .ok q ↔
      ∃ object line version recordHash recordBytes, physicalLine = line ++ [lineFeed] ∧
        IsLine readFloat object line ∧
        Valid sha256 verifyStrict object version p.expectedSeq p.expectedPrev recordHash recordBytes ∧
        (∀ v ∈ p.chainFormatVersion, version = v) ∧ p.expectedSeq + 1 < 2 ^ 64 ∧
        q = ⟨p.expectedSeq + 1, recordHash, some ⟨p.expectedSeq, recordHash⟩, some version⟩ := by
  constructor
  · intro h
    simp only [verifyLine, bind_eq_ok, require_eq_ok, orError_eq_ok, mapError_eq_ok, asObject_eq_some,
      exists_and_left, exists_const] at h
    obtain ⟨hlast, -, stored, hstored, _, hparse, object, rfl, version, hschema, hversion, line, hcanonical,
      rfl, seq, hseq, rfl, prevHash, hprev, rfl, recordHash, hrecordHash, signatureHex, hsignatureHex,
      recordBytes, hrecordBytes, hhash, -, -, signature, hsignature, hverify, hoverflow, hresult⟩ := h
    obtain rfl := Except.ok.inj hresult
    exact ⟨object, _, version, recordHash, recordBytes, (List.dropLast_append_getLast? _ hlast).symm,
      ⟨⟨stored, hstored, hparse⟩, hcanonical⟩, ⟨hschema, hseq, hprev, hrecordHash, hrecordBytes, hhash,
        signatureHex, signature, hsignatureHex, hsignature, hverify⟩, hversion, hoverflow, rfl⟩
  · rintro ⟨object, line, version, recordHash, recordBytes, rfl, hline, hvalid, hversion, hoverflow, rfl⟩
    obtain ⟨stored, hstored, hparse⟩ := hline.parse
    obtain ⟨signatureHex, signature, hsignatureHex, hsignature, hverify⟩ := hvalid.signature
    have hhex := validateLowerHex_signature hvalid.schema hsignatureHex
    simp only [verifyLine, bind_eq_ok, require_eq_ok, orError_eq_ok, mapError_eq_ok, asObject_eq_some,
      exists_and_left, exists_const, List.dropLast_concat, List.getLast?_concat]
    exact ⟨trivial, hline.ne_nil, stored, hstored, _, hparse, object, rfl, version, hvalid.schema, hversion,
      line, hline.serialize, rfl, _, hvalid.seq_eq, rfl, _, hvalid.prevHash_eq, rfl, recordHash,
      hvalid.recordHash_eq, signatureHex, hsignatureHex, recordBytes, hvalid.recordBytes_eq, hvalid.hash_eq,
      (), hhex, signature, hsignature, hverify, hoverflow, rfl⟩

/-- Lines are verified one part after the other. -/
theorem verifyLines_append (ls ms : List (List UInt8)) :
    verifyLines sha256 verifyStrict readFloat p (ls ++ ms) =
      verifyLines sha256 verifyStrict readFloat p ls >>= fun q =>
        verifyLines sha256 verifyStrict readFloat q ms := by
  induction ls generalizing p with
  | nil => rfl
  | cons l ls ih =>
    rw [List.cons_append, verifyLines, verifyLines]
    cases verifyLine sha256 verifyStrict readFloat p l with
    | error e => rfl
    | ok q => exact ih

/-- Verifying one line is verifying this line. -/
theorem verifyLines_singleton {l : List UInt8} :
    verifyLines sha256 verifyStrict readFloat p [l] = .ok q ↔
      verifyLine sha256 verifyStrict readFloat p l = .ok q := by
  rw [verifyLines]
  cases verifyLine sha256 verifyStrict readFloat p l with
  | error e => exact ⟨fun h => (nomatch h), fun h => (nomatch h)⟩
  | ok r =>
    rw [Except.ok.injEq]
    exact ⟨fun h => Except.ok.inj h, fun h => congrArg Except.ok h⟩

/-- **A file is accepted just if all its lines are**, from the first number and digest on. -/
theorem verifyReader_eq_ok {file : List UInt8} {report : VerificationReport} :
    verifyReader sha256 verifyStrict readFloat file = .ok report ↔
      ∃ q, verifyLines sha256 verifyStrict readFloat .start (physicalLines file) = .ok q ∧
        report = ⟨q.expectedSeq, q.tip⟩ := by
  rw [verifyReader, map_eq_ok]
  simp only [eq_comm]

/-- No record that is accepted has a number beyond 63 bits. -/
theorem expectedSeq_le {ls : List (List UInt8)}
    (h : verifyLines sha256 verifyStrict readFloat p ls = .ok q) (hp : p.expectedSeq ≤ 2 ^ 63) :
    q.expectedSeq ≤ 2 ^ 63 := by
  induction ls generalizing p with
  | nil =>
    obtain rfl := Except.ok.inj h
    exact hp
  | cons l ls ih =>
    rw [verifyLines] at h
    cases hl : verifyLine sha256 verifyStrict readFloat p l with
    | error e => rw [hl] at h; cases h
    | ok r =>
      rw [hl] at h
      obtain ⟨_, _, _, _, _, -, -, hvalid, -, -, rfl⟩ := verifyLine_eq_ok.1 hl
      obtain ⟨v, -, hv⟩ := integerField_eq_ok.1 hvalid.seq_eq
      have hlt := asI64_lt hv
      exact ih h (show p.expectedSeq + 1 ≤ 2 ^ 63 by omega)

/-- Every line that is accepted ends with a line feed. -/
theorem terminated_of_verifyLines {ls : List (List UInt8)}
    (h : verifyLines sha256 verifyStrict readFloat p ls = .ok q) :
    ∀ l ∈ ls, l.getLast? = some lineFeed := by
  induction ls generalizing p with
  | nil => exact fun l hl => absurd hl List.not_mem_nil
  | cons l ls ih =>
    rw [verifyLines] at h
    cases hl : verifyLine sha256 verifyStrict readFloat p l with
    | error e => rw [hl] at h; cases h
    | ok r =>
      rw [hl] at h
      obtain ⟨_, _, _, _, _, rfl, -⟩ := verifyLine_eq_ok.1 hl
      exact List.forall_mem_cons.2 ⟨List.getLast?_concat, ih h⟩

end Verifier
end Vestrix
