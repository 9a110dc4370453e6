/-
# One tip

A tip is read in three ways: `verify_reader` carries it along while it reads the file from its
start, `read_tip_without_authentication` looks for the last line from the end, and `chain_tip`
walks over the store and keeps what comes next.  On a file that is accepted they name the
same record (`tips_agree`).
-/

import Vestrix.Forensics.History
import Vestrix.Verifier.Anchor
import Vestrix.Verifier.Faults

namespace Vestrix
namespace Interop

open Text Rounding Json Outcome Python Record

variable {sha256 : Sha256}

/-- **The last line from the end** is the tip that the verifier carries along, and its hash is one
of 32 bytes. -/
theorem readTip_of_verifyReader {verifyStrict : List UInt8 → List UInt8 → Bool}
    {readFloat : Verifier.FloatReader} {file : List UInt8} {report : Verifier.VerificationReport}
    (h : Verifier.verifyReader sha256 verifyStrict readFloat file = .ok report) (hne : 1 ≤ report.records) :
    ∃ tip digest, report.tip = some tip ∧
      Verifier.readTipWithoutAuthentication readFloat file = .ok tip ∧
      Verifier.decodeHexArray 32 "record_hash".toList tip.recordHash = .ok digest := by
  have hfile : file ≠ [] := by
    rintro rfl
    rw [Verifier.verifyReader_records h] at hne
    cases hne
  obtain ⟨object, line, version, prevHash, recordHash, recordBytes, hlast, hline, hvalid, htip⟩ :=
    Verifier.verifyReader_tip h hfile
  refine ⟨_, sha256.digest recordBytes, htip, Verifier.readTip_eq_ok.2 ⟨object, line, hlast, hline,
    Verifier.asU64_of_integerField hvalid.seq_eq, hvalid.recordHash_eq⟩, ?_⟩
  rw [Verifier.decodeHexArray_eq_ok, ← hvalid.hash_eq]
  exact ⟨sha256.isHex_hexdigest recordBytes, fromHex_hex _⟩

/-- **What `chain_tip` returns** follows the last record that the walk yields, and `snapshot_tip`
anchors that record. -/
theorem chainTip_of_walk {bytes : List UInt8} {entries : List Forensics.Entry} (hne : bytes ≠ [])
    (h : (Forensics.iterValidatedRecords sha256 (some bytes)).toList = .ok entries) :
    ∃ last seq recordHash, entries.getLast? = some last ∧
      Forensics.fetchInt last.record (lit "seq") = .ok seq ∧
      Forensics.fetchStr last.record (lit "record_hash") = .ok recordHash ∧
      Forensics.chainTip sha256 (some bytes) none = .ok (seq + 1, recordHash) ∧
      Forensics.snapshotTip sha256 (some bytes) = .ok (seq, recordHash) := by
  obtain ⟨y, hreads⟩ := Forensics.iterValidatedRecords_toList.1 h
  obtain ⟨last, -, seq, prevHash, hlast, -, -, hvalid, hseq⟩ := hreads.last (physicalLines_ne_nil hne)
  have htip : Forensics.chainTip sha256 (some bytes) none = .ok ((seq : ℤ) + 1, y.prevHash) := by
    refine Forensics.chainTip_eq_ok.2 ⟨entries, y, hreads, ?_, fun v hv => by cases hv⟩
    rw [hseq, Nat.cast_add, Nat.cast_one]
  refine ⟨last, seq, y.prevHash, hlast, Forensics.fetchInt_eq_ok.2 hvalid.seq_eq,
    Forensics.fetchStr_eq_ok.2 hvalid.recordHash_eq, htip, ?_⟩
  have hpositive : (seq : ℤ) + 1 ≠ 0 := by omega
  rw [Forensics.snapshotTip, htip, ok_bind]
  dsimp only
  rw [require_true hpositive, ok_bind, add_sub_cancel_right]
  rfl

/-- **All readers of a tip agree.** -/
theorem tips_agree (sha256 : Sha256) (verifyStrict : List UInt8 → List UInt8 → Bool)
    (readFloat : Verifier.FloatReader) :
    (∀ file report, Verifier.verifyReader sha256 verifyStrict readFloat file = .ok report →
      1 ≤ report.records → ∃ tip digest, report.tip = some tip ∧
        Verifier.readTipWithoutAuthentication readFloat file = .ok tip ∧
        Verifier.decodeHexArray 32 "record_hash".toList tip.recordHash = .ok digest) ∧
    ∀ bytes entries, bytes ≠ [] →
      (Forensics.iterValidatedRecords sha256 (some bytes)).toList = .ok entries →
      ∃ last seq recordHash, entries.getLast? = some last ∧
        Forensics.fetchInt last.record (lit "seq") = .ok seq ∧
        Forensics.fetchStr last.record (lit "record_hash") = .ok recordHash ∧
        Forensics.chainTip sha256 (some bytes) none = .ok (seq + 1, recordHash) ∧
        Forensics.snapshotTip sha256 (some bytes) = .ok (seq, recordHash) :=
  ⟨fun _ _ h hne => readTip_of_verifyReader h hne, fun _ _ hne h => chainTip_of_walk hne h⟩

end Interop
end Vestrix
