/-
# Verifying an anchor

`anchor.rs`: the tip of a chain file, the attestations of a detached OpenTimestamps proof, and
the headers of a Bitcoin node.  An error text is a constructor with what the text names;
files are lists of bytes, so that reading them does not fail.

The node is a parameter, and so are SHA-256 and how `serde_json` reads floats.  The verdict is
about the digest that the last line names: a path of the proof leads from it to the Merkle root of the
header at the height that the path ends with (`anchor_verdict`).
-/

import Vestrix.Verifier.Acceptance
import Vestrix.Verifier.Derivation

namespace Vestrix
namespace Verifier

open Text Rounding Json Outcome Record

/-- The texts of `read_tip_without_authentication`. -/
inductive TipReason where
  | empty
  | notTerminated
  | invalidUtf8
  | invalidJson (cause : ParseError)
  | cannotSerialize (cause : CanonicalizeError)
  | notCanonical
  | notObject
  | noSeq
  | noRecordHash
deriving DecidableEq

/-- What an RPC can answer besides a value. -/
inductive RpcFailure where
  | failed
  | malformed
deriving DecidableEq

/-- The texts of `verify_anchor`. -/
inductive AnchorError where
  | tip (cause : TipReason)
  | tipHash (cause : Reason)
  | proof (cause : ProofReason)
  | getBlockCount (cause : RpcFailure)
  | getBlockHash (height : ℕ) (cause : RpcFailure)
  | getBlockHeader (hash : List UInt8) (cause : RpcFailure)
  | aboveTip (height tipHeight : ℕ)
  | headerHash (height : ℕ) (activeHash headerHash : List UInt8)
  | commitment (height : ℕ)
  | confirmations (height confirmations : ℕ)
  | panic
deriving DecidableEq

/-- `AnchorReport`. -/
structure AnchorReport where
  seq : ℕ
  height : ℕ
  blockHash : List UInt8
  confirmations : ℕ
deriving DecidableEq

/-- A block header, with the hash that it has. -/
structure Header where
  blockHash : List UInt8
  merkleRoot : List UInt8
deriving DecidableEq

/-- What a Bitcoin Core node answers.  The two calls for an attestation have outcomes of their own: the
place of the attestation in the proof says which calls they are. -/
structure Node where
  getBlockCount : Except RpcFailure ℕ
  getBlockHash : ℕ → ℕ → Except RpcFailure (List UInt8)
  getBlockHeader : ℕ → List UInt8 → Except RpcFailure Header

/-- An attestation with its place in the proof. -/
abbrev Placed := BitcoinAttestation × ℕ

/-! ### The tip -/

/-- `Value::as_u64`. -/
def asU64 : Value → Option ℕ
  | .atom (.number (.int n _)) => if 0 ≤ n then some n.toNat else none
  | _ => none

/-- `read_tip_without_authentication`. -/
def readTipWithoutAuthentication (readFloat : FloatReader) (bytes : List UInt8) :
    Except TipReason ChainTip := do
  require (bytes ≠ []) .empty
  require (bytes.getLast? = some lineFeed) .notTerminated
  let line := bytes.dropLast.rtakeWhile (· ≠ lineFeed)
  let text ← orError .invalidUtf8 (fromUtf8 line)
  let value ← (parse readFloat text).mapError .invalidJson
  let canonical ← (serialize value).mapError .cannotSerialize
  require (canonical = line) .notCanonical
  let object ← orError .notObject (asObject value)
  let seq ← orError .noSeq ((lookup object "seq".toList).bind asU64)
  let recordHash ← orError .noRecordHash ((lookup object "record_hash".toList).bind asStr)
  return ⟨seq, recordHash⟩

/-- `decode_hex_array`. -/
def decodeHexArray (n : ℕ) (field value : List Char) : Except Reason (List UInt8) := do
  validateLowerHex field value (n * 2)
  orError (.hexDigits field) (fromHex value)

/-! ### The node -/

/-- One round of the loop of `verify_anchor`: it returns an error, or remembers a failure,
or returns a report. -/
def checkAttestation (node : Node) (seq tipHeight : ℕ) :
    Placed → Except AnchorError (Except AnchorError AnchorReport)
  | (a, place) => do
    if tipHeight < a.height then return .error (.aboveTip a.height tipHeight)
    else
      let activeHash ← (node.getBlockHash place a.height).mapError (.getBlockHash a.height)
      let header ← (node.getBlockHeader place activeHash).mapError (.getBlockHeader activeHash)
      -- the sum wraps around where the release profile does not check it
      let confirmations := (tipHeight - a.height + 1) % 2 ^ 64
      return do
        require (header.blockHash = activeHash) (.headerHash a.height activeHash header.blockHash)
        require (header.merkleRoot = a.commitment) (.commitment a.height)
        require (6 ≤ confirmations) (.confirmations a.height confirmations)
        return ⟨seq, a.height, activeHash, confirmations⟩

/-- The loop of `verify_anchor`, with the last failure. -/
def verifyAttestations (node : Node) (seq tipHeight : ℕ) :
    Option AnchorError → List Placed → Except AnchorError AnchorReport
  | lastFailure, [] => .error (lastFailure.getD .panic)
  | _, a :: attestations =>
    match checkAttestation node seq tipHeight a with
    | .error e => .error e
    | .ok (.error failure) => verifyAttestations node seq tipHeight (some failure) attestations
    | .ok (.ok report) => .ok report

/-- `verify_anchor`. -/
def verifyAnchor (sha256 : Sha256) (readFloat : FloatReader) (chain proof : List UInt8) (node : Node) :
    Except AnchorError AnchorReport := do
  let tip ← (readTipWithoutAuthentication readFloat chain).mapError .tip
  let tipBytes ← (decodeHexArray 32 "record_hash".toList tip.recordHash).mapError .tipHash
  let attestations ← (inspectProof sha256 proof tipBytes).mapError .proof
  let tipHeight ← node.getBlockCount.mapError .getBlockCount
  verifyAttestations node tip.seq tipHeight none attestations.zipIdx

variable {sha256 : Sha256} {readFloat : FloatReader} {node : Node}

/-! ### The verdict -/

/-- An attestation that the node confirms: its height is on the active chain, the header there
has the commitment as its Merkle root, and enough blocks follow. -/
structure Confirms (node : Node) (tipHeight : ℕ) (a : Placed) (hash : List UInt8)
    (header : Header) : Prop where
  height : a.1.height ≤ tipHeight
  active : node.getBlockHash a.2 a.1.height = .ok hash
  found : node.getBlockHeader a.2 hash = .ok header
  headerHash : header.blockHash = hash
  commitment : header.merkleRoot = a.1.commitment
  confirmations : 6 ≤ (tipHeight - a.1.height + 1) % 2 ^ 64

/-- A round returns a report exactly about an attestation that the node confirms. -/
theorem checkAttestation_eq_ok {seq tipHeight : ℕ} {a : Placed} {report : AnchorReport} :
    checkAttestation node seq tipHeight a = .ok (.ok report) ↔ ∃ hash header,
      Confirms node tipHeight a hash header ∧
        report = ⟨seq, a.1.height, hash, (tipHeight - a.1.height + 1) % 2 ^ 64⟩ := by
  rw [checkAttestation]
  split_ifs with habove
  · constructor
    · intro h
      cases Except.ok.inj h
    · rintro ⟨_, _, h, -⟩
      exact absurd h.height (Nat.not_le_of_lt habove)
  · simp only [bind_eq_ok, mapError_eq_ok]
    constructor
    · rintro ⟨hash, hactive, header, hheader, h⟩
      obtain ⟨_, hhash, h⟩ := bind_eq_ok.1 (Except.ok.inj h)
      obtain ⟨_, hroot, h⟩ := bind_eq_ok.1 h
      obtain ⟨_, hconfirmations, h⟩ := bind_eq_ok.1 h
      exact ⟨hash, header, ⟨Nat.le_of_not_lt habove, hactive, hheader, require_eq_ok.1 hhash,
        require_eq_ok.1 hroot, require_eq_ok.1 hconfirmations⟩, (Except.ok.inj h).symm⟩
    · rintro ⟨hash, header, h, rfl⟩
      refine ⟨hash, h.active, header, h.found, congrArg Except.ok ?_⟩
      rw [require_true h.headerHash, ok_bind, require_true h.commitment, ok_bind,
        require_true h.confirmations, ok_bind]
      rfl

/-- A report is about an attestation that the node confirms. -/
theorem verifyAttestations_sound {seq tipHeight : ℕ} {last : Option AnchorError}
    {as : List Placed} {report : AnchorReport}
    (h : verifyAttestations node seq tipHeight last as = .ok report) :
    ∃ a ∈ as, checkAttestation node seq tipHeight a = .ok (.ok report) := by
  induction as generalizing last with
  | nil => cases h
  | cons a as ih =>
    rw [verifyAttestations] at h
    split at h
    · cases h
    · obtain ⟨b, hb, hreport⟩ := ih h
      exact ⟨b, List.mem_cons_of_mem _ hb, hreport⟩
    · rename_i hreport
      obtain rfl := Except.ok.inj h
      exact ⟨a, List.mem_cons_self, hreport⟩

/-- A block that the node has on its active chain at a height, by the calls at a place of a proof. -/
structure OnChain (node : Node) (place height : ℕ) (hash : List UInt8) (header : Header) : Prop where
  active : node.getBlockHash place height = .ok hash
  found : node.getBlockHeader place hash = .ok header
  headerHash : header.blockHash = hash

/-- **What a report says of a proof.**  The path at some place of the proof leads from the digest to the
Merkle root of the block that is reported, and the confirmations are counted from its height to the
tip of the node. -/
structure Attests (sha256 : Sha256) (proof digest : List UInt8) (node : Node) (tipHeight : ℕ)
    (report : AnchorReport) (paths : List Path) (place : ℕ) (path : Path) (header : Header) : Prop where
  leads : Leads sha256 proof digest paths
  placed : paths[place]? = some path
  height : path.height = report.height
  onChain : OnChain node place report.height report.blockHash header
  merkleRoot : header.merkleRoot = applyAll sha256 path.ops digest
  below : report.height ≤ tipHeight
  confirmations : report.confirmations = (tipHeight - report.height + 1) % 2 ^ 64
  enough : 6 ≤ report.confirmations

/-- A report on the attestations of a proof says what `Attests` says, of one of them. -/
theorem verifyAttestations_attests {proof digest : List UInt8} {seq tipHeight : ℕ}
    {as : List BitcoinAttestation} {report : AnchorReport} (has : inspectProof sha256 proof digest = .ok as)
    (h : verifyAttestations node seq tipHeight none as.zipIdx = .ok report) :
    report.seq = seq ∧ ∃ paths place path header,
      Attests sha256 proof digest node tipHeight report paths place path header := by
  obtain ⟨⟨a, place⟩, ha, hcheck⟩ := verifyAttestations_sound h
  obtain ⟨hash, header, hconfirms, rfl⟩ := checkAttestation_eq_ok.1 hcheck
  obtain ⟨paths, hleads, rfl⟩ := inspectProof_leads has
  rw [List.mk_mem_zipIdx_iff_getElem?, List.getElem?_map] at ha
  obtain ⟨path, hpath, rfl⟩ := Option.map_eq_some_iff.1 ha
  exact ⟨rfl, paths, place, path, header, hleads, hpath, rfl,
    ⟨hconfirms.active, hconfirms.found, hconfirms.headerHash⟩, hconfirms.commitment, hconfirms.height, rfl,
    hconfirms.confirmations⟩

/-- **The tip of a file** is its last line, which must be canonical. -/
theorem readTip_eq_ok {bytes : List UInt8} {tip : ChainTip} :
    readTipWithoutAuthentication readFloat bytes = .ok tip ↔ ∃ object line,
      (physicalLines bytes).getLast? = some (line ++ [lineFeed]) ∧ IsLine readFloat object line ∧
        (lookup object "seq".toList).bind asU64 = some tip.seq ∧
          stringField object "record_hash".toList = .ok tip.recordHash := by
  constructor
  · intro h
    simp only [readTipWithoutAuthentication, bind_eq_ok, require_eq_ok, orError_eq_ok, mapError_eq_ok,
      asObject_eq_some, exists_and_left, exists_const] at h
    obtain ⟨-, hlast, stored, hstored, _, hparse, line, hcanonical, rfl, object, rfl, seq, hseq, recordHash,
      hrecordHash, hresult⟩ := h
    obtain rfl := Except.ok.inj hresult
    obtain ⟨front, rfl⟩ := List.getLast?_eq_some_iff.1 hlast
    rw [List.dropLast_concat] at hstored hcanonical
    exact ⟨object, _, getLast?_physicalLines front, ⟨⟨stored, hstored, hparse⟩, hcanonical⟩, hseq,
      orError_eq_ok.2 hrecordHash⟩
  · rintro ⟨object, line, hlast, hline, hseq, hrecordHash⟩
    obtain ⟨init, hinit⟩ := List.getLast?_eq_some_iff.1 hlast
    have hbytes := flatten_physicalLines bytes
    rw [hinit, List.flatten_append, List.flatten_singleton, ← List.append_assoc] at hbytes
    rw [← hbytes, getLast?_physicalLines, Option.some.injEq] at hlast
    obtain ⟨stored, hstored, hparse⟩ := hline.parse
    rw [← hbytes]
    simp only [readTipWithoutAuthentication, bind_eq_ok, require_eq_ok, orError_eq_ok, mapError_eq_ok,
      asObject_eq_some, exists_and_left, exists_const, List.dropLast_concat, List.getLast?_concat,
      List.append_cancel_right hlast]
    exact ⟨List.append_ne_nil_of_right_ne_nil _ (List.cons_ne_nil _ _), trivial, stored, hstored, _, hparse,
      line, hline.serialize, rfl, object, rfl, tip.seq, hseq, tip.recordHash, orError_eq_ok.1 hrecordHash,
      rfl⟩

/-- **There is a verdict just if the tip, the proof and the node's block count can be read**, and
one of the attestations is confirmed. -/
theorem verifyAnchor_eq_ok {chain proof : List UInt8} {report : AnchorReport} :
    verifyAnchor sha256 readFloat chain proof node = .ok report ↔ ∃ tip digest as tipHeight,
      readTipWithoutAuthentication readFloat chain = .ok tip ∧
      decodeHexArray 32 "record_hash".toList tip.recordHash = .ok digest ∧
      inspectProof sha256 proof digest = .ok as ∧ node.getBlockCount = .ok tipHeight ∧
      verifyAttestations node tip.seq tipHeight none as.zipIdx = .ok report := by
  simp only [verifyAnchor, bind_eq_ok, mapError_eq_ok]
  constructor
  · rintro ⟨tip, htip, digest, hdigest, as, has, tipHeight, hcount, h⟩
    exact ⟨tip, digest, as, tipHeight, htip, hdigest, has, hcount, h⟩
  · rintro ⟨tip, digest, as, tipHeight, htip, hdigest, has, hcount, h⟩
    exact ⟨tip, htip, digest, hdigest, as, has, tipHeight, hcount, h⟩

/-- `decode_hex_array` reads just the texts of `n` bytes in lower-case hexadecimal. -/
theorem decodeHexArray_eq_ok {n : ℕ} {field value : List Char} {bytes : List UInt8} :
    decodeHexArray n field value = .ok bytes ↔ IsHex (n * 2) value ∧ fromHex value = some bytes := by
  simp only [decodeHexArray, bind_eq_ok, validateLowerHex_eq_ok, orError_eq_ok, exists_const]

/-- The two readings of a sequence number agree. -/
theorem integerField_of_asU64 {object : Object} {field : List Char} {n m : ℕ}
    (h : (lookup object field).bind asU64 = some n) (h' : integerField object field = .ok m) : m = n := by
  obtain ⟨v, hv, hm⟩ := integerField_eq_ok.1 h'
  rw [hv, Option.bind_some] at h
  rw [asU64.eq_def] at h
  split at h
  · rename_i k hk
    have hk' : (if k < 2 ^ 63 then some k else none) = some (m : ℤ) := hm
    split_ifs at h hk'
    have hn := Option.some.inj h
    have hm' := Option.some.inj hk'
    omega
  · cases h

/-- An integer field of the chain is read as the same number by `as_u64`. -/
theorem asU64_of_integerField {object : Object} {field : List Char} {n : ℕ}
    (h : integerField object field = .ok n) : (lookup object field).bind asU64 = some n := by
  obtain ⟨v, hv, hn⟩ := integerField_eq_ok.1 h
  rw [hv, Option.bind_some]
  have hasI64 : asI64 v = some (n : ℤ) := hn
  rw [asI64.eq_def] at hasI64
  split at hasI64
  · rename_i m
    cases m with
    | float x => cases hasI64
    | int m hm =>
      have hm' : (if m < 2 ^ 63 then some m else none) = some (n : ℤ) := hasI64
      split_ifs at hm'
      obtain rfl := Option.some.inj hm'
      rw [asU64, if_pos (Int.natCast_nonneg n), Int.toNat_natCast]
  · cases hasI64

/-- **What an anchor verdict says.**  It is about the canonical last line of the file and the
digest that this line names, not about an authentic record; the record is authentic if
the verifier accepts the chain as well. -/
theorem anchor_verdict {chain proof : List UInt8} {report : AnchorReport}
    (h : verifyAnchor sha256 readFloat chain proof node = .ok report) :
    ∃ object line recordHash digest tipHeight paths place path header,
      (physicalLines chain).getLast? = some (line ++ [lineFeed]) ∧ IsLine readFloat object line ∧
      (lookup object "seq".toList).bind asU64 = some report.seq ∧
      stringField object "record_hash".toList = .ok recordHash ∧ IsHex 64 recordHash ∧
      fromHex recordHash = some digest ∧ node.getBlockCount = .ok tipHeight ∧
      Attests sha256 proof digest node tipHeight report paths place path header ∧
      ∀ verifyStrict chainReport, verifyReader sha256 verifyStrict readFloat chain = .ok chainReport →
        chainReport.tip = some ⟨report.seq, recordHash⟩ ∧ ∃ recordBytes,
          serialize (.object (unsignedOf object)) = .ok recordBytes ∧
            sha256.hexdigest recordBytes = recordHash ∧ sha256.digest recordBytes = digest := by
  obtain ⟨tip, digest, as, tipHeight, htip, hdigest, has, hcount, hreport⟩ := verifyAnchor_eq_ok.1 h
  obtain ⟨object, line, hlast, hline, hseq, hrecordHash⟩ := readTip_eq_ok.1 htip
  obtain ⟨hhex, hfromHex⟩ := decodeHexArray_eq_ok.1 hdigest
  obtain ⟨hreportSeq, paths, place, path, header, hattests⟩ := verifyAttestations_attests has hreport
  rw [← hreportSeq] at hseq
  refine ⟨object, line, tip.recordHash, digest, tipHeight, paths, place, path, header, hlast, hline, hseq,
    hrecordHash, hhex, hfromHex, hcount, hattests, fun verifyStrict chainReport hchain => ?_⟩
  obtain ⟨q, hq, rfl⟩ := verifyReader_eq_ok.1 hchain
  obtain ⟨init, hinit⟩ := List.getLast?_eq_some_iff.1 hlast
  rw [hinit, verifyLines_append, bind_eq_ok] at hq
  obtain ⟨r, -, hq⟩ := hq
  obtain ⟨object', line', version, recordHash', recordBytes, hlines, hline', hvalid, -, -, rfl⟩ :=
    verifyLine_eq_ok.1 (verifyLines_singleton.1 hq)
  obtain rfl := List.append_cancel_right hlines
  obtain ⟨stored, hstored, hparse⟩ := hline.parse
  obtain ⟨stored', hstored', hparse'⟩ := hline'.parse
  obtain rfl := Option.some.inj (hstored.symm.trans hstored')
  obtain rfl := Json.object.inj (Except.ok.inj (hparse.symm.trans hparse'))
  obtain rfl := Except.ok.inj (hvalid.recordHash_eq.symm.trans hrecordHash)
  have hhash := hvalid.hash_eq
  refine ⟨congrArg some (congrArg₂ ChainTip.mk (integerField_of_asU64 hseq hvalid.seq_eq) rfl),
    recordBytes, hvalid.recordBytes_eq, hhash, ?_⟩
  rw [← hhash, Sha256.hexdigest, fromHex_hex] at hfromHex
  exact Option.some.inj hfromHex

/-- A file of one object, which is no record. -/
def sampleChain : List UInt8 :=
  utf8 ("\x7b\"record_hash\":\"".toList ++ List.replicate 64 'a' ++ "\",\"seq\":0\x7d\n".toList)

/-- A node with that digest as the Merkle root of a block. -/
def sampleNode : Node where
  getBlockCount := .ok 47
  getBlockHash _ _ := .ok (List.replicate 32 0xbb)
  getBlockHeader _ _ := .ok ⟨List.replicate 32 0xbb, List.replicate 32 0xaa⟩

/-- The anchor of the sample is valid, with six confirmations. -/
theorem verifyAnchor_sample : verifyAnchor zeroDigest nearestFloat sampleChain sampleProof sampleNode =
    .ok ⟨0, 42, List.replicate 32 0xbb, 6⟩ := by decide +kernel

/-- The verdict is about the digest that the last line names, and a path of the proof. -/
theorem anchor_verdict_sample : ∃ object line recordHash digest paths place path header,
    (physicalLines sampleChain).getLast? = some (line ++ [lineFeed]) ∧ IsLine nearestFloat object line ∧
      stringField object "record_hash".toList = .ok recordHash ∧ fromHex recordHash = some digest ∧
      Attests zeroDigest sampleProof digest sampleNode 47 ⟨0, 42, List.replicate 32 0xbb, 6⟩ paths place path
        header := by
  obtain ⟨object, line, recordHash, digest, tipHeight, paths, place, path, header, hlast, hline, -, hrecordHash,
    -, hdigest, hcount, hattests, -⟩ := anchor_verdict verifyAnchor_sample
  obtain rfl := Except.ok.inj hcount
  exact ⟨object, line, recordHash, digest, paths, place, path, header, hlast, hline, hrecordHash, hdigest,
    hattests⟩

/-- **A verdict does not need an authentic record**: the file has none. -/
theorem anchor_verdict_unauthenticated : ¬ ∀ (sha256 : Sha256)
    (verifyStrict : List UInt8 → List UInt8 → Bool) (readFloat : FloatReader)
    (chain proof : List UInt8) (node : Node) (report : AnchorReport),
    verifyAnchor sha256 readFloat chain proof node = .ok report →
      ∃ chainReport, verifyReader sha256 verifyStrict readFloat chain = .ok chainReport := by
  intro h
  obtain ⟨chainReport, hchain⟩ := h _ (fun _ _ => true) _ _ _ _ _ verifyAnchor_sample
  have hrejected : (verifyReader zeroDigest (fun _ _ => true) nearestFloat sampleChain).isOk = false := by
    decide +kernel
  rw [hchain] at hrejected
  cases hrejected

end Verifier
end Vestrix
