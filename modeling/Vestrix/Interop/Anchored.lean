/-
# Anchors of a growing chain

The worker anchors the tip that it saw, and hours later the proof is complete; meanwhile
`log_event` appends.  `verify_anchor` compares the proof with the last line of the file as it
is, so that the proof verifies while the line that was anchored is the last one
(`anchor_verifies_iff_tip`), and no longer (`anchor_outdated`).
-/

import Vestrix.Forensics.Records
import Vestrix.Interop.Ingestion
import Vestrix.Verifier.Anchor

namespace Vestrix
namespace Interop

open Text Rounding Json Outcome Record Transition
open Verifier (Node BitcoinAttestation Placed)

section

variable {sha256 : Sha256} {readFloat : Verifier.FloatReader} {node : Node}

/-- A node that knows every block of its active chain. -/
structure Answers (node : Node) (tipHeight : ℕ) : Prop where
  count : node.getBlockCount = .ok tipHeight
  bound : tipHeight + 1 < 2 ^ 64
  block : ∀ place, ∀ height ≤ tipHeight, ∃ hash header, node.getBlockHash place height = .ok hash ∧
    node.getBlockHeader place hash = .ok header ∧ header.blockHash = hash

/-- A node's header at the height of an attestation has its commitment, six blocks deep. -/
def Confirmed (node : Node) (tipHeight : ℕ) (a : Placed) : Prop :=
  a.1.height ≤ tipHeight ∧ 6 ≤ tipHeight - a.1.height + 1 ∧ ∃ hash header,
    node.getBlockHash a.2 a.1.height = .ok hash ∧ node.getBlockHeader a.2 hash = .ok header ∧
      header.merkleRoot = a.1.commitment

/-- With a node that answers, no attestation ends the loop with an error. -/
theorem Answers.checkAttestation_isOk {tipHeight : ℕ} (h : Answers node tipHeight) (seq : ℕ)
    (a : Placed) : ∃ r, Verifier.checkAttestation node seq tipHeight a = .ok r := by
  rw [Verifier.checkAttestation]
  split_ifs with habove
  · exact ⟨_, rfl⟩
  · obtain ⟨hash, header, hhash, hheader, -⟩ := h.block a.2 a.1.height (Nat.le_of_not_lt habove)
    rw [hhash, Except.mapError, ok_bind, hheader, Except.mapError, ok_bind]
    exact ⟨_, rfl⟩

/-- A node that answers confirms an attestation of a block that is deep enough. -/
theorem Answers.checkAttestation_confirmed {tipHeight : ℕ} (h : Answers node tipHeight) (seq : ℕ)
    {a : Placed} (ha : Confirmed node tipHeight a) :
    ∃ report, Verifier.checkAttestation node seq tipHeight a = .ok (.ok report) := by
  obtain ⟨hheight, hsix, hash, header, hhash, hheader, hroot⟩ := ha
  obtain ⟨hash', header', hhash', hheader', heq⟩ := h.block a.2 a.1.height hheight
  obtain rfl := Except.ok.inj (hhash.symm.trans hhash')
  obtain rfl := Except.ok.inj (hheader.symm.trans hheader')
  have hbound := h.bound
  refine ⟨_, Verifier.checkAttestation_eq_ok.2 ⟨hash, header, ⟨hheight, hhash, hheader, heq, hroot, ?_⟩, rfl⟩⟩
  rw [Nat.mod_eq_of_lt (by omega)]
  exact hsix

/-- **With a node that answers, one confirmed attestation is enough.** -/
theorem Answers.verifyAttestations_isOk {tipHeight : ℕ} (h : Answers node tipHeight) (seq : ℕ)
    {as : List Placed} (ha : ∃ a ∈ as, Confirmed node tipHeight a)
    (last : Option Verifier.AnchorError) :
    ∃ report, Verifier.verifyAttestations node seq tipHeight last as = .ok report := by
  induction as generalizing last with
  | nil => exact absurd ha.choose_spec.1 List.not_mem_nil
  | cons b as ih =>
    rw [Verifier.verifyAttestations]
    obtain ⟨r, hr⟩ := h.checkAttestation_isOk seq b
    obtain ⟨a, hmem, hconfirmed⟩ := ha
    cases r with
    | ok report =>
      rw [hr]
      exact ⟨report, rfl⟩
    | error e =>
      rw [hr]
      rcases List.mem_cons.1 hmem with rfl | hmem
      · obtain ⟨report, hreport⟩ := h.checkAttestation_confirmed seq hconfirmed
        cases Except.ok.inj (hr.symm.trans hreport)
      · exact ih ⟨a, hmem, hconfirmed⟩ _

/-- The verifier reads the last line of a store back. -/
def ReadBack (readFloat : Verifier.FloatReader) (store : Forensics.Store) : Prop :=
  ∃ object line, store.lines.getLast? = some (line ++ [lineFeed]) ∧ Verifier.IsLine readFloat object line

/-- **The tip that the verifier reads** is the one that the walk ends with. -/
theorem readTip_of_reads {store : Forensics.Store} {entries : List Forensics.Entry}
    {y : Forensics.Expected} (h : Forensics.Reads sha256 1 .first store.lines entries y) (hne : y.seq ≠ 0)
    {tip : Verifier.ChainTip} :
    Verifier.readTipWithoutAuthentication readFloat (store.getD []) = .ok tip ↔
      ReadBack readFloat store ∧ tip.seq = y.seq - 1 ∧ y.prevHash = ofChars tip.recordHash := by
  have hlines : store.lines ≠ [] := by
    rintro hnil
    have hseq := h.seq_eq
    rw [hnil] at hseq
    exact hne hseq
  obtain ⟨entry, line, seq, prevHash, -, hlast, hline, hvalid, hplace⟩ := h.last hlines
  have hrecord := Python.loads_distinctKeys hline.loads
  rw [Verifier.readTip_eq_ok]
  constructor
  · rintro ⟨object, line', hlast', hline', hseq, hhash⟩
    obtain rfl := List.append_cancel_right (Option.some.inj (hlast.symm.trans hlast'))
    have hsame := sameValue_of_isLine hline hline'
    have hobject := encodable_of_isLine hline'
    have hseq' := (hsame.integerField hrecord hobject.2 hobject.1).1 hvalid.seq_eq
    have hhash' := (hsame.stringField hrecord hobject.2 hobject.1).2 hhash
    refine ⟨⟨object, line, hlast, hline'⟩, ?_, ?_⟩
    · rw [← Verifier.integerField_of_asU64 hseq hseq', hplace, Nat.add_sub_cancel]
    · exact Python.Atom.str.inj (Json.atom.inj (Option.some.inj (hvalid.recordHash_eq.symm.trans hhash')))
  · rintro ⟨⟨object, line', hlast', hline'⟩, hseq, hhash⟩
    obtain rfl := List.append_cancel_right (Option.some.inj (hlast.symm.trans hlast'))
    have hsame := sameValue_of_isLine hline hline'
    have hobject := encodable_of_isLine hline'
    have hseq' := (hsame.integerField hrecord hobject.2 hobject.1).1 hvalid.seq_eq
    rw [hplace, Nat.add_sub_cancel] at hseq
    have hhash' := hvalid.recordHash_eq
    rw [hhash] at hhash'
    refine ⟨object, line, hlast, hline', ?_, (hsame.stringField hrecord hobject.2 hobject.1).1 hhash'⟩
    rw [hseq]
    exact Verifier.asU64_of_integerField hseq'

/-- The tip hash of a store is a digest in hexadecimal. -/
theorem decodeHexArray_tip {store : Forensics.Store} {entries : List Forensics.Entry}
    {y : Forensics.Expected} (h : Forensics.Reads sha256 1 .first store.lines entries y) {t : List Char}
    (ht : y.prevHash = ofChars t) {digest : List UInt8} :
    Verifier.decodeHexArray 32 "record_hash".toList t = .ok digest ↔ fromHex t = some digest := by
  have hgenesis : Forensics.Holds (.hex 64) (.atom (.str Forensics.genesisPrevHash)) :=
    ⟨genesis, scalars?_ofChars _, isHex_genesis⟩
  obtain ⟨s, hs, hhex⟩ := h.holds_prevHash hgenesis
  have htext : some t = some s := by
    rw [← hs, ht]
    exact (scalars?_ofChars t).symm
  obtain rfl := Option.some.inj htext
  rw [Verifier.decodeHexArray_eq_ok]
  exact ⟨fun h => h.2, fun h => ⟨hhex, h⟩⟩

end

variable {sha256 : Sha256} {readFloat : Verifier.FloatReader} {node : Node}
  {store store' : Forensics.Store} {calls : List (Forensics.Signer × Forensics.Event)} {seq : ℤ}
  {tipHash : Str} {proof digest : List UInt8} {as : List BitcoinAttestation} {tipHeight : ℕ}

/-- **A completed anchor verifies while its record is the last one**, if the verifier reads its
line back, and no longer: the worker has seen the tip, `log_event` may have appended, and
the proof is complete for the digest of the tip. -/
theorem anchor_verifies_iff_tip
    (hsnapshot : Forensics.snapshotTip sha256 store = .ok (seq, tipHash))
    (hrun : run (Forensics.append sha256) store calls = some store')
    (hsize : (store'.getD []).length < 2 ^ 63) (hcollision : Forensics.NoCollision sha256 store')
    (hdigest : (scalars? tipHash).bind fromHex = some digest)
    (hproof : Verifier.inspectProof sha256 proof digest = .ok as) (hnode : Answers node tipHeight)
    (hconfirmed : ∃ a ∈ as.zipIdx, Confirmed node tipHeight a) :
    (∃ report, Verifier.verifyAnchor sha256 readFloat (store'.getD []) proof node = .ok report) ↔
      calls = [] ∧ ReadBack readFloat store := by
  obtain ⟨entries, x, hx, hne, -, rfl⟩ := Forensics.snapshotTip_eq_ok hsnapshot
  obtain ⟨more, y, hy, hlen⟩ := Forensics.run_reads hrun hsize hx
  have hyne : y.seq ≠ 0 := by
    have hxl := hx.seq_eq
    have hyl := hy.seq_eq
    rw [← hx.length_eq] at hxl
    rw [← hy.length_eq, List.length_append] at hyl
    omega
  obtain ⟨t, ht, htDigest⟩ := Option.bind_eq_some_iff.1 hdigest
  have htip := scalars?_eq_some_iff.1 ht
  simp only [Verifier.verifyAnchor_eq_ok, readTip_of_reads hy hyne]
  constructor
  · rintro ⟨report, tip, digest', as', tipHeight', ⟨hback, -, hhash⟩, hdecode, hproof', -, -⟩
    obtain rfl := Verifier.inspectProof_digest hproof' hproof
    have hhex := (decodeHexArray_tip hy hhash).1 hdecode
    suffices hnil : calls = [] by
      subst hnil
      obtain rfl := run_nil.1 hrun
      exact ⟨rfl, hback⟩
    -- both tips have the digest of the proof, and so the same number
    have hlines : ∀ {z : Forensics.Expected} {es : List Forensics.Entry} {s : Forensics.Store},
        Forensics.Reads sha256 1 .first s.lines es z → z.seq ≠ 0 → s.lines ≠ [] := by
      rintro z es s hz hzne hnil
      have hseq := hz.seq_eq
      rw [hnil] at hseq
      exact hzne hseq
    obtain ⟨e, l, n, prev, he, -, hline, hvalid, hplace⟩ := hx.last (hlines hx hne)
    obtain ⟨e', l', n', prev', he', -, hline', hvalid', hplace'⟩ := hy.last (hlines hy hyne)
    obtain ⟨-, hhashE⟩ := Forensics.hashUnsignedRecord_eq_ok.1 hvalid.hash_eq
    obtain ⟨-, hhashE'⟩ := Forensics.hashUnsignedRecord_eq_ok.1 hvalid'.hash_eq
    obtain rfl := ofChars_injective (htip.symm.trans hhashE)
    obtain htip' := ofChars_injective (hhash.symm.trans hhashE')
    rw [Sha256.hexdigest, fromHex_hex, Option.some.injEq] at htDigest
    rw [htip', Sha256.hexdigest, fromHex_hex, Option.some.injEq] at hhex
    have hbytes := hcollision _ _ hy e (List.mem_append_left _ (List.mem_of_getLast? he)) e'
      (List.mem_of_getLast? he') (htDigest.trans hhex.symm)
    rw [hbytes] at hvalid
    have hnn := hvalid.seq_unique hline hline' hvalid'
    have hxl := hx.seq_eq
    have hyl := hy.seq_eq
    rw [← hx.length_eq] at hxl
    rw [← hy.length_eq, List.length_append] at hyl
    exact List.length_eq_zero_iff.1 (by omega)
  · rintro ⟨rfl, hback⟩
    obtain rfl := run_nil.1 hrun
    obtain ⟨-, rfl⟩ := hx.unique hy
    obtain ⟨report, hreport⟩ := hnode.verifyAttestations_isOk (x.seq - 1) hconfirmed none
    exact ⟨report, ⟨x.seq - 1, t⟩, digest, as, tipHeight, ⟨hback, rfl, htip⟩,
      (decodeHexArray_tip hx htip).2 htDigest, hproof, hnode.count, hreport⟩

/-! ### One record, and another -/

/-- A chain without collision, by what is signed of its records. -/
theorem noCollision_of_signedBytes {signed : List (List UInt8)}
    (h : (Forensics.iterValidatedRecords sha256 store).toList.map (List.map Forensics.Entry.signedBytes) =
      .ok signed)
    (hinj : ∀ m ∈ signed, ∀ m' ∈ signed, sha256.digest m = sha256.digest m' → m = m') :
    Forensics.NoCollision sha256 store := by
  intro entries y hreads e he e' he'
  rw [Forensics.iterValidatedRecords_toList.2 ⟨y, hreads⟩] at h
  obtain rfl := Except.ok.inj h
  exact hinj _ (List.mem_map_of_mem he) _ (List.mem_map_of_mem he')

/-- A chain of one record. -/
def sampleStore : Forensics.Store := sampleAnswer.2

/-- The digest of its tip. -/
def sampleDigest : List UInt8 := Forensics.sampleSha256.digest Forensics.sampleBytes

/-- A proof for it, with an attestation and no operation. -/
def sampleProof : List UInt8 :=
  Verifier.magic ++ [1, 8] ++ sampleDigest ++ [0x00] ++ Verifier.bitcoinAttestation ++ [1, 42]

/-- A node with the digest as the Merkle root of every block. -/
def sampleNode : Node where
  getBlockCount := .ok 47
  getBlockHash _ _ := .ok (List.replicate 32 0xbb)
  getBlockHeader _ _ := .ok ⟨List.replicate 32 0xbb, sampleDigest⟩

/-- An event that is logged later. -/
def laterEvent : Forensics.Event := ⟨Forensics.linkedEvent, Forensics.distinctKeys_linkedEvent⟩

/-- What is signed of the two records. -/
def sampleSigned : List (List UInt8) := [Forensics.sampleBytes, Forensics.linkedBytes]

/-- What the walk, the verifier and a later call make of the chain.  This is one evaluation, since the chain
takes longer to compute than what is done with it. -/
theorem sampleStore_evaluated :
    (Forensics.snapshotTip Forensics.sampleSha256 sampleStore = .ok (0, ofChars (hex sampleDigest)) ∧
    (sampleStore.getD []).length < 2 ^ 63 ∧
    Verifier.readTipWithoutAuthentication Verifier.nearestFloat (sampleStore.getD []) =
      .ok ⟨0, hex sampleDigest⟩ ∧
    (Forensics.iterValidatedRecords Forensics.sampleSha256 sampleStore).toList.map
      (List.map Forensics.Entry.signedBytes) = .ok (sampleSigned.take 1)) ∧
    (run (Forensics.append Forensics.sampleSha256) sampleStore
      [(Forensics.sampleSigner, laterEvent)]).any (fun store' => decide
        ((store'.getD []).length < 2 ^ 63 ∧
        (Forensics.iterValidatedRecords Forensics.sampleSha256 store').toList.map
          (List.map Forensics.Entry.signedBytes) = .ok sampleSigned ∧
        (Verifier.verifyAnchor Forensics.sampleSha256 Verifier.nearestFloat (store'.getD []) sampleProof
          sampleNode).isOk = false)) = true := by
  decide +kernel

/-- The signed bytes of the sample do not collide. -/
theorem sampleSigned_injective : ∀ m ∈ sampleSigned, ∀ m' ∈ sampleSigned,
    Forensics.sampleSha256.digest m = Forensics.sampleSha256.digest m' → m = m' := by
  decide +kernel

/-- The tip of the sample is its one record. -/
theorem snapshotTip_sample : Forensics.snapshotTip Forensics.sampleSha256 sampleStore =
    .ok (0, ofChars (hex sampleDigest)) := sampleStore_evaluated.1.1

/-- The proof of the sample has one attestation, at height 42. -/
theorem inspectProof_sample : Verifier.inspectProof Forensics.sampleSha256 sampleProof sampleDigest =
    .ok [⟨42, sampleDigest⟩] := by decide +kernel

/-- The digest of the sample is read from its text. -/
theorem hexDigest_sample : (scalars? (ofChars (hex sampleDigest))).bind fromHex = some sampleDigest := by
  rw [scalars?_ofChars, Option.bind_some, fromHex_hex]

/-- The node of the sample answers, with the tip at height 47. -/
theorem answers_sample : Answers sampleNode 47 :=
  ⟨rfl, by decide, fun _ _ _ => ⟨_, _, rfl, rfl, rfl⟩⟩

/-- The attestation of the sample has six confirmations. -/
theorem confirmed_sample : ∃ a ∈ [(⟨42, sampleDigest⟩, 0)], Confirmed sampleNode 47 a :=
  ⟨(⟨42, sampleDigest⟩, 0), List.mem_singleton_self _, by decide, by decide, _, _, rfl, rfl, rfl⟩

/-- The proof verifies while the record is the last one, and does not when a linked record follows. -/
theorem anchor_verifies_iff_tip_sample :
    (∃ report, Verifier.verifyAnchor Forensics.sampleSha256 Verifier.nearestFloat (sampleStore.getD [])
      sampleProof sampleNode = .ok report) ∧
    ∃ store', run (Forensics.append Forensics.sampleSha256) sampleStore [(Forensics.sampleSigner, laterEvent)] =
        some store' ∧
      ¬ ∃ report, Verifier.verifyAnchor Forensics.sampleSha256 Verifier.nearestFloat (store'.getD [])
        sampleProof sampleNode = .ok report := by
  obtain ⟨⟨-, hsize, htip, hsigned⟩, hlater⟩ := sampleStore_evaluated
  constructor
  · obtain ⟨object, line, hlast, hline, -⟩ := Verifier.readTip_eq_ok.1 htip
    have hrun : run (Forensics.append Forensics.sampleSha256) sampleStore [] = some sampleStore := rfl
    have hcollision := noCollision_of_signedBytes hsigned fun m hm m' hm' =>
      sampleSigned_injective m (List.mem_of_mem_take hm) m' (List.mem_of_mem_take hm')
    exact (anchor_verifies_iff_tip snapshotTip_sample hrun hsize hcollision hexDigest_sample inspectProof_sample
      answers_sample confirmed_sample).2 ⟨rfl, object, line, hlast, hline⟩
  · obtain ⟨store', hrun, hstore⟩ := (Option.any_eq_true _ _).1 hlater
    obtain ⟨hsize, hsigned, -⟩ := of_decide_eq_true hstore
    refine ⟨store', hrun, fun hverifies => ?_⟩
    have hcalls := ((anchor_verifies_iff_tip snapshotTip_sample hrun hsize
      (noCollision_of_signedBytes hsigned sampleSigned_injective) hexDigest_sample inspectProof_sample
      answers_sample confirmed_sample).1 hverifies).1
    cases hcalls

/-- **An anchor no longer verifies when another record follows.** -/
theorem anchor_outdated : ¬ ∀ (sha256 : Sha256) (readFloat : Verifier.FloatReader) (node : Node)
    (store store' : Forensics.Store) (calls : List (Forensics.Signer × Forensics.Event)) (seq : ℤ)
    (tipHash : Str) (proof digest : List UInt8) (as : List BitcoinAttestation) (tipHeight : ℕ),
    Forensics.snapshotTip sha256 store = .ok (seq, tipHash) →
    run (Forensics.append sha256) store calls = some store' →
    (scalars? tipHash).bind fromHex = some digest →
    Verifier.inspectProof sha256 proof digest = .ok as → Answers node tipHeight →
    (∃ a ∈ as.zipIdx, Confirmed node tipHeight a) →
    ∃ report, Verifier.verifyAnchor sha256 readFloat (store'.getD []) proof node = .ok report := by
  intro h
  obtain ⟨-, hlater⟩ := sampleStore_evaluated
  obtain ⟨store', hrun, hstore⟩ := (Option.any_eq_true _ _).1 hlater
  obtain ⟨-, -, hfails⟩ := of_decide_eq_true hstore
  obtain ⟨report, hreport⟩ := h _ Verifier.nearestFloat _ _ _ _ _ _ _ _ _ _ snapshotTip_sample hrun
    hexDigest_sample inspectProof_sample answers_sample confirmed_sample
  rw [hreport] at hfails
  cases hfails

end Interop
end Vestrix
