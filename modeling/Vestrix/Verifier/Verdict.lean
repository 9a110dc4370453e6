/-
# Several branches of a proof

The loop of `verify_anchor` goes over the Bitcoin attestations of a proof.  A failure that it
remembers lets it go on, but an RPC that fails ends it, so that a branch whose block the node
does not answer for hides the branches behind it (`verdict_iff`).
-/

import Vestrix.Verifier.Anchor

namespace Vestrix
namespace Verifier

open Text Rounding Json Outcome Record

/-- A valid branch: the two calls for it succeed, the header that they return is that of the block
and has the commitment as its Merkle root, and there are six confirmations. -/
def Passes (node : Node) (tipHeight : ℕ) (a : Placed) : Prop :=
  a.1.height ≤ tipHeight ∧ ∃ hash header, node.getBlockHash a.2 a.1.height = .ok hash ∧
    node.getBlockHeader a.2 hash = .ok header ∧ header.blockHash = hash ∧
    header.merkleRoot = a.1.commitment ∧ 6 ≤ tipHeight - a.1.height + 1

/-- A branch at a height of the chain, for which one of the two calls fails. -/
def Unanswered (node : Node) (tipHeight : ℕ) (a : Placed) : Prop :=
  a.1.height ≤ tipHeight ∧ ((∃ failure, node.getBlockHash a.2 a.1.height = .error failure) ∨
    ∃ hash failure, node.getBlockHash a.2 a.1.height = .ok hash ∧
      node.getBlockHeader a.2 hash = .error failure)

variable {sha256 : Sha256} {readFloat : FloatReader} {node : Node} {seq tipHeight : ℕ}
  {a : Placed} {as : List Placed}

/-- A block confirms an attestation just if it passes and its count, taken in 64 bits, is six or
more. -/
theorem confirms_iff : (∃ hash header, Confirms node tipHeight a hash header) ↔
    Passes node tipHeight a ∧ 6 ≤ (tipHeight - a.1.height + 1) % 2 ^ 64 := by
  constructor
  · rintro ⟨hash, header, h⟩
    exact ⟨⟨h.height, hash, header, h.active, h.found, h.headerHash, h.commitment,
      h.confirmations.trans (Nat.mod_le _ _)⟩, h.confirmations⟩
  · rintro ⟨⟨hheight, hash, header, hactive, hfound, hhash, hroot, -⟩, hconfirmations⟩
    exact ⟨hash, header, hheight, hactive, hfound, hhash, hroot, hconfirmations⟩

/-- **What one round of the loop does**: it ends the loop where a call fails. -/
theorem checkAttestation_eq_error : (∃ e, checkAttestation node seq tipHeight a = .error e) ↔
    Unanswered node tipHeight a := by
  rw [checkAttestation, Unanswered]
  split_ifs with habove
  · constructor
    · rintro ⟨e, he⟩
      cases he
    · rintro ⟨hle, -⟩
      exact absurd hle (Nat.not_le_of_lt habove)
  · cases hactive : node.getBlockHash a.2 a.1.height with
    | error failure =>
      exact ⟨fun _ => ⟨Nat.le_of_not_lt habove, Or.inl ⟨failure, rfl⟩⟩, fun _ => ⟨_, rfl⟩⟩
    | ok hash =>
      cases hfound : node.getBlockHeader a.2 hash with
      | error failure =>
        refine ⟨fun _ => ⟨Nat.le_of_not_lt habove, Or.inr ⟨hash, failure, rfl, hfound⟩⟩, fun _ => ?_⟩
        rw [Except.mapError, ok_bind, hfound]
        exact ⟨_, rfl⟩
      | ok header =>
        rw [Except.mapError, ok_bind, hfound]
        constructor
        · rintro ⟨e, he⟩
          cases he
        · rintro ⟨-, ⟨failure, h⟩ | ⟨hash', failure, h, hheader⟩⟩
          · cases h
          · obtain rfl := Except.ok.inj h
            rw [hfound] at hheader
            cases hheader

/-- **When the loop returns a report**: a branch is confirmed and no call has failed before. -/
theorem verifyAttestations_isOk_iff {last : Option AnchorError} :
    (∃ report, verifyAttestations node seq tipHeight last as = .ok report) ↔
      ∃ before a after, as = before ++ a :: after ∧ (∀ b ∈ before, ¬ Unanswered node tipHeight b) ∧
        ∃ hash header, Confirms node tipHeight a hash header := by
  induction as generalizing last with
  | nil =>
    constructor
    · rintro ⟨report, h⟩
      cases h
    · rintro ⟨before, a, after, h, -⟩
      cases before <;> cases h
  | cons b as ih =>
    rw [verifyAttestations]
    cases hcheck : checkAttestation node seq tipHeight b with
    | error e =>
      have hunanswered := checkAttestation_eq_error.1 ⟨e, hcheck⟩
      constructor
      · rintro ⟨report, h⟩
        cases h
      · rintro ⟨before, a, after, h, hbefore, hash, header, hconfirms⟩
        cases before with
        | nil =>
          obtain ⟨rfl, -⟩ := List.cons.inj h
          cases hcheck.symm.trans (checkAttestation_eq_ok.2 ⟨hash, header, hconfirms, rfl⟩)
        | cons c before =>
          obtain ⟨rfl, -⟩ := List.cons.inj h
          exact absurd hunanswered (hbefore _ List.mem_cons_self)
    | ok result =>
      have hanswered : ¬ Unanswered node tipHeight b := fun h => by
        obtain ⟨e, he⟩ := checkAttestation_eq_error.2 h
        cases hcheck.symm.trans he
      cases result with
      | ok report =>
        obtain ⟨hash, header, hconfirms, -⟩ := checkAttestation_eq_ok.1 hcheck
        exact ⟨fun _ => ⟨[], b, as, rfl, fun c hc => absurd hc List.not_mem_nil, hash, header, hconfirms⟩,
          fun _ => ⟨report, rfl⟩⟩
      | error failure =>
        refine ih.trans ⟨?_, ?_⟩
        · rintro ⟨before, a, after, rfl, hbefore, hconfirms⟩
          exact ⟨b :: before, a, after, rfl, List.forall_mem_cons.2 ⟨hanswered, hbefore⟩, hconfirms⟩
        · rintro ⟨before, a, after, h, hbefore, hash, header, hconfirms⟩
          cases before with
          | nil =>
            obtain ⟨rfl, -⟩ := List.cons.inj h
            cases Except.ok.inj (hcheck.symm.trans (checkAttestation_eq_ok.2 ⟨hash, header, hconfirms, rfl⟩))
          | cons c before =>
            obtain ⟨rfl, rfl⟩ := List.cons.inj h
            exact ⟨before, a, after, rfl, (List.forall_mem_cons.1 hbefore).2, hash, header, hconfirms⟩

/-- **The verdict depends on the order** only where one branch is confirmed and a call for another
fails. -/
theorem verifyAttestations_perm_iff :
    (∀ as', as'.Perm as → ((∃ report, verifyAttestations node seq tipHeight none as' = .ok report) ↔
      ∃ report, verifyAttestations node seq tipHeight none as = .ok report)) ↔
    (∀ a ∈ as, ¬ ∃ hash header, Confirms node tipHeight a hash header) ∨
      ∀ a ∈ as, ¬ Unanswered node tipHeight a := by
  constructor
  · intro h
    by_contra hboth
    rw [not_or] at hboth
    obtain ⟨hconfirmed, hunanswered⟩ := hboth
    push Not at hconfirmed hunanswered
    obtain ⟨c, hc, hash, header, hconfirms⟩ := hconfirmed
    obtain ⟨u, hu, hu'⟩ := hunanswered
    have hfirst := (h _ (List.perm_cons_erase hc).symm).1
      (verifyAttestations_isOk_iff.2 ⟨[], c, _, rfl, fun b hb => absurd hb List.not_mem_nil, hash, header,
        hconfirms⟩)
    obtain ⟨report, hreport⟩ := (h _ (List.perm_cons_erase hu).symm).2 hfirst
    obtain ⟨e, he⟩ : ∃ e, checkAttestation node seq tipHeight u = .error e :=
      checkAttestation_eq_error.2 hu'
    rw [verifyAttestations, he] at hreport
    cases hreport
  · intro h as' hperm
    rw [verifyAttestations_isOk_iff, verifyAttestations_isOk_iff]
    rcases h with h | h
    · constructor
      · rintro ⟨before, a, after, rfl, -, hconfirms⟩
        exact absurd hconfirms (h a (hperm.mem_iff.1 (List.mem_append_right _ List.mem_cons_self)))
      · rintro ⟨before, a, after, rfl, -, hconfirms⟩
        exact absurd hconfirms (h a (List.mem_append_right _ List.mem_cons_self))
    · constructor
      · rintro ⟨before, a, after, rfl, -, hconfirms⟩
        obtain ⟨before', after', rfl⟩ := List.append_of_mem
          (hperm.mem_iff.1 (List.mem_append_right before (List.mem_cons_self (a := a) (l := after))))
        exact ⟨before', a, after', rfl, fun b hb => h b (List.mem_append_left _ hb), hconfirms⟩
      · rintro ⟨before, a, after, rfl, -, hconfirms⟩
        obtain ⟨before', after', rfl⟩ := List.append_of_mem
          (hperm.mem_iff.2 (List.mem_append_right before (List.mem_cons_self (a := a) (l := after))))
        exact ⟨before', a, after', rfl,
          fun b hb => h b (hperm.mem_iff.1 (List.mem_append_left _ hb)), hconfirms⟩

/-- **When one valid branch is enough.**  The verdict is that some branch is valid exactly where
none is, or where one stands before every branch whose calls fail; it does not depend on
the order of the branches, each with the outcomes of its own calls, exactly where none is confirmed or no
call fails. -/
theorem verdict_iff {chain proof digest : List UInt8} {tip : ChainTip} {as : List BitcoinAttestation}
    (htip : readTipWithoutAuthentication readFloat chain = .ok tip)
    (hdigest : decodeHexArray 32 "record_hash".toList tip.recordHash = .ok digest)
    (hproof : inspectProof sha256 proof digest = .ok as) (hcount : node.getBlockCount = .ok tipHeight) :
    (((∃ report, verifyAnchor sha256 readFloat chain proof node = .ok report) ↔
        ∃ a ∈ as.zipIdx, Passes node tipHeight a) ↔
      (∀ a ∈ as.zipIdx, ¬ Passes node tipHeight a) ∨ ∃ before a after, as.zipIdx = before ++ a :: after ∧
        (∀ b ∈ before, ¬ Unanswered node tipHeight b) ∧ Passes node tipHeight a ∧
          6 ≤ (tipHeight - a.1.height + 1) % 2 ^ 64) ∧
    ((∀ as' : List Placed, as'.Perm as.zipIdx →
        ((∃ report, verifyAttestations node tip.seq tipHeight none as' = .ok report) ↔
          ∃ report, verifyAnchor sha256 readFloat chain proof node = .ok report)) ↔
      (∀ a ∈ as.zipIdx, ¬ (Passes node tipHeight a ∧ 6 ≤ (tipHeight - a.1.height + 1) % 2 ^ 64)) ∨
        ∀ a ∈ as.zipIdx, ¬ Unanswered node tipHeight a) := by
  have hverdict : ∀ report, verifyAnchor sha256 readFloat chain proof node = .ok report ↔
      verifyAttestations node tip.seq tipHeight none as.zipIdx = .ok report := by
    intro report
    rw [verifyAnchor, htip, Except.mapError, ok_bind, hdigest, Except.mapError, ok_bind, hproof,
      Except.mapError, ok_bind, hcount, Except.mapError, ok_bind]
  simp only [hverdict, ← confirms_iff]
  refine ⟨?_, verifyAttestations_perm_iff⟩
  rw [verifyAttestations_isOk_iff]
  constructor
  · intro h
    by_cases hpasses : ∃ a ∈ as.zipIdx, Passes node tipHeight a
    · obtain ⟨before, a, after, has, hbefore, hconfirms⟩ := h.2 hpasses
      obtain ⟨hpass, hconfirmations⟩ := confirms_iff.1 hconfirms
      exact Or.inr ⟨before, a, after, has, hbefore, hconfirms⟩
    · exact Or.inl fun a ha hpass => hpasses ⟨a, ha, hpass⟩
  · rintro (h | h)
    · constructor
      · rintro ⟨before, a, after, has, -, hconfirms⟩
        refine absurd (confirms_iff.1 hconfirms).1 (h a ?_)
        rw [has]
        exact List.mem_append_right _ List.mem_cons_self
      · rintro ⟨a, ha, hpass⟩
        exact absurd hpass (h a ha)
    · obtain ⟨before, a, after, has, hbefore, hconfirms⟩ := h
      refine ⟨fun _ => ⟨a, ?_, (confirms_iff.1 hconfirms).1⟩, fun _ => ⟨before, a, after, has, hbefore, hconfirms⟩⟩
      rw [has]
      exact List.mem_append_right _ List.mem_cons_self

/-- A proof of two branches, for the digest of the sample chain. -/
def forkedProof : List UInt8 :=
  magic ++ [1, 8] ++ List.replicate 32 0xaa ++ [0xff, 0x00] ++ bitcoinAttestation ++ [1, 41] ++ [0x00] ++
    bitcoinAttestation ++ [1, 42]

/-- A node that does not find the block of the first one. -/
def prunedNode : Node :=
  { sampleNode with
    getBlockHash := fun _ height =>
      if height = 41 then .error .failed else .ok (List.replicate 32 0xbb) }

/-- The tip of the sample. -/
theorem readTip_sampleChain : readTipWithoutAuthentication nearestFloat sampleChain =
    .ok ⟨0, List.replicate 64 'a'⟩ := by decide +kernel

/-- The digest of the sample. -/
theorem decodeHexArray_sampleChain : decodeHexArray 32 "record_hash".toList (List.replicate 64 'a') =
    .ok (List.replicate 32 0xaa) := by decide +kernel

/-- The forked proof has two attestations, at the heights 41 and 42. -/
theorem inspectProof_forked : inspectProof zeroDigest forkedProof (List.replicate 32 0xaa) =
    .ok [⟨41, List.replicate 32 0xaa⟩, ⟨42, List.replicate 32 0xaa⟩] := by decide +kernel

/-- The attestation at height 42 passes. -/
theorem passes_sample : Passes prunedNode 47 (⟨42, List.replicate 32 0xaa⟩, 1) :=
  ⟨by decide, _, _, rfl, rfl, rfl, rfl, by decide⟩

/-- Where the node answers for both branches, the second one is enough. -/
theorem verdict_iff_sample :
    (∃ report, verifyAnchor zeroDigest nearestFloat sampleChain forkedProof sampleNode = .ok report) ↔
      ∃ a ∈ [(⟨41, List.replicate 32 0xaa⟩, 0), (⟨42, List.replicate 32 0xaa⟩, 1)], Passes sampleNode 47 a := by
  refine (verdict_iff readTip_sampleChain decodeHexArray_sampleChain inspectProof_forked rfl).1.2
    (Or.inr ⟨[], _, _, rfl, fun b hb => absurd hb List.not_mem_nil, ?_, by decide⟩)
  exact ⟨by decide, _, _, rfl, rfl, rfl, rfl, by decide⟩

/-- **One valid branch is not always enough**: a call that fails for the branch before it ends the
loop. -/
theorem valid_branch_not_enough : ¬ ∀ (sha256 : Sha256) (readFloat : FloatReader)
    (chain proof digest : List UInt8) (tip : ChainTip) (as : List BitcoinAttestation) (node : Node)
    (tipHeight : ℕ), readTipWithoutAuthentication readFloat chain = .ok tip →
    decodeHexArray 32 "record_hash".toList tip.recordHash = .ok digest →
    inspectProof sha256 proof digest = .ok as → node.getBlockCount = .ok tipHeight →
    ((∃ report, verifyAnchor sha256 readFloat chain proof node = .ok report) ↔
      ∃ a ∈ as.zipIdx, Passes node tipHeight a) := by
  intro h
  have hverdict := h _ _ _ _ _ _ _ prunedNode 47 readTip_sampleChain decodeHexArray_sampleChain
    inspectProof_forked rfl
  obtain ⟨report, hreport⟩ := hverdict.2 ⟨_, List.mem_cons_of_mem _ List.mem_cons_self, passes_sample⟩
  have hrejected : (verifyAnchor zeroDigest nearestFloat sampleChain forkedProof prunedNode).isOk = false := by
    decide +kernel
  rw [hreport] at hrejected
  cases hrejected

end Verifier
end Vestrix
