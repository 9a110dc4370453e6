/-
# What is printed

The lines of `vestrix-verify` are what is kept of its verdicts.  Chains with one line have the same signed
contents, whatever the hosts and the keys are (`printed_binds`), and the line of an anchor names a block to
whose Merkle root a path of the proof leads from the digest in the line of its chain (`printed_verdict`).
-/

import Vestrix.Verifier.Cli
import Vestrix.Verifier.Retained

namespace Vestrix
namespace Verifier
namespace Cli

open Text Rounding Json Outcome Record

section

variable {sha256 : Sha256} {fromBytes : List UInt8 → Option (List UInt8 → List UInt8 → Bool)}
  {readFloat : FloatReader} {host host' : Host} {printed : List Char}

/-! ### Reports -/

variable {verifyStrict : List UInt8 → List UInt8 → Bool} {file : List UInt8} {report : VerificationReport}

/-- A report without a tip is about no records. -/
theorem records_of_no_tip (h : verifyReader sha256 verifyStrict readFloat file = .ok report)
    (htip : report.tip = none) : records readFloat file = [] := by
  by_cases hne : file = []
  · rw [hne]
    rfl
  · obtain ⟨_, _, _, _, _, _, -, -, -, hsome⟩ := verifyReader_tip h hne
    cases hsome.symm.trans htip

/-- The anchor of an accepted chain is valid if its tip's digest has a proof that the node confirms. -/
theorem verifyAnchor_of_tip {n seq tipHeight : ℕ} {recordBytes proof : List UInt8} {node : Node}
    {as : List BitcoinAttestation} {anchorReport : AnchorReport}
    (h : verifyReader sha256 verifyStrict readFloat file = .ok ⟨n, some ⟨seq, sha256.hexdigest recordBytes⟩⟩)
    (hproof : inspectProof sha256 proof (sha256.digest recordBytes) = .ok as)
    (hcount : node.getBlockCount = .ok tipHeight)
    (hattested : verifyAttestations node seq tipHeight none as.zipIdx = .ok anchorReport) :
    verifyAnchor sha256 readFloat file proof node = .ok anchorReport :=
  verifyAnchor_eq_ok.2 ⟨_, _, as, tipHeight, (readTip_of_tip h rfl).1,
    decodeHexArray_eq_ok.2 ⟨sha256.isHex_hexdigest recordBytes, fromHex_hex _⟩, hproof, hcount, hattested⟩

/-! ### Two hosts -/

/-- The public keys of the two signatures. -/
def retainedKey : Bool → List UInt8
  | false =>
    [0x8a, 0x88, 0xe3, 0xdd, 0x74, 0x09, 0xf1, 0x95, 0xfd, 0x52, 0xdb, 0x2d, 0x3c, 0xba, 0x5d, 0x72,
      0xca, 0x67, 0x09, 0xbf, 0x1d, 0x94, 0x12, 0x1b, 0xf3, 0x74, 0x88, 0x01, 0xb4, 0x0f, 0x6f, 0x5c]
  | true =>
    [0x81, 0x39, 0x77, 0x0e, 0xa8, 0x7d, 0x17, 0x5f, 0x56, 0xa3, 0x54, 0x66, 0xc3, 0x4c, 0x7e, 0xcc,
      0xcb, 0x8d, 0x8a, 0x91, 0xb4, 0xee, 0x37, 0xa2, 0x5d, 0xf6, 0x0f, 0x5b, 0x8f, 0xc9, 0xb3, 0x94]

/-- The files of the keys. -/
def retainedKeyFile : Bool → List UInt8
  | false => retainedKey false
  | true => utf8 (hex (retainedKey true) ++ ['\n'])

/-- `VerifyingKey::from_bytes` on the two keys. -/
def retainedFromBytes (key : List UInt8) : Option (List UInt8 → List UInt8 → Bool) :=
  if key = retainedKey false then some (retainedVerify false)
  else if key = retainedKey true then some (retainedVerify true)
  else none

/-- A proof for the digest of the second record. -/
def retainedProof : List UInt8 :=
  magic ++ [1, 8] ++ retainedSha256.digest retainedTip ++ [0x00] ++ bitcoinAttestation ++ [1, 42]

/-- A node with that digest as the Merkle root of a block. -/
def retainedNode : Node where
  getBlockCount := .ok 47
  getBlockHash _ _ := .ok (List.replicate 32 0xbb)
  getBlockHeader _ _ := .ok ⟨List.replicate 32 0xbb, retainedSha256.digest retainedTip⟩

/-- A host with the records as one of the keys has signed them. -/
def retainedHost (key : Bool) : Host where
  read path :=
    if path = "chain.jsonl".toList then some (retainedFile key)
    else if path = "tip.ots".toList then some retainedProof
    else if path = "logger-public.hex".toList then some (retainedKeyFile key)
    else none
  var _ := none
  newWithAuth _ _ := some retainedNode

/-- The host has the file of the chain. -/
theorem read_chain (key : Bool) :
    (retainedHost key).read "chain.jsonl".toList = some (retainedFile key) := by
  unfold retainedHost
  dsimp only
  rw [if_pos rfl]

/-- The host has the file of the proof. -/
theorem read_proof (key : Bool) : (retainedHost key).read "tip.ots".toList = some retainedProof := by
  unfold retainedHost
  dsimp only
  rw [if_neg (by decide), if_pos rfl]

/-- The host has the file of the key. -/
theorem read_keyFile (key : Bool) :
    (retainedHost key).read "logger-public.hex".toList = some (retainedKeyFile key) := by
  unfold retainedHost
  dsimp only
  rw [if_neg (by decide), if_neg (by decide), if_pos rfl]

/-- `chain` prints two records and the digest of the second. -/
theorem main_chain_retained (key : Bool) :
    main retainedSha256 retainedFromBytes nearestFloat (retainedHost key)
      (.chain "chain.jsonl".toList "logger-public.hex".toList) =
      ⟨0, chainMessage ⟨2, some ⟨1, retainedSha256.hexdigest retainedTip⟩⟩ ++ ['\n']⟩ := by
  refine main_eq_zero.2 ⟨_, run_chain_eq_ok.2 ⟨_, retainedKey key, retainedVerify key, _, _,
    read_keyFile key, ?_, ?_, read_chain key, (verifyReader_retained key).1, rfl⟩, rfl⟩
  · cases key with
    | false => exact ⟨rfl, .raw⟩
    | true => exact ⟨rfl, .line⟩
  · cases key with
    | false => exact if_pos rfl
    | true => exact (if_neg (by decide)).trans (if_pos rfl)

/-- The proof is valid for the second record. -/
theorem verifyAnchor_retained (key : Bool) :
    verifyAnchor retainedSha256 nearestFloat (retainedFile key) retainedProof retainedNode =
      .ok ⟨1, 42, List.replicate 32 0xbb, 6⟩ := by
  have hproof : inspectProof retainedSha256 retainedProof (retainedSha256.digest retainedTip) =
      .ok [⟨42, retainedSha256.digest retainedTip⟩] := by
    decide +kernel
  have hattested : verifyAttestations retainedNode 1 47 none
      [(⟨42, retainedSha256.digest retainedTip⟩, 0)] =
      .ok ⟨1, 42, List.replicate 32 0xbb, 6⟩ := by
    decide +kernel
  exact verifyAnchor_of_tip (verifyReader_retained key).1 hproof rfl hattested

/-- `anchor` prints the block of the proof. -/
theorem main_anchor_retained (key : Bool) :
    main retainedSha256 retainedFromBytes nearestFloat (retainedHost key)
      (.anchor "chain.jsonl".toList "tip.ots".toList "http://127.0.0.1:8332".toList (some ".cookie".toList)) =
      ⟨0, anchorMessage ⟨1, 42, List.replicate 32 0xbb, 6⟩ ++ ['\n']⟩ := by
  exact main_eq_zero.2 ⟨_, run_anchor_eq_ok.2 ⟨retainedNode, _, _, _, rfl, read_chain key, read_proof key,
    verifyAnchor_retained key, rfl⟩, rfl⟩

/-! ### What the lines stand for -/

/-- **The line binds the history.**  Whatever the hosts and the keys are, two chains for which the program
prints the same line have the same signed contents, record by record, unless two of these have one digest. -/
theorem printed_binds {chain chain' pubkey pubkey' : List Char}
    (h : main sha256 fromBytes readFloat host (.chain chain pubkey) = ⟨0, printed⟩)
    (h' : main sha256 fromBytes readFloat host' (.chain chain' pubkey') = ⟨0, printed⟩) :
    ∃ file file', host.read chain = some file ∧ host'.read chain' = some file' ∧
      ((∀ o ∈ records readFloat file, ∀ o' ∈ records readFloat file',
        sha256.digest (unsignedBytes (unsignedOf o)) = sha256.digest (unsignedBytes (unsignedOf o')) →
          unsignedBytes (unsignedOf o) = unsignedBytes (unsignedOf o')) →
        (records readFloat file).map unsignedOf = (records readFloat file').map unsignedOf) := by
  obtain ⟨message, hrun, rfl⟩ := main_eq_zero.1 h
  obtain ⟨message', hrun', hprinted⟩ := main_eq_zero.1 h'
  obtain rfl := List.append_cancel_right hprinted
  obtain ⟨_, _, verifyStrict, file, report, -, -, -, hfile, hreport, rfl⟩ := run_chain_eq_ok.1 hrun
  obtain ⟨_, _, verifyStrict', file', report', -, -, -, hfile', hreport', hmessage⟩ :=
    run_chain_eq_ok.1 hrun'
  -- one line is one report
  obtain rfl := chainMessage_injective hmessage
  refine ⟨file, file', hfile, hfile', fun hcollision => ?_⟩
  cases htip : report.tip with
  | none => rw [records_of_no_tip hreport htip, records_of_no_tip hreport' htip]
  | some tip =>
    obtain ⟨hlinked, hdigest, -, hne, hall⟩ := verifyReader_linked hreport htip
    obtain ⟨hlinked', hdigest', -, hne', hall'⟩ := verifyReader_linked hreport' htip
    refine hlinked.eq_of_tip hlinked' (fun o ho o' ho' heq => ?_) hne hne' (hdigest.trans hdigest'.symm)
    exact (hall o ho).unsigned_injective (hall' o' ho') (hcollision o ho o' ho' (hex_injective heq))

/-- The two hosts print one line, and have the same two records. -/
theorem printed_binds_retained : (records nearestFloat (retainedFile false)).map unsignedOf =
    (records nearestFloat (retainedFile true)).map unsignedOf := by
  obtain ⟨file, file', hfile, hfile', hagree⟩ :=
    printed_binds (main_chain_retained false) (main_chain_retained true)
  obtain rfl := Option.some.inj (hfile.symm.trans (read_chain false))
  obtain rfl := Option.some.inj (hfile'.symm.trans (read_chain true))
  exact hagree fun _ ho _ ho' => retained_injective ho ho'

/-- **What the two lines say together.**  Where the program finds a chain and an anchor of it valid, the first
line ends with a digest, and a path of the proof leads from it to the Merkle root of the block that the second
one names, as many blocks below the tip of the node as it says. -/
theorem printed_verdict {chain pubkey otsProof rpcUrl line line' : List Char} {rpcCookie : Option (List Char)}
    (h : main sha256 fromBytes readFloat host (.chain chain pubkey) = ⟨0, line⟩)
    (h' : main sha256 fromBytes readFloat host (.anchor chain otsProof rpcUrl rpcCookie) = ⟨0, line'⟩) :
    ∃ report digest proof client tipHeight paths place path header,
      (∀ other, line = chainMessage other ++ ['\n'] ↔
        other = ⟨report.seq + 1, some ⟨report.seq, hex digest⟩⟩) ∧
      (∀ other, line' = anchorMessage other ++ ['\n'] ↔ other = report) ∧
      host.read otsProof = some proof ∧ rpcClient host rpcUrl rpcCookie = .ok client ∧
      client.getBlockCount = .ok tipHeight ∧
      Attests sha256 proof digest client tipHeight report paths place path header := by
  obtain ⟨_, hrun, rfl⟩ := main_eq_zero.1 h
  obtain ⟨_, hrun', rfl⟩ := main_eq_zero.1 h'
  obtain ⟨_, _, verifyStrict, file, chainReport, -, -, -, hfile, hreport, rfl⟩ := run_chain_eq_ok.1 hrun
  obtain ⟨client, file', proof, report, hclient, hfile', hproof, hanchor, rfl⟩ := run_anchor_eq_ok.1 hrun'
  obtain rfl := Option.some.inj (hfile.symm.trans hfile')
  obtain ⟨tip, digest, as, tipHeight, htip, hdigest, has, hcount, hattested⟩ := verifyAnchor_eq_ok.1 hanchor
  obtain ⟨hhex, hread⟩ := decodeHexArray_eq_ok.1 hdigest
  obtain ⟨hseq, paths, place, path, header, hattests⟩ := verifyAttestations_attests has hattested
  have hne : file ≠ [] := by
    rintro rfl
    obtain ⟨_, _, hlast, -⟩ := readTip_eq_ok.1 htip
    cases hlast
  obtain ⟨_, _, _, _, _, _, -, -, -, hsome⟩ := verifyReader_tip hreport hne
  -- the tip that is read from the end is the one that is reported
  obtain ⟨hread', hrecords, -⟩ := readTip_of_tip hreport hsome
  obtain rfl := Except.ok.inj (hread'.symm.trans htip)
  have hchain : chainReport = ⟨report.seq + 1, some ⟨report.seq, hex digest⟩⟩ := by
    rw [hex_of_fromHex hhex.2 hread, hseq, ← hsome, ← hrecords]
  refine ⟨report, digest, proof, client, tipHeight, paths, place, path, header, fun other => ⟨fun hline => ?_, ?_⟩,
    fun other => ⟨fun hline => ?_, ?_⟩, hproof, hclient, hcount, hattests⟩
  · rw [← chainMessage_injective (List.append_cancel_right hline)]
    exact hchain
  · rintro rfl
    rw [← hchain]
  · exact (anchorMessage_injective (List.append_cancel_right hline)).symm
  · rintro rfl
    rfl

/-- The digest that the first line ends with is that of the second record. -/
theorem printed_verdict_retained : ∃ digest paths place path header,
    hex digest = retainedSha256.hexdigest retainedTip ∧
      Attests retainedSha256 retainedProof digest retainedNode 47 ⟨1, 42, List.replicate 32 0xbb, 6⟩ paths place
        path header := by
  obtain ⟨report, digest, proof, client, tipHeight, paths, place, path, header, hline, hline', hproof, hclient,
    hcount, hattests⟩ := printed_verdict (main_chain_retained false) (main_anchor_retained false)
  obtain rfl := (hline' _).1 rfl
  obtain rfl := Except.ok.inj hclient
  obtain rfl := Except.ok.inj hcount
  obtain rfl := Option.some.inj ((read_proof false).symm.trans hproof)
  refine ⟨digest, paths, place, path, header, ?_, hattests⟩
  exact (ChainTip.mk.inj (Option.some.inj (VerificationReport.mk.inj ((hline _).1 rfl)).2)).2.symm

end

end Cli
end Verifier
end Vestrix
