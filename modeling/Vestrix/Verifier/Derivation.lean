/-
# The paths of a proof

What `inspect_proof` returns for a hostile proof.  The bytes behind the digest spell a node
(`Spells`): an attestation, an operation before another node, or a fork byte before two of them, so that
forks may be nested in any way.  A node has a path to each Bitcoin attestation below it, which is the
operations on the way and the height at its end.  The attestations that are returned are those
of the paths, in their order, each for the message that its own operations lead to from the digest
(`inspectProof_leads`).
-/

import Vestrix.Verifier.ProofTree

namespace Vestrix
namespace Verifier

open Text Outcome Record

/-- The message that operations lead to. -/
def applyAll (sha256 : Sha256) (ops : List Operation) (message : List UInt8) : List UInt8 :=
  ops.foldl (fun message op => op.apply sha256 message) message

/-- Digits are read as a number, whatever follows them. -/
def SpellsNumber (n : ℕ) (digits : List UInt8) : Prop :=
  ∀ rest, varuint (digits ++ rest) = .ok (n, rest)

/-- A byte string behind digits of its length. -/
def SpellsBytes (payload bytes : List UInt8) : Prop :=
  ∃ digits, bytes = digits ++ payload ∧ SpellsNumber payload.length digits

/-- Some bytes spell the argument of an operation, behind its tag. -/
def Operation.Spells : Operation → List UInt8 → Prop
  | .sha256, bytes => bytes = []
  | .append argument, bytes | .prepend argument, bytes => SpellsBytes argument bytes

/-- A path of a proof: the operations on the way to a Bitcoin attestation, and the height that it
names. -/
structure Path where
  ops : List Operation
  height : ℕ
deriving DecidableEq

/-- A path with one more operation on the way. -/
def Path.behind (op : Operation) (path : Path) : Path := ⟨op :: path.ops, path.height⟩

/-- The attestation at the end of a path from a message. -/
def Path.attestation (sha256 : Sha256) (message : List UInt8) (path : Path) : BitcoinAttestation :=
  ⟨path.height, applyAll sha256 path.ops message⟩

/-- The messages on a path are of the permitted sizes. -/
structure Path.Within (sha256 : Sha256) (message : List UInt8) (path : Path) : Prop where
  length : (applyAll sha256 path.ops message).length = 32
  bounded : ∀ ops, ops <+: path.ops → (applyAll sha256 ops message).length ≤ maxOpBytes

/-- Some bytes spell a node, from which these paths lead to Bitcoin attestations. -/
inductive Spells : List Path → List UInt8 → Prop
  | bitcoin {height : ℕ} {digits payload : List UInt8} (hheight : SpellsNumber height digits)
      (hpayload : SpellsBytes digits payload) :
      Spells [⟨[], height⟩] (0x00 :: (bitcoinAttestation ++ payload))
  | other {tag payload bytes : List UInt8} (hlength : tag.length = 8) (hne : tag ≠ bitcoinAttestation)
      (hpayload : SpellsBytes payload bytes) : Spells [] (0x00 :: (tag ++ bytes))
  | operation {op : Operation} {argument bytes : List UInt8} {paths : List Path} (hvalid : op.Valid)
      (hop : op.Spells argument) (h : Spells paths bytes) :
      Spells (paths.map (Path.behind op)) (op.tag :: (argument ++ bytes))
  | fork {first rest : List UInt8} {paths paths' : List Path} (hfirst : Spells paths first)
      (hrest : Spells paths' rest) : Spells (paths ++ paths') (0xff :: (first ++ rest))

/-- A proof is for a digest, and leads from it along these paths. -/
structure Leads (sha256 : Sha256) (proof digest : List UInt8) (paths : List Path) : Prop where
  length : digest.length = 32
  spelled : ∃ bytes, proof = magic ++ 1 :: 8 :: (digest ++ bytes) ∧ Spells paths bytes
  ne_nil : paths ≠ []
  within : ∀ path ∈ paths, path.Within sha256 digest

variable {sha256 : Sha256} {message bytes : List UInt8} {as as' : List BitcoinAttestation}
  {input rest : List UInt8}

/-- A path within the limits, behind an operation on a message within them. -/
theorem Path.Within.behind {op : Operation} {path : Path}
    (h : path.Within sha256 (op.apply sha256 message)) (hmessage : message.length ≤ maxOpBytes) :
    (path.behind op).Within sha256 message := by
  refine ⟨h.length, fun ops hops => ?_⟩
  rcases List.prefix_cons_iff.1 hops with rfl | ⟨tail, rfl, htail⟩
  · exact hmessage
  · exact h.bounded tail htail

/-! ### What the parser reads -/

/-- A variable integer is its digits, whatever follows them. -/
theorem varuintFrom_digits {shift value n : ℕ} (h : varuintFrom shift value input = .ok (n, rest)) :
    ∃ digits, input = digits ++ rest ∧
      ∀ rest', varuintFrom shift value (digits ++ rest') = .ok (n, rest') := by
  induction input generalizing shift value with
  | nil => cases h
  | cons b input ih =>
    rw [varuintFrom] at h
    split_ifs at h with hoverflow hlast hnext
    · obtain ⟨rfl, rfl⟩ := Prod.mk.inj (Except.ok.inj h)
      refine ⟨[b], rfl, fun rest' => ?_⟩
      rw [List.singleton_append, varuintFrom, if_neg hoverflow, if_pos hlast]
    · obtain ⟨digits, rfl, hdigits⟩ := ih h
      refine ⟨b :: digits, rfl, fun rest' => ?_⟩
      rw [List.cons_append, varuintFrom, if_neg hoverflow, if_neg hlast, if_pos hnext, hdigits]

/-- What `varuint` reads is a spelling of the number. -/
theorem varuint_eq_ok {n : ℕ} (h : varuint input = .ok (n, rest)) :
    ∃ digits, input = digits ++ rest ∧ SpellsNumber n digits := varuintFrom_digits h

/-- What `varbytes` reads is a spelling of the byte string. -/
theorem varbytes_eq_ok {payload : List UInt8} (h : varbytes input = .ok (payload, rest)) :
    ∃ front, input = front ++ rest ∧ SpellsBytes payload front := by
  obtain ⟨⟨length, _⟩, hvaruint, h⟩ := bind_eq_ok.1 h
  obtain ⟨_, -, h⟩ := bind_eq_ok.1 h
  obtain ⟨rfl, rfl⟩ := take_eq_ok.1 h
  obtain ⟨digits, rfl, hdigits⟩ := varuint_eq_ok hvaruint
  exact ⟨digits ++ payload, (List.append_assoc _ _ _).symm, digits, rfl, hdigits⟩

/-- What `operation_from_tag` reads is an operation, and the message stays within its limit. -/
theorem operationFromTag_eq_ok {tag : UInt8} {next : List UInt8}
    (h : operationFromTag sha256 tag message input = .ok (next, rest)) :
    ∃ (op : Operation) (argument : List UInt8), op.tag = tag ∧ op.Valid ∧ op.Spells argument ∧
      input = argument ++ rest ∧ next = op.apply sha256 message ∧ next.length ≤ maxOpBytes := by
  rw [operationFromTag] at h
  split_ifs at h with hdigest happend hprepend
  · obtain ⟨rfl, rfl⟩ := Prod.mk.inj (Except.ok.inj h)
    exact ⟨.sha256, [], hdigest.symm, trivial, rfl, rfl, rfl, by rw [sha256.length_digest]; decide⟩
  · obtain ⟨⟨suffix, _⟩, hvarbytes, h⟩ := bind_eq_ok.1 h
    obtain ⟨_, hvalid, h⟩ := bind_eq_ok.1 h
    obtain ⟨rfl, rfl⟩ := Prod.mk.inj (Except.ok.inj h)
    obtain ⟨front, rfl, hfront⟩ := varbytes_eq_ok hvarbytes
    obtain ⟨_, hargument, hlength⟩ := bind_eq_ok.1 hvalid
    have hargument := require_eq_ok.1 hargument
    refine ⟨.append suffix, front, happend.symm, hargument, hfront, rfl, rfl, ?_⟩
    rw [List.length_append]
    exact require_eq_ok.1 hlength
  · obtain ⟨⟨start, _⟩, hvarbytes, h⟩ := bind_eq_ok.1 h
    obtain ⟨_, hvalid, h⟩ := bind_eq_ok.1 h
    obtain ⟨rfl, rfl⟩ := Prod.mk.inj (Except.ok.inj h)
    obtain ⟨front, rfl, hfront⟩ := varbytes_eq_ok hvarbytes
    obtain ⟨_, hargument, hlength⟩ := bind_eq_ok.1 hvalid
    have hargument := require_eq_ok.1 hargument
    refine ⟨.prepend start, front, hprepend.symm, hargument, hfront, rfl, rfl, ?_⟩
    rw [List.length_append, Nat.add_comm]
    exact require_eq_ok.1 hlength

/-- A node is read from the front of some bytes, and the attestations at the ends of its paths are
added to those before. -/
def Reads (sha256 : Sha256) (message : List UInt8) (as as' : List BitcoinAttestation)
    (bytes rest : List UInt8) : Prop :=
  ∃ paths front, bytes = front ++ rest ∧ Spells paths front ∧ (∀ path ∈ paths, path.Within sha256 message) ∧
    as' = as ++ paths.map (Path.attestation sha256 message)

/-- A node behind an operation is read for the message that the operation makes. -/
theorem Reads.operation {op : Operation} {argument : List UInt8}
    (h : Reads sha256 (op.apply sha256 message) as as' input rest) (hvalid : op.Valid)
    (hop : op.Spells argument) (hmessage : message.length ≤ maxOpBytes) :
    Reads sha256 message as as' (op.tag :: (argument ++ input)) rest := by
  obtain ⟨paths, front, rfl, hpaths, hwithin, rfl⟩ := h
  refine ⟨paths.map (Path.behind op), op.tag :: (argument ++ front), ?_, .operation hvalid hop hpaths, ?_, ?_⟩
  · rw [List.cons_append, List.append_assoc]
  · intro path hpath
    obtain ⟨path, hmem, rfl⟩ := List.mem_map.1 hpath
    exact (hwithin path hmem).behind hmessage
  · rw [List.map_map]
    rfl

/-- Two nodes behind a fork byte are read one after the other. -/
theorem Reads.fork {as₁ : List BitcoinAttestation} (hfirst : Reads sha256 message as as₁ bytes input)
    (hrest : Reads sha256 message as₁ as' input rest) :
    Reads sha256 message as as' (0xff :: bytes) rest := by
  obtain ⟨paths, front, rfl, hpaths, hwithin, rfl⟩ := hfirst
  obtain ⟨paths', front', rfl, hpaths', hwithin', rfl⟩ := hrest
  refine ⟨paths ++ paths', 0xff :: (front ++ front'), ?_, .fork hpaths hpaths', ?_, ?_⟩
  · rw [List.cons_append, List.append_assoc]
  · intro path hpath
    exact (List.mem_append.1 hpath).elim (hwithin path) (hwithin' path)
  · rw [List.map_append, List.append_assoc]

/-- What an attestation adds is read at its node. -/
theorem attestation_reads (hmessage : message.length ≤ maxOpBytes)
    (h : attestation message as input = .ok (as', rest)) :
    Reads sha256 message as as' (0x00 :: input) rest := by
  obtain ⟨⟨tag, _⟩, htag, h⟩ := bind_eq_ok.1 h
  obtain ⟨⟨payload, _⟩, hpayload, h⟩ := bind_eq_ok.1 h
  obtain ⟨_, -, hread⟩ := bind_eq_ok.1 h
  obtain ⟨hlength, rfl⟩ := take_eq_ok.1 htag
  obtain ⟨front, rfl, hfront⟩ := varbytes_eq_ok hpayload
  split_ifs at hread with hbitcoin
  · obtain ⟨_, hcommitment, h⟩ := bind_eq_ok.1 hread
    obtain ⟨⟨height, _⟩, hheight, h⟩ := bind_eq_ok.1 h
    obtain ⟨_, hfinished, h⟩ := bind_eq_ok.1 h
    obtain ⟨rfl, rfl⟩ := Prod.mk.inj (Except.ok.inj h)
    obtain rfl := require_eq_ok.1 hfinished
    obtain ⟨digits, rfl, hdigits⟩ := varuint_eq_ok hheight
    rw [List.append_nil] at hfront
    refine ⟨[⟨[], height⟩], 0x00 :: (bitcoinAttestation ++ front), ?_, .bitcoin hdigits hfront, ?_, rfl⟩
    · rw [hbitcoin, List.cons_append, List.append_assoc]
    · intro path hpath
      obtain rfl := List.mem_singleton.1 hpath
      refine ⟨require_eq_ok.1 hcommitment, fun ops hops => ?_⟩
      rw [List.prefix_nil.1 hops]
      exact hmessage
  · obtain ⟨rfl, rfl⟩ := Prod.mk.inj (Except.ok.inj hread)
    refine ⟨[], 0x00 :: (tag ++ front), ?_, .other hlength hbitcoin hfront, ?_, ?_⟩
    · rw [List.cons_append, List.append_assoc]
    · exact fun path hpath => absurd hpath List.not_mem_nil
    · rw [List.map_nil, List.append_nil]

/-- The loop over branches reads one node after the other, behind a fork byte each. -/
theorem branches_reads {timestamp : List BitcoinAttestation → Parser (List BitcoinAttestation)}
    {fromTag : UInt8 → List BitcoinAttestation → Parser (List BitcoinAttestation)}
    (htimestamp : ∀ as input as' rest, timestamp as input = .ok (as', rest) →
      Reads sha256 message as as' input rest)
    (hfromTag : ∀ tag as input as' rest, fromTag tag as input = .ok (as', rest) →
      Reads sha256 message as as' (tag :: input) rest)
    {rounds : ℕ} (h : branches timestamp fromTag rounds as input = .ok (as', rest)) :
    Reads sha256 message as as' (0xff :: input) rest := by
  induction rounds generalizing as input with
  | zero => cases h
  | succ rounds ih =>
    obtain ⟨⟨as₁, input₁⟩, hbranch, h⟩ := bind_eq_ok.1 h
    obtain ⟨⟨nextTag, input₂⟩, hbyte, hlast⟩ := bind_eq_ok.1 h
    obtain rfl := byte_eq_ok.1 hbyte
    dsimp only at hlast
    refine (htimestamp _ _ _ _ hbranch).fork ?_
    split_ifs at hlast with hfork
    · rw [hfork]
      exact ih hlast
    · exact hfromTag _ _ _ _ _ hlast

/-- `timestamp` reads what `timestamp_from_tag` reads behind the first byte. -/
theorem timestamp_reads {levels : ℕ} {fromTag : UInt8 → Parser (List BitcoinAttestation)}
    (hfromTag : ∀ tag input as' rest, fromTag tag input = .ok (as', rest) →
      Reads sha256 message as as' (tag :: input) rest)
    (h : timestamp levels fromTag input = .ok (as', rest)) :
    Reads sha256 message as as' input rest := by
  rw [timestamp] at h
  split_ifs at h
  obtain ⟨⟨tag, input₁⟩, hbyte, h⟩ := bind_eq_ok.1 h
  obtain rfl := byte_eq_ok.1 hbyte
  exact hfromTag _ _ _ _ h

/-- **What the parser reads is a node**, and it returns the attestations at the ends of its paths. -/
theorem timestampFromTag_reads {levels : ℕ} {tag : UInt8} (hmessage : message.length ≤ maxOpBytes)
    (h : timestampFromTag sha256 levels tag message as input = .ok (as', rest)) :
    Reads sha256 message as as' (tag :: input) rest := by
  induction levels generalizing tag message as as' input rest with
  | zero => cases h
  | succ levels ih =>
    rw [timestampFromTag] at h
    dsimp only at h
    split_ifs at h with hattestation hbranches
    · rw [hattestation]
      exact attestation_reads hmessage h
    · rw [hbranches]
      exact branches_reads (fun _ _ _ _ => timestamp_reads fun _ _ _ _ => ih hmessage)
        (fun _ _ _ _ _ => ih hmessage) h
    · obtain ⟨⟨next, input₁⟩, hoperation, h⟩ := bind_eq_ok.1 h
      obtain ⟨op, argument, rfl, hvalid, hop, rfl, rfl, hnext⟩ := operationFromTag_eq_ok hoperation
      exact (timestamp_reads (fun _ _ _ _ => ih hnext) h).operation hvalid hop hmessage

/-- **What `inspect_proof` returns**: the proof leads from the digest along some paths, and the
attestations are those at their ends. -/
theorem inspectProof_leads {proof digest : List UInt8} (h : inspectProof sha256 proof digest = .ok as) :
    ∃ paths, Leads sha256 proof digest paths ∧ as = paths.map (Path.attestation sha256 digest) := by
  obtain ⟨_, -, h⟩ := bind_eq_ok.1 h
  obtain ⟨⟨start, _⟩, hstart, h⟩ := bind_eq_ok.1 h
  obtain ⟨_, hmagic, h⟩ := bind_eq_ok.1 h
  obtain ⟨⟨version, _⟩, hversion, h⟩ := bind_eq_ok.1 h
  obtain ⟨_, hone, h⟩ := bind_eq_ok.1 h
  obtain ⟨⟨hashOp, _⟩, hhashOp, h⟩ := bind_eq_ok.1 h
  obtain ⟨_, height, h⟩ := bind_eq_ok.1 h
  obtain ⟨⟨found, rest⟩, hfound, h⟩ := bind_eq_ok.1 h
  obtain ⟨_, hsame, h⟩ := bind_eq_ok.1 h
  obtain ⟨⟨as', _⟩, htimestamp, h⟩ := bind_eq_ok.1 h
  obtain ⟨_, hfinished, h⟩ := bind_eq_ok.1 h
  obtain ⟨_, hne, h⟩ := bind_eq_ok.1 h
  obtain rfl := Except.ok.inj h
  obtain rfl := require_eq_ok.1 hmagic
  obtain rfl := require_eq_ok.1 hone
  obtain rfl := require_eq_ok.1 height
  obtain rfl := require_eq_ok.1 hsame
  obtain rfl := require_eq_ok.1 hfinished
  obtain ⟨-, rfl⟩ := take_eq_ok.1 hstart
  obtain rfl := byte_eq_ok.1 hversion
  obtain rfl := byte_eq_ok.1 hhashOp
  obtain ⟨hlength, rfl⟩ := take_eq_ok.1 hfound
  have hlimit : found.length ≤ maxOpBytes := hlength.le.trans (by decide)
  obtain ⟨paths, front, rfl, hpaths, hwithin, rfl⟩ :=
    timestamp_reads (fun _ _ _ _ => timestampFromTag_reads hlimit) htimestamp
  rw [List.append_nil, List.nil_append] at *
  refine ⟨paths, ⟨hlength, ⟨front, rfl, hpaths⟩, ?_, hwithin⟩, rfl⟩
  rintro rfl
  exact require_eq_ok.1 hne rfl

/-- A proof with an attestation is for one digest only. -/
theorem inspectProof_digest {proof digest digest' : List UInt8}
    (h : inspectProof sha256 proof digest = .ok as) (h' : inspectProof sha256 proof digest' = .ok as') :
    digest = digest' := by
  obtain ⟨_, hleads, -⟩ := inspectProof_leads h
  obtain ⟨_, hleads', -⟩ := inspectProof_leads h'
  obtain ⟨_, hproof, -⟩ := hleads.spelled
  obtain ⟨_, hproof', -⟩ := hleads'.spelled
  have heq := List.append_cancel_left (hproof.symm.trans hproof')
  exact (List.append_inj (List.cons.inj (List.cons.inj heq).2).2 (hleads.length.trans hleads'.length.symm)).1

/-- What is inspected has an attestation. -/
theorem inspectProof_ne_nil {proof digest : List UInt8} (h : inspectProof sha256 proof digest = .ok as) :
    as ≠ [] := by
  obtain ⟨paths, hleads, rfl⟩ := inspectProof_leads h
  exact fun hnil => hleads.ne_nil (List.map_eq_nil_iff.1 hnil)

end Verifier
end Vestrix
