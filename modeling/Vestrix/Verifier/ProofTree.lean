/-
# Proofs as trees

A detached OpenTimestamps proof is a tree: a node has a message and one item or more, which are
attestations of the message and operations that lead to the message of another node.  It is
written item by item, each but the last behind a fork byte.

`inspect_proof` reads back what is written.  An item that is behind a fork byte and the last
one are read by different functions at the same depth, so that a node is read from its second
item on by the body of the loop (`reads_item` and `reads_timestamp`, by induction on the tree), and
the whole proof by one call (`inspectProof_detached`).
-/

import Vestrix.Verifier.Proof

namespace Vestrix
namespace Verifier

open Text Outcome Record

/-- An operation of a proof. -/
inductive Operation where
  | sha256
  | append (argument : List UInt8)
  | prepend (argument : List UInt8)
deriving DecidableEq

/-- The message that an operation leads to. -/
def Operation.apply (sha256 : Sha256) : Operation → List UInt8 → List UInt8
  | .sha256, message => sha256.digest message
  | .append argument, message => message ++ argument
  | .prepend argument, message => argument ++ message

/-- The argument of an operation is within its limits. -/
def Operation.Valid : Operation → Prop
  | .sha256 => True
  | .append argument | .prepend argument => argument ≠ [] ∧ argument.length ≤ maxOpBytes

mutual

/-- What is at a node: an attestation of its message, for Bitcoin or with any other tag, or an
operation with the node it leads to. -/
inductive Item where
  | bitcoin (height : ℕ)
  | other (tag payload : List UInt8)
  | operation (op : Operation) (node : Timestamp)

/-- The items of a node, of which there is one at least. -/
inductive Timestamp where
  | last (item : Item)
  | fork (item : Item) (rest : Timestamp)

end

/-- What holds of attestations, and of operations and forks if of their nodes, holds of every tree. -/
theorem item_timestamp_induction {p : Item → Prop} {q : Timestamp → Prop} (bitcoin : ∀ height, p (.bitcoin height))
    (other : ∀ tag payload, p (.other tag payload)) (operation : ∀ op node, q node → p (.operation op node))
    (last : ∀ item, p item → q (.last item))
    (fork : ∀ item rest, p item → q rest → q (.fork item rest)) : (∀ item, p item) ∧ ∀ node, q node :=
  ⟨@Item.rec p q bitcoin other operation last fork, @Timestamp.rec p q bitcoin other operation last fork⟩

/-! ### Written -/

/-- A number in digits of seven bits, of which there are as few as possible or one more than the
fuel. -/
def spellFrom : ℕ → ℕ → List UInt8
  | 0, n => [UInt8.ofNat n]
  | fuel + 1, n => if n < 128 then [UInt8.ofNat n] else UInt8.ofNat (n % 128 + 128) :: spellFrom fuel (n / 128)

/-- The shortest variable integer of a number. -/
def spellVaruint (n : ℕ) : List UInt8 := spellFrom n n

/-- A byte string behind its length. -/
def spellVarbytes (bytes : List UInt8) : List UInt8 := spellVaruint bytes.length ++ bytes

/-- The first byte of an operation. -/
def Operation.tag : Operation → UInt8
  | .sha256 => 0x08
  | .append _ => 0xf0
  | .prepend _ => 0xf1

/-- The other bytes of an operation. -/
def Operation.spellArgument : Operation → List UInt8
  | .sha256 => []
  | .append argument | .prepend argument => spellVarbytes argument

/-- The first byte of an item. -/
def Item.tag : Item → UInt8
  | .bitcoin _ | .other _ _ => 0x00
  | .operation op _ => op.tag

mutual

/-- The other bytes of an item. -/
def Item.spellBody : Item → List UInt8
  | .bitcoin height => bitcoinAttestation ++ spellVarbytes (spellVaruint height)
  | .other tag payload => tag ++ spellVarbytes payload
  | .operation op node => op.spellArgument ++ node.spell

/-- The bytes of a node. -/
def Timestamp.spell : Timestamp → List UInt8
  | .last item => item.tag :: item.spellBody
  | .fork item rest => 0xff :: item.tag :: (item.spellBody ++ rest.spell)

end

/-- The bytes of a proof. -/
def detached (digest : List UInt8) (node : Timestamp) : List UInt8 := magic ++ 1 :: 8 :: (digest ++ node.spell)

/-! ### Meant -/

mutual

/-- The Bitcoin attestations at an item of a node with a message, in the order in which they are
written. -/
def Item.attestations (sha256 : Sha256) : Item → List UInt8 → List BitcoinAttestation
  | .bitcoin height, message => [⟨height, message⟩]
  | .other _ _, _ => []
  | .operation op node, message => node.attestations sha256 (op.apply sha256 message)

/-- The Bitcoin attestations of a node with a message. -/
def Timestamp.attestations (sha256 : Sha256) : Timestamp → List UInt8 → List BitcoinAttestation
  | .last item, message => item.attestations sha256 message
  | .fork item rest, message => item.attestations sha256 message ++ rest.attestations sha256 message

end

mutual

/-- An item of a node with a message is within the limits of the format. -/
def Item.Valid (sha256 : Sha256) : Item → List UInt8 → Prop
  | .bitcoin height, message => message.length = 32 ∧ height < 2 ^ 64
  | .other tag payload, _ =>
    tag.length = 8 ∧ tag ≠ bitcoinAttestation ∧ payload.length ≤ maxAttestationBytes
  | .operation op node, message => op.Valid ∧ (op.apply sha256 message).length ≤ maxOpBytes ∧
    node.Valid sha256 (op.apply sha256 message)

/-- The items of a node with a message are within the limits of the format. -/
def Timestamp.Valid (sha256 : Sha256) : Timestamp → List UInt8 → Prop
  | .last item, message => item.Valid sha256 message
  | .fork item rest, message => item.Valid sha256 message ∧ rest.Valid sha256 message

end

mutual

/-- How many operations and forked nodes are on a path from an item to a leaf, at most. -/
def Item.depth : Item → ℕ
  | .bitcoin _ | .other _ _ => 0
  | .operation _ node => node.depth + 1

/-- How many operations and forked nodes are on a path from a node to a leaf, at most. -/
def Timestamp.depth : Timestamp → ℕ
  | .last item => item.depth
  | .fork item rest => max item.depth rest.itemsDepth + 1

/-- The same, from the items of a node. -/
def Timestamp.itemsDepth : Timestamp → ℕ
  | .last item => item.depth
  | .fork item rest => max item.depth rest.itemsDepth

end

/-! ### Numbers -/

/-- The last digit of a variable integer ends it. -/
theorem varuintFrom_digit {n shift value : ℕ} (h : n < 128) (hn : n * 2 ^ shift < 2 ^ 64)
    (rest : List UInt8) :
    varuintFrom shift value (UInt8.ofNat n :: rest) = .ok (value + n * 2 ^ shift, rest) := by
  have hbyte : (UInt8.ofNat n).toNat = n := UInt8.toNat_ofNat_of_lt (h.trans (by decide))
  have hfits : ¬ (2 ^ 64 - 1) / 2 ^ shift < n := by
    rw [Nat.not_lt, Nat.le_div_iff_mul_le (Nat.two_pow_pos _)]
    omega
  rw [varuintFrom, hbyte, Nat.mod_eq_of_lt h, if_neg hfits, if_pos h]

/-- **A variable integer is read back**, and what follows it is left. -/
theorem varuintFrom_spellFrom {fuel n shift value : ℕ} (hfuel : n < 128 ^ (fuel + 1))
    (hn : n * 2 ^ shift < 2 ^ 64) (rest : List UInt8) :
    varuintFrom shift value (spellFrom fuel n ++ rest) = .ok (value + n * 2 ^ shift, rest) := by
  induction fuel generalizing n shift value with
  | zero => exact varuintFrom_digit (by omega) hn rest
  | succ fuel ih =>
    rw [spellFrom]
    split_ifs with hsmall
    · exact varuintFrom_digit hsmall hn rest
    · have hmod : n % 128 + 128 < 256 := by omega
      have hbyte : (UInt8.ofNat (n % 128 + 128)).toNat = n % 128 + 128 := UInt8.toNat_ofNat_of_lt hmod
      have hchunk : (n % 128 + 128) % 128 = n % 128 := by omega
      have hfits : ¬ (2 ^ 64 - 1) / 2 ^ shift < n % 128 := by
        rw [Nat.not_lt, Nat.le_div_iff_mul_le (Nat.two_pow_pos _)]
        have := Nat.mul_le_mul_right (2 ^ shift) (Nat.mod_le n 128)
        omega
      have hlarge : ¬ n % 128 + 128 < 128 := by omega
      have hsplit : n % 128 * 2 ^ shift + n / 128 * 2 ^ (shift + 7) = n * 2 ^ shift := by
        rw [pow_add, Nat.mul_comm (2 ^ shift), ← Nat.mul_assoc, ← Nat.add_mul, Nat.mul_comm (n / 128),
          show 2 ^ 7 = 128 from rfl, Nat.mod_add_div]
      have hshift : shift + 7 < 64 := by
        have hle := Nat.mul_le_mul_right (2 ^ shift) (Nat.not_lt.1 hsmall)
        rw [show 128 = 2 ^ 7 from rfl, ← pow_add, Nat.add_comm] at hle
        exact (Nat.pow_lt_pow_iff_right (by decide)).1 (hle.trans_lt hn)
      have hrest : n / 128 < 128 ^ (fuel + 1) := by
        rw [Nat.div_lt_iff_lt_mul (by decide), ← pow_succ]
        exact hfuel
      rw [List.cons_append, varuintFrom, hbyte, hchunk, if_neg hfits, if_neg hlarge, if_pos hshift,
        ih hrest (by omega), Nat.add_assoc, hsplit]

/-- A number below `2 ^ 64` is read back from its spelling. -/
theorem varuint_spellVaruint {n : ℕ} (hn : n < 2 ^ 64) (rest : List UInt8) :
    varuint (spellVaruint n ++ rest) = .ok (n, rest) := by
  have hfuel : n < 128 ^ (n + 1) := (Nat.lt_succ_self n).trans (Nat.lt_pow_self (by decide))
  rw [varuint, spellVaruint, varuintFrom_spellFrom hfuel (by rwa [pow_zero, Nat.mul_one]), pow_zero,
    Nat.mul_one, Nat.zero_add]

/-- A number below `128 ^ (k + 1)` is spelled with `k + 1` digits at most. -/
theorem length_spellFrom_le {k fuel n : ℕ} (hk : n < 128 ^ (k + 1)) : (spellFrom fuel n).length ≤ k + 1 := by
  induction fuel generalizing k n with
  | zero => exact Nat.le_add_left 1 k
  | succ fuel ih =>
    rw [spellFrom]
    split_ifs with hsmall
    · exact Nat.le_add_left 1 k
    · obtain _ | k := k
      · exact absurd hk (by omega)
      · have hrest : n / 128 < 128 ^ (k + 1) := by
          rw [Nat.div_lt_iff_lt_mul (by decide), ← pow_succ]
          exact hk
        exact Nat.succ_le_succ (ih hrest)

/-- Bytes up to the limit are read back from their spelling. -/
theorem varbytes_spellVarbytes {bytes : List UInt8} (h : bytes.length ≤ maxArgumentBytes)
    (rest : List UInt8) : varbytes (spellVarbytes bytes ++ rest) = .ok (bytes, rest) := by
  have hlength : bytes.length < 2 ^ 64 := h.trans_lt (by decide)
  rw [varbytes, spellVarbytes, List.append_assoc, varuint_spellVaruint hlength, ok_bind]
  dsimp only
  rw [require_true h, ok_bind]
  exact take_eq_ok.2 ⟨rfl, rfl⟩

/-! ### Items -/

variable {sha256 : Sha256}

/-- An operation is read back from its tag and its argument. -/
theorem operationFromTag_spell {op : Operation} {message : List UInt8} (hop : op.Valid)
    (hlength : (op.apply sha256 message).length ≤ maxOpBytes) (rest : List UInt8) :
    operationFromTag sha256 op.tag message (op.spellArgument ++ rest) =
      .ok (op.apply sha256 message, rest) := by
  have hlimit : maxOpBytes ≤ maxArgumentBytes := by decide
  cases op with
  | sha256 => rfl
  | append argument =>
    have hargument : argument ≠ [] ∧ argument.length ≤ maxOpBytes := hop
    rw [Operation.apply, List.length_append] at hlength
    rw [operationFromTag, Operation.tag, if_neg (by decide), if_pos rfl, Operation.spellArgument,
      varbytes_spellVarbytes (hargument.2.trans hlimit), ok_bind]
    dsimp only
    rw [validateOpArgument, require_true hargument, ok_bind, require_true hlength]
    rfl
  | prepend argument =>
    have hargument : argument ≠ [] ∧ argument.length ≤ maxOpBytes := hop
    rw [Operation.apply, List.length_append, Nat.add_comm] at hlength
    rw [operationFromTag, Operation.tag, if_neg (by decide), if_neg (by decide), if_pos rfl,
      Operation.spellArgument, varbytes_spellVarbytes (hargument.2.trans hlimit), ok_bind]
    dsimp only
    rw [validateOpArgument, require_true hargument, ok_bind, require_true hlength]
    rfl

/-- An attestation for Bitcoin is read back. -/
theorem attestation_bitcoin {height : ℕ} {message : List UInt8} (hmessage : message.length = 32)
    (hheight : height < 2 ^ 64) (as : List BitcoinAttestation) (rest : List UInt8) :
    attestation message as ((Item.bitcoin height).spellBody ++ rest) =
      .ok (as ++ [⟨height, message⟩], rest) := by
  have hshort : (spellVaruint height).length ≤ maxAttestationBytes :=
    (length_spellFrom_le (k := 9) (hheight.trans (by decide))).trans (by decide)
  have hpayload := varuint_spellVaruint hheight []
  rw [List.append_nil] at hpayload
  have htag : ∀ input, take 8 (bitcoinAttestation ++ input) = .ok (bitcoinAttestation, input) :=
    fun _ => take_eq_ok.2 ⟨rfl, rfl⟩
  rw [attestation, Item.spellBody, List.append_assoc, htag, ok_bind]
  dsimp only
  rw [varbytes_spellVarbytes (hshort.trans (by decide)), ok_bind]
  dsimp only
  rw [require_true hshort, ok_bind, if_pos rfl, require_true hmessage, ok_bind, hpayload, ok_bind]
  rfl

/-- Any other attestation is read over. -/
theorem attestation_other {tag payload : List UInt8} (htag : tag.length = 8) (hne : tag ≠ bitcoinAttestation)
    (hpayload : payload.length ≤ maxAttestationBytes) (message : List UInt8)
    (as : List BitcoinAttestation) (rest : List UInt8) :
    attestation message as ((Item.other tag payload).spellBody ++ rest) = .ok (as, rest) := by
  rw [attestation, Item.spellBody, List.append_assoc, take_eq_ok.2 ⟨htag, rfl⟩, ok_bind]
  dsimp only
  rw [varbytes_spellVarbytes (hpayload.trans (by decide)), ok_bind]
  dsimp only
  rw [require_true hpayload, ok_bind, if_neg hne]
  rfl

/-! ### Trees -/

/-- The loop over the items of a node with a message, which have some levels left. -/
abbrev readItems (sha256 : Sha256) (levels : ℕ) (message : List UInt8) :
    ℕ → List BitcoinAttestation → Parser (List BitcoinAttestation) :=
  branches (fun as => timestamp levels fun tag => timestampFromTag sha256 levels tag message as)
    fun tag => timestampFromTag sha256 levels tag message

/-- An item is read back from its tag on. -/
def ReadsItem (sha256 : Sha256) (item : Item) : Prop :=
  ∀ ⦃levels message⦄ as rest, item.depth ≤ levels → item.Valid sha256 message →
    timestampFromTag sha256 (levels + 1) item.tag message as (item.spellBody ++ rest) =
      .ok (as ++ item.attestations sha256 message, rest)

/-- The items of a node are read back by the end of a round of the loop. -/
def ReadsItems (sha256 : Sha256) (node : Timestamp) : Prop :=
  ∀ ⦃levels message rounds⦄ as rest, node.itemsDepth ≤ levels → node.Valid sha256 message →
    node.spell.length ≤ rounds → (do
      let (nextTag, input) ← byte (node.spell ++ rest)
      if nextTag = 0xff then readItems sha256 (levels + 1) message rounds as input
      else timestampFromTag sha256 (levels + 1) nextTag message as input) =
        .ok (as ++ node.attestations sha256 message, rest)

/-- There are three operations, each with its own tag. -/
theorem Operation.tag_eq (op : Operation) : op.tag = 0x08 ∨ op.tag = 0xf0 ∨ op.tag = 0xf1 := by
  cases op with
  | sha256 => exact Or.inl rfl
  | append argument => exact Or.inr (Or.inl rfl)
  | prepend argument => exact Or.inr (Or.inr rfl)

/-- No operation has the tag of an attestation. -/
theorem Operation.tag_ne_attestation (op : Operation) : op.tag ≠ 0x00 := by
  rcases op.tag_eq with h | h | h <;> rw [h] <;> decide

/-- No item has the tag of a fork. -/
theorem Item.tag_ne_fork (item : Item) : item.tag ≠ 0xff := by
  have hattestation : (0x00 : UInt8) ≠ 0xff := by decide
  cases item with
  | bitcoin height => exact hattestation
  | other tag payload => exact hattestation
  | operation op node => rcases op.tag_eq with h | h | h <;> rw [Item.tag, h] <;> decide

/-- **A node is read back** when its items are: the levels for them are one less where it is
forked. -/
theorem ReadsItems.timestamp {node : Timestamp} (h : ReadsItems sha256 node) {levels : ℕ}
    {message : List UInt8} (as : List BitcoinAttestation) (rest : List UInt8) (hdepth : node.depth ≤ levels)
    (hvalid : node.Valid sha256 message) :
    timestamp (levels + 1) (fun tag => timestampFromTag sha256 (levels + 1) tag message as)
      (node.spell ++ rest) = .ok (as ++ node.attestations sha256 message, rest) := by
  rw [Verifier.timestamp, if_neg (Nat.succ_ne_zero levels)]
  cases node with
  | last item =>
    have hitem := @h levels message _ as rest hdepth hvalid le_rfl
    rw [Timestamp.spell, List.cons_append, byte, ok_bind] at hitem ⊢
    dsimp only at hitem ⊢
    rwa [if_neg item.tag_ne_fork] at hitem
  | fork item tail =>
    rw [Timestamp.depth] at hdepth
    obtain _ | levels := levels
    · exact absurd hdepth (Nat.not_succ_le_zero _)
    · -- the loop of this node has a round for each byte and one more
      have hitems := @h levels message ((item.tag :: (item.spellBody ++ tail.spell) ++ rest).length + 1) as
        rest (Nat.le_of_succ_le_succ hdepth) hvalid
        (by rw [Timestamp.spell, List.length_cons, List.length_append]; omega)
      rw [Timestamp.spell, List.cons_append, byte, ok_bind] at hitems ⊢
      dsimp only at hitems ⊢
      rw [if_pos rfl] at hitems
      rw [timestampFromTag]
      dsimp only
      rw [if_neg (by decide), if_pos rfl]
      exact hitems

/-- An operation is read with the node that it leads to. -/
theorem readsItem_operation {op : Operation} {node : Timestamp} (h : ReadsItems sha256 node) :
    ReadsItem sha256 (.operation op node) := by
  intro levels message as rest hdepth hvalid
  rw [Item.depth] at hdepth
  obtain ⟨hop, hlength, hnode⟩ := hvalid
  obtain _ | levels := levels
  · exact absurd hdepth (Nat.not_succ_le_zero _)
  · have hfork : op.tag ≠ 0xff := (Item.operation op node).tag_ne_fork
    rw [Item.tag, timestampFromTag]
    dsimp only
    rw [if_neg op.tag_ne_attestation, if_neg hfork, Item.spellBody, List.append_assoc,
      operationFromTag_spell hop hlength, ok_bind]
    dsimp only
    rw [h.timestamp as rest (Nat.le_of_succ_le_succ hdepth) hnode, Item.attestations]

/-- **Every item and every node is read back.** -/
theorem reads_tree : (∀ item, ReadsItem sha256 item) ∧ ∀ node, ReadsItems sha256 node := by
  refine item_timestamp_induction ?_ ?_ ?_ ?_ ?_
  · intro height levels message as rest _ hvalid
    rw [Item.tag, timestampFromTag]
    dsimp only
    rw [if_pos rfl]
    exact attestation_bitcoin hvalid.1 hvalid.2 as rest
  · intro tag payload levels message as rest _ hvalid
    rw [Item.tag, timestampFromTag]
    dsimp only
    rw [if_pos rfl, Item.attestations, List.append_nil]
    exact attestation_other hvalid.1 hvalid.2.1 hvalid.2.2 message as rest
  · exact fun op node h => readsItem_operation h
  · intro item h levels message rounds as rest hdepth hvalid _
    rw [Timestamp.spell, List.cons_append, byte, ok_bind]
    dsimp only
    rw [if_neg item.tag_ne_fork]
    exact h as rest hdepth hvalid
  · intro item tail hitem htail levels message rounds as rest hdepth hvalid hrounds
    rw [Timestamp.itemsDepth, max_le_iff] at hdepth
    rw [Timestamp.spell, List.length_cons, List.length_cons, List.length_append] at hrounds
    obtain ⟨rounds, rfl⟩ : ∃ k, rounds = k + 1 := ⟨rounds - 1, by omega⟩
    rw [Timestamp.spell, List.cons_append, byte, ok_bind]
    dsimp only
    rw [if_pos rfl, readItems, branches]
    dsimp only
    rw [timestamp, if_neg (Nat.succ_ne_zero levels), List.cons_append, byte, ok_bind]
    dsimp only
    rw [List.append_assoc, hitem as _ hdepth.1 hvalid.1, ok_bind]
    dsimp only
    rw [Timestamp.attestations, ← List.append_assoc]
    exact htail _ rest hdepth.2 hvalid.2 (by omega)

/-! ### Proofs -/

/-- **`inspect_proof` reads back what is written**: the Bitcoin attestations of the tree, in the order
in which they are written. -/
theorem inspectProof_detached {digest : List UInt8} {node : Timestamp} (hdigest : digest.length = 32)
    (hvalid : node.Valid sha256 digest) (hdepth : node.depth ≤ 256)
    (hbitcoin : node.attestations sha256 digest ≠ [])
    (hsize : (detached digest node).length ≤ 16 * 1024 * 1024) :
    inspectProof sha256 (detached digest node) digest = .ok (node.attestations sha256 digest) := by
  have hread := ((@reads_tree sha256).2 node).timestamp [] [] hdepth hvalid
  rw [List.append_nil, List.nil_append] at hread
  have hlimit : (detached digest node).length ≤ maxProofBytes := hsize
  rw [inspectProof, require_true hlimit, ok_bind, detached, take_eq_ok.2 ⟨rfl, rfl⟩, ok_bind]
  dsimp only
  rw [require_true rfl, ok_bind, byte, ok_bind]
  dsimp only
  rw [require_true rfl, ok_bind, byte, ok_bind]
  dsimp only
  rw [require_true rfl, ok_bind, take_eq_ok.2 ⟨hdigest, rfl⟩, ok_bind]
  dsimp only
  rw [require_true rfl, ok_bind, maxDepth, hread, ok_bind]
  dsimp only
  rw [require_true rfl, ok_bind, require_true hbitcoin]
  rfl

/-- A node with an unknown attestation, a Bitcoin attestation and an operation that leads to
another one. -/
def sampleTree : Timestamp :=
  .fork (.other [1, 2, 3, 4, 5, 6, 7, 8] [0xaa])
    (.fork (.bitcoin 358391) (.last (.operation (.append [0xab])
      (.last (.operation .sha256 (.last (.bitcoin 358392)))))))

/-- The tree of the sample keeps the limits. -/
theorem valid_sampleTree : sampleTree.Valid zeroDigest (List.replicate 32 7) := by
  simp only [sampleTree, Timestamp.Valid, Item.Valid, Operation.Valid, Operation.apply]
  decide

/-- The attestations of the sample, in the order of its file. -/
theorem inspectProof_detached_sample :
    inspectProof zeroDigest (detached (List.replicate 32 7) sampleTree) (List.replicate 32 7) =
      .ok [⟨358391, List.replicate 32 7⟩, ⟨358392, List.replicate 32 0⟩] :=
  inspectProof_detached (by decide) valid_sampleTree (by decide) (by decide) (by decide)

end Verifier
end Vestrix
