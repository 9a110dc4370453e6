/-
# The parser's cursor

The parser of `anchor.rs` as it runs: a position in the input that is read by index and by slice, and
three functions that call each other.  A slice that is out of range and an `expect` that
fails are panics, and a call that is nested deeper than the fuel is left.

It does what the parser on lists does, which has neither (`follows_call`): the position stays within
the input, and the fuel lasts because of three calls one at least takes a byte.  So
`inspect_proof` ends on every input with a result or an error (`inspectProof_settles`), and a
result is what the paths of the proof lead to (`hostile_proof`).
-/

import Vestrix.Verifier.Derivation

namespace Vestrix
namespace Verifier
namespace Cursor

open Text Outcome Record

/-- How a call ends that has no result. -/
inductive Stop where
  | error (reason : ProofReason)
  | panic
  | fuel
deriving DecidableEq

/-- A call on a position, which moves it. -/
abbrev Run (α : Type) := ℕ → Except Stop (α × ℕ)

section

variable (input : List UInt8)

/-- `&self.input[start..stop]`. -/
def slice (start stop : ℕ) : Except Stop (List UInt8) :=
  if start ≤ stop ∧ stop ≤ input.length then .ok ((input.drop start).take (stop - start)) else .error .panic

/-- `Parser::byte`. -/
def byte : Run UInt8 := fun position =>
  match input[position]? with
  | none => .error (.error .unexpectedEnd)
  | some b => .ok (b, position + 1)

/-- `Parser::take`. -/
def take (length : ℕ) : Run (List UInt8) := fun position => do
  require (position + length < 2 ^ 64 ∧ position + length ≤ input.length) (.error .unexpectedEnd)
  let bytes ← slice input position (position + length)
  return (bytes, position + length)

/-- The loop of `Parser::varuint`; shifting by 64 or more would panic. -/
def varuintFrom : ℕ → ℕ → ℕ → Run ℕ
  | 0, _, _ => fun _ => .error .fuel
  | fuel + 1, shift, value => fun position => do
    let (b, position) ← byte input position
    let chunk := b.toNat % 128
    require (shift < 64) .panic
    if (2 ^ 64 - 1) / 2 ^ shift < chunk then .error (.error .integerOverflow)
    else if b.toNat < 128 then .ok (value + chunk * 2 ^ shift, position)
    else if shift + 7 < 64 then varuintFrom fuel (shift + 7) (value + chunk * 2 ^ shift) position
    else .error (.error .integerOverflow)

/-- `Parser::varuint`. -/
def varuint (fuel : ℕ) : Run ℕ := varuintFrom input fuel 0 0

/-- `Parser::varbytes`. -/
def varbytes (fuel : ℕ) : Run (List UInt8) := fun position => do
  let (length, position) ← varuint input fuel position
  require (length ≤ maxArgumentBytes) (.error .byteStringLimit)
  take input length position

variable (sha256 : Sha256)

/-- `Parser::operation_from_tag`. -/
def operationFromTag (fuel : ℕ) (tag : UInt8) (message : List UInt8) : Run (List UInt8) := fun position =>
  if tag = 0x08 then .ok (sha256.digest message, position)
  else if tag = 0xf0 then do
    let (suffix, position) ← varbytes input fuel position
    (validateOpArgument suffix message.length).mapError .error
    return (message ++ suffix, position)
  else if tag = 0xf1 then do
    let (start, position) ← varbytes input fuel position
    (validateOpArgument start message.length).mapError .error
    return (start ++ message, position)
  else .error (.error (.operation tag))

/-- `Parser::attestation`, with a parser of its own for the payload. -/
def attestation (fuel : ℕ) (message : List UInt8) (attestations : List BitcoinAttestation) :
    Run (List BitcoinAttestation) := fun position => do
  let (tag, position) ← take input 8 position
  require (tag.length = 8) .panic
  let (payload, position) ← varbytes input fuel position
  require (payload.length ≤ maxAttestationBytes) (.error .payloadLimit)
  if tag = bitcoinAttestation then
    require (message.length = 32) (.error (.commitmentLength message.length))
    let (height, payloadPosition) ← varuint payload fuel 0
    require (payloadPosition = payload.length) (.error .payload)
    return (attestations ++ [⟨height, message⟩], position)
  else return (attestations, position)

/-- The functions that call each other: `timestamp`, `timestamp_from_tag` and the loop in it. -/
inductive Call where
  | timestamp
  | fromTag (tag : UInt8)
  | branches

/-- A call of one of the three. -/
def call : ℕ → Call → List UInt8 → ℕ → List BitcoinAttestation → Run (List BitcoinAttestation)
  | 0, _, _, _, _ => fun _ => .error .fuel
  | fuel + 1, .timestamp, message, depth, attestations => fun position =>
    if maxDepth < depth then .error (.error .tooDeep)
    else do
      let (tag, position) ← byte input position
      call fuel (.fromTag tag) message depth attestations position
  | fuel + 1, .fromTag tag, message, depth, attestations => fun position =>
    if maxDepth < depth then .error (.error .tooDeep)
    else if tag = 0x00 then attestation input fuel message attestations position
    else if tag = 0xff then call fuel .branches message depth attestations position
    else do
      let (next, position) ← operationFromTag input sha256 fuel tag message position
      call fuel .timestamp next (depth + 1) attestations position
  | fuel + 1, .branches, message, depth, attestations => fun position => do
    let (attestations, position) ← call fuel .timestamp message (depth + 1) attestations position
    let (nextTag, position) ← byte input position
    if nextTag = 0xff then call fuel .branches message depth attestations position
    else call fuel (.fromTag nextTag) message (depth + 1) attestations position

end

/-- `inspect_proof`, with the position at the end. -/
def inspectProof (sha256 : Sha256) (fuel : ℕ) (proof expectedDigest : List UInt8) :
    Except Stop (List BitcoinAttestation × ℕ) := do
  require (proof.length ≤ maxProofBytes) (.error .tooLarge)
  let (start, position) ← take proof magic.length 0
  require (start = magic) (.error .header)
  let (version, position) ← byte proof position
  require (version = 1) (.error (.version version))
  let (hashOp, position) ← byte proof position
  require (hashOp = 0x08) (.error (.hashOperation hashOp))
  let (digest, position) ← take proof 32 position
  require (digest = expectedDigest) (.error .digestMismatch)
  let (attestations, position) ← call proof sha256 fuel .timestamp expectedDigest 0 [] position
  require (position = proof.length) (.error .trailingBytes)
  require (attestations ≠ []) (.error .noAttestation)
  return (attestations, position)

/-! ### Following -/

/-- A run from a position does what a parser does with what is left of the input from there on. -/
inductive Follows {α : Type} (input : List UInt8) (position : ℕ) :
    Except ProofReason (α × List UInt8) → Except Stop (α × ℕ) → Prop
  | error (e : ProofReason) : Follows input position (.error e) (.error (.error e))
  | ok (a : α) {position' : ℕ} (hle : position ≤ position') (hend : position' ≤ input.length) :
      Follows input position (.ok (a, input.drop position')) (.ok (a, position'))

variable {α β : Type} {input : List UInt8} {position : ℕ} {sha256 : Sha256}

/-- What is done from a later position on is done from an earlier one. -/
theorem Follows.widen {r : Except ProofReason (α × List UInt8)} {c : Except Stop (α × ℕ)} {position' : ℕ}
    (h : Follows input position' r c) (hle : position ≤ position') : Follows input position r c := by
  cases h with
  | error e => exact .error e
  | ok a hle' hend => exact .ok a (hle.trans hle') hend

/-- The machine follows two parts if it follows the first, and the second from where that ends. -/
theorem Follows.bind {r : Except ProofReason (α × List UInt8)} {c : Except Stop (α × ℕ)}
    {f : α × List UInt8 → Except ProofReason (β × List UInt8)} {g : α × ℕ → Except Stop (β × ℕ)}
    (h : Follows input position r c)
    (hnext : ∀ a position', r = .ok (a, input.drop position') → position ≤ position' →
      position' ≤ input.length → Follows input position' (f (a, input.drop position')) (g (a, position'))) :
    Follows input position (r >>= f) (c >>= g) := by
  cases h with
  | error e => exact .error e
  | ok a hle hend => exact (hnext a _ rfl hle hend).widen hle

/-- A demand is made by both. -/
theorem Follows.require {p : Prop} [Decidable p] {e : ProofReason}
    {f : Unit → Except ProofReason (β × List UInt8)} {g : Unit → Except Stop (β × ℕ)}
    (h : p → Follows input position (f ()) (g ())) :
    Follows input position (Outcome.require p e >>= f) (Outcome.require p (.error e) >>= g) := by
  by_cases hp : p
  · rw [require_true hp, require_true hp]
    exact h hp
  · rw [require_false hp, require_false hp]
    exact .error e

/-- A byte that is read moves both on by one. -/
theorem Follows.byte {f : UInt8 × List UInt8 → Except ProofReason (β × List UInt8)}
    {g : UInt8 × ℕ → Except Stop (β × ℕ)}
    (h : ∀ b, position < input.length →
      Follows input (position + 1) (f (b, input.drop (position + 1))) (g (b, position + 1))) :
    Follows input position (Verifier.byte (input.drop position) >>= f) (byte input position >>= g) := by
  rcases lt_or_ge position input.length with hlt | hge
  · rw [List.drop_eq_getElem_cons hlt, Verifier.byte, ok_bind, Cursor.byte, List.getElem?_eq_getElem hlt]
    exact (h input[position] hlt).widen (Nat.le_succ position)
  · rw [List.drop_eq_nil_of_le hge, Cursor.byte, List.getElem?_eq_none hge]
    exact .error _

/-- `take` follows, on an input that a machine can hold. -/
theorem follows_take {length : ℕ} (hposition : position ≤ input.length) (hinput : input.length < 2 ^ 64) :
    Follows input position (Verifier.take length (input.drop position)) (take input length position) := by
  by_cases hle : position + length ≤ input.length
  · have hlist : length ≤ (input.drop position).length := by
      rw [List.length_drop]
      omega
    have hslice : slice input position (position + length) = .ok ((input.drop position).take length) := by
      rw [slice, if_pos ⟨Nat.le_add_right _ _, hle⟩, Nat.add_sub_cancel_left]
    rw [Verifier.take, require_true hlist, take, require_true ⟨by omega, hle⟩, ok_bind, ok_bind, hslice,
      List.drop_drop]
    exact .ok _ (Nat.le_add_right _ _) hle
  · have hlist : ¬ length ≤ (input.drop position).length := by
      rw [List.length_drop]
      omega
    rw [Verifier.take, require_false hlist, take, require_false fun h => hle h.2]
    exact .error _

/-- A variable integer takes a byte in each round, and no shift is too large. -/
theorem follows_varuintFrom {fuel shift value : ℕ} (hshift : shift < 64)
    (hfuel : input.length - position < fuel) : Follows input position
      (Verifier.varuintFrom shift value (input.drop position)) (varuintFrom input fuel shift value position) := by
  induction fuel generalizing shift value position with
  | zero => exact absurd hfuel (Nat.not_lt_zero _)
  | succ fuel ih =>
    have hcons : ∀ rest, Verifier.varuintFrom shift value rest = Verifier.byte rest >>= fun r =>
        if (2 ^ 64 - 1) / 2 ^ shift < r.1.toNat % 128 then .error .integerOverflow
        else if r.1.toNat < 128 then .ok (value + r.1.toNat % 128 * 2 ^ shift, r.2)
        else if shift + 7 < 64 then
          Verifier.varuintFrom (shift + 7) (value + r.1.toNat % 128 * 2 ^ shift) r.2
        else .error .integerOverflow := by
      intro rest
      cases rest with
      | nil => rfl
      | cons b rest => rfl
    rw [hcons, varuintFrom]
    refine .byte fun b hlt => ?_
    dsimp only
    rw [require_true hshift, ok_bind]
    split_ifs with hoverflow hlast hnext
    · exact .error _
    · exact .ok _ le_rfl hlt
    · exact ih hnext (by omega)
    · exact .error _

/-- `varuint` follows, with fuel for the rest of the input. -/
theorem follows_varuint {fuel : ℕ} (hfuel : input.length - position < fuel) :
    Follows input position (Verifier.varuint (input.drop position)) (varuint input fuel position) :=
  follows_varuintFrom (by decide) hfuel

/-- `varbytes` follows, with fuel for the rest of the input. -/
theorem follows_varbytes {fuel : ℕ} (hinput : input.length < 2 ^ 64)
    (hfuel : input.length - position < fuel) :
    Follows input position (Verifier.varbytes (input.drop position)) (varbytes input fuel position) := by
  refine (follows_varuint hfuel).bind fun length position' _ _ hend => ?_
  dsimp only
  exact .require fun _ => follows_take hend hinput

/-- An operation follows, with fuel for the rest of the input. -/
theorem follows_operationFromTag {fuel : ℕ} {tag : UInt8} {message : List UInt8}
    (hinput : input.length < 2 ^ 64) (hposition : position ≤ input.length)
    (hfuel : input.length - position < fuel) : Follows input position
      (Verifier.operationFromTag sha256 tag message (input.drop position))
      (operationFromTag input sha256 fuel tag message position) := by
  have hargument : ∀ {argument output : List UInt8} {position' : ℕ}, position' ≤ input.length →
      Follows input position'
        (validateOpArgument argument message.length >>= fun _ => .ok (output, input.drop position'))
        ((validateOpArgument argument message.length).mapError .error >>= fun _ => .ok (output, position')) := by
    intro argument output position' hend
    cases validateOpArgument argument message.length with
    | error e => exact .error e
    | ok u => exact .ok _ le_rfl hend
  rw [Verifier.operationFromTag, operationFromTag]
  split_ifs
  · exact .ok _ le_rfl hposition
  · exact (follows_varbytes hinput hfuel).bind fun _ _ _ _ hend => hargument hend
  · exact (follows_varbytes hinput hfuel).bind fun _ _ _ _ hend => hargument hend
  · exact .error _

/-- What a parser leaves is the end of what it was given. -/
theorem Follows.suffix {c : Except Stop (α × ℕ)} {a : α} {rest : List UInt8}
    (h : Follows input position (.ok (a, rest)) c) : rest <:+ input.drop position := by
  cases h with
  | ok a hle hend =>
    obtain ⟨k, rfl⟩ := Nat.exists_eq_add_of_le hle
    rw [← List.drop_drop]
    exact List.drop_suffix _ _

/-- What follows a number is in the input. -/
theorem varuint_suffix {start rest : List UInt8} {n : ℕ} (h : Verifier.varuint start = .ok (n, rest)) :
    rest <:+ start := by
  have hfollows : Follows start 0 (Verifier.varuint (start.drop 0)) _ :=
    follows_varuint (Nat.lt_succ_self start.length)
  rw [List.drop_zero, h] at hfollows
  exact hfollows.suffix

/-- A byte string is no longer than what is left of the input. -/
theorem length_of_varbytes {bytes rest start : List UInt8} (h : Verifier.varbytes start = .ok (bytes, rest)) :
    bytes.length ≤ start.length := by
  obtain ⟨⟨length, rest'⟩, hvaruint, h⟩ := bind_eq_ok.1 h
  obtain ⟨_, -, h⟩ := bind_eq_ok.1 h
  obtain ⟨-, hrest'⟩ := take_eq_ok.1 h
  have hle := (varuint_suffix hvaruint).length_le
  rw [hrest', List.length_append] at hle
  omega

/-- An attestation follows, with fuel for the rest of the input. -/
theorem follows_attestation {fuel : ℕ} {message : List UInt8} {as : List BitcoinAttestation}
    (hinput : input.length < 2 ^ 64) (hposition : position ≤ input.length)
    (hfuel : input.length - position < fuel) : Follows input position
      (Verifier.attestation message as (input.drop position))
      (attestation input fuel message as position) := by
  refine (follows_take hposition hinput).bind fun tag position₁ htag hle₁ hend₁ => ?_
  dsimp only
  rw [require_true (take_eq_ok.1 htag).1, ok_bind]
  refine (follows_varbytes hinput (by omega)).bind fun payload position₂ hpayload hle₂ hend₂ => ?_
  dsimp only
  refine .require fun _ => ?_
  split_ifs with hbitcoin
  · refine .require fun _ => ?_
    have hlength := length_of_varbytes hpayload
    rw [List.length_drop] at hlength
    -- the payload has a parser of its own, which must end where the payload does
    have hheight : Follows payload 0 (Verifier.varuint (payload.drop 0)) (varuint payload fuel 0) :=
      follows_varuint (by omega)
    rw [List.drop_zero] at hheight
    generalize Verifier.varuint payload = r at hheight ⊢
    generalize varuint payload fuel 0 = c at hheight ⊢
    cases hheight with
    | error e => exact .error e
    | @ok height position₃ hle hend =>
      have hfinished : payload.drop position₃ = [] ↔ position₃ = payload.length := by
        rw [List.drop_eq_nil_iff]
        omega
      rw [ok_bind, ok_bind]
      dsimp only
      by_cases h : position₃ = payload.length
      · rw [require_true h, require_true (hfinished.2 h)]
        exact .ok _ le_rfl hend₂
      · rw [require_false h, require_false fun h' => h (hfinished.1 h')]
        exact .error _
  · exact .ok _ le_rfl hend₂

/-! ### Calls -/

/-- A run of the loop does what the loop over branches does, with a round for each byte that is left. -/
def FollowsBranches (input : List UInt8) (sha256 : Sha256) (fuel : ℕ) : Prop :=
  ∀ ⦃message depth rounds as position⦄, position ≤ input.length → depth ≤ maxDepth →
    input.length - position < rounds → 3 * (input.length - position) + 2 ≤ fuel →
    Follows input position
      (branches (fun as => Verifier.timestamp (maxDepth - depth) fun tag =>
          Verifier.timestampFromTag sha256 (maxDepth - depth) tag message as)
        (fun tag => Verifier.timestampFromTag sha256 (maxDepth - depth) tag message) rounds as
        (input.drop position))
      (call input sha256 fuel .branches message depth as position)

/-- A run of `timestamp` does what `timestamp` does. -/
def FollowsTimestamp (input : List UInt8) (sha256 : Sha256) (fuel : ℕ) : Prop :=
  ∀ ⦃message depth as position⦄, position ≤ input.length → depth ≤ maxDepth + 1 →
    3 * (input.length - position) + 1 ≤ fuel →
    Follows input position
      (Verifier.timestamp (maxDepth + 1 - depth) (fun tag =>
        Verifier.timestampFromTag sha256 (maxDepth + 1 - depth) tag message as) (input.drop position))
      (call input sha256 fuel .timestamp message depth as position)

/-- A run of `timestamp_from_tag` does what `timestamp_from_tag` does. -/
def FollowsFromTag (input : List UInt8) (sha256 : Sha256) (fuel : ℕ) : Prop :=
  ∀ ⦃tag message depth as position⦄, position ≤ input.length → depth ≤ maxDepth + 1 →
    3 * (input.length - position) + 3 ≤ fuel →
    Follows input position
      (Verifier.timestampFromTag sha256 (maxDepth + 1 - depth) tag message as (input.drop position))
      (call input sha256 fuel (.fromTag tag) message depth as position)

/-- A node follows with one more unit of fuel, if what comes after its tag does. -/
theorem follows_timestamp {fuel : ℕ} (h : FollowsFromTag input sha256 fuel) :
    FollowsTimestamp input sha256 (fuel + 1) := by
  intro message depth as position hposition hdepth hfuel
  rw [Verifier.timestamp, call]
  dsimp only
  by_cases hdeep : maxDepth < depth
  · rw [if_pos (by omega : maxDepth + 1 - depth = 0), if_pos hdeep]
    exact .error _
  · rw [if_neg (by omega : ¬ maxDepth + 1 - depth = 0), if_neg hdeep]
    exact .byte fun tag hlt => h hlt hdepth (by omega)

/-- What comes after a tag follows with one more unit of fuel, if the nodes and the branches do. -/
theorem follows_fromTag {fuel : ℕ} (hinput : input.length < 2 ^ 64)
    (htimestamp : FollowsTimestamp input sha256 fuel) (hbranches : FollowsBranches input sha256 fuel) :
    FollowsFromTag input sha256 (fuel + 1) := by
  intro tag message depth as position hposition hdepth hfuel
  rw [call]
  dsimp only
  by_cases hdeep : maxDepth < depth
  · obtain rfl : depth = maxDepth + 1 := by omega
    rw [Nat.sub_self, if_pos hdeep]
    exact .error _
  · rw [if_neg hdeep, show maxDepth + 1 - depth = maxDepth - depth + 1 by omega,
      Verifier.timestampFromTag]
    dsimp only
    split_ifs with hattestation hfork
    · exact follows_attestation hinput hposition (by omega)
    · refine hbranches hposition (by omega) ?_ (by omega)
      rw [List.length_drop]
      omega
    · refine (follows_operationFromTag hinput hposition (by omega)).bind fun next position' _ hle hend => ?_
      dsimp only
      have hnext := @htimestamp next (depth + 1) as position' hend (by omega) (by omega)
      rwa [Nat.add_sub_add_right] at hnext

/-- The branches follow with one more unit of fuel, if the nodes and the other branches do. -/
theorem follows_branches {fuel : ℕ} (htimestamp : FollowsTimestamp input sha256 fuel)
    (hfromTag : FollowsFromTag input sha256 fuel) (hbranches : FollowsBranches input sha256 fuel) :
    FollowsBranches input sha256 (fuel + 1) := by
  intro message depth rounds as position hposition hdepth hrounds hfuel
  obtain ⟨rounds, rfl⟩ : ∃ k, rounds = k + 1 := ⟨rounds - 1, by omega⟩
  rw [call, branches]
  dsimp only
  have hbranch := @htimestamp message (depth + 1) as position hposition (by omega) (by omega)
  rw [Nat.add_sub_add_right] at hbranch
  refine hbranch.bind fun as' position' _ hle hend => ?_
  dsimp only
  refine .byte fun nextTag hlt => ?_
  dsimp only
  split_ifs with hfork
  · exact hbranches hlt hdepth (by omega) (by omega)
  · have hlast := @hfromTag nextTag message (depth + 1) as' (position' + 1) hlt (by omega) (by omega)
    rwa [Nat.add_sub_add_right] at hlast

/-- **A run with enough fuel does what the parser on lists does.** -/
theorem follows_call (hinput : input.length < 2 ^ 64) (fuel : ℕ) : FollowsTimestamp input sha256 fuel ∧
    FollowsFromTag input sha256 fuel ∧ FollowsBranches input sha256 fuel := by
  induction fuel with
  | zero =>
    refine ⟨?_, ?_, ?_⟩
    · intro message depth as position _ _ hfuel
      exact absurd hfuel (Nat.not_succ_le_zero _)
    · intro tag message depth as position _ _ hfuel
      exact absurd hfuel (Nat.not_succ_le_zero _)
    · intro message depth rounds as position _ _ _ hfuel
      exact absurd hfuel (Nat.not_succ_le_zero _)
  | succ fuel ih =>
    obtain ⟨htimestamp, hfromTag, hbranches⟩ := ih
    exact ⟨follows_timestamp hfromTag, follows_fromTag hinput htimestamp hbranches,
      follows_branches htimestamp hfromTag hbranches⟩

/-! ### Proofs -/

/-- `byte` follows. -/
theorem follows_byte :
    Follows input position (Verifier.byte (input.drop position)) (byte input position) := by
  rcases lt_or_ge position input.length with hlt | hge
  · rw [List.drop_eq_getElem_cons hlt, Verifier.byte, Cursor.byte, List.getElem?_eq_getElem hlt]
    exact .ok _ (Nat.le_succ position) hlt
  · rw [List.drop_eq_nil_of_le hge, Cursor.byte, List.getElem?_eq_none hge]
    exact .error _

/-- A run over a whole proof ends as a parser does, at the end of the proof if there is a result. -/
def Settles (proof : List UInt8) (r : Except ProofReason (List BitcoinAttestation))
    (c : Except Stop (List BitcoinAttestation × ℕ)) : Prop :=
  c = (r.map fun as => (as, proof.length)).mapError .error

section

variable {proof digest : List UInt8}

/-- A demand is made by both, and settles the proof. -/
theorem Settles.require {p : Prop} [Decidable p] {e : ProofReason}
    {f : Unit → Except ProofReason (List BitcoinAttestation)}
    {g : Unit → Except Stop (List BitcoinAttestation × ℕ)} (h : p → Settles proof (f ()) (g ())) :
    Settles proof (Outcome.require p e >>= f) (Outcome.require p (.error e) >>= g) := by
  by_cases hp : p
  · rw [require_true hp, require_true hp]
    exact h hp
  · rw [require_false hp, require_false hp]
    rfl

/-- A part that the machine follows settles the proof if the rest does. -/
theorem Follows.settles {r : Except ProofReason (α × List UInt8)} {c : Except Stop (α × ℕ)}
    {f : α × List UInt8 → Except ProofReason (List BitcoinAttestation)}
    {g : α × ℕ → Except Stop (List BitcoinAttestation × ℕ)} (h : Follows proof position r c)
    (hnext : ∀ a position', position' ≤ proof.length →
      Settles proof (f (a, proof.drop position')) (g (a, position'))) :
    Settles proof (r >>= f) (c >>= g) := by
  cases h with
  | error e => rfl
  | ok a hle hend => exact hnext a _ hend

/-- **`inspect_proof` ends on every input**, with the result or the error that the parser on lists
has. -/
theorem inspectProof_settles {fuel : ℕ} (hfuel : 3 * proof.length + 1 ≤ fuel) :
    Settles proof (Verifier.inspectProof sha256 proof digest) (inspectProof sha256 fuel proof digest) := by
  rw [Verifier.inspectProof, inspectProof]
  refine .require fun hsize => ?_
  have hlength : proof.length < 2 ^ 64 := hsize.trans_lt (by decide)
  have hstart := @follows_take proof 0 magic.length (Nat.zero_le _) hlength
  rw [List.drop_zero] at hstart
  refine hstart.settles fun start position₁ _ => .require fun _ => ?_
  refine follows_byte.settles fun version position₂ _ => .require fun _ => ?_
  refine follows_byte.settles fun hashOp position₃ hend₃ => .require fun _ => ?_
  refine (follows_take hend₃ hlength).settles fun found position₄ hend₄ => .require fun _ => ?_
  have htimestamp := @(@follows_call proof sha256 hlength fuel).1 digest 0 [] position₄ hend₄
    (Nat.zero_le _) (by omega)
  rw [Nat.sub_zero] at htimestamp
  refine htimestamp.settles fun as position₅ hend₅ => ?_
  dsimp only
  have hfinished : proof.drop position₅ = [] ↔ position₅ = proof.length := by
    rw [List.drop_eq_nil_iff]
    omega
  by_cases h : position₅ = proof.length
  · rw [require_true h, require_true (hfinished.2 h), ok_bind, ok_bind, h]
    refine .require fun _ => rfl
  · rw [require_false h, require_false fun h' => h (hfinished.1 h')]
    rfl

end

end Cursor

open Outcome Record

/-- **Any proof is safe to inspect**: the parser ends with a result or an error, without a panic, and a
result has read the proof to its end and has the attestation of each path of the proof, in their order. -/
theorem hostile_proof (sha256 : Sha256) {proof digest : List UInt8} (_ : digest.length = 32)
    {fuel : ℕ} (hfuel : 3 * proof.length + 1 ≤ fuel) :
    (∃ r : Except ProofReason (List BitcoinAttestation × ℕ),
      Cursor.inspectProof sha256 fuel proof digest = r.mapError .error) ∧
      ∀ as position, Cursor.inspectProof sha256 fuel proof digest = .ok (as, position) →
        position = proof.length ∧ as ≠ [] ∧ ∃ paths, Leads sha256 proof digest paths ∧
          as = paths.map (Path.attestation sha256 digest) := by
  have hsettles : Cursor.inspectProof sha256 fuel proof digest = _ :=
    Cursor.inspectProof_settles hfuel
  refine ⟨⟨_, hsettles⟩, fun as position h => ?_⟩
  obtain ⟨as', has', hresult⟩ := map_eq_ok.1 (mapError_eq_ok.1 (hsettles.symm.trans h))
  obtain ⟨rfl, rfl⟩ := Prod.mk.inj hresult
  exact ⟨rfl, inspectProof_ne_nil has', inspectProof_leads has'⟩

/-- A proof with a fork in a fork: two attestations, and between them an operation to a third one. -/
def nestedProof : List UInt8 :=
  magic ++ [1, 8] ++ List.replicate 32 0xaa ++ [0xff, 0xff, 0x00] ++ bitcoinAttestation ++ [1, 42] ++
    [0xf0, 1, 7, 0x08, 0x00] ++ bitcoinAttestation ++ [1, 43] ++ [0x00] ++ bitcoinAttestation ++ [1, 44]

/-- A nested proof has the attestations of its paths. -/
theorem hostile_proof_sample : ∃ paths, Leads zeroDigest nestedProof (List.replicate 32 0xaa) paths ∧
    [⟨42, List.replicate 32 0xaa⟩, ⟨43, List.replicate 32 0⟩, ⟨44, List.replicate 32 0xaa⟩] =
      paths.map (Path.attestation zeroDigest (List.replicate 32 0xaa)) := by
  have hresult : Cursor.inspectProof zeroDigest (3 * nestedProof.length + 1) nestedProof
      (List.replicate 32 0xaa) = .ok ([⟨42, List.replicate 32 0xaa⟩, ⟨43, List.replicate 32 0⟩,
        ⟨44, List.replicate 32 0xaa⟩], nestedProof.length) := by
    decide +kernel
  exact ((hostile_proof zeroDigest (by decide) le_rfl).2 _ _ hresult).2.2

end Verifier
end Vestrix
