/-
# The parser of a proof

The operations and attestations of a detached OpenTimestamps proof, as the parser of `anchor.rs`
reads them.  What is left of the input is the state of the parser; a proof is a tree, and
where it forks the branches are read one after the other.
-/

import Vestrix.Outcome
import Vestrix.Record.Digest

namespace Vestrix
namespace Verifier

open Text Outcome Record

/-- The texts of `inspect_proof` and of what it calls. -/
inductive ProofReason where
  | tooLarge
  | header
  | version (version : UInt8)
  | hashOperation (tag : UInt8)
  | digestMismatch
  | trailingBytes
  | noAttestation
  | unexpectedEnd
  | integerOverflow
  | byteStringLimit
  | tooDeep
  | payloadLimit
  | commitmentLength (length : ℕ)
  | payload
  | operation (tag : UInt8)
  | argumentLength
  | resultLength
deriving DecidableEq

/-- `BitcoinAttestation`. -/
structure BitcoinAttestation where
  height : ℕ
  commitment : List UInt8
deriving DecidableEq

/-! ### The parser -/

/-- `MAGIC`. -/
def magic : List UInt8 :=
  [0x00, 0x4f, 0x70, 0x65, 0x6e, 0x54, 0x69, 0x6d, 0x65, 0x73, 0x74, 0x61, 0x6d, 0x70, 0x73, 0x00, 0x00,
    0x50, 0x72, 0x6f, 0x6f, 0x66, 0x00, 0xbf, 0x89, 0xe2, 0xe8, 0x84, 0xe8, 0x92, 0x94]

/-- `BITCOIN_ATTESTATION`. -/
def bitcoinAttestation : List UInt8 := [0x05, 0x88, 0x96, 0x0d, 0x73, 0xd7, 0x19, 0x01]

def maxProofBytes : ℕ := 16 * 1024 * 1024

def maxArgumentBytes : ℕ := 4 * 1024 * 1024

def maxAttestationBytes : ℕ := 8192

def maxOpBytes : ℕ := 4096

def maxDepth : ℕ := 256

/-- A parser: what is left of the input is its state. -/
abbrev Parser (α : Type) := List UInt8 → Except ProofReason (α × List UInt8)

/-- `Parser::byte`. -/
def byte : Parser UInt8
  | [] => .error .unexpectedEnd
  | b :: input => .ok (b, input)

/-- `Parser::take`. -/
def take (length : ℕ) : Parser (List UInt8) := fun input => do
  require (length ≤ input.length) .unexpectedEnd
  return (input.take length, input.drop length)

/-- `Parser::varuint`, from a shift and what was read before. -/
def varuintFrom (shift value : ℕ) : Parser ℕ
  | [] => .error .unexpectedEnd
  | b :: input =>
    let chunk := b.toNat % 128
    if (2 ^ 64 - 1) / 2 ^ shift < chunk then .error .integerOverflow
    else if b.toNat < 128 then .ok (value + chunk * 2 ^ shift, input)
    else if shift + 7 < 64 then varuintFrom (shift + 7) (value + chunk * 2 ^ shift) input
    else .error .integerOverflow

/-- `Parser::varuint`. -/
def varuint : Parser ℕ := varuintFrom 0 0

/-- `Parser::varbytes`. -/
def varbytes : Parser (List UInt8) := fun input => do
  let (length, input) ← varuint input
  require (length ≤ maxArgumentBytes) .byteStringLimit
  take length input

/-- `validate_op_argument`. -/
def validateOpArgument (argument : List UInt8) (messageLength : ℕ) : Except ProofReason Unit := do
  require (argument ≠ [] ∧ argument.length ≤ maxOpBytes) .argumentLength
  require (messageLength + argument.length ≤ maxOpBytes) .resultLength

section

variable (sha256 : Sha256)

/-- `Parser::operation_from_tag`. -/
def operationFromTag (tag : UInt8) (message : List UInt8) : Parser (List UInt8) := fun input =>
  if tag = 0x08 then .ok (sha256.digest message, input)
  else if tag = 0xf0 then do
    let (suffix, input) ← varbytes input
    validateOpArgument suffix message.length
    return (message ++ suffix, input)
  else if tag = 0xf1 then do
    let (start, input) ← varbytes input
    validateOpArgument start message.length
    return (start ++ message, input)
  else .error (.operation tag)

/-- `Parser::attestation`: the attestations that it adds to those before. -/
def attestation (message : List UInt8) (attestations : List BitcoinAttestation) :
    Parser (List BitcoinAttestation) := fun input => do
  let (tag, input) ← take 8 input
  let (payload, input) ← varbytes input
  require (payload.length ≤ maxAttestationBytes) .payloadLimit
  if tag = bitcoinAttestation then
    require (message.length = 32) (.commitmentLength message.length)
    let (height, rest) ← varuint payload
    require (rest = []) .payload
    return (attestations ++ [⟨height, message⟩], input)
  else return (attestations, input)

/-- The loop of `Parser::timestamp_from_tag` over branches: `timestamp` reads a branch, and
`fromTag` reads the last one from its tag on.  Each round takes a byte at least. -/
def branches (timestamp : List BitcoinAttestation → Parser (List BitcoinAttestation))
    (fromTag : UInt8 → List BitcoinAttestation → Parser (List BitcoinAttestation)) :
    ℕ → List BitcoinAttestation → Parser (List BitcoinAttestation)
  | 0, _ => fun _ => .error .unexpectedEnd
  | rounds + 1, attestations => fun input => do
    let (attestations, input) ← timestamp attestations input
    let (nextTag, input) ← byte input
    if nextTag = 0xff then branches timestamp fromTag rounds attestations input
    else fromTag nextTag attestations input

/-- `Parser::timestamp`, with the levels that are left before the nesting is too deep; `fromTag` is
`timestamp_from_tag` at the same depth. -/
def timestamp (levels : ℕ) (fromTag : UInt8 → Parser (List BitcoinAttestation)) :
    Parser (List BitcoinAttestation) := fun input =>
  if levels = 0 then .error .tooDeep
  else do
    let (tag, input) ← byte input
    fromTag tag input

/-- `Parser::timestamp_from_tag`. -/
def timestampFromTag : ℕ → UInt8 → List UInt8 → List BitcoinAttestation →
    Parser (List BitcoinAttestation)
  | 0, _, _, _ => fun _ => .error .tooDeep
  | levels + 1, tag, message, attestations => fun input =>
    if tag = 0x00 then attestation message attestations input
    else if tag = 0xff then
      branches (fun attestations => timestamp levels fun tag =>
          timestampFromTag levels tag message attestations)
        (fun tag => timestampFromTag levels tag message) (input.length + 1) attestations input
    else do
      let (next, input) ← operationFromTag sha256 tag message input
      timestamp levels (fun tag => timestampFromTag levels tag next attestations) input

/-- `inspect_proof`. -/
def inspectProof (proof expectedDigest : List UInt8) :
    Except ProofReason (List BitcoinAttestation) := do
  require (proof.length ≤ maxProofBytes) .tooLarge
  let (start, input) ← take magic.length proof
  require (start = magic) .header
  let (version, input) ← byte input
  require (version = 1) (.version version)
  let (hashOp, input) ← byte input
  require (hashOp = 0x08) (.hashOperation hashOp)
  let (digest, input) ← take 32 input
  require (digest = expectedDigest) .digestMismatch
  let (attestations, input) ← timestamp (maxDepth + 1)
    (fun tag => timestampFromTag sha256 (maxDepth + 1) tag expectedDigest []) input
  require (input = []) .trailingBytes
  require (attestations ≠ []) .noAttestation
  return attestations

end

/-! ### What it takes -/

/-- `take` returns the first `n` bytes, if there are so many. -/
theorem take_eq_ok {n : ℕ} {input bytes rest : List UInt8} :
    take n input = .ok (bytes, rest) ↔ bytes.length = n ∧ input = bytes ++ rest := by
  simp only [take, bind_eq_ok, require_eq_ok, exists_and_left, exists_const]
  constructor
  · rintro ⟨hle, h⟩
    obtain ⟨rfl, rfl⟩ := Prod.mk.inj (Except.ok.inj h)
    exact ⟨List.length_take_of_le hle, (List.take_append_drop n input).symm⟩
  · rintro ⟨rfl, rfl⟩
    refine ⟨by rw [List.length_append]; exact Nat.le_add_right _ _, ?_⟩
    rw [List.take_left, List.drop_left]
    rfl

/-- `byte` returns the first byte, if there is one. -/
theorem byte_eq_ok {input rest : List UInt8} {b : UInt8} :
    byte input = .ok (b, rest) ↔ input = b :: rest := by
  cases input with
  | nil => exact ⟨fun h => (nomatch h), fun h => (nomatch h)⟩
  | cons c input => rw [byte, Except.ok.injEq, Prod.mk.injEq, List.cons.injEq]

/-- A proof for the digest that it names, with an attestation and no operation. -/
def sampleProof : List UInt8 :=
  magic ++ [1, 8] ++ List.replicate 32 0xaa ++ [0x00] ++ bitcoinAttestation ++ [1, 42]

/-- A hash function. -/
def zeroDigest : Sha256 := ⟨fun _ => List.replicate 32 0, length_zeros⟩

end Verifier
end Vestrix
