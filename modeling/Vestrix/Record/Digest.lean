/-
# Digests

SHA-256 as both programs use it: a function to 32 bytes, shown as 64 hexadecimal digits.
Nothing else is assumed of it here; that it has no collisions is a hypothesis where it is
needed.
-/

import Vestrix.Text.Digits

namespace Vestrix
namespace Record

open Text

/-- A hash function with digests of 32 bytes. -/
structure Sha256 where
  digest : List UInt8 → List UInt8
  length_digest : ∀ m, (digest m).length = 32

/-- The digest in lowercase hexadecimal. -/
def Sha256.hexdigest (sha256 : Sha256) (m : List UInt8) : List Char := hex (sha256.digest m)

/-- Zeros are a digest of 32 bytes. -/
theorem length_zeros : ∀ _ : List UInt8, (List.replicate 32 (0 : UInt8)).length = 32 := fun _ => rfl

/-- Text of `n` lowercase hexadecimal digits. -/
def IsHex (n : ℕ) (t : List Char) : Prop := t.length = n ∧ ∀ c ∈ t, isLowerHex c = true

/-- Bytes in hexadecimal are two digits each. -/
theorem isHex_hex {bytes : List UInt8} {n : ℕ} (h : bytes.length = n) : IsHex (2 * n) (hex bytes) :=
  ⟨by rw [length_hex, h], fun _ => isLowerHex_of_mem_hex⟩

/-- A digest is 64 hexadecimal digits. -/
theorem Sha256.isHex_hexdigest (sha256 : Sha256) (m : List UInt8) : IsHex 64 (sha256.hexdigest m) :=
  isHex_hex (sha256.length_digest m)

/-- Sixty-four zeros, the link of the first record. -/
def genesis : List Char := List.replicate 64 '0'

/-- The digest before the first record is 64 hexadecimal digits. -/
theorem isHex_genesis : IsHex 64 genesis :=
  ⟨rfl, fun c hc => by rw [List.eq_of_mem_replicate hc]; rfl⟩

end Record
end Vestrix
