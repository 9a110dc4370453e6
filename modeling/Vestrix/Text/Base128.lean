/-
# Numbers in bytes of seven bits

A number in base 128, the lowest digit first: a byte has its digit in the seven low bits, and the
high bit of the last byte is clear.  Such a number may be written with more bytes than it
needs, where the last ones have a zero for a digit.
-/

import Mathlib.Data.List.Basic
import Mathlib.Tactic.Ring

namespace Vestrix
namespace Text

/-- The high bit of a byte is clear. -/
def isLastByte (b : UInt8) : Bool := decide (b.toNat < 128)

/-- The index of the byte that a number ends with. -/
def lastByte? (bytes : List UInt8) : Option ℕ := bytes.findIdx? isLastByte

/-- The number that digits of seven bits stand for. -/
def base128 : List UInt8 → ℕ
  | [] => 0
  | b :: bytes => b.toNat % 128 + 128 * base128 bytes

/-- The last byte of a number has the high bit clear. -/
theorem isLastByte_eq_true {b : UInt8} : isLastByte b = true ↔ b.toNat < 128 := decide_eq_true_iff

/-- A number of one byte is that byte. -/
theorem base128_singleton {b : UInt8} (h : b.toNat < 128) : base128 [b] = b.toNat := by
  rw [base128, base128, Nat.mul_zero, Nat.add_zero, Nat.mod_eq_of_lt h]

/-- Digits stand for a number that has no more of them. -/
theorem base128_lt (bytes : List UInt8) : base128 bytes < 128 ^ bytes.length := by
  induction bytes with
  | nil => exact Nat.one_pos
  | cons b bytes ih =>
    have hdigit : b.toNat % 128 < 128 := Nat.mod_lt _ (by decide)
    rw [base128, List.length_cons, pow_succ]
    omega

/-- There is no last byte among none. -/
@[simp] theorem lastByte?_nil : lastByte? [] = none := rfl

/-- A byte with the high bit clear is the last one. -/
theorem lastByte?_cons_of_lt {b : UInt8} (h : b.toNat < 128) (bytes : List UInt8) :
    lastByte? (b :: bytes) = some 0 := by
  rw [lastByte?, List.findIdx?_cons, if_pos (isLastByte_eq_true.2 h)]

/-- A byte with the high bit set is followed by the others. -/
theorem lastByte?_cons_of_le {b : UInt8} (h : 128 ≤ b.toNat) (bytes : List UInt8) :
    lastByte? (b :: bytes) = (lastByte? bytes).map (· + 1) := by
  rw [lastByte?, List.findIdx?_cons, if_neg (by rw [isLastByte_eq_true]; omega), lastByte?]

/-- The byte that a number ends with is among those that there are. -/
theorem lt_length_of_lastByte? {bytes : List UInt8} {i : ℕ} (h : lastByte? bytes = some i) :
    i < bytes.length := (List.findIdx?_eq_some_iff_getElem.1 h).1

end Text
end Vestrix
