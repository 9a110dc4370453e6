/-
# Numbers of a fixed width

A number with zeros in front, so that all numbers of a field have as many digits.  Among digit
strings of one length the order of the strings is that of the numbers (`lt_of_digitsValue_lt`), and
where texts agree in the lengths of their fields, the first field that differs decides
(`append_lt_append`).
-/

import Vestrix.Text.Digits
import Mathlib.Data.List.Lex

namespace Vestrix
namespace Text

/-- `%0wd`. -/
def padded (width n : ℕ) : List Char := List.replicate (width - (numeral n).length) '0' ++ numeral n

section

variable {width m n : ℕ}

/-- A number that fits is written with exactly `width` digits. -/
theorem length_padded (hw : 0 < width) (hn : n < 10 ^ width) : (padded width n).length = width := by
  have hlen : (numeral n).length ≤ width := (Nat.length_toDigits_le_iff (by decide) hw).2 hn
  rw [padded, List.length_append, List.length_replicate]
  omega

/-- A padded number has digits only. -/
theorem allDigits_padded : AllDigits (padded width n) := by
  intro d hd
  rcases List.mem_append.1 hd with hd | hd
  · rw [List.eq_of_mem_replicate hd]
    rfl
  · exact allDigits_numeral n d hd

/-- Padding leaves the value. -/
@[simp] theorem digitsValue_padded : digitsValue (padded width n) = n := by
  rw [padded, digitsValue_append, digitsValue_zeros, digitsValue_numeral, Nat.zero_mul, Nat.zero_add]

end

/-! ### The order of texts -/

/-- The first of two parts decides when it differs. -/
theorem append_lt_append {a c : List Char} (h : a.length = c.length) (hlt : a < c) (b d : List Char) :
    a ++ b < c ++ d := by
  induction a generalizing c with
  | nil =>
    rw [List.length_eq_zero_iff.1 h.symm] at hlt
    exact absurd hlt (List.not_lt_nil _)
  | cons x a ih =>
    obtain ⟨y, c, rfl⟩ := List.exists_cons_of_length_eq_add_one h.symm
    rw [List.cons_append, List.cons_append, List.cons_lt_cons_iff]
    rcases List.cons_lt_cons_iff.1 hlt with hxy | ⟨rfl, hac⟩
    · exact Or.inl hxy
    · exact Or.inr ⟨rfl, ih (Nat.succ.inj h) hac⟩

/-- The second of two parts decides when the first does not differ. -/
theorem append_lt_append_left (a : List Char) {b d : List Char} (h : b < d) : a ++ b < a ++ d := by
  induction a with
  | nil => exact h
  | cons x a ih => exact List.cons_lt_cons_iff.2 (Or.inr ⟨rfl, ih⟩)

/-- The digits stand in order, from `0` on. -/
theorem toNat_digit {c : Char} (h : c.isDigit = true) : c.toNat = 48 + digitsValue [c] := by
  have hle : '0'.toNat ≤ c.toNat := by
    rw [Char.isDigit, Bool.and_eq_true, decide_eq_true_eq, decide_eq_true_eq] at h
    exact h.1
  simp only [digitsValue, Nat.ofDigitChars_cons, Nat.ofDigitChars_nil, Nat.mul_zero, Nat.zero_add]
  exact (Nat.add_sub_cancel' hle).symm

/-- **Among digits of one length, the larger number is the larger text.** -/
theorem lt_of_digitsValue_lt {s t : List Char} (hs : AllDigits s) (ht : AllDigits t)
    (hlen : s.length = t.length) (h : digitsValue s < digitsValue t) : s < t := by
  induction s generalizing t with
  | nil =>
    rw [List.length_eq_zero_iff.1 hlen.symm] at h
    exact absurd h (lt_irrefl _)
  | cons c s ih =>
    obtain ⟨d, t, rfl⟩ := List.exists_cons_of_length_eq_add_one hlen.symm
    obtain ⟨hc, hs⟩ := List.forall_mem_cons.1 hs
    obtain ⟨hd, ht⟩ := List.forall_mem_cons.1 ht
    have hlen : s.length = t.length := Nat.succ.inj hlen
    have hbound := digitsValue_lt ht
    rw [← List.singleton_append, ← List.singleton_append (x := d), digitsValue_append, digitsValue_append,
      hlen] at h
    rw [List.cons_lt_cons_iff]
    rcases lt_trichotomy (digitsValue [c]) (digitsValue [d]) with hlt | heq | hgt
    · have hc := toNat_digit hc
      have hd := toNat_digit hd
      refine Or.inl (UInt32.lt_iff_toNat_lt.2 ?_)
      show c.toNat < d.toNat
      omega
    · refine Or.inr ⟨?_, ih hs ht hlen ?_⟩
      · rw [← Char.toNat_inj, toNat_digit hc, toNat_digit hd, heq]
      · rw [heq] at h
        omega
    · -- a larger first digit outweighs what follows
      have hmul := Nat.mul_le_mul_right (10 ^ t.length) hgt
      rw [Nat.succ_mul] at hmul
      omega

/-- **Numbers of one width are ordered as texts** as they are as numbers. -/
theorem padded_lt_padded {width m n : ℕ} (hw : 0 < width) (hn : n < 10 ^ width) (h : m < n) :
    padded width m < padded width n := by
  refine lt_of_digitsValue_lt allDigits_padded allDigits_padded ?_ ?_
  · rw [length_padded hw (h.trans hn), length_padded hw hn]
  · rwa [digitsValue_padded, digitsValue_padded]

end Text
end Vestrix
