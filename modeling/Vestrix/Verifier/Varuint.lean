/-
# Variable integers on machine words

`Parser::varuint` as it runs: the digits are shifted into a word of 64 bits and joined to it bit by
bit.  Where the overflow check lets a digit through the shift loses no bit of it, and the
bits that it is joined to are below it, so that the word is the sum the parser's cursor
computes with (`varuintFrom_words`).

So a number is read if and only if it ends within ten bytes and fits a word, however many bytes it
is written with (`varuint_exact`).
-/

import Vestrix.Text.Base128
import Vestrix.Verifier.Cursor
import Vestrix.Verifier.ProofTree

namespace Vestrix
namespace Verifier
namespace Cursor
namespace Words

open Text Outcome

/-- The loop of `Parser::varuint`; shifting by 64 or more would panic. -/
def varuintFrom (input : List UInt8) (shift : ℕ) (value : UInt64) : Run UInt64 := fun position => do
  let (b, position) ← byte input position
  let chunk := (b &&& 0x7f).toUInt64
  require (shift < 64) .panic
  if 0xffffffffffffffff >>> UInt64.ofNat shift < chunk then .error (.error .integerOverflow)
  else
    let value := value ||| chunk <<< UInt64.ofNat shift
    if b &&& 0x80 = 0 then .ok (value, position)
    else if shift + 7 < 64 then varuintFrom input (shift + 7) value position
    else .error (.error .integerOverflow)
termination_by 64 - shift

/-- `Parser::varuint`. -/
def varuint (input : List UInt8) : Run UInt64 := varuintFrom input 0 0

variable {input : List UInt8} {shift position : ℕ} {value : UInt64}

/-! ### Bits -/

/-- A byte has seven bits of the number. -/
theorem toNat_chunk (b : UInt8) : (b &&& 0x7f).toUInt64.toNat = b.toNat % 128 := by
  rw [UInt8.toNat_toUInt64, UInt8.toNat_and]
  exact Nat.and_two_pow_sub_one_eq_mod b.toNat 7

/-- The high bit is clear just in the bytes below 128. -/
theorem and_high_eq_zero (b : UInt8) : b &&& 0x80 = 0 ↔ b.toNat < 128 := by
  have hmask : ∀ i : Fin 256, i.val &&& 128 = 0 ↔ i.val < 128 := by decide +kernel
  rw [← UInt8.toNat_inj, UInt8.toNat_and]
  exact hmask ⟨b.toNat, b.toNat_lt⟩

/-- The bound of a chunk is what fits above its shift. -/
theorem toNat_limit (h : shift < 64) :
    (0xffffffffffffffff >>> UInt64.ofNat shift : UInt64).toNat = (2 ^ 64 - 1) / 2 ^ shift := by
  rw [UInt64.toNat_shiftRight, UInt64.toNat_ofNat_of_lt' (h.trans (by decide)), Nat.mod_eq_of_lt h,
    Nat.shiftRight_eq_div_pow]
  rfl

/-- **No bit is lost**: what the check lets through is added to a word that is below it. -/
theorem toNat_join {chunk : UInt64} (h : shift < 64) (hvalue : value.toNat < 2 ^ shift)
    (hchunk : chunk.toNat ≤ (2 ^ 64 - 1) / 2 ^ shift) :
    (value ||| chunk <<< UInt64.ofNat shift).toNat = value.toNat + chunk.toNat * 2 ^ shift := by
  have hfits : chunk.toNat * 2 ^ shift < 2 ^ 64 := by
    have := (Nat.le_div_iff_mul_le (Nat.two_pow_pos shift)).1 hchunk
    omega
  rw [UInt64.toNat_or, UInt64.toNat_shiftLeft, UInt64.toNat_ofNat_of_lt' (h.trans (by decide)),
    Nat.mod_eq_of_lt h, Nat.shiftLeft_eq, Nat.mod_eq_of_lt hfits, Nat.or_comm,
    ← Nat.shiftLeft_eq, ← Nat.shiftLeft_add_eq_or_of_lt hvalue, Nat.add_comm]

/-- **The loop on words is the loop on numbers.** -/
theorem varuintFrom_words {fuel : ℕ} (hshift : shift < 64) (hvalue : value.toNat < 2 ^ shift)
    (hfuel : input.length - position < fuel) :
    (varuintFrom input shift value position).map (fun r => (r.1.toNat, r.2)) =
      Cursor.varuintFrom input fuel shift value.toNat position := by
  induction fuel generalizing shift value position with
  | zero => exact absurd hfuel (Nat.not_lt_zero _)
  | succ fuel ih =>
    rw [varuintFrom, Cursor.varuintFrom]
    dsimp only
    cases hbyte : byte input position with
    | error e => rfl
    | ok r =>
      have hnext : input.length - r.2 < fuel := by
        rw [byte] at hbyte
        split at hbyte
        · cases hbyte
        · rename_i hget
          have hlt := (List.getElem?_eq_some_iff.1 hget).1
          obtain rfl := Except.ok.inj hbyte
          dsimp only
          omega
      simp only [ok_bind, require_true hshift]
      simp only [UInt64.lt_iff_toNat_lt, toNat_limit hshift, toNat_chunk, and_high_eq_zero]
      by_cases hoverflow : (2 ^ 64 - 1) / 2 ^ shift < r.1.toNat % 128
      · rw [if_pos hoverflow, if_pos hoverflow]
        rfl
      · have hfits : (r.1 &&& 0x7f).toUInt64.toNat ≤ (2 ^ 64 - 1) / 2 ^ shift := by
          rw [toNat_chunk]
          exact Nat.not_lt.1 hoverflow
        have hjoin := toNat_join hshift hvalue hfits
        rw [toNat_chunk] at hjoin
        rw [if_neg hoverflow, if_neg hoverflow, ← hjoin]
        split_ifs with hlast hmore
        · rfl
        · refine ih hmore ?_ hnext
          have hdigit := Nat.mul_le_mul_right (2 ^ shift) (show r.1.toNat % 128 ≤ 127 by omega)
          rw [hjoin, pow_add]
          omega
        · rfl

/-! ### What is read -/

/-- One digit more fits 64 bits just if the digits above it do. -/
theorem digit_fits {digit n : ℕ} (hshift : shift + 7 < 64) (hdigit : digit < 128) :
    (digit + 128 * n) * 2 ^ shift < 2 ^ 64 ↔ n * 2 ^ (shift + 7) < 2 ^ 64 := by
  obtain ⟨k, hk⟩ : ∃ k, 64 = k + (shift + 7) := ⟨64 - (shift + 7), by omega⟩
  have hshort : 2 ^ 64 = 128 * 2 ^ k * 2 ^ shift := by
    rw [hk, pow_add, pow_add]
    ring
  have hlong : 2 ^ 64 = 2 ^ k * 2 ^ (shift + 7) := by rw [hk, pow_add]
  have hleft : (digit + 128 * n) * 2 ^ shift < 2 ^ 64 ↔ digit + 128 * n < 128 * 2 ^ k := by
    rw [hshort, Nat.mul_lt_mul_right (Nat.two_pow_pos shift)]
  have hright : n * 2 ^ (shift + 7) < 2 ^ 64 ↔ n < 2 ^ k := by
    rw [hlong, Nat.mul_lt_mul_right (Nat.two_pow_pos _)]
  rw [hleft, hright]
  omega

/-- The check lets a digit through just if it fits 64 bits at its place. -/
theorem limit_lt_iff {digit : ℕ} : (2 ^ 64 - 1) / 2 ^ shift < digit ↔ ¬ digit * 2 ^ shift < 2 ^ 64 := by
  rw [Nat.div_lt_iff_lt_mul (Nat.two_pow_pos shift)]
  omega

/-- From its `k`-th round on the loop reads the digits up to the last, if there are not too many and
they fit 64 bits. -/
theorem varuintFrom_eq_ok {k start n : ℕ} {bytes rest : List UInt8} (hk : k < 10) :
    Verifier.varuintFrom (7 * k) start bytes = .ok (n, rest) ↔
      ∃ i, lastByte? bytes = some i ∧ k + i < 10 ∧ base128 (bytes.take (i + 1)) * 2 ^ (7 * k) < 2 ^ 64 ∧
        n = start + base128 (bytes.take (i + 1)) * 2 ^ (7 * k) ∧ rest = bytes.drop (i + 1) := by
  induction bytes generalizing k start with
  | nil =>
    constructor
    · intro h
      cases h
    · rintro ⟨i, h, -⟩
      cases h
  | cons b bytes ih =>
    rw [Verifier.varuintFrom]
    simp only [limit_lt_iff, ite_not]
    rcases lt_or_ge b.toNat 128 with hlast | hmore
    · have hvalue : base128 ((b :: bytes).take (0 + 1)) = b.toNat := base128_singleton hlast
      rw [lastByte?_cons_of_lt hlast, Nat.mod_eq_of_lt hlast, if_pos hlast]
      constructor
      · intro h
        split_ifs at h with hfits
        obtain ⟨rfl, rfl⟩ := Prod.mk.inj (Except.ok.inj h)
        exact ⟨0, rfl, hk, by rwa [hvalue], by rw [hvalue], rfl⟩
      · rintro ⟨i, hi, -, hfits, rfl, rfl⟩
        obtain rfl := Option.some.inj hi
        rw [hvalue] at hfits ⊢
        rw [if_pos hfits]
        rfl
    · have hdigit : b.toNat % 128 < 128 := Nat.mod_lt _ (by decide)
      have hvalue : ∀ i, base128 ((b :: bytes).take (i + 1 + 1)) =
          b.toNat % 128 + 128 * base128 (bytes.take (i + 1)) := fun i => by
        rw [List.take_succ_cons, base128]
      rw [lastByte?_cons_of_le hmore, if_neg (Nat.not_lt.2 hmore)]
      by_cases hk' : k + 1 < 10
      · have hshift : 7 * k + 7 < 64 := by omega
        have hfits : b.toNat % 128 * 2 ^ (7 * k) < 2 ^ 64 := by
          have := (digit_fits (n := 0) hshift hdigit).2 (by rw [Nat.zero_mul]; decide)
          rwa [Nat.mul_zero, Nat.add_zero] at this
        rw [if_pos hfits, if_pos hshift, show 7 * k + 7 = 7 * (k + 1) by omega, ih hk']
        have hsum : ∀ m, start + (b.toNat % 128 + 128 * m) * 2 ^ (7 * k) =
            start + b.toNat % 128 * 2 ^ (7 * k) + m * 2 ^ (7 * (k + 1)) := fun m => by
          rw [show 7 * (k + 1) = 7 * k + 7 by omega, pow_add]
          ring
        constructor
        · rintro ⟨i, hi, hlt, hrest, rfl, rfl⟩
          refine ⟨i + 1, by rw [hi]; rfl, by omega, ?_, by rw [hvalue, hsum], rfl⟩
          rw [hvalue]
          exact (digit_fits hshift hdigit).2 hrest
        · rintro ⟨j, hj, hlt, hrest, rfl, rfl⟩
          obtain ⟨i, hi, rfl⟩ := Option.map_eq_some_iff.1 hj
          rw [hvalue] at hrest
          exact ⟨i, hi, by omega, (digit_fits hshift hdigit).1 hrest, by rw [hvalue, hsum], rfl⟩
      · -- the tenth byte is not the last
        rw [if_neg (show ¬ 7 * k + 7 < 64 by omega)]
        constructor
        · intro h
          split_ifs at h
        · rintro ⟨j, hj, hlt, -⟩
          obtain ⟨i, hi, rfl⟩ := Option.map_eq_some_iff.1 hj
          omega

/-- A run that follows a parser ends where the parser's rest begins. -/
theorem follows_eq_ok {α : Type} {r : Except ProofReason (α × List UInt8)} {c : Except Stop (α × ℕ)} {a : α}
    {position' : ℕ} (h : Follows input position r c) :
    c = .ok (a, position') ↔
      position ≤ position' ∧ position' ≤ input.length ∧ r = .ok (a, input.drop position') := by
  cases h with
  | error e =>
    constructor
    · intro h
      cases h
    · rintro ⟨-, -, h⟩
      cases h
  | @ok b p hle hend =>
    constructor
    · intro h
      obtain ⟨rfl, rfl⟩ := Prod.mk.inj (Except.ok.inj h)
      exact ⟨hle, hend, rfl⟩
    · rintro ⟨hle', hend', h⟩
      obtain ⟨rfl, hdrop⟩ := Prod.mk.inj (Except.ok.inj h)
      have hlength := congrArg List.length hdrop
      rw [List.length_drop, List.length_drop] at hlength
      rw [show p = position' by omega]

/-- A run that follows a parser fails with an error of the proof. -/
theorem follows_eq_error {α : Type} {r : Except ProofReason (α × List UInt8)} {c : Except Stop (α × ℕ)}
    {e : Stop} (h : Follows input position r c) (hc : c = .error e) : ∃ reason, e = .error reason := by
  cases h with
  | error reason => exact ⟨reason, (Except.error.inj hc).symm⟩
  | ok a _ _ => cases hc

/-- **The words are the numbers** that the parser on indices reads. -/
theorem varuint_words : (varuint input position).map (fun r => (r.1.toNat, r.2)) =
    Cursor.varuint input (input.length - position + 1) position :=
  varuintFrom_words (by decide) (by decide) (Nat.lt_succ_self _)

/-- `varuint` reads at most ten digits, up to the last one. -/
theorem varuint_eq_ok {n : UInt64} {position' : ℕ} :
    varuint input position = .ok (n, position') ↔ ∃ i < 10, lastByte? (input.drop position) = some i ∧
      n.toNat = base128 ((input.drop position).take (i + 1)) ∧ position' = position + (i + 1) := by
  have hwords : varuint input position = .ok (n, position') ↔
      Cursor.varuint input (input.length - position + 1) position = .ok (n.toNat, position') := by
    rw [← varuint_words, map_eq_ok]
    constructor
    · intro h
      exact ⟨_, h, rfl⟩
    · rintro ⟨⟨m, p⟩, h, heq⟩
      obtain ⟨hm, rfl⟩ := Prod.mk.inj heq
      obtain rfl := UInt64.toNat_inj.1 (show m.toNat = n.toNat from hm)
      exact h
  rw [hwords, follows_eq_ok (follows_varuint (Nat.lt_succ_self _)), Verifier.varuint,
    show Verifier.varuintFrom 0 0 = Verifier.varuintFrom (7 * 0) 0 from rfl,
    varuintFrom_eq_ok (show 0 < 10 by decide)]
  simp only [Nat.mul_zero, pow_zero, Nat.mul_one, Nat.zero_add, List.drop_drop]
  constructor
  · rintro ⟨hle, hend, i, hi, hten, -, hn, hdrop⟩
    have hlt := lt_length_of_lastByte? hi
    have hlength := congrArg List.length hdrop
    rw [List.length_drop] at hlt
    rw [List.length_drop, List.length_drop] at hlength
    exact ⟨i, hten, hi, hn, by omega⟩
  · rintro ⟨i, hten, hi, hn, rfl⟩
    have hlt := lt_length_of_lastByte? hi
    rw [List.length_drop] at hlt
    exact ⟨Nat.le_add_right _ _, by omega, i, hi, hten, hn ▸ n.toNat_lt, hn, rfl⟩

/-- A failure is an error of the proof: no shift is too large. -/
theorem varuint_eq_error {e : Stop} (h : varuint input position = .error e) :
    ∃ reason, e = .error reason := by
  have hwords : Cursor.varuint input (input.length - position + 1) position = .error e := by
    rw [← varuint_words, h]
    rfl
  exact follows_eq_error (follows_varuint (Nat.lt_succ_self _)) hwords

/-- No number is written with fewer bytes than its shortest encoding. -/
theorem length_spellVaruint_le {bytes : List UInt8} {n i : ℕ} (hi : lastByte? bytes = some i)
    (hn : base128 (bytes.take (i + 1)) = n) : (spellVaruint n).length ≤ i + 1 := by
  have hlt := base128_lt (bytes.take (i + 1))
  rw [List.length_take_of_le (lt_length_of_lastByte? hi), hn] at hlt
  exact length_spellFrom_le hlt

/-- A number of 64 bits is read back from its spelling. -/
theorem varuint_spellVaruint {n : ℕ} (hn : n < 2 ^ 64) :
    varuint (spellVaruint n) 0 = .ok (UInt64.ofNat n, (spellVaruint n).length) := by
  have hlist := Verifier.varuint_spellVaruint hn []
  rw [List.append_nil] at hlist
  have hfollows := @follows_varuint (spellVaruint n) 0 _ (Nat.lt_succ_self _)
  have hcursor := (follows_eq_ok hfollows).2
    ⟨Nat.zero_le _, le_rfl, by rw [List.drop_zero, List.drop_length, hlist]⟩
  rw [← varuint_words] at hcursor
  obtain ⟨⟨m, p⟩, h, heq⟩ := map_eq_ok.1 hcursor
  obtain ⟨hm, rfl⟩ := Prod.mk.inj heq
  rw [h, ← hm, UInt64.ofNat_toNat]

/-- **Variable integers decode exactly.**  A number is read if and only if one of the first ten bytes
from the cursor on has its high bit clear and the number that the bytes up to it stand for fits a
word; it is that number, and the cursor moves just past that byte.  The shortest encoding of
a number is read to its end. -/
theorem varuint_exact (input : List UInt8) (position : ℕ) :
    ((∃ r, varuint input position = .ok r) ↔ ∃ i < 10, lastByte? (input.drop position) = some i ∧
      base128 ((input.drop position).take (i + 1)) < 2 ^ 64) ∧
    (∀ n position', varuint input position = .ok (n, position') →
      ∃ i < 10, lastByte? (input.drop position) = some i ∧
        n.toNat = base128 ((input.drop position).take (i + 1)) ∧ position' = position + (i + 1)) ∧
    (∀ e, varuint input position = .error e → ∃ reason, e = .error reason) ∧
    ∀ n < 2 ^ 64, varuint (spellVaruint n) 0 = .ok (UInt64.ofNat n, (spellVaruint n).length) ∧
      ∀ bytes i, lastByte? bytes = some i → base128 (bytes.take (i + 1)) = n →
        (spellVaruint n).length ≤ i + 1 := by
  refine ⟨⟨?_, ?_⟩, fun n position' h => varuint_eq_ok.1 h, fun e h => varuint_eq_error h,
    fun n hn => ⟨varuint_spellVaruint hn, fun bytes i hi hvalue => length_spellVaruint_le hi hvalue⟩⟩
  · rintro ⟨⟨n, position'⟩, h⟩
    obtain ⟨i, hten, hi, hn, -⟩ := varuint_eq_ok.1 h
    exact ⟨i, hten, hi, hn ▸ n.toNat_lt⟩
  · rintro ⟨i, hten, hi, hfits⟩
    exact ⟨_, varuint_eq_ok.2 ⟨i, hten, hi, UInt64.toNat_ofNat_of_lt' hfits, rfl⟩⟩

end Words
end Cursor
end Verifier
end Vestrix
