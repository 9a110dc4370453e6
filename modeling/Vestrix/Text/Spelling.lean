/-
# What bytes spell

Readers of text, read backwards.  Lowercase hexadecimal digits are the digits of the bytes that are read from
them (`hex_of_fromHex`), and bytes that are read as ASCII text are its encoding (`utf8_of_fromUtf8`): UTF-8
takes no character of more than one byte for one that needs a single one.
-/

import Vestrix.Text.Digits

namespace Vestrix
namespace Text

/-! ### Hexadecimal digits -/

/-- The lowercase hexadecimal digits are those of the numbers below sixteen. -/
theorem exists_digitChar {c : Char} (h : isLowerHex c = true) : ∃ n, n < 16 ∧ n.digitChar = c := by
  rw [isLowerHex, Bool.or_eq_true, Bool.and_eq_true, decide_eq_true_eq, decide_eq_true_eq, Char.isDigit,
    Bool.and_eq_true, decide_eq_true_eq, decide_eq_true_eq] at h
  have hcode : (48 ≤ c.toNat ∧ c.toNat ≤ 57) ∨ (97 ≤ c.toNat ∧ c.toNat ≤ 102) := h
  rw [← Char.ofNat_toNat c]
  rcases hcode with ⟨hle, hge⟩ | ⟨hle, hge⟩
  · refine ⟨c.toNat - 48, by omega, ?_⟩
    interval_cases c.toNat <;> decide
  · refine ⟨c.toNat - 87, by omega, ?_⟩
    interval_cases c.toNat <;> decide

/-- Hexadecimal digits are ASCII. -/
theorem toNat_lt_of_isLowerHex {c : Char} (h : isLowerHex c = true) : c.toNat < 0x80 := by
  obtain ⟨n, hn, rfl⟩ := exists_digitChar h
  interval_cases n <;> decide

/-- A hexadecimal digit is the lowercase one of its value. -/
theorem digitChar_of_hexValue? {c : Char} {n : ℕ} (hc : isLowerHex c = true)
    (h : hexValue? (.scalar c) = some n) : n < 16 ∧ n.digitChar = c := by
  obtain ⟨m, hm, rfl⟩ := exists_digitChar hc
  rw [hexValue?_digitChar hm] at h
  obtain rfl := Option.some.inj h
  exact ⟨hm, rfl⟩

/-- **Lowercase digits are those of the bytes** that are read from them. -/
theorem hex_of_fromHex {s : List Char} {bytes : List UInt8} (hs : ∀ c ∈ s, isLowerHex c = true)
    (h : fromHex s = some bytes) : hex bytes = s := by
  induction s using fromHex.induct generalizing bytes with
  | case1 =>
    obtain rfl := Option.some.inj h
    rfl
  | case2 a b s x y read hread hy hx ih =>
    rw [fromHex, hx, hy, hread] at h
    obtain rfl := Option.some.inj h
    obtain ⟨ha, hbs⟩ := List.forall_mem_cons.1 hs
    obtain ⟨hb, hrest⟩ := List.forall_mem_cons.1 hbs
    obtain ⟨hx, rfl⟩ := digitChar_of_hexValue? ha hx
    obtain ⟨hy, rfl⟩ := digitChar_of_hexValue? hb hy
    have hbyte : (UInt8.ofNat (16 * x + y)).toNat = 16 * x + y := UInt8.toNat_ofNat_of_lt' (by
      simp only [UInt8.size]; omega)
    rw [hex, List.flatMap_cons, ← hex, ih hrest hread, hbyte, show (16 * x + y) / 16 = x by omega,
      show (16 * x + y) % 16 = y by omega]
    rfl
  | case3 a b s hnone =>
    rw [fromHex] at h
    split at h
    · rename_i hx hy hread
      exact (hnone _ _ _ hx hy hread).elim
    · cases h
  | case4 a => cases h

/-! ### UTF-8 -/

/-- A number that needs more bytes is not that of an ASCII character. -/
theorem le_of_atLeast {least n : ℕ} {c : Char} (h : atLeast least n = some (.scalar c)) :
    least ≤ c.toNat := by
  rw [atLeast] at h
  split_ifs at h with hle
  rw [codePoint?] at h
  split_ifs at h with hvalid hsurrogate
  · rw [← CodePoint.scalar.inj (Option.some.inj h), Char.ofNat, dif_pos hvalid]
    exact hle
  · cases h

/-- The first code point of characters is the first character. -/
theorem ofChars_eq_cons {s : List Char} {d : CodePoint} {t : Str} (h : ofChars s = d :: t) :
    ∃ c r, s = c :: r ∧ d = .scalar c ∧ t = ofChars r := by
  cases s with
  | nil => cases h
  | cons c r =>
    obtain ⟨rfl, rfl⟩ := List.cons.inj h
    exact ⟨c, r, rfl, rfl, rfl⟩

/-- A character that takes more than one byte is not ASCII. -/
theorem consStr_ne_ascii {f : Option CodePoint} {t : Option Str} {s : List Char}
    (hf : ∀ c, f = some (.scalar c) → 0x80 ≤ c.toNat) (hs : ∀ c ∈ s, c.toNat < 0x80) :
    consStr f t ≠ some (ofChars s) := by
  intro h
  obtain ⟨d, hd, hrest⟩ := Option.bind_eq_some_iff.1 h
  obtain ⟨r, -, hr⟩ := Option.map_eq_some_iff.1 hrest
  obtain ⟨c, r', rfl, rfl, -⟩ := ofChars_eq_cons hr.symm
  have hlt := hs c List.mem_cons_self
  have hge := hf c hd
  omega

/-- Two bytes are not the encoding of an ASCII character. -/
theorem le_of_twoBytes {a b : UInt8} {c : Char} (h : twoBytes a b = some (.scalar c)) : 0x80 ≤ c.toNat := by
  obtain ⟨x, -, hx⟩ := Option.bind_eq_some_iff.1 h
  exact le_of_atLeast hx

/-- Three bytes are not the encoding of an ASCII character. -/
theorem le_of_threeBytes {a b c : UInt8} {d : Char} (h : threeBytes a b c = some (.scalar d)) :
    0x80 ≤ d.toNat := by
  obtain ⟨x, -, hx⟩ := Option.bind_eq_some_iff.1 h
  obtain ⟨y, -, hy⟩ := Option.bind_eq_some_iff.1 hx
  exact le_trans (by decide) (le_of_atLeast hy)

/-- Four bytes are not the encoding of an ASCII character. -/
theorem le_of_fourBytes {a b c d : UInt8} {e : Char} (h : fourBytes a b c d = some (.scalar e)) :
    0x80 ≤ e.toNat := by
  obtain ⟨x, -, hx⟩ := Option.bind_eq_some_iff.1 h
  obtain ⟨y, -, hy⟩ := Option.bind_eq_some_iff.1 hx
  obtain ⟨z, -, hz⟩ := Option.bind_eq_some_iff.1 hy
  exact le_trans (by decide) (le_of_atLeast hz)

/-- **ASCII text is read from its own bytes alone.** -/
theorem utf8_of_fromUtf8 {bytes : List UInt8} {s : List Char} (h : fromUtf8 bytes = some s)
    (hs : ∀ c ∈ s, c.toNat < 0x80) : utf8 s = bytes := by
  obtain ⟨str, hdecode, hscalars⟩ := Option.bind_eq_some_iff.1 h
  rw [scalars?_eq_some_iff.1 hscalars] at hdecode
  rw [utf8_ascii hs]
  clear h hscalars
  induction bytes using decodeUtf8.induct generalizing s with
  | case1 =>
    cases s with
    | nil => rfl
    | cons c s => cases hdecode
  | case2 a bytes ha ih =>
    rw [decodeUtf8_one ha] at hdecode
    obtain ⟨d, hd, hrest⟩ := Option.bind_eq_some_iff.1 hdecode
    obtain ⟨r, hr, heq⟩ := Option.map_eq_some_iff.1 hrest
    obtain ⟨c, s, rfl, rfl, rfl⟩ := ofChars_eq_cons heq.symm
    obtain ⟨-, hs⟩ := List.forall_mem_cons.1 hs
    rw [← asciiChar_toNat ha, codePoint?_toNat] at hd
    rw [List.map_cons, ih hs hr, ← CodePoint.scalar.inj (Option.some.inj hd), asciiByte_asciiChar ha]
  | case4 a _ b bytes htwo =>
    rw [decodeUtf8_two htwo] at hdecode
    exact absurd hdecode (consStr_ne_ascii (fun c => le_of_twoBytes) hs)
  | case6 a _ b _ c bytes hthree =>
    rw [decodeUtf8_three hthree] at hdecode
    exact absurd hdecode (consStr_ne_ascii (fun c => le_of_threeBytes) hs)
  | case8 a _ b _ c _ d bytes hfour =>
    rw [decodeUtf8_four hfour] at hdecode
    exact absurd hdecode (consStr_ne_ascii (fun c => le_of_fourBytes) hs)
  | _ =>
    -- a character that is not complete, or no character
    rw [decodeUtf8.eq_def] at hdecode
    simp only [*, if_false, reduceCtorEq] at hdecode

end Text
end Vestrix
