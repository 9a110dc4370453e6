/-
# Code points and UTF-8

A Python `str` is a sequence of code points, in which a surrogate may stand
alone; a Rust `str` is a sequence of scalar values, which are Lean's `Char`.
Both are encoded by the core library's `String.utf8EncodeChar`.

`decodeUtf8` reads UTF-8 as Python's `surrogatepass` handler does, letting an
encoded surrogate through and nothing else that is ill-formed; `fromUtf8` is the
strict reading.  UTF-8 keeps the order of scalar values: comparing two strings
byte by byte or code point by code point is the same (`utf8_lt_iff`).
-/

import Mathlib.Data.Char
import Mathlib.Data.List.Lex
import Mathlib.Order.Lattice

namespace Vestrix
namespace Text

/-- A character of a Python string. -/
inductive CodePoint where
  | scalar (c : Char)
  | surrogate (u : Fin 0x800)
deriving DecidableEq

/-- The number of a code point. -/
def CodePoint.ord : CodePoint → ℕ
  | .scalar c => c.toNat
  | .surrogate u => 0xD800 + u

/-- A Python string. -/
abbrev Str := List CodePoint

instance instLawfulBEqStr : LawfulBEq Str := inferInstance

instance instLawfulBEqChars : LawfulBEq (List Char) := inferInstance

/-- The scalar value of a code point that is one. -/
def CodePoint.scalar? : CodePoint → Option Char
  | .scalar c => some c
  | .surrogate _ => none

/-- A string of scalar values, as a Python string. -/
def ofChars (s : List Char) : Str := s.map .scalar

/-- A string literal, as a Python string. -/
def lit (s : String) : Str := ofChars s.toList

/-- The scalar values of a string that has no surrogate. -/
def scalars? : Str → Option (List Char)
  | [] => some []
  | c :: s =>
    match c.scalar?, scalars? s with
    | some x, some xs => some (x :: xs)
    | _, _ => none

/-- A code point is determined by its number. -/
theorem CodePoint.ord_injective : Function.Injective CodePoint.ord := by
  intro a b h
  cases a with
  | scalar c =>
    cases b with
    | scalar d => exact congrArg _ (Char.toNat_inj.1 h)
    | surrogate u =>
      have hv : c.toNat.isValidChar := c.valid
      simp only [ord, Nat.isValidChar] at h hv
      omega
  | surrogate u =>
    cases b with
    | scalar d =>
      have hv : d.toNat.isValidChar := d.valid
      simp only [ord, Nat.isValidChar] at h hv
      omega
    | surrogate w =>
      simp only [ord] at h
      exact congrArg _ (Fin.ext (by omega))

/-- Code points are ordered by number. -/
instance : LinearOrder CodePoint := LinearOrder.lift' CodePoint.ord CodePoint.ord_injective

/-- A text of scalar values is determined by its code points. -/
theorem ofChars_injective : Function.Injective ofChars :=
  List.map_injective_iff.2 fun _ _ h => CodePoint.scalar.inj h

/-- No characters are no code points. -/
@[simp] theorem ofChars_nil : ofChars [] = [] := rfl

/-- The first character is the first code point. -/
@[simp] theorem ofChars_cons (c : Char) (s : List Char) :
    ofChars (c :: s) = .scalar c :: ofChars s := rfl

/-- Code points are joined as characters are. -/
@[simp] theorem ofChars_append (s t : List Char) : ofChars (s ++ t) = ofChars s ++ ofChars t :=
  List.map_append

/-- Characters are read back from their code points. -/
@[simp] theorem scalars?_ofChars (s : List Char) : scalars? (ofChars s) = some s := by
  induction s with
  | nil => rfl
  | cons c s ih => simp only [ofChars_cons, scalars?, CodePoint.scalar?, ih]

/-- A text has scalar values only just if it comes from characters, and from those. -/
theorem scalars?_eq_some_iff {t : Str} {s : List Char} : scalars? t = some s ↔ t = ofChars s := by
  constructor
  · intro h
    induction t generalizing s with
    | nil =>
      obtain rfl := Option.some.inj h
      rfl
    | cons c t ih =>
      rw [scalars?] at h
      cases c with
      | surrogate u => simp only [CodePoint.scalar?] at h; cases h
      | scalar x =>
        cases ht : scalars? t with
        | none => simp only [CodePoint.scalar?, ht] at h; cases h
        | some xs =>
          simp only [CodePoint.scalar?, ht, Option.some.injEq] at h
          rw [← h, ih ht, ofChars_cons]
  · rintro rfl
    exact scalars?_ofChars s

/-- Scalar values keep their order as code points. -/
theorem ofChars_lt_iff (s t : List Char) : ofChars s < ofChars t ↔ s < t := by
  induction s generalizing t with
  | nil => cases t <;> simp
  | cons a s ih =>
    cases t with
    | nil => simp
    | cons b t =>
      simp only [ofChars_cons, List.cons_lt_cons_iff, ih, CodePoint.scalar.injEq]
      exact Iff.rfl

/-! ### Encoding -/

/-- The UTF-8 encoding of scalar values. -/
def utf8 (s : List Char) : List UInt8 := s.flatMap String.utf8EncodeChar

/-- `str.encode("utf-8")`: surrogates cannot be encoded. -/
def encodeUtf8 (s : Str) : Option (List UInt8) := (scalars? s).map utf8

/-- The empty text has no bytes. -/
@[simp] theorem utf8_nil : utf8 [] = [] := rfl

/-- The bytes of the first character come first. -/
@[simp] theorem utf8_cons (c : Char) (s : List Char) :
    utf8 (c :: s) = String.utf8EncodeChar c ++ utf8 s := rfl

/-- Bytes are joined as texts are. -/
@[simp] theorem utf8_append (s t : List Char) : utf8 (s ++ t) = utf8 s ++ utf8 t :=
  List.flatMap_append

/-- The six bits of a continuation byte. -/
def tailBits (b : UInt8) : Option ℕ := if b.toNat / 64 = 2 then some (b.toNat % 64) else none

/-- The code point of a number, if there is one. -/
def codePoint? (n : ℕ) : Option CodePoint :=
  if n.isValidChar then some (.scalar (Char.ofNat n))
  else if h : 0xD800 ≤ n ∧ n < 0xE000 then some (.surrogate ⟨n - 0xD800, by omega⟩)
  else none

/-- A code point read before a string, where both could be read. -/
def consStr (c : Option CodePoint) (s : Option Str) : Option Str :=
  c.bind fun c => s.map (c :: ·)

/-- The code point of a number that needs at least the bytes it was given. -/
def atLeast (least n : ℕ) : Option CodePoint := if least ≤ n then codePoint? n else none

/-- The code point that two bytes encode. -/
def twoBytes (a b : UInt8) : Option CodePoint :=
  (tailBits b).bind fun x => atLeast 0x80 (a.toNat % 32 * 64 + x)

/-- The code point that three bytes encode. -/
def threeBytes (a b c : UInt8) : Option CodePoint :=
  (tailBits b).bind fun x => (tailBits c).bind fun y =>
    atLeast 0x800 (a.toNat % 16 * 4096 + x * 64 + y)

/-- The code point that four bytes encode. -/
def fourBytes (a b c d : UInt8) : Option CodePoint :=
  (tailBits b).bind fun x => (tailBits c).bind fun y => (tailBits d).bind fun z =>
    atLeast 0x10000 (a.toNat % 8 * 262144 + x * 4096 + y * 64 + z)

/-- UTF-8 with surrogates let through: no byte sequence longer than needed, and
no number past the last code point. -/
def decodeUtf8 : List UInt8 → Option Str
  | [] => some []
  | a :: s =>
    if a.toNat < 0x80 then consStr (codePoint? a.toNat) (decodeUtf8 s)
    else match s with
      | [] => none
      | b :: s =>
        if a.toNat / 32 = 6 then consStr (twoBytes a b) (decodeUtf8 s)
        else match s with
          | [] => none
          | c :: s =>
            if a.toNat / 16 = 14 then consStr (threeBytes a b c) (decodeUtf8 s)
            else match s with
              | [] => none
              | d :: s =>
                if a.toNat / 8 = 30 then consStr (fourBytes a b c d) (decodeUtf8 s) else none

/-- Strict UTF-8. -/
def fromUtf8 (s : List UInt8) : Option (List Char) := decodeUtf8 s >>= scalars?

/-- The number of a character is that of a code point. -/
theorem codePoint?_toNat (c : Char) : codePoint? c.toNat = some (.scalar c) := by
  have hv : c.toNat.isValidChar := c.valid
  simp only [codePoint?, hv, if_true, Char.ofNat_toNat]

/-- A continuation byte has the six bits that were put into it. -/
theorem tailBits_ofNat {n : ℕ} (h : n < 64) : tailBits (UInt8.ofNat (n + 128)) = some n := by
  have hb : (UInt8.ofNat (n + 128)).toNat = n + 128 := UInt8.toNat_ofNat_of_lt' (by
    simp only [UInt8.size]; omega)
  rw [tailBits, hb, if_pos (by omega)]
  congr 1
  omega

/-- A character that is not below the bound of its length is taken. -/
theorem atLeast_toNat {least : ℕ} {c : Char} (h : least ≤ c.toNat) :
    atLeast least c.toNat = some (.scalar c) := by
  rw [atLeast, if_pos h, codePoint?_toNat]

/-- A code point that is there comes before the rest. -/
@[simp] theorem consStr_some (c : CodePoint) (s : Option Str) :
    consStr (some c) s = s.map (c :: ·) := rfl

/-- A byte below `0x80` is a code point by itself. -/
theorem decodeUtf8_one {a : UInt8} (ha : a.toNat < 0x80) (s : List UInt8) :
    decodeUtf8 (a :: s) = consStr (codePoint? a.toNat) (decodeUtf8 s) := by
  rw [decodeUtf8.eq_def]
  exact if_pos ha

/-- A byte `110xxxxx` begins a code point of two bytes. -/
theorem decodeUtf8_two {a : UInt8} (ha : a.toNat / 32 = 6) (b : UInt8) (s : List UInt8) :
    decodeUtf8 (a :: b :: s) = consStr (twoBytes a b) (decodeUtf8 s) := by
  rw [decodeUtf8.eq_def]
  exact (if_neg (by omega)).trans (if_pos ha)

/-- A byte `1110xxxx` begins a code point of three bytes. -/
theorem decodeUtf8_three {a : UInt8} (ha : a.toNat / 16 = 14) (b c : UInt8) (s : List UInt8) :
    decodeUtf8 (a :: b :: c :: s) = consStr (threeBytes a b c) (decodeUtf8 s) := by
  rw [decodeUtf8.eq_def]
  exact (if_neg (by omega)).trans ((if_neg (by omega)).trans (if_pos ha))

/-- A byte `11110xxx` begins a code point of four bytes. -/
theorem decodeUtf8_four {a : UInt8} (ha : a.toNat / 8 = 30) (b c d : UInt8) (s : List UInt8) :
    decodeUtf8 (a :: b :: c :: d :: s) = consStr (fourBytes a b c d) (decodeUtf8 s) := by
  rw [decodeUtf8.eq_def]
  exact (if_neg (by omega)).trans
    ((if_neg (by omega)).trans ((if_neg (by omega)).trans (if_pos ha)))

/-- **Decoding inverts encoding**, one character at a time. -/
theorem decodeUtf8_encodeChar (c : Char) (s : List UInt8) :
    decodeUtf8 (String.utf8EncodeChar c ++ s) = (decodeUtf8 s).map (.scalar c :: ·) := by
  have hv : c.toNat.isValidChar := c.valid
  have hmax : c.toNat < 0x110000 := by simp only [Nat.isValidChar] at hv; omega
  have hbyte : ∀ n, n < 256 → (UInt8.ofNat n).toNat = n := fun n hn =>
    UInt8.toNat_ofNat_of_lt' hn
  have h₀ := tailBits_ofNat (n := c.toNat % 64) (by omega)
  have h₁ := tailBits_ofNat (n := c.toNat / 64 % 64) (by omega)
  have h₂ := tailBits_ofNat (n := c.toNat / 4096 % 64) (by omega)
  unfold String.utf8EncodeChar
  simp only [show c.val.toNat = c.toNat from rfl]
  split_ifs with h₃ h₄ h₅
  · have ha := hbyte c.toNat (by omega)
    rw [List.singleton_append, decodeUtf8_one (by omega), ha, codePoint?_toNat, consStr_some]
  · have ha := hbyte (c.toNat / 64 % 32 + 192) (by omega)
    rw [List.cons_append, List.singleton_append, decodeUtf8_two (by omega), twoBytes, h₀, ha,
      Option.bind_some,
      show (c.toNat / 64 % 32 + 192) % 32 * 64 + c.toNat % 64 = c.toNat by omega,
      atLeast_toNat (by omega), consStr_some]
  · have ha := hbyte (c.toNat / 4096 % 16 + 224) (by omega)
    rw [List.cons_append, List.cons_append, List.singleton_append, decodeUtf8_three (by omega),
      threeBytes, h₁, h₀, ha, Option.bind_some, Option.bind_some,
      show (c.toNat / 4096 % 16 + 224) % 16 * 4096 + c.toNat / 64 % 64 * 64 + c.toNat % 64 =
        c.toNat by omega, atLeast_toNat (by omega), consStr_some]
  · have ha := hbyte (c.toNat / 262144 % 8 + 240) (by omega)
    rw [List.cons_append, List.cons_append, List.cons_append, List.singleton_append,
      decodeUtf8_four (by omega), fourBytes, h₂, h₁, h₀, ha, Option.bind_some, Option.bind_some,
      Option.bind_some,
      show (c.toNat / 262144 % 8 + 240) % 8 * 262144 + c.toNat / 4096 % 64 * 4096 +
        c.toNat / 64 % 64 * 64 + c.toNat % 64 = c.toNat by omega,
      atLeast_toNat (by omega), consStr_some]

/-- **Decoding inverts encoding.** -/
@[simp] theorem decodeUtf8_utf8 (s : List Char) : decodeUtf8 (utf8 s) = some (ofChars s) := by
  induction s with
  | nil => rfl
  | cons c s ih => rw [utf8_cons, decodeUtf8_encodeChar, ih, Option.map_some, ofChars_cons]

/-- The code points of a text are decoded before what follows it. -/
theorem decodeUtf8_utf8_append (s : List Char) (t : List UInt8) :
    decodeUtf8 (utf8 s ++ t) = (decodeUtf8 t).map (ofChars s ++ ·) := by
  induction s with
  | nil => exact Option.map_id'.symm
  | cons c s ih =>
    rw [utf8_cons, List.append_assoc, decodeUtf8_encodeChar, ih, Option.map_map]
    rfl

/-- An encoding that starts with another is that of a longer text. -/
theorem exists_of_utf8_prefix {s t : List Char} (h : utf8 s <+: utf8 t) : ∃ u, t = s ++ u := by
  obtain ⟨x, hx⟩ := h
  have hdecode := decodeUtf8_utf8_append s x
  rw [hx, decodeUtf8_utf8] at hdecode
  obtain ⟨y, -, hy⟩ := Option.map_eq_some_iff.1 hdecode.symm
  have hst := congrArg (List.take s.length) hy
  have hlen : (ofChars s).length = s.length := List.length_map _
  rw [← hlen, List.take_left, hlen, ofChars, ofChars, ← List.map_take] at hst
  have hs : s = t.take s.length := ofChars_injective hst
  exact ⟨t.drop s.length, by conv_lhs => rw [← List.take_append_drop s.length t, ← hs]⟩

/-- The bytes of a text are read back as that text. -/
@[simp] theorem fromUtf8_utf8 (s : List Char) : fromUtf8 (utf8 s) = some s := by
  simp only [fromUtf8, decodeUtf8_utf8, Option.bind_eq_bind, Option.bind_some, scalars?_ofChars]

/-- Two texts with the same bytes are the same. -/
theorem utf8_injective : Function.Injective utf8 := fun s t h => by
  have := congrArg fromUtf8 h
  rw [fromUtf8_utf8, fromUtf8_utf8] at this
  exact Option.some.inj this

/-- The digits in base 64 that UTF-8 spreads over its bytes. -/
theorem exists_digits {n : ℕ} (h : n < 0x110000) :
    ∃ a b c d, n = ((a * 64 + b) * 64 + c) * 64 + d ∧ a < 8 ∧ b < 64 ∧ c < 64 ∧ d < 64 ∧
      n % 64 = d ∧ n / 64 % 64 = c ∧ n / 4096 % 64 = b ∧ n / 262144 % 8 = a ∧
        n / 64 % 32 = c % 32 ∧ n / 4096 % 16 = b % 16 :=
  ⟨n / 262144, n / 4096 % 64, n / 64 % 64, n % 64, by omega, by omega, by omega, by omega, by omega,
    rfl, rfl, rfl, by omega, by omega, by omega⟩

/-- The encodings of two characters compare as the characters do, whatever follows. -/
theorem utf8EncodeChar_lt {a b : Char} (h : a < b) (x y : List UInt8) :
    String.utf8EncodeChar a ++ x < String.utf8EncodeChar b ++ y := by
  have hab : a.toNat < b.toNat := h
  have ha : a.toNat.isValidChar := a.valid
  have hb : b.toNat.isValidChar := b.valid
  have hbyte : ∀ n, n < 256 → (UInt8.ofNat n).toNat = n := fun n hn =>
    UInt8.toNat_ofNat_of_lt' hn
  unfold String.utf8EncodeChar
  simp only [show a.val.toNat = a.toNat from rfl, show b.val.toNat = b.toNat from rfl]
  simp only [Nat.isValidChar] at ha hb
  generalize a.toNat = m at *
  generalize b.toNat = n at *
  obtain ⟨m₃, m₂, m₁, m₀, hm, hm₃, hm₂, hm₁, hm₀, e₀, e₁, e₂, e₃, e₄, e₅⟩ :=
    exists_digits (n := m) (by omega)
  obtain ⟨n₃, n₂, n₁, n₀, hn, hn₃, hn₂, hn₁, hn₀, f₀, f₁, f₂, f₃, f₄, f₅⟩ :=
    exists_digits (n := n) (by omega)
  rw [e₀, e₁, e₂, e₃, e₄, e₅, f₀, f₁, f₂, f₃, f₄, f₅]
  clear e₀ e₁ e₂ e₃ e₄ e₅ f₀ f₁ f₂ f₃ f₄ f₅ ha hb
  split_ifs <;> first
    | omega
    | (simp (disch := omega) only [List.cons_append, List.cons_lt_cons_iff, UInt8.lt_iff_toNat_lt,
        ← UInt8.toNat_inj, hbyte]
       omega)

/-- **UTF-8 keeps the order of strings.** -/
theorem utf8_lt_iff (s t : List Char) : utf8 s < utf8 t ↔ s < t := by
  have hmono : ∀ s t : List Char, s < t → utf8 s < utf8 t := by
    intro s
    induction s with
    | nil =>
      intro t ht
      cases t with
      | nil => exact absurd ht (lt_irrefl _)
      | cons b t =>
        cases hb : String.utf8EncodeChar b with
        | nil => exact absurd hb String.utf8EncodeChar_ne_nil
        | cons y ys =>
          rw [utf8_nil, utf8_cons, hb]
          exact List.nil_lt_cons _ _
    | cons a s ih =>
      intro t ht
      cases t with
      | nil => exact absurd ht (by simp)
      | cons b t =>
        rcases List.cons_lt_cons_iff.1 ht with h | ⟨rfl, h⟩
        · exact utf8EncodeChar_lt h _ _
        · exact List.Lex.append_left _ (ih t h) _
  refine ⟨fun h => ?_, hmono s t⟩
  rcases lt_trichotomy s t with hlt | rfl | hgt
  · exact hlt
  · exact absurd h (List.lt_irrefl _)
  · exact absurd (hmono t s hgt) (List.lt_asymm h)

/-- A line feed in an encoding is a line feed of the text. -/
theorem newline_mem_utf8 {s : List Char} (h : (10 : UInt8) ∈ utf8 s) : '\n' ∈ s := by
  obtain ⟨c, hc, hmem⟩ := List.mem_flatMap.1 h
  have hbyte : ∀ n, n < 256 → (UInt8.ofNat n).toNat = n := fun n hn =>
    UInt8.toNat_ofNat_of_lt' hn
  have hten : c.toNat = 10 := by
    unfold String.utf8EncodeChar at hmem
    simp only [show c.val.toNat = c.toNat from rfl] at hmem
    generalize c.toNat = n at hmem ⊢
    split_ifs at hmem <;>
      simp (disch := omega) only [List.mem_cons, List.not_mem_nil, or_false, ← UInt8.toNat_inj, hbyte,
        UInt8.reduceToNat] at hmem <;> omega
  rwa [show c = '\n' from Char.toNat_inj.1 hten] at hc

/-! ### ASCII -/

/-- The byte of an ASCII character. -/
def asciiByte (c : Char) : UInt8 := UInt8.ofNat c.toNat

/-- The character of an ASCII byte. -/
def asciiChar (b : UInt8) : Char := Char.ofNat b.toNat

/-- The byte of an ASCII character has its number. -/
theorem asciiByte_toNat {c : Char} (h : c.toNat < 0x80) : (asciiByte c).toNat = c.toNat :=
  UInt8.toNat_ofNat_of_lt' (show c.toNat < 256 by omega)

/-- The character of an ASCII byte has its number. -/
theorem asciiChar_toNat {b : UInt8} (h : b.toNat < 0x80) : (asciiChar b).toNat = b.toNat := by
  rw [asciiChar, Char.ofNat, dif_pos (Or.inl (by omega))]
  rfl

/-- An ASCII byte is the byte of its character. -/
theorem asciiByte_asciiChar {b : UInt8} (h : b.toNat < 0x80) : asciiByte (asciiChar b) = b := by
  rw [asciiByte, asciiChar_toNat h, UInt8.ofNat_toNat]

/-- ASCII text is encoded byte by byte. -/
theorem utf8_ascii {s : List Char} (h : ∀ c ∈ s, c.toNat < 0x80) : utf8 s = s.map asciiByte := by
  induction s with
  | nil => rfl
  | cons c s ih =>
    obtain ⟨hc, hs⟩ := List.forall_mem_cons.1 h
    have hone : String.utf8EncodeChar c = [asciiByte c] := by
      unfold String.utf8EncodeChar
      simp only [show c.val.toNat = c.toNat from rfl]
      exact if_pos (by omega)
    rw [utf8_cons, ih hs, hone, List.map_cons, List.singleton_append]

/-- Text is ASCII when the bytes of its encoding are. -/
theorem ascii_of_utf8 {s : List Char} (h : ∀ b ∈ utf8 s, b.toNat < 0x80) : ∀ c ∈ s, c.toNat < 0x80 := by
  intro c hc
  by_contra hge
  have hv : c.toNat.isValidChar := c.valid
  have hmax : c.toNat < 0x110000 := by simp only [Nat.isValidChar] at hv; omega
  have hbyte : ∀ n, n < 256 → (UInt8.ofNat n).toNat = n := fun n hn =>
    UInt8.toNat_ofNat_of_lt' hn
  obtain ⟨b, hb, hlead⟩ : ∃ b ∈ String.utf8EncodeChar c, 0x80 ≤ b.toNat := by
    unfold String.utf8EncodeChar
    simp only [show c.val.toNat = c.toNat from rfl]
    split_ifs with h₃ h₄ h₅
    · omega
    · exact ⟨_, List.mem_cons_self, by rw [hbyte _ (by omega)]; omega⟩
    · exact ⟨_, List.mem_cons_self, by rw [hbyte _ (by omega)]; omega⟩
    · exact ⟨_, List.mem_cons_self, by rw [hbyte _ (by omega)]; omega⟩
  have := h b (List.mem_flatMap.2 ⟨c, hc, hb⟩)
  omega

example : utf8 ['é'] = [0xC3, 0xA9] ∧ decodeUtf8 [0xED, 0xA0, 0x80] = some [.surrogate 0] := by decide

end Text
end Vestrix
