/-
# String literals

`quote` is what both `json.dumps(ensure_ascii=False)` and `serde_json::to_string`
write for a string: quote, reverse solidus and five controls get a short escape, the
other code points below `0x20` a lowercase `\u00xx`, and the rest stands as it is.

`scanString` reads a literal as both readers do, a character at a time, and joins the
escapes of two surrogates afterwards; a reader that has no surrogates rejects those
that are left.  Reading what was written gives the string back
(`scanString_quote`).
-/

import Vestrix.Text.Digits

namespace Vestrix
namespace Json

open Text

/-! ### String literals -/

/-- A quotation mark. -/
def quoteMark : Char := '\x22'

/-- A reverse solidus. -/
def backslash : Char := '\x5c'

/-- The short escape of a character. -/
def shortEscape (c : Char) : Option Char :=
  if c = quoteMark then some quoteMark
  else if c = backslash then some backslash
  else if c = '\x08' then some 'b'
  else if c = '\x0c' then some 'f'
  else if c = '\n' then some 'n'
  else if c = '\r' then some 'r'
  else if c = '\t' then some 't'
  else none

/-- The characters a character of a string is written with. -/
def escapeChar (c : Char) : List Char :=
  match shortEscape c with
  | some e => [backslash, e]
  | none =>
    if c.toNat < 0x20 then
      [backslash, 'u', '0', '0', (c.toNat / 16).digitChar, (c.toNat % 16).digitChar]
    else [c]

/-- `escapeChar`, a surrogate standing for itself. -/
def escapeCodePoint : CodePoint → Str
  | .scalar c => ofChars (escapeChar c)
  | .surrogate u => [.surrogate u]

/-- The string literal of a Python string. -/
def quote (s : Str) : Str :=
  .scalar quoteMark :: (s.flatMap escapeCodePoint ++ [.scalar quoteMark])

/-- The string literal of a Rust string. -/
def quoteChars (s : List Char) : List Char := quoteMark :: (s.flatMap escapeChar ++ [quoteMark])

/-- The text after the given characters, if it starts with them. -/
def skipText : List Char → Str → Option Str
  | [], s => some s
  | _ :: _, [] => none
  | w :: ws, c :: s => if c = .scalar w then skipText ws s else none

/-- A character of a string literal: as it stands, or from a `\u` escape. -/
inductive Piece where
  | raw (c : CodePoint)
  | unit (c : CodePoint)

/-- The character that a short escape stands for. -/
def unescape (e : Char) : Option Char :=
  if e = quoteMark then some quoteMark
  else if e = backslash then some backslash
  else if e = '/' then some '/'
  else if e = 'b' then some '\x08'
  else if e = 'f' then some '\x0c'
  else if e = 'n' then some '\n'
  else if e = 'r' then some '\r'
  else if e = 't' then some '\t'
  else none

/-- What a scanner of a string literal has read of an escape. -/
inductive Scanning where
  | plain
  | escaped
  | hexDigits (left value : ℕ)

/-- What one more character does to a scanner. -/
inductive Step where
  | closed
  | invalid
  | continue (st : Scanning)
  | emit (p : Piece)

/-- One character of a string literal. -/
def scanStep : Scanning → CodePoint → Step
  | .plain, .surrogate u => .emit (.raw (.surrogate u))
  | .plain, .scalar c =>
    if c = quoteMark then .closed
    else if c = backslash then .continue .escaped
    else if c.toNat < 0x20 then .invalid
    else .emit (.raw (.scalar c))
  | .escaped, .surrogate _ => .invalid
  | .escaped, .scalar e =>
    if e = 'u' then .continue (.hexDigits 3 0)
    else match unescape e with
      | some c => .emit (.raw (.scalar c))
      | none => .invalid
  | .hexDigits left value, c =>
    match hexValue? c with
    | none => .invalid
    | some v =>
      match left with
      | left + 1 => .continue (.hexDigits left (value * 16 + v))
      | 0 =>
        match codePoint? (value * 16 + v) with
        | some c => .emit (.unit c)
        | none => .invalid

/-- The pieces of a literal, and the text after its closing quote. -/
def scanPieces : Scanning → Str → Option (List Piece × Str)
  | _, [] => none
  | st, c :: s =>
    match scanStep st c with
    | .closed => some ([], s)
    | .invalid => none
    | .continue st => scanPieces st s
    | .emit p => (scanPieces .plain s).map fun r => (p :: r.1, r.2)

/-- The character of two surrogates, if they are a leading and a trailing one. -/
def joinSurrogates (u w : Fin 0x800) : Option Char :=
  if u.val < 0x400 ∧ 0x400 ≤ w.val then
    some (Char.ofNat (0x10000 + u.val * 0x400 + (w.val - 0x400)))
  else none

/-- The string that pieces stand for after an escaped surrogate, if there is one:
neighbouring escapes of a leading and a trailing surrogate are one character. -/
def joinPieces : Option (Fin 0x800) → List Piece → Str
  | none, [] => []
  | some u, [] => [.surrogate u]
  | none, .raw c :: ps => c :: joinPieces none ps
  | some u, .raw c :: ps => .surrogate u :: c :: joinPieces none ps
  | none, .unit (.scalar c) :: ps => .scalar c :: joinPieces none ps
  | some u, .unit (.scalar c) :: ps => .surrogate u :: .scalar c :: joinPieces none ps
  | none, .unit (.surrogate w) :: ps => joinPieces (some w) ps
  | some u, .unit (.surrogate w) :: ps =>
    match joinSurrogates u w with
    | some c => .scalar c :: joinPieces none ps
    | none => .surrogate u :: joinPieces (some w) ps

/-- The string of a literal whose opening quote has been read. -/
def scanString (s : Str) : Option (Str × Str) :=
  (scanPieces .plain s).map fun r => (joinPieces none r.1, r.2)

/-- The piece that a character of a string is written as. -/
def pieceOf : CodePoint → Piece
  | .surrogate u => .raw (.surrogate u)
  | .scalar c =>
    if shortEscape c = none ∧ c.toNat < 0x20 then .unit (.scalar c) else .raw (.scalar c)

/-- A short escape is read as the character that it was written for. -/
theorem unescape_shortEscape {c e : Char} (h : shortEscape c = some e) :
    e ≠ 'u' ∧ unescape e = some c := by
  unfold shortEscape at h
  split_ifs at h <;> subst_vars <;> obtain rfl := Option.some.inj h <;> decide

/-- A code point that ends a piece is followed by the other pieces. -/
theorem scanPieces_emit {st : Scanning} {c : CodePoint} {p : Piece} (h : scanStep st c = .emit p)
    (s : Str) : scanPieces st (c :: s) = (scanPieces .plain s).map fun r => (p :: r.1, r.2) := by
  rw [scanPieces, h]

/-- A code point within a piece is followed by the rest of it. -/
theorem scanPieces_continue {st st' : Scanning} {c : CodePoint} (h : scanStep st c = .continue st')
    (s : Str) : scanPieces st (c :: s) = scanPieces st' s := by
  rw [scanPieces, h]

/-- A hexadecimal digit of an escape counts for its place. -/
theorem scanStep_hexDigits {left value n : ℕ} (hn : n < 16) :
    scanStep (.hexDigits (left + 1) value) (.scalar n.digitChar) =
      .continue (.hexDigits left (value * 16 + n)) := by
  rw [scanStep, hexValue?_digitChar hn]

/-- The last digit of an escape gives its character. -/
theorem scanStep_lastDigit {value n : ℕ} (hn : n < 16) {c : Char} (hc : value * 16 + n = c.toNat) :
    scanStep (.hexDigits 0 value) (.scalar n.digitChar) = .emit (.unit (.scalar c)) := by
  rw [scanStep, hexValue?_digitChar hn]
  simp only [hc, codePoint?_toNat]

/-- The letter of a short escape gives its character. -/
theorem scanStep_shortEscape {c e : Char} (h : shortEscape c = some e) :
    scanStep .escaped (.scalar e) = .emit (.raw (.scalar c)) := by
  obtain ⟨hu, hun⟩ := unescape_shortEscape h
  rw [scanStep, if_neg hu, hun]

/-- A character that needs no escape gives itself. -/
theorem scanStep_plain {c : Char} (h : shortEscape c = none) (hc : ¬ c.toNat < 0x20) :
    scanStep .plain (.scalar c) = .emit (.raw (.scalar c)) := by
  have hq : c ≠ quoteMark := by rintro rfl; cases h
  have hb : c ≠ backslash := by rintro rfl; cases h
  rw [scanStep, if_neg hq, if_neg hb, if_neg hc]

/-- A written character is read as one piece. -/
theorem scanPieces_escape (c : CodePoint) (s : Str) :
    scanPieces .plain (escapeCodePoint c ++ s) =
      (scanPieces .plain s).map fun r => (pieceOf c :: r.1, r.2) := by
  have hslash : scanStep .plain (.scalar backslash) = .continue .escaped := rfl
  have hu : scanStep .escaped (.scalar 'u') = .continue (.hexDigits 3 0) := rfl
  cases c with
  | surrogate u => rfl
  | scalar c =>
    rw [escapeCodePoint, escapeChar, pieceOf]
    cases he : shortEscape c with
    | some e =>
      show scanPieces .plain (.scalar backslash :: .scalar e :: s) = _
      rw [scanPieces_continue hslash, scanPieces_emit (scanStep_shortEscape he)]
      rfl
    | none =>
      by_cases hc : c.toNat < 0x20
      · simp only [hc, if_true, and_self]
        show scanPieces .plain (.scalar backslash :: .scalar 'u' ::
          .scalar (Nat.digitChar 0) :: .scalar (Nat.digitChar 0) ::
            .scalar (c.toNat / 16).digitChar :: .scalar (c.toNat % 16).digitChar :: s) = _
        rw [scanPieces_continue hslash, scanPieces_continue hu,
          scanPieces_continue (scanStep_hexDigits (by norm_num)),
          scanPieces_continue (scanStep_hexDigits (by norm_num)),
          scanPieces_continue (scanStep_hexDigits (by omega)),
          scanPieces_emit (scanStep_lastDigit (c := c) (by omega) (by omega))]
      · simp only [hc, if_false, and_false]
        exact scanPieces_emit (scanStep_plain he hc) s

/-- A quoted text is scanned as the pieces that it was written for. -/
theorem scanPieces_quote (t s : Str) :
    scanPieces .plain (t.flatMap escapeCodePoint ++ .scalar quoteMark :: s) =
      some (t.map pieceOf, s) := by
  induction t with
  | nil => rfl
  | cons c t ih =>
    rw [List.flatMap_cons, List.append_assoc, scanPieces_escape, ih]
    rfl

/-- The pieces of a text are joined to the text. -/
theorem joinPieces_map (t : Str) : joinPieces none (t.map pieceOf) = t := by
  induction t with
  | nil => rfl
  | cons c t ih =>
    cases c with
    | surrogate u => rw [List.map_cons, pieceOf, joinPieces, ih]
    | scalar c =>
      rw [List.map_cons, pieceOf]
      split_ifs <;> rw [joinPieces, ih]

/-- **Reading a string literal gives the string back.** -/
theorem scanString_quote (t s : Str) :
    scanString ((quote t).tail ++ s) = some (t, s) := by
  rw [quote, List.tail_cons, List.append_assoc, List.singleton_append, scanString,
    scanPieces_quote, Option.map_some, joinPieces_map]

/-- Quoting code points is quoting characters. -/
theorem quote_ofChars (s : List Char) : quote (ofChars s) = ofChars (quoteChars s) := by
  rw [quote, quoteChars, ofChars_cons, ofChars_append]
  congr 2
  induction s with
  | nil => rfl
  | cons c s ih =>
    rw [ofChars_cons, List.flatMap_cons, List.flatMap_cons, ofChars_append, ih]
    rfl

/-- No string literal contains a line feed. -/
theorem newline_notMem_quoteChars (s : List Char) : '\n' ∉ quoteChars s := by
  have hchar : ∀ c, '\n' ∉ escapeChar c := by
    intro c hc
    unfold escapeChar at hc
    cases he : shortEscape c with
    | some e =>
      have hun := (unescape_shortEscape he).2
      simp only [he, List.mem_cons, List.not_mem_nil, or_false] at hc
      rcases hc with hc | rfl
      · exact absurd hc (by decide)
      · exact absurd hun (by simp [unescape, quoteMark, backslash])
    | none =>
      have hdigit : ∀ n < 16, '\n' ≠ n.digitChar := by decide
      simp only [he] at hc
      split_ifs at hc with h
      · simp only [List.mem_cons, List.not_mem_nil, or_false] at hc
        rcases hc with hc | hc | hc | hc | hc | hc
        · exact absurd hc (by decide)
        · exact absurd hc (by decide)
        · exact absurd hc (by decide)
        · exact absurd hc (by decide)
        · exact hdigit _ (by omega) hc
        · exact hdigit _ (by omega) hc
      · rw [← List.mem_singleton.1 hc] at h
        exact h (by decide)
  intro h
  rcases List.mem_cons.1 h with h | h
  · exact absurd h (by decide)
  · rcases List.mem_append.1 h with h | h
    · obtain ⟨c, -, hc⟩ := List.mem_flatMap.1 h
      exact hchar c hc
    · exact absurd h (by decide)

example : scanString (lit "a\\u00e9\\ud83d\\ude00\\ud800\x22,") =
    some (.scalar 'a' :: .scalar 'é' :: .scalar '😀' :: [.surrogate 0], lit ",") := by decide

end Json
end Vestrix
