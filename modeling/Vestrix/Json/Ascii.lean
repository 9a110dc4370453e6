/-
# ASCII string literals

What `json.dumps` writes for a string by default: the short escapes, the printable ASCII characters
as they stand, and `\u` escapes for the rest, two of them for a code point past `0xFFFF`.  A literal
is a word of printable ASCII, whatever the string is (`isPrintable_quoteAscii`).

Two escapes next to each other are read as one character if they are a leading and a trailing
surrogate.  So a string in which no leading surrogate comes right before a trailing one is read back
(`scanString_quoteAscii`), and strings that are read from a text without surrogates are of this kind
(`unpaired_of_scanString`).
-/

import Vestrix.Json.Grammar
import Vestrix.Json.Literal

namespace Vestrix
namespace Json

open Text

/-! ### Writing -/

/-- `\u` and four hexadecimal digits. -/
def unicodeEscape (n : ℕ) : List Char :=
  [backslash, 'u', (n / 0x1000).digitChar, (n / 0x100 % 16).digitChar, (n / 16 % 16).digitChar,
    (n % 16).digitChar]

/-- What is left of a character past `0xFFFF` after two surrogates have been told apart. -/
theorem char_sub_lt (c : Char) : c.toNat - 0x10000 < 0x100000 := by
  have hv : c.toNat.isValidChar := c.valid
  simp only [Nat.isValidChar] at hv
  omega

/-- The leading surrogate of a character past `0xFFFF`. -/
def leading (c : Char) : Fin 0x800 :=
  ⟨(c.toNat - 0x10000) / 0x400, by have := char_sub_lt c; omega⟩

/-- The trailing surrogate. -/
def trailing (c : Char) : Fin 0x800 := ⟨0x400 + (c.toNat - 0x10000) % 0x400, by omega⟩

/-- `[ -~]`. -/
def isPrintable (c : Char) : Bool := decide (0x20 ≤ c.toNat ∧ c.toNat ≤ 0x7E)

/-- The characters a code point is written with. -/
def escapeAscii : CodePoint → List Char
  | .surrogate u => unicodeEscape (CodePoint.surrogate u).ord
  | .scalar c =>
    match shortEscape c with
    | some e => [backslash, e]
    | none =>
      if isPrintable c then [c]
      else if c.toNat < 0x10000 then unicodeEscape c.toNat
      else unicodeEscape (CodePoint.surrogate (leading c)).ord ++
        unicodeEscape (CodePoint.surrogate (trailing c)).ord

/-- The string literal of a Python string, in ASCII. -/
def quoteAscii (s : Str) : List Char := quoteMark :: (s.flatMap escapeAscii ++ [quoteMark])

/-- Hexadecimal digits are printable. -/
theorem isPrintable_digitChar {n : ℕ} (h : n < 16) : isPrintable n.digitChar = true := by
  interval_cases n <;> rfl

/-- A `\u` escape is printable. -/
theorem isPrintable_unicodeEscape {n : ℕ} (h : n < 0x10000) :
    ∀ c ∈ unicodeEscape n, isPrintable c = true := by
  simp only [unicodeEscape, List.forall_mem_cons]
  exact ⟨rfl, rfl, isPrintable_digitChar (by omega), isPrintable_digitChar (by omega),
    isPrintable_digitChar (by omega), isPrintable_digitChar (by omega), fun _ h => by cases h⟩

/-- A surrogate has four hexadecimal digits. -/
theorem ord_surrogate_lt (u : Fin 0x800) : (CodePoint.surrogate u).ord < 0x10000 := by
  rw [CodePoint.ord]
  omega

/-- Every code point is written with printable characters. -/
theorem isPrintable_escapeAscii (c : CodePoint) : ∀ d ∈ escapeAscii c, isPrintable d = true := by
  cases c with
  | surrogate u => exact isPrintable_unicodeEscape (ord_surrogate_lt u)
  | scalar c =>
    rw [escapeAscii]
    split
    · rename_i e he
      have hshort : isPrintable e = true := by
        rw [shortEscape] at he
        split_ifs at he <;> obtain rfl := Option.some.inj he <;> rfl
      simp only [List.forall_mem_cons]
      exact ⟨rfl, hshort, fun _ h => by cases h⟩
    · split_ifs with hprintable hplane
      · exact fun d hd => List.mem_singleton.1 hd ▸ hprintable
      · exact isPrintable_unicodeEscape hplane
      · intro d hd
        rcases List.mem_append.1 hd with hd | hd
        · exact isPrintable_unicodeEscape (ord_surrogate_lt _) d hd
        · exact isPrintable_unicodeEscape (ord_surrogate_lt _) d hd

/-- **A literal is printable ASCII.** -/
theorem isPrintable_quoteAscii (s : Str) : ∀ c ∈ quoteAscii s, isPrintable c = true := by
  intro c hc
  rcases List.mem_cons.1 hc with rfl | hc
  · rfl
  rcases List.mem_append.1 hc with hc | hc
  · obtain ⟨a, -, hc⟩ := List.mem_flatMap.1 hc
    exact isPrintable_escapeAscii a c hc
  · rw [List.mem_singleton.1 hc]
    rfl

section Compact

variable {σ α : Type} {keyText : σ → List Char} {atomText : α → List Char}

/-- Printable texts with commas between them are printable. -/
theorem isPrintable_separated {ts : List (List Char)} (h : ∀ t ∈ ts, ∀ c ∈ t, isPrintable c = true) :
    ∀ c ∈ separated id ts, isPrintable c = true := by
  cases ts with
  | nil => exact fun c hc => by cases hc
  | cons t ts =>
    obtain ⟨ht, hts⟩ := List.forall_mem_cons.1 h
    intro c hc
    rcases List.mem_append.1 hc with hc | hc
    · exact ht c hc
    · obtain ⟨u, hu, hc⟩ := List.mem_flatMap.1 hc
      rcases List.mem_cons.1 hc with rfl | hc
      · rfl
      · exact hts u hu c hc

/-- Printable text in printable brackets is printable. -/
theorem isPrintable_enclosed {a b : Char} {t : List Char} (ha : isPrintable a = true)
    (hb : isPrintable b = true) (h : ∀ c ∈ t, isPrintable c = true) :
    ∀ c ∈ a :: (t ++ [b]), isPrintable c = true := by
  simp only [List.forall_mem_cons, List.forall_mem_append]
  exact ⟨ha, h, hb, fun c hc => by cases hc⟩

/-- A value is printable if its keys and atoms are. -/
theorem isPrintable_compact (hkey : ∀ k, ∀ c ∈ keyText k, isPrintable c = true)
    (hatom : ∀ a, ∀ c ∈ atomText a, isPrintable c = true) (v : Json σ α) :
    ∀ c ∈ compact id keyText atomText v, isPrintable c = true := by
  induction v using ind with
  | atom a =>
    rw [compact_atom]
    exact hatom a
  | array xs ih =>
    rw [compact_array]
    exact isPrintable_enclosed rfl rfl (isPrintable_separated (List.forall_mem_map.2 ih))
  | object ms ih =>
    rw [compact_object]
    refine isPrintable_enclosed rfl rfl (isPrintable_separated ?_)
    simp only [List.forall_mem_map, memberText, List.forall_mem_append, List.forall_mem_cons]
    exact fun m hm => ⟨hkey m.1, rfl, ih m hm⟩

end Compact

/-! ### Reading what was written -/

/-- The pieces that a code point is written as. -/
def asciiPieces : CodePoint → List Piece
  | .surrogate u => [.unit (.surrogate u)]
  | .scalar c =>
    if (shortEscape c).isSome ∨ isPrintable c then [.raw (.scalar c)]
    else if c.toNat < 0x10000 then [.unit (.scalar c)]
    else [.unit (.surrogate (leading c)), .unit (.surrogate (trailing c))]

/-- The number of a surrogate is that of a code point. -/
theorem codePoint?_surrogate (u : Fin 0x800) :
    codePoint? (CodePoint.surrogate u).ord = some (.surrogate u) := by
  have hlt := u.isLt
  have hinvalid : ¬ (0xD800 + u.val).isValidChar := by
    simp only [Nat.isValidChar]
    omega
  rw [CodePoint.ord, codePoint?, if_neg hinvalid, dif_pos (by omega)]
  simp

/-- A `\u` escape is read as one piece. -/
theorem scanPieces_unicodeEscape {n : ℕ} (hn : n < 0x10000) {c : CodePoint} (hc : codePoint? n = some c)
    (s : Str) : scanPieces .plain (ofChars (unicodeEscape n) ++ s) =
      (scanPieces .plain s).map fun r => (.unit c :: r.1, r.2) := by
  have hslash : scanStep .plain (.scalar backslash) = .continue .escaped := rfl
  have hu : scanStep .escaped (.scalar 'u') = .continue (.hexDigits 3 0) := rfl
  have hlast : scanStep (.hexDigits 0 (((0 * 16 + n / 0x1000) * 16 + n / 0x100 % 16) * 16 + n / 16 % 16))
      (.scalar (n % 16).digitChar) = .emit (.unit c) := by
    have hvalue : (((0 * 16 + n / 0x1000) * 16 + n / 0x100 % 16) * 16 + n / 16 % 16) * 16 + n % 16 = n := by
      omega
    rw [scanStep, hexValue?_digitChar (by omega)]
    simp only [hvalue, hc]
  rw [unicodeEscape]
  simp only [ofChars_cons, ofChars_nil, List.cons_append, List.nil_append]
  rw [scanPieces_continue hslash, scanPieces_continue hu, scanPieces_continue (scanStep_hexDigits (by omega)),
    scanPieces_continue (scanStep_hexDigits (by omega)), scanPieces_continue (scanStep_hexDigits (by omega)),
    scanPieces_emit hlast]

/-- A written code point is read as its pieces. -/
theorem scanPieces_escapeAscii (c : CodePoint) (s : Str) :
    scanPieces .plain (ofChars (escapeAscii c) ++ s) =
      (scanPieces .plain s).map fun r => (asciiPieces c ++ r.1, r.2) := by
  have hslash : scanStep .plain (.scalar backslash) = .continue .escaped := rfl
  cases c with
  | surrogate u => exact scanPieces_unicodeEscape (ord_surrogate_lt u) (codePoint?_surrogate u) s
  | scalar c =>
    rw [escapeAscii, asciiPieces]
    cases he : shortEscape c with
    | some e =>
      show scanPieces .plain (.scalar backslash :: .scalar e :: s) = _
      rw [scanPieces_continue hslash, scanPieces_emit (scanStep_shortEscape he), Option.isSome_some,
        if_pos (Or.inl rfl)]
      rfl
    | none =>
      simp only [Option.isSome_none, Bool.false_eq_true, false_or]
      split_ifs with hprintable hplane
      · have hrange := of_decide_eq_true hprintable
        exact scanPieces_emit (scanStep_plain he (by omega)) s
      · exact scanPieces_unicodeEscape hplane (codePoint?_toNat c) s
      · rw [ofChars_append, List.append_assoc,
          scanPieces_unicodeEscape (ord_surrogate_lt _) (codePoint?_surrogate _),
          scanPieces_unicodeEscape (ord_surrogate_lt _) (codePoint?_surrogate _), Option.map_map]
        rfl

/-- The escapes of a text are scanned as the pieces that they were written for. -/
theorem scanPieces_quoteAscii (t s : Str) :
    scanPieces .plain (ofChars (t.flatMap escapeAscii) ++ .scalar quoteMark :: s) =
      some (t.flatMap asciiPieces, s) := by
  induction t with
  | nil => rfl
  | cons c t ih =>
    rw [List.flatMap_cons, ofChars_append, List.append_assoc, scanPieces_escapeAscii, ih]
    rfl

/-- A leading surrogate and a trailing one. -/
def IsPair : CodePoint → CodePoint → Prop
  | .surrogate u, .surrogate w => u.val < 0x400 ∧ 0x400 ≤ w.val
  | _, _ => False

/-- No leading surrogate comes right before a trailing one. -/
def Unpaired (s : Str) : Prop := s.IsChain fun c d => ¬ IsPair c d

/-- Two surrogates that are no pair are no character. -/
theorem joinSurrogates_eq_none {u w : Fin 0x800} (h : ¬ IsPair (.surrogate u) (.surrogate w)) :
    joinSurrogates u w = none := if_neg h

/-- The first surrogate of a character has its upper ten bits. -/
@[simp] theorem leading_val (c : Char) : (leading c).val = (c.toNat - 0x10000) / 0x400 := rfl

/-- The second surrogate of a character has its lower ten bits. -/
@[simp] theorem trailing_val (c : Char) : (trailing c).val = 0x400 + (c.toNat - 0x10000) % 0x400 := rfl

/-- A pair of surrogates is the character whose bits it has. -/
theorem joinSurrogates_eq_some {u w : Fin 0x800} {c : Char} (h : IsPair (.surrogate u) (.surrogate w))
    (hnumber : 0x10000 + u.val * 0x400 + (w.val - 0x400) = c.toNat) : joinSurrogates u w = some c := by
  have hpair : u.val < 0x400 ∧ 0x400 ≤ w.val := h
  rw [joinSurrogates, if_pos hpair, hnumber, Char.ofNat_toNat]

/-- A number above the plane is put together from its upper and its lower bits. -/
theorem add_div_add_mod {n : ℕ} (h : ¬ n < 0x10000) :
    0x10000 + (n - 0x10000) / 0x400 * 0x400 + (0x400 + (n - 0x10000) % 0x400 - 0x400) = n := by
  omega

/-- The two surrogates of a character are a pair. -/
theorem isPair_split (c : Char) : IsPair (.surrogate (leading c)) (.surrogate (trailing c)) := by
  have hsub := char_sub_lt c
  rw [IsPair, leading_val, trailing_val]
  omega

/-- A character is put together from its surrogates. -/
theorem leading_add_trailing {c : Char} (h : ¬ c.toNat < 0x10000) :
    0x10000 + (leading c).val * 0x400 + ((trailing c).val - 0x400) = c.toNat := by
  rw [leading_val, trailing_val]
  exact add_div_add_mod h

/-- The surrogates of a character stand for it. -/
theorem joinSurrogates_split {c : Char} (h : ¬ c.toNat < 0x10000) :
    joinSurrogates (leading c) (trailing c) = some c :=
  joinSurrogates_eq_some (isPair_split c) (leading_add_trailing h)

/-- A surrogate waits for the next piece. -/
theorem joinPieces_surrogate (w : Fin 0x800) (ps : List Piece) :
    joinPieces none (.unit (.surrogate w) :: ps) = joinPieces (some w) ps := rfl

/-- A surrogate that does not pair with the next one is itself. -/
theorem joinPieces_some_surrogate {u w : Fin 0x800} (h : ¬ IsPair (.surrogate u) (.surrogate w))
    (ps : List Piece) :
    joinPieces (some u) (.unit (.surrogate w) :: ps) = .surrogate u :: joinPieces (some w) ps := by
  rw [joinPieces, joinSurrogates_eq_none h]

/-- A surrogate that does not pair with the next code point comes before it. -/
theorem joinPieces_some {u : Fin 0x800} {c : CodePoint} {ps : List Piece}
    (h : ¬ IsPair (.surrogate u) c) :
    joinPieces (some u) (asciiPieces c ++ ps) = .surrogate u :: joinPieces none (asciiPieces c ++ ps) := by
  cases c with
  | surrogate w =>
    rw [asciiPieces, List.singleton_append, joinPieces_some_surrogate h, joinPieces_surrogate]
  | scalar c =>
    rw [asciiPieces]
    split_ifs with hraw hplane
    · rfl
    · rfl
    · have hlead : ¬ IsPair (.surrogate u) (.surrogate (leading c)) := fun hpair =>
        Nat.not_le.2 (isPair_split c).1 hpair.2
      rw [List.cons_append, List.singleton_append, joinPieces_some_surrogate hlead, joinPieces_surrogate]

/-- A string without pairs is what its pieces stand for. -/
theorem joinPieces_asciiPieces {s : Str} (h : Unpaired s) : joinPieces none (s.flatMap asciiPieces) = s := by
  induction s with
  | nil => rfl
  | cons c s ih =>
    rw [List.flatMap_cons]
    have hs := ih (List.IsChain.of_cons h)
    cases c with
    | scalar c =>
      rw [asciiPieces]
      split_ifs with hraw hplane
      · exact congrArg _ hs
      · exact congrArg _ hs
      · rw [List.cons_append, List.singleton_append, joinPieces_surrogate, joinPieces,
          joinSurrogates_split hplane]
        exact congrArg _ hs
    | surrogate u =>
      rw [asciiPieces, List.singleton_append, joinPieces_surrogate]
      cases s with
      | nil => rfl
      | cons d s =>
        rw [List.flatMap_cons] at hs ⊢
        rw [joinPieces_some (List.isChain_cons_cons.1 h).1, hs]

/-- **Reading a literal gives the string back**, if it has no pair of surrogates. -/
theorem scanString_quoteAscii {t : Str} (h : Unpaired t) (s : Str) :
    scanString ((ofChars (quoteAscii t)).tail ++ s) = some (t, s) := by
  rw [quoteAscii, ofChars_cons, List.tail_cons, ofChars_append, List.append_assoc]
  show scanString (_ ++ .scalar quoteMark :: s) = _
  rw [scanString, scanPieces_quoteAscii, Option.map_some, joinPieces_asciiPieces h]

/-! ### Strings that are read -/

/-- A piece that is no surrogate as it stands. -/
def Piece.Plain : Piece → Prop
  | .raw c => ∃ x, c = .scalar x
  | .unit _ => True

/-- A code point in front makes no pair if it is none with the next. -/
theorem Unpaired.cons {c : CodePoint} {s : Str} (h : Unpaired s) (hc : ∀ d ∈ s.head?, ¬ IsPair c d) :
    Unpaired (c :: s) := by
  cases s with
  | nil => exact .singleton _
  | cons d s => exact .cons_cons (hc d rfl) h

/-- A scalar value in front makes no pair. -/
theorem Unpaired.scalar {x : Char} {s : Str} (h : Unpaired s) : Unpaired (.scalar x :: s) :=
  h.cons fun _ _ hpair => hpair

/-- A surrogate before a scalar value makes no pair. -/
theorem Unpaired.surrogate_scalar {u : Fin 0x800} {x : Char} {s : Str} (h : Unpaired s) :
    Unpaired (.surrogate u :: .scalar x :: s) := by
  refine h.scalar.cons fun d hd hpair => ?_
  obtain rfl := Option.some.inj hd
  exact hpair

/-- A surrogate that is waited with comes first, or is part of the first character. -/
theorem head_joinPieces {w : Fin 0x800} {ps : List Piece} {d : CodePoint}
    (h : d ∈ (joinPieces (some w) ps).head?) : d = .surrogate w ∨ ∃ x, d = .scalar x := by
  cases ps with
  | nil => exact Or.inl (Option.some.inj h).symm
  | cons p ps =>
    cases p with
    | raw c => exact Or.inl (Option.some.inj h).symm
    | unit c =>
      cases c with
      | scalar x => exact Or.inl (Option.some.inj h).symm
      | surrogate v =>
        rw [joinPieces] at h
        split at h
        · exact Or.inr ⟨_, (Option.some.inj h).symm⟩
        · exact Or.inl (Option.some.inj h).symm

/-- **What pieces stand for has no pair**, if none of them is a surrogate as it stands. -/
theorem unpaired_joinPieces {ps : List Piece} (h : ∀ p ∈ ps, p.Plain) :
    Unpaired (joinPieces none ps) ∧ ∀ u, Unpaired (joinPieces (some u) ps) := by
  induction ps with
  | nil => exact ⟨.nil, fun u => .singleton _⟩
  | cons p ps ih =>
    obtain ⟨hp, hps⟩ := List.forall_mem_cons.1 h
    obtain ⟨hnone, hsome⟩ := ih hps
    cases p with
    | raw c =>
      obtain ⟨x, rfl⟩ := hp
      exact ⟨hnone.scalar, fun u => hnone.surrogate_scalar⟩
    | unit c =>
      cases c with
      | scalar x => exact ⟨hnone.scalar, fun u => hnone.surrogate_scalar⟩
      | surrogate w =>
        refine ⟨hsome w, fun u => ?_⟩
        by_cases hpair : IsPair (.surrogate u) (.surrogate w)
        · have hjoin : joinSurrogates u w = some _ := if_pos hpair
          rw [joinPieces, hjoin]
          exact hnone.scalar
        · rw [joinPieces_some_surrogate hpair]
          refine (hsome w).cons fun d hd => ?_
          rcases head_joinPieces hd with rfl | ⟨x, rfl⟩
          · exact hpair
          · exact fun h => h

/-- What a scalar value gives is no surrogate. -/
theorem plain_of_scanStep {st : Scanning} {c : Char} {p : Piece} (h : scanStep st (.scalar c) = .emit p) :
    p.Plain := by
  rw [scanStep.eq_def] at h
  cases st with
  | plain =>
    dsimp only at h
    split_ifs at h
    cases h
    exact ⟨c, rfl⟩
  | escaped =>
    dsimp only at h
    split_ifs at h
    split at h <;> cases h
    exact ⟨_, rfl⟩
  | hexDigits left value =>
    dsimp only at h
    split at h
    · cases h
    · split at h
      · cases h
      · split at h <;> cases h
        trivial

/-- A literal in a text of scalar values has no surrogates as they stand, nor has the rest. -/
theorem plain_of_scanPieces {st : Scanning} {s : List Char} {ps : List Piece} {r : Str}
    (h : scanPieces st (ofChars s) = some (ps, r)) :
    (∀ p ∈ ps, p.Plain) ∧ ∃ t, r = ofChars t := by
  induction s generalizing st ps with
  | nil => cases h
  | cons c s ih =>
    rw [ofChars_cons, scanPieces] at h
    split at h
    · obtain ⟨rfl, rfl⟩ := Prod.mk.inj (Option.some.inj h)
      exact ⟨fun p hp => (by cases hp), s, rfl⟩
    · cases h
    · exact ih h
    · rename_i p hemit
      obtain ⟨⟨ps', r'⟩, hscan, hpair⟩ := Option.map_eq_some_iff.1 h
      obtain ⟨rfl, rfl⟩ := Prod.mk.inj hpair
      obtain ⟨hps, hr⟩ := ih hscan
      exact ⟨List.forall_mem_cons.2 ⟨plain_of_scanStep hemit, hps⟩, hr⟩

/-- **Strings that are read from a text of scalar values have no pairs.** -/
theorem unpaired_of_scanString {s : List Char} {t r : Str} (h : scanString (ofChars s) = some (t, r)) :
    Unpaired t ∧ ∃ u, r = ofChars u := by
  obtain ⟨⟨ps, r'⟩, hscan, hpair⟩ := Option.map_eq_some_iff.1 h
  obtain ⟨rfl, rfl⟩ := Prod.mk.inj hpair
  obtain ⟨hps, hr⟩ := plain_of_scanPieces hscan
  exact ⟨(unpaired_joinPieces hps).1, hr⟩

end Json
end Vestrix
