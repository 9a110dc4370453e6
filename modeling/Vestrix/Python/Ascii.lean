/-
# `json.dumps` in ASCII

`json.dumps` with its defaults, but for the separators, which leave no spaces: strings as ASCII
literals, `NaN` and the infinities as words, the items of a dictionary sorted or in their order.

What it writes is one line of printable ASCII (`isPrintable_dumpsAscii`), and `loads` reads it back if
no string in it has a pair of surrogates (`loads_dumpsAscii`).  No string that `loads` has read from
text has one (`unpaired_parse`).
-/

import Vestrix.Json.Ascii
import Vestrix.Json.Within
import Vestrix.Python.Json

namespace Vestrix
namespace Python

open Text Rounding Json Outcome

/-! ### Writing -/

/-- The text of an atom. -/
def dumpsAsciiAtom : Atom → Except DumpsError (List Char)
  | .none => .ok "null".toList
  | .bool b => .ok (if b then "true" else "false").toList
  | .int n => if (numeral n.natAbs).length ≤ maxStrDigits then .ok (intText n) else .error .valueError
  | .float (.finite x) => .ok (floatRepr x)
  | .float (.infinite negative) => .ok (if negative then "-Infinity" else "Infinity").toList
  | .float .nan => .ok "NaN".toList
  | .str s => .ok (quoteAscii s)
  | .other typeName => .error (.typeError typeName)

/-- The text of a list. -/
def dumpsAsciiList (values : List (Except DumpsError (List Char))) : Except DumpsError (List Char) :=
  (Outcome.sequence values).map (arrayText id)

/-- The text of a dictionary. -/
def dumpsAsciiDict (items : List (Str × Except DumpsError (List Char))) : Except DumpsError (List Char) :=
  (Outcome.sequence (items.map fun m => m.2.map fun t => (m.1, t))).map (objectText id quoteAscii)

/-- `json.dumps(value, separators=(",", ":"))`. -/
def dumpsAscii : Value → Except DumpsError (List Char) :=
  fold dumpsAsciiAtom dumpsAsciiList dumpsAsciiDict

/-- The atoms that have a text. -/
def Atom.Writable : Atom → Prop
  | .int n => (numeral n.natAbs).length ≤ maxStrDigits
  | .other _ => False
  | _ => True

/-- The text of an atom that has one. -/
def asciiAtom : Atom → List Char
  | .none => "null".toList
  | .bool b => (if b then "true" else "false").toList
  | .int n => intText n
  | .float (.finite x) => floatRepr x
  | .float (.infinite negative) => (if negative then "-Infinity" else "Infinity").toList
  | .float .nan => "NaN".toList
  | .str s => quoteAscii s
  | .other _ => []

/-- The text of a value. -/
def asciiText : Value → List Char := compact id quoteAscii asciiAtom

/-- A value of atoms that have a text. -/
abbrev Writable : Value → Prop := Json.Forall Atom.Writable fun _ => True

/-- An atom is written just if it is writable, and as its ASCII text. -/
theorem dumpsAsciiAtom_eq_ok {a : Atom} {t : List Char} :
    dumpsAsciiAtom a = .ok t ↔ a.Writable ∧ asciiAtom a = t := by
  have hok : ∀ {u : List Char}, (Except.ok u : Except DumpsError (List Char)) = .ok t ↔ True ∧ u = t := by
    intro u
    rw [Except.ok.injEq, true_and]
  cases a with
  | none | bool | str => exact hok
  | int n =>
    rw [dumpsAsciiAtom, Atom.Writable, asciiAtom]
    split_ifs with h
    · rw [Except.ok.injEq]
      exact (and_iff_right h).symm
    · exact iff_of_false (fun h' => by cases h') fun h' => h h'.1
  | float x => cases x <;> exact hok
  | other n => exact iff_of_false (fun h => by cases h) fun h => h.1

/-- **`dumps` writes just the writable values**, as their ASCII text. -/
theorem dumpsAscii_eq_ok {v : Value} {t : List Char} :
    dumpsAscii v = .ok t ↔ Writable v ∧ asciiText v = t := by
  induction v using ind generalizing t with
  | atom a => exact dumpsAsciiAtom_eq_ok.trans (and_congr forall_atom.symm (by rw [asciiText, compact_atom]))
  | array xs ih =>
    rw [dumpsAscii, fold_array, dumpsAsciiList, map_eq_ok, ← dumpsAscii]
    simp only [sequence_eq_ok fun x hx y => ih x hx]
    rw [asciiText, compact_array, ← asciiText, Writable, forall_array]
    constructor
    · rintro ⟨ts, ⟨hall, rfl⟩, rfl⟩
      exact ⟨hall, rfl⟩
    · rintro ⟨hall, rfl⟩
      exact ⟨_, ⟨hall, rfl⟩, rfl⟩
  | object ms ih =>
    have hitem : ∀ m ∈ ms, ∀ y : Str × List Char,
        ((Prod.map id dumpsAscii m).2.map fun t => ((Prod.map id dumpsAscii m).1, t)) = .ok y ↔
          Writable m.2 ∧ Prod.map id asciiText m = y := by
      intro m hm y
      obtain ⟨k, t⟩ := y
      rw [map_eq_ok]
      simp only [id_eq, ih m hm, Prod.mk.injEq, Prod.map]
      constructor
      · rintro ⟨u, ⟨he, rfl⟩, rfl, rfl⟩
        exact ⟨he, rfl, rfl⟩
      · rintro ⟨he, rfl, rfl⟩
        exact ⟨_, ⟨he, rfl⟩, rfl, rfl⟩
    rw [dumpsAscii, fold_object, dumpsAsciiDict, map_eq_ok, ← dumpsAscii, List.map_map]
    simp only [Function.comp_def, sequence_eq_ok hitem]
    rw [asciiText, compact_object, ← asciiText, Writable, forall_object]
    simp only [true_and]
    constructor
    · rintro ⟨ts, ⟨hall, rfl⟩, rfl⟩
      exact ⟨hall, rfl⟩
    · rintro ⟨hall, rfl⟩
      exact ⟨_, ⟨hall, rfl⟩, rfl⟩

/-! ### Printable ASCII -/

/-- Digits are printable. -/
theorem isPrintable_digit {c : Char} (h : c.isDigit = true) : isPrintable c = true := by
  simp only [Char.isDigit, Bool.and_eq_true, decide_eq_true_eq, UInt32.le_iff_toNat_le] at h
  have hrange : 48 ≤ c.toNat ∧ c.toNat ≤ 57 := h
  exact decide_eq_true (by omega)

/-- Numbers are printable. -/
theorem isPrintable_number {t : NumberToken} (ht : t.WellFormed) : ∀ c ∈ t.text, isPrintable c = true := by
  have hdigits : ∀ {ds : List Char}, AllDigits ds → ∀ c ∈ ds, isPrintable c = true := fun h c hc =>
    isPrintable_digit (h c hc)
  have hsign : ∀ c ∈ signText t.negative, isPrintable c = true := by
    cases t.negative <;> exact List.all_eq_true.1 (by decide)
  have hfrac : ∀ c ∈ (if t.frac = [] then [] else '.' :: t.frac), isPrintable c = true := by
    split_ifs
    · exact fun c hc => by cases hc
    · exact List.forall_mem_cons.2 ⟨rfl, hdigits ht.frac⟩
  simp only [NumberToken.text, List.forall_mem_append]
  refine ⟨hsign, hdigits ht.int.allDigits, hfrac, ?_⟩
  cases hexp : t.exp with
  | none => exact fun c hc => by cases hc
  | some e =>
    have hds := (ht.exp e.1 e.2 hexp).2
    refine List.forall_mem_cons.2 ⟨rfl, List.forall_mem_cons.2 ⟨?_, hdigits hds⟩⟩
    split_ifs <;> rfl

/-- The text of an atom is printable. -/
theorem isPrintable_asciiAtom (a : Atom) : ∀ c ∈ asciiAtom a, isPrintable c = true := by
  cases a with
  | none => exact List.all_eq_true.1 (by decide)
  | bool b => cases b <;> exact List.all_eq_true.1 (by decide)
  | int n => exact isPrintable_number (intToken_wellFormed n)
  | float x =>
    cases x with
    | finite x => exact isPrintable_number (floatToken_wellFormed x)
    | infinite b => cases b <;> exact List.all_eq_true.1 (by decide)
    | nan => exact List.all_eq_true.1 (by decide)
  | str s => exact isPrintable_quoteAscii s
  | other n => exact fun c hc => by cases hc

/-- **What is written is printable ASCII**, and so one line. -/
theorem isPrintable_dumpsAscii {v : Value} {t : List Char} (h : dumpsAscii v = .ok t) :
    ∀ c ∈ t, isPrintable c = true := by
  obtain ⟨-, rfl⟩ := dumpsAscii_eq_ok.1 h
  exact isPrintable_compact isPrintable_quoteAscii isPrintable_asciiAtom v

/-! ### Reading what was written -/

/-- No string with a pair. -/
def Atom.Unpaired (a : Atom) : Prop := ∀ s, a = .str s → Json.Unpaired s

/-- An atom that is read back. -/
def Atom.Readable (a : Atom) : Prop := a.Writable ∧ a.Unpaired

open Classical in
/-- A literal that is read back, in ASCII where that is. -/
noncomputable def readableKey (k : Str) : Str :=
  if Json.Unpaired k then ofChars (quoteAscii k) else quote k

/-- A string without pairs of surrogates is read back from its ASCII text. -/
theorem readString_quoteAscii {t : Str} (h : Json.Unpaired t) (s : Str) :
    readString ((ofChars (quoteAscii t)).tail ++ s) = .ok (t, s) := by
  rw [readString, scanString_quoteAscii h]
  rfl

/-- A readable atom is read back from its ASCII text. -/
theorem readAtom_asciiAtom {a : Atom} (h : a.Readable) {s : Str} (hs : HeadNot isNumberChar s) :
    readAtom (ofChars (asciiAtom a) ++ s) = .ok (a, s) := by
  cases a with
  | none => rfl
  | bool b => cases b <;> rfl
  | int n => exact readAtom_text (a := .int n) h.1 hs
  | float x =>
    cases x with
    | finite x => exact readAtom_text (a := .float (.finite x)) trivial hs
    | infinite b => cases b <;> rfl
    | nan => rfl
  | str t =>
    have hread := readString_quoteAscii (h.2 t rfl) s
    rw [asciiAtom, quoteAscii, ofChars_cons, List.cons_append, readAtom, skipText, if_pos rfl, skipText]
    rw [quoteAscii, ofChars_cons, List.tail_cons] at hread
    simp only [hread, Except.map]
  | other n => exact h.1.elim

/-- The text of an atom begins as atoms do. -/
theorem startsAtom_asciiAtom {a : Atom} (h : a.Writable) :
    ∃ c t, ofChars (asciiAtom a) = .scalar c :: t ∧ Grammar.startsAtom c = true := by
  have hnumber : ∀ {t : NumberToken}, t.WellFormed → ∃ c s, ofChars t.text = .scalar c :: s ∧
      Grammar.startsAtom c = true := fun ht => by
    obtain ⟨c, s, ht, hc⟩ := ht.text_head
    exact ⟨c, ofChars s, by rw [ht, ofChars_cons], Grammar.startsAtom_of_number hc⟩
  cases a with
  | none => exact ⟨'n', _, rfl, rfl⟩
  | bool b => cases b <;> exact ⟨_, _, rfl, rfl⟩
  | int n => exact hnumber (intToken_wellFormed n)
  | float x =>
    cases x with
    | finite x => exact hnumber (floatToken_wellFormed x)
    | infinite b => cases b <;> exact ⟨_, _, rfl, rfl⟩
    | nan => exact ⟨_, _, rfl, rfl⟩
  | str t => exact ⟨quoteMark, _, rfl, rfl⟩
  | other n => exact h.elim

/-- What is written in ASCII is read back, whatever order the keys are in. -/
theorem readsAscii (order : LinearOrder Str) :
    @Grammar.Reads Str Atom LoadsError grammar order readableKey (fun a => ofChars (asciiAtom a))
      Atom.Readable where
  atomStart a h := startsAtom_asciiAtom h.1
  atom a h s hs := readAtom_asciiAtom h hs
  keyStart k := by
    rw [readableKey]
    split_ifs <;> exact ⟨_, rfl⟩
  key k s := by
    rw [readableKey]
    split_ifs with h
    · exact readString_quoteAscii h s
    · exact scanString_text k s
  insert ms k x h := by
    have hkey : k ∉ Dict.keys ms := fun hk => by
      obtain ⟨m, hm, rfl⟩ := List.mem_map.1 hk
      exact lt_irrefl _ ((List.pairwise_append.1 h).2.2 m hm (m.1, x) (List.mem_singleton.2 rfl))
    exact congrArg _ (if_neg hkey)

/-- A value that is read back: the keys of every object increase, and no string has a pair. -/
abbrev Readable (order : LinearOrder Str) : Value → Prop :=
  Json.Forall Atom.Readable fun ks => ks.Pairwise order.lt ∧ ∀ k ∈ ks, Json.Unpaired k

/-- The ASCII text of a value is its compact text. -/
theorem ofChars_asciiText {order : LinearOrder Str} {v : Value} (h : Readable order v) :
    ofChars (asciiText v) =
      compact CodePoint.scalar readableKey (fun a => ofChars (asciiAtom a)) v := by
  rw [asciiText, ofChars_compact]
  refine compact_congr CodePoint.scalar (h.imp (fun _ _ => rfl) fun ks hks k hk => ?_)
  rw [readableKey, if_pos (hks.2 k hk)]

/-- The text of a dictionary, as bytes: a brace, and a quote or another brace. -/
theorem decode_asciiText (ms : Dict) :
    decode (utf8 (asciiText (.object ms))) = some (ofChars (asciiText (.object ms))) := by
  obtain ⟨c, s, hs, hc⟩ : ∃ c s, asciiText (.object ms) = '\x7b' :: c :: s ∧ (c = '\x22' ∨ c = '\x7d') := by
    rw [asciiText, compact_object, objectText]
    cases ms with
    | nil => exact ⟨'\x7d', [], rfl, Or.inr rfl⟩
    | cons m ms => exact ⟨'\x22', _, rfl, Or.inl rfl⟩
  rw [decode, hs, ← decodeUtf8_utf8]
  rcases hc with rfl | rfl
  · rw [show utf8 ('\x7b' :: '\x22' :: s) = 0x7B :: 0x22 :: utf8 s from rfl, detectEncoding_brace (by decide)]
  · rw [show utf8 ('\x7b' :: '\x7d' :: s) = 0x7B :: 0x7D :: utf8 s from rfl, detectEncoding_brace (by decide)]

/-- **`loads` inverts `dumps`** on dictionaries whose keys increase. -/
theorem loads_dumpsAscii (order : LinearOrder Str) {ms : Dict} (h : Readable order (.object ms))
    {t : List Char} (ht : dumpsAscii (.object ms) = .ok t) : loads (utf8 t) = .ok (.object ms) := by
  obtain ⟨-, rfl⟩ := dumpsAscii_eq_ok.1 ht
  have hdepth := depth_le_length CodePoint.scalar readableKey (fun a => ofChars (asciiAtom a)) (.object ms)
  rw [loads, decode_asciiText, ofChars_asciiText h]
  have hparse := (readsAscii order).parse_compact (h.imp (fun _ ha => ha) fun _ hks => hks.1)
    (compact CodePoint.scalar readableKey (fun a => ofChars (asciiAtom a)) (.object ms)).length
  exact hparse.trans (if_pos hdepth)

/-! ### What is read from text -/

/-- A text of scalar values. -/
def ScalarText (s : Str) : Prop := ∃ t, s = ofChars t

/-- What follows in a text of scalar values has scalar values only. -/
theorem ScalarText.suffix {s r : Str} (h : ScalarText s) (hr : r <:+ s) : ScalarText r := by
  obtain ⟨t, rfl⟩ := h
  obtain ⟨u, hu⟩ := hr
  rw [ofChars] at hu
  obtain ⟨a, b, -, -, rfl⟩ := List.map_eq_append_iff.1 hu.symm
  exact ⟨b, rfl⟩

/-- A string that is read from scalar values has no pair of surrogates. -/
theorem readString_scalarText {s k r : Str} (h : ScalarText s) (hread : readString s = .ok (k, r)) :
    Json.Unpaired k ∧ ScalarText r := by
  obtain ⟨t, rfl⟩ := h
  exact unpaired_of_scanString (orError_eq_ok.1 hread)

/-- A constant that is read from scalar values has no pair of surrogates. -/
theorem readConstant_scalarText {words : List (List Char × Atom)} (hwords : ∀ w ∈ words, w.2.Unpaired)
    {s r : Str} {a : Atom} (h : ScalarText s) (hread : readConstant words s = some (a, r)) :
    a.Unpaired ∧ ScalarText r := by
  induction words with
  | nil => cases hread
  | cons w words ih =>
    obtain ⟨hw, hwords⟩ := List.forall_mem_cons.1 hwords
    rw [readConstant] at hread
    split at hread
    · rename_i s' hskip
      obtain ⟨rfl, rfl⟩ := Prod.mk.inj (Option.some.inj hread)
      exact ⟨hw, h.suffix (skipText_suffix hskip)⟩
    · exact ih hwords hread

/-- A number has no surrogates. -/
theorem readNumber_scalarText {s r : Str} {a : Atom} (h : ScalarText s) (hread : readNumber s = .ok (a, r)) :
    a.Unpaired ∧ ScalarText r := by
  rw [readNumber] at hread
  split at hread
  · cases hread
  · rename_i t s' hscan
    have hr := h.suffix (scanNumber_suffix hscan)
    split_ifs at hread <;> obtain ⟨rfl, rfl⟩ := Prod.mk.inj (Except.ok.inj hread)
    · exact ⟨fun s hs => (by cases hs), hr⟩
    · exact ⟨fun s hs => (by cases hs), hr⟩

/-- The constants have no surrogates. -/
theorem unpaired_constants : ∀ w ∈ constants, w.2.Unpaired := by
  intro w hw s hs
  simp only [constants, List.mem_cons, List.not_mem_nil, or_false] at hw
  rcases hw with rfl | rfl | rfl | rfl | rfl | rfl <;> cases hs

/-- An atom that is read from scalar values has no pair of surrogates. -/
theorem readAtom_scalarText {s r : Str} {a : Atom} (h : ScalarText s) (hread : readAtom s = .ok (a, r)) :
    a.Unpaired ∧ ScalarText r := by
  rw [readAtom] at hread
  split at hread
  · rename_i s' hskip
    obtain ⟨⟨t, r'⟩, hstring, heq⟩ := map_eq_ok.1 hread
    obtain ⟨rfl, rfl⟩ := Prod.mk.inj heq
    obtain ⟨ht, hr⟩ := readString_scalarText (h.suffix (skipText_suffix hskip)) hstring
    refine ⟨fun s hs => ?_, hr⟩
    cases hs
    exact ht
  · split at hread
    · rename_i r' hconstant
      obtain rfl := Except.ok.inj hread
      exact readConstant_scalarText unpaired_constants h hconstant
    · exact readNumber_scalarText h hread

/-- On texts of scalar values the reader finds no pairs. -/
theorem keepsIn : grammar.KeepsIn ScalarText Atom.Unpaired Json.Unpaired where
  tail h := h.suffix (List.suffix_cons _ _)
  atom := readAtom_scalarText
  key := readString_scalarText
  insert {ms k x ms'} h m hm := by
    obtain rfl := Except.ok.inj h
    rw [Dict.set] at hm
    split_ifs at hm with hkey
    · obtain ⟨n, hn, rfl⟩ := List.mem_map.1 hm
      split_ifs
      · exact Or.inr rfl
      · exact Or.inl hn
    · exact (List.mem_append.1 hm).imp_right List.mem_singleton.1

/-- **No string of a value that is read from text has a pair.** -/
theorem unpaired_parse {d : ℕ} {t : List Char} {v : Value} (h : grammar.parse d (ofChars t) = .ok v) :
    v.Forall Atom.Unpaired fun ks => ∀ k ∈ ks, Json.Unpaired k :=
  keepsIn.parse_forall ⟨t, rfl⟩ h

end Python
end Vestrix
