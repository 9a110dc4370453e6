/-
# `json.dumps` and `json.loads`

The values that Python's `json` deals with, and the two functions as `forensics` calls
them: `dumps` with sorted keys, no spaces, `ensure_ascii=False` and `allow_nan=False`,
and `loads` on bytes, with the guessing of their encoding that it starts with.

Integers are unbounded and floats may be infinite or NaN.  Two oddities of CPython 3.11
matter: an integer of more than 4300 digits is a plain `ValueError` in both directions,
and of two members with one key the later value wins.  How deeply values may be nested
is not limited here.

`loads` inverts `dumps` (`loads_dumps`): what comes back has its members in key order.
-/

import Vestrix.Json.FloatText
import Vestrix.Json.Grammar
import Vestrix.Json.Literal

namespace Vestrix
namespace Python

open Text Rounding Json Outcome

/-- The values of Python that are neither lists nor dictionaries.  `other` is an object
that `json` has no text for, a dictionary with a key that is not a string among them. -/
inductive Atom where
  | none
  | bool (b : Bool)
  | int (n : ℤ)
  | float (x : Float64)
  | str (s : Str)
  | other (typeName : Str)
deriving DecidableEq

/-- A value of Python, as `json` knows them. -/
abbrev Value := Json Str Atom

/-- The items of a dictionary, in the order they were inserted. -/
abbrev Dict := List (Str × Value)

/-- The keys of a dictionary. -/
def Dict.keys (d : Dict) : List Str := d.map Prod.fst

/-- `d.get(key)`. -/
def Dict.get? (d : Dict) (key : Str) : Option Value := lookup d key

/-- `d[key] = value`: a key keeps its place. -/
def Dict.set (d : Dict) (key : Str) (value : Value) : Dict :=
  if key ∈ d.keys then d.map fun m => if m.1 = key then (key, value) else m
  else d ++ [(key, value)]

/-- The digits that CPython converts between integers and strings at most. -/
def maxStrDigits : ℕ := 4300

/-! ### `json.dumps` -/

/-- The exceptions of `json.dumps`. -/
inductive DumpsError where
  | typeError (typeName : Str)
  | valueError
deriving DecidableEq

/-- The text of an atom. -/
def dumpsAtom : Atom → Except DumpsError Str
  | .none => .ok (lit "null")
  | .bool b => .ok (lit (if b then "true" else "false"))
  | .int n =>
    if (numeral n.natAbs).length ≤ maxStrDigits then .ok (ofChars (intText n)) else .error .valueError
  | .float (.finite x) => .ok (ofChars (floatRepr x))
  | .float _ => .error .valueError
  | .str s => .ok (quote s)
  | .other typeName => .error (.typeError typeName)

/-- The text of a list. -/
def dumpsList (values : List (Except DumpsError Str)) : Except DumpsError Str :=
  (Outcome.sequence values).map (arrayText CodePoint.scalar)

/-- The text of a dictionary, its items sorted. -/
def dumpsDict (items : List (Str × Except DumpsError Str)) : Except DumpsError Str :=
  (Outcome.sequence ((sortMembers items).map fun m => m.2.map fun t => (m.1, t))).map
    (objectText CodePoint.scalar quote)

/-- `json.dumps(value, sort_keys=True, separators=(",", ":"), ensure_ascii=False,
allow_nan=False)`. -/
def dumps : Value → Except DumpsError Str := fold dumpsAtom dumpsList dumpsDict

/-! ### `json.loads` -/

/-- The exceptions of `json.loads`: the first two are the errors it documents, and the
third is the `ValueError` of an integer with too many digits. -/
inductive LoadsError where
  | jsonDecode
  | unicodeDecode
  | intDigits
deriving DecidableEq

/-- The encodings that `json.detect_encoding` names. -/
inductive Encoding where
  | utf8
  | utf8Sig
  | utf16 (littleEndian : Bool)
  | utf32 (littleEndian : Bool)
deriving DecidableEq

/-- The encoding that the zeros among the first bytes suggest. -/
def guessEncoding : List UInt8 → Encoding
  | w :: x :: y :: z :: _ =>
    if w = 0 then (if x = 0 then .utf32 false else .utf16 false)
    else if x = 0 then (if y = 0 ∧ z = 0 then .utf32 true else .utf16 true)
    else .utf8
  | [w, x] => if w = 0 then .utf16 false else if x = 0 then .utf16 true else .utf8
  | _ => .utf8

/-- `json.detect_encoding`, and the bytes after a byte order mark. -/
def detectEncoding (b : List UInt8) : Encoding × List UInt8 :=
  if b.take 4 = [0x00, 0x00, 0xFE, 0xFF] then (.utf32 false, b.drop 4)
  else if b.take 4 = [0xFF, 0xFE, 0x00, 0x00] then (.utf32 true, b.drop 4)
  else if b.take 2 = [0xFE, 0xFF] then (.utf16 false, b.drop 2)
  else if b.take 2 = [0xFF, 0xFE] then (.utf16 true, b.drop 2)
  else if b.take 3 = [0xEF, 0xBB, 0xBF] then (.utf8Sig, b.drop 3)
  else (guessEncoding b, b)

/-- The numbers that pairs of bytes stand for. -/
def units16 (littleEndian : Bool) : List UInt8 → Option (List ℕ)
  | [] => some []
  | [_] => none
  | a :: b :: s =>
    (units16 littleEndian s).map fun us =>
      (if littleEndian then b.toNat * 256 + a.toNat else a.toNat * 256 + b.toNat) :: us

/-- The numbers that groups of four bytes stand for. -/
def units32 (littleEndian : Bool) : List UInt8 → Option (List ℕ)
  | [] => some []
  | a :: b :: c :: d :: s =>
    (units32 littleEndian s).map fun us =>
      (if littleEndian then ((d.toNat * 256 + c.toNat) * 256 + b.toNat) * 256 + a.toNat
      else ((a.toNat * 256 + b.toNat) * 256 + c.toNat) * 256 + d.toNat) :: us
  | _ => none

/-- The code points of numbers, if all are. -/
def codePoints : List ℕ → Option Str
  | [] => some []
  | n :: ns =>
    match codePoint? n, codePoints ns with
    | some c, some s => some (c :: s)
    | _, _ => none

/-- `b.decode(json.detect_encoding(b), "surrogatepass")`. -/
def decode (b : List UInt8) : Option Str :=
  match detectEncoding b with
  | (.utf8, s) => decodeUtf8 s
  | (.utf8Sig, s) => decodeUtf8 s
  | (.utf16 littleEndian, s) =>
    ((units16 littleEndian s).bind codePoints).map fun cs => joinPieces none (cs.map Piece.unit)
  | (.utf32 littleEndian, s) => (units32 littleEndian s).bind codePoints

/-- `float` of a token: rounded to nearest, and infinite if that is too large. -/
def floatOfToken (t : NumberToken) : Float64 :=
  if h : ofDecimal t.significand t.exponent < infinite then .finite ⟨t.negative, _, h⟩
  else .infinite t.negative

/-- The words that `json.loads` knows. -/
def constants : List (List Char × Atom) :=
  [("null".toList, .none), ("true".toList, .bool true), ("false".toList, .bool false),
    ("NaN".toList, .float .nan), ("Infinity".toList, .float (.infinite false)),
    ("-Infinity".toList, .float (.infinite true))]

/-- The first of some words that a text starts with. -/
def readConstant : List (List Char × Atom) → Str → Option (Atom × Str)
  | [], _ => none
  | (word, a) :: words, s =>
    match skipText word s with
    | some s => some (a, s)
    | none => readConstant words s

/-- The number that a text starts with. -/
def readNumber (s : Str) : Except LoadsError (Atom × Str) :=
  match scanNumber s with
  | none => .error .jsonDecode
  | some (t, s) =>
    if t.isInteger then
      if t.int.length ≤ maxStrDigits then .ok (.int t.toInt, s) else .error .intDigits
    else .ok (.float (floatOfToken t), s)

/-- A string whose opening quote has been read. -/
def readString (s : Str) : Except LoadsError (Str × Str) := orError .jsonDecode (scanString s)

/-- `scan_once` on what is not a container. -/
def readAtom (s : Str) : Except LoadsError (Atom × Str) :=
  match skipText [quoteMark] s with
  | some s => (readString s).map fun r => (.str r.1, r.2)
  | none =>
    match readConstant constants s with
    | some r => .ok r
    | none => readNumber s

/-- What `json.loads` does with keys and atoms. -/
def grammar : Grammar Str Atom LoadsError where
  readAtom := readAtom
  readKey := readString
  insert ms key value := .ok (Dict.set ms key value)
  syntaxError := .jsonDecode
  tooDeep := .jsonDecode

/-- `json.loads` on bytes.  A text has fewer containers than characters, so that the
bound on nesting is none. -/
def loads (b : List UInt8) : Except LoadsError Value :=
  match decode b with
  | none => .error .unicodeDecode
  | some s => grammar.parse s.length s

/-! ### What is written -/

/-- The atoms that `dumps` has a text for. -/
def Atom.Encodable : Atom → Prop
  | .int n => (numeral n.natAbs).length ≤ maxStrDigits
  | .float (.finite _) => True
  | .float _ => False
  | .other _ => False
  | _ => True

/-- The text of an atom. -/
def atomText : Atom → Str
  | .none => lit "null"
  | .bool b => lit (if b then "true" else "false")
  | .int n => ofChars (intText n)
  | .float (.finite x) => ofChars (floatRepr x)
  | .float _ => []
  | .str s => quote s
  | .other _ => []

/-- The text of a value. -/
def text (v : Value) : Str := compact CodePoint.scalar quote atomText v.sorted

/-- A value of encodable atoms. -/
abbrev Encodable : Value → Prop := Json.Forall Atom.Encodable fun _ => True

/-- An atom is written just if it can be encoded, and as its text. -/
theorem dumpsAtom_eq_ok {a : Atom} {t : Str} :
    dumpsAtom a = .ok t ↔ a.Encodable ∧ atomText a = t := by
  cases a with
  | none => exact ⟨fun h => ⟨trivial, Except.ok.inj h⟩, fun h => congrArg _ h.2⟩
  | bool b => exact ⟨fun h => ⟨trivial, Except.ok.inj h⟩, fun h => congrArg _ h.2⟩
  | int n =>
    rw [dumpsAtom, Atom.Encodable, atomText]
    split_ifs with h
    · rw [Except.ok.injEq]
      exact ⟨fun h' => ⟨h, h'⟩, fun h' => h'.2⟩
    · exact ⟨fun h' => (nomatch h'), fun h' => absurd h'.1 h⟩
  | float x =>
    cases x with
    | finite x => exact ⟨fun h => ⟨trivial, Except.ok.inj h⟩, fun h => congrArg _ h.2⟩
    | infinite b => exact ⟨fun h => (nomatch h), fun h => h.1.elim⟩
    | nan => exact ⟨fun h => (nomatch h), fun h => h.1.elim⟩
  | str s => exact ⟨fun h => ⟨trivial, Except.ok.inj h⟩, fun h => congrArg _ h.2⟩
  | other n => exact ⟨fun h => (nomatch h), fun h => h.1.elim⟩

/-- **`dumps` writes just the values that can be encoded**, as their text. -/
theorem dumps_eq_ok {v : Value} {t : Str} : dumps v = .ok t ↔ Encodable v ∧ text v = t := by
  induction v using ind generalizing t with
  | atom a => exact dumpsAtom_eq_ok.trans (and_congr forall_atom.symm Iff.rfl)
  | array xs ih =>
    rw [dumps, fold_array, dumpsList, map_eq_ok, ← dumps]
    simp only [sequence_eq_ok fun x hx y => ih x hx]
    rw [text, sorted_array, compact_array, List.map_map, Encodable, forall_array]
    constructor
    · rintro ⟨ts, ⟨hall, rfl⟩, rfl⟩
      exact ⟨hall, rfl⟩
    · rintro ⟨hall, rfl⟩
      exact ⟨_, ⟨hall, rfl⟩, rfl⟩
  | object ms ih =>
    have hitem : ∀ m ∈ sortMembers ms, ∀ y : Str × Str,
        ((Prod.map id dumps m).2.map fun t => ((Prod.map id dumps m).1, t)) = .ok y ↔
          Encodable m.2 ∧ Prod.map id text m = y := by
      intro m hm y
      obtain ⟨k, t⟩ := y
      rw [map_eq_ok]
      simp only [id_eq, ih m (mem_sortMembers.1 hm), Prod.mk.injEq,
        Prod.map]
      constructor
      · rintro ⟨u, ⟨he, rfl⟩, rfl, rfl⟩
        exact ⟨he, rfl, rfl⟩
      · rintro ⟨he, rfl, rfl⟩
        exact ⟨_, ⟨he, rfl⟩, rfl, rfl⟩
    rw [dumps, fold_object, dumpsDict, map_eq_ok, ← dumps, ← map_sortMembers strictMono_id,
      List.map_map]
    simp only [Function.comp_def, sequence_eq_ok hitem]
    rw [text, sorted_object, compact_object, ← map_sortMembers strictMono_id, List.map_map, Encodable,
      forall_object]
    simp only [true_and, mem_sortMembers]
    constructor
    · rintro ⟨ts, ⟨hall, rfl⟩, rfl⟩
      exact ⟨hall, rfl⟩
    · rintro ⟨hall, rfl⟩
      exact ⟨_, ⟨hall, rfl⟩, rfl⟩

/-! ### Reading what was written -/

/-- A float is read back from its text. -/
theorem floatOfToken_floatToken (x : Binary64) : floatOfToken (floatToken x) = .finite x := by
  have hx := ofDecimal_floatToken x
  rw [floatOfToken, dif_pos (by rw [hx]; exact x.finite)]
  congr 1
  obtain ⟨negative, index, finite⟩ := x
  simp only [Binary64.mk.injEq]
  exact ⟨floatToken_negative _, hx⟩

/-- A number is none of the constants. -/
theorem readConstant_number {t : NumberToken} (ht : t.WellFormed) (s : Str) :
    readConstant constants (ofChars t.text ++ s) = none := by
  obtain ⟨d, u, htext, hd⟩ := ht.text_eq
  have hne : ∀ c : Char, c.isDigit = false → ¬ CodePoint.scalar d = .scalar c := fun c hc h =>
    isDigit_ne hd hc (CodePoint.scalar.inj h)
  rw [htext]
  cases t.negative with
  | true =>
    have hskip : skipText "-Infinity".toList (.scalar '-' :: .scalar d :: (ofChars u ++ s)) = none := by
      show skipText ['-', 'I', 'n', 'f', 'i', 'n', 'i', 't', 'y'] _ = none
      rw [skipText, if_pos rfl, skipText, if_neg (hne 'I' rfl)]
    show readConstant constants (.scalar '-' :: .scalar d :: (ofChars u ++ s)) = none
    rw [constants, readConstant, readConstant, readConstant, readConstant, readConstant, readConstant,
      hskip]
    rfl
  | false =>
    have hskip : ∀ words : List (List Char × Atom),
        (∀ w ∈ words, w.1.head?.any fun c => !c.isDigit) →
          readConstant words (.scalar d :: (ofChars u ++ s)) = none := by
      intro words
      induction words with
      | nil => exact fun _ => rfl
      | cons w words ih =>
        intro h
        rw [List.forall_mem_cons] at h
        obtain ⟨w, a⟩ := w
        cases w with
        | nil => cases h.1
        | cons c w =>
          have hc : c.isDigit = false := by simpa using h.1
          rw [readConstant, skipText, if_neg (hne c hc)]
          exact ih h.2
    exact hskip constants (by decide)

/-- A string is read back from its text. -/
theorem scanString_text (t s : Str) : readString ((quote t).tail ++ s) = .ok (t, s) := by
  rw [readString, scanString_quote]
  rfl

/-- An integer of at most 4300 digits is read back from its text. -/
theorem readNumber_int {n : ℤ} (h : (numeral n.natAbs).length ≤ maxStrDigits) {s : Str}
    (hs : HeadNot isNumberChar s) :
    readNumber (ofChars (intText n) ++ s) = .ok (.int n, s) := by
  have hinteger : (intToken n).isInteger = true := rfl
  have hlen : (intToken n).int.length ≤ maxStrDigits := h
  rw [readNumber, intText, scanNumber_text (intToken_wellFormed n) hs]
  simp only [hinteger, hlen, if_true, toInt_intToken]

/-- A float is read back as a float. -/
theorem readNumber_float (x : Binary64) {s : Str} (hs : HeadNot isNumberChar s) :
    readNumber (ofChars (floatRepr x) ++ s) = .ok (.float (.finite x), s) := by
  rw [readNumber, floatRepr, scanNumber_text (floatToken_wellFormed x) hs]
  simp only [floatToken_isInteger, Bool.false_eq_true, if_false, floatOfToken_floatToken]

/-- A number is read by `scan_once` as a number. -/
theorem readAtom_number {t : NumberToken} (ht : t.WellFormed) (s : Str) :
    readAtom (ofChars t.text ++ s) = readNumber (ofChars t.text ++ s) := by
  have hconstant := readConstant_number ht s
  obtain ⟨c, u, htext, hc⟩ := ht.text_head
  have hquote : c ≠ quoteMark := by
    rintro rfl
    rcases hc with h | h
    · exact absurd h (by decide)
    · exact absurd h (by decide)
  have hskip : skipText [quoteMark] (ofChars t.text ++ s) = none := by
    rw [htext, ofChars_cons, List.cons_append, skipText,
      if_neg fun h => hquote (CodePoint.scalar.inj h)]
  rw [readAtom, hskip, hconstant]

/-- An atom that can be encoded is read back from its text. -/
theorem readAtom_text {a : Atom} (h : a.Encodable) {s : Str} (hs : HeadNot isNumberChar s) :
    readAtom (atomText a ++ s) = .ok (a, s) := by
  cases a with
  | none => rfl
  | bool b => cases b <;> rfl
  | int n =>
    have hread := readAtom_number (intToken_wellFormed n) s
    rw [← intText] at hread
    rw [atomText, hread, readNumber_int h hs]
  | float x =>
    cases x with
    | finite x =>
      have hread := readAtom_number (floatToken_wellFormed x) s
      rw [← floatRepr] at hread
      rw [atomText, hread, readNumber_float x hs]
    | infinite b => exact h.elim
    | nan => exact h.elim
  | str t =>
    have hread := scanString_text t s
    rw [atomText, quote, List.cons_append, readAtom, skipText, if_pos rfl, skipText]
    rw [quote, List.tail_cons] at hread
    simp only [hread, Except.map]
  | other n => exact h.elim

/-- The grammar of `json.loads` reads what `json.dumps` writes. -/
theorem reads : grammar.Reads quote atomText Atom.Encodable where
  atomStart a h := by
    have hnumber : ∀ {t : NumberToken}, t.WellFormed → ∃ c s, ofChars t.text = .scalar c :: s ∧
        Grammar.startsAtom c = true := fun ht => by
      obtain ⟨c, s, ht, hc⟩ := ht.text_head
      exact ⟨c, ofChars s, by rw [ht, ofChars_cons], Grammar.startsAtom_of_number hc⟩
    cases a with
    | none => exact ⟨'n', _, rfl, rfl⟩
    | bool b =>
      cases b
      · exact ⟨'f', _, rfl, rfl⟩
      · exact ⟨'t', _, rfl, rfl⟩
    | int n => exact hnumber (intToken_wellFormed n)
    | float x =>
      cases x with
      | finite x => exact hnumber (floatToken_wellFormed x)
      | infinite b => exact h.elim
      | nan => exact h.elim
    | str t => exact ⟨quoteMark, _, rfl, rfl⟩
    | other n => exact h.elim
  atom a h s hs := readAtom_text h hs
  keyStart k := ⟨_, rfl⟩
  key k s := scanString_text k s
  insert ms k x h := by
    have hkey : k ∉ Dict.keys ms := fun hk => by
      obtain ⟨m, hm, rfl⟩ := List.mem_map.1 hk
      exact lt_irrefl _ ((List.pairwise_append.1 h).2.2 m hm (m.1, x) (List.mem_singleton.2 rfl))
    exact congrArg _ (if_neg hkey)

/-- Setting a key adds it behind the others, unless it is there. -/
theorem Dict.keys_set (d : Dict) (key : Str) (value : Value) :
    (d.set key value).keys = if key ∈ d.keys then d.keys else d.keys ++ [key] := by
  rw [Dict.set]
  split_ifs with h
  · rw [Dict.keys, Dict.keys, List.map_map]
    refine List.map_congr_left fun m hm => ?_
    rw [Function.comp_apply]
    split_ifs with hm
    · exact hm.symm
    · rfl
  · rw [Dict.keys, Dict.keys, List.map_append]
    rfl

/-- A new key is set behind the others. -/
theorem Dict.set_eq_append {d : Dict} {key : Str} (h : key ∉ d.keys) (value : Value) :
    d.set key value = d ++ [(key, value)] := if_neg h

/-- The items are those that were there, but for the value that is set. -/
theorem Dict.mem_set {d : Dict} {key : Str} {value : Value} {m : Str × Value}
    (h : m ∈ d.set key value) : m ∈ d ∨ m.2 = value := by
  rw [Dict.set] at h
  split_ifs at h with hkey
  · obtain ⟨n, hn, rfl⟩ := List.mem_map.1 h
    split_ifs
    · exact Or.inr rfl
    · exact Or.inl hn
  · rcases List.mem_append.1 h with h | h
    · exact Or.inl h
    · exact Or.inr (by rw [List.mem_singleton.1 h])

/-- A dictionary has each key once after one is set. -/
theorem Dict.nodup_set {d : Dict} (h : d.keys.Nodup) (key : Str) (value : Value) :
    (d.set key value).keys.Nodup := by
  rw [Dict.keys_set]
  split_ifs with hkey
  · exact h
  · exact List.nodup_append'.2 ⟨h, List.nodup_singleton key, by simpa using hkey⟩

/-- What `json.loads` reads has each key once. -/
theorem keeps : grammar.Keeps (fun _ => True) List.Nodup where
  atom _ := trivial
  nil := List.nodup_nil
  insert hms h := by
    obtain rfl := Except.ok.inj h
    exact ⟨Dict.nodup_set hms _ _, fun m hm => Dict.mem_set hm⟩

/-- Dictionaries that `loads` returns have distinct keys. -/
theorem loads_distinctKeys {b : List UInt8} {v : Value} (h : loads b = .ok v) : v.DistinctKeys := by
  rw [loads] at h
  split at h
  · cases h
  · exact keeps.parse_forall h

/-- Bytes that start with a brace and another byte that is not zero are UTF-8. -/
theorem detectEncoding_brace {b : UInt8} (hb : b ≠ 0) (s : List UInt8) :
    detectEncoding (0x7B :: b :: s) = (.utf8, 0x7B :: b :: s) := by
  have hguess : guessEncoding (0x7B :: b :: s) = .utf8 := by
    match s with
    | [] => rw [guessEncoding, if_neg (by decide), if_neg hb]
    | [y] => rfl
    | y :: z :: s => rw [guessEncoding, if_neg (by decide), if_neg hb]
  have hne : ∀ {n : ℕ} {c : UInt8} {cs : List UInt8}, (0x7B : UInt8) ≠ c →
      (0x7B :: b :: s).take (n + 1) ≠ c :: cs := fun hc h => hc (List.cons.inj h).1
  rw [detectEncoding, if_neg (hne (by decide)), if_neg (hne (by decide)), if_neg (hne (by decide)),
    if_neg (hne (by decide)), if_neg (hne (by decide)), hguess]

/-- The text of a dictionary starts with a brace, and a quote or another brace. -/
theorem text_object_head (ms : Dict) : ∃ c s, text (.object ms) = .scalar '\x7b' :: .scalar c :: s ∧
    (c = '\x22' ∨ c = '\x7d') := by
  rw [text, sorted_object, compact_object, objectText]
  cases sortMembers (ms.map (Prod.map id sorted)) with
  | nil => exact ⟨'\x7d', [], rfl, Or.inr rfl⟩
  | cons m ms => exact ⟨'\x22', _, rfl, Or.inl rfl⟩

/-- **`loads` inverts `dumps`** on dictionaries that can be encoded: what is read has its
members in key order. -/
theorem loads_text {ms : Dict} (h : Encodable (.object ms)) (hkeys : (object ms).DistinctKeys)
    {b : List UInt8} (hb : encodeUtf8 (text (.object ms)) = some b) :
    loads b = .ok (object ms).sorted := by
  obtain ⟨t, ht, rfl⟩ := Option.map_eq_some_iff.1 hb
  have htext := scalars?_eq_some_iff.1 ht
  have hdecode : decode (utf8 t) = some (ofChars t) := by
    obtain ⟨c, s, hs, hc⟩ := text_object_head ms
    rw [htext] at hs
    obtain ⟨u, rfl⟩ : ∃ u, t = '\x7b' :: c :: u := by
      cases t with
      | nil => cases hs
      | cons x t =>
        cases t with
        | nil => cases hs
        | cons y t =>
          simp only [ofChars_cons, List.cons.injEq, CodePoint.scalar.injEq] at hs
          exact ⟨t, by rw [hs.1, hs.2.1]⟩
    rw [decode, ← decodeUtf8_utf8]
    rcases hc with rfl | rfl
    · rw [show utf8 ('\x7b' :: '\x22' :: u) = 0x7B :: 0x22 :: utf8 u from rfl,
        detectEncoding_brace (by decide)]
    · rw [show utf8 ('\x7b' :: '\x7d' :: u) = 0x7B :: 0x7D :: utf8 u from rfl,
        detectEncoding_brace (by decide)]
  have hsorted : (object ms).sorted.Forall Atom.Encodable (List.Pairwise (· < ·)) :=
    ((forall_sorted (fun _ _ => trivial) h).and (sortedKeys_sorted hkeys)).imp (fun _ ha => ha.1)
      fun _ hks => hks.2
  have hdepth := depth_le_length CodePoint.scalar quote atomText (object ms).sorted
  rw [← text] at hdepth
  rw [loads, hdecode, ← htext]
  exact (reads.parse_compact hsorted _).trans (if_pos hdepth)

/-- **Dictionaries that are written alike are the same** up to the order of their members. -/
theorem text_injective {ms ns : Dict} (hm : Encodable (.object ms)) (hn : Encodable (.object ns))
    (hms : (object ms).DistinctKeys) (hns : (object ns).DistinctKeys) {b : List UInt8}
    (h : encodeUtf8 (text (.object ms)) = some b) (h' : encodeUtf8 (text (.object ns)) = some b) :
    (object ms).sorted = (object ns).sorted :=
  Except.ok.inj ((loads_text hm hms h).symm.trans (loads_text hn hns h'))

end Python
end Vestrix
