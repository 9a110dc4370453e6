/-
# The verifier's canonical JSON

`canonical.rs`: `parse` reads one value with `serde_json` and refuses duplicate keys,
integers outside `i64` and whatever `serde_json` refuses; `serialize` writes a value in
the one form that CHAIN_FORMAT.md permits.

How `serde_json` makes a binary64 number of a token is a parameter `readFloat` of the
reader; it may find the number out of range.  The containers it opens within each
other are at most 127, one less than the limit that its counter starts from.
-/

import Vestrix.Json.Grammar
import Vestrix.Json.Literal
import Vestrix.Verifier.FloatFormat

namespace Vestrix
namespace Verifier

open Text Rounding Json Outcome

/-- `serde_json::Number`: an `i64` or a `u64`, or a finite `f64`. -/
inductive Number where
  | int (n : ℤ) (range : -2 ^ 63 ≤ n ∧ n < 2 ^ 64)
  | float (x : Binary64)
deriving DecidableEq

/-- The values of `serde_json::Value` that are not containers. -/
inductive Scalar where
  | null
  | bool (b : Bool)
  | number (n : Number)
  | string (s : List Char)
deriving DecidableEq

/-- `serde_json::Value`. -/
abbrev Value := Json (List Char) Scalar

/-- `Number::as_i64`. -/
def Number.asI64 : Number → Option ℤ
  | .int n _ => if n < 2 ^ 63 then some n else none
  | .float _ => none

/-- The nearest `f64` to a rational. -/
def toFloat64 (negative : Bool) (p d : ℕ) : Float64 :=
  if h : nearest p d < infinite then .finite ⟨negative, nearest p d, h⟩ else .infinite negative

/-- `Number::as_f64`. -/
def Number.asF64 : Number → Float64
  | .int n _ => toFloat64 (decide (n < 0)) n.natAbs 1
  | .float x => .finite x

/-! ### Writing -/

/-- Why a value cannot be written: a number that is not finite. -/
inductive CanonicalizeError where
  | nonFinite
deriving DecidableEq

/-- `canonicalize_float`. -/
def canonicalizeFloat : Float64 → Except CanonicalizeError (List Char)
  | .finite x => .ok (formatFiniteFloat x)
  | .infinite _ => .error .nonFinite
  | .nan => .error .nonFinite

/-- `format_number`. -/
def formatNumber (number : Number) : Except CanonicalizeError (List Char) :=
  match number.asI64 with
  | some n => .ok (intText n)
  | none => canonicalizeFloat number.asF64

/-- What adds the text of a value to a text, or fails. -/
abbrev Writer := List Char → Except CanonicalizeError (List Char)

/-- `write_value` on a scalar. -/
def writeScalar : Scalar → Writer
  | .null, output => .ok (output ++ "null".toList)
  | .bool b, output => .ok (output ++ (if b then "true" else "false").toList)
  | .number n, output => (formatNumber n).map (output ++ ·)
  | .string s, output => .ok (output ++ quoteChars s)

/-- The items of a container, all but the first after a comma. -/
def writeItems : Bool → List Writer → Writer
  | _, [], output => .ok output
  | first, w :: ws, output =>
    match w (if first then output else output ++ [',']) with
    | .ok output => writeItems false ws output
    | .error e => .error e

/-- `write_value` on an array. -/
def writeArray (values : List Writer) : Writer := fun output =>
  (writeItems true values (output ++ ['['])).map (· ++ [']'])

/-- A key and its value. -/
def writeMember (m : List Char × Writer) : Writer := fun output =>
  m.2 (output ++ (quoteChars m.1 ++ [':']))

/-- Entries in the order of their keys, which Rust compares byte by byte. -/
def sortByKey {β : Type} (ms : List (List Char × β)) : List (List Char × β) :=
  ms.insertionSort fun m n => utf8 m.1 ≤ utf8 n.1

/-- `write_value` on an object. -/
def writeObject (values : List (List Char × Writer)) : Writer := fun output =>
  (writeItems true ((sortByKey values).map writeMember) (output ++ ['\x7b'])).map (· ++ ['\x7d'])

/-- `write_value`. -/
def writeValue : Value → Writer := fold writeScalar writeArray writeObject

/-- `serialize`. -/
def serialize (value : Value) : Except CanonicalizeError (List UInt8) :=
  (writeValue value []).map utf8

/-! ### Reading -/

/-- Why a text is not a strict JSON value. -/
inductive ParseError where
  | malformed
  | recursionLimit
  | duplicateKey (key : List Char)
  | integerRange
  | numberRange
deriving DecidableEq

/-- `serde_json` reading a number that is not an integer of 64 bits. -/
abbrev FloatReader := NumberToken → Option Binary64

/-- `visit_u64` and `visit_i64` on the integer that `serde_json` makes of a sign and
digits: none if it needs more than 64 bits or is a negative zero. -/
def readInteger (negative : Bool) (n : ℕ) : Option (Except ParseError Number) :=
  if negative then
    if h : 0 < n ∧ n ≤ 2 ^ 63 then some (.ok (.int (-n) (by omega))) else none
  else if n < 2 ^ 64 then
    some (if h : n < 2 ^ 63 then .ok (.int n (by omega)) else .error .integerRange)
  else none

/-- `visit_u64`, `visit_i64` and `visit_f64` on the number that `serde_json` makes of a
token. -/
def readNumber (readFloat : FloatReader) (t : NumberToken) : Except ParseError Number :=
  match if t.isInteger then readInteger t.negative (digitsValue t.int) else none with
  | some r => r
  | none =>
    match readFloat t with
    | some x => .ok (.float x)
    | none => .error .numberRange

/-- A string literal whose opening quote has been read: no surrogate may be left. -/
def readString (s : Str) : Except ParseError (List Char × Str) :=
  match scanString s with
  | none => .error .malformed
  | some (t, s) =>
    match scalars? t with
    | none => .error .malformed
    | some t => .ok (t, s)

/-- The number that a text starts with, which must end there. -/
def readNumberText (readFloat : FloatReader) (s : Str) : Except ParseError (Scalar × Str) :=
  match scanNumber s with
  | none => .error .malformed
  | some (t, s) =>
    if s.head?.any fun c => c.scalar?.any isNumberChar then .error .malformed
    else (readNumber readFloat t).map fun n => (.number n, s)

/-- A word, and what it stands for. -/
def readWord (word : List Char) (a : Scalar) (s : Str) : Except ParseError (Scalar × Str) :=
  match skipText word s with
  | some s => .ok (a, s)
  | none => .error .malformed

/-- `deserialize_any` on what is not a container. -/
def readScalar (readFloat : FloatReader) (s : Str) : Except ParseError (Scalar × Str) :=
  match skipText [quoteMark] s with
  | some s => (readString s).map fun r => (.string r.1, r.2)
  | none =>
    if s.head? = some (.scalar 'n') then readWord "null".toList .null s
    else if s.head? = some (.scalar 't') then readWord "true".toList (.bool true) s
    else if s.head? = some (.scalar 'f') then readWord "false".toList (.bool false) s
    else readNumberText readFloat s

/-- `Map::insert`, an entry that was there before being an error. -/
def insertEntry (values : List (List Char × Value)) (key : List Char) (value : Value) :
    Except ParseError (List (List Char × Value)) :=
  if key ∈ values.map Prod.fst then .error (.duplicateKey key)
  else .ok (sortByKey (values ++ [(key, value)]))

/-- What `StrictVisitor` and `serde_json` do with keys and scalars. -/
def grammar (readFloat : FloatReader) : Grammar (List Char) Scalar ParseError where
  readAtom := readScalar readFloat
  readKey := readString
  insert := insertEntry
  syntaxError := .malformed
  tooDeep := .recursionLimit

/-- The containers that `serde_json` opens within each other: its counter starts at 128
and must stay positive. -/
def recursionLimit : ℕ := 127

/-- `parse`. -/
def parse (readFloat : FloatReader) (input : List Char) : Except ParseError Value :=
  (grammar readFloat).parse recursionLimit (ofChars input)

/-! ### What is written -/

/-- The values that a chain may hold: integers are signed and of 64 bits. -/
def Scalar.Permitted : Scalar → Prop
  | .number (.int n _) => n < 2 ^ 63
  | _ => True

instance : DecidablePred Scalar.Permitted
  | .null => isTrue trivial
  | .bool _ => isTrue trivial
  | .number (.int n _) => inferInstanceAs (Decidable (n < 2 ^ 63))
  | .number (.float _) => isTrue trivial
  | .string _ => isTrue trivial

/-- A value of permitted scalars. -/
abbrev Permitted : Value → Prop := Json.Forall Scalar.Permitted fun _ => True

/-- The token a number is written as. -/
def Number.token : Number → NumberToken
  | .int n _ => intToken n
  | .float x => floatToken x

/-- The text of a scalar. -/
def scalarText : Scalar → List Char
  | .null => "null".toList
  | .bool b => (if b then "true" else "false").toList
  | .number n => n.token.text
  | .string s => quoteChars s

/-- The canonical text of a value. -/
def text (v : Value) : List Char := compact id quoteChars scalarText v.sorted

/-- The writer adds just the given text. -/
def Writes (w : Writer) (t : List Char) : Prop := ∀ output, w output = .ok (output ++ t)

/-- The keys are sorted as `sorted` sorts them. -/
theorem sortByKey_eq {β : Type} (ms : List (List Char × β)) : sortByKey ms = sortMembers ms := by
  have hle : ∀ m n : List Char × β, utf8 m.1 ≤ utf8 n.1 ↔ m.1 ≤ n.1 := fun m n => by
    rw [← List.not_lt, utf8_lt_iff, not_lt]
  have h := List.map_insertionSort (fun m n : List Char × β => utf8 m.1 ≤ utf8 n.1)
    (fun m n => m.1 ≤ n.1) id ms fun m _ n _ => hle m n
  rwa [List.map_id, List.map_id] at h

/-- A permitted number is written as its token. -/
theorem formatNumber_eq {n : Number} (h : Scalar.Permitted (.number n)) :
    formatNumber n = .ok n.token.text := by
  cases n with
  | int n hn =>
    have hlt : n < 2 ^ 63 := h
    rw [formatNumber, Number.asI64, if_pos hlt]
    rfl
  | float x => exact congrArg _ (formatFiniteFloat_eq x)

/-- A permitted scalar is written as its text. -/
theorem writes_scalar {a : Scalar} (h : a.Permitted) : Writes (writeScalar a) (scalarText a) := by
  intro output
  cases a with
  | number n => rw [writeScalar, formatNumber_eq h]; rfl
  | null => rfl
  | bool b => rfl
  | string s => rfl

/-- Items are written with commas between them. -/
theorem writes_items {β : Type} {w : β → Writer} {t : β → List Char} {xs : List β}
    (h : ∀ x ∈ xs, Writes (w x) (t x)) :
    Writes (writeItems true (xs.map w)) (separated id (xs.map t)) := by
  have hrest : ∀ xs : List β, (∀ x ∈ xs, Writes (w x) (t x)) →
      Writes (writeItems false (xs.map w)) (commaTexts id (xs.map t)) := by
    intro xs
    induction xs with
    | nil => exact fun _ output => congrArg _ (List.append_nil _).symm
    | cons x xs ih =>
      intro h output
      rw [List.forall_mem_cons] at h
      rw [List.map_cons, writeItems, if_neg (by decide), h.1]
      simp only
      rw [ih h.2, List.map_cons, commaTexts, commaTexts, List.flatMap_cons, List.append_assoc,
        List.append_assoc, List.cons_append, List.nil_append, List.cons_append, id_eq]
  cases xs with
  | nil => exact fun output => congrArg _ (List.append_nil _).symm
  | cons x xs =>
    intro output
    rw [List.forall_mem_cons] at h
    rw [List.map_cons, writeItems, if_pos rfl, h.1]
    simp only
    rw [hrest xs h.2, List.map_cons, separated, List.append_assoc]

/-- **`write_value` adds the text of a permitted value.** -/
theorem writes_value {v : Value} (h : Permitted v) : Writes (writeValue v) (text v) := by
  induction v using ind with
  | atom a => exact writes_scalar (forall_atom.1 h)
  | array xs ih =>
    intro output
    have hitems := writes_items (w := writeValue) fun x hx => ih x hx (forall_array.1 h x hx)
    rw [writeValue, fold_array, writeArray, ← writeValue, hitems, text, sorted_array, compact_array,
      arrayText, List.map_map]
    simp only [Except.map, id_eq, List.append_assoc, List.singleton_append]
    rfl
  | object ms ih =>
    intro output
    have hms := (forall_object.1 h).2
    have hmember : ∀ m ∈ sortMembers (ms.map (Prod.map id writeValue)), ∃ n ∈ ms,
        m = Prod.map id writeValue n := fun m hm => by
      obtain ⟨n, hn, rfl⟩ := List.mem_map.1 (mem_sortMembers.1 hm)
      exact ⟨n, hn, rfl⟩
    have hitems := @writes_items _ (fun m => writeMember (Prod.map id writeValue m))
      (fun m => memberText id quoteChars (Prod.map id text m)) (sortMembers ms) (by
        intro m hm output
        have hm' := mem_sortMembers.1 hm
        rw [writeMember, Prod.map_snd, Prod.map_fst, ih m hm' (hms m hm'), memberText, Prod.map_fst,
          Prod.map_snd, List.append_assoc, List.append_assoc]
        rfl)
    have hsort : (sortByKey (ms.map (Prod.map id writeValue))).map writeMember =
        (sortMembers ms).map fun m => writeMember (Prod.map id writeValue m) := by
      rw [sortByKey_eq, ← map_sortMembers strictMono_id, List.map_map]
      rfl
    rw [writeValue, fold_object, writeObject, ← writeValue, hsort, hitems, text, sorted_object,
      compact_object, objectText, ← map_sortMembers strictMono_id, List.map_map, List.map_map]
    simp only [Except.map, id_eq, List.append_assoc, List.singleton_append]
    rfl

/-- **A permitted value is written as the bytes of its text.** -/
theorem serialize_eq {v : Value} (h : Permitted v) : serialize v = .ok (utf8 (text v)) := by
  rw [serialize, writes_value h, List.nil_append]
  rfl

/-! ### Reading what was written -/

/-- The reader of floats that rounds once, to nearest. -/
def nearestFloat : FloatReader := fun t =>
  if h : ofDecimal t.significand t.exponent < infinite then some ⟨t.negative, _, h⟩ else none

/-- The nearest float of a float's text is that float. -/
theorem nearestFloat_floatToken (x : Binary64) : nearestFloat (floatToken x) = some x := by
  have hx := ofDecimal_floatToken x
  rw [nearestFloat, dif_pos (by rw [hx]; exact x.finite)]
  congr 1
  obtain ⟨negative, index, finite⟩ := x
  simp only [Binary64.mk.injEq]
  exact ⟨floatToken_negative _, hx⟩

/-- The scalars that a reader of floats reads back. -/
def Scalar.ReadBy (readFloat : FloatReader) (a : Scalar) : Prop :=
  a.Permitted ∧ ∀ x, a = .number (.float x) → readFloat (floatToken x) = some x

/-- A permitted scalar is read back by the nearest float. -/
theorem Scalar.Permitted.readBy {a : Scalar} (h : a.Permitted) : a.ReadBy nearestFloat :=
  ⟨h, fun x _ => nearestFloat_floatToken x⟩

variable {readFloat : FloatReader}

/-- An integer below `2 ^ 63` is read as itself. -/
theorem readInteger_int {n : ℤ} (hn : -2 ^ 63 ≤ n ∧ n < 2 ^ 64) (h : n < 2 ^ 63) :
    readInteger (decide (n < 0)) n.natAbs = some (.ok (.int n hn)) := by
  rw [readInteger]
  rcases lt_or_ge n 0 with hneg | hpos
  · have hval : -((n.natAbs : ℕ) : ℤ) = n := by omega
    rw [if_pos (decide_eq_true hneg), dif_pos (by omega)]
    simp only [hval]
  · have hval : ((n.natAbs : ℕ) : ℤ) = n := by omega
    rw [if_neg (by rw [decide_eq_true_eq]; omega), if_pos (by omega), dif_pos (by omega)]
    simp only [hval]

/-- A number is read back from its token. -/
theorem readNumber_token {n : Number} (h : (Scalar.number n).ReadBy readFloat) :
    readNumber readFloat n.token = .ok n := by
  cases n with
  | int n hn =>
    have hdigits : digitsValue (intToken n).int = n.natAbs := digitsValue_numeral _
    have hinteger : (intToken n).isInteger = true := rfl
    rw [Number.token, readNumber, hinteger, if_pos rfl, hdigits, intToken, readInteger_int hn h.1]
  | float x =>
    rw [Number.token, readNumber, floatToken_isInteger, if_neg (by decide)]
    simp only [h.2 x rfl]

/-- The token of a number is one of JSON. -/
theorem Number.token_wellFormed (n : Number) : n.token.WellFormed := by
  cases n with
  | int n hn => exact intToken_wellFormed n
  | float x => exact floatToken_wellFormed x

/-- What follows a number does not belong to it. -/
theorem head_any_eq_false {s : Str} (h : HeadNot isNumberChar s) :
    (s.head?.any fun c => c.scalar?.any isNumberChar) = false := by
  cases s with
  | nil => rfl
  | cons c s =>
    cases c with
    | scalar c => exact h c s rfl
    | surrogate u => rfl

/-- A number is read back from its text, whatever follows. -/
theorem readNumberText_token {n : Number} (h : (Scalar.number n).ReadBy readFloat) {s : Str}
    (hs : HeadNot isNumberChar s) :
    readNumberText readFloat (ofChars n.token.text ++ s) = .ok (.number n, s) := by
  rw [readNumberText, scanNumber_text n.token_wellFormed hs]
  simp only
  rw [head_any_eq_false hs, if_neg (by decide), readNumber_token h]
  rfl

/-- A string is read back from its text, whatever follows. -/
theorem readString_quote (t : List Char) (s : Str) :
    readString ((ofChars (quoteChars t)).tail ++ s) = .ok (t, s) := by
  rw [readString, ← quote_ofChars, scanString_quote]
  simp only [scalars?_ofChars]

/-- A scalar is read back from its text, whatever follows. -/
theorem readScalar_text {a : Scalar} (h : a.ReadBy readFloat) {s : Str}
    (hs : HeadNot isNumberChar s) :
    readScalar readFloat (ofChars (scalarText a) ++ s) = .ok (a, s) := by
  cases a with
  | null => rfl
  | bool b => cases b <;> rfl
  | string t =>
    have hread := readString_quote t s
    rw [scalarText, quoteChars, ofChars_cons, List.cons_append, readScalar, skipText, if_pos rfl,
      skipText]
    rw [quoteChars, ofChars_cons, List.tail_cons] at hread
    simp only [hread, Except.map]
  | number n =>
    obtain ⟨c, t, ht, hc⟩ := n.token_wellFormed.text_head
    have hread := readNumberText_token h hs
    have hne : ∀ d : Char, d.isDigit = false → d ≠ '-' → c ≠ d := by
      rintro d hd hminus rfl
      rcases hc with rfl | hc
      · exact hminus rfl
      · rw [hc] at hd
        cases hd
    rw [scalarText, ht, ofChars_cons, List.cons_append] at *
    rw [readScalar, skipText, if_neg fun h => hne quoteMark rfl (by decide) (CodePoint.scalar.inj h)]
    simp only [List.head?_cons, Option.some.injEq, CodePoint.scalar.injEq]
    rw [if_neg (hne 'n' rfl (by decide)), if_neg (hne 't' rfl (by decide)),
      if_neg (hne 'f' rfl (by decide)), hread]

/-- **The reader reads what the writer writes**, up to what it makes of floats. -/
theorem reads (readFloat : FloatReader) :
    (grammar readFloat).Reads (fun k => ofChars (quoteChars k)) (fun a => ofChars (scalarText a))
      (Scalar.ReadBy readFloat) where
  atomStart a h := by
    cases a with
    | null => exact ⟨'n', _, rfl, rfl⟩
    | bool b =>
      cases b
      · exact ⟨'f', _, rfl, rfl⟩
      · exact ⟨'t', _, rfl, rfl⟩
    | string t => exact ⟨quoteMark, _, rfl, rfl⟩
    | number n =>
      obtain ⟨c, t, ht, hc⟩ := n.token_wellFormed.text_head
      exact ⟨c, ofChars t, by rw [scalarText, ht, ofChars_cons], Grammar.startsAtom_of_number hc⟩
  atom a h s hs := readScalar_text h hs
  keyStart k := ⟨_, rfl⟩
  key k s := readString_quote k s
  insert ms k x h := by
    have hkey : k ∉ ms.map Prod.fst := fun hk => by
      obtain ⟨m, hm, rfl⟩ := List.mem_map.1 hk
      exact lt_irrefl _ ((List.pairwise_append.1 h).2.2 m hm (m.1, x) (List.mem_singleton.2 rfl))
    show insertEntry ms k x = _
    rw [insertEntry, if_neg hkey, sortByKey_eq, sortMembers_eq_self h]

/-- An integer that is read is permitted. -/
theorem readInteger_permitted {negative : Bool} {m : ℕ} {n : Number}
    (h : readInteger negative m = some (.ok n)) : Scalar.Permitted (.number n) := by
  rw [readInteger] at h
  split_ifs at h with h₁ h₂ h₃ h₄
  · obtain rfl := Except.ok.inj (Option.some.inj h)
    show -(m : ℤ) < 2 ^ 63
    omega
  · obtain rfl := Except.ok.inj (Option.some.inj h)
    show (m : ℤ) < 2 ^ 63
    omega
  · cases Option.some.inj h

/-- A number that is read is permitted. -/
theorem readNumber_permitted {t : NumberToken} {n : Number} (h : readNumber readFloat t = .ok n) :
    Scalar.Permitted (.number n) := by
  rw [readNumber] at h
  split at h
  · rename_i r hr
    split_ifs at hr
    exact readInteger_permitted (h ▸ hr)
  · split at h
    · obtain rfl := Except.ok.inj h
      trivial
    · cases h

/-- A scalar that is read is permitted. -/
theorem readScalar_permitted {s r : Str} {a : Scalar} (h : readScalar readFloat s = .ok (a, r)) :
    a.Permitted := by
  have hword : ∀ {w : List Char} {b : Scalar}, b.Permitted → readWord w b s = .ok (a, r) →
      a.Permitted := by
    intro w b hb hw
    rw [readWord] at hw
    split at hw
    · obtain ⟨rfl, -⟩ := Prod.mk.inj (Except.ok.inj hw)
      exact hb
    · cases hw
  rw [readScalar] at h
  split at h
  · obtain ⟨⟨t, r'⟩, -, heq⟩ := map_eq_ok.1 h
    obtain ⟨rfl, -⟩ := Prod.mk.inj heq
    trivial
  · split_ifs at h
    · exact hword (b := .null) trivial h
    · exact hword (b := .bool true) trivial h
    · exact hword (b := .bool false) trivial h
    · rw [readNumberText] at h
      split at h
      · cases h
      · split_ifs at h
        obtain ⟨n, hn, heq⟩ := map_eq_ok.1 h
        obtain ⟨rfl, -⟩ := Prod.mk.inj heq
        exact readNumber_permitted hn

/-- What is read has permitted scalars and increasing keys. -/
theorem keeps (readFloat : FloatReader) :
    (grammar readFloat).Keeps Scalar.Permitted (List.Pairwise (· < ·)) where
  atom h := readScalar_permitted h
  nil := List.Pairwise.nil
  insert {ms k x ms'} hms h := by
    have h' : insertEntry ms k x = .ok ms' := h
    rw [insertEntry] at h'
    split_ifs at h' with hk
    obtain rfl := Except.ok.inj h'
    rw [sortByKey_eq]
    have hnodup : ((ms ++ [(k, x)]).map Prod.fst).Nodup := by
      rw [List.map_append, List.map_singleton, List.nodup_append']
      refine ⟨hms.imp fun hlt => hlt.ne, List.nodup_singleton k, ?_⟩
      simpa using hk
    refine ⟨List.pairwise_map.2 (increasing_sortMembers hnodup), fun m hm => ?_⟩
    rcases List.mem_append.1 (mem_sortMembers.1 hm) with hm | hm
    · exact Or.inl hm
    · exact Or.inr (by rw [List.mem_singleton.1 hm])

/-- A value that `parse` returns is permitted and has increasing keys. -/
theorem parse_wellFormed {input : List Char} {v : Value} (h : parse readFloat input = .ok v) :
    Permitted v ∧ v.SortedKeys := by
  have hall := (keeps readFloat).parse_forall h
  exact ⟨hall.imp (fun _ ha => ha) fun _ _ => trivial, hall.imp (fun _ _ => trivial) fun _ hks => hks⟩

/-- A value whose keys are in order is written as it stands. -/
theorem compact_text {v : Value} (hkeys : v.SortedKeys) : compact CodePoint.scalar
    (fun k => ofChars (quoteChars k)) (fun a => ofChars (scalarText a)) v = ofChars (text v) := by
  rw [text, ofChars_compact, sorted_eq_self hkeys]

/-- Reading the text of a value whose floats are read back. -/
theorem parse_text {v : Value} (hv : v.Forall (Scalar.ReadBy readFloat) (List.Pairwise (· < ·)))
    (depth : ℕ) : (grammar readFloat).parse depth (ofChars (text v)) =
      if v.depth ≤ depth then .ok v else .error .recursionLimit := by
  rw [← compact_text (hv.imp (fun _ _ => trivial) fun _ hks => hks)]
  exact (reads readFloat).parse_compact hv depth

end Verifier
end Vestrix
