/-
# Reading and writing JSON text

`compact` writes a value without any space.  `parse` is a recursive descent reader
that leaves to a `Grammar` what differs between libraries: the atoms and keys it
reads, what it does with a key that an object has already, and how it fails.  It
opens at most `depth` containers within each other.

**Reading what was written** (`parseValue_compact`): a value whose atoms and keys can
be read back is read back, if it is not nested too deeply, and is refused as nested too
deeply if it is.
-/

import Vestrix.Json.Number
import Vestrix.Json.Tree
import Vestrix.Outcome
import Mathlib.Tactic.Tauto

namespace Vestrix
namespace Json

open Text Outcome

variable {σ α ε : Type}

/-! ### Writing -/

section Compact

variable {χ : Type} (punct : Char → χ)

/-- Texts, each after a comma. -/
def commaTexts (ts : List (List χ)) : List χ := ts.flatMap fun t => punct ',' :: t

/-- Texts with commas between them. -/
def separated : List (List χ) → List χ
  | [] => []
  | t :: ts => t ++ commaTexts punct ts

/-- The text of an array of texts. -/
def arrayText (ts : List (List χ)) : List χ := punct '[' :: (separated punct ts ++ [punct ']'])

variable (keyText : σ → List χ) (atomText : α → List χ)

/-- The text of one member. -/
def memberText (m : σ × List χ) : List χ := keyText m.1 ++ (punct ':' :: m.2)

/-- The text of an object of texts. -/
def objectText (ms : List (σ × List χ)) : List χ :=
  punct '\x7b' :: (separated punct (ms.map (memberText punct keyText)) ++ [punct '\x7d'])

/-- The text of a value without any space, members in the order they have. -/
def compact : Json σ α → List χ := fold atomText (arrayText punct) (objectText punct keyText)

/-- The text of an atom. -/
@[simp] theorem compact_atom (a : α) : compact punct keyText atomText (.atom a) = atomText a :=
  fold_atom ..

/-- The text of an array is made of those of its items. -/
@[simp] theorem compact_array (xs : List (Json σ α)) :
    compact punct keyText atomText (.array xs) =
      arrayText punct (xs.map (compact punct keyText atomText)) :=
  fold_array ..

/-- The text of an object is made of its keys and those of its members. -/
@[simp] theorem compact_object (ms : List (σ × Json σ α)) :
    compact punct keyText atomText (.object ms) =
      objectText punct keyText (ms.map (Prod.map id (compact punct keyText atomText))) :=
  fold_object ..

/-- A mapped value is written as the value is, with the keys and atoms mapped. -/
theorem compact_map {τ β : Type} (f : σ → τ) (g : α → β) (keyText : τ → List χ) (atomText : β → List χ)
    (v : Json σ α) : compact punct keyText atomText (v.map f g) =
      compact punct (fun k => keyText (f k)) (fun a => atomText (g a)) v := by
  induction v using ind with
  | atom a => rw [map_atom, compact_atom, compact_atom]
  | array xs ih =>
    rw [map_array, compact_array, compact_array, List.map_map]
    exact congrArg _ (List.map_congr_left ih)
  | object ms ih =>
    rw [map_object, compact_object, compact_object, objectText, objectText, List.map_map, List.map_map,
      List.map_map]
    congr 3
    refine List.map_congr_left fun m hm => ?_
    simp only [Function.comp_apply, memberText, Prod.map_fst, Prod.map_snd, id_eq, ih m hm]

/-- Only the texts of the keys and atoms of a value are part of its text. -/
theorem compact_congr {keyText keyText' : σ → List χ} {atomText atomText' : α → List χ} {v : Json σ α}
    (h : Json.Forall (fun a => atomText a = atomText' a) (fun ks => ∀ k ∈ ks, keyText k = keyText' k) v) :
    compact punct keyText atomText v = compact punct keyText' atomText' v := by
  induction v using ind with
  | atom a =>
    rw [compact_atom, compact_atom]
    exact (forall_atom (P := fun a => atomText a = atomText' a)).1 h
  | array xs ih =>
    rw [compact_array, compact_array]
    exact congrArg _ (List.map_congr_left fun x hx => ih x hx (forall_array.1 h x hx))
  | object ms ih =>
    obtain ⟨hkeys, hms⟩ := forall_object.1 h
    rw [compact_object, compact_object, objectText, objectText, List.map_map, List.map_map]
    congr 3
    refine List.map_congr_left fun m hm => ?_
    simp only [Function.comp_apply, memberText, Prod.map_fst, Prod.map_snd, id_eq, ih m hm (hms m hm),
      hkeys m.1 (List.mem_map_of_mem hm)]

/-- Each part is no longer than the whole. -/
theorem length_le_separated {t : List χ} {ts : List (List χ)} (h : t ∈ ts) :
    t.length ≤ (separated punct ts).length := by
  cases ts with
  | nil => exact absurd h List.not_mem_nil
  | cons u us =>
    rw [separated, List.length_append]
    rcases List.mem_cons.1 h with rfl | h
    · omega
    · have hsub := (List.sublist_flatten_of_mem (List.mem_map_of_mem (f := fun t => punct ',' :: t) h)).length_le
      rw [← List.flatMap_def, ← commaTexts, List.length_cons] at hsub
      omega

/-- A text has as many characters as containers within each other at least. -/
theorem depth_le_length (v : Json σ α) : v.depth ≤ (compact punct keyText atomText v).length := by
  induction v using ind with
  | atom a => exact Nat.zero_le _
  | array xs ih =>
    rw [compact_array, arrayText, List.length_cons, depth_array_le]
    intro x hx
    have := length_le_separated punct (List.mem_map_of_mem (f := compact punct keyText atomText) hx)
    rw [List.length_append]
    exact (ih x hx).trans (by omega)
  | object ms ih =>
    rw [compact_object, objectText, List.length_cons, depth_object_le, List.map_map]
    intro m hm
    have := length_le_separated punct (List.mem_map_of_mem
      (f := memberText punct keyText ∘ Prod.map id (compact punct keyText atomText)) hm)
    rw [Function.comp_apply, memberText, Prod.map_fst, Prod.map_snd, List.length_append,
      List.length_cons] at this
    rw [List.length_append]
    exact (ih m hm).trans (by omega)

end Compact

section Characters

variable (keyText : σ → List Char) (atomText : α → List Char)

/-- Commas are put between code points as between characters. -/
theorem ofChars_separated (ts : List (List Char)) :
    ofChars (separated id ts) = separated CodePoint.scalar (ts.map ofChars) := by
  have hcomma : ∀ ts : List (List Char),
      ofChars (commaTexts id ts) = commaTexts CodePoint.scalar (ts.map ofChars) := by
    intro ts
    induction ts with
    | nil => rfl
    | cons t ts ih =>
      rw [commaTexts, List.flatMap_cons, ofChars_append, ← commaTexts, ih]
      rfl
  cases ts with
  | nil => rfl
  | cons t ts => rw [separated, ofChars_append, hcomma]; rfl

/-- Writing characters and writing code points is the same. -/
theorem ofChars_compact (v : Json σ α) :
    ofChars (compact id keyText atomText v) =
      compact CodePoint.scalar (fun k => ofChars (keyText k)) (fun a => ofChars (atomText a)) v := by
  induction v using ind with
  | atom a => rw [compact_atom, compact_atom]
  | array xs ih =>
    rw [compact_array, compact_array, arrayText, arrayText, id_eq, ofChars_cons, ofChars_append,
      ofChars_separated, List.map_map]
    congr 3
    exact List.map_congr_left ih
  | object ms ih =>
    rw [compact_object, compact_object, objectText, objectText, id_eq, ofChars_cons, ofChars_append,
      ofChars_separated, List.map_map, List.map_map, List.map_map]
    congr 3
    refine List.map_congr_left fun m hm => ?_
    simp only [Function.comp_apply, memberText, Prod.map_fst, Prod.map_snd, id_eq, ofChars_append,
      ofChars_cons, ih m hm]

end Characters

/-! ### Reading -/

/-- What a reader of JSON text does with keys and atoms, and how it fails. -/
structure Grammar (σ α ε : Type) where
  /-- Reads the atom that a text starts with. -/
  readAtom : Str → Except ε (α × Str)
  /-- Reads a key whose opening quote has been read. -/
  readKey : Str → Except ε (σ × Str)
  /-- Adds a member to those read before. -/
  insert : List (σ × Json σ α) → σ → Json σ α → Except ε (List (σ × Json σ α))
  /-- Failure on a text that is not JSON. -/
  syntaxError : ε
  /-- Failure on too many containers within each other. -/
  tooDeep : ε

/-- The text after the spaces it starts with. -/
def skipSpace : Str → Str
  | .scalar c :: s =>
    if c = ' ' ∨ c = '\t' ∨ c = '\n' ∨ c = '\r' then skipSpace s else .scalar c :: s
  | s => s

/-- The text after spaces and the given character. -/
def skipChar (c : Char) (s : Str) : Option Str :=
  match skipSpace s with
  | a :: s => if a = .scalar c then some s else none
  | [] => none

namespace Grammar

variable (g : Grammar σ α ε)

mutual

/-- One value, opening at most `depth` containers within each other. -/
def parseValue : ℕ → ℕ → Str → Except ε (Json σ α × Str)
  | 0, _, _ => .error g.syntaxError
  | fuel + 1, depth, s =>
    match skipChar '[' s with
    | some s =>
      match depth with
      | 0 => .error g.tooDeep
      | depth + 1 => (parseElements fuel depth true s).map fun r => (.array r.1, r.2)
    | none =>
      match skipChar '\x7b' s with
      | some s =>
        match depth with
        | 0 => .error g.tooDeep
        | depth + 1 => (parseMembers fuel depth true [] s).map fun r => (.object r.1, r.2)
      | none => (g.readAtom (skipSpace s)).map fun r => (.atom r.1, r.2)

/-- The elements of an array, up to its closing bracket. -/
def parseElements : ℕ → ℕ → Bool → Str → Except ε (List (Json σ α) × Str)
  | 0, _, _, _ => .error g.syntaxError
  | fuel + 1, depth, first, s =>
    match skipChar ']' s with
    | some s => .ok ([], s)
    | none =>
      match if first then some s else skipChar ',' s with
      | none => .error g.syntaxError
      | some s =>
        match parseValue fuel depth s with
        | .error e => .error e
        | .ok (x, s) => (parseElements fuel depth false s).map fun r => (x :: r.1, r.2)

/-- The members of an object after those in `ms`, up to its closing brace. -/
def parseMembers : ℕ → ℕ → Bool → List (σ × Json σ α) → Str →
    Except ε (List (σ × Json σ α) × Str)
  | 0, _, _, _, _ => .error g.syntaxError
  | fuel + 1, depth, first, ms, s =>
    match skipChar '\x7d' s with
    | some s => .ok (ms, s)
    | none =>
      match (if first then some s else skipChar ',' s).bind (skipChar '\x22') with
      | none => .error g.syntaxError
      | some s =>
        match g.readKey s with
        | .error e => .error e
        | .ok (k, s) =>
          match skipChar ':' s with
          | none => .error g.syntaxError
          | some s =>
            match parseValue fuel depth s with
            | .error e => .error e
            | .ok (x, s) =>
              match g.insert ms k x with
              | .error e => .error e
              | .ok ms => parseMembers fuel depth false ms s

end

/-- A text that is one value and spaces. -/
def parse (depth : ℕ) (s : Str) : Except ε (Json σ α) :=
  match g.parseValue (2 * s.length + 2) depth s with
  | .error e => .error e
  | .ok (v, s) => if skipSpace s = [] then .ok v else .error g.syntaxError

/-! ### Reading what was written -/

/-- A character that an atom can start with: no space and no punctuation. -/
def startsAtom (c : Char) : Bool :=
  !(c == ' ' || c == '\t' || c == '\n' || c == '\r' || c == '[' || c == ']' || c == '\x7b' ||
    c == '\x7d' || c == ',')

/-- Numbers start with a character that starts an atom. -/
theorem startsAtom_of_number {c : Char} (h : c = '-' ∨ c.isDigit = true) :
    startsAtom c = true := by
  rcases h with rfl | h
  · rfl
  · have hne : ∀ d : Char, d.isDigit = false → (c == d) = false := fun d hd =>
      beq_eq_false_iff_ne.2 (isDigit_ne h hd)
    simp only [startsAtom, hne ' ' rfl, hne '\t' rfl, hne '\n' rfl, hne '\r' rfl,
      hne '[' rfl, hne ']' rfl, hne '\x7b' rfl, hne '\x7d' rfl, hne ',' rfl, Bool.or_self,
      Bool.not_false]

/-- What the writer of atoms that satisfy `P` and the reader agree on. -/
structure Reads [LinearOrder σ] (keyText : σ → Str) (atomText : α → Str) (P : α → Prop) :
    Prop where
  atomStart : ∀ a, P a → ∃ c t, atomText a = .scalar c :: t ∧ startsAtom c = true
  atom : ∀ a, P a → ∀ s, HeadNot isNumberChar s → g.readAtom (atomText a ++ s) = .ok (a, s)
  keyStart : ∀ k, ∃ t, keyText k = .scalar '\x22' :: t
  key : ∀ k s, g.readKey ((keyText k).tail ++ s) = .ok (k, s)
  insert : ∀ ms k x, Increasing (ms ++ [(k, x)]) → g.insert ms k x = .ok (ms ++ [(k, x)])

/-- A character that is no white space is not skipped. -/
theorem skipSpace_cons {c : Char} (h : c ≠ ' ' ∧ c ≠ '\t' ∧ c ≠ '\n' ∧ c ≠ '\r') (s : Str) :
    skipSpace (.scalar c :: s) = .scalar c :: s := by
  rw [skipSpace, if_neg]
  rintro (rfl | rfl | rfl | rfl)
  exacts [h.1 rfl, h.2.1 rfl, h.2.2.1 rfl, h.2.2.2 rfl]

/-- A character that is no white space is skipped just if it is the one looked for. -/
theorem skipChar_cons {c : Char} (h : c ≠ ' ' ∧ c ≠ '\t' ∧ c ≠ '\n' ∧ c ≠ '\r') (d : Char)
    (s : Str) : skipChar d (.scalar c :: s) = if c = d then some s else none := by
  rw [skipChar, skipSpace_cons h]
  simp only [CodePoint.scalar.injEq]

section RoundTrip

variable {g} {keyText : σ → Str} {atomText : α → Str}

/-- What a value that can be written is read as. -/
def ReadsBack (g : Grammar σ α ε) (keyText : σ → Str) (atomText : α → Str) (v : Json σ α) : Prop :=
  ∀ fuel d s, 2 * (compact CodePoint.scalar keyText atomText v).length ≤ fuel → HeadNot isNumberChar s →
    g.parseValue fuel d (compact CodePoint.scalar keyText atomText v ++ s) =
      if v.depth ≤ d then .ok (v, s) else .error g.tooDeep

/-- The text of a value begins with a character that is neither white space nor the end of something. -/
theorem Reads.compact_cons [LinearOrder σ] {P : α → Prop} (h : g.Reads keyText atomText P) {v : Json σ α}
    {Q : List σ → Prop} (hv : v.Forall P Q) : ∃ c t, compact CodePoint.scalar keyText atomText v = .scalar c :: t ∧
      c ≠ ' ' ∧ c ≠ '\t' ∧ c ≠ '\n' ∧ c ≠ '\r' ∧ c ≠ ']' ∧ c ≠ '\x7d' ∧ c ≠ ',' := by
  cases v with
  | atom a =>
    obtain ⟨c, t, ht, hc⟩ := h.atomStart a (forall_atom.1 hv)
    refine ⟨c, t, by rw [compact_atom, ht], ?_⟩
    simp only [startsAtom, Bool.not_eq_true', Bool.or_eq_false_iff, beq_eq_false_iff_ne] at hc
    tauto
  | array xs => exact ⟨'[', _, by rw [compact_array, arrayText], by decide⟩
  | object ms => exact ⟨'\x7b', _, by rw [compact_object, objectText], by decide⟩

/-- Behind a number there is nothing that could belong to it. -/
theorem commaTexts_append_headNot (ts : List Str) {c : Char} (hc : isNumberChar c = false) (s : Str) :
    HeadNot isNumberChar (commaTexts CodePoint.scalar ts ++ .scalar c :: s) := by
  cases ts with
  | nil => exact HeadNot.cons hc s
  | cons t ts => exact HeadNot.cons rfl _

/-- The items after the first are read back, if they are not nested too deep. -/
theorem parseElements_commaTexts {d : ℕ} {s : Str} :
    ∀ (xs : List (Json σ α)) (fuel : ℕ), (∀ x ∈ xs, ReadsBack g keyText atomText x) →
      2 * (commaTexts CodePoint.scalar (xs.map (compact CodePoint.scalar keyText atomText))).length + 1 ≤ fuel →
      g.parseElements fuel d false
          (commaTexts CodePoint.scalar (xs.map (compact CodePoint.scalar keyText atomText)) ++ .scalar ']' :: s) =
        if ∀ x ∈ xs, x.depth ≤ d then .ok (xs, s) else .error g.tooDeep := by
  intro xs
  induction xs with
  | nil =>
    intro fuel _ hfuel
    obtain ⟨fuel, rfl⟩ : ∃ n, fuel = n + 1 := ⟨fuel - 1, by omega⟩
    rw [List.map_nil, commaTexts, List.flatMap_nil, List.nil_append, parseElements,
      skipChar_cons (by decide)]
    simp
  | cons x xs ih =>
    intro fuel hread hfuel
    rw [List.forall_mem_cons] at hread
    simp only [List.map_cons, commaTexts, List.flatMap_cons, List.cons_append, List.length_cons,
      List.length_append, List.append_assoc] at hfuel ⊢
    rw [← commaTexts] at hfuel ⊢
    obtain ⟨fuel, rfl⟩ : ∃ n, fuel = n + 1 := ⟨fuel - 1, by omega⟩
    rw [parseElements, skipChar_cons (by decide), if_neg (by decide)]
    simp only [Bool.false_eq_true, if_false]
    rw [skipChar_cons (by decide), if_pos rfl]
    simp only
    rw [hread.1 fuel d _ (by omega) (commaTexts_append_headNot _ rfl s)]
    simp only [List.forall_mem_cons]
    by_cases hx : x.depth ≤ d
    · rw [if_pos hx]
      simp only
      rw [ih fuel hread.2 (by omega)]
      by_cases hxs : ∀ x ∈ xs, x.depth ≤ d
      · rw [if_pos hxs, if_pos ⟨hx, hxs⟩]
        rfl
      · rw [if_neg hxs, if_neg fun h => hxs h.2]
        rfl
    · rw [if_neg hx, if_neg fun h => hx h.1]

/-- The members after some others are read back, if they are not nested too deep. -/
theorem Reads.parseMembers_commaTexts [LinearOrder σ] {P : α → Prop} (h : g.Reads keyText atomText P) {d : ℕ}
    {s : Str} :
    ∀ (ns ms : List (σ × Json σ α)) (fuel : ℕ), (∀ n ∈ ns, ReadsBack g keyText atomText n.2) →
      Increasing (ms ++ ns) →
      2 * (commaTexts CodePoint.scalar ((ns.map (Prod.map id (compact CodePoint.scalar keyText atomText))).map
        (memberText CodePoint.scalar keyText))).length + 1 ≤ fuel →
      g.parseMembers fuel d false ms
          (commaTexts CodePoint.scalar ((ns.map (Prod.map id (compact CodePoint.scalar keyText atomText))).map
            (memberText CodePoint.scalar keyText)) ++ .scalar '\x7d' :: s) =
        if ∀ n ∈ ns, n.2.depth ≤ d then .ok (ms ++ ns, s) else .error g.tooDeep := by
  intro ns
  induction ns with
  | nil =>
    intro ms fuel _ _ hfuel
    obtain ⟨fuel, rfl⟩ : ∃ n, fuel = n + 1 := ⟨fuel - 1, by omega⟩
    rw [List.map_nil, List.map_nil, commaTexts, List.flatMap_nil, List.nil_append, parseMembers,
      skipChar_cons (by decide), List.append_nil]
    simp
  | cons n ns ih =>
    intro ms fuel hread hinc hfuel
    obtain ⟨k, x⟩ := n
    obtain ⟨t, ht⟩ := h.keyStart k
    have hkey := h.key k
    rw [List.forall_mem_cons] at hread
    have hback : ReadsBack g keyText atomText x := hread.1
    simp only [List.map_cons, commaTexts, List.flatMap_cons, List.cons_append, List.length_cons,
      List.length_append, List.append_assoc, memberText, Prod.map_apply, id_eq, ht] at hfuel ⊢
    rw [← commaTexts] at hfuel ⊢
    rw [ht, List.tail_cons] at hkey
    obtain ⟨fuel, rfl⟩ : ∃ n, fuel = n + 1 := ⟨fuel - 1, by omega⟩
    rw [parseMembers, skipChar_cons (by decide), if_neg (by decide)]
    simp only [Bool.false_eq_true, if_false]
    rw [skipChar_cons (by decide), if_pos rfl, Option.bind_some, skipChar_cons (by decide), if_pos rfl]
    simp only
    rw [hkey]
    simp only
    rw [skipChar_cons (by decide), if_pos rfl]
    simp only
    rw [hback fuel d _ (by omega) (commaTexts_append_headNot _ rfl s)]
    have hsplit : Increasing ((ms ++ [(k, x)]) ++ ns) := by
      rwa [List.append_assoc, List.singleton_append]
    have hfirst := (List.pairwise_append.1 hsplit).1
    simp only [List.forall_mem_cons]
    by_cases hx : x.depth ≤ d
    · rw [if_pos hx]
      simp only
      rw [h.insert ms k x hfirst]
      simp only
      rw [ih (ms ++ [(k, x)]) fuel hread.2 hsplit (by omega),
        List.append_assoc, List.singleton_append]
      by_cases hns : ∀ n ∈ ns, n.2.depth ≤ d
      · rw [if_pos hns, if_pos ⟨hx, hns⟩]
      · rw [if_neg hns, if_neg fun h => hns h.2]
    · rw [if_neg hx, if_neg fun h => hx h.1]

/-- The first element is read as if it stood after a comma. -/
theorem parseElements_true {fuel d : ℕ} {s : Str} (h : skipChar ']' s = none) :
    g.parseElements (fuel + 1) d true s = g.parseElements (fuel + 1) d false (.scalar ',' :: s) := by
  have hcomma : skipChar ']' (.scalar ',' :: s) = none := by
    rw [skipChar_cons (by decide), if_neg (by decide)]
  rw [parseElements, parseElements, h, hcomma]
  simp only [if_true, Bool.false_eq_true, if_false]
  rw [skipChar_cons (by decide), if_pos rfl]

/-- The first member is read as if it stood after a comma. -/
theorem parseMembers_true {fuel d : ℕ} {ms : List (σ × Json σ α)} {s : Str}
    (h : skipChar '\x7d' s = none) :
    g.parseMembers (fuel + 1) d true ms s =
      g.parseMembers (fuel + 1) d false ms (.scalar ',' :: s) := by
  have hcomma : skipChar '\x7d' (.scalar ',' :: s) = none := by
    rw [skipChar_cons (by decide), if_neg (by decide)]
  rw [parseMembers, parseMembers, h, hcomma]
  simp only [if_true, Bool.false_eq_true, if_false]
  rw [skipChar_cons (by decide), if_pos rfl]

/-- Each further text has a comma before it. -/
theorem commaTexts_cons (t : Str) (ts : List Str) :
    commaTexts CodePoint.scalar (t :: ts) = .scalar ',' :: separated CodePoint.scalar (t :: ts) := rfl

variable [LinearOrder σ] {P : α → Prop}

/-- An array is read back if its items are. -/
theorem Reads.readsBack_array (h : g.Reads keyText atomText P) {Q : List σ → Prop}
    {xs : List (Json σ α)} (hall : ∀ x ∈ xs, x.Forall P Q)
    (hread : ∀ x ∈ xs, ReadsBack g keyText atomText x) :
    ReadsBack g keyText atomText (.array xs) := by
  intro fuel d s hfuel _
  rw [compact_array, arrayText, List.cons_append, List.append_assoc] at *
  simp only [List.length_cons, List.length_append, List.length_nil] at hfuel
  obtain ⟨fuel, rfl⟩ : ∃ n, fuel = n + 2 := ⟨fuel - 2, by omega⟩
  rw [parseValue, skipChar_cons (by decide), if_pos rfl]
  cases d with
  | zero => rw [if_neg (by rw [depth_array]; omega)]
  | succ d =>
    simp only [depth_array_le]
    have helements : g.parseElements (fuel + 1) d true
        (separated CodePoint.scalar (xs.map (compact CodePoint.scalar keyText atomText)) ++ ([.scalar ']'] ++ s)) =
          if ∀ x ∈ xs, x.depth ≤ d then .ok (xs, s) else .error g.tooDeep := by
      cases xs with
      | nil =>
        rw [List.map_nil, separated, List.nil_append, List.singleton_append, parseElements,
          skipChar_cons (by decide)]
        simp
      | cons x xs =>
        obtain ⟨c, t, ht, h₁, h₂, h₃, h₄, h₅, -, -⟩ := h.compact_cons (hall x List.mem_cons_self)
        have hskip : skipChar ']' (separated CodePoint.scalar ((x :: xs).map
            (compact CodePoint.scalar keyText atomText)) ++ ([.scalar ']'] ++ s)) = none := by
          rw [List.map_cons, separated, ht, List.cons_append, List.cons_append,
            skipChar_cons ⟨h₁, h₂, h₃, h₄⟩, if_neg h₅]
        rw [parseElements_true hskip, ← List.cons_append, List.map_cons, ← commaTexts_cons,
          ← List.map_cons, List.singleton_append]
        refine parseElements_commaTexts (x :: xs) (fuel + 1) hread ?_
        rw [List.map_cons, commaTexts_cons, ← List.map_cons, List.length_cons]
        omega
    rw [helements]
    split_ifs <;> rfl

/-- An object is read back if its members are and its keys increase, whatever follows. -/
theorem Reads.parseValue_object (h : g.Reads keyText atomText P) {ms : List (σ × Json σ α)}
    (hinc : Increasing ms) (hread : ∀ m ∈ ms, ReadsBack g keyText atomText m.2) :
    ∀ fuel d s, 2 * (compact CodePoint.scalar keyText atomText (.object ms)).length ≤ fuel →
      g.parseValue fuel d (compact CodePoint.scalar keyText atomText (.object ms) ++ s) =
        if (object ms).depth ≤ d then .ok (.object ms, s) else .error g.tooDeep := by
  intro fuel d s hfuel
  rw [compact_object, objectText, List.cons_append, List.append_assoc] at *
  simp only [List.length_cons, List.length_append, List.length_nil] at hfuel
  obtain ⟨fuel, rfl⟩ : ∃ n, fuel = n + 2 := ⟨fuel - 2, by omega⟩
  rw [parseValue, skipChar_cons (by decide), if_neg (by decide), skipChar_cons (by decide),
    if_pos rfl]
  cases d with
  | zero => rw [if_neg (by rw [depth_object]; omega)]
  | succ d =>
    simp only [depth_object_le]
    have hmembers : g.parseMembers (fuel + 1) d true []
        (separated CodePoint.scalar ((ms.map (Prod.map id (compact CodePoint.scalar keyText atomText))).map
          (memberText CodePoint.scalar keyText)) ++ ([.scalar '\x7d'] ++ s)) =
          if ∀ m ∈ ms, m.2.depth ≤ d then .ok (ms, s) else .error g.tooDeep := by
      cases ms with
      | nil =>
        rw [List.map_nil, List.map_nil, separated, List.nil_append, List.singleton_append,
          parseMembers, skipChar_cons (by decide)]
        simp
      | cons m ms =>
        obtain ⟨t, ht⟩ := h.keyStart m.1
        have hskip : skipChar '\x7d' (separated CodePoint.scalar (((m :: ms).map
            (Prod.map id (compact CodePoint.scalar keyText atomText))).map (memberText CodePoint.scalar keyText)) ++
            ([.scalar '\x7d'] ++ s)) = none := by
          rw [List.map_cons, List.map_cons, separated, memberText, Prod.map_fst, id_eq, ht,
            List.cons_append, List.cons_append, List.cons_append, skipChar_cons (by decide),
            if_neg (by decide)]
        rw [parseMembers_true hskip, ← List.cons_append, List.map_cons, List.map_cons,
          ← commaTexts_cons, ← List.map_cons, ← List.map_cons, List.singleton_append]
        refine h.parseMembers_commaTexts (m :: ms) [] (fuel + 1) hread hinc ?_
        rw [List.map_cons, List.map_cons, commaTexts_cons, ← List.map_cons, ← List.map_cons,
          List.length_cons]
        omega
    rw [hmembers]
    split_ifs <;> rfl

/-- **Reading what was written.**  A value whose keys increase is read back unless
it is nested too deeply. -/
theorem Reads.parseValue_compact (h : g.Reads keyText atomText P) {v : Json σ α}
    (hv : v.Forall P (List.Pairwise (· < ·))) : ReadsBack g keyText atomText v := by
  induction v using Json.ind with
  | atom a =>
    intro fuel d s hfuel hs
    obtain ⟨c, t, ht, hc⟩ := h.atomStart a (forall_atom.1 hv)
    have hatom := h.atom a (forall_atom.1 hv) s hs
    rw [compact_atom] at *
    rw [ht, List.length_cons] at hfuel
    obtain ⟨fuel, rfl⟩ : ∃ n, fuel = n + 1 := ⟨fuel - 1, by omega⟩
    simp only [startsAtom, Bool.not_eq_true', Bool.or_eq_false_iff, beq_eq_false_iff_ne] at hc
    rw [ht, List.cons_append] at hatom ⊢
    have hspace : c ≠ ' ' ∧ c ≠ '\t' ∧ c ≠ '\n' ∧ c ≠ '\r' := by tauto
    rw [parseValue, skipChar_cons hspace, if_neg (by tauto), skipChar_cons hspace,
      if_neg (by tauto), skipSpace_cons hspace, hatom, depth_atom, if_pos (Nat.zero_le d)]
    rfl
  | array xs ih =>
    have hall := forall_array.1 hv
    exact h.readsBack_array hall fun x hx => ih x hx (hall x hx)
  | object ms ih =>
    obtain ⟨hkeys, hms⟩ := forall_object.1 hv
    exact fun fuel d s hfuel _ =>
      h.parseValue_object (List.pairwise_map.1 hkeys) (fun m hm => ih m hm (hms m hm)) fuel d s hfuel

/-- **A text is read back as the value that it was written for**, if that is not nested too deep. -/
theorem Reads.parse_compact (h : g.Reads keyText atomText P) {v : Json σ α}
    (hv : v.Forall P (List.Pairwise (· < ·))) (d : ℕ) :
    g.parse d (compact CodePoint.scalar keyText atomText v) =
      if v.depth ≤ d then .ok v else .error g.tooDeep := by
  have hread := h.parseValue_compact hv (2 * (compact CodePoint.scalar keyText atomText v).length + 2) d []
    (by omega) fun c t ht => (nomatch ht)
  rw [List.append_nil] at hread
  rw [parse, hread]
  by_cases hd : v.depth ≤ d
  · rw [if_pos hd, if_pos hd]
    rfl
  · rw [if_neg hd, if_neg hd]

end RoundTrip

/-! ### What is read is well formed -/

/-- The reader keeps a property of atoms and one of the keys of an object. -/
structure Keeps (g : Grammar σ α ε) (P : α → Prop) (Q : List σ → Prop) : Prop where
  atom : ∀ {s a r}, g.readAtom s = .ok (a, r) → P a
  nil : Q []
  insert : ∀ {ms k x ms'}, Q (ms.map Prod.fst) → g.insert ms k x = .ok ms' →
    Q (ms'.map Prod.fst) ∧ ∀ m ∈ ms', m ∈ ms ∨ m.2 = x

section Keeps

variable {g} {P : α → Prop} {Q : List σ → Prop}

/-- What holds of the results of all three readers with some fuel. -/
structure KeepsWith (g : Grammar σ α ε) (P : α → Prop) (Q : List σ → Prop) (fuel : ℕ) : Prop where
  value : ∀ {d s v r}, g.parseValue fuel d s = .ok (v, r) → v.Forall P Q
  elements : ∀ {d first s xs r}, g.parseElements fuel d first s = .ok (xs, r) →
    ∀ x ∈ xs, x.Forall P Q
  members : ∀ {d first ms s ns r}, g.parseMembers fuel d first ms s = .ok (ns, r) →
    Q (ms.map Prod.fst) → (∀ m ∈ ms, m.2.Forall P Q) →
      Q (ns.map Prod.fst) ∧ ∀ n ∈ ns, n.2.Forall P Q

/-- What one more step of the parser makes of a value keeps what its parts do. -/
theorem Keeps.value_step (h : g.Keeps P Q) {fuel : ℕ} (ih : KeepsWith g P Q fuel) {d : ℕ} {s r : Str}
    {v : Json σ α} (hv : g.parseValue (fuel + 1) d s = .ok (v, r)) : v.Forall P Q := by
  rw [parseValue] at hv
  split at hv
  · split at hv
    · cases hv
    · obtain ⟨⟨xs, r'⟩, hxs, heq⟩ := map_eq_ok.1 hv
      obtain ⟨rfl, -⟩ := Prod.mk.inj heq
      exact .array (ih.elements hxs)
  · split at hv
    · split at hv
      · cases hv
      · obtain ⟨⟨ms, r'⟩, hms, heq⟩ := map_eq_ok.1 hv
        obtain ⟨rfl, -⟩ := Prod.mk.inj heq
        obtain ⟨hkeys, hall⟩ := ih.members hms h.nil fun m hm => absurd hm List.not_mem_nil
        exact .object hkeys hall
    · obtain ⟨⟨a, r'⟩, ha, heq⟩ := map_eq_ok.1 hv
      obtain ⟨rfl, -⟩ := Prod.mk.inj heq
      exact .atom (h.atom ha)

/-- What one more step of the parser makes of the items keeps what they do. -/
theorem elements_step {fuel : ℕ} (ih : KeepsWith g P Q fuel) {d : ℕ} {first : Bool} {s r : Str}
    {xs : List (Json σ α)} (hxs : g.parseElements (fuel + 1) d first s = .ok (xs, r)) :
    ∀ x ∈ xs, x.Forall P Q := by
  rw [parseElements] at hxs
  split at hxs
  · obtain ⟨rfl, -⟩ := Prod.mk.inj (Except.ok.inj hxs)
    exact fun x hx => absurd hx List.not_mem_nil
  · split at hxs
    · cases hxs
    · split at hxs
      · cases hxs
      · rename_i x s' hx
        obtain ⟨⟨ys, r'⟩, hys, heq⟩ := map_eq_ok.1 hxs
        obtain ⟨rfl, -⟩ := Prod.mk.inj heq
        exact List.forall_mem_cons.2 ⟨ih.value hx, ih.elements hys⟩

/-- What one more step of the parser makes of the members keeps what they do. -/
theorem Keeps.members_step (h : g.Keeps P Q) {fuel : ℕ} (ih : KeepsWith g P Q fuel) {d : ℕ}
    {first : Bool} {s r : Str} {ms ns : List (σ × Json σ α)}
    (hns : g.parseMembers (fuel + 1) d first ms s = .ok (ns, r)) (hkeys : Q (ms.map Prod.fst))
    (hms : ∀ m ∈ ms, m.2.Forall P Q) : Q (ns.map Prod.fst) ∧ ∀ n ∈ ns, n.2.Forall P Q := by
  rw [parseMembers] at hns
  split at hns
  · obtain ⟨rfl, -⟩ := Prod.mk.inj (Except.ok.inj hns)
    exact ⟨hkeys, hms⟩
  · split at hns
    · cases hns
    · split at hns
      · cases hns
      · split at hns
        · cases hns
        · split at hns
          · cases hns
          · rename_i x s' hx
            split at hns
            · cases hns
            · rename_i ms' hms'
              obtain ⟨hkeys', hmem⟩ := h.insert hkeys hms'
              refine ih.members hns hkeys' fun m hm => ?_
              rcases hmem m hm with hm | hm
              · exact hms m hm
              · rw [hm]
                exact ih.value hx

/-- The parser keeps what its parts do, whatever its fuel. -/
theorem Keeps.keepsWith (h : g.Keeps P Q) (fuel : ℕ) : KeepsWith g P Q fuel := by
  induction fuel with
  | zero => exact ⟨fun h => (nomatch h), fun h => (nomatch h), fun h => (nomatch h)⟩
  | succ fuel ih => exact ⟨h.value_step ih, elements_step ih, h.members_step ih⟩

/-- **What is read is well formed**, if the hooks of the grammar see to it. -/
theorem Keeps.parse_forall (h : g.Keeps P Q) {d : ℕ} {s : Str} {v : Json σ α}
    (hv : g.parse d s = .ok v) : v.Forall P Q := by
  rw [parse] at hv
  split at hv
  · cases hv
  · rename_i v' r hvalue
    split_ifs at hv
    obtain rfl := Except.ok.inj hv
    exact (h.keepsWith _).value hvalue

end Keeps

end Grammar
end Json
end Vestrix
