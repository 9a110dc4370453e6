/-
# The canonical encoding is unambiguous

Hash and signature bind the bytes that `serialize` writes.  They bind the value that was
written because the bytes can be read back: the reader of `canonical.rs`, with floats
rounded once and no limit on nesting, inverts the writer on every permitted value, so
that the writer is injective up to the order of members.  No object's text starts that of
another, and no text contains a line feed, so that a file of lines splits in one way
only.
-/

import Vestrix.Text.Lines
import Vestrix.Verifier.Canonical

namespace Vestrix
namespace Verifier

open Text Rounding Json Outcome

/-- A value that a chain may hold: permitted scalars, and distinct keys. -/
def Encodable (v : Value) : Prop := Permitted v ∧ v.DistinctKeys

instance : DecidablePred Encodable := fun v =>
  inferInstanceAs (Decidable (Permitted v ∧ v.DistinctKeys))

/-- With its keys in order, a value is one that is read back. -/
theorem Encodable.sorted_forall {v : Value} (h : Encodable v) :
    v.sorted.Forall (Scalar.ReadBy nearestFloat) (List.Pairwise (· < ·)) := by
  have hp := forall_sorted (fun _ _ => trivial) h.1
  exact (hp.and (sortedKeys_sorted h.2)).imp (fun _ ha => ha.1.readBy) fun _ hks => hks.2

/-- The text of a value is that of the value with its keys in order. -/
theorem Encodable.text_sorted {v : Value} (h : Encodable v) : text v.sorted = text v := by
  rw [text, sorted_sorted h.2, text]

/-- **The text of a value can be read back.** -/
theorem Encodable.parse_text {v : Value} (h : Encodable v) {depth : ℕ} (hd : v.depth ≤ depth) :
    (grammar nearestFloat).parse depth (ofChars (text v)) = .ok v.sorted := by
  have hread := Verifier.parse_text h.sorted_forall depth
  rw [h.text_sorted, depth_sorted] at hread
  rw [hread, if_pos hd]

/-- **Values with one text are the same**, but for the order of their keys. -/
theorem Encodable.text_injective {v w : Value} (hv : Encodable v) (hw : Encodable w)
    (h : text v = text w) : v.sorted = w.sorted := by
  have hread := hv.parse_text (le_max_left v.depth w.depth)
  rw [h, hw.parse_text (le_max_right v.depth w.depth)] at hread
  exact (Except.ok.inj hread).symm

/-- The text of an object can be read back whatever follows it. -/
theorem Encodable.parseValue_text {ms : List (List Char × Value)} (h : Encodable (.object ms))
    {fuel depth : ℕ} (hfuel : 2 * (ofChars (text (.object ms))).length ≤ fuel)
    (hd : (object ms).depth ≤ depth) (s : Str) :
    (grammar nearestFloat).parseValue fuel depth (ofChars (text (.object ms)) ++ s) =
      .ok ((object ms).sorted, s) := by
  have hall := h.sorted_forall
  have hcompact := compact_text (hall.imp (fun _ _ => trivial) fun _ hks => hks)
  rw [h.text_sorted, sorted_object] at hcompact
  rw [sorted_object] at hall ⊢
  obtain ⟨hkeys, hmem⟩ := forall_object.1 hall
  rw [← hcompact] at hfuel ⊢
  rw [(reads nearestFloat).parseValue_object (List.pairwise_map.1 hkeys)
    (fun m hm => (reads nearestFloat).parseValue_compact (hmem m hm)) fuel depth s hfuel]
  refine if_pos ?_
  rwa [← sorted_object, depth_sorted]

/-- **The text of an object tells where it ends.** -/
theorem Encodable.text_append {ms ns : List (List Char × Value)} (hm : Encodable (.object ms))
    (hn : Encodable (.object ns)) {s t : List Char}
    (h : text (.object ms) ++ s = text (.object ns) ++ t) :
    (object ms).sorted = (object ns).sorted ∧ s = t := by
  have hofChars := congrArg ofChars h
  rw [ofChars_append, ofChars_append] at hofChars
  have hread := hm.parseValue_text
    (le_max_left _ (2 * (ofChars (text (.object ns))).length))
    (le_max_left _ (object ns).depth) (ofChars s)
  rw [hofChars, hn.parseValue_text (le_max_right _ _) (le_max_right _ _)] at hread
  obtain ⟨hv, hs⟩ := Prod.mk.inj (Except.ok.inj hread)
  exact ⟨hv.symm, (ofChars_injective hs).symm⟩

/-! ### No line feed -/

/-- The text of a number has no line feed. -/
theorem newline_notMem_number (n : Number) : '\n' ∉ n.token.text := by
  have hdigit : ∀ {ds : List Char}, AllDigits ds → '\n' ∉ ds := fun hds h =>
    absurd (hds _ h) (by decide)
  obtain ⟨hint, hfrac, hexp⟩ := n.token_wellFormed
  rw [NumberToken.text]
  intro h
  rcases List.mem_append.1 h with h | h
  · rw [signText] at h
    split_ifs at h
    · exact absurd h (by decide)
    · exact absurd h List.not_mem_nil
  rcases List.mem_append.1 h with h | h
  · exact hdigit hint.allDigits h
  rcases List.mem_append.1 h with h | h
  · split_ifs at h
    · exact absurd h List.not_mem_nil
    · rcases List.mem_cons.1 h with h | h
      · exact absurd h (by decide)
      · exact hdigit hfrac h
  · split at h
    · exact absurd h List.not_mem_nil
    · rename_i negative ds he
      rcases List.mem_cons.1 h with h | h
      · exact absurd h (by decide)
      rcases List.mem_cons.1 h with h | h
      · cases negative <;> exact absurd h (by decide)
      · exact hdigit (hexp _ _ he).2 h

/-- The text of a scalar has no line feed. -/
theorem newline_notMem_scalar (a : Scalar) : '\n' ∉ scalarText a := by
  cases a with
  | null => decide
  | bool b => cases b <;> decide
  | number n => exact newline_notMem_number n
  | string s => exact newline_notMem_quoteChars s

/-- No text contains a line feed. -/
theorem newline_notMem_text (v : Value) : '\n' ∉ text v := by
  have hsep : ∀ ts : List (List Char), (∀ t ∈ ts, '\n' ∉ t) → '\n' ∉ separated id ts := by
    intro ts hts h
    cases ts with
    | nil => exact absurd h List.not_mem_nil
    | cons t ts =>
      rw [List.forall_mem_cons] at hts
      rcases List.mem_append.1 h with h | h
      · exact hts.1 h
      · obtain ⟨u, hu, h⟩ := List.mem_flatMap.1 h
        rcases List.mem_cons.1 h with h | h
        · exact absurd h (by decide)
        · exact hts.2 u hu h
  rw [text]
  generalize v.sorted = v
  induction v using ind with
  | atom a => exact newline_notMem_scalar a
  | array xs ih =>
    rw [compact_array, arrayText]
    intro h
    rcases List.mem_cons.1 h with h | h
    · exact absurd h (by decide)
    rcases List.mem_append.1 h with h | h
    · exact hsep _ (List.forall_mem_map.2 ih) h
    · exact absurd h (by decide)
  | object ms ih =>
    rw [compact_object, objectText, List.map_map]
    intro h
    rcases List.mem_cons.1 h with h | h
    · exact absurd h (by decide)
    rcases List.mem_append.1 h with h | h
    · refine hsep _ (List.forall_mem_map.2 fun m hm h => ?_) h
      rcases List.mem_append.1 h with h | h
      · exact newline_notMem_quoteChars _ h
      · rcases List.mem_cons.1 h with h | h
        · exact absurd h (by decide)
        · exact ih m hm h
    · exact absurd h (by decide)

/-- **A canonical text has no line feed.** -/
theorem lineFeed_notMem_text (v : Value) : lineFeed ∉ utf8 (text v) := fun h =>
  newline_notMem_text v (newline_mem_utf8 h)

/-! ### Bytes -/

/-- A value that is permitted and has distinct keys is written. -/
theorem Encodable.serialize {v : Value} (h : Encodable v) :
    Verifier.serialize v = .ok (utf8 (text v)) := serialize_eq h.1

/-- Each of the records is written on one of the lines. -/
def Written (records : List (List (List Char × Value))) (lines : List (List UInt8)) : Prop :=
  List.Forall₂ (fun ms line => Encodable (.object ms) ∧ serialize (.object ms) = .ok line)
    records lines

/-- The lines are the texts of the records. -/
theorem Written.eq_map {records : List (List (List Char × Value))} {lines : List (List UInt8)}
    (h : Written records lines) : lines = records.map fun ms => utf8 (text (.object ms)) := by
  induction h with
  | nil => rfl
  | cons hms _ ih => rw [List.map_cons, ← ih, Except.ok.inj (hms.1.serialize.symm.trans hms.2)]

/-- No line that is written has a line feed. -/
theorem Written.lineFeed_notMem {records : List (List (List Char × Value))}
    {lines : List (List UInt8)} (h : Written records lines) : ∀ l ∈ lines, lineFeed ∉ l := by
  rw [h.eq_map, List.forall_mem_map]
  exact fun ms _ => lineFeed_notMem_text (.object ms)

/-- Records written on the same lines are the same. -/
theorem Written.sorted_eq {rs ss : List (List (List Char × Value))} {lines : List (List UInt8)}
    (hr : Written rs lines) (hs : Written ss lines) :
    (rs.map fun ms => (object ms).sorted) = ss.map fun ms => (object ms).sorted := by
  induction hr generalizing ss with
  | nil =>
    cases hs
    rfl
  | cons hms _ ih =>
    cases hs with
    | cons hns htail =>
      have htext := utf8_injective (Except.ok.inj
        ((hms.1.serialize.symm.trans (hms.2.trans hns.2.symm)).trans hns.1.serialize))
      rw [List.map_cons, List.map_cons, hms.1.text_injective hns.1 htext, ih htail]

/-- **The canonical encoding is unambiguous.**  Two values are written alike exactly
when they are the same up to the order of members, the bytes of an object do not start
those of another, no output contains a line feed, and a file of records, each followed
by a line feed, splits into the lines of exactly these records. -/
theorem serialize_unambiguous :
    (∀ v w, Encodable v → Encodable w → (serialize v = serialize w ↔ v.sorted = w.sorted)) ∧
    (∀ ms ns bytes bytes', Encodable (.object ms) → Encodable (.object ns) →
      serialize (.object ms) = .ok bytes → serialize (.object ns) = .ok bytes' →
        bytes <+: bytes' → bytes = bytes') ∧
    (∀ v bytes, Encodable v → serialize v = .ok bytes → lineFeed ∉ bytes) ∧
    (∀ records lines, Written records lines →
      physicalLines (joinLines lines) = lines.map (· ++ [lineFeed]) ∧
        ∀ records' lines', Written records' lines' → joinLines lines' = joinLines lines →
          (records'.map fun ms => (object ms).sorted) = records.map fun ms => (object ms).sorted) := by
  refine ⟨fun v w hv hw => ?_, fun ms ns bytes bytes' hm hn hb hb' hpre => ?_,
    fun v bytes hv hb => ?_, fun records lines hw => ⟨?_, fun records' lines' hw' hjoin => ?_⟩⟩
  · rw [hv.serialize, hw.serialize, Except.ok.injEq, utf8_injective.eq_iff]
    refine ⟨hv.text_injective hw, fun h => ?_⟩
    rw [← hv.text_sorted, h, hw.text_sorted]
  · obtain rfl := Except.ok.inj (hm.serialize.symm.trans hb)
    obtain rfl := Except.ok.inj (hn.serialize.symm.trans hb')
    obtain ⟨s, hs⟩ := exists_of_utf8_prefix hpre
    have hempty : s = [] := (hm.text_append hn (by rw [List.append_nil, hs])).2
    rw [hs, hempty, List.append_nil]
  · obtain rfl := Except.ok.inj (hv.serialize.symm.trans hb)
    exact lineFeed_notMem_text v
  · exact physicalLines_joinLines hw.lineFeed_notMem
  · have hlines := congrArg physicalLines hjoin
    rw [physicalLines_joinLines hw.lineFeed_notMem, physicalLines_joinLines hw'.lineFeed_notMem]
      at hlines
    have hinj : Function.Injective fun l : List UInt8 => l ++ [lineFeed] := fun a b h =>
      List.append_cancel_right h
    rw [List.map_injective_iff.2 hinj hlines] at hw'
    exact hw'.sorted_eq hw

/-- Two orders of the same members. -/
def membersAB : List (List Char × Value) :=
  [(['a'], .atom (.bool true)), (['b'], .array [.atom .null, .atom (.string ['\n'])])]

def membersBA : List (List Char × Value) := membersAB.reverse

/-- The two objects of the sample have one text. -/
theorem text_membersBA : text (.object membersBA) = text (.object membersAB) := by rfl

/-- Two objects whose members are in different orders. -/
theorem serialize_unambiguous_members :
    (serialize (.object membersAB) = serialize (.object membersBA) ↔
      (object membersAB).sorted = (object membersBA).sorted) ∧
    utf8 (text (.object membersAB)) = utf8 (text (.object membersBA)) ∧
    lineFeed ∉ utf8 (text (.object membersAB)) ∧
    physicalLines (joinLines [utf8 (text (.object membersAB))]) =
      [utf8 (text (.object membersAB))].map (· ++ [lineFeed]) ∧
    [(object membersBA).sorted] = [(object membersAB).sorted] := by
  have hab : Encodable (.object membersAB) := by decide
  have hba : Encodable (.object membersBA) := by decide
  obtain ⟨hinj, hprefix, hline, hfile⟩ := serialize_unambiguous
  obtain ⟨hsplit, hrecords⟩ := hfile [membersAB] _ (.cons ⟨hab, hab.serialize⟩ .nil)
  exact ⟨hinj _ _ hab hba,
    hprefix _ _ _ _ hab hba hab.serialize hba.serialize (by rw [text_membersBA]),
    hline _ _ hab hab.serialize, hsplit,
    hrecords [membersBA] _ (.cons ⟨hba, hba.serialize⟩ .nil) (by rw [text_membersBA])⟩

example : serialize (.object membersBA) =
    .ok (utf8 "\x7b\"a\":true,\"b\":[null,\"\\n\"]\x7d".toList) := by rfl

end Verifier
end Vestrix
