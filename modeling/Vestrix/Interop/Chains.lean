/-
# The same chain in both programs

The store that `log_event` writes is the file that `verify_reader` reads.  A line that both
programs accept is the same record for both (`sameValue_of_isLine`), so that after lines
which both accept they expect the same of a next one (`Agrees.reads`).

Whether the verifier accepts the line that `log_event` appends then depends on three
things: that it reads the line at all (`Readable`), that it knows the spelling of the timestamp, and
that the signer is honest (`verifyLine_next`).
-/

import Vestrix.Forensics.Logger
import Vestrix.Interop.Records
import Vestrix.Verifier.Acceptance

namespace Vestrix
namespace Interop

open Text Rounding Json Outcome Record

/-! ### A line -/

section

variable {readFloat : Verifier.FloatReader} {record : Python.Dict} {object : Verifier.Object}
  {line : List UInt8}

/-- The object of a line has canonical bytes. -/
theorem encodable_of_isLine (h : Verifier.IsLine readFloat object line) :
    Verifier.Encodable (.object object) := by
  obtain ⟨stored, -, hparse⟩ := h.parse
  obtain ⟨hpermitted, hkeys⟩ := Verifier.parse_wellFormed hparse
  exact ⟨hpermitted, hkeys.distinctKeys⟩

/-- **A line is the same record in both programs.** -/
theorem sameValue_of_isLine (hp : Forensics.IsLine record line)
    (hv : Verifier.IsLine readFloat object line) : SameValue (.object record) (.object object) := by
  have hencodable := encodable_of_isLine hv
  obtain rfl := Except.ok.inj (hencodable.serialize.symm.trans hv.serialize)
  obtain ⟨hrecord, hbytes⟩ := Forensics.canonicalJsonBytes_eq_ok.1 hp.canonical
  obtain ⟨hobject, hbytes'⟩ := Forensics.canonicalJsonBytes_eq_ok.1
    (canonicalJsonBytes_toPython hencodable (p := toPython (.object object)) rfl)
  have hdistinct := toPython_distinctKeys hencodable.2
  rw [SameValue]
  rw [toPython, map_object] at hobject hbytes' hdistinct ⊢
  exact Python.text_injective hrecord hobject (Python.loads_distinctKeys hp.loads) hdistinct hbytes hbytes'

end

/-- What both programs expect of a next line. -/
structure Agrees (x : Forensics.Expected) (p : Verifier.Progress) : Prop where
  seq : x.seq = p.expectedSeq
  prevHash : x.prevHash = ofChars p.expectedPrev
  version : x.formatVersion = p.chainFormatVersion

/-- Both programs begin with the same number and digest. -/
theorem Agrees.start : Agrees .first .start := ⟨rfl, rfl, rfl⟩

section

variable {sha256 : Sha256} {verifyStrict : List UInt8 → List UInt8 → Bool}
  {readFloat : Verifier.FloatReader} {x y : Forensics.Expected} {p q : Verifier.Progress}

/-- The same record is of the same kind in both programs. -/
theorem shape_eq {record : Python.Dict} {object : Verifier.Object} {shape shape' : Shape}
    (h : SameValue (.object record) (.object object)) (hrecord : (Json.object record).DistinctKeys)
    (hobject : Verifier.Encodable (.object object)) (hp : Forensics.Conforms shape.recordFields record)
    (hv : Verifier.Conforms shape'.recordFields object) : shape = shape' :=
  ((h.conforms_iff hrecord hobject.2 hobject.1).1 hp).shape_unique Function.injective_id hv

/-- **After a line that both programs accept they expect the same.** -/
theorem Agrees.line (h : Agrees x p) {n : ℕ} {l : List UInt8} {entry : Forensics.Entry}
    (hx : Forensics.checkLine sha256 n x l = .ok (entry, y))
    (hp : Verifier.verifyLine sha256 verifyStrict readFloat p l = .ok q) : Agrees y q := by
  obtain ⟨record, line, signedBytes, recordHash, rfl, hline, hvalid, -, -, rfl⟩ :=
    Forensics.checkLine_eq_ok.1 hx
  obtain ⟨object, line', version, recordHash', recordBytes, hlines, hline', hvalid', -, -, rfl⟩ :=
    Verifier.verifyLine_eq_ok.1 hp
  obtain rfl := List.append_cancel_right hlines
  have hsame := sameValue_of_isLine hline hline'
  have hrecord := Python.loads_distinctKeys hline.loads
  have hobject := encodable_of_isLine hline'
  obtain ⟨shape, hshape⟩ := hvalid.conforms
  obtain ⟨shape', hshape', rfl⟩ := Verifier.validateSchema_eq_ok.1 hvalid'.schema
  obtain rfl := shape_eq hsame hrecord hobject hshape hshape'
  have hhash := (hsame.stringField hrecord hobject.2 hobject.1).2 hvalid'.recordHash_eq
  have hhash' : some (Json.atom (Python.Atom.str recordHash)) = some (.atom (.str (ofChars recordHash'))) :=
    hvalid.recordHash_eq.symm.trans hhash
  refine ⟨congrArg (· + 1) h.seq, ?_, congrArg some hshape.version⟩
  exact Python.Atom.str.inj (Json.atom.inj (Option.some.inj hhash'))

/-- **After lines that both programs accept they expect the same.** -/
theorem Agrees.reads (h : Agrees x p) {n : ℕ} {lines : List (List UInt8)}
    {entries : List Forensics.Entry} (hx : Forensics.Reads sha256 n x lines entries y)
    (hp : Verifier.verifyLines sha256 verifyStrict readFloat p lines = .ok q) : Agrees y q := by
  induction hx generalizing p with
  | nil =>
    obtain rfl := Except.ok.inj hp
    exact h
  | @cons n x x' y line lines entry entries head tail ih =>
    rw [Verifier.verifyLines] at hp
    cases hline : Verifier.verifyLine sha256 verifyStrict readFloat p line with
    | error e => rw [hline] at hp; cases hp
    | ok r =>
      rw [hline] at hp
      exact ih (h.line head hline) hp

end

/-! ### The next line -/

/-- The signatures of a signer verify. -/
def Honest (signer : Forensics.Signer) (verifyStrict : List UInt8 → List UInt8 → Bool) : Prop :=
  ∀ bytes signature, signer bytes = .bytes signature → verifyStrict signature bytes = true

/-- The verifier reads the text of a value: its floats are read back, and it is not nested
too deeply. -/
structure Readable (readFloat : Verifier.FloatReader) (v : Python.Value) : Prop where
  floats : (fromPython v).Forall (Verifier.Scalar.ReadBy readFloat) fun _ => True
  depth : v.depth ≤ Verifier.recursionLimit

/-- A value has each key once in both programs. -/
theorem fromPython_distinctKeys {p : Python.Value} (hp : Forensics.Permitted p)
    (hd : p.DistinctKeys) : (fromPython p).DistinctKeys := by
  refine forall_map _ _ ((hp.and hd).imp (fun _ _ => trivial) fun ks hks => ?_)
  refine List.Nodup.map_on (fun k hk k' hk' heq => ?_) hks.2
  rw [← ofChars_getD (hks.1 k hk), heq, ofChars_getD (hks.1 k' hk')]

section

variable {sha256 : Sha256} {signer : Forensics.Signer} {store : Forensics.Store}
  {verifyStrict : List UInt8 → List UInt8 → Bool} {readFloat : Verifier.FloatReader}
  {event record : Python.Dict} {x : Forensics.Expected} {signedBytes encoded : List UInt8}
  {recordHash : Str} {p q : Verifier.Progress}

/-- The line of a record is the text of the same record in the verifier. -/
theorem exists_object
    (h : Forensics.Next sha256 signer store event record x signedBytes recordHash encoded)
    (hd : (Json.object event).DistinctKeys) (hseq : x.seq < 2 ^ 63) :
    ∃ object, encoded = utf8 (Verifier.text (.object object)) ∧
      (fromPython (.object record)).sorted = .object object ∧ Verifier.Encodable (.object object) ∧
      (Json.object object).SortedKeys ∧ SameValue (.object record) (.object object) ∧
      (Json.object object).depth = (Json.object record).depth := by
  obtain ⟨shape, -, -, hconforms⟩ := h.conforms_record hseq
  have hdistinct := h.distinctKeys hd
  have hpermitted := Forensics.permitted_of_conforms (forall_object.1 hdistinct).1 hconforms
  obtain ⟨hvalue, hverifier⟩ := toPython_fromPython hpermitted
  have hkeys := sortedKeys_sorted (fromPython_distinctKeys hpermitted hdistinct)
  have hencodable : Verifier.Encodable (fromPython (.object record)).sorted :=
    ⟨forall_sorted (fun _ _ => trivial) hverifier, hkeys.distinctKeys⟩
  have hsame : SameValue (.object record) (fromPython (.object record)).sorted := by
    rw [SameValue, ← sorted_toPython, hvalue, sorted_sorted hdistinct]
  have hdepth : (fromPython (.object record)).sorted.depth = (Json.object record).depth := by
    rw [depth_sorted, fromPython, depth_map]
  obtain ⟨object, hobject⟩ : ∃ object, (fromPython (.object record)).sorted = .object object := by
    rw [fromPython, map_object, sorted_object]
    exact ⟨_, rfl⟩
  rw [hobject] at hkeys hencodable hsame hdepth
  have hencoded : encoded = utf8 (Verifier.text (.object object)) :=
    Except.ok.inj (h.encoded.symm.trans (canonicalJsonBytes_toPython hencodable hsame))
  exact ⟨object, hencoded, hobject, hencodable, hkeys, hsame, hdepth⟩

/-- The verifier reads the line of a readable record as the same record. -/
theorem exists_isLine
    (h : Forensics.Next sha256 signer store event record x signedBytes recordHash encoded)
    (hd : (Json.object event).DistinctKeys) (hseq : x.seq < 2 ^ 63)
    (hread : Readable readFloat (.object record)) :
    ∃ object, Verifier.IsLine readFloat object encoded ∧
      SameValue (.object record) (.object object) := by
  obtain ⟨object, hencoded, hobject, hencodable, hkeys, hsame, hdepth⟩ := exists_object h hd hseq
  have hfloats := forall_sorted (fun _ _ => trivial) hread.floats
  rw [hobject] at hfloats
  have hsorted := (hfloats.and hkeys).imp (fun _ ha => ha.1) fun _ hks => hks.2
  refine ⟨object, ⟨⟨Verifier.text (.object object), ?_, ?_⟩, ?_⟩, hsame⟩
  · rw [hencoded, fromUtf8_utf8]
  · exact (Verifier.parse_text hsorted _).trans (if_pos (hdepth.trans_le hread.depth))
  · rw [hencoded, hencodable.serialize]

/-- What the verifier demands of the timestamp of a record. -/
def TimestampAccepted (record : Python.Dict) : Prop :=
  ∀ t, record.get? (lit "ts_utc") = some (.atom (.str (ofChars t))) → Verifier.IsTimestampText t

/-- **Whether the verifier accepts the line that comes next.** -/
theorem verifyLine_next
    (h : Forensics.Next sha256 signer store event record x signedBytes recordHash encoded)
    (hd : (Json.object event).DistinctKeys) (hseq : x.seq < 2 ^ 63) (hagree : Agrees x p)
    (hread : Readable readFloat (.object record)) (hhonest : Honest signer verifyStrict) :
    (∃ q, Verifier.verifyLine sha256 verifyStrict readFloat p (encoded ++ [lineFeed]) = .ok q) ↔
      TimestampAccepted record := by
  obtain ⟨object, hline, hsame⟩ := exists_isLine h hd hseq hread
  obtain ⟨shape, hshape, hversion, hconforms⟩ := h.conforms_record hseq
  obtain ⟨signature, hsign, -, hrecordEq⟩ := h.signed
  obtain ⟨hbytes, hhash⟩ := Forensics.hashUnsignedRecord_eq_ok.1 h.hash
  have hrecord := h.distinctKeys hd
  have hobject := encodable_of_isLine hline
  have hconforms' := (hsame.conforms_iff hrecord hobject.2 hobject.1).1 hconforms
  have htimestamp : Verifier.Conforms shape.recordFields object ↔ TimestampAccepted record := by
    constructor
    · intro hv t ht
      obtain ⟨v, t', hv', ht', htime⟩ := hv.ts_utc
      have hfield := (hsame.stringField hrecord hobject.2 hobject.1).1 ht
      obtain ⟨v'', hv'', ht''⟩ := Verifier.stringField_eq_ok.1 hfield
      obtain rfl := Option.some.inj (hv'.symm.trans hv'')
      obtain rfl := Option.some.inj (ht'.symm.trans ht'')
      exact htime
    · refine fun haccepted => hconforms'.of_timestamp fun v t hv ht _ => haccepted t ?_
      exact (hsame.stringField hrecord hobject.2 hobject.1).2
        (Verifier.stringField_eq_ok.2 ⟨v, hv, ht⟩)
  have hget : ∀ {k : Str} {v : Python.Value}, k ∈ Forensics.managedFields →
      Python.Dict.get? (Forensics.chainItems x.seq x.prevHash recordHash signature) k = some v →
        record.get? k = some v := fun hk hv => by
    rw [hrecordEq, Forensics.get?_append hshape.unmanaged hk, hv]
  have hunsigned := hsame.unsignedOf hrecord hobject.2
  have hunsignedObject : Verifier.Encodable (.object (Verifier.unsignedOf object)) := by
    obtain ⟨hkeys, hvalues⟩ := forall_object.1 hobject.2
    refine ⟨.object trivial fun m hm => ?_, .object ?_ fun m hm => hvalues m (List.mem_of_mem_filter hm)⟩
    · exact (forall_object.1 hobject.1).2 m (List.mem_of_mem_filter hm)
    · exact hkeys.sublist (List.filter_sublist.map Prod.fst)
  have hrecordBytes : Verifier.serialize (.object (Verifier.unsignedOf object)) = .ok signedBytes := by
    have hwritten := canonicalJsonBytes_toPython hunsignedObject hunsigned
    rw [hrecordEq, Forensics.unsignedOf_append hshape.unmanaged,
      ← Forensics.unsignedOf_unsignedRecord hshape.unmanaged, hbytes] at hwritten
    rw [hunsignedObject.serialize, Except.ok.inj hwritten]
  rw [← htimestamp]
  constructor
  · rintro ⟨q, hq⟩
    obtain ⟨object', line', version, _, _, hlines, hline', hvalid, -⟩ := Verifier.verifyLine_eq_ok.1 hq
    obtain rfl := List.append_cancel_right hlines
    obtain ⟨stored, hstored, hparse⟩ := hline.parse
    obtain ⟨stored', hstored', hparse'⟩ := hline'.parse
    obtain rfl := Option.some.inj (hstored.symm.trans hstored')
    obtain rfl := Json.object.inj (Except.ok.inj (hparse.symm.trans hparse'))
    obtain ⟨shape', hshape', -⟩ := Verifier.validateSchema_eq_ok.1 hvalid.schema
    obtain rfl := shape_eq hsame hrecord hobject hconforms hshape'
    exact hshape'
  · intro hv
    have hstring : ∀ {key t : List Char}, record.get? (ofChars key) = some (.atom (.str (ofChars t))) →
        Verifier.stringField object key = .ok t :=
      fun ht => (hsame.stringField hrecord hobject.2 hobject.1).1 ht
    have hseqField : Verifier.integerField object "seq".toList = .ok p.expectedSeq := by
      rw [← hagree.seq]
      exact (hsame.integerField hrecord hobject.2 hobject.1).1 (hget (by decide) rfl)
    have hprev : Verifier.stringField object "prev_hash".toList = .ok p.expectedPrev :=
      hstring ((hget (by decide) rfl).trans (by rw [hagree.prevHash]))
    have hrecordHash : Verifier.stringField object "record_hash".toList =
        .ok (sha256.hexdigest signedBytes) :=
      hstring ((hget (by decide) rfl).trans (by rw [hhash]))
    have hsignature : Verifier.stringField object "signature".toList = .ok (hex signature) :=
      hstring (hget (by decide) rfl)
    refine ⟨_, Verifier.verifyLine_eq_ok.2 ⟨object, encoded, shape.version, sha256.hexdigest signedBytes,
      signedBytes, rfl, hline, ⟨Verifier.validateSchema_eq_ok.2 ⟨shape, hv, rfl⟩, hseqField, hprev,
        hrecordHash, hrecordBytes, rfl, hex signature, signature, hsignature, fromHex_hex signature,
        hhonest _ _ hsign⟩, fun v hv' => ?_, ?_, rfl⟩⟩
    · rw [hversion v (hagree.version ▸ hv')]
    · rw [← hagree.seq]
      omega

end

end Interop
end Vestrix
