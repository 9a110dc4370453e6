/-
# The files that the two verifiers accept

`verify_chain` and `verify_reader`, on any file.  Both accept the files whose lines are the
canonical texts of records that make a chain (`accepted_files`), each with demands of its own on a
single record: which timestamps it knows, which signatures it takes, and which texts it reads.

Nothing else tells them apart.  A file that one of them accepts, the other accepts too, with the
same report, just if each of its records meets the other's demands (`verdicts_agree`).
-/

import Vestrix.Forensics.Unforgeable
import Vestrix.Interop.Anchored
import Vestrix.Interop.Schemas
import Vestrix.Verifier.Retained

namespace Vestrix
namespace Interop

open Text Rounding Json Outcome Record

/-- What a verifier demands of a single record. -/
structure Demands where
  timestamp : List Char → Prop
  signature : List UInt8 → List UInt8 → Bool
  readable : Verifier.Object → Prop

/-- The demands of `verify_chain`. -/
def Demands.python (verify : List UInt8 → List UInt8 → Bool) : Demands :=
  ⟨Forensics.IsTimestamp, verify, fun _ => True⟩

/-- The demands of `verify_reader`. -/
def Demands.verifier (readFloat : Verifier.FloatReader) (verifyStrict : List UInt8 → List UInt8 → Bool) :
    Demands :=
  ⟨Verifier.IsTimestampText, verifyStrict, fun object =>
    Verifier.parse readFloat (Verifier.text (.object object)) = .ok (.object object)⟩

/-- What is signed of a record. -/
def signedBytes (object : Verifier.Object) : List UInt8 :=
  Verifier.unsignedBytes (Verifier.unsignedOf object)

/-- The signature of a record, of what is signed of it. -/
def SignedBy (verify : List UInt8 → List UInt8 → Bool) (object : Verifier.Object) : Prop :=
  ∃ digits signature, Verifier.stringField object "signature".toList = .ok digits ∧
    fromHex digits = some signature ∧ verify signature (signedBytes object) = true

/-- A record meets the demands of a verifier. -/
structure Demands.Met (demands : Demands) (object : Verifier.Object) : Prop where
  timestamp : ∀ t, Verifier.stringField object "ts_utc".toList = .ok t → demands.timestamp t
  signature : SignedBy demands.signature object
  readable : demands.readable object

/-- A record comes next in a chain. -/
structure Follows (sha256 : Sha256) (demands : Demands) (p : Verifier.Progress) (object : Verifier.Object)
    (shape : Shape) (q : Verifier.Progress) : Prop where
  permitted : Verifier.Permitted (.object object)
  keys : (Json.object object).SortedKeys
  conforms : Record.Conforms Verifier.view demands.timestamp id shape.recordFields (lookup object)
  version : ∀ v ∈ p.chainFormatVersion, v = shape.version
  seq : Verifier.integerField object "seq".toList = .ok p.expectedSeq
  prevHash : Verifier.stringField object "prev_hash".toList = .ok p.expectedPrev
  recordHash : Verifier.stringField object "record_hash".toList = .ok (sha256.hexdigest (signedBytes object))
  signature : SignedBy demands.signature object
  readable : demands.readable object
  next : q = ⟨p.expectedSeq + 1, sha256.hexdigest (signedBytes object),
    some ⟨p.expectedSeq, sha256.hexdigest (signedBytes object)⟩, some shape.version⟩

/-- Records that follow one another. -/
inductive Chain (sha256 : Sha256) (demands : Demands) :
    Verifier.Progress → List Verifier.Object → Verifier.Progress → Prop
  | nil {p : Verifier.Progress} : Chain sha256 demands p [] p
  | cons {p q r : Verifier.Progress} {object : Verifier.Object} {shape : Shape}
      {objects : List Verifier.Object} (head : Follows sha256 demands p object shape q)
      (tail : Chain sha256 demands q objects r) : Chain sha256 demands p (object :: objects) r

/-- The text of a record. -/
def textBytes (object : Verifier.Object) : List UInt8 := utf8 (Verifier.text (.object object))

/-- The file of some records. -/
def fileOf (objects : List Verifier.Object) : List UInt8 := joinLines (objects.map textBytes)

variable {sha256 : Sha256} {demands demands' : Demands} {verify verifyStrict : List UInt8 → List UInt8 → Bool}
  {readFloat : Verifier.FloatReader} {object : Verifier.Object} {objects objects' : List Verifier.Object}
  {shape : Shape} {p q r : Verifier.Progress}

/-! ### A chain, to one verifier and to the other -/

/-- A record that follows has canonical bytes. -/
theorem Follows.encodable (h : Follows sha256 demands p object shape q) :
    Verifier.Encodable (.object object) := ⟨h.permitted, h.keys.distinctKeys⟩

/-- The bytes that are signed are the text of the other fields. -/
theorem serialize_unsigned (h : Verifier.Encodable (.object object)) :
    Verifier.Encodable (.object (Verifier.unsignedOf object)) ∧
      Verifier.serialize (.object (Verifier.unsignedOf object)) = .ok (signedBytes object) := by
  obtain ⟨hkeys, hvalues⟩ := forall_object.1 h.2
  have hencodable : Verifier.Encodable (.object (Verifier.unsignedOf object)) := by
    refine ⟨.object trivial fun m hm => ?_, .object ?_ fun m hm => hvalues m (List.mem_of_mem_filter hm)⟩
    · exact (forall_object.1 h.1).2 m (List.mem_of_mem_filter hm)
    · exact hkeys.sublist (List.filter_sublist.map Prod.fst)
  refine ⟨hencodable, ?_⟩
  rw [signedBytes, Verifier.unsignedBytes, hencodable.serialize]
  rfl

/-- A number in a chain has 63 bits. -/
theorem Follows.seq_lt (h : Follows sha256 demands p object shape q) : p.expectedSeq < 2 ^ 63 := by
  obtain ⟨v, -, hv⟩ := Verifier.integerField_eq_ok.1 h.seq
  have hlt := Verifier.asI64_lt hv
  omega

/-- A record that follows meets the demands of its verifier. -/
theorem Follows.met (h : Follows sha256 demands p object shape q) : demands.Met object where
  timestamp t ht := by
    obtain ⟨v, t', hv, ht', htime⟩ := h.conforms.ts_utc
    obtain ⟨v', hv', ht⟩ := Verifier.stringField_eq_ok.1 ht
    obtain rfl := Option.some.inj (hv.symm.trans hv')
    obtain rfl := Option.some.inj (ht.symm.trans ht')
    exact htime
  signature := h.signature
  readable := h.readable

/-- A record that follows, to a verifier with other demands. -/
theorem Follows.of_met (h : Follows sha256 demands p object shape q) (hmet : demands'.Met object) :
    Follows sha256 demands' p object shape q where
  permitted := h.permitted
  keys := h.keys
  conforms := h.conforms.of_timestamp fun v t hv ht _ =>
    hmet.timestamp t (Verifier.stringField_eq_ok.2 ⟨v, hv, ht⟩)
  version := h.version
  seq := h.seq
  prevHash := h.prevHash
  recordHash := h.recordHash
  signature := hmet.signature
  readable := hmet.readable
  next := h.next

/-- **A chain of one verifier is a chain of another** just if its records meet the demands of that one. -/
theorem Chain.iff_met (h : Chain sha256 demands p objects q) :
    Chain sha256 demands' p objects q ↔ ∀ object ∈ objects, demands'.Met object := by
  constructor
  · intro h'
    clear h
    induction h' with
    | nil => exact fun object hmem => absurd hmem List.not_mem_nil
    | cons head _ ih => exact List.forall_mem_cons.2 ⟨head.met, ih⟩
  · intro hmet
    induction h with
    | nil => exact .nil
    | cons head _ ih =>
      rw [List.forall_mem_cons] at hmet
      exact .cons (head.of_met hmet.1) (ih hmet.2)

/-- The records of a chain have canonical bytes, and their keys in order. -/
theorem Chain.encodable (h : Chain sha256 demands p objects q) :
    ∀ object ∈ objects, Verifier.Encodable (.object object) ∧ (Json.object object).SortedKeys := by
  induction h with
  | nil => exact fun object hmem => absurd hmem List.not_mem_nil
  | cons head _ ih => exact List.forall_mem_cons.2 ⟨⟨head.encodable, head.keys⟩, ih⟩

/-- Each record of a chain raises the number by one. -/
theorem Chain.expectedSeq (h : Chain sha256 demands p objects q) :
    q.expectedSeq = p.expectedSeq + objects.length := by
  induction h with
  | nil => rfl
  | cons head _ ih =>
    rw [ih, head.next, List.length_cons, Nat.add_assoc, Nat.add_comm 1]

/-- The tip of a chain is the digest that its last record leaves. -/
theorem Chain.tip (h : Chain sha256 demands p objects q) :
    q.tip.map Verifier.ChainTip.recordHash =
      if objects = [] then p.tip.map Verifier.ChainTip.recordHash else some q.expectedPrev := by
  induction h with
  | nil => rfl
  | @cons _ _ _ _ _ objects head tail ih =>
    rw [if_neg (List.cons_ne_nil _ _), ih]
    split_ifs with hnil
    · subst hnil
      cases tail
      rw [head.next]
      rfl
    · rfl

/-- Where a chain ends does not depend on the demands. -/
theorem Chain.end_unique (h : Chain sha256 demands p objects q) (h' : Chain sha256 demands' p objects r) :
    q = r := by
  induction h generalizing r with
  | nil =>
    cases h'
    rfl
  | cons head _ ih =>
    cases h' with
    | cons head' tail' =>
      obtain rfl := head.conforms.shape_unique Function.injective_id head'.conforms
      rw [head.next, ← head'.next] at ih
      exact ih tail'

/-! ### A line -/

/-- The independent verifier takes a line just if it is the text of an object that follows. -/
theorem verifyLine_iff {l : List UInt8} :
    Verifier.verifyLine sha256 verifyStrict readFloat p l = .ok q ↔ ∃ object shape,
      l = textBytes object ++ [lineFeed] ∧
        Follows sha256 (.verifier readFloat verifyStrict) p object shape q := by
  rw [Verifier.verifyLine_eq_ok]
  constructor
  · rintro ⟨object, line, version, recordHash, recordBytes, rfl, hline, hvalid, hversion, -, rfl⟩
    obtain ⟨stored, hstored, hparse⟩ := hline.parse
    obtain ⟨hpermitted, hkeys⟩ := Verifier.parse_wellFormed hparse
    have hencodable := encodable_of_isLine hline
    obtain rfl := Except.ok.inj (hencodable.serialize.symm.trans hline.serialize)
    obtain rfl := Option.some.inj ((fromUtf8_utf8 _).symm.trans hstored)
    obtain ⟨shape, hshape, rfl⟩ := Verifier.validateSchema_eq_ok.1 hvalid.schema
    obtain rfl : signedBytes object = recordBytes := by
      rw [signedBytes, Verifier.unsignedBytes, hvalid.recordBytes_eq]
      rfl
    obtain rfl := hvalid.hash_eq
    exact ⟨object, shape, rfl, hpermitted, hkeys, hshape, fun v hv => (hversion v hv).symm, hvalid.seq_eq,
      hvalid.prevHash_eq, hvalid.recordHash_eq, hvalid.signature, hparse, rfl⟩
  · rintro ⟨object, shape, rfl, h⟩
    refine ⟨object, textBytes object, shape.version, _, signedBytes object, rfl,
      ⟨⟨_, fromUtf8_utf8 _, h.readable⟩, h.encodable.serialize⟩,
      ⟨Verifier.validateSchema_eq_ok.2 ⟨shape, h.conforms, rfl⟩, h.seq, h.prevHash, h.recordHash,
        (serialize_unsigned h.encodable).2, rfl, h.signature⟩, fun v hv => (h.version v hv).symm, ?_,
      h.next⟩
    have hlt := h.seq_lt
    omega

/-- What the walk of `iter_validated_records` expects where the verifier has got so far. -/
def expected (p : Verifier.Progress) : Forensics.Expected :=
  ⟨p.expectedSeq, ofChars p.expectedPrev, p.chainFormatVersion⟩

/-- A record that Python permits is the same value as an object with its keys in order. -/
theorem exists_sameValue {record : Python.Dict} (hdistinct : (Json.object record).DistinctKeys)
    (hpermitted : Forensics.Permitted (.object record)) :
    ∃ object, Verifier.Permitted (.object object) ∧ (Json.object object).SortedKeys ∧
      SameValue (.object record) (.object object) := by
  obtain ⟨hvalue, hverifier⟩ := toPython_fromPython hpermitted
  have hkeys := sortedKeys_sorted (fromPython_distinctKeys hpermitted hdistinct)
  have hsame : SameValue (.object record) (fromPython (.object record)).sorted := by
    rw [SameValue, ← sorted_toPython, hvalue, sorted_sorted hdistinct]
  have hsorted := forall_sorted (fun _ _ => trivial) hverifier
  obtain ⟨object, hobject⟩ : ∃ object, (fromPython (.object record)).sorted = .object object := by
    rw [fromPython, map_object, sorted_object]
    exact ⟨_, rfl⟩
  rw [hobject] at hkeys hsame hsorted
  exact ⟨object, hsorted, hkeys, hsame⟩

/-- An object with its keys in order is the same value as a record, whose line is its text. -/
theorem exists_record (hencodable : Verifier.Encodable (.object object))
    (hkeys : (Json.object object).SortedKeys) :
    ∃ record, Forensics.IsLine record (textBytes object) ∧ SameValue (.object record) (.object object) := by
  obtain ⟨record, hrecord⟩ : ∃ record, toPython (.object object) = .object record := by
    rw [toPython, map_object]
    exact ⟨_, rfl⟩
  have hsame : SameValue (.object record) (.object object) := by rw [SameValue, hrecord]
  have hcanonical := canonicalJsonBytes_toPython hencodable hsame
  obtain ⟨hwritable, hbytes⟩ := Forensics.canonicalJsonBytes_eq_ok.1 hcanonical
  have hdistinct : (Json.object record).DistinctKeys := hrecord ▸ toPython_distinctKeys hencodable.2
  have hloads := Python.loads_text hwritable hdistinct hbytes
  rw [← hrecord, sorted_toPython, sorted_eq_self hkeys, hrecord] at hloads
  exact ⟨record, ⟨hloads, hcanonical⟩, hsame⟩

/-- A record is signed in Python just if the same object is. -/
theorem signed_iff {record : Python.Dict} {n : ℕ} (hsame : SameValue (.object record) (.object object))
    (hrecord : (Json.object record).DistinctKeys) (hobject : Verifier.Encodable (.object object)) :
    Forensics.Signed verify ⟨n, record, signedBytes object⟩ ↔ SignedBy verify object := by
  have hfield : ∀ digits, record.get? (lit "signature") = some (.atom (.str (ofChars digits))) ↔
      Verifier.stringField object "signature".toList = .ok digits := fun digits =>
    hsame.stringField hrecord hobject.2 hobject.1
  constructor
  · rintro ⟨text, signature, htext, hdigits, hverify⟩
    obtain ⟨digits, hscalars, hhex⟩ := Option.bind_eq_some_iff.1 hdigits
    rw [scalars?_eq_some_iff.1 hscalars] at htext
    exact ⟨digits, signature, (hfield digits).1 htext, hhex, hverify⟩
  · rintro ⟨digits, signature, htext, hhex, hverify⟩
    refine ⟨ofChars digits, signature, (hfield digits).2 htext, ?_, hverify⟩
    rw [scalars?_ofChars, Option.bind_some, hhex]

/-- The hash of a record in Python is that of the signed bytes of the same object. -/
theorem hashUnsignedRecord_iff {record : Python.Dict} {bytes : List UInt8} {recordHash : Str}
    (hsame : SameValue (.object record) (.object object)) (hrecord : (Json.object record).DistinctKeys)
    (hobject : Verifier.Encodable (.object object)) :
    Forensics.hashUnsignedRecord sha256 record = .ok (bytes, recordHash) ↔
      bytes = signedBytes object ∧ recordHash = ofChars (sha256.hexdigest (signedBytes object)) := by
  obtain ⟨hencodable, hserialize⟩ := serialize_unsigned hobject
  have hbytes := canonicalJsonBytes_toPython hencodable (hsame.unsignedOf hrecord hobject.2)
  rw [Except.ok.inj (hencodable.serialize.symm.trans hserialize)] at hbytes
  rw [Forensics.hashUnsignedRecord_eq_ok, hbytes, Except.ok.injEq]
  constructor
  · rintro ⟨rfl, rfl⟩
    exact ⟨rfl, rfl⟩
  · rintro ⟨rfl, rfl⟩
    exact ⟨rfl, rfl⟩

/-- **The Python verifier takes a line just if it is the text of an object that follows.** -/
theorem checkLine_iff {n : ℕ} {l : List UInt8} {y : Forensics.Expected} :
    (∃ entry, Forensics.checkLine sha256 n (expected p) l = .ok (entry, y) ∧ Forensics.Signed verify entry) ↔
      ∃ object shape q, l = textBytes object ++ [lineFeed] ∧
        Follows sha256 (.python verify) p object shape q ∧ y = expected q := by
  constructor
  · rintro ⟨entry, hcheck, hsigned⟩
    obtain ⟨record, line, bytes, recordHash, rfl, hline, hvalid, hversion, rfl, rfl⟩ :=
      Forensics.checkLine_eq_ok.1 hcheck
    obtain ⟨shape, hshape⟩ := hvalid.conforms
    have hrecord := Python.loads_distinctKeys hline.loads
    obtain ⟨object, hpermitted, hkeys, hsame⟩ :=
      exists_sameValue hrecord (Forensics.permitted_of_conforms (forall_object.1 hrecord).1 hshape)
    have hobject : Verifier.Encodable (.object object) := ⟨hpermitted, hkeys.distinctKeys⟩
    obtain rfl := Except.ok.inj (hline.canonical.symm.trans (canonicalJsonBytes_toPython hobject hsame))
    obtain ⟨rfl, rfl⟩ := (hashUnsignedRecord_iff hsame hrecord hobject).1 hvalid.hash_eq
    have hstring : ∀ {key t : List Char}, record.get? (ofChars key) = some (.atom (.str (ofChars t))) →
        Verifier.stringField object key = .ok t :=
      fun ht => (hsame.stringField hrecord hobject.2 hobject.1).1 ht
    refine ⟨object, shape, ⟨p.expectedSeq + 1, _, some ⟨p.expectedSeq, _⟩, some shape.version⟩, rfl,
      ⟨hpermitted, hkeys, (hsame.conforms_iff hrecord hobject.2 hpermitted).1 hshape, fun v hv => ?_,
        (hsame.integerField hrecord hobject.2 hpermitted).1 hvalid.seq_eq, hstring hvalid.prevHash_eq,
        hstring hvalid.recordHash_eq, (signed_iff hsame hrecord hobject).1 hsigned, trivial, rfl⟩, ?_⟩
    · rw [hversion v hv, hshape.version]
    · rw [hshape.version]
      rfl
  · rintro ⟨object, shape, q, rfl, h, rfl⟩
    have hobject := h.encodable
    obtain ⟨record, hline, hsame⟩ := exists_record hobject h.keys
    have hrecord := Python.loads_distinctKeys hline.loads
    have hshape : Forensics.Conforms shape.recordFields record :=
      (hsame.conforms_iff hrecord hobject.2 hobject.1).2 h.conforms
    have hstring : ∀ {key t : List Char}, Verifier.stringField object key = .ok t →
        record.get? (ofChars key) = some (.atom (.str (ofChars t))) :=
      fun ht => (hsame.stringField hrecord hobject.2 hobject.1).2 ht
    refine ⟨⟨n, record, signedBytes object⟩, Forensics.checkLine_eq_ok.2 ⟨record, textBytes object,
      signedBytes object, _, rfl, hline, ⟨⟨shape, hshape⟩,
        (hsame.integerField hrecord hobject.2 hobject.1).2 h.seq, hstring h.prevHash, hstring h.recordHash,
        (hashUnsignedRecord_iff hsame hrecord hobject).2 ⟨rfl, rfl⟩⟩, fun v hv => ?_, rfl, ?_⟩,
      (signed_iff hsame hrecord hobject).2 h.signature⟩
    · rw [h.version v hv, hshape.version]
    · rw [h.next, hshape.version]
      rfl

/-! ### A file -/

/-- **The independent verifier accepts just the lines of chains.** -/
theorem verifyLines_iff {lines : List (List UInt8)} :
    Verifier.verifyLines sha256 verifyStrict readFloat p lines = .ok q ↔ ∃ objects,
      lines = (objects.map textBytes).map (· ++ [lineFeed]) ∧
        Chain sha256 (.verifier readFloat verifyStrict) p objects q := by
  induction lines generalizing p with
  | nil =>
    constructor
    · intro h
      obtain rfl := Except.ok.inj h
      exact ⟨[], rfl, .nil⟩
    · rintro ⟨objects, hlines, hchain⟩
      obtain rfl := List.map_eq_nil_iff.1 (List.map_eq_nil_iff.1 hlines.symm)
      cases hchain
      rfl
  | cons l lines ih =>
    have hcons : Verifier.verifyLines sha256 verifyStrict readFloat p (l :: lines) = .ok q ↔
        ∃ r, Verifier.verifyLine sha256 verifyStrict readFloat p l = .ok r ∧
          Verifier.verifyLines sha256 verifyStrict readFloat r lines = .ok q := by
      rw [← List.singleton_append, Verifier.verifyLines_append, bind_eq_ok]
      simp only [Verifier.verifyLines_singleton]
    rw [hcons]
    simp only [ih, verifyLine_iff]
    constructor
    · rintro ⟨r, ⟨object, shape, rfl, head⟩, objects, rfl, tail⟩
      exact ⟨object :: objects, rfl, .cons head tail⟩
    · rintro ⟨objects, hlines, hchain⟩
      cases hchain with
      | nil => cases hlines
      | cons head tail =>
        obtain ⟨rfl, rfl⟩ := List.cons.inj hlines
        exact ⟨_, ⟨_, _, rfl, head⟩, _, rfl, tail⟩

/-- **The Python verifier accepts just the lines of chains.** -/
theorem reads_iff {n : ℕ} {lines : List (List UInt8)} {y : Forensics.Expected} :
    (∃ entries, Forensics.Reads sha256 n (expected p) lines entries y ∧
        ∀ e ∈ entries, Forensics.Signed verify e) ↔ ∃ objects q,
      lines = (objects.map textBytes).map (· ++ [lineFeed]) ∧
        Chain sha256 (.python verify) p objects q ∧ y = expected q := by
  induction lines generalizing n p with
  | nil =>
    constructor
    · rintro ⟨entries, hreads, -⟩
      cases hreads
      exact ⟨[], p, rfl, .nil, rfl⟩
    · rintro ⟨objects, q, hlines, hchain, rfl⟩
      obtain rfl := List.map_eq_nil_iff.1 (List.map_eq_nil_iff.1 hlines.symm)
      cases hchain
      exact ⟨[], .nil, fun e he => absurd he List.not_mem_nil⟩
  | cons l lines ih =>
    constructor
    · rintro ⟨entries, hreads, hsigned⟩
      cases hreads with
      | cons head tail =>
        rw [List.forall_mem_cons] at hsigned
        obtain ⟨object, shape, q, rfl, hfollows, rfl⟩ := checkLine_iff.1 ⟨_, head, hsigned.1⟩
        obtain ⟨objects, r, rfl, hchain, rfl⟩ := ih.1 ⟨_, tail, hsigned.2⟩
        exact ⟨object :: objects, r, rfl, .cons hfollows hchain, rfl⟩
    · rintro ⟨objects, r, hlines, hchain, rfl⟩
      cases hchain with
      | nil => cases hlines
      | @cons p q r object shape objects head tail =>
        obtain ⟨rfl, rfl⟩ := List.cons.inj hlines
        obtain ⟨entry, hentry, hsigned⟩ := checkLine_iff.2 ⟨object, shape, q, rfl, head, rfl⟩
        obtain ⟨entries, hreads, hall⟩ := ih.2 ⟨objects, r, rfl, tail, rfl⟩
        exact ⟨entry :: entries, .cons hentry hreads, List.forall_mem_cons.2 ⟨hsigned, hall⟩⟩

/-- No canonical text has a line feed. -/
theorem lineFeed_notMem_textBytes : ∀ l ∈ objects.map textBytes, lineFeed ∉ l :=
  List.forall_mem_map.2 fun _ _ => Verifier.lineFeed_notMem_text _

/-- A file has the lines of some records just if it is the file of these. -/
theorem physicalLines_iff {file : List UInt8} :
    physicalLines file = (objects.map textBytes).map (· ++ [lineFeed]) ↔ file = fileOf objects := by
  constructor
  · intro h
    rw [← flatten_physicalLines file, h, fileOf, joinLines, List.flatMap_def]
  · rintro rfl
    exact physicalLines_joinLines lineFeed_notMem_textBytes

/-- **`verify_reader` accepts just the files of chains**, with their number and their tip. -/
theorem verifyReader_eq_ok_iff {file : List UInt8} {report : Verifier.VerificationReport} :
    Verifier.verifyReader sha256 verifyStrict readFloat file = .ok report ↔ ∃ objects q,
      file = fileOf objects ∧ Chain sha256 (.verifier readFloat verifyStrict) .start objects q ∧
        report = ⟨q.expectedSeq, q.tip⟩ := by
  rw [Verifier.verifyReader_eq_ok]
  simp only [verifyLines_iff, physicalLines_iff]
  constructor
  · rintro ⟨q, ⟨objects, hfile, hchain⟩, hreport⟩
    exact ⟨objects, q, hfile, hchain, hreport⟩
  · rintro ⟨objects, q, hfile, hchain, hreport⟩
    exact ⟨q, ⟨objects, hfile, hchain⟩, hreport⟩

/-- What `verify_chain` returns for what `verify_reader` reports. -/
def resultOf (report : Verifier.VerificationReport) : Forensics.VerificationResult :=
  ⟨report.records, report.tip.map fun tip => ofChars tip.recordHash⟩

/-- **`verify_chain` accepts just the files of chains**, with their number and their last digest. -/
theorem verifyChain_eq_ok_iff {file : List UInt8} {result : Forensics.VerificationResult} :
    Forensics.verifyChain sha256 verify (some file) = .ok result ↔ ∃ objects q,
      file = fileOf objects ∧ Chain sha256 (.python verify) .start objects q ∧
        result = resultOf ⟨q.expectedSeq, q.tip⟩ := by
  have hresult : ∀ {objects : List Verifier.Object} {q : Verifier.Progress} {entries : List Forensics.Entry},
      Chain sha256 (.python verify) .start objects q → entries.length = objects.length →
        resultOf ⟨q.expectedSeq, q.tip⟩ =
          ⟨entries.length, if entries = [] then none else some (expected q).prevHash⟩ := by
    intro objects q entries hchain hlength
    have hnil : entries = [] ↔ objects = [] := by
      rw [← List.length_eq_zero_iff, hlength, List.length_eq_zero_iff]
    have htip : (q.tip.map fun tip => ofChars tip.recordHash) =
        (q.tip.map Verifier.ChainTip.recordHash).map ofChars := (Option.map_map ..).symm
    rw [resultOf, htip, hchain.tip, hchain.expectedSeq, hlength]
    simp only [hnil]
    split_ifs <;> simp [Verifier.Progress.start, expected]
  rw [Forensics.verifyChain_eq_ok]
  constructor
  · rintro ⟨entries, y, hreads, hsigned, rfl⟩
    obtain ⟨objects, q, hlines, hchain, rfl⟩ := (reads_iff (p := .start)).1 ⟨entries, hreads, hsigned⟩
    refine ⟨objects, q, physicalLines_iff.1 hlines, hchain, (hresult hchain ?_).symm⟩
    rw [hreads.length_eq, hlines, List.length_map, List.length_map]
  · rintro ⟨objects, q, rfl, hchain, rfl⟩
    have hlines := physicalLines_iff.2 (rfl : fileOf objects = fileOf objects)
    obtain ⟨entries, hreads, hsigned⟩ := (reads_iff (n := 1)).2 ⟨objects, q, hlines, hchain, rfl⟩
    refine ⟨entries, expected q, hreads, hsigned, hresult hchain ?_⟩
    rw [hreads.length_eq, hlines, List.length_map, List.length_map]

/-- **Both verifiers accept the files of chains**, and report the number of records and the last digest; what
makes a chain is the same for both, but for what they demand of a single record.  This is where a file is nested
less deeply than the recursion limit of the interpreter that runs `verify_chain`; the verifier's own limit is
part of what it demands. -/
theorem accepted_files (sha256 : Sha256) (verify verifyStrict : List UInt8 → List UInt8 → Bool)
    (readFloat : Verifier.FloatReader) (file : List UInt8) :
    (∀ report, Verifier.verifyReader sha256 verifyStrict readFloat file = .ok report ↔ ∃ objects q,
      file = fileOf objects ∧ Chain sha256 (.verifier readFloat verifyStrict) .start objects q ∧
        report = ⟨q.expectedSeq, q.tip⟩) ∧
    ∀ result, Forensics.verifyChain sha256 verify (some file) = .ok result ↔ ∃ objects q,
      file = fileOf objects ∧ Chain sha256 (.python verify) .start objects q ∧
        result = resultOf ⟨q.expectedSeq, q.tip⟩ :=
  ⟨fun _ => verifyReader_eq_ok_iff, fun _ => verifyChain_eq_ok_iff⟩

/-! ### Agreement -/

/-- A file has the texts of the records on its lines. -/
structure IsFileOf (objects : List Verifier.Object) (file : List UInt8) : Prop where
  file : file = fileOf objects
  encodable : ∀ object ∈ objects, Verifier.Encodable (.object object)
  keys : ∀ object ∈ objects, (Json.object object).SortedKeys

/-- The timestamp of a record is as given. -/
def Stamped (known : List Char → Prop) (object : Verifier.Object) : Prop :=
  ∀ t, Verifier.stringField object "ts_utc".toList = .ok t → known t

/-- A chain is the content of its file. -/
theorem Chain.isFileOf (h : Chain sha256 demands p objects q) : IsFileOf objects (fileOf objects) where
  file := rfl
  encodable object hmem := (h.encodable object hmem).1
  keys object hmem := (h.encodable object hmem).2

/-- A file is that of one list of records. -/
theorem IsFileOf.unique {file : List UInt8} (h : IsFileOf objects file) (h' : IsFileOf objects' file) :
    objects = objects' := by
  have hlines := (physicalLines_iff.2 h.file).symm.trans (physicalLines_iff.2 h'.file)
  have htexts : objects.map textBytes = objects'.map textBytes :=
    List.map_injective_iff.2 (List.append_left_injective [lineFeed]) hlines
  clear hlines
  have hencodable := h.encodable
  have hkeys := h.keys
  have hencodable' := h'.encodable
  have hkeys' := h'.keys
  clear h h'
  induction objects generalizing objects' with
  | nil => exact (List.map_eq_nil_iff.1 htexts.symm).symm
  | cons object objects ih =>
    cases objects' with
    | nil => cases htexts
    | cons object' objects' =>
      rw [List.forall_mem_cons] at hencodable hkeys hencodable' hkeys'
      obtain ⟨hhead, htail⟩ := List.cons.inj htexts
      have hsorted := hencodable.1.text_injective hencodable'.1 (utf8_injective hhead)
      rw [sorted_eq_self hkeys.1, sorted_eq_self hkeys'.1] at hsorted
      rw [Json.object.inj hsorted,
        ih htail hencodable.2 hkeys.2 hencodable'.2 hkeys'.2]

/-- A timestamp that the verifier takes is one for Python, unless Python does not know it. -/
theorem isTimestamp_iff {t : List Char} (h : Verifier.IsTimestampText t) :
    Forensics.IsTimestamp t ↔ ¬ UnknownToPython t := by
  constructor
  · exact fun hp hunknown => disputed_iff.1 (Or.inl hunknown) ⟨fun _ => h, fun _ => hp⟩
  · intro hknown
    by_contra hp
    rcases disputed_iff.2 (fun hiff => hp (hiff.2 h)) with hunknown | ⟨s, hs, -, rfl⟩
    · exact hknown hunknown
    · exact hp ⟨s, hs, rfl⟩

/-- A timestamp that Python takes is one for the verifier, unless the verifier does not know it. -/
theorem isTimestampText_iff_known {t : List Char} (h : Forensics.IsTimestamp t) :
    Verifier.IsTimestampText t ↔ ¬ UnknownToVerifier t := by
  constructor
  · exact fun hv hunknown => disputed_iff.1 (Or.inr hunknown) ⟨fun _ => hv, fun _ => h⟩
  · intro hknown
    by_contra hv
    rcases disputed_iff.2 (fun hiff => hv (hiff.1 h)) with ⟨s, hs, -, rfl⟩ | hunknown
    · exact hv ⟨s, hs, rfl⟩
    · exact hknown hunknown

/-- A chain of one verifier is one of the other just if each record meets its demands. -/
theorem Chain.accepted_iff {file : List UInt8} (h : Chain sha256 demands p objects q)
    (hfile : file = fileOf objects) :
    (∃ objects' q', file = fileOf objects' ∧ Chain sha256 demands' p objects' q') ↔
      ∀ object ∈ objects, demands'.Met object := by
  subst hfile
  rw [← h.iff_met]
  constructor
  · rintro ⟨objects', q', hfile', h'⟩
    obtain rfl := h.isFileOf.unique (hfile' ▸ h'.isFileOf)
    exact h.iff_met.2 (h'.iff_met.1 h')
  · exact fun h' => ⟨objects, q, rfl, h'⟩

/-- **The two verifiers agree**, up to the timestamps that one of them does not know, the signatures that only
one of them takes, and the texts that the verifier does not read back.  If both accept a file, they report the
same of it; if one of them does, it depends on the single records whether the other does. -/
theorem verdicts_agree (sha256 : Sha256) (readFloat : Verifier.FloatReader) (file : List UInt8)
    (hstrict : ∀ signature message, verifyStrict signature message = true → verify signature message = true) :
    (∀ report result, Verifier.verifyReader sha256 verifyStrict readFloat file = .ok report →
      Forensics.verifyChain sha256 verify (some file) = .ok result → result = resultOf report) ∧
    (∀ report, Verifier.verifyReader sha256 verifyStrict readFloat file = .ok report →
      ∃ objects, IsFileOf objects file ∧
        ((∃ result, Forensics.verifyChain sha256 verify (some file) = .ok result) ↔
          ∀ object ∈ objects, Stamped (¬ UnknownToPython ·) object)) ∧
    ∀ result, Forensics.verifyChain sha256 verify (some file) = .ok result →
      ∃ objects, IsFileOf objects file ∧
        ((∃ report, Verifier.verifyReader sha256 verifyStrict readFloat file = .ok report) ↔
          ∀ object ∈ objects, Stamped (¬ UnknownToVerifier ·) object ∧ SignedBy verifyStrict object ∧
            Verifier.parse readFloat (Verifier.text (.object object)) = .ok (.object object)) := by
  have hpython : (∃ result, Forensics.verifyChain sha256 verify (some file) = .ok result) ↔
      ∃ objects q, file = fileOf objects ∧ Chain sha256 (.python verify) .start objects q := by
    simp only [verifyChain_eq_ok_iff]
    exact ⟨fun ⟨_, objects, q, hfile, hchain, _⟩ => ⟨objects, q, hfile, hchain⟩,
      fun ⟨objects, q, hfile, hchain⟩ => ⟨_, objects, q, hfile, hchain, rfl⟩⟩
  have hverifier : (∃ report, Verifier.verifyReader sha256 verifyStrict readFloat file = .ok report) ↔
      ∃ objects q, file = fileOf objects ∧ Chain sha256 (.verifier readFloat verifyStrict) .start objects q := by
    simp only [verifyReader_eq_ok_iff]
    exact ⟨fun ⟨_, objects, q, hfile, hchain, _⟩ => ⟨objects, q, hfile, hchain⟩,
      fun ⟨objects, q, hfile, hchain⟩ => ⟨_, objects, q, hfile, hchain, rfl⟩⟩
  refine ⟨fun report result hreport hresult => ?_, fun report hreport => ?_, fun result hresult => ?_⟩
  · obtain ⟨objects, q, rfl, hchain, rfl⟩ := verifyReader_eq_ok_iff.1 hreport
    obtain ⟨objects', q', hfile, hchain', rfl⟩ := verifyChain_eq_ok_iff.1 hresult
    obtain rfl := hchain.isFileOf.unique (hfile ▸ hchain'.isFileOf)
    obtain rfl := hchain.end_unique hchain'
    rfl
  · obtain ⟨objects, q, hfile, hchain, -⟩ := verifyReader_eq_ok_iff.1 hreport
    refine ⟨objects, hfile ▸ hchain.isFileOf, ?_⟩
    rw [hpython, hchain.accepted_iff hfile]
    refine forall₂_congr fun object hmem => ?_
    have hmet := (hchain.iff_met.1 hchain) object hmem
    constructor
    · exact fun h t ht => (isTimestamp_iff (hmet.timestamp t ht)).1 (h.timestamp t ht)
    · intro h
      obtain ⟨digits, signature, hdigits, hhex, hverify⟩ := hmet.signature
      exact ⟨fun t ht => (isTimestamp_iff (hmet.timestamp t ht)).2 (h t ht),
        ⟨digits, signature, hdigits, hhex, hstrict _ _ hverify⟩, trivial⟩
  · obtain ⟨objects, q, hfile, hchain, -⟩ := verifyChain_eq_ok_iff.1 hresult
    refine ⟨objects, hfile ▸ hchain.isFileOf, ?_⟩
    rw [hverifier, hchain.accepted_iff hfile]
    refine forall₂_congr fun object hmem => ?_
    have hmet := (hchain.iff_met.1 hchain) object hmem
    constructor
    · exact fun h => ⟨fun t ht => (isTimestampText_iff_known (hmet.timestamp t ht)).1 (h.timestamp t ht),
        h.signature, h.readable⟩
    · rintro ⟨hknown, hsigned, hreadable⟩
      exact ⟨fun t ht => (isTimestampText_iff_known (hmet.timestamp t ht)).2 (hknown t ht), hsigned, hreadable⟩

/-- Both verifiers accept a chain of one record, so that its timestamp is known to both. -/
theorem verdicts_agree_sample : ∃ objects, IsFileOf objects (sampleStore.getD []) ∧
    (∀ object ∈ objects, Stamped (¬ UnknownToPython ·) object) ∧
    ∃ report, Forensics.verifyChain Forensics.sampleSha256 sampleVerify (some (sampleStore.getD [])) =
      .ok (resultOf report) := by
  have hboth : (Verifier.verifyReader Forensics.sampleSha256 sampleVerify Verifier.nearestFloat
        (sampleStore.getD [])).isOk = true ∧
      (Forensics.verifyChain Forensics.sampleSha256 sampleVerify (some (sampleStore.getD []))).isOk = true := by
    decide +kernel
  obtain ⟨report, hreport⟩ := exists_of_isOk hboth.1
  obtain ⟨result, hresult⟩ := exists_of_isOk hboth.2
  have hstrict : ∀ signature message, sampleVerify signature message = true →
      sampleVerify signature message = true := fun _ _ h => h
  obtain ⟨hsame, hpython, -⟩ := verdicts_agree Forensics.sampleSha256 Verifier.nearestFloat
    (sampleStore.getD []) hstrict
  obtain ⟨objects, hfile, hiff⟩ := hpython report hreport
  exact ⟨objects, hfile, hiff.1 ⟨result, hresult⟩, report, hsame report result hreport hresult ▸ hresult⟩

end Interop
end Vestrix
