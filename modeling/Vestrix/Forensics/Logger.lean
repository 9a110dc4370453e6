/-
# Appending a record

`logger.py`: `log_event` validates an event, reads the tip of the store, signs the record
that comes next and appends its line.  The signer and what becomes of the write are
parameters of a call.

A call that gets to its append makes a line that `checkLine` accepts after the lines before
it (`prepare_valid`), so that the store can be read again (`logEvent_reads`).  A call
that fails earlier leaves the store alone, and one whose write fails leaves what was
written (`logEvent_failed`).
-/

import Vestrix.Forensics.Store
import Vestrix.Interop.Values

namespace Vestrix
namespace Forensics

open Text Rounding Json Outcome Python Record

/-- What a signer does. -/
inductive SignResult where
  | bytes (signature : List UInt8)
  | notBytes
  | raised
deriving DecidableEq

/-- `Signer`. -/
abbrev Signer := List UInt8 → SignResult

/-- What becomes of the `open`, `write`, `flush` and `fsync` of a line: all of it is stored, the
file cannot be opened, or one of the others raises when some bytes are stored. -/
inductive WriteResult where
  | done
  | openFailed
  | failed (stored : ℕ)
deriving DecidableEq

/-- `{**event_fields, "seq": seq, "prev_hash": previous_hash}`. -/
def unsignedRecord (event : Dict) (seq : ℤ) (previousHash : Str) : Dict :=
  (event.set (lit "seq") (.atom (.int seq))).set (lit "prev_hash") (.atom (.str previousHash))

/-- `{**unsigned_record, "record_hash": record_hash, "signature": signature.hex()}`. -/
def signedRecord (unsigned : Dict) (recordHash : Str) (signature : List UInt8) : Dict :=
  (unsigned.set (lit "record_hash") (.atom (.str recordHash))).set (lit "signature")
    (.atom (.str (ofChars (hex signature))))

/-- The signature of some bytes. -/
def signBytes (signer : Signer) (bytes : List UInt8) : Except Exc (List UInt8) :=
  match signer bytes with
  | .bytes signature => do
    require (signature.length = 64) (.appendError .signature)
    return signature
  | .notBytes => .error (.appendError .signature)
  | .raised => .error .signerRaised

/-- How `log_event` reports an error of the store. -/
def refuseChain : Exc → Exc
  | .storeError line reason => .appendError (.invalidChain line reason)
  | e => e

/-- The bytes that a failing write leaves of a line. -/
def WriteResult.apply (store : Store) (line : List UInt8) : WriteResult → Store
  | .done => some (store.getD [] ++ line)
  | .openFailed => store
  | .failed stored => some (store.getD [] ++ line.take stored)

section

variable (sha256 : Sha256) (signer : Signer)

/-- `log_event` up to its append: the record and its line. -/
def prepare (event : Value) (store : Store) : Except Exc (Dict × List UInt8) := do
  let eventFields ← validateEvent event
  let (seq, previousHash) ←
    (chainTip sha256 store (some (recordFormatVersion eventFields))).mapError refuseChain
  let unsigned := unsignedRecord eventFields seq previousHash
  let (recordBytes, recordHash) ← hashUnsignedRecord sha256 unsigned
  let signature ← signBytes signer recordBytes
  let record := signedRecord unsigned recordHash signature
  let encoded ← canonicalJsonBytes (.object record)
  return (record, encoded ++ [lineFeed])

/-- `log_event`, with the lock held. -/
def logEvent (write : WriteResult) (event : Value) (store : Store) : Except Exc Dict × Store :=
  match prepare sha256 signer event store with
  | .error e => (.error e, store)
  | .ok (record, line) =>
    (if write = .done then .ok record else .error (.appendError .notAppended), write.apply store line)

end

/-! ### The record -/

variable {sha256 : Sha256} {signer : Signer} {event record : Dict} {store store' : Store}

/-- The items that `log_event` adds to an event. -/
def chainItems (seq : ℤ) (previousHash recordHash : Str) (signature : List UInt8) : Dict :=
  [(lit "seq", .atom (.int seq)), (lit "prev_hash", .atom (.str previousHash)),
    (lit "record_hash", .atom (.str recordHash)),
    (lit "signature", .atom (.str (ofChars (hex signature))))]

/-- A dictionary has none of the items that `log_event` adds. -/
def Unmanaged (event : Dict) : Prop := ∀ k ∈ event.keys, k ∉ managedFields

/-- The fields of an event are none of those that the logger adds. -/
theorem Conforms.unmanaged {shape : Shape} (h : Conforms shape.eventFields event) :
    Unmanaged event := by
  intro k hk
  obtain ⟨v, hv⟩ := lookup_isSome.2 hk
  obtain ⟨f, hf, rfl⟩ := h.known k v hv
  have hfields : ∀ f ∈ shape.eventFields, ofChars f.1 ∉ managedFields := by
    cases shape <;> decide
  exact hfields f hf

/-- An event has no field that the logger adds. -/
theorem Unmanaged.notMem (h : Unmanaged event) {k : Str} (hk : k ∈ managedFields) :
    k ∉ event.keys := fun hmem => h k hmem hk

/-- A managed item is set behind those that were set before. -/
theorem Unmanaged.set_append (h : Unmanaged event) {items : Dict} {k : Str} (hk : k ∈ managedFields)
    (hitems : k ∉ Dict.keys items) (v : Value) :
    Dict.set (event ++ items) k v = event ++ (items ++ [(k, v)]) := by
  have hnotMem : k ∉ Dict.keys (event ++ items) := by
    rw [Dict.keys, List.map_append, List.mem_append, not_or]
    exact ⟨h.notMem hk, hitems⟩
  rw [Dict.set_eq_append hnotMem, List.append_assoc]

/-- The unsigned record is the event, its number and the hash of the record before. -/
theorem unsignedRecord_eq (h : Unmanaged event) (seq : ℤ) (previousHash : Str) :
    unsignedRecord event seq previousHash = event ++
      [(lit "seq", .atom (.int seq)), (lit "prev_hash", .atom (.str previousHash))] := by
  have hkeys : lit "prev_hash" ∉ [lit "seq"] := by decide
  rw [unsignedRecord, Dict.set_eq_append (h.notMem (by decide)), h.set_append (by decide) hkeys]
  rfl

/-- The signed record is the event with the four fields of the chain. -/
theorem signedRecord_eq (h : Unmanaged event) (seq : ℤ) (previousHash recordHash : Str)
    (signature : List UInt8) :
    signedRecord (unsignedRecord event seq previousHash) recordHash signature =
      event ++ chainItems seq previousHash recordHash signature := by
  have hrecordHash : lit "record_hash" ∉ [lit "seq", lit "prev_hash"] := by decide
  have hsignature : lit "signature" ∉ [lit "seq", lit "prev_hash", lit "record_hash"] := by decide
  rw [unsignedRecord_eq h, signedRecord, h.set_append (by decide) hrecordHash,
    h.set_append (by decide) hsignature]
  rfl

section

variable {seq : ℤ} {previousHash recordHash : Str} {signature : List UInt8}

/-- Without hash and signature a record is the unsigned one. -/
theorem unsignedOf_append (h : Unmanaged event) :
    unsignedOf (event ++ chainItems seq previousHash recordHash signature) =
      unsignedRecord event seq previousHash := by
  rw [unsignedRecord_eq h, unsignedOf, List.filter_append]
  congr 1
  refine List.filter_eq_self.2 fun m hm => decide_eq_true fun hmem => ?_
  have hsub : ∀ k ∈ [lit "record_hash", lit "signature"], k ∈ managedFields := by decide
  exact h m.1 (List.mem_map_of_mem hm) (hsub m.1 hmem)

/-- The unsigned record has neither hash nor signature. -/
theorem unsignedOf_unsignedRecord (h : Unmanaged event) :
    unsignedOf (unsignedRecord event seq previousHash) = unsignedRecord event seq previousHash := by
  have hunsigned : unsignedOf (event ++ chainItems seq previousHash [] []) = _ := unsignedOf_append h
  rw [← hunsigned, unsignedOf, unsignedOf, List.filter_filter]
  simp only [Bool.and_self]

/-- The other fields of a record are those of the unsigned one. -/
theorem get?_unsignedOf {key : Str} (h : key ∉ [lit "record_hash", lit "signature"]) :
    (unsignedOf record).get? key = record.get? key := by
  rw [Dict.get?, unsignedOf,
    lookup_filter (q := fun k => decide (k ∉ [lit "record_hash", lit "signature"])) fun _ => rfl,
    if_pos (decide_eq_true h), Dict.get?]

/-- The unsigned record has each key once if the record has. -/
theorem distinctKeys_unsignedOf (h : (Json.object record).DistinctKeys) :
    (Json.object (unsignedOf record)).DistinctKeys := by
  obtain ⟨hkeys, hvalues⟩ := forall_object.1 h
  exact .object (hkeys.sublist (List.filter_sublist.map Prod.fst)) fun m hm =>
    hvalues m (List.mem_of_mem_filter hm)

/-- The event of a record is what it was made from. -/
theorem eventOf_append (h : Unmanaged event) :
    eventOf (event ++ chainItems seq previousHash recordHash signature) = event := by
  rw [eventOf, List.filter_append]
  have hevent : event.filter (fun m => m.1 ∉ managedFields) = event :=
    List.filter_eq_self.2 fun m hm => decide_eq_true (h m.1 (List.mem_map_of_mem hm))
  have hitems : (chainItems seq previousHash recordHash signature).filter
      (fun m => m.1 ∉ managedFields) = [] := rfl
  rw [hevent, hitems, List.append_nil]

/-- The fields of the chain are those that the logger has added. -/
theorem get?_append (h : Unmanaged event) {k : Str} (hk : k ∈ managedFields) :
    Dict.get? (event ++ chainItems seq previousHash recordHash signature) k =
      Dict.get? (chainItems seq previousHash recordHash signature) k := by
  rw [Dict.get?, lookup_append, lookup_eq_none.2 (h.notMem hk), Option.none_or]
  rfl

/-- A record of the right kind, with its place in the chain. -/
theorem conforms_append {shape : Shape} (h : Conforms shape.eventFields event) {n : ℕ}
    (hn : n < 2 ^ 63) (hprevious : Holds (.hex 64) (.atom (.str previousHash)))
    (hrecordHash : Holds (.hex 64) (.atom (.str recordHash))) (hsignature : signature.length = 64) :
    Conforms shape.recordFields (event ++ chainItems n previousHash recordHash signature) := by
  rw [conforms_record, eventOf_append h.unmanaged]
  have hget : ∀ {f : Field}, ofChars f.1 ∈ managedFields → Has (chainItems n previousHash recordHash
      signature) f → Has (event ++ chainItems n previousHash recordHash signature) f := by
    rintro f hf ⟨v, hv, hholds⟩
    exact ⟨v, by rw [get?_append h.unmanaged hf, hv], hholds⟩
  refine ⟨h, ?_⟩
  show ∀ f ∈ [("seq".toList, Kind.counter), ("prev_hash".toList, .hex 64),
    ("record_hash".toList, .hex 64), ("signature".toList, .hex 128)], _
  simp only [List.forall_mem_cons, List.not_mem_nil, false_imp_iff, implies_true, and_true]
  refine ⟨hget (by decide) ⟨_, rfl, n, rfl, Int.natCast_nonneg n, by exact_mod_cast hn⟩,
    hget (by decide) ⟨_, rfl, hprevious⟩, hget (by decide) ⟨_, rfl, hrecordHash⟩,
    hget (by decide) ⟨_, rfl, hex signature, scalars?_ofChars _, ?_⟩⟩
  exact isHex_hex hsignature

/-- A record has each key once if its event has. -/
theorem distinctKeys_append (h : Unmanaged event) (hd : (object event).DistinctKeys) :
    (object (event ++ chainItems seq previousHash recordHash signature)).DistinctKeys := by
  obtain ⟨hkeys, hvalues⟩ := forall_object.1 hd
  have hitems : (chainItems seq previousHash recordHash signature).map Prod.fst = managedFields := rfl
  refine .object ?_ fun m hm => ?_
  · rw [List.map_append, hitems]
    exact List.nodup_append'.2 ⟨hkeys, by decide, fun k hk hk' => h k hk hk'⟩
  · rcases List.mem_append.1 hm with hm | hm
    · exact hvalues m hm
    · simp only [chainItems, List.mem_cons, List.not_mem_nil, or_false] at hm
      rcases hm with rfl | rfl | rfl | rfl <;> exact .atom trivial

/-- A digest in hexadecimal is a hash. -/
theorem holds_hexdigest (bytes : List UInt8) :
    Holds (.hex 64) (.atom (.str (ofChars (sha256.hexdigest bytes)))) :=
  ⟨_, scalars?_ofChars _, sha256.isHex_hexdigest bytes⟩

/-- The hash of a record is that of the canonical bytes of the unsigned one. -/
theorem hashUnsignedRecord_eq_ok {d : Dict} {bytes : List UInt8} {hash : Str} :
    hashUnsignedRecord sha256 d = .ok (bytes, hash) ↔
      canonicalJsonBytes (.object (unsignedOf d)) = .ok bytes ∧ hash = ofChars (sha256.hexdigest bytes) := by
  rw [hashUnsignedRecord, bind_eq_ok]
  constructor
  · rintro ⟨b, hb, h⟩
    obtain ⟨rfl, rfl⟩ := Prod.mk.inj (Except.ok.inj h)
    exact ⟨hb, rfl⟩
  · rintro ⟨hb, rfl⟩
    exact ⟨bytes, hb, rfl⟩

end

/-! ### The call -/

/-- A record comes next in a store, where the walk ends with `x`. -/
structure Next (sha256 : Sha256) (signer : Signer) (store : Store) (event record : Dict) (x : Expected)
    (signedBytes : List UInt8) (recordHash : Str) (encoded : List UInt8) : Prop where
  conforms : ∃ shape : Shape, Conforms shape.eventFields event ∧ ∀ w ∈ x.formatVersion, w = shape.version
  reads : ∃ entries, Reads sha256 1 .first store.lines entries x
  hash : hashUnsignedRecord sha256 (unsignedRecord event x.seq x.prevHash) = .ok (signedBytes, recordHash)
  signed : ∃ signature, signer signedBytes = .bytes signature ∧ signature.length = 64 ∧
    record = event ++ chainItems x.seq x.prevHash recordHash signature
  encoded : canonicalJsonBytes (.object record) = .ok encoded

/-- A signature is taken if it has 64 bytes. -/
theorem signBytes_eq_ok {bytes signature : List UInt8} :
    signBytes signer bytes = .ok signature ↔
      signer bytes = .bytes signature ∧ signature.length = 64 := by
  rw [signBytes]
  cases h : signer bytes with
  | bytes s =>
    simp only [bind_eq_ok, require_eq_ok, exists_const]
    constructor
    · rintro ⟨hlen, hs⟩
      obtain rfl := Except.ok.inj hs
      exact ⟨rfl, hlen⟩
    · rintro ⟨hs, hlen⟩
      obtain rfl := SignResult.bytes.inj hs
      exact ⟨hlen, rfl⟩
  | notBytes => exact ⟨fun h => (nomatch h), fun h => (nomatch h.1)⟩
  | raised => exact ⟨fun h => (nomatch h), fun h => (nomatch h.1)⟩

/-- **A call gets to its append just with the next record** of an object, and the line is its
canonical text. -/
theorem prepare_eq_ok {value : Value} {line : List UInt8} :
    prepare sha256 signer value store = .ok (record, line) ↔
      ∃ event x signedBytes recordHash encoded, value = .object event ∧
        Next sha256 signer store event record x signedBytes recordHash encoded ∧
        line = encoded ++ [lineFeed] := by
  constructor
  · intro h
    obtain ⟨event, hevent, h⟩ := bind_eq_ok.1 h
    obtain ⟨⟨seq, previousHash⟩, htip, h⟩ := bind_eq_ok.1 h
    obtain ⟨⟨signedBytes, recordHash⟩, hhash, h⟩ := bind_eq_ok.1 h
    obtain ⟨signature, hsignature, h⟩ := bind_eq_ok.1 h
    obtain ⟨encoded, hencoded, h⟩ := bind_eq_ok.1 h
    obtain ⟨rfl, rfl⟩ := Prod.mk.inj (Except.ok.inj h)
    obtain ⟨entries, x, hreads, hplace, hversion⟩ := chainTip_eq_ok.1 (mapError_eq_ok.1 htip)
    obtain ⟨rfl, rfl⟩ := Prod.mk.inj hplace
    obtain ⟨hsigned, hlen⟩ := signBytes_eq_ok.1 hsignature
    obtain ⟨d, rfl⟩ : ∃ d, value = .object d := by
      cases value with
      | object d => exact ⟨d, rfl⟩
      | atom a => cases hevent
      | array xs => cases hevent
    obtain ⟨rfl, shape, hshape⟩ := validateEvent_eq_ok.1 hevent
    rw [recordFormatVersion_eq hshape.declares] at hversion
    rw [signedRecord_eq hshape.unmanaged] at hencoded ⊢
    exact ⟨event, x, signedBytes, recordHash, encoded, rfl, ⟨⟨shape, hshape, hversion _ rfl⟩,
      ⟨entries, hreads⟩, hhash, ⟨signature, hsigned, hlen, rfl⟩, hencoded⟩, rfl⟩
  · rintro ⟨event, x, signedBytes, recordHash, encoded, rfl, hnext, rfl⟩
    obtain ⟨shape, hshape, hversion⟩ := hnext.conforms
    obtain ⟨entries, hreads⟩ := hnext.reads
    obtain ⟨signature, hsigned, hlen, rfl⟩ := hnext.signed
    have htip : chainTip sha256 store (some (recordFormatVersion event)) = .ok ((x.seq : ℤ), x.prevHash) := by
      rw [recordFormatVersion_eq hshape.declares]
      refine chainTip_eq_ok.2 ⟨entries, x, hreads, rfl, fun v hv w hw => ?_⟩
      rw [hversion w hw, Option.some.inj hv]
    rw [prepare, validateEvent_eq_ok.2 ⟨rfl, shape, hshape⟩, ok_bind, htip, Except.mapError, ok_bind]
    dsimp only
    rw [hnext.hash, ok_bind]
    dsimp only
    rw [signBytes_eq_ok.2 ⟨hsigned, hlen⟩, ok_bind, signedRecord_eq hshape.unmanaged, hnext.encoded]
    rfl

section

variable {x : Expected} {signedBytes encoded : List UInt8} {recordHash : Str}

/-- The record of a call conforms to the schema while the store has less than `2^63` lines. -/
theorem Next.conforms_record (h : Next sha256 signer store event record x signedBytes recordHash encoded)
    (hseq : x.seq < 2 ^ 63) : ∃ shape : Shape, Conforms shape.eventFields event ∧
      (∀ w ∈ x.formatVersion, w = shape.version) ∧ Conforms shape.recordFields record := by
  obtain ⟨shape, hshape, hversion⟩ := h.conforms
  obtain ⟨entries, hreads⟩ := h.reads
  obtain ⟨signature, -, hlen, rfl⟩ := h.signed
  obtain ⟨-, hhash⟩ := hashUnsignedRecord_eq_ok.1 h.hash
  have hgenesis : Holds (.hex 64) (.atom (.str genesisPrevHash)) :=
    ⟨genesis, scalars?_ofChars _, isHex_genesis⟩
  refine ⟨shape, hshape, hversion, conforms_append hshape hseq (hreads.holds_prevHash hgenesis) ?_ hlen⟩
  rw [hhash]
  exact holds_hexdigest signedBytes

/-- The next record has each key once if its event has. -/
theorem Next.distinctKeys (h : Next sha256 signer store event record x signedBytes recordHash encoded)
    (hd : (object event).DistinctKeys) : (object record).DistinctKeys := by
  obtain ⟨shape, hshape, -⟩ := h.conforms
  obtain ⟨signature, -, -, rfl⟩ := h.signed
  exact distinctKeys_append hshape.unmanaged hd

/-- The line of a record is read as the record with its members in order. -/
theorem Next.isLine (h : Next sha256 signer store event record x signedBytes recordHash encoded)
    (hd : (object event).DistinctKeys) {record' : Dict} (he : (object record).sorted = .object record') :
    IsLine record' encoded := by
  obtain ⟨hencodable, hbytes⟩ := canonicalJsonBytes_eq_ok.1 h.encoded
  have hdistinct := h.distinctKeys hd
  refine ⟨?_, canonicalJsonBytes_congr ?_ h.encoded⟩
  · rw [← he]
    exact loads_text hencodable hdistinct hbytes
  · rw [← he, sorted_sorted hdistinct]

/-- **The line of a call is the next line of the store.** -/
theorem Next.checkLine (h : Next sha256 signer store event record x signedBytes recordHash encoded)
    (hd : (object event).DistinctKeys) (hseq : x.seq < 2 ^ 63) {record' : Dict}
    (he : (object record).sorted = .object record') (n : ℕ) :
    Forensics.checkLine sha256 n x (encoded ++ [lineFeed]) = .ok (⟨n, record', signedBytes⟩,
      ⟨x.seq + 1, recordHash, some (recordFormatVersion record')⟩) := by
  obtain ⟨shape, hshape, hversion, hconforms⟩ := h.conforms_record hseq
  obtain ⟨signature, -, -, hrecord⟩ := h.signed
  have hdistinct := h.distinctKeys hd
  have hkeys : Dict.keys record |>.Nodup := (forall_object.1 hdistinct).1
  have hconforms' := hconforms.sorted hkeys he
  have hget : ∀ {k : Str} {a : Atom}, k ∈ managedFields → Dict.get? (chainItems x.seq x.prevHash
      recordHash signature) k = some (.atom a) → record'.get? k = some (.atom a) := by
    intro k a hk hitem
    rw [Dict.get?, lookup_sorted hkeys he, ← Dict.get?, hrecord, get?_append hshape.unmanaged hk, hitem]
    rfl
  obtain ⟨hbytes, hhash⟩ := hashUnsignedRecord_eq_ok.1 h.hash
  have hunsigned : (object (unsignedOf record')).sorted = (object (unsignedOf record)).sorted :=
    sorted_filter hdistinct he fun k => decide (k ∉ [lit "record_hash", lit "signature"])
  refine checkLine_eq_ok.2 ⟨record', encoded, signedBytes, recordHash, rfl, h.isLine hd he,
    ⟨⟨shape, hconforms'⟩, hget (by decide) rfl, hget (by decide) rfl, hget (by decide) rfl, ?_⟩, ?_, rfl, rfl⟩
  · refine hashUnsignedRecord_eq_ok.2 ⟨canonicalJsonBytes_congr ?_ hbytes, hhash⟩
    rw [hunsigned, hrecord, unsignedOf_append hshape.unmanaged, unsignedOf_unsignedRecord hshape.unmanaged]
  · intro w hw
    rw [hconforms'.version, hversion w hw]

/-- A line has no line feed. -/
theorem Next.lineFeed_notMem (h : Next sha256 signer store event record x signedBytes recordHash encoded)
    (hd : (object event).DistinctKeys) (hseq : x.seq < 2 ^ 63) : lineFeed ∉ encoded := by
  obtain ⟨shape, -, -, hconforms⟩ := h.conforms_record hseq
  have hpermitted := permitted_of_conforms (forall_object.1 (h.distinctKeys hd)).1 hconforms
  obtain ⟨hvalue, -⟩ := Interop.toPython_fromPython hpermitted
  obtain ⟨-, hbytes⟩ := canonicalJsonBytes_eq_ok.1 h.encoded
  rw [← hvalue, Interop.text_toPython, encodeUtf8, scalars?_ofChars, Option.map_some,
    Option.some.injEq] at hbytes
  rw [← hbytes]
  exact Verifier.lineFeed_notMem_text _

end

/-- A call returns only if its write is done. -/
theorem write_eq_done {write : WriteResult} {value : Value}
    (h : logEvent sha256 signer write value store = (.ok record, store')) : write = .done := by
  rw [logEvent] at h
  cases hprepare : prepare sha256 signer value store with
  | error e => rw [hprepare] at h; cases (Prod.mk.inj h).1
  | ok r =>
    rw [hprepare] at h
    by_contra hne
    have hresult := (Prod.mk.inj h).1
    rw [if_neg hne] at hresult
    cases hresult

/-- **A call that returns appends the next line**, and the store with it can be read. -/
theorem logEvent_reads {value : Value} (hd : value.DistinctKeys)
    (h : logEvent sha256 signer .done value store = (.ok record, store')) :
    ∃ event x signedBytes recordHash encoded, value = .object event ∧
      Next sha256 signer store event record x signedBytes recordHash encoded ∧
      store' = some (store.getD [] ++ (encoded ++ [lineFeed])) ∧
      (x.seq < 2 ^ 63 → store'.lines = store.lines ++ [encoded ++ [lineFeed]]) := by
  rw [logEvent] at h
  cases hprepare : prepare sha256 signer value store with
  | error e =>
    rw [hprepare] at h
    cases (Prod.mk.inj h).1
  | ok r =>
    obtain ⟨record₀, line⟩ := r
    rw [hprepare] at h
    obtain ⟨hrecord, rfl⟩ := Prod.mk.inj h
    obtain rfl := Except.ok.inj hrecord
    obtain ⟨event, x, signedBytes, recordHash, encoded, rfl, hnext, rfl⟩ := prepare_eq_ok.1 hprepare
    refine ⟨event, x, signedBytes, recordHash, encoded, rfl, hnext, rfl, fun hseq => ?_⟩
    obtain ⟨entries, hreads⟩ := hnext.reads
    exact physicalLines_append_line hreads.terminated (hnext.lineFeed_notMem hd hseq)

/-! ### A write that fails -/

/-- Once the record is prepared, the outcome of the write decides what `log_event` returns and what
is in the file. -/
theorem logEvent_of_prepare {write : WriteResult} {value : Value} {line : List UInt8}
    (h : prepare sha256 signer value store = .ok (record, line)) :
    logEvent sha256 signer write value store =
      (if write = .done then .ok record else .error (.appendError .notAppended),
        write.apply store line) := by
  rw [logEvent, h]

/-- **A call that raises leaves the bytes of the store as they are** when it does not get to
its append, or when its write stores nothing, and only then. -/
theorem failed_append_clean (write : WriteResult) (value : Value) (store : Store) :
    (∀ e store', logEvent sha256 signer write value store = (.error e, store') →
      store'.getD [] = store.getD []) ↔
    (∃ e, prepare sha256 signer value store = .error e) ∨
      ∀ stored, write = .failed stored → stored = 0 := by
  cases hprepare : prepare sha256 signer value store with
  | error e =>
    rw [logEvent, hprepare]
    refine ⟨fun _ => Or.inl ⟨e, rfl⟩, fun _ e' store' h => ?_⟩
    rw [← (Prod.mk.inj h).2]
  | ok r =>
    obtain ⟨record, line⟩ := r
    obtain ⟨_, _, _, _, encoded, -, -, rfl⟩ := prepare_eq_ok.1 hprepare
    rw [logEvent_of_prepare hprepare]
    constructor
    · rintro h
      refine Or.inr fun stored hstored => ?_
      subst hstored
      have hbytes := h _ _ rfl
      rw [WriteResult.apply, Option.getD_some, List.append_right_eq_self, List.take_eq_nil_iff] at hbytes
      exact hbytes.resolve_right (by simp)
    · rintro (⟨e, he⟩ | hwrite) e' store' h
      · cases he
      · obtain ⟨hresult, rfl⟩ := Prod.mk.inj h
        cases write with
        | done => cases hresult
        | openFailed => rfl
        | failed stored =>
          rw [hwrite stored rfl, WriteResult.apply, List.take_zero, List.append_nil, Option.getD_some]

/-- The event of a window that a collector has received. -/
def sampleEvent : Dict :=
  [(lit "format_version", .atom (.int 2)),
    (lit "event_type", .atom (.str (lit "ingestion_accepted"))),
    (lit "ts_utc", .atom (.str (lit "2026-07-01T12:00:00Z"))),
    (lit "node_id", .atom (.str (lit "node-1"))),
    (lit "raw_csi_hash", .atom (.str (List.replicate 64 (.scalar 'a')))),
    (lit "collector_schema_version", .atom (.str (lit "0.1"))),
    (lit "collector_sequence_number", .atom (.int 7))]

/-- The sample has each key once. -/
theorem distinctKeys_sampleEvent : (object sampleEvent).DistinctKeys := by decide

/-- The bytes of its record at the start of a chain. -/
def sampleBytes : List UInt8 :=
  utf8 ("\x7b\"collector_schema_version\":\"0.1\",\"collector_sequence_number\":7,".toList ++
    "\"event_type\":\"ingestion_accepted\",\"format_version\":2,\"node_id\":\"node-1\",".toList ++
    "\"prev_hash\":\"".toList ++ genesis ++ "\",\"raw_csi_hash\":\"".toList ++ List.replicate 64 'a' ++
    "\",\"seq\":0,\"ts_utc\":\"2026-07-01T12:00:00Z\"\x7d".toList)

/-- Their SHA-256 hash. -/
def sampleHash : List UInt8 :=
  [0x64, 0xb9, 0x56, 0x51, 0xfa, 0x66, 0x06, 0x21, 0xa6, 0x83, 0xc6, 0xb2, 0xfc, 0x95, 0x09, 0x66,
    0xb7, 0x71, 0x94, 0xab, 0x5b, 0xd4, 0x47, 0xd3, 0x43, 0x25, 0xe4, 0x88, 0x54, 0xeb, 0xd0, 0x88]

/-- The event of the next window. -/
def linkedEvent : Dict :=
  [(lit "format_version", .atom (.int 2)),
    (lit "event_type", .atom (.str (lit "ingestion_accepted"))),
    (lit "ts_utc", .atom (.str (lit "2026-07-01T12:00:01Z"))),
    (lit "node_id", .atom (.str (lit "node-1"))),
    (lit "raw_csi_hash", .atom (.str (List.replicate 64 (.scalar 'a')))),
    (lit "collector_schema_version", .atom (.str (lit "0.1"))),
    (lit "collector_sequence_number", .atom (.int 8))]

/-- The second sample has each key once. -/
theorem distinctKeys_linkedEvent : (object linkedEvent).DistinctKeys := by decide

/-- The bytes of its record behind the other one. -/
def linkedBytes : List UInt8 :=
  utf8 ("\x7b\"collector_schema_version\":\"0.1\",\"collector_sequence_number\":8,".toList ++
    "\"event_type\":\"ingestion_accepted\",\"format_version\":2,\"node_id\":\"node-1\",".toList ++
    "\"prev_hash\":\"".toList ++ hex sampleHash ++ "\",\"raw_csi_hash\":\"".toList ++
    List.replicate 64 'a' ++ "\",\"seq\":1,\"ts_utc\":\"2026-07-01T12:00:01Z\"\x7d".toList)

/-- SHA-256 on the bytes of the two records. -/
def sampleSha256 : Sha256 where
  digest m :=
    if m = sampleBytes then
      sampleHash
    else if m = linkedBytes then
      [0x29, 0xdc, 0x8d, 0xef, 0x3c, 0x8d, 0x92, 0x4d, 0xfa, 0x3e, 0x74, 0xd8, 0xb1, 0x1a, 0x90, 0x12,
        0x9a, 0xfe, 0x01, 0x44, 0xf8, 0x62, 0x63, 0x79, 0xe1, 0x0d, 0x77, 0x21, 0x0e, 0x4e, 0xbd, 0x1f]
    else List.replicate 32 0
  length_digest m := by split_ifs <;> rfl

/-- An Ed25519 signature of the bytes of the first record. -/
def sampleSignature : List UInt8 :=
  [0x34, 0x24, 0xdf, 0x48, 0xde, 0x53, 0xd8, 0x52, 0x5f, 0x69, 0xdf, 0x71, 0x83, 0x93, 0xe8, 0xdc,
    0x6a, 0xcf, 0xde, 0x27, 0x08, 0x54, 0xc0, 0x24, 0x24, 0x89, 0x3a, 0x89, 0x9b, 0x10, 0x05, 0xe9,
    0xf4, 0x3f, 0x88, 0x24, 0xc9, 0xbf, 0x7e, 0xdb, 0x31, 0x87, 0x97, 0x54, 0xb9, 0xa2, 0x2a, 0x2d,
    0x91, 0x00, 0xfa, 0x74, 0xbc, 0x23, 0xa7, 0x47, 0xb9, 0x5e, 0x62, 0x57, 0x69, 0x9a, 0x43, 0x04]

/-- A signature of those of the second one with the same key. -/
def linkedSignature : List UInt8 :=
  [0xf9, 0x27, 0x77, 0x46, 0xf1, 0x1e, 0x54, 0x4b, 0xc0, 0x30, 0x0e, 0xa3, 0x01, 0xef, 0x0c, 0x9f,
    0xa0, 0x87, 0xfe, 0xc7, 0xd5, 0x7e, 0xc2, 0x81, 0xcf, 0x09, 0x29, 0x31, 0xdd, 0xdf, 0x51, 0x31,
    0xc6, 0x7c, 0x81, 0x45, 0x4b, 0xad, 0x34, 0x0d, 0x8c, 0x15, 0xf4, 0xcd, 0xee, 0xfb, 0xd2, 0xee,
    0x3c, 0xc8, 0x3b, 0xcb, 0x7f, 0xbc, 0xfd, 0x40, 0x25, 0x78, 0xbf, 0x1f, 0x92, 0xf4, 0x94, 0x04]

/-- A signer that knows both. -/
def sampleSigner : Signer := fun m =>
  if m = sampleBytes then .bytes sampleSignature
  else if m = linkedBytes then .bytes linkedSignature
  else .raised

/-- The verification of these signatures. -/
def sampleVerified (signature message : List UInt8) : Bool :=
  decide (signature = sampleSignature ∧ message = sampleBytes ∨
    signature = linkedSignature ∧ message = linkedBytes)

/-- What the signer signs is verified. -/
theorem sampleVerified_of_signed {bytes signature : List UInt8} (h : sampleSigner bytes = .bytes signature) :
    sampleVerified signature bytes = true := by
  rw [sampleSigner] at h
  split_ifs at h with hsample hlinked
  · exact decide_eq_true (Or.inl ⟨(SignResult.bytes.inj h).symm, hsample⟩)
  · exact decide_eq_true (Or.inr ⟨(SignResult.bytes.inj h).symm, hlinked⟩)

/-- The record of the sample can be prepared. -/
theorem prepare_sample :
    ∃ r, prepare sampleSha256 sampleSigner (.object sampleEvent) none = .ok r := by
  have h : (prepare sampleSha256 sampleSigner (.object sampleEvent) none).isOk = true := by
    decide +kernel
  cases hr : prepare sampleSha256 sampleSigner (.object sampleEvent) none with
  | error e => rw [hr] at h; cases h
  | ok r => exact ⟨r, rfl⟩

/-- **A write that stores one byte and raises leaves that byte in the store.** -/
theorem failed_append_leaves_bytes : ¬ ∀ (sha256 : Sha256) (signer : Signer) (write : WriteResult)
    (value : Value) (store store' : Store) (e : Exc),
    logEvent sha256 signer write value store = (.error e, store') → store'.getD [] = store.getD [] := by
  intro h
  obtain ⟨⟨record, line⟩, hprepare⟩ := prepare_sample
  obtain ⟨_, _, _, _, encoded, -, -, rfl⟩ := prepare_eq_ok.1 hprepare
  have hbytes := h _ _ (.failed 1) _ _ _ _ (logEvent_of_prepare hprepare)
  rw [WriteResult.apply, Option.getD_some, List.append_right_eq_self, List.take_eq_nil_iff] at hbytes
  exact hbytes.elim (by decide) (by simp)

end Forensics
end Vestrix
