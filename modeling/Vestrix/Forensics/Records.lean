/-
# The records that were returned

Each call of `log_event` that returns hands out the record that it has appended.  These
records form a hash chain, and what is read of the store are these records
(`Recording.next`).
-/

import Vestrix.Forensics.History
import Vestrix.Record.HashChain

namespace Vestrix
namespace Forensics

open Text Rounding Json Outcome Python Record Transition

section

variable (sha256 : Sha256)

/-- A call of `log_event` that returns, with the records that were returned. -/
def call (s : Store × List Dict) (c : Signer × Event) : Option (Store × List Dict) :=
  match logEvent sha256 c.1 .done (.object c.2.1) s.1 with
  | (.ok record, store) => some (store, s.2 ++ [record])
  | (.error _, _) => none

/-- The items of a dictionary. -/
def items : Value → Dict
  | .object d => d
  | _ => []

/-- What is signed of a record. -/
def recordBytes (record : Dict) : List UInt8 :=
  (canonicalJsonBytes (.object (unsignedOf record))).toOption.getD []

/-- The records of `log_event` as a hash chain. -/
def hashChain : HashChain Dict Value Str where
  content record := (object (unsignedOf record)).sorted
  position v := ((fetchInt (items v) (lit "seq")).toOption.getD 0).toNat
  prev v := (fetchStr (items v) (lit "prev_hash")).toOption.getD []
  digest v := ofChars (sha256.hexdigest ((canonicalJsonBytes v).toOption.getD []))

/-- A record that carries the digest of its other items. -/
structure Recorded (record : Dict) : Prop where
  distinctKeys : (Json.object record).DistinctKeys
  hash : ∃ signedBytes recordHash, hashUnsignedRecord sha256 record = .ok (signedBytes, recordHash) ∧
    record.get? (lit "record_hash") = some (.atom (.str recordHash))

end

/-- Two records have the same items, except perhaps for their signatures. -/
def AgreeExceptSignature (record record' : Dict) : Prop :=
  ∀ key, key ≠ lit "signature" → (record.get? key).map sorted = (record'.get? key).map sorted

/-- Two records with the same items. -/
def SameRecord (record record' : Dict) : Prop := (Json.object record).sorted = (Json.object record').sorted

variable {sha256 : Sha256} {record record' : Dict}

/-! ### One record -/

/-- The items of the content are those that are signed, with their keys in order. -/
theorem get?_content (h : (Json.object record).DistinctKeys) {key : Str}
    (hkey : key ∉ [lit "record_hash", lit "signature"]) :
    (items ((hashChain sha256).content record)).get? key = (record.get? key).map sorted := by
  obtain ⟨ns, hns⟩ : ∃ ns, (Json.object (unsignedOf record)).sorted = .object ns := ⟨_, sorted_object _⟩
  have hlookup := lookup_sorted (forall_object.1 (distinctKeys_unsignedOf h)).1 hns key
  rw [← Dict.get?, ← Dict.get?, get?_unsignedOf hkey] at hlookup
  show (items (Json.object (unsignedOf record)).sorted).get? key = _
  rw [hns]
  exact hlookup

/-- The position of a record is its `seq`. -/
theorem position_content (h : (Json.object record).DistinctKeys) {n : ℕ}
    (hseq : record.get? (lit "seq") = some (.atom (.int n))) :
    (hashChain sha256).position ((hashChain sha256).content record) = n := by
  have hget : (items ((hashChain sha256).content record)).get? (lit "seq") =
      (record.get? (lit "seq")).map sorted := get?_content h (by decide)
  rw [hseq] at hget
  show ((fetchInt (items ((hashChain sha256).content record)) (lit "seq")).toOption.getD 0).toNat = n
  rw [fetchInt_eq_ok.2 hget]
  rfl

/-- The digest that a record names is its `prev_hash`. -/
theorem prev_content (h : (Json.object record).DistinctKeys) {prevHash : Str}
    (hprev : record.get? (lit "prev_hash") = some (.atom (.str prevHash))) :
    (hashChain sha256).prev ((hashChain sha256).content record) = prevHash := by
  have hget : (items ((hashChain sha256).content record)).get? (lit "prev_hash") =
      (record.get? (lit "prev_hash")).map sorted := get?_content h (by decide)
  rw [hprev] at hget
  show (fetchStr (items ((hashChain sha256).content record)) (lit "prev_hash")).toOption.getD [] = prevHash
  rw [fetchStr_eq_ok.2 hget]
  rfl

/-- The digest of the content is that of the signed bytes. -/
theorem digest_content (h : (Json.object record).DistinctKeys) {signedBytes : List UInt8} {recordHash : Str}
    (hhash : hashUnsignedRecord sha256 record = .ok (signedBytes, recordHash)) :
    (hashChain sha256).digest ((hashChain sha256).content record) = recordHash := by
  obtain ⟨hbytes, rfl⟩ := hashUnsignedRecord_eq_ok.1 hhash
  have hsorted : ((hashChain sha256).content record).sorted = (Json.object (unsignedOf record)).sorted :=
    sorted_sorted (distinctKeys_unsignedOf h)
  show ofChars (sha256.hexdigest ((canonicalJsonBytes ((hashChain sha256).content record)).toOption.getD [])) = _
  rw [canonicalJsonBytes_congr hsorted.symm hbytes]
  rfl

/-- The bytes of a record are those that its hash is made of. -/
theorem recordBytes_eq {signedBytes : List UInt8} {recordHash : Str}
    (h : hashUnsignedRecord sha256 record = .ok (signedBytes, recordHash)) :
    recordBytes record = signedBytes := by
  rw [recordBytes, (hashUnsignedRecord_eq_ok.1 h).1]
  rfl

/-- **The signed bytes determine the items that are signed.** -/
theorem Recorded.content_injective (h : Recorded sha256 record) (h' : Recorded sha256 record')
    (hbytes : recordBytes record = recordBytes record') :
    (hashChain sha256).content record = (hashChain sha256).content record' := by
  obtain ⟨signedBytes, recordHash, hhash, -⟩ := h.hash
  obtain ⟨signedBytes', recordHash', hhash', -⟩ := h'.hash
  obtain ⟨hencodable, htext⟩ := canonicalJsonBytes_eq_ok.1 (hashUnsignedRecord_eq_ok.1 hhash).1
  obtain ⟨hencodable', htext'⟩ := canonicalJsonBytes_eq_ok.1 (hashUnsignedRecord_eq_ok.1 hhash').1
  rw [recordBytes_eq hhash, recordBytes_eq hhash'] at hbytes
  subst hbytes
  exact text_injective hencodable hencodable' (distinctKeys_unsignedOf h.distinctKeys)
    (distinctKeys_unsignedOf h'.distinctKeys) htext htext'

/-- Records that sign the same differ in their signatures at most. -/
theorem Recorded.agree (h : Recorded sha256 record) (h' : Recorded sha256 record')
    (hcontent : (hashChain sha256).content record = (hashChain sha256).content record') :
    AgreeExceptSignature record record' := by
  intro key hkey
  by_cases hhash : key = lit "record_hash"
  · subst hhash
    obtain ⟨_, recordHash, hhash, hget⟩ := h.hash
    obtain ⟨_, recordHash', hhash', hget'⟩ := h'.hash
    rw [hget, hget', ← digest_content h.distinctKeys hhash, hcontent,
      digest_content h'.distinctKeys hhash']
  · have hnotMem : key ∉ [lit "record_hash", lit "signature"] := by
      rw [List.mem_cons, List.mem_singleton, not_or]
      exact ⟨hhash, hkey⟩
    rw [← get?_content h.distinctKeys hnotMem, hcontent, get?_content h'.distinctKeys hnotMem]

/-- A record that is read is one of the chain. -/
theorem Valid.recorded {line : List UInt8} {seq : ℕ} {prevHash recordHash : Str} {signedBytes : List UInt8}
    (hline : IsLine record line) (h : Valid sha256 record seq prevHash recordHash signedBytes) :
    Recorded sha256 record :=
  ⟨loads_distinctKeys hline.loads, signedBytes, recordHash, h.hash_eq, h.recordHash_eq⟩

/-- Two records with the same signed bytes have the same number. -/
theorem Valid.seq_unique {line line' signedBytes : List UInt8} {seq seq' : ℕ}
    {prevHash prevHash' recordHash recordHash' : Str} (hline : IsLine record line)
    (hline' : IsLine record' line') (h : Valid sha256 record seq prevHash recordHash signedBytes)
    (h' : Valid sha256 record' seq' prevHash' recordHash' signedBytes) : seq = seq' := by
  have hrecorded := h.recorded hline
  have hrecorded' := h'.recorded hline'
  have hcontent := hrecorded.content_injective hrecorded'
    ((recordBytes_eq h.hash_eq).trans (recordBytes_eq h'.hash_eq).symm)
  have hposition : (hashChain sha256).position ((hashChain sha256).content record) = seq :=
    position_content hrecorded.distinctKeys h.seq_eq
  rw [hcontent, position_content hrecorded'.distinctKeys h'.seq_eq] at hposition
  exact hposition.symm

/-- The records that are read are linked, from the number and the digest that were expected. -/
theorem Reads.linked {n : ℕ} {x y : Expected} {lines : List (List UInt8)} {entries : List Entry}
    (h : Reads sha256 n x lines entries y) :
    (hashChain sha256).Linked x.seq x.prevHash (entries.map Entry.record) ∧
      ∀ e ∈ entries, Recorded sha256 e.record ∧ e.signedBytes = recordBytes e.record := by
  induction h with
  | nil => exact ⟨trivial, fun e he => absurd he List.not_mem_nil⟩
  | cons head tail ih =>
    obtain ⟨record, line, signedBytes, recordHash, -, hline, hvalid, -, rfl, rfl⟩ := checkLine_eq_ok.1 head
    have hkeys := loads_distinctKeys hline.loads
    refine ⟨⟨position_content hkeys hvalid.seq_eq, prev_content hkeys hvalid.prevHash_eq, ?_⟩,
      List.forall_mem_cons.2 ⟨⟨hvalid.recorded hline, (recordBytes_eq hvalid.hash_eq).symm⟩, ih.2⟩⟩
    rw [digest_content hkeys hvalid.hash_eq]
    exact ih.1

/-! ### The next record -/

section

variable {signer : Signer} {store : Store} {event : Dict} {x y z : Expected} {signedBytes encoded : List UInt8}
  {recordHash : Str} {records : List Dict} {entries : List Entry}

/-- The next record has the number, the digest and the hash that it is made with. -/
theorem Next.get? (h : Next sha256 signer store event record x signedBytes recordHash encoded) :
    record.get? (lit "seq") = some (.atom (.int x.seq)) ∧
      record.get? (lit "prev_hash") = some (.atom (.str x.prevHash)) ∧
      record.get? (lit "record_hash") = some (.atom (.str recordHash)) := by
  obtain ⟨shape, hshape, -⟩ := h.conforms
  obtain ⟨signature, -, -, rfl⟩ := h.signed
  have hget : ∀ {k : Str} {v : Value}, k ∈ managedFields →
      Dict.get? (chainItems x.seq x.prevHash recordHash signature) k = some v →
        Dict.get? (event ++ chainItems x.seq x.prevHash recordHash signature) k = some v :=
    fun hk hv => (get?_append hshape.unmanaged hk).trans hv
  exact ⟨hget (by decide) rfl, hget (by decide) rfl, hget (by decide) rfl⟩

/-- The hash of the next record is that of its own unsigned bytes. -/
theorem Next.hash_eq (h : Next sha256 signer store event record x signedBytes recordHash encoded) :
    hashUnsignedRecord sha256 record = .ok (signedBytes, recordHash) := by
  obtain ⟨shape, hshape, -⟩ := h.conforms
  obtain ⟨signature, -, -, rfl⟩ := h.signed
  obtain ⟨hbytes, hhash⟩ := hashUnsignedRecord_eq_ok.1 h.hash
  refine hashUnsignedRecord_eq_ok.2 ⟨?_, hhash⟩
  rw [unsignedOf_append hshape.unmanaged, ← unsignedOf_unsignedRecord hshape.unmanaged]
  exact hbytes

/-- The next record is one of the chain. -/
theorem Next.recorded (h : Next sha256 signer store event record x signedBytes recordHash encoded)
    (hd : (Json.object event).DistinctKeys) : Recorded sha256 record :=
  ⟨h.distinctKeys hd, signedBytes, recordHash, h.hash_eq, h.get?.2.2⟩

/-- Lines that are read in one go are read one part after the other. -/
theorem Reads.of_append {n : ℕ} {ls ms : List (List UInt8)} (h : Reads sha256 n x (ls ++ ms) entries z) :
    ∃ es y fs, Reads sha256 n x ls es y ∧ Reads sha256 (n + ls.length) y ms fs z ∧ entries = es ++ fs := by
  induction ls generalizing n x entries with
  | nil => exact ⟨[], x, entries, .nil, h, rfl⟩
  | cons l ls ih =>
    cases h with
    | cons head tail =>
      obtain ⟨es, y, fs, hes, hfs, rfl⟩ := ih tail
      rw [Nat.add_assoc, Nat.add_comm 1] at hfs
      exact ⟨_, y, fs, .cons head hes, hfs, rfl⟩

/-- **The line of a call is read as the record that it returns.** -/
theorem Next.reads_append (h : Next sha256 signer store event record x signedBytes recordHash encoded)
    (hd : (Json.object event).DistinctKeys) (hseq : x.seq < 2 ^ 63)
    (hx : Reads sha256 1 .first store.lines entries x) : ∃ entry version, SameRecord entry.record record ∧
      Reads sha256 1 .first (Store.lines (some (store.getD [] ++ (encoded ++ [lineFeed]))))
        (entries ++ [entry]) ⟨x.seq + 1, recordHash, some version⟩ := by
  obtain ⟨record', he⟩ : ∃ record', (Json.object record).sorted = .object record' := ⟨_, sorted_object record⟩
  have hlines : Store.lines (some (store.getD [] ++ (encoded ++ [lineFeed]))) =
      store.lines ++ [encoded ++ [lineFeed]] :=
    physicalLines_append_line hx.terminated (h.lineFeed_notMem hd hseq)
  rw [hlines]
  refine ⟨_, _, ?_, hx.append (.cons (h.checkLine hd hseq he _) .nil)⟩
  rw [SameRecord, ← he, sorted_sorted (h.distinctKeys hd)]

/-- Once a number does not fit into 63 bits, the store cannot be read. -/
theorem Next.not_reads (h : Next sha256 signer store event record x signedBytes recordHash encoded)
    (hseq : 2 ^ 63 ≤ x.seq) :
    ¬ Reads sha256 1 .first (Store.lines (some (store.getD [] ++ (encoded ++ [lineFeed])))) entries z := by
  intro hreads
  obtain ⟨entries', hx⟩ := h.reads
  have hlines : Store.lines (some (store.getD [] ++ (encoded ++ [lineFeed]))) =
      store.lines ++ physicalLines (encoded ++ [lineFeed]) :=
    physicalLines_append_of_terminated hx.terminated _
  rw [hlines] at hreads
  obtain ⟨es, y, fs, hes, hfs, -⟩ := hreads.of_append
  obtain ⟨-, rfl⟩ := hx.unique hes
  have hne : physicalLines (encoded ++ [lineFeed]) ≠ [] :=
    physicalLines_ne_nil (List.append_ne_nil_of_right_ne_nil _ (List.cons_ne_nil _ _))
  cases hline : physicalLines (encoded ++ [lineFeed]) with
  | nil => exact hne hline
  | cons l ls =>
    rw [hline] at hfs
    cases hfs with
    | cons head tail =>
      obtain ⟨_, _, _, _, -, -, hvalid, -⟩ := checkLine_eq_ok.1 head
      obtain ⟨shape, hshape⟩ := hvalid.conforms
      have hfield : ("seq".toList, Kind.counter) ∈ shape.recordFields := by
        cases shape <;> decide
      obtain ⟨v, hv, n, hn, -, hlt⟩ := hshape.field hfield
      obtain rfl := Option.some.inj (hv.symm.trans hvalid.seq_eq)
      obtain rfl := Option.some.inj hn
      omega

/-- **The records that were returned** are a chain, and if the store can be read, they are
what is read. -/
structure Recording (sha256 : Sha256) (store : Store) (records : List Dict) : Prop where
  linked : (hashChain sha256).Linked 0 genesisPrevHash records
  recorded : ∀ r ∈ records, Recorded sha256 r
  reads : ∀ entries y, Reads sha256 1 .first store.lines entries y →
    y.seq = records.length ∧ y.prevHash = (hashChain sha256).tip genesisPrevHash records ∧
      List.Forall₂ (fun e r => SameRecord e.record r) entries records

/-- An empty store records nothing. -/
theorem Recording.nil (h : store.getD [] = []) : Recording sha256 store [] := by
  refine ⟨trivial, fun r hr => absurd hr List.not_mem_nil, fun entries y hreads => ?_⟩
  rw [Store.lines, h] at hreads
  cases hreads
  exact ⟨rfl, rfl, .nil⟩

/-- **The next record keeps the records linked**, when its line is appended. -/
theorem Recording.next (h : Recording sha256 store records)
    (hnext : Next sha256 signer store event record x signedBytes recordHash encoded)
    (hd : (Json.object event).DistinctKeys) :
    Recording sha256 (some (store.getD [] ++ (encoded ++ [lineFeed]))) (records ++ [record]) := by
  obtain ⟨entries, hx⟩ := hnext.reads
  obtain ⟨hlen, htip, hsame⟩ := h.reads entries x hx
  obtain ⟨hseq, hprev, -⟩ := hnext.get?
  have hkeys := hnext.distinctKeys hd
  refine ⟨HashChain.linked_append_singleton.2 ⟨h.linked, ?_, ?_⟩, ?_, fun entries' y hy => ?_⟩
  · rw [position_content hkeys hseq, hlen, Nat.zero_add]
  · rw [prev_content hkeys hprev, htip]
  · rw [List.forall_mem_append, List.forall_mem_singleton]
    exact ⟨h.recorded, hnext.recorded hd⟩
  · rcases lt_or_ge x.seq (2 ^ 63) with hlt | hge
    · obtain ⟨entry, version, hentry, hreads⟩ := hnext.reads_append hd hlt hx
      obtain ⟨rfl, rfl⟩ := hy.unique hreads
      refine ⟨?_, ?_, List.rel_append hsame (.cons hentry .nil)⟩
      · rw [List.length_append, List.length_singleton, ← hlen]
      · rw [HashChain.tip_append_singleton, digest_content hkeys hnext.hash_eq]
    · exact absurd hy (hnext.not_reads hge)

/-- A call that returns appends the line of the next record. -/
theorem call_eq_some {s t : Store × List Dict} {c : Signer × Event} (h : call sha256 s c = some t) :
    ∃ record x signedBytes recordHash encoded,
      Next sha256 c.1 s.1 c.2.1 record x signedBytes recordHash encoded ∧
        t = (some (s.1.getD [] ++ (encoded ++ [lineFeed])), s.2 ++ [record]) := by
  rw [call] at h
  split at h
  · rename_i record store₁ hlog
    obtain rfl := Option.some.inj h
    obtain ⟨event, x, signedBytes, recordHash, encoded, hevent, hnext, rfl, -⟩ :=
      logEvent_reads c.2.2 hlog
    obtain rfl := Json.object.inj hevent
    exact ⟨record, x, signedBytes, recordHash, encoded, hnext, rfl⟩
  · cases h

/-- **Calls that return keep the records of the store linked.** -/
theorem run_recording {s t : Store × List Dict} {calls : List (Signer × Event)}
    (hs : Recording sha256 s.1 s.2) (h : run (call sha256) s calls = some t) :
    Recording sha256 t.1 t.2 := by
  refine run_invariant (I := fun s => Recording sha256 s.1 s.2) (fun s c t hs hc => ?_) hs h
  obtain ⟨record, x, signedBytes, recordHash, encoded, hnext, rfl⟩ := call_eq_some hc
  exact hs.next hnext c.2.2

end

end Forensics
end Vestrix
