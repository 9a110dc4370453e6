/-
# From a node to the verifier

A node sends one line; the collector validates it twice, `log_event` appends a record, and the
verifier reads that record one day.  What the collector accepts keeps the chain verifiable
if the timestamp is ASCII (`accepted_stays_verifiable`): both patterns of the collector's
side match other decimal digits, the date parser stops after six digits of a fraction, and
the verifier knows ASCII digits only (`accepted_poisons_chain`).
-/

import Vestrix.Collector.Ingest
import Vestrix.Interop.Chains

namespace Vestrix
namespace Interop

open Text Rounding Json Outcome Record
open Collector (CSIEvent forensicEvent)
open Collector.Ingest (Reason)

/-- `_handle_tls_socket` with the default adapter: what is answered to one connection, given the
names of its certificate, the allow-list and the last sequence number of the node. -/
def handleTlsSocket (sha256 : Sha256) (signer : Forensics.Signer) (write : Forensics.WriteResult)
    (limit : ℕ) (enrolledNodes commonNames : List Str) (previous : Option ℕ)
    (chunks : List (List UInt8)) (store : Forensics.Store) :
    Except Reason CSIEvent × Forensics.Store :=
  match commonNames with
  | [name] =>
    if name ∈ enrolledNodes then
      match Collector.Ingest.readEvent limit chunks with
      | .error reason => (.error reason, store)
      | .ok event =>
        match Collector.Ingest.compareDigest event.nodeId name with
        | none => (.error .internalServerError, store)
        | some false => (.error .nodeIdCertificateCnMismatch, store)
        | some true =>
          if Collector.Ingest.isReplay previous event.sequenceNumber then
            (.error .replayedOrOutOfOrderSequence, store)
          else
            match Forensics.logEvent sha256 signer write (.object (forensicEvent event)) store with
            | (.error _, store) => (.error .forensicsHandoffFailed, store)
            | (.ok _, store) => (.ok event, store)
    else (.error .unenrolledCertificateCn, store)
  | _ => (.error .invalidCertificateCn, store)

section

variable {sha256 : Sha256} {signer : Forensics.Signer} {write : Forensics.WriteResult} {limit : ℕ}
  {enrolledNodes commonNames : List Str} {previous : Option ℕ} {chunks : List (List UInt8)}
  {store store' : Forensics.Store} {event : CSIEvent}

/-- **What is accepted** is a valid event that was logged. -/
theorem handleTlsSocket_accepted
    (h : handleTlsSocket sha256 signer write limit enrolledNodes commonNames previous chunks store =
      (.ok event, store')) :
    event.Valid ∧ ∃ record,
      Forensics.logEvent sha256 signer .done (.object (forensicEvent event)) store = (.ok record, store') := by
  rw [handleTlsSocket.eq_def] at h
  split at h
  · rename_i name
    split_ifs at h with henrolled
    · split at h
      · cases (Prod.mk.inj h).1
      · rename_i e hread
        split at h
        · cases (Prod.mk.inj h).1
        · cases (Prod.mk.inj h).1
        · split_ifs at h with hreplay
          · cases (Prod.mk.inj h).1
          · split at h
            · cases (Prod.mk.inj h).1
            · rename_i record store₁ hlog
              obtain ⟨hevent, rfl⟩ := Prod.mk.inj h
              obtain rfl := Except.ok.inj hevent
              obtain ⟨raw, -, hread⟩ := bind_eq_ok.1 hread
              obtain ⟨text, -, hread⟩ := bind_eq_ok.1 hread
              obtain ⟨decoded, -, hread⟩ := bind_eq_ok.1 hread
              refine ⟨Collector.valid_of_validatePayload (mapError_eq_ok.1 hread), record, ?_⟩
              rw [← Forensics.write_eq_done hlog]
              exact hlog
    · cases (Prod.mk.inj h).1
  · cases (Prod.mk.inj h).1

end

/-! ### The timestamp -/

/-- An ASCII character that a pattern takes for a digit is one. -/
theorem isDigit_of_isDecimal {c : Char} (h : Python.isDecimal (.scalar c) = true) (hc : c.toNat < 128) :
    c.isDigit = true := by
  obtain ⟨r, hr, hrange⟩ := List.any_eq_true.1 h
  rw [Bool.and_eq_true, decide_eq_true_eq, decide_eq_true_eq, Text.CodePoint.ord] at hrange
  have hruns : ∀ r ∈ Python.decimalRuns, r = (0x30, 10) ∨ 128 ≤ r.1 := by decide
  rcases hruns r hr with rfl | hbig
  · rw [Char.isDigit, Bool.and_eq_true, decide_eq_true_eq, decide_eq_true_eq]
    exact ⟨hrange.1, Nat.lt_succ_iff.1 hrange.2⟩
  · omega

/-- A text is ASCII just if its characters are. -/
theorem isAscii_ofChars {t : List Char} :
    Collector.Ingest.isAscii (ofChars t) = true ↔ ∀ c ∈ t, c.toNat < 128 := by
  rw [Collector.Ingest.isAscii, ofChars, List.all_map, List.all_eq_true]
  exact forall₂_congr fun c _ => decide_eq_true_iff

/-- The digits of the fraction are in the text of a timestamp. -/
theorem mem_text_of_fraction {t : Stamp Char} {c : Char} (h : c ∈ t.fraction) : c ∈ t.text id := by
  have hfraction : c ∈ t.fractionText id := by
    rw [Stamp.fractionText, if_neg (List.ne_nil_of_mem h)]
    exact List.mem_cons_of_mem _ h
  simp only [Stamp.text, Stamp.timeText, List.mem_append, List.mem_cons]
  tauto

/-- **The verifier knows a timestamp of the collector if it is ASCII**, and only then. -/
theorem isTimestampText_iff {t : Stamp Char} (ht : Python.IsTimestamp t) :
    Verifier.IsTimestampText (t.text id) ↔ Collector.Ingest.isAscii (ofChars (t.text id)) = true := by
  rw [isAscii_ofChars]
  constructor
  · rintro ⟨s, hs, htext⟩
    rw [htext]
    exact Verifier.asciiText hs.shaped hs.fraction
  · intro hascii
    exact ⟨t, ⟨ht.shaped, ht.calendar, fun c hc =>
      isDigit_of_isDecimal (ht.decimal c hc) (hascii c (mem_text_of_fraction hc))⟩, rfl⟩

/-! ### The record -/

/-- A record of scalars without floats can be read. -/
theorem readable_of_atoms {readFloat : Verifier.FloatReader} {d : Python.Dict}
    (hd : Forensics.Permitted (.object d))
    (h : ∀ m ∈ d, ∃ a, m.2 = .atom a ∧ ∀ x, a ≠ .float x) : Readable readFloat (.object d) := by
  have hfloats : (fromPython (.object d)).Forall
      (fun a => ∀ x, a = .number (.float x) → readFloat (floatToken x) = some x) fun _ => True := by
    rw [fromPython, map_object]
    refine .object trivial (List.forall_mem_map.2 fun m hm => ?_)
    obtain ⟨a, ha, hne⟩ := h m hm
    rw [Prod.map_snd, ha, map_atom]
    refine .atom fun x hx => ?_
    rw [fromPythonAtom.eq_def] at hx
    split at hx
    · cases hx
    · split_ifs at hx
      cases hx
    · exact absurd rfl (hne _)
    · cases hx
    · cases hx
  constructor
  · exact ((toPython_fromPython hd).2.and hfloats).imp (fun a ha => ha) fun _ _ => trivial
  · refine le_trans (depth_object_le.2 fun m hm => ?_) (show 0 + 1 ≤ Verifier.recursionLimit by decide)
    obtain ⟨a, ha, -⟩ := h m hm
    rw [ha, depth_atom]

/-- The event that the adapter logs has no float. -/
theorem forensicEvent_atoms (event : CSIEvent) :
    ∀ m ∈ forensicEvent event, ∃ a, m.2 = .atom a ∧ ∀ x, a ≠ .float x := by
  simp only [forensicEvent, List.forall_mem_cons, List.not_mem_nil, false_imp_iff, implies_true, and_true]
  exact ⟨⟨_, rfl, nofun⟩, ⟨_, rfl, nofun⟩, ⟨_, rfl, nofun⟩, ⟨_, rfl, nofun⟩, ⟨_, rfl, nofun⟩,
    ⟨_, rfl, nofun⟩, ⟨_, rfl, nofun⟩⟩

/-- The fields of the chain have no float. -/
theorem chainItems_atoms (seq : ℤ) (previousHash recordHash : Str) (signature : List UInt8) :
    ∀ m ∈ Forensics.chainItems seq previousHash recordHash signature,
      ∃ a, m.2 = .atom a ∧ ∀ x, a ≠ .float x := by
  simp only [Forensics.chainItems, List.forall_mem_cons, List.not_mem_nil, false_imp_iff, implies_true,
    and_true]
  refine ⟨⟨_, rfl, ?_⟩, ⟨_, rfl, ?_⟩, ⟨_, rfl, ?_⟩, ⟨_, rfl, ?_⟩⟩ <;> exact fun x hx => by cases hx

/-- The event that the adapter logs has each key once. -/
theorem distinctKeys_forensicEvent (event : CSIEvent) :
    (Json.object (forensicEvent event)).DistinctKeys := by
  refine .object ?_ fun m hm => ?_
  · show [lit "format_version", lit "event_type", lit "ts_utc", lit "node_id", lit "raw_csi_hash",
      lit "collector_schema_version", lit "collector_sequence_number"].Nodup
    decide
  · obtain ⟨a, ha, -⟩ := forensicEvent_atoms event m hm
    rw [ha]
    exact .atom trivial

section

variable {sha256 : Sha256} {signer : Forensics.Signer} {write : Forensics.WriteResult} {limit : ℕ}
  {enrolledNodes commonNames : List Str} {previous : Option ℕ} {chunks : List (List UInt8)}
  {store' : Forensics.Store} {event : CSIEvent} {verifyStrict : List UInt8 → List UInt8 → Bool}
  {readFloat : Verifier.FloatReader} {file : List UInt8} {report : Verifier.VerificationReport}

/-- **What the collector accepts keeps the chain verifiable** if its timestamp is ASCII and
the chain has room for its number, and only then. -/
theorem accepted_stays_verifiable
    (hfile : Verifier.verifyReader sha256 verifyStrict readFloat file = .ok report)
    (haccepted : handleTlsSocket sha256 signer write limit enrolledNodes commonNames previous chunks
      (some file) = (.ok event, store'))
    (hhonest : Honest signer verifyStrict) :
    (∃ tip, Verifier.verifyReader sha256 verifyStrict readFloat (store'.getD []) =
      .ok ⟨report.records + 1, tip⟩) ↔
    report.records < 2 ^ 63 ∧ Collector.Ingest.isAscii event.timestampUtc = true := by
  obtain ⟨hvalid, record, hlog⟩ := handleTlsSocket_accepted haccepted
  have hd := distinctKeys_forensicEvent event
  obtain ⟨d, x, signedBytes, recordHash, encoded, hevent, hnext, rfl, hlines⟩ :=
    Forensics.logEvent_reads hd hlog
  obtain rfl := Json.object.inj hevent
  obtain ⟨q, hverified, rfl⟩ := Verifier.verifyReader_eq_ok.1 hfile
  obtain ⟨entries, hreads⟩ := hnext.reads
  have hagree : Agrees x q := Agrees.start.reads hreads hverified
  show (∃ tip, Verifier.verifyReader sha256 verifyStrict readFloat (file ++ (encoded ++ [lineFeed])) =
    .ok ⟨q.expectedSeq + 1, tip⟩) ↔
      q.expectedSeq < 2 ^ 63 ∧ Collector.Ingest.isAscii event.timestampUtc = true
  -- a record that the verifier accepts has a number of 63 bits
  have hbound : (∃ tip, Verifier.verifyReader sha256 verifyStrict readFloat
      (file ++ (encoded ++ [lineFeed])) = .ok ⟨q.expectedSeq + 1, tip⟩) → q.expectedSeq < 2 ^ 63 := by
    rintro ⟨tip, htip⟩
    obtain ⟨r, hr, heq⟩ := Verifier.verifyReader_eq_ok.1 htip
    have hle := Verifier.expectedSeq_le hr (Nat.zero_le _)
    rw [← (Verifier.VerificationReport.mk.inj heq).1] at hle
    exact hle
  suffices hcore : q.expectedSeq < 2 ^ 63 → ((∃ tip, Verifier.verifyReader sha256 verifyStrict readFloat
      (file ++ (encoded ++ [lineFeed])) = .ok ⟨q.expectedSeq + 1, tip⟩) ↔
        Collector.Ingest.isAscii event.timestampUtc = true) from
    ⟨fun h => ⟨hbound h, (hcore (hbound h)).1 h⟩, fun h => (hcore h.1).2 h.2⟩
  intro hseq
  rw [← hagree.seq] at hseq
  obtain ⟨t, ht, htime⟩ := Collector.exists_stamp_of_payload hvalid.timestampUtc
  obtain ⟨shape, hshape, -, hconforms⟩ := hnext.conforms_record hseq
  obtain ⟨signature, -, -, hrecord⟩ := hnext.signed
  have hread : Readable readFloat (.object record) := by
    refine readable_of_atoms (Forensics.permitted_of_conforms (forall_object.1 (hnext.distinctKeys hd)).1
      hconforms) fun m hm => ?_
    rw [hrecord] at hm
    rcases List.mem_append.1 hm with hm | hm
    · exact forensicEvent_atoms event m hm
    · exact chainItems_atoms _ _ _ _ m hm
  have hts : record.get? (lit "ts_utc") = some (.atom (.str (ofChars (t.text id)))) := by
    rw [hrecord, ← htime]
    rfl
  have htimestamp : TimestampAccepted record ↔ Collector.Ingest.isAscii event.timestampUtc = true := by
    rw [htime, ← isTimestampText_iff ht]
    constructor
    · exact fun h => h _ hts
    · intro h t' ht'
      obtain rfl := ofChars_injective
        (Python.Atom.str.inj (Json.atom.inj (Option.some.inj (hts.symm.trans ht'))))
      exact h
  rw [← htimestamp, ← verifyLine_next hnext hd hseq hagree hread hhonest]
  have hphysical : physicalLines (file ++ (encoded ++ [lineFeed])) =
      physicalLines file ++ [encoded ++ [lineFeed]] := hlines hseq
  simp only [Verifier.verifyReader_eq_ok, hphysical, Verifier.verifyLines_append, hverified, ok_bind,
    Verifier.verifyLines_singleton]
  constructor
  · rintro ⟨tip, r, hr, -⟩
    exact ⟨r, hr⟩
  · rintro ⟨r, hr⟩
    obtain ⟨_, _, _, _, _, -, -, -, -, -, rfl⟩ := Verifier.verifyLine_eq_ok.1 hr
    exact ⟨_, _, hr, rfl⟩

end

/-! ### A node -/

/-- The line of a node, with the given timestamp and number. -/
def sampleLine (timestamp : String) (number : Char) : List UInt8 :=
  utf8 ("\x7b\"schema_version\":\"0.1\",\"node_id\":\"node-1\",\"timestamp_utc\":\"".toList ++
    timestamp.toList ++ "\",\"csi_window_sha256\":\"".toList ++ List.replicate 64 'a' ++
    "\",\"sequence_number\":".toList ++ [number] ++ "\x7d\n".toList)

/-- The verification of the signatures of the sample. -/
def sampleVerify : List UInt8 → List UInt8 → Bool := Forensics.sampleVerified

/-- The signatures of the sample verify. -/
theorem honest_sample : Honest Forensics.sampleSigner sampleVerify :=
  fun _ _ => Forensics.sampleVerified_of_signed

/-- What a collector with an empty chain answers to the node, and its store. -/
def sampleAnswer : Except Reason CSIEvent × Forensics.Store :=
  handleTlsSocket Forensics.sampleSha256 Forensics.sampleSigner .done 65536 [lit "node-1"] [lit "node-1"]
    none [sampleLine "2026-07-01T12:00:00Z" '7'] (some [])

/-- The line of a node with an ASCII timestamp is accepted, and the chain with it. -/
theorem accepted_stays_verifiable_sample : ∃ event tip, sampleAnswer.1 = .ok event ∧
    Verifier.verifyReader Forensics.sampleSha256 sampleVerify Verifier.nearestFloat
      (sampleAnswer.2.getD []) = .ok ⟨1, tip⟩ := by
  have hanswer : sampleAnswer.1 = .ok ⟨lit "0.1", lit "node-1", lit "2026-07-01T12:00:00Z",
      List.replicate 64 (.scalar 'a'), 7⟩ := by decide +kernel
  have hpair : sampleAnswer = (.ok ⟨lit "0.1", lit "node-1", lit "2026-07-01T12:00:00Z",
      List.replicate 64 (.scalar 'a'), 7⟩, sampleAnswer.2) := Prod.fst_eq_iff.1 hanswer
  have hempty : Verifier.verifyReader Forensics.sampleSha256 sampleVerify Verifier.nearestFloat [] =
      .ok ⟨0, none⟩ := rfl
  have hascii : Collector.Ingest.isAscii (lit "2026-07-01T12:00:00Z") = true := by decide +kernel
  obtain ⟨tip, htip⟩ := (accepted_stays_verifiable hempty hpair honest_sample).2 ⟨by decide, hascii⟩
  exact ⟨_, tip, hanswer, htip⟩

/-- What a collector answers to a node whose timestamp has an Arabic digit after six others. -/
def poisonedAnswer : Except Reason CSIEvent × Forensics.Store :=
  handleTlsSocket ⟨fun _ => List.replicate 32 0, length_zeros⟩ (fun _ => .bytes (List.replicate 64 0)) .done
    65536 [lit "node-1"] [lit "node-1"] none [sampleLine "2026-07-01T12:00:00.000000\u0660Z" '7'] (some [])

/-- **A digit that is not ASCII, behind the sixth of a fraction, is accepted** and makes the
chain one that the verifier rejects. -/
theorem accepted_poisons_chain : ¬ ∀ (sha256 : Sha256) (signer : Forensics.Signer)
    (write : Forensics.WriteResult) (limit : ℕ) (enrolledNodes commonNames : List Str)
    (previous : Option ℕ) (chunks : List (List UInt8)) (store' : Forensics.Store) (event : CSIEvent)
    (verifyStrict : List UInt8 → List UInt8 → Bool) (readFloat : Verifier.FloatReader)
    (file : List UInt8) (report : Verifier.VerificationReport),
    Verifier.verifyReader sha256 verifyStrict readFloat file = .ok report →
      handleTlsSocket sha256 signer write limit enrolledNodes commonNames previous chunks (some file) =
        (.ok event, store') →
      Honest signer verifyStrict →
        ∃ tip, Verifier.verifyReader sha256 verifyStrict readFloat (store'.getD []) =
          .ok ⟨report.records + 1, tip⟩ := by
  intro h
  have hevaluated : poisonedAnswer.1 = .ok ⟨lit "0.1", lit "node-1",
        lit "2026-07-01T12:00:00.000000\u0660Z", List.replicate 64 (.scalar 'a'), 7⟩ ∧
      (Verifier.verifyReader ⟨fun _ => List.replicate 32 0, length_zeros⟩ (fun _ _ => true)
        Verifier.nearestFloat (poisonedAnswer.2.getD [])).isOk = false := by decide +kernel
  obtain ⟨hanswer, hrejected⟩ := hevaluated
  have hpair : poisonedAnswer = (.ok ⟨lit "0.1", lit "node-1", lit "2026-07-01T12:00:00.000000\u0660Z",
      List.replicate 64 (.scalar 'a'), 7⟩, poisonedAnswer.2) := Prod.fst_eq_iff.1 hanswer
  obtain ⟨tip, htip⟩ := h _ _ _ _ _ _ _ _ _ _ (fun _ _ => true) Verifier.nearestFloat [] ⟨0, none⟩ rfl
    hpair fun _ _ _ => rfl
  rw [htip] at hrejected
  cases hrejected

end Interop
end Vestrix
