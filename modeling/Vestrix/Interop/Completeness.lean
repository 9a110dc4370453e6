/-
# What the logger writes, the verifier accepts

The file of any run of `log_event` calls, against `verify_reader`: it is accepted, with the
tip of the last record, if no event is nested more deeply than the verifier reads and if
the numbers fit into 63 bits (`logged_accepted_iff`).
-/

import Vestrix.Forensics.Records
import Vestrix.Interop.Anchored

namespace Vestrix
namespace Interop

open Text Rounding Json Outcome Record Transition
open Forensics (Signer Event Store call)

/-- The timestamp of an event is made of ASCII characters. -/
def AsciiTimestamp (event : Python.Dict) : Prop :=
  ∀ t, event.get? (lit "ts_utc") = some (.atom (.str t)) → Collector.Ingest.isAscii t = true

/-- An event that is not nested more deeply than the verifier reads. -/
def Shallow (event : Python.Dict) : Prop := (Json.object event).depth ≤ Verifier.recursionLimit

/-- A tip is that of the last record. -/
def IsTipOf (records : List Python.Dict) (tip : Option Verifier.ChainTip) : Prop :=
  match records.getLast?, tip with
  | none, none => True
  | some r, some t => r.get? (lit "seq") = some (.atom (.int t.seq)) ∧
      r.get? (lit "record_hash") = some (.atom (.str (ofChars t.recordHash)))
  | _, _ => False

section

variable {sha256 : Sha256} {signer : Signer} {store : Store}
  {verifyStrict : List UInt8 → List UInt8 → Bool} {event record : Python.Dict}
  {x : Forensics.Expected} {signedBytes encoded : List UInt8} {recordHash : Str} {p q : Verifier.Progress}

/-! ### The next line -/

/-- A record is as deep as its event. -/
theorem depth_record (h : Forensics.Next sha256 signer store event record x signedBytes recordHash encoded) :
    (Json.object record).depth ≤ Verifier.recursionLimit ↔ Shallow event := by
  obtain ⟨signature, -, -, rfl⟩ := h.signed
  have hitems : ∀ m ∈ Forensics.chainItems x.seq x.prevHash recordHash signature, m.2.depth ≤ 126 := by
    intro m hm
    obtain ⟨a, ha, -⟩ := chainItems_atoms _ _ _ _ m hm
    rw [ha, depth_atom]
    exact Nat.zero_le _
  show (Json.object (event ++ _)).depth ≤ 126 + 1 ↔ (Json.object event).depth ≤ 126 + 1
  rw [depth_object_le, depth_object_le, List.forall_mem_append]
  exact ⟨And.left, fun hevent => ⟨hevent, hitems⟩⟩

/-- An ASCII timestamp is one that the verifier knows. -/
theorem timestampAccepted
    (h : Forensics.Next sha256 signer store event record x signedBytes recordHash encoded)
    (hascii : AsciiTimestamp event) : TimestampAccepted record := by
  obtain ⟨shape, hshape, -⟩ := h.conforms
  obtain ⟨signature, -, -, rfl⟩ := h.signed
  have hfield : ("ts_utc".toList, Kind.timestamp) ∈ shape.eventFields := by
    cases shape <;> decide
  obtain ⟨v, hv, t, ht, s, hs, rfl⟩ := hshape.field hfield
  obtain rfl := Forensics.eq_str ht
  intro t' ht'
  rw [Python.Dict.get?, lookup_append, ← Python.Dict.get?,
    show event.get? (lit "ts_utc") = some _ from hv, Option.some_or, Option.some.injEq, Json.atom.injEq,
    Python.Atom.str.injEq] at ht'
  obtain rfl := ofChars_injective ht'
  exact (isTimestampText_iff hs).2 (hascii _ hv)

/-- **Whether the next line is accepted** depends on how deep its event is. -/
theorem verifyLine_next_iff
    (h : Forensics.Next sha256 signer store event record x signedBytes recordHash encoded)
    (hd : (Json.object event).DistinctKeys) (hseq : x.seq < 2 ^ 63) (hagree : Agrees x p)
    (hhonest : Honest signer verifyStrict) (hascii : AsciiTimestamp event) :
    (∃ q, Verifier.verifyLine sha256 verifyStrict Verifier.nearestFloat p (encoded ++ [lineFeed]) = .ok q) ↔
      Shallow event := by
  obtain ⟨object, hencoded, hobject, hencodable, hkeys, hsame, hdepth⟩ := exists_object h hd hseq
  rw [← depth_record h]
  constructor
  · rintro ⟨q, hq⟩
    obtain ⟨object', line', _, _, _, hlines, hline', -⟩ := Verifier.verifyLine_eq_ok.1 hq
    obtain rfl := List.append_cancel_right hlines
    obtain ⟨stored, hstored, hparse⟩ := hline'.parse
    rw [hencoded, fromUtf8_utf8, Option.some.injEq] at hstored
    have hread := Verifier.parse_text
      ((sorted_eq_self hkeys) ▸ hencodable.sorted_forall) Verifier.recursionLimit
    by_contra hdeep
    rw [← hdepth] at hdeep
    rw [if_neg hdeep, hstored, ← Verifier.parse, hparse] at hread
    cases hread
  · intro hshallow
    have hpermitted := Forensics.permitted_of_conforms (forall_object.1 (h.distinctKeys hd)).1
      (h.conforms_record hseq).choose_spec.2.2
    have hread : Readable Verifier.nearestFloat (.object record) :=
      ⟨(toPython_fromPython hpermitted).2.imp (fun _ ha => ha.readBy) fun _ _ => trivial, hshallow⟩
    exact (verifyLine_next h hd hseq hagree hread hhonest).2 (timestampAccepted h hascii)

/-- The tip that the verifier has after the next line is the next record. -/
theorem isTipOf_next
    (h : Forensics.Next sha256 signer store event record x signedBytes recordHash encoded)
    (hd : (Json.object event).DistinctKeys) (hseq : x.seq < 2 ^ 63) (hagree : Agrees x p)
    (hq : Verifier.verifyLine sha256 verifyStrict Verifier.nearestFloat p (encoded ++ [lineFeed]) = .ok q)
    (records : List Python.Dict) : IsTipOf (records ++ [record]) q.tip := by
  obtain ⟨object, hencoded, -, hencodable, hkeys, hsame, -⟩ := exists_object h hd hseq
  obtain ⟨object', line', _, recordHash', _, hlines, hline', hvalid, -, -, rfl⟩ :=
    Verifier.verifyLine_eq_ok.1 hq
  obtain rfl := List.append_cancel_right hlines
  have hobject' := encodable_of_isLine hline'
  obtain ⟨stored, -, hparse⟩ := hline'.parse
  have hkeys' := (Verifier.parse_wellFormed hparse).2
  have hbytes := hobject'.serialize.symm.trans hline'.serialize
  rw [hencoded, Except.ok.injEq] at hbytes
  have hsorted := hobject'.text_injective hencodable (utf8_injective hbytes)
  rw [sorted_eq_self hkeys, sorted_eq_self hkeys'] at hsorted
  obtain rfl := Json.object.inj hsorted
  have hrecord := h.distinctKeys hd
  rw [IsTipOf.eq_def, List.getLast?_concat]
  refine ⟨?_, (hsame.stringField hrecord hencodable.2 hencodable.1).2 hvalid.recordHash_eq⟩
  rw [← hagree.seq]
  exact h.get?.1

/-! ### A whole run -/

/-- Once a number does not fit into 63 bits, no further line is accepted. -/
theorem not_verifyLines_of_seq {ls ms : List (List UInt8)} (hp : p.expectedSeq ≤ 2 ^ 63)
    (hls : ∀ r, Verifier.verifyLines sha256 verifyStrict Verifier.nearestFloat p ls = .ok r →
      2 ^ 63 ≤ r.expectedSeq) (hms : ms ≠ []) :
    Verifier.verifyLines sha256 verifyStrict Verifier.nearestFloat p (ls ++ ms) ≠ .ok q := by
  intro h
  rw [Verifier.verifyLines_append, bind_eq_ok] at h
  obtain ⟨r, hr, h⟩ := h
  obtain ⟨m, ms, rfl⟩ := List.exists_cons_of_ne_nil hms
  have hle := Verifier.expectedSeq_le hr hp
  have hge := hls r hr
  rw [Verifier.verifyLines] at h
  cases hm : Verifier.verifyLine sha256 verifyStrict Verifier.nearestFloat r m with
  | error e => rw [hm] at h; cases h
  | ok r' =>
    have hle' := Verifier.expectedSeq_le (Verifier.verifyLines_singleton.2 hm) hle
    obtain ⟨_, _, _, _, _, -, -, -, -, -, rfl⟩ := Verifier.verifyLine_eq_ok.1 hm
    have hnext : r.expectedSeq + 1 ≤ 2 ^ 63 := hle'
    omega

/-- What is known of a file that a run of calls has written. -/
structure Written (sha256 : Sha256) (verifyStrict : List UInt8 → List UInt8 → Bool)
    (calls : List (Signer × Event)) (s : Store × List Python.Dict) : Prop where
  recording : Forensics.Recording sha256 s.1 s.2
  length : s.2.length = calls.length
  accepted : (∃ q, Verifier.verifyLines sha256 verifyStrict Verifier.nearestFloat .start s.1.lines = .ok q) ↔
    calls.length ≤ 2 ^ 63 ∧ ∀ c ∈ calls, Shallow c.2.1
  report : ∀ q, Verifier.verifyLines sha256 verifyStrict Verifier.nearestFloat .start s.1.lines = .ok q →
    q.expectedSeq = s.2.length ∧ IsTipOf s.2 q.tip

/-- **One more call keeps the store accepted by the independent verifier.** -/
theorem Written.next {calls : List (Signer × Event)} {c : Signer × Event} {s t : Store × List Python.Dict}
    (h : Written sha256 verifyStrict calls s) (hc : call sha256 s c = some t)
    (hhonest : Honest c.1 verifyStrict) (hascii : AsciiTimestamp c.2.1) :
    Written sha256 verifyStrict (calls ++ [c]) t := by
  obtain ⟨record, x, signedBytes, recordHash, encoded, hnext, rfl⟩ := Forensics.call_eq_some hc
  obtain ⟨entries, hreads⟩ := hnext.reads
  obtain ⟨hxlen, -⟩ := h.recording.reads entries x hreads
  have hrecording := h.recording.next hnext c.2.2
  have hlength : (s.2 ++ [record]).length = (calls ++ [c]).length := by
    rw [List.length_append, List.length_append, List.length_singleton, List.length_singleton, h.length]
  rcases lt_or_ge x.seq (2 ^ 63) with hlt | hge
  · have hlines : Store.lines (some (s.1.getD [] ++ (encoded ++ [lineFeed]))) =
        s.1.lines ++ [encoded ++ [lineFeed]] :=
      physicalLines_append_line hreads.terminated (hnext.lineFeed_notMem c.2.2 hlt)
    have hsplit : ∀ q, Verifier.verifyLines sha256 verifyStrict Verifier.nearestFloat .start
        (Store.lines (some (s.1.getD [] ++ (encoded ++ [lineFeed])))) = .ok q ↔
          ∃ r, Verifier.verifyLines sha256 verifyStrict Verifier.nearestFloat .start s.1.lines = .ok r ∧
            Verifier.verifyLine sha256 verifyStrict Verifier.nearestFloat r (encoded ++ [lineFeed]) = .ok q := by
      intro q
      rw [hlines, Verifier.verifyLines_append, bind_eq_ok]
      simp only [Verifier.verifyLines_singleton]
    have hagree : ∀ r, Verifier.verifyLines sha256 verifyStrict Verifier.nearestFloat .start s.1.lines = .ok r →
        Agrees x r := fun r hr => Agrees.start.reads hreads hr
    refine ⟨hrecording, hlength, ?_, fun q hq => ?_⟩
    · simp only [hsplit, List.forall_mem_append, List.forall_mem_singleton, List.length_append,
        List.length_singleton]
      constructor
      · rintro ⟨q, r, hr, hq⟩
        obtain ⟨-, hshallow⟩ := h.accepted.1 ⟨r, hr⟩
        have hlast := (verifyLine_next_iff hnext c.2.2 hlt (hagree r hr) hhonest hascii).1 ⟨q, hq⟩
        rw [hxlen, h.length] at hlt
        exact ⟨hlt, hshallow, hlast⟩
      · rintro ⟨hle, hshallow, hlast⟩
        obtain ⟨r, hr⟩ := h.accepted.2 ⟨by omega, hshallow⟩
        obtain ⟨q, hq⟩ := (verifyLine_next_iff hnext c.2.2 hlt (hagree r hr) hhonest hascii).2 hlast
        exact ⟨q, r, hr, hq⟩
    · obtain ⟨r, hr, hq⟩ := (hsplit q).1 hq
      refine ⟨?_, isTipOf_next hnext c.2.2 hlt (hagree r hr) hq s.2⟩
      obtain ⟨_, _, _, _, _, -, -, -, -, -, rfl⟩ := Verifier.verifyLine_eq_ok.1 hq
      rw [List.length_append, List.length_singleton, ← (h.report r hr).1]
  · have hlines : Store.lines (some (s.1.getD [] ++ (encoded ++ [lineFeed]))) =
        s.1.lines ++ physicalLines (encoded ++ [lineFeed]) :=
      physicalLines_append_of_terminated hreads.terminated _
    have hne : physicalLines (encoded ++ [lineFeed]) ≠ [] :=
      physicalLines_ne_nil (List.append_ne_nil_of_right_ne_nil _ (List.cons_ne_nil _ _))
    have hrejected : ∀ q, Verifier.verifyLines sha256 verifyStrict Verifier.nearestFloat .start
        (Store.lines (some (s.1.getD [] ++ (encoded ++ [lineFeed])))) ≠ .ok q := by
      intro q
      rw [hlines]
      refine not_verifyLines_of_seq (Nat.zero_le _) (fun r hr => ?_) hne
      rw [(h.report r hr).1, ← hxlen]
      exact hge
    refine ⟨hrecording, hlength, ⟨fun ⟨q, hq⟩ => absurd hq (hrejected q), fun ⟨hle, _⟩ => ?_⟩,
      fun q hq => absurd hq (hrejected q)⟩
    rw [List.length_append, List.length_singleton, ← h.length, ← hxlen] at hle
    omega

/-- **Every run of calls on an empty store leaves one that the independent verifier accepts.** -/
theorem run_written {calls : List (Signer × Event)} {t : Store × List Python.Dict}
    (hempty : store.getD [] = []) (hrun : run (call sha256) (store, []) calls = some t)
    (hhonest : ∀ c ∈ calls, Honest c.1 verifyStrict) (hascii : ∀ c ∈ calls, AsciiTimestamp c.2.1) :
    Written sha256 verifyStrict calls t := by
  induction calls using List.reverseRecOn generalizing t with
  | nil =>
    obtain rfl := run_nil.1 hrun
    have hlines : store.lines = [] := by rw [Store.lines, hempty]; rfl
    refine ⟨.nil hempty, rfl, ⟨fun _ => ⟨Nat.zero_le _, fun c hc => absurd hc List.not_mem_nil⟩, fun _ => ?_⟩,
      fun q hq => ?_⟩
    · rw [hlines]
      exact ⟨.start, rfl⟩
    · rw [hlines] at hq
      obtain rfl := Except.ok.inj hq
      exact ⟨rfl, trivial⟩
  | append_singleton calls c ih =>
    rw [List.forall_mem_append, List.forall_mem_singleton] at hhonest hascii
    obtain ⟨s, hs, hlast⟩ := run_append.1 hrun
    obtain ⟨t', hc, hnil⟩ := run_cons.1 hlast
    obtain rfl := run_nil.1 hnil
    exact (ih hs hhonest.1 hascii.1).next hc hhonest.2 hascii.2

/-- **The verifier accepts what was logged**, and reports the number of calls and the last
record, if the events are not nested too deeply and their numbers fit into 63 bits, and
only then. -/
theorem logged_accepted_iff {calls : List (Signer × Event)} {store' : Store} {records : List Python.Dict}
    (hempty : store.getD [] = []) (hrun : run (call sha256) (store, []) calls = some (store', records))
    (hhonest : ∀ c ∈ calls, Honest c.1 verifyStrict) (hascii : ∀ c ∈ calls, AsciiTimestamp c.2.1) :
    (∃ tip, Verifier.verifyReader sha256 verifyStrict Verifier.nearestFloat (store'.getD []) =
      .ok ⟨calls.length, tip⟩ ∧ IsTipOf records tip) ↔
    calls.length ≤ 2 ^ 63 ∧ ∀ c ∈ calls, Shallow c.2.1 := by
  have hwritten := run_written hempty hrun hhonest hascii
  rw [← hwritten.accepted]
  constructor
  · rintro ⟨tip, htip, -⟩
    obtain ⟨q, hq, -⟩ := Verifier.verifyReader_eq_ok.1 htip
    exact ⟨q, hq⟩
  · rintro ⟨q, hq⟩
    obtain ⟨hseq, htip⟩ := hwritten.report q hq
    refine ⟨q.tip, Verifier.verifyReader_eq_ok.2 ⟨q, hq, ?_⟩, htip⟩
    rw [hseq, hwritten.length]

end

/-- The calls with two events of scalars. -/
def scalarCalls : List (Signer × Event) :=
  [(Forensics.sampleSigner, ⟨Forensics.sampleEvent, Forensics.distinctKeys_sampleEvent⟩),
    (Forensics.sampleSigner, laterEvent)]

/-- The calls of the sample have an honest signer, ASCII timestamps and shallow events. -/
theorem scalarCalls_meet : (∀ c ∈ scalarCalls, Honest c.1 sampleVerify) ∧
    (∀ c ∈ scalarCalls, AsciiTimestamp c.2.1) ∧ ∀ c ∈ scalarCalls, Shallow c.2.1 := by
  simp only [scalarCalls, List.forall_mem_cons, List.not_mem_nil, false_imp_iff, implies_true, and_true]
  refine ⟨⟨honest_sample, honest_sample⟩, ⟨fun t ht => ?_, fun t ht => ?_⟩,
    show (Json.object Forensics.sampleEvent).depth ≤ 127 by decide,
    show (Json.object laterEvent.1).depth ≤ 127 by decide⟩
  · obtain rfl := Python.Atom.str.inj (Json.atom.inj (Option.some.inj ht))
    decide +kernel
  · obtain rfl := Python.Atom.str.inj (Json.atom.inj (Option.some.inj ht))
    decide +kernel

/-- Two calls, and the file of their linked records is accepted. -/
theorem logged_accepted_iff_sample : ∃ store' records tip,
    run (call Forensics.sampleSha256) (none, []) scalarCalls = some (store', records) ∧
    Verifier.verifyReader Forensics.sampleSha256 sampleVerify Verifier.nearestFloat (store'.getD []) =
      .ok ⟨2, tip⟩ ∧ IsTipOf records tip := by
  have hreturns : (run (call Forensics.sampleSha256) (none, []) scalarCalls).isSome = true := by
    decide +kernel
  obtain ⟨⟨store', records⟩, hrun⟩ := Option.isSome_iff_exists.1 hreturns
  obtain ⟨hhonest, hascii, hshallow⟩ := scalarCalls_meet
  obtain ⟨tip, htip, hlast⟩ := (logged_accepted_iff rfl hrun hhonest hascii).2 ⟨by decide, hshallow⟩
  exact ⟨store', records, tip, hrun, htip, hlast⟩

/-- An event of the first format whose `top_shap` is nested 127 times. -/
def deepEvent : Event :=
  ⟨[(lit "ts_utc", .atom (.str (lit "2026-07-01T12:00:00Z"))), (lit "node_id", .atom (.str (lit "node-1"))),
    (lit "raw_csi_hash", .atom (.str (List.replicate 64 (.scalar 'a')))),
    (lit "features_hash", .atom (.str (List.replicate 64 (.scalar 'b')))),
    (lit "model_id", .atom (.str (lit "m"))),
    (lit "model_config_hash", .atom (.str (List.replicate 64 (.scalar 'c')))),
    (lit "class", .atom (.str (lit "empty"))), (lit "confidence", .atom (.int 1)),
    (lit "top_shap", (fun v => .array [v])^[126] (.array []))], by decide +kernel⟩

/-- **The verifier does not accept every file that was logged**: `log_event` accepts an event that
is nested more deeply than the verifier reads. -/
theorem deep_event_rejected : ¬ ∀ (sha256 : Sha256) (verifyStrict : List UInt8 → List UInt8 → Bool)
    (store : Store) (calls : List (Signer × Event)) (store' : Store) (records : List Python.Dict),
    store.getD [] = [] → run (call sha256) (store, []) calls = some (store', records) →
    (∀ c ∈ calls, Honest c.1 verifyStrict) → (∀ c ∈ calls, AsciiTimestamp c.2.1) →
      ∃ tip, Verifier.verifyReader sha256 verifyStrict Verifier.nearestFloat (store'.getD []) =
        .ok ⟨calls.length, tip⟩ ∧ IsTipOf records tip := by
  intro h
  let sha256 : Sha256 := ⟨fun _ => List.replicate 32 0, fun _ => rfl⟩
  let signer : Signer := fun _ => .bytes (List.replicate 64 0)
  have hlogged : (run (call sha256) (none, []) [(signer, deepEvent)]).any (fun t =>
      !(Verifier.verifyReader sha256 (fun _ _ => true) Verifier.nearestFloat (t.1.getD [])).isOk) = true := by
    decide +kernel
  obtain ⟨⟨store', records⟩, hrun, hrejected⟩ := (Option.any_eq_true _ _).1 hlogged
  have hascii : AsciiTimestamp deepEvent.1 := by
    intro t ht
    obtain rfl := Python.Atom.str.inj (Json.atom.inj (Option.some.inj ht))
    decide +kernel
  obtain ⟨tip, htip, -⟩ := h sha256 (fun _ _ => true) none [(signer, deepEvent)] store' records rfl hrun
    (List.forall_mem_singleton.2 fun _ _ _ => rfl) (List.forall_mem_singleton.2 hascii)
  rw [htip] at hrejected
  cases hrejected

end Interop
end Vestrix
