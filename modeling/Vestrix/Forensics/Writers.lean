/-
# Writers that share a store

Any number of processes call `log_event` on one store, each of them step by step, and the
steps of different processes alternate as they like; the sidecar lock lets one process at a
time past its acquisition.  What `Took` says of one step keeps `Shared`, so that in every
reachable state with the lock free the file holds the records of the calls that returned,
in the order of the lock (`interleaved_writers`).
-/

import Vestrix.Forensics.Unforgeable

namespace Vestrix
namespace Forensics

open Text Rounding Json Outcome Python Record Transition

/-- `log_event` between the tip of the chain and its append. -/
def signRecord (sha256 : Sha256) (signer : Signer) (eventFields : Dict) (seq : ℤ) (previousHash : Str) :
    Except Exc (Dict × List UInt8) := do
  let unsigned := unsignedRecord eventFields seq previousHash
  let (recordBytes, recordHash) ← hashUnsignedRecord sha256 unsigned
  let signature ← signBytes signer recordBytes
  let record := signedRecord unsigned recordHash signature
  let encoded ← canonicalJsonBytes (.object record)
  return (record, encoded ++ [lineFeed])

/-- Where a process is in its call of `log_event`. -/
inductive Phase where
  | idle
  | validated (signer : Signer) (eventFields : Dict)
  | locked (signer : Signer) (eventFields : Dict)
  | tipRead (signer : Signer) (eventFields : Dict) (seq : ℤ) (previousHash : Str)
  | signed (record : Dict) (line : List UInt8)
  | appended (record : Dict)

/-- What a process does next. -/
inductive Action where
  | start (signer : Signer) (event : Event)
  | acquire
  | readTip
  | sign
  | append
  | release
  | fail

namespace Phase

/-- The process has the lock. -/
def Inside : Phase → Prop
  | .idle | .validated .. => False
  | .locked .. | .tipRead .. | .signed .. | .appended _ => True

/-- The record that is in the file although its call has not returned. -/
def pending : Phase → List Dict
  | .appended record => [record]
  | _ => []

end Phase

/-- The processes, their store and its lock, and the records of the calls that returned. -/
structure Writers (P : Type) where
  store : Store
  holder : Option P
  phase : P → Phase
  returned : List Dict

section

variable {P : Type} [DecidableEq P]

namespace Writers

/-- All processes are idle. -/
def start (store : Store) : Writers P := ⟨store, none, fun _ => .idle, []⟩

/-- A process gets on. -/
def goto (s : Writers P) (p : P) (phase : Phase) : Writers P :=
  { s with phase := Function.update s.phase p phase }

/-- A process leaves its call and the lock. -/
def leave (s : Writers P) (p : P) : Writers P := { s.goto p .idle with holder := none }

/-- The records in the file. -/
def log (s : Writers P) : List Dict := s.returned ++ s.holder.elim [] fun p => (s.phase p).pending

end Writers

variable (sha256 : Sha256)

/-- One step of a process. -/
def step (s : Writers P) (i : P × Action) : Option (Writers P) :=
  match s.phase i.1, i.2 with
  | .idle, .start signer event =>
    match validateEvent (.object event.1) with
    | .error _ => some s
    | .ok eventFields => some (s.goto i.1 (.validated signer eventFields))
  | .validated signer eventFields, .acquire =>
    if s.holder = none then some { s.goto i.1 (.locked signer eventFields) with holder := some i.1 } else none
  | .locked signer eventFields, .readTip =>
    match chainTip sha256 s.store (some (recordFormatVersion eventFields)) with
    | .error _ => some (s.leave i.1)
    | .ok (seq, previousHash) => some (s.goto i.1 (.tipRead signer eventFields seq previousHash))
  | .tipRead signer eventFields seq previousHash, .sign =>
    match signRecord sha256 signer eventFields seq previousHash with
    | .error _ => some (s.leave i.1)
    | .ok (record, line) => some (s.goto i.1 (.signed record line))
  | .signed record line, .append =>
    some { s.goto i.1 (.appended record) with store := some (s.store.getD [] ++ line) }
  | .appended record, .release => some { s.leave i.1 with returned := s.returned ++ [record] }
  | .validated .., .fail => some (s.goto i.1 .idle)
  | .locked .., .fail | .tipRead .., .fail | .signed .., .fail => some (s.leave i.1)
  | _, _ => none

/-! ### What one step does -/

/-- The signatures that a signer makes verify. -/
def Signer.Verifies (verify : List UInt8 → List UInt8 → Bool) (signer : Signer) : Prop :=
  ∀ bytes signature, signer bytes = .bytes signature → verify signature bytes = true

/-- What is known of a process in a phase. -/
def Phase.Fact (verify : List UInt8 → List UInt8 → Bool) (store : Store) : Phase → Prop
  | .idle => True
  | .validated signer eventFields | .locked signer eventFields =>
    signer.Verifies verify ∧ ∃ event : Event, validateEvent (.object event.1) = .ok eventFields
  | .tipRead signer eventFields seq previousHash =>
    signer.Verifies verify ∧ (∃ event : Event, validateEvent (.object event.1) = .ok eventFields) ∧
      chainTip sha256 store (some (recordFormatVersion eventFields)) = .ok (seq, previousHash)
  | .signed record line => ∃ signer : Signer, signer.Verifies verify ∧ ∃ event : Event,
    prepare sha256 signer (.object event.1) store = .ok (record, line)
  | .appended _ => True

/-- A step of a process, by what it does to the lock and the store. -/
inductive Took (verify : List UInt8 → List UInt8 → Bool) (s : Writers P) (p : P) : Writers P → Prop
  | refused : Took verify s p s
  | outside {phase : Phase} (before : ¬ (s.phase p).Inside) (after : ¬ phase.Inside)
      (fact : phase.Fact sha256 verify s.store) : Took verify s p (s.goto p phase)
  | acquired {phase : Phase} (before : ¬ (s.phase p).Inside) (free : s.holder = none) (after : phase.Inside)
      (nothing : phase.pending = []) (fact : phase.Fact sha256 verify s.store) :
      Took verify s p { s.goto p phase with holder := some p }
  | inside {phase : Phase} (before : (s.phase p).Inside) (nothing : (s.phase p).pending = [])
      (after : phase.Inside) (nothing' : phase.pending = []) (fact : phase.Fact sha256 verify s.store) :
      Took verify s p (s.goto p phase)
  | appended {record : Dict} {line : List UInt8} (before : s.phase p = .signed record line) :
      Took verify s p { s.goto p (.appended record) with store := some (s.store.getD [] ++ line) }
  | released {record : Dict} (before : s.phase p = .appended record) :
      Took verify s p { s.leave p with returned := s.returned ++ [record] }
  | left (before : (s.phase p).Inside) (nothing : (s.phase p).pending = []) : Took verify s p (s.leave p)

variable {sha256} {verify : List UInt8 → List UInt8 → Bool} {s t : Writers P} {p : P} {action : Action}

/-- A record is prepared by validating the event, reading the tip and signing. -/
theorem prepare_of_signRecord {signer : Signer} {event : Value} {eventFields : Dict} {store : Store} {seq : ℤ}
    {previousHash : Str} (hevent : validateEvent event = .ok eventFields)
    (htip : chainTip sha256 store (some (recordFormatVersion eventFields)) = .ok (seq, previousHash)) :
    prepare sha256 signer event store = signRecord sha256 signer eventFields seq previousHash := by
  rw [prepare, hevent, ok_bind, htip, Except.mapError, ok_bind]
  rfl

/-- **A step of a writer is one of those** that `Took` lists. -/
theorem took_of_step (hfact : ∀ p, (s.phase p).Fact sha256 verify s.store)
    (hsigner : ∀ signer event, action = .start signer event → signer.Verifies verify)
    (h : step sha256 s (p, action) = some t) : Took sha256 verify s p t := by
  have hp := hfact p
  rw [step.eq_def] at h
  dsimp only at h
  split at h
  · rename_i signer event hphase
    split at h
    · obtain rfl := Option.some.inj h
      exact .refused
    · rename_i eventFields hevent
      obtain rfl := Option.some.inj h
      exact .outside (by rw [hphase]; exact id) id ⟨hsigner signer event rfl, event, hevent⟩
  · rename_i signer eventFields hphase
    rw [hphase] at hp
    split_ifs at h with hfree
    obtain rfl := Option.some.inj h
    exact .acquired (by rw [hphase]; exact id) hfree trivial rfl hp
  · rename_i signer eventFields hphase
    rw [hphase] at hp
    split at h
    · obtain rfl := Option.some.inj h
      exact .left (by rw [hphase]; trivial) (by rw [hphase]; rfl)
    · rename_i seq previousHash htip
      obtain rfl := Option.some.inj h
      exact .inside (by rw [hphase]; trivial) (by rw [hphase]; rfl) trivial rfl ⟨hp.1, hp.2, htip⟩
  · rename_i signer eventFields seq previousHash hphase
    rw [hphase] at hp
    obtain ⟨hverifies, ⟨event, hevent⟩, htip⟩ := hp
    split at h
    · obtain rfl := Option.some.inj h
      exact .left (by rw [hphase]; trivial) (by rw [hphase]; rfl)
    · rename_i record line hsign
      obtain rfl := Option.some.inj h
      refine .inside (by rw [hphase]; trivial) (by rw [hphase]; rfl) trivial rfl ⟨signer, hverifies, event, ?_⟩
      rw [prepare_of_signRecord hevent htip, hsign]
  · rename_i record line hphase
    obtain rfl := Option.some.inj h
    exact .appended hphase
  · rename_i record hphase
    obtain rfl := Option.some.inj h
    exact .released hphase
  · rename_i hphase
    obtain rfl := Option.some.inj h
    exact .outside (by rw [hphase]; exact id) id trivial
  · rename_i hphase
    obtain rfl := Option.some.inj h
    exact .left (by rw [hphase]; trivial) (by rw [hphase]; rfl)
  · rename_i hphase
    obtain rfl := Option.some.inj h
    exact .left (by rw [hphase]; trivial) (by rw [hphase]; rfl)
  · rename_i hphase
    obtain rfl := Option.some.inj h
    exact .left (by rw [hphase]; trivial) (by rw [hphase]; rfl)
  · cases h

/-! ### The lock -/

/-- The process that holds the lock is the one that is past its acquisition. -/
structure Locked (sha256 : Sha256) (verify : List UInt8 → List UInt8 → Bool) (s : Writers P) : Prop where
  inside : ∀ p, (s.phase p).Inside ↔ s.holder = some p
  fact : ∀ p, (s.phase p).Fact sha256 verify s.store

/-- What is known outside the lock does not depend on the store. -/
theorem Phase.Fact.of_outside {phase : Phase} {store : Store} (h : phase.Fact sha256 verify store)
    (hphase : ¬ phase.Inside) (store' : Store) : phase.Fact sha256 verify store' := by
  cases phase with
  | idle => trivial
  | validated signer eventFields => exact h
  | _ => exact absurd trivial hphase

/-- A step of one writer keeps the lock, if the others see no change of the holder. -/
theorem Locked.goto (h : Locked sha256 verify s) {phase : Phase} {holder : Option P} {store : Store}
    (returned : List Dict) (hself : phase.Inside ↔ holder = some p)
    (hother : ∀ q, q ≠ p → (holder = some q ↔ s.holder = some q)) (hfact : phase.Fact sha256 verify store)
    (hfacts : ∀ q, q ≠ p → (s.phase q).Fact sha256 verify store) :
    Locked sha256 verify ⟨store, holder, Function.update s.phase p phase, returned⟩ := by
  constructor
  · intro q
    show (Function.update s.phase p phase q).Inside ↔ holder = some q
    by_cases hq : q = p
    · subst hq
      rw [Function.update_self]
      exact hself
    · rw [Function.update_of_ne hq, h.inside, hother q hq]
  · intro q
    show (Function.update s.phase p phase q).Fact sha256 verify store
    by_cases hq : q = p
    · subst hq
      rw [Function.update_self]
      exact hfact
    · rw [Function.update_of_ne hq]
      exact hfacts q hq

/-- **A step keeps the lock**: one writer at most is inside, and what it has read is what the file
has. -/
theorem Locked.step (h : Locked sha256 verify s) (ht : Took sha256 verify s p t) :
    Locked sha256 verify t := by
  have hfacts : ∀ q, q ≠ p → (s.phase q).Fact sha256 verify s.store := fun q _ => h.fact q
  have hfree : s.holder = some p → ∀ q, q ≠ p → (none = some q ↔ s.holder = some q) := by
    intro hp q hq
    rw [hp]
    exact ⟨fun hnone => (nomatch hnone), fun hsome => absurd (Option.some.inj hsome).symm hq⟩
  cases ht with
  | refused => exact h
  | outside before after fact =>
    exact h.goto _ ⟨fun hin => absurd hin after, fun hp => absurd ((h.inside p).2 hp) before⟩
      (fun _ _ => Iff.rfl) fact hfacts
  | acquired before free after nothing fact =>
    refine h.goto _ ⟨fun _ => rfl, fun _ => after⟩ (fun q hq => ?_) fact hfacts
    rw [free]
    exact ⟨fun hsome => absurd (Option.some.inj hsome).symm hq, fun hnone => (nomatch hnone)⟩
  | inside before nothing after nothing' fact =>
    exact h.goto _ ⟨fun _ => (h.inside p).1 before, fun _ => after⟩ (fun _ _ => Iff.rfl) fact hfacts
  | @appended record line before =>
    have hp : s.holder = some p := (h.inside p).1 (by rw [before]; trivial)
    refine h.goto _ ⟨fun _ => hp, fun _ => trivial⟩ (fun _ _ => Iff.rfl) trivial fun q hq => ?_
    refine (h.fact q).of_outside (fun hin => hq ?_) _
    exact (Option.some.inj (hp.symm.trans ((h.inside q).1 hin))).symm
  | @released record before =>
    have hp : s.holder = some p := (h.inside p).1 (by rw [before]; trivial)
    exact h.goto _ ⟨fun hin => hin.elim, fun hnone => (nomatch hnone)⟩ (hfree hp) trivial hfacts
  | left before nothing =>
    have hp : s.holder = some p := (h.inside p).1 before
    exact h.goto _ ⟨fun hin => hin.elim, fun hnone => (nomatch hnone)⟩ (hfree hp) trivial hfacts

/-! ### The file -/

/-- **A step appends one record, or leaves the file and its records alone.** -/
theorem Locked.took_cases (h : Locked sha256 verify s) (ht : Took sha256 verify s p t) :
    (t.store = s.store ∧ t.log = s.log) ∨ ∃ (signer : Signer) (event : Event) (record : Dict)
      (line : List UInt8), signer.Verifies verify ∧
        prepare sha256 signer (.object event.1) s.store = .ok (record, line) ∧
        t.store = some (s.store.getD [] ++ line) ∧ t.log = s.log ++ [record] := by
  have hlog : ∀ {phase : Phase}, s.phase p = phase → phase.Inside → s.log = s.returned ++ phase.pending := by
    intro phase hphase hin
    have hp : s.holder = some p := (h.inside p).1 (hphase ▸ hin)
    rw [Writers.log, hp, Option.elim_some, hphase]
  cases ht with
  | refused => exact Or.inl ⟨rfl, rfl⟩
  | outside before after fact =>
    refine Or.inl ⟨rfl, ?_⟩
    show (s.returned ++ s.holder.elim [] fun q => (Function.update s.phase p _ q).pending) = s.log
    rw [Writers.log]
    cases hholder : s.holder with
    | none => rfl
    | some q =>
      have hq : q ≠ p := by
        rintro rfl
        exact before ((h.inside q).2 hholder)
      rw [Option.elim_some, Option.elim_some, Function.update_of_ne hq]
  | acquired before free after nothing fact =>
    refine Or.inl ⟨rfl, ?_⟩
    show s.returned ++ (Function.update s.phase p _ p).pending = s.log
    rw [Function.update_self, nothing, Writers.log, free, Option.elim_none]
  | inside before nothing after nothing' fact =>
    refine Or.inl ⟨rfl, ?_⟩
    show (s.returned ++ s.holder.elim [] fun q => (Function.update s.phase p _ q).pending) = s.log
    rw [hlog rfl before, nothing, (h.inside p).1 before, Option.elim_some, Function.update_self, nothing']
  | @appended record line before =>
    have hfact := h.fact p
    rw [before] at hfact
    obtain ⟨signer, hverifies, event, hprepare⟩ := hfact
    have hin : (s.phase p).Inside := by rw [before]; trivial
    refine Or.inr ⟨signer, event, record, line, hverifies, hprepare, rfl, ?_⟩
    show (s.returned ++ s.holder.elim [] fun q => (Function.update s.phase p _ q).pending) = _
    rw [hlog before trivial, (h.inside p).1 hin, Option.elim_some, Function.update_self]
    simp only [Phase.pending, List.append_nil]
  | @released record before =>
    refine Or.inl ⟨rfl, ?_⟩
    rw [hlog before trivial]
    exact List.append_nil _
  | left before nothing =>
    refine Or.inl ⟨rfl, ?_⟩
    rw [hlog rfl before, nothing]
    rfl

/-- The file holds the records, and their signatures verify. -/
structure Holding (sha256 : Sha256) (verify : List UInt8 → List UInt8 → Bool) (store : Store)
    (log : List Dict) : Prop where
  recording : Recording sha256 store log
  reads : log.length ≤ 2 ^ 63 → ∃ entries y, Reads sha256 1 .first store.lines entries y
  signed : ∀ r ∈ log, ∃ signature, r.get? (lit "signature") = some (.atom (.str (ofChars (hex signature)))) ∧
    verify signature (recordBytes r) = true

/-- An empty store holds no records. -/
theorem Holding.nil {store : Store} (h : store.getD [] = []) : Holding sha256 verify store [] := by
  refine ⟨.nil h, fun _ => ⟨[], .first, ?_⟩, fun r hr => absurd hr List.not_mem_nil⟩
  rw [Store.lines, h]
  exact .nil

/-- **An append keeps the file a chain** of the records that have been logged. -/
theorem Holding.append {store : Store} {log : List Dict} {signer : Signer} {event : Event} {record : Dict}
    {line : List UInt8} (h : Holding sha256 verify store log) (hverifies : signer.Verifies verify)
    (hprepare : prepare sha256 signer (.object event.1) store = .ok (record, line)) :
    Holding sha256 verify (some (store.getD [] ++ line)) (log ++ [record]) := by
  obtain ⟨_, x, signedBytes, recordHash, encoded, hevent, hnext, rfl⟩ := prepare_eq_ok.1 hprepare
  obtain rfl := Json.object.inj hevent
  obtain ⟨entries, hx⟩ := hnext.reads
  obtain ⟨hlen, -⟩ := h.recording.reads entries x hx
  refine ⟨h.recording.next hnext event.2, fun hlength => ?_, ?_⟩
  · rw [List.length_append, List.length_singleton] at hlength
    obtain ⟨entry, version, -, hreads⟩ := hnext.reads_append event.2 (by omega) hx
    exact ⟨_, _, hreads⟩
  · rw [List.forall_mem_append, List.forall_mem_singleton]
    refine ⟨h.signed, ?_⟩
    obtain ⟨shape, hshape, -⟩ := hnext.conforms
    obtain ⟨signature, hsign, -, hrecord⟩ := hnext.signed
    refine ⟨signature, ?_, ?_⟩
    · rw [hrecord, get?_append hshape.unmanaged (by decide)]
      rfl
    · rw [recordBytes_eq hnext.hash_eq]
      exact hverifies _ _ hsign

/-- **Every interleaving keeps the lock and the file.** -/
theorem run_holding {store : Store} {steps : List (P × Action)} (hempty : store.getD [] = [])
    (hsigner : ∀ p signer event, (p, Action.start signer event) ∈ steps → signer.Verifies verify)
    (hrun : run (step sha256) (.start store) steps = some s) :
    Locked sha256 verify s ∧ Holding sha256 verify s.store s.log := by
  have hstart : Locked sha256 verify (.start store : Writers P) :=
    ⟨fun p => ⟨fun hin => hin.elim, fun hnone => (nomatch hnone)⟩, fun p => trivial⟩
  have hmeets : Meets (step sha256) (fun _ i => ∀ signer event, i.2 = .start signer event →
      signer.Verifies verify) (.start store) steps := by
    refine Meets.of_forall fun i hi s signer event heq => hsigner i.1 signer event ?_
    rw [← heq]
    exact hi
  refine run_induction (I := fun s => Locked sha256 verify s ∧ Holding sha256 verify s.store s.log)
    (fun s i t hs hok ht => ?_) ⟨hstart, .nil hempty⟩ hmeets hrun
  have htook := took_of_step hs.1.fact hok ht
  refine ⟨hs.1.step htook, ?_⟩
  rcases hs.1.took_cases htook with ⟨hstore, hlog⟩ | ⟨signer, event, record, line, hverifies, hprepare, hstore,
    hlog⟩
  · rw [hstore, hlog]
    exact hs.2
  · rw [hstore, hlog]
    exact hs.2.append hverifies hprepare

/-! ### What is read -/

/-- The line of a record. -/
def IsRecordLine (line : List UInt8) (record : Dict) : Prop :=
  ∃ encoded, canonicalJsonBytes (.object record) = .ok encoded ∧ line = encoded ++ [lineFeed]

/-- The line of a record is that of any other one with the same content. -/
theorem IsRecordLine.congr {line : List UInt8} {record record' : Dict} (h : IsRecordLine line record)
    (hsame : SameRecord record record') : IsRecordLine line record' := by
  obtain ⟨encoded, hencoded, rfl⟩ := h
  exact ⟨encoded, canonicalJsonBytes_congr hsame hencoded, rfl⟩

section

variable {record record' : Dict}

/-- Records with the same content have it in both ways. -/
theorem SameRecord.symm (h : SameRecord record record') : SameRecord record' record := Eq.symm h

/-- Records with the same content have the same items, but for the order of their keys. -/
theorem SameRecord.get? (h : SameRecord record record') (hd : (Json.object record).DistinctKeys)
    (hd' : (Json.object record').DistinctKeys) (key : Str) :
    (record.get? key).map sorted = (record'.get? key).map sorted := by
  obtain ⟨ns, hns⟩ : ∃ ns, (Json.object record).sorted = .object ns := ⟨_, sorted_object record⟩
  rw [Dict.get?, Dict.get?, ← lookup_sorted (forall_object.1 hd).1 hns key,
    ← lookup_sorted (forall_object.1 hd').1 (h.symm.trans hns) key]

/-- Sorting the keys leaves an atom, and makes none. -/
theorem sorted_eq_atom {v : Value} {a : Atom} : v.sorted = .atom a ↔ v = .atom a := by
  cases v with
  | atom b => exact Iff.rfl
  | array xs =>
    rw [sorted_array]
    exact ⟨fun h => (nomatch h), fun h => (nomatch h)⟩
  | object ms =>
    rw [sorted_object]
    exact ⟨fun h => (nomatch h), fun h => (nomatch h)⟩

/-- Records with the same content have the same atoms. -/
theorem SameRecord.get?_atom (h : SameRecord record record') (hd : (Json.object record).DistinctKeys)
    (hd' : (Json.object record').DistinctKeys) {key : Str} {a : Atom}
    (hatom : record.get? key = some (.atom a)) : record'.get? key = some (.atom a) := by
  have hget := h.get? hd hd' key
  rw [hatom] at hget
  obtain ⟨v, hv, hsorted⟩ := Option.map_eq_some_iff.1 hget.symm
  rw [hv, sorted_eq_atom.1 hsorted]

/-- Records with the same content have the same version. -/
theorem SameRecord.recordFormatVersion_eq (h : SameRecord record record')
    (hd : (Json.object record).DistinctKeys) (hd' : (Json.object record').DistinctKeys) :
    recordFormatVersion record = recordFormatVersion record' := by
  have hsorted : ∀ v : Value, eqInt v 2 = eqInt v.sorted 2 := by
    intro v
    cases v with
    | atom a => rfl
    | array xs => rw [sorted_array]; rfl
    | object ms => rw [sorted_object]; rfl
  have hany : ∀ o : Option Value, (o.any fun v => eqInt v 2) = (o.map sorted).any fun v => eqInt v 2 := by
    intro o
    cases o with
    | none => rfl
    | some v => exact hsorted v
  rw [recordFormatVersion, recordFormatVersion, hany, h.get? hd hd', ← hany]

/-- Records with the same content have the same signed bytes. -/
theorem SameRecord.recordBytes_eq (h : SameRecord record record') (hd : (Json.object record).DistinctKeys)
    (hd' : (Json.object record').DistinctKeys) (hhash : ∃ signedBytes recordHash,
      hashUnsignedRecord sha256 record = .ok (signedBytes, recordHash) ∧
        record.get? (lit "record_hash") = some (.atom (.str recordHash))) :
    recordBytes record = recordBytes record' := by
  obtain ⟨signedBytes, recordHash, hhash, -⟩ := hhash
  obtain ⟨ns, hns⟩ : ∃ ns, (Json.object record).sorted = .object ns := ⟨_, sorted_object record⟩
  let p : Str → Bool := fun k => decide (k ∉ [lit "record_hash", lit "signature"])
  have hsorted : (Json.object (unsignedOf record)).sorted = (Json.object (unsignedOf record')).sorted :=
    (sorted_filter hd hns p).symm.trans (sorted_filter hd' (h.symm.trans hns) p)
  have hbytes := (hashUnsignedRecord_eq_ok.1 hhash).1
  rw [recordBytes, recordBytes, hbytes, canonicalJsonBytes_congr hsorted hbytes]

end

section

variable {α β γ : Type} {R : α → β → Prop} {S : β → γ → Prop} {T : α → γ → Prop}

/-- Related lists are related at every index. -/
theorem exists_of_forall₂ {as : List α} {bs : List β} (h : List.Forall₂ R as bs) {i : ℕ} {b : β}
    (hb : bs[i]? = some b) : ∃ a, as[i]? = some a ∧ R a b := by
  induction h generalizing i with
  | nil => cases hb
  | cons head tail ih =>
    cases i with
    | zero =>
      obtain rfl := Option.some.inj hb
      exact ⟨_, rfl, head⟩
    | succ i => exact ih hb

/-- Two lists that correspond to a third correspond. -/
theorem forall₂_trans {as : List α} {bs : List β} {cs : List γ} (h : List.Forall₂ R as bs)
    (h' : List.Forall₂ S bs cs) (hT : ∀ {a b c}, R a b → S b c → T a c) : List.Forall₂ T as cs := by
  induction h generalizing cs with
  | nil =>
    cases h'
    exact .nil
  | cons head tail ih =>
    cases h' with
    | cons head' tail' => exact .cons (hT head head') (ih tail')

end

section

variable {n : ℕ} {x y : Expected} {lines : List (List UInt8)} {entries : List Entry}

/-- Each line that is read is the line of its record. -/
theorem Reads.isRecordLine (h : Reads sha256 n x lines entries y) :
    List.Forall₂ (fun line e => IsRecordLine line e.record) lines entries := by
  induction h with
  | nil => exact .nil
  | cons head tail ih =>
    obtain ⟨record, line, _, _, rfl, hline, -, -, rfl, -⟩ := checkLine_eq_ok.1 head
    exact .cons ⟨line, hline.canonical, rfl⟩ ih

/-- The record at place `i` has the first number plus `i`. -/
theorem Reads.seq_at (h : Reads sha256 n x lines entries y) {i : ℕ} {e : Entry}
    (he : entries[i]? = some e) :
    e.record.get? (lit "seq") = some (.atom (.int ((x.seq + i : ℕ) : ℤ))) := by
  induction h generalizing i with
  | nil => cases he
  | cons head tail ih =>
    obtain ⟨record, _, _, _, -, -, hvalid, -, rfl, rfl⟩ := checkLine_eq_ok.1 head
    cases i with
    | zero =>
      obtain rfl := Option.some.inj he
      exact hvalid.seq_eq
    | succ i =>
      rw [ih he, Nat.add_assoc, Nat.add_comm 1]

/-- The first record names the digest that is expected. -/
theorem Reads.prevHash_first (h : Reads sha256 n x lines entries y) {e : Entry}
    (he : entries[0]? = some e) :
    e.record.get? (lit "prev_hash") = some (.atom (.str x.prevHash)) := by
  cases h with
  | nil => cases he
  | cons head tail =>
    obtain ⟨record, _, _, _, -, -, hvalid, -, rfl, -⟩ := checkLine_eq_ok.1 head
    obtain rfl := Option.some.inj he
    exact hvalid.prevHash_eq

/-- The records that are read are linked, one to the next. -/
theorem Reads.prevHash_next (h : Reads sha256 n x lines entries y) {i : ℕ} {e e' : Entry}
    (he : entries[i]? = some e) (he' : entries[i + 1]? = some e') : ∃ recordHash,
    e.record.get? (lit "record_hash") = some (.atom (.str recordHash)) ∧
      e'.record.get? (lit "prev_hash") = some (.atom (.str recordHash)) := by
  induction h generalizing i with
  | nil => cases he
  | cons head tail ih =>
    obtain ⟨record, _, _, recordHash, -, -, hvalid, -, rfl, rfl⟩ := checkLine_eq_ok.1 head
    cases i with
    | zero =>
      obtain rfl := Option.some.inj he
      exact ⟨recordHash, hvalid.recordHash_eq, tail.prevHash_first he'⟩
    | succ i => exact ih he he'

end

/-! ### Every interleaving -/

/-- **The file of a store is exactly some records**: a line for each, in order, numbered from
zero, linked, and of one version, and these are what is read back. -/
structure Exactly (sha256 : Sha256) (store : Store) (records : List Dict) : Prop where
  lines : List.Forall₂ IsRecordLine store.lines records
  seq : ∀ (i : ℕ) (r : Dict), records[i]? = some r → r.get? (lit "seq") = some (.atom (.int i))
  genesis : ∀ r, records[0]? = some r → r.get? (lit "prev_hash") = some (.atom (.str genesisPrevHash))
  prevHash : ∀ (i : ℕ) (r r' : Dict), records[i]? = some r → records[i + 1]? = some r' →
    r'.get? (lit "prev_hash") = r.get? (lit "record_hash")
  version : ∀ r ∈ records, ∀ r' ∈ records, recordFormatVersion r = recordFormatVersion r'
  read : ∃ entries, (iterValidatedRecords sha256 store).toList = .ok entries ∧
    List.Forall₂ (fun e r => SameRecord e.record r) entries records

/-- **What is read of a store are exactly the records that it holds.** -/
theorem Holding.exactly {store : Store} {log : List Dict} (h : Holding sha256 verify store log)
    (hlength : log.length ≤ 2 ^ 63) : Exactly sha256 store log := by
  obtain ⟨entries, y, hreads⟩ := h.reads hlength
  obtain ⟨-, -, hsame⟩ := h.recording.reads entries y hreads
  obtain ⟨-, hentries⟩ := hreads.linked
  have hget : ∀ {i : ℕ} {r : Dict}, log[i]? = some r → ∃ e, entries[i]? = some e ∧
      ∀ {key : Str} {a : Atom}, e.record.get? key = some (.atom a) → r.get? key = some (.atom a) := by
    intro i r hr
    obtain ⟨e, he, hrecord⟩ := exists_of_forall₂ hsame hr
    refine ⟨e, he, fun hatom => hrecord.get?_atom ?_ ?_ hatom⟩
    · exact (hentries e (List.mem_of_getElem? he)).1.distinctKeys
    · exact (h.recording.recorded r (List.mem_of_getElem? hr)).distinctKeys
  have hversion : ∀ r ∈ log, y.formatVersion = some (recordFormatVersion r) := by
    intro r hr
    obtain ⟨i, hi⟩ := List.mem_iff_getElem?.1 hr
    obtain ⟨e, he, hrecord⟩ := exists_of_forall₂ hsame hi
    have hmem := List.mem_of_getElem? he
    rw [hreads.version.2 e hmem, hrecord.recordFormatVersion_eq (hentries e hmem).1.distinctKeys
      (h.recording.recorded r hr).distinctKeys]
  refine ⟨?_, fun i r hr => ?_, fun r hr => ?_, fun i r r' hr hr' => ?_, fun r hr r' hr' => ?_,
    entries, iterValidatedRecords_toList.2 ⟨y, hreads⟩, hsame⟩
  · exact forall₂_trans hreads.isRecordLine hsame fun hline hrecord => hline.congr hrecord
  · obtain ⟨e, he, hatom⟩ := hget hr
    rw [hatom (hreads.seq_at he), Expected.first, Nat.zero_add]
  · obtain ⟨e, he, hatom⟩ := hget hr
    exact hatom (hreads.prevHash_first he)
  · obtain ⟨e, he, hatom⟩ := hget hr
    obtain ⟨e', he', hatom'⟩ := hget hr'
    obtain ⟨recordHash, hhash, hprev⟩ := hreads.prevHash_next he he'
    rw [hatom hhash, hatom' hprev]
  · exact Option.some.inj ((hversion r hr).symm.trans (hversion r' hr'))

/-- **`verify_chain` accepts the file** that the writers have made, with all their records. -/
theorem Holding.verifyChain {bytes : List UInt8} {log : List Dict}
    (h : Holding sha256 verify (some bytes) log) (hlength : log.length ≤ 2 ^ 63) :
    ∃ tipHash, Forensics.verifyChain sha256 verify (some bytes) = .ok ⟨log.length, tipHash⟩ := by
  obtain ⟨entries, y, hreads⟩ := h.reads hlength
  obtain ⟨-, -, hsame⟩ := h.recording.reads entries y hreads
  obtain ⟨-, hentries⟩ := hreads.linked
  rw [← hsame.length_eq]
  refine ⟨_, verifyChain_eq_ok.2 ⟨entries, y, hreads, fun e he => ?_, rfl⟩⟩
  obtain ⟨i, hi⟩ := List.mem_iff_getElem?.1 he
  obtain ⟨r, hr, hflip⟩ := exists_of_forall₂ hsame.flip hi
  have hrecord : SameRecord e.record r := hflip
  have hmem := List.mem_of_getElem? hr
  obtain ⟨hrecorded, hbytes⟩ := hentries e he
  have hrecorded' := h.recording.recorded r hmem
  obtain ⟨signature, hsignature, hverify⟩ := h.signed r hmem
  refine ⟨ofChars (hex signature), signature, ?_, ?_, ?_⟩
  · exact hrecord.symm.get?_atom hrecorded'.distinctKeys hrecorded.distinctKeys hsignature
  · rw [scalars?_ofChars, Option.bind_some, fromHex_hex]
  · rw [hbytes, hrecord.recordBytes_eq hrecorded.distinctKeys hrecorded'.distinctKeys hrecorded.hash, hverify]

/-- **Writers that share a store lose nothing.**  In every state that processes reach from a
missing or empty store, in which the lock is free, the file is exactly the records of the
calls that returned, and `verify_chain` accepts it once there is one; an event of another version
than the chain's is refused and leaves the file alone. -/
theorem interleaved_writers {store : Store} {steps : List (P × Action)} (hempty : store.getD [] = [])
    (hsigner : ∀ p signer event, (p, Action.start signer event) ∈ steps → signer.Verifies verify)
    (hrun : run (step sha256) (.start store) steps = some s) :
    (s.holder = none → s.returned.length < 2 ^ 63 → Exactly sha256 s.store s.returned ∧
      ∀ bytes, s.store = some bytes → ∃ tipHash,
        verifyChain sha256 verify (some bytes) = .ok ⟨s.returned.length, tipHash⟩) ∧
    ∀ p signer eventFields, s.phase p = .locked signer eventFields →
      (∃ r ∈ s.returned, recordFormatVersion r ≠ recordFormatVersion eventFields) →
        step sha256 s (p, .readTip) = some (s.leave p) ∧ (s.leave p).store = s.store := by
  obtain ⟨hlocked, hholding⟩ := run_holding hempty hsigner hrun
  refine ⟨fun hfree hlength => ?_, fun p signer eventFields hphase ⟨r, hr, hversion⟩ => ⟨?_, rfl⟩⟩
  · have hlog : s.log = s.returned := by
      rw [Writers.log, hfree]
      exact List.append_nil _
    rw [hlog] at hholding
    refine ⟨hholding.exactly hlength.le, fun bytes hbytes => ?_⟩
    rw [hbytes] at hholding
    exact hholding.verifyChain hlength.le
  · rw [step, hphase]
    dsimp only
    split
    · rfl
    · rename_i seq previousHash htip
      -- a tip that is returned would be that of a chain of the event's version
      obtain ⟨entries, y, hreads, -, hsame⟩ := chainTip_eq_ok.1 htip
      obtain ⟨-, -, hrecords⟩ := hholding.recording.reads entries y hreads
      have hmem : r ∈ s.log := List.mem_append_left _ hr
      obtain ⟨i, hi⟩ := List.mem_iff_getElem?.1 hmem
      obtain ⟨e, he, hrecord⟩ := exists_of_forall₂ hrecords hi
      have hentry := List.mem_of_getElem? he
      have hsome := hreads.version.2 e hentry
      rw [hrecord.recordFormatVersion_eq (hreads.linked.2 e hentry).1.distinctKeys
        (hholding.recording.recorded r hmem).distinctKeys] at hsome
      exact absurd (hsame _ rfl _ hsome) hversion

end

/-- Two processes, and a file that has not been created.  The second call begins before the first one has the
lock. -/
def sampleSteps : List (Bool × Action) :=
  [(true, .start sampleSigner ⟨linkedEvent, distinctKeys_linkedEvent⟩),
    (false, .start sampleSigner ⟨sampleEvent, distinctKeys_sampleEvent⟩), (false, .acquire), (false, .readTip),
    (false, .sign), (false, .append), (false, .release), (true, .acquire), (true, .readTip), (true, .sign),
    (true, .append), (true, .release)]

/-- Both writers of the sample sign with a key whose signatures verify. -/
theorem signers_sample : ∀ (p : Bool) (signer : Signer) (event : Event),
    (p, Action.start signer event) ∈ sampleSteps → signer.Verifies sampleVerified := by
  intro p signer event h
  simp only [sampleSteps, List.mem_cons, Prod.mk.injEq, Action.start.injEq, reduceCtorEq, and_false,
    List.not_mem_nil, or_false] at h
  obtain ⟨-, rfl, -⟩ | ⟨-, rfl, -⟩ := h <;> exact fun _ _ => sampleVerified_of_signed

/-- Two processes write, and the records of both are in the file and linked. -/
theorem interleaved_writers_sample : ∃ s : Writers Bool,
    run (step sampleSha256) (.start none) sampleSteps = some s ∧
      s.returned.map recordBytes = [sampleBytes, linkedBytes] ∧ Exactly sampleSha256 s.store s.returned := by
  have hreached : (run (step sampleSha256) (.start none) sampleSteps).any (fun s =>
      s.holder.isNone && decide (s.returned.map recordBytes = [sampleBytes, linkedBytes])) = true := by
    decide +kernel
  obtain ⟨s, hrun, hs⟩ := (Option.any_eq_true _ _).1 hreached
  obtain ⟨hfree, hbytes⟩ := Bool.and_eq_true_iff.1 hs
  have hbytes := of_decide_eq_true hbytes
  have hlength : s.returned.length = 2 := by
    have := congrArg List.length hbytes
    rwa [List.length_map] at this
  have hexactly := (interleaved_writers rfl signers_sample hrun).1 (Option.isNone_iff_eq_none.1 hfree)
    (by rw [hlength]; decide)
  exact ⟨s, hrun, hbytes, hexactly.1⟩

/-- **`verify_chain` does not accept a store that is missing**, although no call has returned. -/
theorem missing_store_not_verified : ¬ ∀ (P : Type) (_ : DecidableEq P) (sha256 : Sha256)
    (verify : List UInt8 → List UInt8 → Bool) (store : Store) (steps : List (P × Action)) (s : Writers P),
    store.getD [] = [] →
    (∀ p signer event, (p, Action.start signer event) ∈ steps → signer.Verifies verify) →
    run (step sha256) (.start store) steps = some s → s.holder = none → s.returned.length < 2 ^ 63 →
      ∃ tipHash, verifyChain sha256 verify s.store = .ok ⟨s.returned.length, tipHash⟩ := by
  intro h
  obtain ⟨tipHash, htip⟩ := h Unit inferInstance sampleSha256 sampleVerified none [] (.start none) rfl
    (fun _ _ _ hmem => absurd hmem List.not_mem_nil) rfl rfl (by decide)
  cases htip

end Forensics
end Vestrix
