/-
# Overlapping workers

What workers do to each other.  A proof file is written before the row update that is
guarded, and the guard looks at the state of a row only, so that a worker which has fallen
behind can put an old proof over a new one, or count from an old number of attempts.

Both are about one step: a rename with a file that has changed since it was looked at, and
an update with a copy that has changed since it was read.  Where no worker takes such a
step, an upgraded row has its Bitcoin proof (`overlap_keeps_bitcoin`), and no failure is
lost (`overlap_keeps_failures`).  The first is so in particular where no worker puts a file
between another one's look and its rename (`keeps_bitcoin_of_exclusive`).
-/

import Vestrix.Anchor.Invariant

namespace Vestrix
namespace Anchor

open Text Outcome Transition

variable {J : Type} {inspectProof : List UInt8 → List UInt8 → Option Bool}
  {retryDelay : ℕ → J → Option ℕ}

/-! ### Proofs -/

section

variable (inspectProof)

/-- Whether the proof at a path has a Bitcoin attestation. -/
def hasBitcoin (s : Shared) (path : ProofPath) : Bool :=
  match s.files path with
  | some proof => inspectProof proof path.tipHash == some true
  | none => false

/-- A rename finds the file as the worker has seen it: a new file is still not there, and one that is
replaced by a proof without a Bitcoin attestation has not got one meanwhile. -/
def FileCurrent (s : Shared) (_ : Worker) : Effect → Prop
  | .put path proof replace =>
    (replace = false → s.files path = none) ∧
      (replace = true → inspectProof proof path.tipHash = some true ∨
        hasBitcoin inspectProof s path = false)
  | _ => True

/-- Upgraded rows have their proofs, and no file was published as new when it was there. -/
structure Shared.Attested (s : Shared) : Prop where
  upgraded : ∀ id r, s.store.row id = some r → r.state = .upgradedUnverified →
    hasBitcoin inspectProof s r.proofPath = true
  created : s.created.Nodup
  present : ∀ p ∈ s.created, s.files p ≠ none

/-- A worker that is about to say that a row is upgraded. -/
def Worker.Attested (s : Shared) (w : Worker) : Prop :=
  ∀ job, w.phase = .update job true → hasBitcoin inspectProof s job.row.proofPath = true

end

variable {s : Shared} {w : Worker} {job : Job}

/-- `hasBitcoin` says that there is a proof file, for the digest of its path, with a Bitcoin
attestation. -/
theorem hasBitcoin_eq_true {path : ProofPath} : hasBitcoin inspectProof s path = true ↔
    ∃ proof, s.files path = some proof ∧ inspectProof proof path.tipHash = some true := by
  rw [hasBitcoin]
  cases h : s.files path with
  | none => exact ⟨fun h => (nomatch h), fun ⟨_, h, _⟩ => (nomatch h)⟩
  | some proof =>
    refine ⟨fun h => ⟨proof, rfl, beq_iff_eq.1 h⟩, ?_⟩
    rintro ⟨_, hproof, h⟩
    rw [← Option.some.inj hproof] at h
    exact beq_iff_eq.2 h

/-- A Bitcoin proof stays where it is. -/
theorem hasBitcoin_put {path p : ProofPath} {proof : List UInt8} {replace : Bool}
    (hnew : replace = false → s.files path = none)
    (hold : replace = true → inspectProof proof path.tipHash = some true ∨
      hasBitcoin inspectProof s path = false)
    (h : hasBitcoin inspectProof s p = true) :
    hasBitcoin inspectProof (s.apply (.put path proof replace)) p = true := by
  by_cases hp : p = path
  · subst hp
    obtain ⟨old, hfile, -⟩ := hasBitcoin_eq_true.1 h
    refine hasBitcoin_eq_true.2 ⟨proof, apply_put_self .., ?_⟩
    cases replace with
    | false => exact nomatch hfile.symm.trans (hnew rfl)
    | true =>
      rcases hold rfl with hproof | hfalse
      · exact hproof
      · exact nomatch h.symm.trans hfalse
  · obtain ⟨old, hfile, hinspect⟩ := hasBitcoin_eq_true.1 h
    exact hasBitcoin_eq_true.2 ⟨old, (Function.update_of_ne hp _ _).trans hfile, hinspect⟩

/-- A row may be written as upgraded where its file has a Bitcoin attestation. -/
theorem Shared.Attested.write (h : s.Attested inspectProof) {id : ℕ} {row : Row}
    {failure : Option FailureClass}
    (hrow : row.state = .upgradedUnverified → hasBitcoin inspectProof s row.proofPath = true) :
    (s.apply (.write id row failure)).Attested inspectProof := by
  refine ⟨fun id' r hr hstate => ?_, h.created, h.present⟩
  rcases row_write hr with ⟨-, rfl⟩ | ⟨-, hr⟩
  · exact hrow hstate
  · exact h.upgraded id' r hr hstate

/-- What a step keeps where the file that it puts in place is current. -/
theorem attested_advances {effect : Effect} {w' : Option Worker} (hw : w.Inv inspectProof s)
    (ha : s.Attested inspectProof) (hwa : w.Attested inspectProof s)
    (hok : FileCurrent inspectProof s w effect) (h : Advances inspectProof s w effect w') :
    (s.apply effect).Attested inspectProof ∧
      (∀ v, w' = some v → v.Attested inspectProof (s.apply effect)) ∧
      ∀ v : Worker, v.Attested inspectProof s → v.Attested inspectProof (s.apply effect) := by
  have hphase := hw.phase
  have hsilent : ∀ {phase : Phase} {rest : List Job}, (∀ job, phase ≠ .update job true) →
      s.Attested inspectProof ∧
        (∀ v, some { w with phase := phase, rest := rest } = some v → v.Attested inspectProof s) ∧
        ∀ v : Worker, v.Attested inspectProof s → v.Attested inspectProof s := by
    refine fun hphase => ⟨ha, fun v hv job hjob => ?_, fun v hv => hv⟩
    cases hv
    exact absurd hjob (hphase job)
  have hwrite : ∀ {id : ℕ} {row : Row} {failure : Option FailureClass} {phase : Phase}
      {rest : List Job}, (∀ job, phase ≠ .update job true) →
      (row.state = .upgradedUnverified → hasBitcoin inspectProof s row.proofPath = true) →
      (s.apply (.write id row failure)).Attested inspectProof ∧
        (∀ v, some { w with phase := phase, rest := rest } = some v →
          v.Attested inspectProof (s.apply (.write id row failure))) ∧
        ∀ v : Worker, v.Attested inspectProof s →
          v.Attested inspectProof (s.apply (.write id row failure)) := by
    refine fun hphase hrow => ⟨ha.write hrow, fun v hv job hjob => ?_, fun v hv => hv⟩
    cases hv
    exact absurd hjob (hphase job)
  cases h with
  | stop => exact ⟨ha, fun v hv => (by cases hv), fun v hv => hv⟩
  | @track run row hp htrack =>
    obtain ⟨-, rfl⟩ := trackTip_eq_some htrack
    refine ⟨⟨fun id r hr hstate => ?_, ha.created, ha.present⟩, fun v hv job hjob => ?_, fun v hv => hv⟩
    · rcases row_insert hr with ⟨-, rfl⟩ | ⟨-, hr⟩
      · cases hstate
      · exact ha.upgraded id r hr hstate
    · cases hv
      cases hjob
  | tracked => exact hsilent fun _ h => by cases h
  | select => exact hsilent fun _ h => by cases h
  | @resume job rest row _ hrest hresume =>
    have hjobs := hw.rest
    rw [hrest] at hjobs
    obtain ⟨r, retryFrom, hr, -, hstate, hretry, rfl⟩ := resumeRetry_eq_ok hresume
    refine hwrite (fun _ h => by cases h) fun hup => ?_
    rcases (hjobs job List.mem_cons_self).retryFrom hstate hretry with rfl | rfl <;> cases hup
  | take => exact hsilent fun _ h => by cases h
  | reread => exact hsilent fun _ h => by cases h
  | skip => exact hsilent fun _ h => by cases h
  | unstamped => exact hsilent fun _ h => by cases h
  | found => exact hsilent fun _ h => by cases h
  | pending => exact hsilent fun _ h => by cases h
  | complete hp hfile hproof =>
    rw [hp] at hphase
    refine ⟨ha, fun v hv job hjob => ?_, fun v hv => hv⟩
    cases hv
    cases hjob
    exact hasBitcoin_eq_true.2 ⟨_, hfile, hphase.1.lawful.path.2 ▸ hproof⟩
  | stamped => exact hsilent fun _ h => by cases h
  | upgraded => exact hsilent fun _ h => by cases h
  | unchanged => exact hsilent fun _ h => by cases h
  | publish => exact hsilent fun _ h => by cases h
  | @rename job proof bitcoin replace hp =>
    rw [hp] at hphase
    have hproof : inspectProof proof job.row.proofPath.tipHash = some bitcoin :=
      hphase.1.lawful.path.2.symm ▸ hphase.2.2
    have hput : ∀ {p}, hasBitcoin inspectProof s p = true →
        hasBitcoin inspectProof (s.apply (.put job.row.proofPath proof replace)) p = true :=
      fun h => hasBitcoin_put hok.1 hok.2 h
    have hext : Extends s (s.apply (.put job.row.proofPath proof replace)) := extends_put _ _ _
    refine ⟨⟨fun id r hr hstate => hput (ha.upgraded id r hr hstate), ?_, ?_⟩,
      fun v hv job' hjob' => ?_, fun v hv job' hjob' => hput (hv job' hjob')⟩
    · cases replace with
      | true => exact ha.created
      | false =>
        refine ha.created.append (List.nodup_singleton _) fun p hp hp' => ?_
        rw [List.mem_singleton.1 hp'] at hp
        exact ha.present _ hp (hok.1 rfl)
    · cases replace with
      | true => exact fun p hp => hext.file p (ha.present p hp)
      | false =>
        intro p hp
        rcases List.mem_append.1 hp with hp | hp
        · exact hext.file p (ha.present p hp)
        · rw [List.mem_singleton.1 hp]
          intro hnone
          cases (apply_put_self ..).symm.trans hnone
    · cases hv
      cases hjob'
      exact hasBitcoin_eq_true.2 ⟨proof, apply_put_self .., hproof⟩
  | @update job bitcoin row hp hfinish =>
    rw [hp] at hphase
    obtain ⟨r, next, hr, -, -, rfl⟩ := finish_eq_ok hphase.2.1 hfinish
    refine hwrite (fun _ h => by cases h) fun hup => ?_
    have hbitcoin : bitcoin = true := by
      cases bitcoin with
      | true => rfl
      | false => cases hup
    show hasBitcoin inspectProof s r.proofPath = true
    rw [(hphase.1.sameTip hr).2.2]
    exact hwa job (hbitcoin ▸ hp)
  | giveUp => exact hsilent fun _ h => by cases h
  | @fail job _ _ _ _ hp _ _ hrecord =>
    obtain ⟨r, hr, -, rfl⟩ := recordFailure_eq_ok hrecord
    exact hwrite (fun _ h => by cases h) fun hup => by cases hup

/-- What holds of the proofs in every schedule that puts no file in place unseen. -/
theorem attested_step {s t : State} {step : Step J}
    (h : Holds (fun s => s.Inv inspectProof ∧ s.Attested inspectProof)
      (fun s w => w.Inv inspectProof s ∧ w.Attested inspectProof s) s)
    (hok : Does inspectProof retryDelay (FileCurrent inspectProof) s step)
    (ht : system inspectProof retryDelay s step = some t) :
    Holds (fun s => s.Inv inspectProof ∧ s.Attested inspectProof)
      (fun s w => w.Inv inspectProof s ∧ w.Attested inspectProof s) t :=
  invariant_step (fun s run _ => ⟨⟨trivial, fun _ hj => nomatch hj⟩, fun _ h => nomatch h⟩)
    (fun s w effect w' hs hw hok hadv => by
      obtain ⟨hI, hext, hw'⟩ := inv_advances hs.1 hw.1 hadv
      obtain ⟨hA, hwA, hothers⟩ := attested_advances hw.1 hs.2 hw.2 hok hadv
      exact ⟨⟨hI, hA⟩, fun v hv => ⟨hw' v hv, hwA v hv⟩,
        fun v hv => ⟨hv.1.mono hext, hothers v hv.2⟩⟩) s step t h hok ht

/-- The proofs of every reachable state, where no file is put in place unseen. -/
theorem attested_run {steps : List (Step J)} {t : State}
    (hrun : run (system inspectProof retryDelay) State.initial steps = some t)
    (hok : Meets (system inspectProof retryDelay) (Does inspectProof retryDelay (FileCurrent inspectProof))
      State.initial steps) : t.shared.Attested inspectProof :=
  (run_induction (fun _ _ _ h hok ht => attested_step h hok ht)
    ⟨⟨sound_initial.shared, ⟨fun _ _ h => (nomatch h), List.nodup_nil, fun _ h => nomatch h⟩⟩,
      fun _ _ h => nomatch h⟩ hok hrun).shared.2

/-- Whether what the backend returns, if it returns a proof, is one of the job's digest. -/
def validReply (inspectProof : List UInt8 → List UInt8 → Option Bool) (s : State) (step : Step J) :
    Bool :=
  match s.workers step.worker, step.action with
  | some w, .go (.returned (some proof)) =>
    match w.phase.job? with
    | some job => (inspectProof proof job.row.tipHash).isSome
    | none => true
  | _, _ => true

/-- **Overlapping workers keep the Bitcoin proof of an upgraded row, and publish a new
proof once**, where no worker puts a file in place that has changed since it looked. -/
theorem overlap_keeps_bitcoin {steps : List (Step J)} {t : State}
    (hrun : run (system inspectProof retryDelay) State.initial steps = some t)
    (hok : Meets (system inspectProof retryDelay) (Does inspectProof retryDelay (FileCurrent inspectProof))
      State.initial steps) :
    (∀ id r, t.shared.store.row id = some r → r.state = .upgradedUnverified →
      hasBitcoin inspectProof t.shared r.proofPath = true) ∧ t.shared.created.Nodup :=
  ⟨(attested_run hrun hok).upgraded, (attested_run hrun hok).created⟩

instance decidableFileCurrent (s : Shared) (w : Worker) : ∀ e, Decidable (FileCurrent inspectProof s w e)
  | .put path proof replace => inferInstanceAs (Decidable ((replace = false → s.files path = none) ∧
      (replace = true → inspectProof proof path.tipHash = some true ∨
        hasBitcoin inspectProof s path = false)))
  | .silent => isTrue trivial
  | .insert _ => isTrue trivial
  | .write _ _ _ => isTrue trivial

/-! ### Nobody between -/

/-- The path that a worker is to put a file at, from its look at what is there on. -/
def Phase.looked? : Phase → Option ProofPath
  | .upgrade job _ => some job.row.proofPath
  | .publish job _ _ true => some job.row.proofPath
  | .rename job _ _ _ => some job.row.proofPath
  | _ => none

/-- No worker puts a file where another one has looked and is still to put a file. -/
def Exclusive (s : State) (step : Step J) : Prop :=
  ∀ w job proof bitcoin replace, s.workers step.worker = some w →
    w.phase = .rename job proof bitcoin replace → step.action = .go .done →
    ∀ k v, k ≠ step.worker → s.workers k = some v → v.phase.looked? ≠ some job.row.proofPath

/-- What a worker has seen is still so. -/
def Phase.Looked (inspectProof : List UInt8 → List UInt8 → Option Bool) (s : Shared) : Phase → Prop
  | .upgrade job _ => hasBitcoin inspectProof s job.row.proofPath = false
  | .publish job _ _ replace => replace = true → hasBitcoin inspectProof s job.row.proofPath = false
  | .rename job _ _ replace => (replace = false → s.files job.row.proofPath = none) ∧
    (replace = true → hasBitcoin inspectProof s job.row.proofPath = false)
  | _ => True

/-- Every worker's look is up to date. -/
def Looked (inspectProof : List UInt8 → List UInt8 → Option Bool) (s : State) : Prop :=
  ∀ k w, s.workers k = some w → w.phase.Looked inspectProof s.shared

/-- What a worker has seen of a proof stays so while that file does. -/
theorem Phase.Looked.congr {t : Shared} {phase : Phase} (h : phase.Looked inspectProof s)
    (hfiles : ∀ path, phase.looked? = some path → t.files path = s.files path) :
    phase.Looked inspectProof t := by
  have hbitcoin : ∀ path, t.files path = s.files path →
      hasBitcoin inspectProof t path = hasBitcoin inspectProof s path := by
    intro path hpath
    rw [hasBitcoin, hasBitcoin, hpath]
  cases phase with
  | upgrade job => exact (hbitcoin _ (hfiles _ rfl)).trans h
  | publish job _ _ replace =>
    cases replace with
    | false => exact fun hreplace => nomatch hreplace
    | true => exact fun hreplace => (hbitcoin _ (hfiles _ rfl)).trans (h hreplace)
  | rename job =>
    exact ⟨fun hreplace => (hfiles _ rfl).trans (h.1 hreplace),
      fun hreplace => (hbitcoin _ (hfiles _ rfl)).trans (h.2 hreplace)⟩
  | _ => trivial

/-- A worker that goes on knows of the proof what it has just seen. -/
theorem looked_advances {effect : Effect} {v : Worker} (hw : w.Inv inspectProof s)
    (hlooked : w.phase.Looked inspectProof s) (h : Advances inspectProof s w effect (some v)) :
    v.phase.Looked inspectProof (s.apply effect) := by
  have hphase := hw.phase
  cases h with
  | pending hp hfile hproof =>
    rw [hp] at hphase
    show hasBitcoin inspectProof s _ = false
    rw [hasBitcoin, hfile]
    simp only [hphase.1.lawful.path.2, hproof]
    rfl
  | stamped => exact fun h => nomatch h
  | upgraded hp =>
    rw [hp] at hlooked
    exact fun _ => hlooked
  | publish hp hfile =>
    rw [hp] at hlooked
    exact ⟨hfile, hlooked⟩
  | _ => trivial

/-- **A look stays up to date** where nobody comes between. -/
theorem looked_step {s t : State} {step : Step J} (hs : Sound inspectProof s)
    (h : Looked inspectProof s) (hok : Exclusive s step)
    (ht : system inspectProof retryDelay s step = some t) : Looked inspectProof t := by
  rcases system_eq_some ht with ⟨run, rfl⟩ | ⟨w, reply, effect, w', hw, hreply, hgo, rfl⟩ | rfl
  · intro k v hv
    by_cases hk : k = step.worker
    · subst hk
      cases (Function.update_self ..).symm.trans hv
      trivial
    · exact h k v ((Function.update_of_ne hk _ _).symm.trans hv)
  · intro k v hv
    by_cases hk : k = step.worker
    · subst hk
      obtain rfl : w' = some v := (Function.update_self step.worker w' s.workers).symm.trans hv
      exact looked_advances (hs.worker _ _ hw) (h _ _ hw) (advances_of_advance hgo)
    · have hother : s.workers k = some v := (Function.update_of_ne hk _ _).symm.trans hv
      refine (h k v hother).congr fun path hpath => ?_
      cases effect with
      | put path' proof replace =>
        obtain ⟨job, bitcoin, hp, hdone, rfl⟩ := advance_put hgo
        refine Function.update_of_ne (fun heq => ?_) _ _
        exact hok w job proof bitcoin replace hw hp (hdone ▸ hreply) k v hk hother (heq ▸ hpath)
      | _ => rfl
  · intro k v hv
    by_cases hk : k = step.worker
    · subst hk
      cases (Function.update_self ..).symm.trans hv
    · exact h k v ((Function.update_of_ne hk _ _).symm.trans hv)

/-- **Workers that do not come between each other keep the Bitcoin proof of an upgraded row**, and
publish a new proof once. -/
theorem keeps_bitcoin_of_exclusive {steps : List (Step J)} {t : State}
    (hrun : run (system inspectProof retryDelay) State.initial steps = some t)
    (hok : Meets (system inspectProof retryDelay) Exclusive State.initial steps) :
    (∀ id r, t.shared.store.row id = some r → r.state = .upgradedUnverified →
      hasBitcoin inspectProof t.shared r.proofPath = true) ∧ t.shared.created.Nodup := by
  have hcurrent : Meets (system inspectProof retryDelay)
      (Does inspectProof retryDelay (FileCurrent inspectProof)) State.initial steps := by
    refine Meets.of_invariant (I := fun s => Sound inspectProof s ∧ Looked inspectProof s)
      (fun s step t h hok ht => ⟨sound_step s step t h.1 ht, looked_step h.1 h.2 hok ht⟩)
      (fun s step h _ w hw reply _ next hgo => ?_) ⟨sound_initial, fun _ _ h => nomatch h⟩ hok
    obtain ⟨effect, w'⟩ := next
    cases effect with
    | put path proof replace =>
      obtain ⟨job, bitcoin, hp, -, rfl⟩ := advance_put hgo
      have hlooked := h.2 _ _ hw
      rw [hp] at hlooked
      exact ⟨hlooked.1, fun hreplace => Or.inr (hlooked.2 hreplace)⟩
    | _ => trivial
  exact ⟨(attested_run hrun hcurrent).upgraded, (attested_run hrun hcurrent).created⟩

/-! ### Two workers -/

section

/-- A detached proof of a digest with one attestation. -/
def detached (digest tag payload : List UInt8) : List UInt8 :=
  [0x00, 0x4F, 0x70, 0x65, 0x6E, 0x54, 0x69, 0x6D, 0x65, 0x73, 0x74, 0x61, 0x6D, 0x70, 0x73, 0x00,
    0x00, 0x50, 0x72, 0x6F, 0x6F, 0x66, 0x00, 0xBF, 0x89, 0xE2, 0xE8, 0x84, 0xE8, 0x92, 0x94] ++
  [1, 0x08] ++ digest ++ [0x00] ++ tag ++ [UInt8.ofNat payload.length] ++ payload

/-- A proof with a pending attestation. -/
def pendingProof (digest : List UInt8) (uri : String) : List UInt8 :=
  detached digest [0x83, 0xDF, 0xE3, 0x0D, 0x2E, 0xF9, 0x0C, 0x8E]
    (UInt8.ofNat uri.toList.length :: uri.toList.map asciiByte)

/-- A proof with a Bitcoin attestation. -/
def bitcoinProof (digest : List UInt8) : List UInt8 :=
  detached digest [0x05, 0x88, 0x96, 0x0D, 0x73, 0xD7, 0x19, 0x01] [7]

/-- `inspect_proof` on these proofs. -/
def inspectSample (proof digest : List UInt8) : Option Bool :=
  if proof = bitcoinProof digest then some true
  else if proof = pendingProof digest "https://a.org" ∨ proof = pendingProof digest "https://b.org" then
    some false
  else none

/-- A delay of a quarter of an hour. -/
def sampleDelay (_ : ℕ) (_ : Unit) : Option ℕ := some 900000000

/-- The tip that the runs below are about. -/
def sampleRun (now : ℕ) : Run := ⟨0, List.replicate 32 7, lit "proofs", 15, 6, now⟩

/-- A worker goes on with the given replies. -/
def goes (k : ℕ) (replies : List (Reply Unit)) : List (Step Unit) :=
  replies.map fun reply => ⟨k, .go reply⟩

/-- A worker starts, and takes a given number of steps that need no answer. -/
def begins (k now steps : ℕ) : List (Step Unit) :=
  ⟨k, .start (sampleRun now)⟩ :: goes k (List.replicate steps .done)

/-- A worker that submits the tip. -/
def submits (k now : ℕ) : List (Step Unit) :=
  begins k now 4 ++
    goes k [.returned (some (pendingProof (List.replicate 32 7) "https://a.org")), .done, .done,
      .done, .done]

/-- Two workers that overlap: the second finds the proof that the first has upgraded. -/
def overlapSteps : List (Step Unit) :=
  submits 0 0 ++ begins 0 2000000000 5 ++ begins 1 2000000000 4 ++
    goes 0 [.returned (some (bitcoinProof (List.replicate 32 7))), .done, .done, .done] ++
    goes 1 [.done, .done]

/-- Every rename of the sample finds what its worker has seen, so that the upgraded row has its
Bitcoin proof. -/
theorem overlap_keeps_bitcoin_seen : ∃ t,
    run (system inspectSample sampleDelay) State.initial overlapSteps = some t ∧
    (∀ id r, t.shared.store.row id = some r → r.state = .upgradedUnverified →
      hasBitcoin inspectSample t.shared r.proofPath = true) ∧ t.shared.created.Nodup := by
  have hrun : (run (system inspectSample sampleDelay) State.initial overlapSteps).isSome = true := by
    decide +kernel
  obtain ⟨t, ht⟩ := Option.isSome_iff_exists.1 hrun
  exact ⟨t, ht, overlap_keeps_bitcoin ht (by decide +kernel)⟩

/-- Two workers that overlap: both have read the pending proof when the first upgrades it. -/
def lateSteps : List (Step Unit) :=
  submits 0 0 ++ begins 0 2000000000 5 ++ begins 1 2000000000 5 ++
    goes 0 [.returned (some (bitcoinProof (List.replicate 32 7))), .done, .done, .done] ++
    goes 1 [.returned (some (pendingProof (List.replicate 32 7) "https://b.org")), .done, .done]

/-- **A slow worker overwrites a Bitcoin proof** with the pending one that it was given. -/
theorem overlap_loses_bitcoin : ¬ ∀ (steps : List (Step Unit)) (t : State),
    run (system inspectSample sampleDelay) State.initial steps = some t →
    Meets (system inspectSample sampleDelay) (fun s step => validReply inspectSample s step = true)
      State.initial steps →
    (∀ id r, t.shared.store.row id = some r → r.state = .upgradedUnverified →
      hasBitcoin inspectSample t.shared r.proofPath = true) ∧ t.shared.created.Nodup := by
  intro h
  have hlost : (run (system inspectSample sampleDelay) State.initial lateSteps).any (fun t =>
      (t.shared.store.row 0).any fun r => r.state = .upgradedUnverified ∧
        hasBitcoin inspectSample t.shared r.proofPath = false) = true := by
    decide +kernel
  obtain ⟨t, ht, hrow⟩ := (Option.any_eq_true _ _).1 hlost
  obtain ⟨r, hr, hbad⟩ := (Option.any_eq_true _ _).1 hrow
  obtain ⟨hstate, hfalse⟩ := of_decide_eq_true hbad
  have htrue := (h lateSteps t ht (by decide +kernel)).1 0 r hr hstate
  exact nomatch htrue.symm.trans hfalse

end

end Anchor
end Vestrix
