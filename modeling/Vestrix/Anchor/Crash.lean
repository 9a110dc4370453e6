/-
# One worker at a time

A single worker may be killed between any two of its effects and start again.  While it
runs, nobody else writes: the copies that it holds are the rows, and the proof file that
it has looked at is still the same.  So it never meets the conditions that overlapping
workers run into, a row that is settled stays as it is, and no state that a kill can leave
behind is one that a later run does not pick up.
-/

import Vestrix.Anchor.Failures

namespace Vestrix
namespace Anchor

open Text Outcome Transition

variable {J : Type} {inspectProof : List UInt8 → List UInt8 → Option Bool}
  {retryDelay : ℕ → J → Option ℕ}

/-- The job that a phase is about. -/
def Phase.holds? : Phase → Option Job
  | .reread job => some job
  | .fail job _ _ => some job
  | phase => phase.job?

/-- What a worker that is alone knows at each phase. -/
def Phase.Alone (inspectProof : List UInt8 → List UInt8 → Option Bool) (s : Shared) : Phase → Prop
  | .track _ | .select | .next | .reread _ => True
  | .process job | .read job | .update job _ | .fail job _ _ => s.store.row job.id = some job.row
  | .stamp job => s.store.row job.id = some job.row ∧ s.files job.row.proofPath = none
  | .upgrade job _ => s.store.row job.id = some job.row ∧
    hasBitcoin inspectProof s job.row.proofPath = false
  | .publish job _ _ replace | .rename job _ _ replace => s.store.row job.id = some job.row ∧
    (replace = false → s.files job.row.proofPath = none) ∧
    (replace = true → hasBitcoin inspectProof s job.row.proofPath = false)

/-- What a worker that is alone knows. -/
structure Worker.Alone (inspectProof : List UInt8 → List UInt8 → Option Bool) (s : Shared)
    (w : Worker) : Prop where
  phase : w.phase.Alone inspectProof s
  fresh : ∀ job ∈ w.rest, s.store.row job.id = some job.row ∧ ∃ now, LifecycleStore.due now job.row
  nodup : (w.rest.map Job.id).Nodup
  apart : ∀ job, w.phase.holds? = some job → job.id ∉ w.rest.map Job.id

/-- A row that no run changes any more. -/
def Row.Settled (r : Row) : Prop := r.state = .upgradedUnverified ∨ r.Quarantined

section

variable {s : Shared} {w : Worker} {job : Job} {r row : Row}

/-- A worker that is alone puts a file in place as it has seen it. -/
theorem Worker.Alone.fileCurrent (h : w.Alone inspectProof s) {effect : Effect} {w' : Option Worker}
    (hadv : Advances inspectProof s w effect w') : FileCurrent inspectProof s w effect := by
  have hphase := h.phase
  cases hadv with
  | rename hp =>
    rw [hp] at hphase
    exact ⟨hphase.2.1, fun hreplace => Or.inr (hphase.2.2 hreplace)⟩
  | _ => trivial

/-- A worker that is alone has the row of its job as the table has it. -/
theorem Phase.Alone.current {phase : Phase} (h : phase.Alone inspectProof s)
    (hjob : phase.job? = some job) : s.store.row job.id = some job.row := by
  cases phase <;> cases hjob <;> first | exact h | exact h.1

/-- The job that a phase works on is the one that it holds. -/
theorem Phase.holds?_of_job? {phase : Phase} (h : phase.job? = some job) : phase.holds? = some job := by
  cases phase <;> first | exact h | cases h

/-- A row in the state of an active job is not settled. -/
theorem Job.Active.not_settled (h : job.Active) (hstate : r.state = job.row.state) : ¬ r.Settled := by
  rintro (hup | hq)
  · rcases h with h | h <;> cases hup.symm.trans (hstate.trans h)
  · exact h.not_quarantined hstate hq

/-- A row that is due is not settled. -/
theorem not_settled_of_due {now : ℕ} (h : LifecycleStore.due now r) : ¬ r.Settled := by
  rintro (hup | ⟨hfailed, hintegrity⟩)
  · rcases h with h | ⟨h, -⟩ | ⟨h, -⟩ <;> cases hup.symm.trans h
  · cases hintegrity.symm.trans (due_transient h hfailed)

/-- The row that a job which is not the one written is a copy of. -/
theorem row_write_of_ne {id : ℕ} {failure : Option FailureClass} (hne : job.id ≠ id) :
    (s.apply (.write id row failure)).store.row job.id = s.store.row job.id :=
  Function.update_of_ne hne _ _

/-- A write to a row that is not settled leaves the settled ones. -/
theorem row_write_settled {id id' : ℕ} {failure : Option FailureClass}
    (hr : s.store.row id = some r) (hq : ¬ r.Settled) {q : Row} (hid : s.store.row id' = some q)
    (hsettled : q.Settled) : (s.apply (.write id row failure)).store.row id' = some q := by
  have hne : id' ≠ id := by
    rintro rfl
    exact hq (Option.some.inj (hid.symm.trans hr) ▸ hsettled)
  exact (Function.update_of_ne hne _ _).trans hid

/-- What a step keeps of what a worker that is alone knows. -/
theorem alone_advances {effect : Effect} {w' : Option Worker} (hs : s.Inv inspectProof)
    (hw : w.Inv inspectProof s) (ha : w.Alone inspectProof s)
    (h : Advances inspectProof s w effect w') :
    (∀ v, w' = some v → v.Alone inspectProof (s.apply effect)) ∧
      ∀ id q, s.store.row id = some q → q.Settled → (s.apply effect).store.row id = some q := by
  have hphase := hw.phase
  have halone := ha.phase
  have hsilent : ∀ {phase : Phase} {rest : List Job}, phase.Alone inspectProof s →
      (∀ job ∈ rest, s.store.row job.id = some job.row ∧ ∃ now, LifecycleStore.due now job.row) →
      (rest.map Job.id).Nodup → (∀ job, phase.holds? = some job → job.id ∉ rest.map Job.id) →
      (∀ v, some { w with phase := phase, rest := rest } = some v → v.Alone inspectProof s) ∧
        ∀ id q, s.store.row id = some q → q.Settled → s.store.row id = some q := by
    refine fun hphase hfresh hnodup hapart => ⟨fun v hv => ?_, fun _ _ hq _ => hq⟩
    cases hv
    exact ⟨hphase, hfresh, hnodup, hapart⟩
  have hgoto : ∀ {phase : Phase} {job : Job}, phase.Alone inspectProof s →
      w.phase.holds? = some job → (∀ j, phase.holds? = some j → j = job) →
      (∀ v, some { w with phase := phase, rest := w.rest } = some v → v.Alone inspectProof s) ∧
        ∀ id q, s.store.row id = some q → q.Settled → s.store.row id = some q := by
    refine fun hphase hjob hsame => hsilent hphase ha.fresh ha.nodup fun j hj => ?_
    rw [hsame j hj]
    exact ha.apart _ hjob
  have hwrite : ∀ {id : ℕ} {r row : Row} {failure : Option FailureClass} {phase : Phase}
      {rest : List Job}, s.store.row id = some r → ¬ r.Settled →
      phase.Alone inspectProof (s.apply (.write id row failure)) →
      (∀ job ∈ rest, s.store.row job.id = some job.row ∧ ∃ now, LifecycleStore.due now job.row) →
      id ∉ rest.map Job.id →
      (rest.map Job.id).Nodup → (∀ job, phase.holds? = some job → job.id ∉ rest.map Job.id) →
      (∀ v, some { w with phase := phase, rest := rest } = some v →
          v.Alone inspectProof (s.apply (.write id row failure))) ∧
        ∀ id' q, s.store.row id' = some q → q.Settled →
          (s.apply (.write id row failure)).store.row id' = some q := by
    intro id r row failure phase rest hr hq hphase hfresh hid hnodup hapart
    refine ⟨fun v hv => ?_, fun _ _ => row_write_settled hr hq⟩
    cases hv
    refine ⟨hphase, fun job hjob => ⟨?_, (hfresh job hjob).2⟩, hnodup, hapart⟩
    have hne : job.id ≠ id := by
      rintro rfl
      exact hid (List.mem_map_of_mem hjob)
    exact (row_write_of_ne hne).trans (hfresh job hjob).1
  cases h with
  | stop => exact ⟨fun v hv => (by cases hv), fun _ _ hq _ => hq⟩
  | track =>
    refine ⟨fun v hv => ?_, fun id q hq _ =>
      (Function.update_of_ne (hs.bounded _ _ hq).ne _ _).trans hq⟩
    cases hv
    exact ⟨trivial, fun job hjob => ⟨(Function.update_of_ne (hs.bounded _ _ (ha.fresh job hjob).1).ne
      _ _).trans (ha.fresh job hjob).1, (ha.fresh job hjob).2⟩, ha.nodup, fun _ h => (by cases h)⟩
  | tracked => exact hsilent trivial ha.fresh ha.nodup fun _ h => by cases h
  | select _ hjobs =>
    have hmem := fun job => (hjobs.mem_iff (a := job)).trans mem_dueJobs
    exact hsilent trivial (fun job hjob => ⟨((hmem job).1 hjob).2.1, _, ((hmem job).1 hjob).2.2⟩)
      ((hjobs.map Job.id).nodup_iff.2 nodup_dueJobs) fun _ h => by cases h
  | @resume job rest row _ hrest hresume =>
    have hfresh := ha.fresh
    have hnodup := ha.nodup
    rw [hrest] at hfresh hnodup
    obtain ⟨r, retryFrom, hr, -, -, -, rfl⟩ := resumeRetry_eq_ok hresume
    obtain ⟨hrow, now, hdue⟩ := hfresh job List.mem_cons_self
    have hq : ¬ r.Settled := Option.some.inj (hrow.symm.trans hr) ▸ not_settled_of_due hdue
    have hid := (List.nodup_cons.1 hnodup).1
    exact hwrite hr hq trivial (fun j hj => hfresh j (List.mem_cons_of_mem _ hj)) hid
      (List.nodup_cons.1 hnodup).2 fun j hj => Option.some.inj hj ▸ hid
  | @take job rest _ hrest =>
    have hfresh := ha.fresh
    have hnodup := ha.nodup
    rw [hrest] at hfresh hnodup
    exact hsilent (hfresh job List.mem_cons_self).1 (fun j hj => hfresh j (List.mem_cons_of_mem _ hj))
      (List.nodup_cons.1 hnodup).2 fun j hj => Option.some.inj hj ▸ (List.nodup_cons.1 hnodup).1
  | @reread old job hp hget =>
    rw [hp] at hphase
    obtain ⟨hrow, hsequence, htip⟩ := get_eq_some hget
    obtain ⟨r, hr, hsame⟩ := hphase.known
    have hid : job.id = old.id := hs.unique _ _ _ _ hrow hr (hsequence.trans hsame.1.symm)
      (htip.trans hsame.2.1.symm)
    refine hsilent hrow ha.fresh ha.nodup fun j hj => ?_
    cases hj
    rw [hid]
    exact ha.apart old (by rw [hp]; rfl)
  | skip => exact hsilent trivial ha.fresh ha.nodup fun _ h => by cases h
  | unstamped hp _ hfile =>
    rw [hp] at halone
    exact hgoto ⟨halone, hfile⟩ (by rw [hp]; rfl) fun _ hj => (Option.some.inj hj).symm
  | found hp =>
    rw [hp] at halone
    exact hgoto halone (by rw [hp]; rfl) fun _ hj => (Option.some.inj hj).symm
  | pending hp hfile hproof =>
    rw [hp] at halone hphase
    refine hgoto ⟨halone, ?_⟩ (by rw [hp]; rfl) fun _ hj => (Option.some.inj hj).symm
    rw [← hphase.1.lawful.path.2] at hproof
    rw [hasBitcoin, hfile]
    simp only [hproof]
    rfl
  | complete hp =>
    rw [hp] at halone
    exact hgoto halone (by rw [hp]; rfl) fun _ hj => (Option.some.inj hj).symm
  | stamped hp =>
    rw [hp] at halone
    exact hgoto ⟨halone.1, fun _ => halone.2, fun h => (by cases h)⟩ (by rw [hp]; rfl)
      fun _ hj => (Option.some.inj hj).symm
  | upgraded hp =>
    rw [hp] at halone
    exact hgoto ⟨halone.1, fun h => (by cases h), fun _ => halone.2⟩ (by rw [hp]; rfl)
      fun _ hj => (Option.some.inj hj).symm
  | unchanged hp =>
    rw [hp] at halone
    exact hgoto halone.1 (by rw [hp]; rfl) fun _ hj => (Option.some.inj hj).symm
  | publish hp =>
    rw [hp] at halone
    exact hgoto halone (by rw [hp]; rfl) fun _ hj => (Option.some.inj hj).symm
  | rename hp =>
    rw [hp] at halone
    refine ⟨fun v hv => ?_, fun _ _ hq _ => hq⟩
    cases hv
    refine ⟨halone.1, ha.fresh, ha.nodup, fun j hj => ha.apart j ?_⟩
    rw [hp]
    exact hj
  | update hp hfinish =>
    rw [hp] at hphase
    obtain ⟨r, next, hr, hstate, -, rfl⟩ := finish_eq_ok hphase.2.1 hfinish
    exact hwrite hr (hphase.2.1.not_settled hstate) trivial ha.fresh
      (ha.apart _ (by rw [hp]; rfl)) ha.nodup fun _ h => by cases h
  | giveUp hp =>
    exact hgoto (Phase.Alone.current halone hp) (Phase.holds?_of_job? hp)
      fun _ hj => (Option.some.inj hj).symm
  | fail hp _ _ hrecord =>
    rw [hp] at hphase
    obtain ⟨r, hr, hstate, rfl⟩ := recordFailure_eq_ok hrecord
    exact hwrite hr (hphase.2.not_settled hstate) trivial ha.fresh
      (ha.apart _ (by rw [hp]; rfl)) ha.nodup fun _ h => by cases h

end

/-! ### Runs of one worker -/

/-- The invariant of the runs of the worker 0. -/
structure Single (inspectProof : List UInt8 → List UInt8 → Option Bool) (s : State) : Prop where
  sound : Sound inspectProof s
  attested : Holds (fun s => s.Inv inspectProof ∧ s.Attested inspectProof)
    (fun s w => w.Inv inspectProof s ∧ w.Attested inspectProof s) s
  alone : ∀ w, s.workers 0 = some w → w.Alone inspectProof s.shared

/-- What a step does to the rows and files that are there. -/
structure Keeps (s t : Shared) : Prop where
  extend : Extends s t
  settled : ∀ id q, s.store.row id = some q → q.Settled → t.store.row id = some q

/-- What is there in one state is there in the next but one. -/
theorem Extends.trans {s t u : Shared} (h : Extends s t) (h' : Extends t u) : Extends s u := by
  refine ⟨fun id r hr => ?_, fun p hp => h'.file p (h.file p hp)⟩
  obtain ⟨r', hr', htip⟩ := h.row id r hr
  obtain ⟨r'', hr'', htip'⟩ := h'.row id r' hr'
  exact ⟨r'', hr'', htip.trans htip'⟩

/-- What is kept by one step and by the next is kept by both. -/
theorem Keeps.trans {s t u : Shared} (h : Keeps s t) (h' : Keeps t u) : Keeps s u :=
  ⟨h.extend.trans h'.extend, fun id q hq hs => h'.settled id q (h.settled id q hq hs) hs⟩

/-- Where nothing happens, everything is kept. -/
theorem Keeps.refl (s : Shared) : Keeps s s := ⟨.refl s, fun _ _ hq _ => hq⟩

/-- At the beginning there is no worker. -/
theorem single_initial : Single inspectProof State.initial :=
  ⟨sound_initial, ⟨⟨sound_initial.shared,
    ⟨fun _ _ h => (nomatch h), List.nodup_nil, fun _ h => nomatch h⟩⟩, fun _ _ h => nomatch h⟩,
    fun _ h => nomatch h⟩

/-- **What every step of the only worker keeps**, a kill included. -/
theorem single_step {s t : State} {step : Step J} (h : Single inspectProof s)
    (hworker : step.worker = 0) (ht : system inspectProof retryDelay s step = some t) :
    Single inspectProof t ∧ Keeps s.shared t.shared := by
  have hok : Does inspectProof retryDelay (FileCurrent inspectProof) s step := fun w hw _ _ _ hgo =>
    (h.alone w (hworker ▸ hw)).fileCurrent (advances_of_advance hgo)
  have hself : ∀ {w : Option Worker}, Function.update s.workers step.worker w 0 = w := by
    intro w
    rw [hworker]
    exact Function.update_self ..
  refine ⟨⟨sound_step s step t h.sound ht, attested_step h.attested hok ht, ?_⟩, ?_⟩
  · intro v hv
    rcases system_cases ht with ⟨run, rfl⟩ | ⟨w, effect, w', hw, hadv, rfl⟩ | rfl
    · cases hself.symm.trans hv
      exact ⟨trivial, fun _ hj => (nomatch hj), List.nodup_nil, fun _ hj => nomatch hj⟩
    · exact (alone_advances h.sound.shared (h.sound.worker _ _ hw) (h.alone w (hworker ▸ hw)) hadv).1 v
        (hself.symm.trans hv)
    · cases hself.symm.trans hv
  · rcases system_cases ht with ⟨run, rfl⟩ | ⟨w, effect, w', hw, hadv, rfl⟩ | rfl
    · exact .refl _
    · exact ⟨(inv_advances h.sound.shared (h.sound.worker _ _ hw) hadv).2.1,
        (alone_advances h.sound.shared (h.sound.worker _ _ hw) (h.alone w (hworker ▸ hw)) hadv).2⟩
    · exact .refl _

/-- Every run of the only worker leaves the table sound and keeps the settled rows. -/
theorem single_run {s t : State} {steps : List (Step J)} (h : Single inspectProof s)
    (halone : ∀ step ∈ steps, step.worker = 0)
    (hrun : run (system inspectProof retryDelay) s steps = some t) :
    Single inspectProof t ∧ Keeps s.shared t.shared := by
  induction steps generalizing s with
  | nil =>
    obtain rfl := run_nil.1 hrun
    exact ⟨h, .refl _⟩
  | cons step steps ih =>
    obtain ⟨u, hu, hrun⟩ := run_cons.1 hrun
    rw [List.forall_mem_cons] at halone
    obtain ⟨hsingle, hkeeps⟩ := single_step h halone.1 hu
    obtain ⟨ht, hkeeps'⟩ := ih hsingle halone.2 hrun
    exact ⟨ht, hkeeps.trans hkeeps'⟩

/-- **The proof lifecycle survives kills.**  In every state that one worker at a time can
reach, a row that was submitted has a proof that is bound to its tip, an upgraded one has
a Bitcoin proof, no row says that it was verified, and a row that has a file is never
stamped again. -/
theorem crash_safe {t : State} {steps : List (Step J)}
    (hrun : run (system inspectProof retryDelay) State.initial steps = some t)
    (halone : ∀ step ∈ steps, step.worker = 0) :
    (∀ id r, t.shared.store.row id = some r →
      ((r.state = .submittedPending ∨ r.state = .upgradedUnverified ∨
          r.state = .retryFailed ∧ r.retryFrom = some .submittedPending) →
        ∃ proof, t.shared.files r.proofPath = some proof ∧ inspectProof proof r.tipHash ≠ none) ∧
      (r.state = .upgradedUnverified →
        ∃ proof, t.shared.files r.proofPath = some proof ∧ inspectProof proof r.tipHash = some true) ∧
      r.state ≠ .independentlyVerified) ∧
    ∀ later u, run (system inspectProof retryDelay) t later = some u →
      (∀ step ∈ later, step.worker = 0) → ∀ id r, t.shared.store.row id = some r →
        t.shared.files r.proofPath ≠ none → ∀ w job, u.workers 0 = some w → w.phase = .stamp job →
          job.id ≠ id := by
  obtain ⟨ht, -⟩ := single_run single_initial halone hrun
  refine ⟨fun id r hr => ?_, fun later u hlater hlone id r hr hfile w job hw hp => ?_⟩
  · have hpath := (ht.sound.shared.lawful id r hr).path.2
    refine ⟨fun hsub => ?_, fun hup => ?_, (ht.sound.shared.lawful id r hr).state⟩
    · obtain ⟨proof, hproof⟩ := Option.ne_none_iff_exists'.1 (ht.sound.shared.backed id r hr hsub)
      exact ⟨proof, hproof, hpath ▸ ht.sound.shared.bound _ _ hproof⟩
    · obtain ⟨proof, hproof, hbitcoin⟩ := hasBitcoin_eq_true.1
        (ht.attested.shared.2.upgraded id r hr hup)
      exact ⟨proof, hproof, hpath ▸ hbitcoin⟩
  · rintro rfl
    obtain ⟨hu, hkeeps⟩ := single_run ht hlone hlater
    obtain ⟨r', hr', htip⟩ := hkeeps.extend.row _ _ hr
    have halone := (hu.alone w hw).phase
    rw [hp] at halone
    have hrow : job.row = r' := Option.some.inj (halone.1.symm.trans hr')
    refine hkeeps.extend.file _ hfile ?_
    rw [← htip.2.2, ← hrow]
    exact halone.2

section

/-- A worker that is killed after it has published the proof and before it updates the row,
and is then started again. -/
def killedSteps : List (Step Unit) :=
  begins 0 0 4 ++
    goes 0 [.returned (some (pendingProof (List.replicate 32 7) "https://a.org")), .done, .done] ++
    [⟨0, .kill⟩] ++ begins 0 1000000 7

/-- The row and its proof after the worker that was killed and the one that is started again. -/
theorem crash_safe_killed : ∃ t r proof,
    run (system inspectSample sampleDelay) State.initial killedSteps = some t ∧
    t.shared.store.row 0 = some r ∧ r.state = .submittedPending ∧
    t.shared.files r.proofPath = some proof ∧ inspectSample proof r.tipHash ≠ none := by
  have hrun : (run (system inspectSample sampleDelay) State.initial killedSteps).any (fun t =>
      (t.shared.store.row 0).any fun r => r.state = .submittedPending) = true := by
    decide +kernel
  obtain ⟨t, ht, hrow⟩ := (Option.any_eq_true _ _).1 hrun
  obtain ⟨r, hr, hstate⟩ := (Option.any_eq_true _ _).1 hrow
  obtain ⟨proof, hproof⟩ := ((crash_safe ht (by decide)).1 0 r hr).1 (Or.inl (of_decide_eq_true hstate))
  exact ⟨t, r, proof, ht, hr, of_decide_eq_true hstate, hproof⟩

end

/-! ### Rows that are picked up -/

/-- `due_jobs` returns the row at every time that is late enough. -/
def Schedulable (s : Shared) (id : ℕ) (r : Row) : Prop :=
  ∃ late ≤ maxTime, ∀ now, late ≤ now → ⟨id, r⟩ ∈ s.store.dueJobs now

/-- A lawful row is settled or will be due. -/
theorem schedulable_iff {s : Shared} (hs : s.Inv inspectProof) {id : ℕ} {r : Row}
    (hr : s.store.row id = some r) : Schedulable s id r ↔ ¬ r.Settled := by
  have hlawful := hs.lawful id r hr
  have hdue : ∀ {now}, ⟨id, r⟩ ∈ s.store.dueJobs now ↔ LifecycleStore.due now r :=
    mem_dueJobs.trans ⟨fun h => h.2.2, fun h => ⟨hs.bounded id r hr, hr, h⟩⟩
  constructor
  · rintro ⟨late, -, h⟩
    exact not_settled_of_due (hdue.1 (h late le_rfl))
  · intro hq
    have hnext : ∃ late ≤ maxTime, ∀ t ∈ r.nextAttempt, t ≤ late := by
      cases hn : r.nextAttempt with
      | none => exact ⟨0, Nat.zero_le _, fun t ht => nomatch ht⟩
      | some t => exact ⟨t, hlawful.time t hn, fun t' ht' => (Option.some.inj ht').ge⟩
    obtain ⟨late, hlate, hbefore⟩ := hnext
    refine ⟨late, hlate, fun now hnow => hdue.2 ?_⟩
    cases hstate : r.state with
    | queued => exact Or.inl hstate
    | submittedPending =>
      refine Or.inr (Or.inl ⟨hstate, ?_⟩)
      cases hn : r.nextAttempt with
      | none => exact Or.inl rfl
      | some t => exact Or.inr ⟨t, rfl, (hbefore t hn).trans hnow⟩
    | upgradedUnverified => exact absurd (Or.inl hstate) hq
    | independentlyVerified => exact absurd hstate hlawful.state
    | retryFailed =>
      rcases hlawful.failure hstate with ⟨hclass, -⟩ | ⟨hclass, hn⟩
      · exact absurd (Or.inr ⟨hstate, hclass⟩) hq
      · obtain ⟨t, ht⟩ := Option.ne_none_iff_exists'.1 hn
        exact Or.inr (Or.inr ⟨hstate, hclass, t, ht, (hbefore t ht).trans hnow⟩)

/-- **No job is stranded, and none that was put aside is revived.**  In every state that
one worker at a time can reach, a row is upgraded, or put aside, or will be due, and just
one of these; and no later run changes a row of the first two kinds. -/
theorem no_job_stranded {t : State} {steps : List (Step J)}
    (hrun : run (system inspectProof retryDelay) State.initial steps = some t)
    (halone : ∀ step ∈ steps, step.worker = 0) (id : ℕ) (r : Row)
    (hr : t.shared.store.row id = some r) :
    (r.state = .upgradedUnverified ∧ ¬ r.Quarantined ∧ ¬ Schedulable t.shared id r ∨
      r.state ≠ .upgradedUnverified ∧ (r.Quarantined ∧ r.nextAttempt = none) ∧
        ¬ Schedulable t.shared id r ∨
      r.state ≠ .upgradedUnverified ∧ ¬ r.Quarantined ∧ Schedulable t.shared id r) ∧
    (r.Settled → ∀ later u, run (system inspectProof retryDelay) t later = some u →
      (∀ step ∈ later, step.worker = 0) → u.shared.store.row id = some r) := by
  obtain ⟨ht, -⟩ := single_run single_initial halone hrun
  have hsched := schedulable_iff ht.sound.shared hr
  refine ⟨?_, fun hq later u hlater hlone => (single_run ht hlone hlater).2.settled id r hr hq⟩
  by_cases hup : r.state = .upgradedUnverified
  · exact Or.inl ⟨hup, fun hq => (nomatch hup.symm.trans hq.1), fun h => hsched.1 h (Or.inl hup)⟩
  · by_cases hq : r.Quarantined
    · refine Or.inr (Or.inl ⟨hup, ⟨hq, ?_⟩, fun h => hsched.1 h (Or.inr hq)⟩)
      rcases (ht.sound.shared.lawful id r hr).failure hq.1 with ⟨-, hn⟩ | ⟨hclass, -⟩
      · exact hn
      · cases hclass.symm.trans hq.2
    · exact Or.inr (Or.inr ⟨hup, hq, hsched.2 fun h => h.elim hup hq⟩)

/-- The row that a kill leaves behind will be due. -/
theorem no_job_stranded_killed : ∃ t r,
    run (system inspectSample sampleDelay) State.initial killedSteps = some t ∧
    t.shared.store.row 0 = some r ∧ Schedulable t.shared 0 r := by
  have hrun : (run (system inspectSample sampleDelay) State.initial killedSteps).any (fun t =>
      (t.shared.store.row 0).any fun r => r.state = .submittedPending) = true := by
    decide +kernel
  obtain ⟨t, ht, hrow⟩ := (Option.any_eq_true _ _).1 hrun
  obtain ⟨r, hr, hstate⟩ := (Option.any_eq_true _ _).1 hrow
  have hpending := of_decide_eq_true hstate
  refine ⟨t, r, ht, hr, ?_⟩
  rcases (no_job_stranded ht (by decide) 0 r hr).1 with ⟨hup, -⟩ | ⟨-, ⟨hq, -⟩, -⟩ | ⟨-, -, h⟩
  · cases hpending.symm.trans hup
  · cases hpending.symm.trans hq.1
  · exact h

end Anchor
end Vestrix
