/-
# What a worker can do

`Advances` is every way that a worker goes on, with what it has found on the way and
without the replies that led there.  The invariants of the other modules are about
`Advances`; only `advances_of_advance` looks into `run_once`.

The updates of the table are told the same way: each finds the row of a job in a certain
state, and what it leaves there is a function of that row.
-/

import Vestrix.Anchor.Lifecycle

namespace Vestrix
namespace Anchor

open Outcome Transition

/-! ### Updates -/

/-- The state that a proof leads to. -/
def targetState (bitcoin : Bool) : Lifecycle :=
  if bitcoin = true then .upgradedUnverified else .submittedPending

/-- A row after a successful operation. -/
def Row.finished (row : Row) (bitcoin : Bool) (now : ℕ) (next : Option ℕ) : Row :=
  { row with
    state := targetState bitcoin, lastAttempt := some now, nextAttempt := next, lastError := none,
    retryFrom := none, failureClass := none }

/-- A row after a failed operation. -/
def Row.failed (row : Row) (job : Job) (failureClass : Option FailureClass) (error : Cause) (now : ℕ)
    (next : Option ℕ) : Row :=
  { row with
    state := .retryFailed, attemptCount := job.row.attemptCount + 1, lastAttempt := some now,
    nextAttempt := next, lastError := some error, retryFrom := some job.row.state,
    failureClass := failureClass }

/-- A row whose retry has begun. -/
def Row.resumed (row : Row) (retryFrom : Lifecycle) : Row :=
  { row with state := retryFrom, nextAttempt := none, failureClass := none }

/-- A job that a worker is working on. -/
def Job.Active (job : Job) : Prop := job.row.state = .queued ∨ job.row.state = .submittedPending

section

variable {store : LifecycleStore} {job : Job} {row : Row} {now : ℕ}

/-- `UPDATE ... WHERE id = ? AND state = ?` changes the row that has this state. -/
theorem updateWhere_eq_some {id : ℕ} {state : Lifecycle} {f : Row → Row} :
    store.updateWhere id state f = some row ↔
      ∃ r, store.row id = some r ∧ r.state = state ∧ row = f r := by
  rw [LifecycleStore.updateWhere, Option.bind_eq_some_iff]
  refine exists_congr fun r => and_congr_right fun _ => ?_
  rw [Option.ite_none_right_eq_some, Option.some.injEq, eq_comm (a := row)]

/-- `transition` finds the row in the state of the job, and finishes it. -/
theorem transition_eq_ok {b : Bool} {next : Option ℕ}
    (h : store.transition job (targetState b) now next = .ok row) :
    ∃ r, store.row job.id = some r ∧ r.state = job.row.state ∧ row = r.finished b now next := by
  obtain ⟨-, -, h⟩ := bind_eq_ok.1 h
  exact updateWhere_eq_some.1 (orError_eq_ok.1 h)

/-- `pending_checked` finds the row in `submitted_pending`, and sets its next check. -/
theorem pendingChecked_eq_ok {next : ℕ} (h : store.pendingChecked job now next = .ok row) :
    ∃ r, store.row job.id = some r ∧ r.state = .submittedPending ∧
      row = r.finished false now (some next) := by
  obtain ⟨r, hr, hstate, hrow⟩ := updateWhere_eq_some.1 (orError_eq_ok.1 h)
  exact ⟨r, hr, hstate, hrow.trans (by rw [Row.finished, targetState, if_neg (by decide), ← hstate])⟩

/-- A time that can be added to is not after the last date. -/
theorem addTime_eq_ok {duration t : ℕ} (h : addTime now duration = .ok t) : t ≤ maxTime := by
  rw [addTime] at h
  split_ifs at h with hle
  exact Except.ok.inj h ▸ hle

/-- The update after a proof finds the row in the state of the job, and finishes it with a next
check up to the last date. -/
theorem finish_eq_ok {bitcoin : Bool} (hjob : job.Active) (h : finish store job now bitcoin = .ok row) :
    ∃ r next, store.row job.id = some r ∧ r.state = job.row.state ∧
      (∀ t ∈ next, t ≤ maxTime) ∧ row = r.finished bitcoin now next := by
  have hnone : ∀ t ∈ (none : Option ℕ), t ≤ maxTime := fun t ht => nomatch ht
  have hsome : ∀ {next}, nextPendingAttempt job now = .ok next → ∀ t ∈ some next, t ≤ maxTime := by
    intro next hnext t ht
    cases ht
    exact addTime_eq_ok hnext
  rw [finish] at h
  split_ifs at h with hqueued hbitcoin hbitcoin
  · obtain rfl := hbitcoin
    obtain ⟨r, hr, hstate, hrow⟩ := transition_eq_ok (b := true) h
    exact ⟨r, none, hr, hstate, hnone, hrow⟩
  · rw [Bool.not_eq_true] at hbitcoin
    subst hbitcoin
    obtain ⟨next, hnext, h⟩ := bind_eq_ok.1 h
    obtain ⟨r, hr, hstate, hrow⟩ := transition_eq_ok (b := false) h
    exact ⟨r, some next, hr, hstate, hsome hnext, hrow⟩
  · obtain rfl := hbitcoin
    obtain ⟨r, hr, hstate, hrow⟩ := transition_eq_ok (b := true) h
    exact ⟨r, none, hr, hstate, hnone, hrow⟩
  · rw [Bool.not_eq_true] at hbitcoin
    subst hbitcoin
    obtain ⟨next, hnext, h⟩ := bind_eq_ok.1 h
    obtain ⟨r, hr, hstate, hrow⟩ := pendingChecked_eq_ok h
    exact ⟨r, some next, hr, hstate.trans (hjob.resolve_left hqueued).symm, hsome hnext, hrow⟩

/-- `record_failure` finds the row in the state of the job, and writes the failure with the attempts
of the copy. -/
theorem recordFailure_eq_ok {failureClass : Option FailureClass} {error : Cause} {next : Option ℕ}
    (h : store.recordFailure job failureClass error now next = .ok row) :
    ∃ r, store.row job.id = some r ∧ r.state = job.row.state ∧
      row = r.failed job failureClass error now next := by
  obtain ⟨-, -, h⟩ := bind_eq_ok.1 h
  exact updateWhere_eq_some.1 (orError_eq_ok.1 h)

/-- `resume_retry` finds the row in `retry_failed`, and sets the state that the copy goes back to. -/
theorem resumeRetry_eq_ok (h : store.resumeRetry job = .ok row) :
    ∃ r retryFrom, store.row job.id = some r ∧ r.state = .retryFailed ∧
      job.row.state = .retryFailed ∧ job.row.retryFrom = some retryFrom ∧
      row = r.resumed retryFrom := by
  obtain ⟨retryFrom, hretry, h⟩ := bind_eq_ok.1 h
  obtain ⟨_, hstate, h⟩ := bind_eq_ok.1 h
  obtain ⟨r, hr, hfailed, hrow⟩ := updateWhere_eq_some.1 (orError_eq_ok.1 h)
  exact ⟨r, retryFrom, hr, hfailed, (require_eq_ok.1 hstate).1, orError_eq_ok.1 hretry, hrow⟩

/-- The jobs are the rows of the table. -/
theorem mem_jobs {j : Job} : j ∈ store.jobs ↔ j.id < store.count ∧ store.row j.id = some j.row := by
  rw [LifecycleStore.jobs, List.mem_filterMap]
  simp only [List.mem_range, Option.map_eq_some_iff]
  constructor
  · rintro ⟨id, hid, r, hr, rfl⟩
    exact ⟨hid, hr⟩
  · rintro ⟨hid, hr⟩
    exact ⟨j.id, hid, j.row, hr, rfl⟩

/-- The due jobs are the rows that are due. -/
theorem mem_dueJobs {j : Job} : j ∈ store.dueJobs now ↔
    j.id < store.count ∧ store.row j.id = some j.row ∧ LifecycleStore.due now j.row := by
  rw [LifecycleStore.dueJobs, (List.perm_insertionSort _ _).mem_iff, List.mem_filter, mem_jobs,
    decide_eq_true_eq, and_assoc]

/-- Each row is one job. -/
theorem nodup_dueJobs : ((store.dueJobs now).map Job.id).Nodup := by
  have hjobs : (store.jobs.map Job.id).Nodup := by
    have hids : store.jobs.map Job.id = (List.range store.count).filter
        fun id => (store.row id).isSome := by
      rw [LifecycleStore.jobs, List.map_filterMap, ← List.filterMap_eq_filter]
      refine List.filterMap_congr fun id _ => ?_
      cases h : store.row id with
      | none => simp [Option.guard, h]
      | some r => simp [Option.guard, h]
    rw [hids]
    exact List.nodup_range.filter _
  have hperm := ((List.perm_insertionSort (fun a b : Job => a.row.sequence ≤ b.row.sequence)
    (store.jobs.filter fun job => LifecycleStore.due now job.row)).map Job.id).nodup_iff
  exact hperm.2 (hjobs.sublist (List.filter_sublist.map _))

/-- `get` returns a row of its sequence and tip. -/
theorem get_eq_some {sequence : ℕ} {tipHash : List UInt8} {j : Job}
    (h : store.get sequence tipHash = some j) : store.row j.id = some j.row ∧
      j.row.sequence = sequence ∧ j.row.tipHash = tipHash := by
  have htip := List.find?_some h
  rw [decide_eq_true_eq] at htip
  exact ⟨(mem_jobs.1 (List.mem_of_find?_eq_some h)).2, htip⟩

/-- What `track_tip` inserts, and that no row has its tip. -/
theorem trackTip_eq_some {run : Run} (h : store.trackTip run.sequence run.tipHash run.proofPath
      run.intervalMinutes run.confirmationThreshold = some row) :
    (∀ j ∈ store.jobs, ¬ (j.row.sequence = run.sequence ∧ j.row.tipHash = run.tipHash)) ∧
      row = ⟨run.sequence, run.tipHash, .queued, run.proofPath, 0, none, none, none, none, none,
        run.intervalMinutes, run.confirmationThreshold⟩ := by
  rw [LifecycleStore.trackTip] at h
  split at h
  · cases h
  · rename_i hnone
    refine ⟨fun j hj => ?_, (Option.some.inj h).symm⟩
    have := List.find?_eq_none.1 hnone j hj
    rwa [decide_eq_true_eq] at this

end

/-! ### Steps -/

/-- The job of a phase at which an exception is a failure of the job. -/
def Phase.job? : Phase → Option Job
  | .process job => some job
  | .read job => some job
  | .stamp job => some job
  | .upgrade job _ => some job
  | .publish job _ _ _ => some job
  | .rename job _ _ _ => some job
  | .update job _ => some job
  | _ => none

/-- Every way that a worker goes on. -/
inductive Advances (inspectProof : List UInt8 → List UInt8 → Option Bool) (s : Shared) (w : Worker) :
    Effect → Option Worker → Prop where
  | stop : Advances inspectProof s w .silent none
  | track {run row} (hphase : w.phase = .track run)
      (htrack : s.store.trackTip run.sequence run.tipHash run.proofPath run.intervalMinutes
        run.confirmationThreshold = some row) :
      Advances inspectProof s w (.insert row) (some { w with phase := .select })
  | tracked {run} (hphase : w.phase = .track run) :
      Advances inspectProof s w .silent (some { w with phase := .select })
  | select {jobs} (hphase : w.phase = .select) (hjobs : jobs.Perm (s.store.dueJobs w.now)) :
      Advances inspectProof s w .silent (some { w with phase := .next, rest := jobs })
  | resume {job rest row} (hphase : w.phase = .next) (hrest : w.rest = job :: rest)
      (hresume : s.store.resumeRetry job = .ok row) :
      Advances inspectProof s w (.write job.id row none)
        (some { w with phase := .reread job, rest := rest })
  | take {job rest} (hphase : w.phase = .next) (hrest : w.rest = job :: rest) :
      Advances inspectProof s w .silent (some { w with phase := .process job, rest := rest })
  | reread {old job} (hphase : w.phase = .reread old)
      (hget : s.store.get old.row.sequence old.row.tipHash = some job) :
      Advances inspectProof s w .silent (some { w with phase := .process job })
  | skip {job} (hphase : w.phase = .process job) :
      Advances inspectProof s w .silent (some { w with phase := .next })
  | unstamped {job} (hphase : w.phase = .process job) (hjob : job.Active)
      (hfile : s.files job.row.proofPath = none) :
      Advances inspectProof s w .silent (some { w with phase := .stamp job })
  | found {job} (hphase : w.phase = .process job) (hjob : job.Active) :
      Advances inspectProof s w .silent (some { w with phase := .read job })
  | pending {job proof} (hphase : w.phase = .read job)
      (hfile : s.files job.row.proofPath = some proof)
      (hproof : inspectProof proof job.row.tipHash = some false) :
      Advances inspectProof s w .silent (some { w with phase := .upgrade job proof })
  | complete {job proof bitcoin} (hphase : w.phase = .read job)
      (hfile : s.files job.row.proofPath = some proof)
      (hproof : inspectProof proof job.row.tipHash = some bitcoin) :
      Advances inspectProof s w .silent (some { w with phase := .update job bitcoin })
  | stamped {job proof bitcoin} (hphase : w.phase = .stamp job)
      (hproof : inspectProof proof job.row.tipHash = some bitcoin) :
      Advances inspectProof s w .silent (some { w with phase := .publish job proof bitcoin false })
  | upgraded {job old proof bitcoin} (hphase : w.phase = .upgrade job old)
      (hproof : inspectProof proof job.row.tipHash = some bitcoin) :
      Advances inspectProof s w .silent (some { w with phase := .publish job proof bitcoin true })
  | unchanged {job old} (hphase : w.phase = .upgrade job old) :
      Advances inspectProof s w .silent (some { w with phase := .update job false })
  | publish {job proof bitcoin replace} (hphase : w.phase = .publish job proof bitcoin replace)
      (hfile : replace = false → s.files job.row.proofPath = none) :
      Advances inspectProof s w .silent (some { w with phase := .rename job proof bitcoin replace })
  | rename {job proof bitcoin replace} (hphase : w.phase = .rename job proof bitcoin replace) :
      Advances inspectProof s w (.put job.row.proofPath proof replace)
        (some { w with phase := .update job bitcoin })
  | update {job bitcoin row} (hphase : w.phase = .update job bitcoin)
      (hfinish : finish s.store job w.now bitcoin = .ok row) :
      Advances inspectProof s w (.write job.id row none) (some { w with phase := .next })
  | giveUp {job failureClass error} (hphase : w.phase.job? = some job)
      (hjob : ∀ job, w.phase = .process job → job.Active) :
      Advances inspectProof s w .silent (some { w with phase := .fail job failureClass error })
  | fail {job failureClass error next row} (hphase : w.phase = .fail job failureClass error)
      (hnext : failureClass = .integrity ∧ next = none ∨ failureClass = .transient ∧ next ≠ none)
      (htime : ∀ t ∈ next, t ≤ maxTime)
      (hrecord : s.store.recordFailure job (some failureClass) error w.now next = .ok row) :
      Advances inspectProof s w (.write job.id row (some failureClass)) (some { w with phase := .next })

variable {J : Type} {inspectProof : List UInt8 → List UInt8 → Option Bool}
  {retryDelay : ℕ → J → Option ℕ} {s : Shared} {w : Worker} {reply : Reply J} {effect : Effect}
  {w' : Option Worker}

/-- The call of the backend, with the phase that a proof leads to. -/
theorem advances_of_backendStep {job : Job} {replace : Bool} {phase : Option Phase}
    (hphase : w.phase = .stamp job ∧ replace = false ∨
      (∃ old, w.phase = .upgrade job old) ∧ replace = true)
    (h : backendStep inspectProof job replace reply = some phase) :
    Advances inspectProof s w .silent (phase.map fun phase => { w with phase := phase }) := by
  have hjob : w.phase.job? = some job := by
    rcases hphase with ⟨hphase, -⟩ | ⟨⟨old, hphase⟩, -⟩ <;> rw [hphase] <;> rfl
  have hfail : ∀ {failureClass error}, Advances inspectProof s w .silent
      (some { w with phase := .fail job failureClass error }) := fun {_ _} =>
    .giveUp hjob (by rcases hphase with ⟨hphase, -⟩ | ⟨⟨old, hphase⟩, -⟩ <;> simp [hphase])
  rw [backendStep.eq_def] at h
  split at h
  · split at h
    · rename_i proof bitcoin hproof
      cases h
      rcases hphase with ⟨hphase, rfl⟩ | ⟨⟨old, hphase⟩, rfl⟩
      · exact .stamped hphase hproof
      · exact .upgraded hphase hproof
    · cases h
      exact hfail
  · split_ifs at h with hreplace
    · cases h
      rcases hphase with ⟨-, hfalse⟩ | ⟨⟨old, hphase⟩, -⟩
      · rw [hfalse] at hreplace
        cases hreplace
      · exact .unchanged hphase
    · cases h
      exact hfail
  · cases h
    exact .stop
  · cases h
    exact hfail
  · cases h
    exact hfail
  · cases h

/-- The first look at the proof of a job is a step without an effect. -/
theorem advances_of_processStep {job : Job} {directory : Bool} (hphase : w.phase = .process job) :
    Advances inspectProof s w .silent (some { w with phase := processStep s job directory }) := by
  rw [processStep]
  split
  · rename_i hstate
    split
    · rename_i hfile
      exact .unstamped hphase (Or.inl hstate) hfile.1
    · exact .found hphase (Or.inl hstate)
  · rename_i hstate
    split
    · refine .giveUp (by rw [hphase]; rfl) fun job' hphase' => ?_
      obtain rfl := Phase.process.inj (hphase.symm.trans hphase')
      exact Or.inr hstate
    · exact .found hphase (Or.inr hstate)
  · exact .skip hphase

/-- **A step of a worker is one of those** that `Advances` lists. -/
theorem advances_of_advance (h : advance inspectProof retryDelay s w reply = some (effect, w')) :
    Advances inspectProof s w effect w' := by
  rw [advance.eq_def] at h
  split at h
  · rename_i run hphase
    split at h
    · rename_i row htrack
      cases h
      exact .track hphase htrack
    · cases h
      exact .tracked hphase
  · rename_i hphase
    cases h
    exact .select hphase (.refl _)
  · rename_i jobs hphase
    split_ifs at h with hjobs
    cases h
    exact .select hphase hjobs
  · rename_i hphase
    split at h
    · cases h
      exact .stop
    · rename_i job rest hrest
      split at h
      · split at h
        · rename_i row hresume
          cases h
          exact .resume hphase hrest hresume
        · cases h
          exact .stop
      · cases h
        exact .take hphase hrest
  · rename_i old hphase
    split at h
    · rename_i job hget
      cases h
      exact .reread hphase hget
    · cases h
      exact .stop
  · rename_i job hphase
    cases h
    exact advances_of_processStep hphase
  · rename_i job hphase
    cases h
    exact advances_of_processStep hphase
  · rename_i job hphase
    split at h
    · rename_i proof hfile
      cases h
      rw [readStep]
      split
      · exact .giveUp (by rw [hphase]; rfl) (by simp [hphase])
      · rename_i bitcoin hproof
        split_ifs with hpending
        · obtain ⟨-, rfl⟩ := hpending
          exact .pending hphase hfile hproof
        · exact .complete hphase hfile hproof
    · cases h
      exact .giveUp (by rw [hphase]; rfl) (by simp [hphase])
  · rename_i job hphase
    cases h
    exact .giveUp (by rw [hphase]; rfl) (by simp [hphase])
  · rename_i job hphase
    obtain ⟨phase, hback, hw⟩ := Option.map_eq_some_iff.1 h
    cases hw
    exact advances_of_backendStep (Or.inl ⟨hphase, rfl⟩) hback
  · rename_i job old hphase
    obtain ⟨phase, hback, hw⟩ := Option.map_eq_some_iff.1 h
    cases hw
    exact advances_of_backendStep (Or.inr ⟨⟨old, hphase⟩, rfl⟩) hback
  · rename_i job proof bitcoin replace hphase
    cases h
    rw [publishStep]
    split_ifs with hempty hexists
    · exact .giveUp (by rw [hphase]; rfl) (by simp [hphase])
    · exact .giveUp (by rw [hphase]; rfl) (by simp [hphase])
    · exact .publish hphase fun hreplace => not_not.1 fun hfile => hexists ⟨hreplace, hfile⟩
  · rename_i job proof bitcoin replace hphase
    cases h
    exact .giveUp (by rw [hphase]; rfl) (by simp [hphase])
  · rename_i job proof bitcoin replace hphase
    cases h
    exact .giveUp (by rw [hphase]; rfl) (by simp [hphase])
  · rename_i job proof bitcoin replace hphase
    cases h
    exact .rename hphase
  · rename_i job proof bitcoin replace hphase
    cases h
    exact .giveUp (by rw [hphase]; rfl) (by simp [hphase])
  · rename_i job bitcoin hphase
    split at h
    · rename_i row hfinish
      cases h
      exact .update hphase hfinish
    · cases h
      exact .giveUp (by rw [hphase]; rfl) (by simp [hphase])
  · rename_i job failureClass error hphase
    obtain ⟨result, hresult, hw⟩ := Option.map_eq_some_iff.1 h
    rw [failStep.eq_def] at hresult
    split at hresult
    · cases hresult
      split at hw
      · rename_i row hrecord
        cases hw
        exact .fail hphase (Or.inl ⟨rfl, rfl⟩) (fun t ht => nomatch ht) hrecord
      · cases hw
        exact .stop
    · cases hresult
      split at hw
      · rename_i row hrecord
        cases hw
        obtain ⟨delay, -, hrecord⟩ := bind_eq_ok.1 hrecord
        obtain ⟨next, hnext, hrecord⟩ := bind_eq_ok.1 hrecord
        refine .fail hphase (Or.inr ⟨rfl, Option.some_ne_none _⟩) (fun t ht => ?_) hrecord
        exact Option.some.inj ht ▸ addTime_eq_ok hnext
      · cases hw
        exact .stop
    · cases hresult
  · cases h

/-- A worker puts a file in place when its rename succeeds. -/
theorem advance_put {path : ProofPath} {proof : List UInt8} {replace : Bool}
    (h : advance inspectProof retryDelay s w reply = some (.put path proof replace, w')) :
    ∃ job bitcoin, w.phase = .rename job proof bitcoin replace ∧ reply = .done ∧
      path = job.row.proofPath := by
  cases advances_of_advance h with
  | @rename job _ bitcoin _ hp =>
    refine ⟨job, bitcoin, hp, ?_, rfl⟩
    rw [advance.eq_def, hp] at h
    cases reply with
    | done => rfl
    | osError => cases h
    | _ => cases h

/-- A step of the system, as its worker takes it: it begins, goes on, or is killed. -/
theorem system_eq_some {s t : State} {step : Step J}
    (ht : system inspectProof retryDelay s step = some t) :
    (∃ run : Run, t = ⟨s.shared,
      Function.update s.workers step.worker (some ⟨run.now, .track run, []⟩)⟩) ∨
    (∃ w reply effect w', s.workers step.worker = some w ∧ step.action = .go reply ∧
      advance inspectProof retryDelay s.shared w reply = some (effect, w') ∧
      t = ⟨s.shared.apply effect, Function.update s.workers step.worker w'⟩) ∨
    t = ⟨s.shared, Function.update s.workers step.worker none⟩ := by
  rw [system.eq_def] at ht
  split at ht
  · rename_i run _ _
    cases ht
    exact Or.inl ⟨run, rfl⟩
  · rename_i reply w haction hw
    obtain ⟨⟨effect, w'⟩, hgo, rfl⟩ := Option.map_eq_some_iff.1 ht
    exact Or.inr (Or.inl ⟨w, reply, effect, w', hw, haction, hgo, rfl⟩)
  · cases ht
    exact Or.inr (Or.inr rfl)
  · cases ht

/-- **What happens in one step** of the system: a worker begins, goes on, or is killed. -/
theorem system_cases {s t : State} {step : Step J}
    (ht : system inspectProof retryDelay s step = some t) :
    (∃ run : Run, t = ⟨s.shared,
      Function.update s.workers step.worker (some ⟨run.now, .track run, []⟩)⟩) ∨
    (∃ w effect w', s.workers step.worker = some w ∧ Advances inspectProof s.shared w effect w' ∧
      t = ⟨s.shared.apply effect, Function.update s.workers step.worker w'⟩) ∨
    t = ⟨s.shared, Function.update s.workers step.worker none⟩ := by
  rcases system_eq_some ht with h | ⟨w, reply, effect, w', hw, -, hgo, rfl⟩ | h
  · exact Or.inl h
  · exact Or.inr (Or.inl ⟨w, effect, w', hw, advances_of_advance hgo, rfl⟩)
  · exact Or.inr (Or.inr h)

end Anchor
end Vestrix
