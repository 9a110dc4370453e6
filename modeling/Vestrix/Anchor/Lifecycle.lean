/-
# The anchor worker

`anchor_worker.py`: the SQLite table of anchors, the proof files, and `run_once`.  Several
workers may share the table and the files; each is at some phase of `run_once`, with the
copies of the rows that it has read.

A phase ends at a point where another worker, or a kill, can come between: `advance` says
what a worker does next, as one effect on what is shared and the phase it goes on with.
What the calendars, the file system and the random numbers answer is the step's reply.

The backend is the environment.  `inspect_proof` is a parameter: whether a proof is well
formed and bound to a digest, and then whether it has a Bitcoin attestation.  So is the
delay before a retry, which is floating-point arithmetic.  A digest stands for its
hexadecimal text, a time for its microseconds, and a proof path for the directory and
the two parts of the file's name.
-/

import Vestrix.Outcome
import Vestrix.Transition
import Vestrix.Text.Digits
import Mathlib.Data.List.Sort

namespace Vestrix
namespace Anchor

open Text Outcome Transition

/-! ### Rows -/

/-- `STATES`. -/
inductive Lifecycle where
  | queued
  | submittedPending
  | upgradedUnverified
  | independentlyVerified
  | retryFailed
deriving DecidableEq

/-- The values of `failure_class`. -/
inductive FailureClass where
  | transient
  | integrity
deriving DecidableEq

/-- What a failure is recorded with. -/
inductive Cause where
  | raised
  | integrity
  | missingProof
  | readError
  | mkdirError
  | notDirectory
  | writeError
  | emptyProof
  | fileExists
  | overflow
  | forbidden
  | concurrent
deriving DecidableEq

/-- The path of a proof file. -/
structure ProofPath where
  directory : Str
  sequence : ℕ
  tipHash : List UInt8
deriving DecidableEq

/-- The name of a proof: `f"{sequence}-{tip_hash}.ots"`. -/
def ProofPath.name (path : ProofPath) : List Char :=
  numeral path.sequence ++ '-' :: hex path.tipHash ++ ".ots".toList

/-- A row of `anchors`, less its key and the columns that nothing here reads. -/
structure Row where
  sequence : ℕ
  tipHash : List UInt8
  state : Lifecycle
  proofPath : ProofPath
  attemptCount : ℕ
  lastAttempt : Option ℕ
  nextAttempt : Option ℕ
  lastError : Option Cause
  retryFrom : Option Lifecycle
  failureClass : Option FailureClass
  intervalMinutes : ℕ
  confirmationThreshold : ℕ
deriving DecidableEq

/-- A row that a worker has read, with its key. -/
structure Job where
  id : ℕ
  row : Row
deriving DecidableEq

/-- `RETRY_SOURCES`. -/
def retrySources : List Lifecycle := [.queued, .submittedPending, .upgradedUnverified]

/-- `ALLOWED_TRANSITIONS`. -/
def allowedTransitions : Lifecycle → List Lifecycle
  | .queued => [.submittedPending, .upgradedUnverified, .retryFailed]
  | .submittedPending => [.upgradedUnverified, .retryFailed]
  | .upgradedUnverified => [.retryFailed]
  | .retryFailed => retrySources
  | .independentlyVerified => []

/-! ### The table -/

/-- The table `anchors`. -/
structure LifecycleStore where
  count : ℕ
  row : ℕ → Option Row

namespace LifecycleStore

variable (store : LifecycleStore)

/-- The rows, with their keys. -/
def jobs : List Job :=
  (List.range store.count).filterMap fun id => (store.row id).map fun row => ⟨id, row⟩

/-- `get`. -/
def get (sequence : ℕ) (tipHash : List UInt8) : Option Job :=
  store.jobs.find? fun job => job.row.sequence = sequence ∧ job.row.tipHash = tipHash

/-- The row that `track_tip` inserts, unless there is one of its sequence and tip. -/
def trackTip (sequence : ℕ) (tipHash : List UInt8) (proofPath : ProofPath)
    (intervalMinutes confirmationThreshold : ℕ) : Option Row :=
  match store.get sequence tipHash with
  | some _ => none
  | none => some ⟨sequence, tipHash, .queued, proofPath, 0, none, none, none, none, none,
      intervalMinutes, confirmationThreshold⟩

/-- The condition of `due_jobs`. -/
def due (now : ℕ) (row : Row) : Prop :=
  row.state = .queued ∨
  (row.state = .submittedPending ∧ (row.nextAttempt = none ∨ ∃ t ∈ row.nextAttempt, t ≤ now)) ∨
  (row.state = .retryFailed ∧ row.failureClass = some .transient ∧ ∃ t ∈ row.nextAttempt, t ≤ now)

instance decidableDue (now : ℕ) (row : Row) : Decidable (due now row) :=
  inferInstanceAs (Decidable (_ ∨ _ ∧ (_ ∨ _) ∨ _ ∧ _ ∧ _))

/-- `due_jobs`, with the rows of one sequence in the order of their keys, which `ORDER BY sequence`
leaves open. -/
def dueJobs (now : ℕ) : List Job :=
  (store.jobs.filter fun job => due now job.row).insertionSort fun a b =>
    a.row.sequence ≤ b.row.sequence

/-- What `UPDATE … WHERE id = ? AND state = ?` makes of the one row that it finds. -/
def updateWhere (id : ℕ) (state : Lifecycle) (f : Row → Row) : Option Row :=
  (store.row id).bind fun row => if row.state = state then some (f row) else none

/-- `transition`. -/
def transition (job : Job) (state : Lifecycle) (now : ℕ) (nextAttempt : Option ℕ) :
    Except Cause Row := do
  require (state ∈ allowedTransitions job.row.state) .forbidden
  orError .concurrent (store.updateWhere job.id job.row.state fun row =>
    { row with
      state := state, lastAttempt := some now, nextAttempt := nextAttempt, lastError := none,
      retryFrom := none, failureClass := none })

/-- `pending_checked`. -/
def pendingChecked (job : Job) (now nextAttempt : ℕ) : Except Cause Row :=
  orError .concurrent (store.updateWhere job.id .submittedPending fun row =>
    { row with
      lastAttempt := some now, nextAttempt := some nextAttempt, lastError := none,
      retryFrom := none, failureClass := none })

/-- `record_failure`, which writes the class that it is given: the column may be NULL. -/
def recordFailure (job : Job) (failureClass : Option FailureClass) (error : Cause) (now : ℕ)
    (nextAttempt : Option ℕ) : Except Cause Row := do
  require (job.row.state ∈ retrySources) .forbidden
  orError .concurrent (store.updateWhere job.id job.row.state fun row =>
    { row with
      state := .retryFailed, attemptCount := job.row.attemptCount + 1, lastAttempt := some now,
      nextAttempt := nextAttempt, lastError := some error, retryFrom := some job.row.state,
      failureClass := failureClass })

/-- `resume_retry`, up to the row that it returns. -/
def resumeRetry (job : Job) : Except Cause Row := do
  let retryFrom ← orError .forbidden job.row.retryFrom
  require (job.row.state = .retryFailed ∧ retryFrom ∈ retrySources) .forbidden
  orError .concurrent (store.updateWhere job.id .retryFailed fun row =>
    { row with state := retryFrom, nextAttempt := none, failureClass := none })

end LifecycleStore

/-! ### A worker -/

/-- What one call of `run_once` is about: the tip that `snapshot_tip` returns, the
configuration and the time. -/
structure Run where
  sequence : ℕ
  tipHash : List UInt8
  proofDirectory : Str
  intervalMinutes : ℕ
  confirmationThreshold : ℕ
  now : ℕ
deriving DecidableEq

/-- The path of the proof of a tip. -/
def Run.proofPath (run : Run) : ProofPath := ⟨run.proofDirectory, run.sequence, run.tipHash⟩

/-- How far a worker is. -/
inductive Phase where
  | track (run : Run)
  | select
  | next
  | reread (job : Job)
  | process (job : Job)
  | read (job : Job)
  | stamp (job : Job)
  | upgrade (job : Job) (proof : List UInt8)
  | publish (job : Job) (proof : List UInt8) (bitcoin replace : Bool)
  | rename (job : Job) (proof : List UInt8) (bitcoin replace : Bool)
  | update (job : Job) (bitcoin : Bool)
  | fail (job : Job) (failureClass : FailureClass) (error : Cause)
deriving DecidableEq

/-- A worker that is running, and the jobs that it has not begun. -/
structure Worker where
  now : ℕ
  phase : Phase
  rest : List Job
deriving DecidableEq

/-- What comes back to a worker from a call. -/
inductive Reply (J : Type) where
  | done
  | rows (jobs : List Job)
  | directory
  | notDirectory
  | osError
  | returned (proof : Option (List UInt8))
  | raisedConfiguration
  | raisedIntegrity
  | raisedOther
  | sample (jitter : J)
deriving DecidableEq

/-- What a step does to the table or to the files. -/
inductive Effect where
  | silent
  | insert (row : Row)
  | write (id : ℕ) (row : Row) (failure : Option FailureClass)
  | put (path : ProofPath) (proof : List UInt8) (replace : Bool)
deriving DecidableEq

/-- The table and the files, with the calls of `record_failure` that have succeeded and the
files that have been published with `replace=False`. -/
structure Shared where
  store : LifecycleStore
  files : ProofPath → Option (List UInt8)
  failures : List (ℕ × FailureClass)
  created : List ProofPath

/-- What the workers share, and the workers. -/
structure State where
  shared : Shared
  workers : ℕ → Option Worker

/-- `datetime.max`. -/
def maxTime : ℕ := 315537897599999999

/-- A sum of a time and a duration, unless it overflows. -/
def addTime (now duration : ℕ) : Except Cause ℕ :=
  if now + duration ≤ maxTime then .ok (now + duration) else .error .overflow

/-- `_next_pending_attempt`. -/
def nextPendingAttempt (job : Job) (now : ℕ) : Except Cause ℕ :=
  addTime now (job.row.intervalMinutes * 60000000)

/-- The row update that ends `_process_queued` or `_process_pending`. -/
def finish (store : LifecycleStore) (job : Job) (now : ℕ) (bitcoin : Bool) : Except Cause Row :=
  if job.row.state = .queued then
    if bitcoin = true then store.transition job .upgradedUnverified now none
    else nextPendingAttempt job now >>= fun next =>
      store.transition job .submittedPending now (some next)
  else if bitcoin = true then store.transition job .upgradedUnverified now none
  else nextPendingAttempt job now >>= fun next => store.pendingChecked job now next

variable {J : Type} (inspectProof : List UInt8 → List UInt8 → Option Bool)
  (retryDelay : ℕ → J → Option ℕ)

/-- `_process_job` after a call of the backend. -/
def backendStep (job : Job) (replace : Bool) : Reply J → Option (Option Phase)
  | .returned (some proof) =>
    match inspectProof proof job.row.tipHash with
    | some bitcoin => some (some (.publish job proof bitcoin replace))
    | none => some (some (.fail job .integrity .integrity))
  | .returned none =>
    if replace = true then some (some (.update job false))
    else some (some (.fail job .integrity .integrity))
  | .raisedConfiguration => some none
  | .raisedIntegrity => some (some (.fail job .integrity .integrity))
  | .raisedOther => some (some (.fail job .transient .raised))
  | _ => none

/-- `_process_job` after the proof of a job has been read. -/
def readStep (job : Job) (proof : List UInt8) : Phase :=
  match inspectProof proof job.row.tipHash with
  | none => .fail job .integrity .integrity
  | some bitcoin =>
    if job.row.state = .submittedPending ∧ bitcoin = false then .upgrade job proof
    else .update job bitcoin

/-- `_process_queued` and `_process_pending`, up to the first look at the proof file.  A directory in its
place exists as well. -/
def processStep (s : Shared) (job : Job) (directory : Bool) : Phase :=
  match job.row.state with
  | .queued =>
    if s.files job.row.proofPath = none ∧ directory = false then .stamp job else .read job
  | .submittedPending =>
    if s.files job.row.proofPath = none ∧ directory = false then .fail job .transient .missingProof
    else .read job
  | _ => .next

/-- `write_proof_atomic` after `mkdir`, up to the rename. -/
def publishStep (s : Shared) (job : Job) (proof : List UInt8) (bitcoin replace : Bool) : Phase :=
  if proof = [] then .fail job .transient .emptyProof
  else if replace = false ∧ s.files job.row.proofPath ≠ none then .fail job .transient .fileExists
  else .rename job proof bitcoin replace

/-- A job's failure, as it is recorded. -/
def failStep (s : Shared) (now : ℕ) (job : Job) (error : Cause) :
    FailureClass → Reply J → Option (Except Cause Row)
  | .integrity, .done => some (s.store.recordFailure job (some .integrity) error now none)
  | .transient, .sample jitter =>
    some (orError .overflow (retryDelay (job.row.attemptCount + 1) jitter) >>= fun delay =>
      addTime now delay >>= fun next =>
        s.store.recordFailure job (some .transient) error now (some next))
  | _, _ => none

/-- A worker goes on with another phase and does nothing else. -/
def Worker.goto (w : Worker) (phase : Phase) : Option (Effect × Option Worker) :=
  some (.silent, some { w with phase := phase })

/-- What a worker does next: `run_once`. -/
def advance (s : Shared) (w : Worker) (reply : Reply J) : Option (Effect × Option Worker) :=
  match w.phase, reply with
  | .track run, .done =>
    match s.store.trackTip run.sequence run.tipHash run.proofPath run.intervalMinutes
      run.confirmationThreshold with
    | some row => some (.insert row, some { w with phase := .select })
    | none => w.goto .select
  | .select, .done => some (.silent, some { w with phase := .next, rest := s.store.dueJobs w.now })
  | .select, .rows jobs =>
    -- the rows may come in any order
    if jobs.Perm (s.store.dueJobs w.now) then
      some (.silent, some { w with phase := .next, rest := jobs })
    else none
  | .next, .done =>
    match w.rest with
    | [] => some (.silent, none)
    | job :: rest =>
      if job.row.state = .retryFailed then
        match s.store.resumeRetry job with
        | .ok row => some (.write job.id row none, some { w with phase := .reread job, rest := rest })
        | .error _ => some (.silent, none)
      else some (.silent, some { w with phase := .process job, rest := rest })
  | .reread job, .done =>
    match s.store.get job.row.sequence job.row.tipHash with
    | some job => w.goto (.process job)
    | none => some (.silent, none)
  | .process job, .done => w.goto (processStep s job false)
  | .process job, .directory => w.goto (processStep s job true)
  | .read job, .done =>
    match s.files job.row.proofPath with
    | some proof => w.goto (readStep inspectProof job proof)
    | none => w.goto (.fail job .transient .readError)
  | .read job, .osError => w.goto (.fail job .transient .readError)
  | .stamp job, reply =>
    (backendStep inspectProof job false reply).map fun phase =>
      (.silent, phase.map fun phase => { w with phase := phase })
  | .upgrade job _, reply =>
    (backendStep inspectProof job true reply).map fun phase =>
      (.silent, phase.map fun phase => { w with phase := phase })
  | .publish job proof bitcoin replace, .done => w.goto (publishStep s job proof bitcoin replace)
  | .publish job _ _ _, .osError => w.goto (.fail job .transient .mkdirError)
  | .publish job _ _ _, .notDirectory => w.goto (.fail job .transient .notDirectory)
  | .rename job proof bitcoin replace, .done =>
    some (.put job.row.proofPath proof replace, some { w with phase := .update job bitcoin })
  | .rename job _ _ _, .osError => w.goto (.fail job .transient .writeError)
  | .update job bitcoin, .done =>
    match finish s.store job w.now bitcoin with
    | .ok row => some (.write job.id row none, some { w with phase := .next })
    | .error error => w.goto (.fail job .transient error)
  | .fail job failureClass error, reply =>
    (failStep retryDelay s w.now job error failureClass reply).map fun
      | .ok row => (.write job.id row (some failureClass), some { w with phase := .next })
      | .error _ => (.silent, none)
  | _, _ => none

/-! ### The system -/

/-- What an effect changes. -/
def Shared.apply (s : Shared) : Effect → Shared
  | .silent => s
  | .insert row =>
    { s with store := ⟨s.store.count + 1, Function.update s.store.row s.store.count (some row)⟩ }
  | .write id row failure =>
    { s with
      store := { s.store with row := Function.update s.store.row id (some row) }
      failures := match failure with
        | some failureClass => s.failures ++ [(id, failureClass)]
        | none => s.failures }
  | .put path proof replace =>
    { s with
      files := Function.update s.files path (some proof)
      created := if replace = true then s.created else s.created ++ [path] }

/-- What a worker may do: begin `run_once`, go on, or be killed. -/
inductive Action (J : Type) where
  | start (run : Run)
  | go (reply : Reply J)
  | kill
deriving DecidableEq

/-- A step of the worker with the given number. -/
structure Step (J : Type) where
  worker : ℕ
  action : Action J
deriving DecidableEq

/-- The workers and what they share. -/
def system (s : State) (step : Step J) : Option State :=
  match step.action, s.workers step.worker with
  | .start run, none =>
    some { s with workers := Function.update s.workers step.worker (some ⟨run.now, .track run, []⟩) }
  | .go reply, some w =>
    (advance inspectProof retryDelay s.shared w reply).map fun (effect, w) =>
      ⟨s.shared.apply effect, Function.update s.workers step.worker w⟩
  | .kill, some _ => some { s with workers := Function.update s.workers step.worker none }
  | _, _ => none

/-- An empty database and an empty proof directory. -/
def State.initial : State := ⟨⟨⟨0, fun _ => none⟩, fun _ => none, [], []⟩, fun _ => none⟩

end Anchor
end Vestrix
