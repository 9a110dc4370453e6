/-
# Processing a job

The loop of `run_once` over the due jobs, for one worker and a backend whose answers depend on the
digest and the proof only.  `work` lets the worker go on until the next job's turn; what it does
are steps of the system (`work_run`).

Proof paths lie in a tree of directories.  A proof that is written where another one has a
directory on its way makes `mkdir` fail for that one, and a directory that is made where another
one is to be makes reading fail.  So a `Site` has, besides the table and the files, what the run
has written and the directories that it has made, and `Obstacles` are what a job meets there.

`processed` says in one piece what `_process_job` comes to: the deeds of `_process_queued` or
`_process_pending` up to where they raise, and then those of the handler.  The phases of a worker
that has the row of its job do just this (`work_process`).
-/

import Vestrix.Anchor.Invariant
import Vestrix.Text.Digits

namespace Vestrix
namespace Anchor

open Text Outcome Transition

/-! ### Paths -/

/-- The text of a proof's path: the directory and the name. -/
def ProofPath.text (path : ProofPath) : Str :=
  (if path.directory = lit "/" then path.directory else path.directory ++ lit "/") ++ ofChars path.name

/-- The first path goes through the second. -/
def ProofPath.Below (path other : ProofPath) : Prop := other.text ++ lit "/" <+: path.text

instance decidableBelow (path other : ProofPath) : Decidable (path.Below other) :=
  inferInstanceAs (Decidable (_ <+: _))

/-- The name of a proof is one part of a path. -/
theorem ProofPath.slash_not_mem_name (path : ProofPath) : '/' ∉ path.name := by
  intro h
  rcases List.mem_append.1 h with h | h
  · rcases List.mem_append.1 h with h | h
    · exact absurd (allDigits_numeral path.sequence '/' h) (by decide)
    · rcases List.mem_cons.1 h with h | h
      · cases h
      · exact absurd (isLowerHex_of_mem_hex h) (by decide)
  · exact absurd h (by decide)

/-- Proofs in one directory are not on the way to each other. -/
theorem ProofPath.not_below {path other : ProofPath} (h : path.directory = other.directory) :
    ¬ path.Below other := by
  intro hbelow
  rw [ProofPath.Below, ProofPath.text, ProofPath.text, h, List.append_assoc,
    List.prefix_append_right_inj] at hbelow
  have hslash : CodePoint.scalar '/' ∈ ofChars path.name :=
    hbelow.subset (List.mem_append_right _ List.mem_cons_self)
  obtain ⟨c, hc, heq⟩ := List.mem_map.1 hslash
  cases heq
  exact path.slash_not_mem_name hc

namespace Isolation

/-! ### The loop -/

/-- What a call of the backend comes to, with the text of an exception. -/
inductive Answer where
  | returned (proof : Option (List UInt8))
  | raisedIntegrity (text : Str)
  | raisedOther (text : Str)

/-- What a run of one worker meets with. -/
structure Environment (J : Type) where
  /-- `backend.stamp`. -/
  stamp : List UInt8 → Answer
  /-- `backend.upgrade`. -/
  upgrade : List UInt8 → List UInt8 → Answer
  /-- The files that cannot be read. -/
  unreadable : ProofPath → Bool
  /-- The files that cannot be written. -/
  unwritable : ProofPath → Bool
  /-- The paths where there is a directory. -/
  directory : ProofPath → Bool
  /-- The paths whose directory cannot be made, whatever the run does. -/
  unmakeable : ProofPath → Bool
  /-- A path in the last directory that `mkdir` makes for one of these before it fails, if it makes any. -/
  partway : ProofPath → Option ProofPath
  /-- That directory is on the way. -/
  on_the_way : ∀ path made place, partway path = some made → made.Below place → path.Below place
  /-- `jitter_sample`, or what `random.random` returns for the row of a key. -/
  jitter : ℕ → J
  /-- The order in which the due rows come. -/
  order : List Job → List Job
  /-- It is one of the same rows. -/
  perm : ∀ jobs, (order jobs).Perm jobs

/-- The table and the files, with the proofs that the run has added and the paths whose directories
it has made. -/
structure Site where
  shared : Shared
  written : List ProofPath
  made : List ProofPath

/-- The beginning of a run. -/
def Site.start (s : Shared) : Site := ⟨s, [], []⟩

/-- What a job does. -/
inductive Deed where
  | mkdir (path : ProofPath)
  | effect (effect : Effect)

/-- What a deed changes. -/
def Site.apply (site : Site) : Deed → Site
  | .mkdir path => { site with made := path :: site.made }
  | .effect effect =>
    ⟨site.shared.apply effect,
      match effect with
      | .put path _ _ => if site.shared.files path = none then path :: site.written else site.written
      | _ => site.written,
      site.made⟩

/-- What is in a job's way: a directory where its proof is to be, and a proof of the run where a
directory is to be. -/
@[ext] structure Obstacles where
  directory : Bool
  parent : Bool

/-- SQLite stores a text that can be encoded. -/
def storable (text : Str) : Bool := (scalars? text).isSome

/-- The answer, as the worker takes it.  If the text of an exception cannot be stored, then
`record_failure` raises before it has written anything. -/
def Answer.reply {J : Type} : Answer → Reply J
  | .returned proof => .returned proof
  | .raisedIntegrity text => if storable text = true then .raisedIntegrity else .raisedConfiguration
  | .raisedOther text => if storable text = true then .raisedOther else .raisedConfiguration

variable {J : Type} (inspectProof : List UInt8 → List UInt8 → Option Bool)
  (retryDelay : ℕ → J → Option ℕ) (env : Environment J) (now : ℕ)

/-- What is in the way to a path: a directory from the beginning or from what the run has made, and a
proof that the run has added. -/
def Environment.obstacles (site : Site) (path : ProofPath) : Obstacles :=
  ⟨(site.made.any fun other => decide (other.Below path)) || env.directory path,
    site.written.any fun other => decide (path.Below other)⟩

/-- What comes back to the worker. -/
def Environment.reply (site : Site) : Phase → Reply J
  | .process job =>
    if (env.obstacles site job.row.proofPath).directory = true then .directory else .done
  | .stamp job => (env.stamp job.row.tipHash).reply
  | .upgrade job proof => (env.upgrade proof job.row.tipHash).reply
  | .read job =>
    if env.unreadable job.row.proofPath = true ∨
      (env.obstacles site job.row.proofPath).directory = true then .osError else .done
  | .publish job proof _ _ =>
    if proof = [] then .done
    else if (env.obstacles site job.row.proofPath).parent = true then .notDirectory
    else if env.unmakeable job.row.proofPath = true then .osError
    else .done
  | .rename job _ _ _ => if env.unwritable job.row.proofPath = true then .osError else .done
  | .fail job .transient _ => .sample (env.jitter job.id)
  | _ => .done

/-- A path in the last directory that `mkdir` makes for a path, if no proof of the run is in its way. -/
def Environment.makes (path : ProofPath) : Option ProofPath :=
  if env.unmakeable path = true then env.partway path else some path

/-- The directories that `mkdir` has made for a path when it fails. -/
def mkdirPartway (path : ProofPath) : List Deed := (env.partway path).toList.map Deed.mkdir

/-- What a step does: `write_proof_atomic` makes the directory before it looks for the file. -/
def deeds : Phase → Reply J → Effect → List Deed
  | .publish job (_ :: _) _ _, .done, effect => [.mkdir job.row.proofPath, .effect effect]
  | .publish job _ _ _, .osError, effect => mkdirPartway env job.row.proofPath ++ [.effect effect]
  | _, _, effect => [.effect effect]

/-- The site after a step. -/
def Environment.after (site : Site) (phase : Phase) (effect : Effect) : Site :=
  (deeds env phase (env.reply site phase) effect).foldl Site.apply site

/-- The worker goes on until it is the next job's turn, or an exception ends the run. -/
def work : ℕ → Site → Worker → Site × Bool
  | 0, site, _ => (site, false)
  | n + 1, site, w =>
    match advance inspectProof retryDelay site.shared w (env.reply site w.phase) with
    | some (effect, some v) =>
      if v.phase = .next then (env.after site w.phase effect, true)
      else work n (env.after site w.phase effect) v
    | some (effect, none) => (env.after site w.phase effect, false)
    | none => (site, false)

/-- `_process_job`, and whether it returns. -/
def processJob (site : Site) (job : Job) : Site × Bool :=
  work inspectProof retryDelay env 9 site ⟨now, .next, [job]⟩

/-- An exception, and whether its text can be stored. -/
structure Raised where
  failureClass : FailureClass
  error : Cause
  storable : Bool

/-- The update that ends `_process_queued` or `_process_pending`. -/
def finishing (job : Job) (bitcoin : Bool) : List Deed × Option Raised :=
  if bitcoin = true then ([.effect (.write job.id (job.row.finished true now none) none)], none)
  else if now + job.row.intervalMinutes * 60000000 ≤ maxTime then
    ([.effect (.write job.id
      (job.row.finished false now (some (now + job.row.intervalMinutes * 60000000))) none)], none)
  else ([], some ⟨.transient, .overflow, true⟩)

/-- `write_proof_atomic` and the update. -/
def publishing (job : Job) (proof : List UInt8) (bitcoin replace : Bool) (obstacles : Obstacles) :
    List Deed × Option Raised :=
  if proof = [] then ([], some ⟨.transient, .emptyProof, true⟩)
  else if obstacles.parent = true then ([], some ⟨.transient, .notDirectory, true⟩)
  else if env.unmakeable job.row.proofPath = true then
    (mkdirPartway env job.row.proofPath, some ⟨.transient, .mkdirError, true⟩)
  else if env.unwritable job.row.proofPath = true then
    ([.mkdir job.row.proofPath], some ⟨.transient, .writeError, true⟩)
  else (.mkdir job.row.proofPath :: .effect (.put job.row.proofPath proof replace) ::
    (finishing now job bitcoin).1, (finishing now job bitcoin).2)

/-- What follows a call of the backend. -/
def answering (job : Job) (replace : Bool) (obstacles : Obstacles) :
    Answer → List Deed × Option Raised
  | .returned (some proof) =>
    match inspectProof proof job.row.tipHash with
    | some bitcoin => publishing env now job proof bitcoin replace obstacles
    | none => ([], some ⟨.integrity, .integrity, true⟩)
  | .returned none =>
    if replace = true then finishing now job false else ([], some ⟨.integrity, .integrity, true⟩)
  | .raisedIntegrity text => ([], some ⟨.integrity, .integrity, storable text⟩)
  | .raisedOther text => ([], some ⟨.transient, .raised, storable text⟩)

/-- What follows when there is something in the place of the proof. -/
def reading (job : Job) (obstacles : Obstacles) : Option (List UInt8) → List Deed × Option Raised
  | none => ([], some ⟨.transient, .readError, true⟩)
  | some proof =>
    if env.unreadable job.row.proofPath = true ∨ obstacles.directory = true then
      ([], some ⟨.transient, .readError, true⟩)
    else
      match inspectProof proof job.row.tipHash with
      | none => ([], some ⟨.integrity, .integrity, true⟩)
      | some bitcoin =>
        if job.row.state = .submittedPending ∧ bitcoin = false then
          answering inspectProof env now job true obstacles (env.upgrade proof job.row.tipHash)
        else finishing now job bitcoin

/-- `_process_queued` or `_process_pending`: the deeds, and the exception that ends them. -/
def attempt (job : Job) (file : Option (List UInt8)) (obstacles : Obstacles) :
    List Deed × Option Raised :=
  match job.row.state with
  | .queued =>
    if file = none ∧ obstacles.directory = false then
      answering inspectProof env now job false obstacles (env.stamp job.row.tipHash)
    else reading inspectProof env now job obstacles file
  | .submittedPending =>
    if file = none ∧ obstacles.directory = false then ([], some ⟨.transient, .missingProof, true⟩)
    else reading inspectProof env now job obstacles file
  | _ => ([], none)

/-- The failure that is recorded, and whether it is. -/
def recording (job : Job) (error : Cause) : FailureClass → List Deed × Bool
  | .integrity =>
    ([.effect (.write job.id (job.row.failed job (some .integrity) error now none) (some .integrity))],
      true)
  | .transient =>
    match retryDelay (job.row.attemptCount + 1) (env.jitter job.id) with
    | some delay =>
      if now + delay ≤ maxTime then
        ([.effect (.write job.id (job.row.failed job (some .transient) error now (some (now + delay)))
          (some .transient))], true)
      else ([], false)
    | none => ([], false)

/-- The handler of `_process_job`. -/
def handling (job : Job) : Option Raised → List Deed × Bool
  | none => ([], true)
  | some raised =>
    if raised.storable = true then recording retryDelay env now job raised.error raised.failureClass
    else ([], false)

/-- What has been done when the handler is through. -/
def handled (job : Job) (r : List Deed × Option Raised) : List Deed × Bool :=
  (r.1 ++ (handling retryDelay env now job r.2).1, (handling retryDelay env now job r.2).2)

/-- The job as `resume_retry` returns it. -/
def resume (job : Job) : Option Job :=
  if job.row.state = .retryFailed then
    job.row.retryFrom.map fun retryFrom => ⟨job.id, job.row.resumed retryFrom⟩
  else some job

/-- What `resume_retry` does, if it is called. -/
def resuming (job resumed : Job) : List Deed :=
  if job.row.state = .retryFailed then [.effect (.write job.id resumed.row none)] else []

/-- `_process_job`: what it does to the row and the proof of the job, and whether it returns. -/
def processed (job : Job) (file : Option (List UInt8)) (obstacles : Obstacles) : List Deed × Bool :=
  match resume job with
  | none => ([], false)
  | some resumed =>
    (resuming job resumed ++
      (handled retryDelay env now resumed (attempt inspectProof env now resumed file obstacles)).1,
      (handled retryDelay env now resumed (attempt inspectProof env now resumed file obstacles)).2)

/-- The site after some deeds, and whether the worker goes on. -/
def result (site : Site) (r : List Deed × Bool) : Site × Bool := (r.1.foldl Site.apply site, r.2)

variable {inspectProof retryDelay env now}
variable {s : Shared} {site t : Site} {w v : Worker} {job : Job} {rest : List Job} {effect : Effect}
  {n : ℕ} {error : Cause} {failureClass : FailureClass}

/-! ### The updates -/

/-- An update that asks for the state of a job finds its row, if the table has it. -/
theorem updateWhere_self {f : Row → Row} (hrow : s.store.row job.id = some job.row) :
    s.store.updateWhere job.id job.row.state f = some (f job.row) :=
  updateWhere_eq_some.2 ⟨job.row, hrow, rfl, rfl⟩

/-- A failure of a job that has its row is recorded. -/
theorem recordFailure_self {failureClass : Option FailureClass} {next : Option ℕ}
    (hrow : s.store.row job.id = some job.row) (hactive : job.Active) :
    s.store.recordFailure job failureClass error now next =
      .ok (job.row.failed job failureClass error now next) := by
  have hsource : job.row.state ∈ retrySources := by
    rcases hactive with h | h <;> rw [h] <;> decide
  rw [LifecycleStore.recordFailure, require_true hsource, updateWhere_self hrow]
  rfl

/-- A job that has its row is finished, unless the next check is after the last date. -/
theorem finish_self {bitcoin : Bool} (hrow : s.store.row job.id = some job.row) (hactive : job.Active) :
    finish s.store job now bitcoin =
      if bitcoin = true then .ok (job.row.finished true now none)
      else addTime now (job.row.intervalMinutes * 60000000) >>= fun next =>
        .ok (job.row.finished false now (some next)) := by
  have htransition : ∀ b next, targetState b ∈ allowedTransitions job.row.state →
      s.store.transition job (targetState b) now next = .ok (job.row.finished b now next) := by
    intro b next h
    rw [LifecycleStore.transition, require_true h, updateWhere_self hrow]
    rfl
  rw [finish]
  rcases hactive with hstate | hstate
  · rw [if_pos hstate, nextPendingAttempt]
    split_ifs
    · exact htransition true none (by rw [hstate]; decide)
    · exact bind_congr fun next => htransition false (some next) (by rw [hstate]; decide)
  · rw [if_neg (by rw [hstate]; decide), nextPendingAttempt]
    split_ifs
    · exact htransition true none (by rw [hstate]; decide)
    · refine bind_congr fun next => ?_
      have hchecked := updateWhere_self (f := fun row => { row with
        lastAttempt := some now, nextAttempt := some next, lastError := none,
        retryFrom := none, failureClass := none }) hrow
      rw [hstate] at hchecked
      rw [LifecycleStore.pendingChecked, hchecked, orError, Row.finished, targetState,
        if_neg (by decide), ← hstate]

/-! ### The phases -/

/-- A step changes the table and the files by its effect, whatever directories it makes. -/
@[simp] theorem shared_after (site : Site) (phase : Phase) (effect : Effect) :
    (env.after site phase effect).shared = site.shared.apply effect := by
  rw [Environment.after, deeds.eq_def]
  split
  · rfl
  · rw [mkdirPartway, List.foldl_append]
    cases env.partway _ <;> rfl
  · rfl

/-- A step that does not end the job is followed by the rest of the work. -/
theorem work_on
    (h : advance inspectProof retryDelay site.shared w (env.reply site w.phase) = some (effect, some v))
    (hnext : ¬ v.phase = .next) : work inspectProof retryDelay env (n + 1) site w =
      work inspectProof retryDelay env n (env.after site w.phase effect) v := by
  rw [work, h]
  exact if_neg hnext

/-- A step without an effect is followed by the rest of the work at the same site. -/
theorem work_goto
    (h : advance inspectProof retryDelay site.shared w (env.reply site w.phase) = some (.silent, some v))
    (hsite : env.after site w.phase .silent = site) (hnext : ¬ v.phase = .next) :
    work inspectProof retryDelay env (n + 1) site w = work inspectProof retryDelay env n site v := by
  rw [work_on h hnext, hsite]

/-- A step that updates the row and ends the job ends the work. -/
theorem work_return
    (h : advance inspectProof retryDelay site.shared w (env.reply site w.phase) = some (effect, some v))
    (hsite : env.after site w.phase effect = site.apply (.effect effect)) (hnext : v.phase = .next) :
    work inspectProof retryDelay env (n + 1) site w = result site ([.effect effect], true) := by
  rw [work, h]
  dsimp only
  rw [if_pos hnext, hsite]
  rfl

/-- A step that an exception leaves ends the work, and the run. -/
theorem work_escape
    (h : advance inspectProof retryDelay site.shared w (env.reply site w.phase) = some (.silent, none))
    (hsite : env.after site w.phase .silent = site) :
    work inspectProof retryDelay env (n + 1) site w = result site ([], false) := by
  rw [work, h]
  dsimp only
  rw [hsite]
  rfl

/-- What the worker does until the next job's turn are steps of the system. -/
theorem work_run (h : work inspectProof retryDelay env n site w = (t, true)) :
    ∃ steps v, v.phase = .next ∧ run (system inspectProof retryDelay)
      ⟨site.shared, Function.update (fun _ => none) 0 (some w)⟩ steps =
        some ⟨t.shared, Function.update (fun _ => none) 0 (some v)⟩ := by
  induction n generalizing site w with
  | zero => cases h
  | succ n ih =>
    rw [work] at h
    cases hadvance : advance inspectProof retryDelay site.shared w (env.reply site w.phase) with
    | none =>
      rw [hadvance] at h
      cases h
    | some next =>
      obtain ⟨effect, next⟩ := next
      rw [hadvance] at h
      have hstep : system inspectProof retryDelay
          ⟨site.shared, Function.update (fun _ => none) 0 (some w)⟩ ⟨0, .go (env.reply site w.phase)⟩ =
            some ⟨(env.after site w.phase effect).shared, Function.update (fun _ => none) 0 next⟩ := by
        rw [system, shared_after]
        dsimp only
        rw [Function.update_self]
        dsimp only
        rw [hadvance, Option.map_some, Function.update_idem]
      cases next with
      | none => cases h
      | some v =>
        dsimp only at h
        split_ifs at h with hnext
        · obtain rfl := (Prod.mk.inj h).1
          exact ⟨[_], v, hnext, run_cons.2 ⟨_, hstep, run_nil.2 rfl⟩⟩
        · obtain ⟨steps, v, hv, hrun⟩ := ih h
          exact ⟨_ :: steps, v, hv, run_cons.2 ⟨_, hstep, hrun⟩⟩

/-- The handler records a failure, unless the next attempt is after the last date. -/
theorem work_fail (hrow : site.shared.store.row job.id = some job.row) (hactive : job.Active) :
    work inspectProof retryDelay env (n + 1) site ⟨now, .fail job failureClass error, rest⟩ =
      result site (recording retryDelay env now job error failureClass) := by
  cases failureClass with
  | integrity =>
    rw [recording]
    refine work_return (v := ⟨now, .next, rest⟩) ?_ rfl rfl
    dsimp only [Environment.reply, advance, failStep]
    rw [recordFailure_self hrow hactive]
    rfl
  | transient =>
    rw [recording]
    cases hdelay : retryDelay (job.row.attemptCount + 1) (env.jitter job.id) with
    | none =>
      refine work_escape ?_ rfl
      dsimp only [Environment.reply, advance, failStep]
      rw [hdelay]
      rfl
    | some delay =>
      dsimp only
      split_ifs with htime
      · refine work_return (v := ⟨now, .next, rest⟩) ?_ rfl rfl
        dsimp only [Environment.reply, advance, failStep]
        rw [hdelay, orError, ok_bind, addTime, if_pos htime, ok_bind, recordFailure_self hrow hactive]
        rfl
      · refine work_escape ?_ rfl
        dsimp only [Environment.reply, advance, failStep]
        rw [hdelay, orError, ok_bind, addTime, if_neg htime, error_bind]
        rfl

/-- After a step that raises within the `try`, the handler comes to its result. -/
theorem work_raise (hrow : site.shared.store.row job.id = some job.row) (hactive : job.Active)
    (h : advance inspectProof retryDelay site.shared w (env.reply site w.phase) =
      some (.silent, some { w with phase := .fail job failureClass error }))
    (hsite : env.after site w.phase .silent = site) :
    work inspectProof retryDelay env (n + 2) site w =
      result site (handled retryDelay env w.now job ([], some ⟨failureClass, error, true⟩)) :=
  (work_goto h hsite fun h => by cases h).trans (work_fail hrow hactive)

/-- The update that ends a job, or the failure of its time. -/
theorem work_update {bitcoin : Bool} (hrow : site.shared.store.row job.id = some job.row)
    (hactive : job.Active) :
    work inspectProof retryDelay env (n + 2) site ⟨now, .update job bitcoin, rest⟩ =
      result site (handled retryDelay env now job (finishing now job bitcoin)) := by
  rw [finishing]
  split_ifs with hbitcoin htime
  · refine work_return (v := ⟨now, .next, rest⟩) ?_ rfl rfl
    dsimp only [Environment.reply, advance]
    rw [finish_self hrow hactive, if_pos hbitcoin]
  · refine work_return (v := ⟨now, .next, rest⟩) ?_ rfl rfl
    dsimp only [Environment.reply, advance]
    rw [finish_self hrow hactive, if_neg hbitcoin, addTime, if_pos htime, ok_bind]
  · refine work_raise hrow hactive ?_ rfl
    dsimp only [Environment.reply, advance]
    rw [finish_self hrow hactive, if_neg hbitcoin, addTime, if_neg htime, error_bind]
    rfl

/-- `write_proof_atomic` from where the directory has been made. -/
theorem work_rename {proof : List UInt8} {bitcoin replace : Bool} {obstacles : Obstacles}
    (hrow : site.shared.store.row job.id = some job.row) (hactive : job.Active) (hproof : proof ≠ [])
    (hparent : ¬ obstacles.parent = true) (hmake : ¬ env.unmakeable job.row.proofPath = true) :
    work inspectProof retryDelay env (n + 3) (site.apply (.mkdir job.row.proofPath))
        ⟨now, .rename job proof bitcoin replace, rest⟩ =
      result site (handled retryDelay env now job
        (publishing env now job proof bitcoin replace obstacles)) := by
  rw [publishing, if_neg hproof, if_neg hparent, if_neg hmake]
  split_ifs with hwrite
  · have hreply : env.reply (site.apply (.mkdir job.row.proofPath))
        (.rename job proof bitcoin replace) = .osError := if_pos hwrite
    have hadvance : advance inspectProof retryDelay (site.apply (.mkdir job.row.proofPath)).shared
        ⟨now, .rename job proof bitcoin replace, rest⟩ (env.reply (site.apply (.mkdir job.row.proofPath))
          (.rename job proof bitcoin replace)) =
        some (.silent, some ⟨now, .fail job .transient .writeError, rest⟩) := by
      rw [hreply]
      rfl
    exact work_raise hrow hactive hadvance rfl
  · -- the rename leaves the table as it is, so that the update finds the row
    have hreply : env.reply (site.apply (.mkdir job.row.proofPath))
        (.rename job proof bitcoin replace) = .done := if_neg hwrite
    have hadvance : advance inspectProof retryDelay (site.apply (.mkdir job.row.proofPath)).shared
        ⟨now, .rename job proof bitcoin replace, rest⟩ (env.reply (site.apply (.mkdir job.row.proofPath))
          (.rename job proof bitcoin replace)) =
        some (.put job.row.proofPath proof replace, some ⟨now, .update job bitcoin, rest⟩) := by
      rw [hreply]
      rfl
    exact (work_on hadvance fun h => by cases h).trans (work_update hrow hactive)

/-- `write_proof_atomic` and the update after it come to `publishing` and the handler. -/
theorem work_publish {proof : List UInt8} {bitcoin replace : Bool}
    (hrow : site.shared.store.row job.id = some job.row) (hactive : job.Active)
    (hfile : ¬ (replace = false ∧ site.shared.files job.row.proofPath ≠ none)) :
    work inspectProof retryDelay env (n + 4) site ⟨now, .publish job proof bitcoin replace, rest⟩ =
      result site (handled retryDelay env now job (publishing env now job proof bitcoin replace
        (env.obstacles site job.row.proofPath))) := by
  cases proof with
  | nil =>
    rw [publishing, if_pos rfl]
    refine work_raise hrow hactive ?_ rfl
    dsimp only [Environment.reply, advance, publishStep]
    rw [if_pos rfl]
    dsimp only
    rw [if_pos rfl]
    rfl
  | cons b proof =>
    have hproof : b :: proof ≠ [] := List.cons_ne_nil b proof
    by_cases hparent : (env.obstacles site job.row.proofPath).parent = true
    · have hreply : env.reply site (.publish job (b :: proof) bitcoin replace) = .notDirectory := by
        rw [Environment.reply, if_neg hproof, if_pos hparent]
      rw [publishing, if_neg hproof, if_pos hparent]
      refine work_raise hrow hactive ?_ ?_
      · dsimp only
        rw [hreply]
        rfl
      · dsimp only
        rw [Environment.after, hreply]
        rfl
    by_cases hmake : env.unmakeable job.row.proofPath = true
    · have hreply : env.reply site (.publish job (b :: proof) bitcoin replace) = .osError := by
        rw [Environment.reply, if_neg hproof, if_neg hparent, if_pos hmake]
      have hadvance : advance inspectProof retryDelay site.shared
          ⟨now, .publish job (b :: proof) bitcoin replace, rest⟩
          (env.reply site (.publish job (b :: proof) bitcoin replace)) =
            some (.silent, some ⟨now, .fail job .transient .mkdirError, rest⟩) := by
        rw [hreply]
        rfl
      rw [publishing, if_neg hproof, if_neg hparent, if_pos hmake,
        work_on hadvance fun h => by cases h]
      dsimp only
      rw [work_fail (by rw [shared_after]; exact hrow) hactive]
      rw [Environment.after, hreply, deeds, List.foldl_append, handled, handling, if_pos rfl, result, result,
        List.foldl_append]
      rfl
    · have hreply : env.reply site (.publish job (b :: proof) bitcoin replace) = .done := by
        rw [Environment.reply, if_neg hproof, if_neg hparent, if_neg hmake]
      have hadvance : advance inspectProof retryDelay site.shared
          ⟨now, .publish job (b :: proof) bitcoin replace, rest⟩
          (env.reply site (.publish job (b :: proof) bitcoin replace)) =
            some (.silent, some ⟨now, .rename job (b :: proof) bitcoin replace, rest⟩) := by
        rw [hreply]
        dsimp only [advance, publishStep]
        rw [if_neg hproof, if_neg hfile]
        rfl
      have hafter : env.after site (.publish job (b :: proof) bitcoin replace) .silent =
          site.apply (.mkdir job.row.proofPath) := by
        rw [Environment.after, hreply]
        rfl
      rw [work_on hadvance fun h => by cases h]
      dsimp only
      rw [hafter]
      exact work_rename hrow hactive hproof hparent hmake

/-- A phase that calls the backend, when the call raises. -/
theorem work_answer_raised {answer : Answer} {raised : Reply J} {replace : Bool} {text : Str}
    (hrow : site.shared.store.row job.id = some job.row) (hactive : job.Active)
    (h : advance inspectProof retryDelay site.shared w (env.reply site w.phase) =
      (backendStep (J := J) inspectProof job replace answer.reply).map fun phase =>
        (.silent, phase.map fun phase => { w with phase := phase }))
    (hsite : env.after site w.phase .silent = site)
    (hanswer : answer.reply = if storable text = true then raised else .raisedConfiguration)
    (hraised : backendStep inspectProof job replace raised =
      some (some (.fail job failureClass error))) :
    work inspectProof retryDelay env (n + 2) site w =
      result site (handled retryDelay env w.now job ([], some ⟨failureClass, error, storable text⟩)) := by
  rw [hanswer] at h
  cases htext : storable text with
  | true =>
    rw [if_pos htext, hraised] at h
    exact work_raise hrow hactive h hsite
  | false =>
    rw [if_neg (by rw [htext]; decide)] at h
    exact work_escape h hsite

/-- A call of the backend comes to `answering` and the handler. -/
theorem work_answer {answer : Answer} {replace : Bool}
    (hrow : site.shared.store.row job.id = some job.row)
    (hactive : job.Active) (hfile : ¬ (replace = false ∧ site.shared.files job.row.proofPath ≠ none))
    (h : advance inspectProof retryDelay site.shared w (env.reply site w.phase) =
      (backendStep (J := J) inspectProof job replace answer.reply).map fun phase =>
        (.silent, phase.map fun phase => { w with phase := phase }))
    (hsite : env.after site w.phase .silent = site) :
    work inspectProof retryDelay env (n + 5) site w =
      result site (handled retryDelay env w.now job (answering inspectProof env w.now job replace
        (env.obstacles site job.row.proofPath) answer)) := by
  cases answer with
  | returned proof =>
    cases proof with
    | none =>
      rw [answering]
      dsimp only [Answer.reply, backendStep] at h
      split_ifs at h ⊢ with hreplace
      · rw [work_goto h hsite fun h => by cases h]
        exact work_update hrow hactive
      · exact work_raise hrow hactive h hsite
    | some proof =>
      rw [answering]
      dsimp only [Answer.reply, backendStep] at h
      cases hinspect : inspectProof proof job.row.tipHash with
      | none =>
        rw [hinspect] at h
        exact work_raise hrow hactive h hsite
      | some bitcoin =>
        rw [hinspect] at h
        rw [work_goto h hsite fun h => by cases h]
        exact work_publish hrow hactive hfile
  | raisedIntegrity text => exact work_answer_raised hrow hactive h hsite rfl rfl
  | raisedOther text => exact work_answer_raised hrow hactive h hsite rfl rfl

/-- The phases from where there is something in the place of the proof. -/
theorem work_read (hrow : site.shared.store.row job.id = some job.row) (hactive : job.Active) :
    work inspectProof retryDelay env (n + 6) site ⟨now, .read job, rest⟩ =
      result site (handled retryDelay env now job (reading inspectProof env now job
        (env.obstacles site job.row.proofPath) (site.shared.files job.row.proofPath))) := by
  by_cases hread : env.unreadable job.row.proofPath = true ∨
      (env.obstacles site job.row.proofPath).directory = true
  · have hreading : reading inspectProof env now job (env.obstacles site job.row.proofPath)
        (site.shared.files job.row.proofPath) = ([], some ⟨.transient, .readError, true⟩) := by
      cases site.shared.files job.row.proofPath with
      | none => rfl
      | some proof => exact if_pos hread
    rw [hreading]
    refine work_raise hrow hactive ?_ rfl
    dsimp only [Environment.reply, advance]
    rw [if_pos hread]
    rfl
  · have hreply : env.reply site (.read job) = .done := if_neg hread
    cases hfile : site.shared.files job.row.proofPath with
    | none =>
      refine work_raise hrow hactive ?_ rfl
      dsimp only [advance]
      rw [hreply]
      dsimp only
      rw [hfile]
      rfl
    | some proof =>
      have hadvance : advance inspectProof retryDelay site.shared ⟨now, .read job, rest⟩
          (env.reply site (.read job)) = some (.silent, some ⟨now, readStep inspectProof job proof, rest⟩) := by
        dsimp only [advance]
        rw [hreply]
        dsimp only
        rw [hfile]
        rfl
      rw [reading, if_neg hread]
      rw [readStep] at hadvance
      cases hinspect : inspectProof proof job.row.tipHash with
      | none =>
        rw [hinspect] at hadvance
        exact work_raise hrow hactive hadvance rfl
      | some bitcoin =>
        rw [hinspect] at hadvance
        dsimp only at hadvance ⊢
        split_ifs at hadvance ⊢ with hpending
        · rw [work_goto hadvance rfl fun h => by cases h]
          exact work_answer hrow hactive (fun h => by cases h.1) rfl rfl
        · rw [work_goto hadvance rfl fun h => by cases h]
          exact work_update hrow hactive

/-- **The phases of a job** come to what its attempt and the handler do. -/
theorem work_process (hrow : site.shared.store.row job.id = some job.row) :
    work inspectProof retryDelay env (n + 7) site ⟨now, .process job, rest⟩ =
      result site (handled retryDelay env now job (attempt inspectProof env now job
        (site.shared.files job.row.proofPath) (env.obstacles site job.row.proofPath))) := by
  have hadvance : advance inspectProof retryDelay site.shared ⟨now, .process job, rest⟩
      (env.reply site (.process job)) = some (.silent, some ⟨now, processStep site.shared job
        (env.obstacles site job.row.proofPath).directory, rest⟩) := by
    dsimp only [Environment.reply, advance]
    cases (env.obstacles site job.row.proofPath).directory <;> rfl
  unfold attempt
  rw [processStep] at hadvance
  cases hstate : job.row.state with
  | queued =>
    rw [hstate] at hadvance
    dsimp only at hadvance ⊢
    split_ifs at hadvance ⊢ with hnew
    · rw [work_goto hadvance rfl fun h => by cases h]
      exact work_answer hrow (Or.inl hstate) (fun h => h.2 hnew.1) rfl rfl
    · rw [work_goto hadvance rfl fun h => by cases h]
      exact work_read hrow (Or.inl hstate)
  | submittedPending =>
    rw [hstate] at hadvance
    dsimp only at hadvance ⊢
    split_ifs at hadvance ⊢ with hmissing
    · exact work_raise hrow (Or.inr hstate) hadvance rfl
    · rw [work_goto hadvance rfl fun h => by cases h]
      exact work_read hrow (Or.inr hstate)
  | upgradedUnverified =>
    rw [hstate] at hadvance
    exact work_return hadvance rfl rfl
  | independentlyVerified =>
    rw [hstate] at hadvance
    exact work_return hadvance rfl rfl
  | retryFailed =>
    rw [hstate] at hadvance
    exact work_return hadvance rfl rfl

end Isolation
end Anchor
end Vestrix
