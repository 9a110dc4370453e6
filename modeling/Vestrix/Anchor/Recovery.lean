/-
# Runs that return

`run_once` of a worker that is alone, from a state that any number of workers may have left behind.
`runOnce` is the whole of it, and what it does when it returns is a run of the system
(`runOnce_run`).

A run that returns leaves no row that is due, so that another run at the same time does nothing
(`second_run_idle`).  When the calendars and the file system answer again, two runs are enough:
the first comes to every row that is not settled and leaves it upgraded or pending, and the second
upgrades those that are pending (`recovers`).
-/

import Vestrix.Anchor.Crash
import Vestrix.Anchor.Isolation
import Vestrix.Anchor.Pacing

namespace Vestrix
namespace Anchor
namespace Recovery

open Outcome Transition Isolation

variable {J : Type} (inspectProof : List UInt8 → List UInt8 → Option Bool)
  (retryDelay : ℕ → J → Option ℕ) (env : Environment J)

/-! ### `run_once` -/

/-- The table after `track_tip`. -/
def tracked (invocation : Run) (s : Shared) : Shared :=
  match s.store.trackTip invocation.sequence invocation.tipHash invocation.proofPath
    invocation.intervalMinutes invocation.confirmationThreshold with
  | some row => s.apply (.insert row)
  | none => s

/-- The loop of `run_once`, and whether it ends. -/
def processAll (now : ℕ) : Site → List Job → Site × Bool
  | site, [] => (site, true)
  | site, job :: jobs =>
    if (processJob inspectProof retryDelay env now site job).2 = true then
      processAll now (processJob inspectProof retryDelay env now site job).1 jobs
    else ((processJob inspectProof retryDelay env now site job).1, false)

/-- The loop of a run, from its beginning. -/
def loop (now : ℕ) (s : Shared) : Shared × Bool :=
  let site := processAll inspectProof retryDelay env now (.start s) (env.order (s.store.dueJobs now))
  (site.1.shared, site.2)

/-- `run_once`, and whether it returns. -/
def runOnce (invocation : Run) (s : Shared) : Shared × Bool :=
  loop inspectProof retryDelay env invocation.now (tracked invocation s)

/-- The calendars and the file system answer: the digest gets a proof, and a pending proof of it the
Bitcoin attestation. -/
structure Answers (digest : List UInt8) : Prop where
  stamps : ∃ proof bitcoin, env.stamp digest = .returned (some proof) ∧ proof ≠ [] ∧
    inspectProof proof digest = some bitcoin
  upgrades : ∀ proof, inspectProof proof digest = some false →
    ∃ upgraded, env.upgrade proof digest = .returned (some upgraded) ∧ upgraded ≠ [] ∧
      inspectProof upgraded digest = some true
  readable : ∀ path, env.unreadable path = false
  writable : ∀ path, env.unwritable path = false
  place : ∀ path, env.directory path = false
  makeable : ∀ path, env.unmakeable path = false

/-- A worker with an interval that `WorkerConfig` admits and a digest that is one of SHA-256. -/
def Configured (_ : Shared) (w : Worker) : Prop :=
  ∀ invocation, w.phase = .track invocation →
    0 < invocation.intervalMinutes ∧ invocation.tipHash.length = 32

instance decidableConfigured (s : Shared) (w : Worker) : Decidable (Configured s w) :=
  match h : w.phase with
  | .track invocation =>
    decidable_of_iff (0 < invocation.intervalMinutes ∧ invocation.tipHash.length = 32)
      ⟨fun hok _ hphase => Phase.track.inj (h.symm.trans hphase) ▸ hok, fun hok => hok _ h⟩
  | .select | .next | .reread _ | .process _ | .read _ | .stamp _ | .upgrade _ _ | .publish _ _ _ _
  | .rename _ _ _ _ | .update _ _ | .fail _ _ _ => isTrue fun _ hphase => by cases h.symm.trans hphase

/-- The workers are gone. -/
def quiet (s : Shared) : State := ⟨s, fun _ => none⟩

variable {inspectProof retryDelay env}
variable {s t u : Shared} {site site' : Site} {w v : Worker} {reply : Reply J} {job : Job}
  {jobs rest : List Job} {n now : ℕ} {effect : Effect} {invocation : Run}

/-! ### A run of the system -/

/-- Another list of jobs that a worker has not begun. -/
def instead (rest : List Job) (next : Effect × Option Worker) : Effect × Option Worker :=
  (next.1, next.2.map fun v => { v with rest := rest })

/-- The jobs that a worker has not begun do not matter while it is on one. -/
theorem advance_rest (hnext : w.phase ≠ .next) (hselect : w.phase ≠ .select) :
    advance inspectProof retryDelay s { w with rest := rest } reply =
      (advance inspectProof retryDelay s w reply).map (instead rest) := by
  obtain ⟨now, phase, before⟩ := w
  unfold advance
  cases phase with
  | next => exact absurd rfl hnext
  | select => exact absurd rfl hselect
  | track invocation =>
    cases reply with
    | done =>
      dsimp only
      split <;> rfl
    | _ => rfl
  | reread job =>
    cases reply with
    | done =>
      dsimp only
      split <;> rfl
    | _ => rfl
  | process job => cases reply <;> rfl
  | read job =>
    cases reply with
    | done =>
      dsimp only
      split <;> rfl
    | _ => rfl
  | stamp job =>
    dsimp only
    rw [Option.map_map]
    refine congrArg (Option.map · _) (funext fun phase => ?_)
    cases phase <;> rfl
  | upgrade job proof =>
    dsimp only
    rw [Option.map_map]
    refine congrArg (Option.map · _) (funext fun phase => ?_)
    cases phase <;> rfl
  | publish job proof bitcoin replace => cases reply <;> rfl
  | rename job proof bitcoin replace => cases reply <;> rfl
  | update job bitcoin =>
    cases reply with
    | done =>
      dsimp only
      split <;> rfl
    | _ => rfl
  | fail job failureClass error =>
    dsimp only
    rw [Option.map_map]
    refine congrArg (Option.map · _) (funext fun result => ?_)
    cases result <;> rfl

/-- The jobs behind the first do not matter to the step that takes it up. -/
theorem advance_next : advance inspectProof retryDelay s ⟨now, .next, job :: rest⟩ reply =
    (advance inspectProof retryDelay s ⟨now, .next, [job]⟩ reply).map (instead rest) := by
  unfold advance
  cases reply with
  | done =>
    dsimp only
    split_ifs
    · split <;> rfl
    · rfl
  | _ => rfl

/-- A worker that has its jobs, and the time. -/
structure Busy (now : ℕ) (w : Worker) : Prop where
  now : w.now = now
  track : ∀ invocation, w.phase ≠ .track invocation
  select : w.phase ≠ .select

/-- A worker on its jobs stays on them, at its time, while it goes on. -/
theorem Busy.advance (hw : Busy now w)
    (h : advance inspectProof retryDelay s w reply = some (effect, some v)) : Busy now v := by
  obtain ⟨hnow, htrack, -⟩ := hw
  cases advances_of_advance h with
  | track hphase => exact absurd hphase (htrack _)
  | tracked hphase => exact absurd hphase (htrack _)
  | _ => exact ⟨hnow, fun _ h => (by cases h), fun h => (by cases h)⟩

/-- The state in which the worker 0 is the only one. -/
def alone (s : Shared) (w : Option Worker) : State := ⟨s, Function.update (fun _ => none) 0 w⟩

variable (inspectProof retryDelay) in
/-- Steps of the only worker. -/
def Reaches (s t : State) : Prop :=
  ∃ steps : List (Step J), (∀ step ∈ steps, step.worker = 0) ∧
    run (system inspectProof retryDelay) s steps = some t

/-- No steps lead nowhere. -/
theorem Reaches.refl (s : State) : Reaches inspectProof retryDelay s s :=
  ⟨[], fun _ h => absurd h List.not_mem_nil, run_nil.2 rfl⟩

/-- One run of the worker goes on with another. -/
theorem Reaches.trans {s t u : State} (h : Reaches inspectProof retryDelay s t)
    (h' : Reaches inspectProof retryDelay t u) : Reaches inspectProof retryDelay s u := by
  obtain ⟨steps, hworker, hrun⟩ := h
  obtain ⟨steps', hworker', hrun'⟩ := h'
  exact ⟨steps ++ steps', List.forall_mem_append.2 ⟨hworker, hworker'⟩, run_append.2 ⟨t, hrun, hrun'⟩⟩

/-- A step of the only worker is a run. -/
theorem Reaches.step {s t : State} {action : Action J}
    (h : system inspectProof retryDelay s ⟨0, action⟩ = some t) : Reaches inspectProof retryDelay s t :=
  ⟨[⟨0, action⟩], List.forall_mem_singleton.2 rfl, run_cons.2 ⟨t, h, run_nil.2 rfl⟩⟩

/-- A worker that is gone is none. -/
theorem alone_none : alone s none = quiet s := by
  rw [alone, quiet, Function.update_eq_self]

/-- What a worker does next is a step of the system. -/
theorem reaches_advance {next : Option Worker}
    (h : advance inspectProof retryDelay s w reply = some (effect, next)) :
    Reaches inspectProof retryDelay (alone s (some w)) (alone (s.apply effect) next) := by
  have hstep : system inspectProof retryDelay (alone s (some w)) ⟨0, .go reply⟩ =
      some (alone (s.apply effect) next) := by
    rw [system, alone]
    dsimp only
    rw [Function.update_self]
    dsimp only
    rw [h, Option.map_some, Function.update_idem, alone]
  exact .step hstep

/-- The first step of a worker that finishes its job, and has the others still before it. -/
theorem reaches_work_succ (hw : Busy now w)
    (hrest : advance inspectProof retryDelay site.shared v (env.reply site w.phase) =
      (advance inspectProof retryDelay site.shared w (env.reply site w.phase)).map (instead rest))
    (ih : ∀ site w', Busy now w' → w'.phase ≠ .next →
      work inspectProof retryDelay env n site w' = (site', true) →
      Reaches inspectProof retryDelay (alone site.shared (some { w' with rest := rest }))
        (alone site'.shared (some ⟨now, .next, rest⟩)))
    (h : work inspectProof retryDelay env (n + 1) site w = (site', true)) :
    Reaches inspectProof retryDelay (alone site.shared (some v))
      (alone site'.shared (some ⟨now, .next, rest⟩)) := by
  rw [work] at h
  cases hadvance : advance inspectProof retryDelay site.shared w (env.reply site w.phase) with
  | none =>
    rw [hadvance] at h
    cases h
  | some next =>
    obtain ⟨effect, next⟩ := next
    rw [hadvance] at h hrest
    cases next with
    | none => cases h
    | some next =>
      have hbusy := hw.advance hadvance
      refine (reaches_advance hrest).trans ?_
      have hafter : (env.after site w.phase effect).shared = site.shared.apply effect :=
        shared_after site w.phase effect
      rw [← hafter]
      dsimp only at h ⊢
      split_ifs at h with hnext
      · obtain rfl := (Prod.mk.inj h).1
        rw [Option.map_some, ← hbusy.now, ← hnext]
        exact .refl _
      · exact ih _ _ hbusy hnext h

/-- The work on one job is a run of the system, up to the next job's turn. -/
theorem reaches_work (hw : Busy now w) (hnext : w.phase ≠ .next)
    (h : work inspectProof retryDelay env n site w = (site', true)) :
    Reaches inspectProof retryDelay (alone site.shared (some { w with rest := rest }))
      (alone site'.shared (some ⟨now, .next, rest⟩)) := by
  induction n generalizing site w with
  | zero => cases h
  | succ n ih =>
    exact reaches_work_succ hw (advance_rest hnext hw.select) (fun _ _ hw hnext => ih hw hnext) h

/-- **A job of a run that returns** is a run of the system up to the next job's turn. -/
theorem reaches_processJob (h : processJob inspectProof retryDelay env now site job = (site', true)) :
    Reaches inspectProof retryDelay (alone site.shared (some ⟨now, .next, job :: rest⟩))
      (alone site'.shared (some ⟨now, .next, rest⟩)) :=
  reaches_work_succ (w := ⟨now, .next, [job]⟩) ⟨rfl, fun _ h => (by cases h), fun h => (by cases h)⟩
    advance_next (fun _ _ => reaches_work) h

/-- The loop is a run of the system, up to the end of the worker. -/
theorem reaches_processAll (h : processAll inspectProof retryDelay env now site jobs = (site', true)) :
    Reaches inspectProof retryDelay (alone site.shared (some ⟨now, .next, jobs⟩)) (quiet site'.shared) := by
  induction jobs generalizing site with
  | nil =>
    obtain rfl := (Prod.mk.inj h).1
    have hstop : advance inspectProof retryDelay site.shared ⟨now, .next, []⟩ .done =
        some (.silent, none) := rfl
    exact alone_none (s := site.shared) ▸ reaches_advance hstop
  | cons job jobs ih =>
    rw [processAll] at h
    split_ifs at h with hjob
    · exact (reaches_processJob (Prod.ext rfl hjob)).trans (ih h)
    · cases h

/-- A worker that has tracked its tip and read the jobs that are due. -/
theorem reaches_tracked (invocation : Run) (s : Shared)
    (hjobs : jobs.Perm ((tracked invocation s).store.dueJobs invocation.now)) :
    Reaches inspectProof retryDelay (quiet s) (alone (tracked invocation s)
      (some ⟨invocation.now, .next, jobs⟩)) := by
  have hstart : system inspectProof retryDelay (quiet s) ⟨0, .start invocation⟩ =
      some (alone s (some ⟨invocation.now, .track invocation, []⟩)) := rfl
  have hselect : Reaches inspectProof retryDelay (alone s (some ⟨invocation.now, .track invocation, []⟩))
      (alone (tracked invocation s) (some ⟨invocation.now, .select, []⟩)) := by
    cases htrack : s.store.trackTip invocation.sequence invocation.tipHash invocation.proofPath
        invocation.intervalMinutes invocation.confirmationThreshold with
    | none =>
      have hadvance : advance inspectProof retryDelay s ⟨invocation.now, .track invocation, []⟩ .done =
          some (.silent, some ⟨invocation.now, .select, []⟩) := by
        unfold advance
        dsimp only
        rw [htrack]
        rfl
      rw [tracked, htrack]
      exact reaches_advance hadvance
    | some row =>
      have hadvance : advance inspectProof retryDelay s ⟨invocation.now, .track invocation, []⟩ .done =
          some (.insert row, some ⟨invocation.now, .select, []⟩) := by
        unfold advance
        dsimp only
        rw [htrack]
      rw [tracked, htrack]
      exact reaches_advance hadvance
  have hrows : advance inspectProof retryDelay (tracked invocation s) ⟨invocation.now, .select, []⟩
      (.rows jobs) = some (.silent, some ⟨invocation.now, .next, jobs⟩) := if_pos hjobs
  exact (Reaches.step hstart).trans (hselect.trans (reaches_advance hrows))

/-- **`run_once` is a run of the system**, from the first step to the last. -/
theorem runOnce_run (h : runOnce inspectProof retryDelay env invocation s = (t, true)) :
    Reaches inspectProof retryDelay (quiet s) (quiet t) := by
  obtain ⟨rfl, hreturns⟩ := Prod.mk.inj h
  exact (reaches_tracked invocation s (env.perm _)).trans (reaches_processAll (Prod.ext rfl hreturns))

/-- What a run of the only worker leads to is sound. -/
theorem sound_reaches {s t : State} (h : Sound inspectProof s) (ht : Reaches inspectProof retryDelay s t) :
    Sound inspectProof t := by
  obtain ⟨steps, -, hrun⟩ := ht
  exact run_invariant (fun s step t h ht => sound_step s step t h ht) h hrun

/-! ### What the rows keep -/

/-- A property of rows that every update keeps. -/
structure Lasting (Q : Row → Prop) : Prop where
  finished : ∀ r bitcoin now next, Q r → Q (r.finished bitcoin now next)
  failed : ∀ r (job : Job) failureClass error now next, job.Active → Q r →
    Q (r.failed job failureClass error now next)
  resumed : ∀ r retryFrom, Q r → Q (r.resumed retryFrom)

variable (inspectProof) in
/-- The table and the files are sound, and the rows have a property. -/
structure Consistent (Q : Row → Prop) (s : Shared) : Prop where
  inv : s.Inv inspectProof
  row : ∀ id r, s.store.row id = some r → Q r

/-- A lasting property of the rows is kept by every step, if the rows that workers track have it. -/
theorem consistent_step {Q : Row → Prop} {P : Shared → Worker → Prop} (hlasting : Lasting Q)
    (hinsert : ∀ s w invocation, P s w → w.phase = .track invocation →
      Q ⟨invocation.sequence, invocation.tipHash, .queued, invocation.proofPath, 0, none, none, none, none,
        none, invocation.intervalMinutes, invocation.confirmationThreshold⟩)
    (s : State) (step : Step J) (t : State)
    (h : Holds (Consistent inspectProof Q) (Worker.Inv inspectProof) s) (hok : Allows P s step)
    (ht : system inspectProof retryDelay s step = some t) :
    Holds (Consistent inspectProof Q) (Worker.Inv inspectProof) t := by
  refine invariant_step (P := fun s w _ => P s w)
    (fun s invocation _ => ⟨trivial, fun _ hj => absurd hj List.not_mem_nil⟩)
    (fun s w effect w' hs hw hp hadv => ?_) s step t h (fun w hw _ _ _ _ => hok w hw) ht
  obtain ⟨hI, hext, hw'⟩ := inv_advances hs.inv hw hadv
  refine ⟨⟨hI, fun id r hr => ?_⟩, hw', fun v hv => hv.mono hext⟩
  have hwrite : ∀ {id' : ℕ} {row : Row} {failure : Option FailureClass}, Q row →
      (s.apply (.write id' row failure)).store.row id = some r → Q r := by
    intro id' row failure hrow hr
    rcases row_write hr with ⟨-, rfl⟩ | ⟨-, hr⟩
    · exact hrow
    · exact hs.row id r hr
  have hphase := hw.phase
  cases hadv with
  | @track invocation row hphase htrack =>
    obtain ⟨-, rfl⟩ := trackTip_eq_some htrack
    rcases row_insert hr with ⟨-, rfl⟩ | ⟨-, hr⟩
    · exact hinsert s w invocation hp hphase
    · exact hs.row id r hr
  | resume hphase hrest hresume =>
    obtain ⟨q, retryFrom, hq, -, -, -, rfl⟩ := resumeRetry_eq_ok hresume
    exact hwrite (hlasting.resumed q retryFrom (hs.row _ q hq)) hr
  | update hp hfinish =>
    rw [hp] at hphase
    obtain ⟨q, next, hq, -, -, rfl⟩ := finish_eq_ok hphase.2.1 hfinish
    exact hwrite (hlasting.finished q _ _ next (hs.row _ q hq)) hr
  | fail hp hnext htime hrecord =>
    rw [hp] at hphase
    obtain ⟨q, hq, -, rfl⟩ := recordFailure_eq_ok hrecord
    exact hwrite (hlasting.failed q _ _ _ _ _ hphase.2 (hs.row _ q hq)) hr
  | _ => exact hs.row id r hr

/-- A row that goes back to a state that the table's constraints name. -/
def Resumable (row : Row) : Prop := ∀ retryFrom ∈ row.retryFrom, retryFrom ∈ retrySources

/-- No update gives a row a state to go back to that the constraints do not name. -/
theorem lasting_resumable : Lasting Resumable where
  finished r bitcoin now next _ := fun retryFrom h => by cases h
  failed r job failureClass error now next hactive _ := fun retryFrom h => by
    obtain rfl := Option.some.inj h
    rcases hactive with hstate | hstate <;> rw [hstate] <;> decide
  resumed r retryFrom h := h

/-- A row of a tip that has been tracked with a configuration. -/
structure Admissible (row : Row) : Prop where
  resumable : Resumable row
  interval : 0 < row.intervalMinutes
  digest : row.tipHash.length = 32

/-- No update makes a row inadmissible. -/
theorem lasting_admissible : Lasting Admissible where
  finished r bitcoin now next h :=
    ⟨lasting_resumable.finished r bitcoin now next h.resumable, h.interval, h.digest⟩
  failed r job failureClass error now next hactive h :=
    ⟨lasting_resumable.failed r job failureClass error now next hactive h.resumable, h.interval, h.digest⟩
  resumed r retryFrom h := ⟨lasting_resumable.resumed r retryFrom h.resumable, h.interval, h.digest⟩

/-- The rows in every state that configured workers reach. -/
theorem admissible_run {steps : List (Step J)} {t : State}
    (hrun : run (system inspectProof retryDelay) State.initial steps = some t)
    (hconfigured : Meets (system inspectProof retryDelay) (Allows Configured) State.initial steps) :
    Consistent inspectProof Admissible t.shared := by
  have hinitial : Holds (Consistent inspectProof Admissible) (Worker.Inv inspectProof) State.initial :=
    ⟨⟨sound_initial.shared, fun _ _ h => by cases h⟩, sound_initial.worker⟩
  refine (run_induction (fun s step t h hok ht => ?_) hinitial hconfigured hrun).shared
  refine consistent_step lasting_admissible (fun s w invocation hok hphase => ?_) s step t h hok ht
  exact ⟨fun _ h => (by cases h), (hok invocation hphase).1, (hok invocation hphase).2⟩

/-- A run of the only worker keeps the table and the files sound, and the rows resumable. -/
theorem consistent_reaches (h : Consistent inspectProof Resumable s)
    (hreaches : Reaches inspectProof retryDelay (quiet s) (quiet t)) :
    Consistent inspectProof Resumable t := by
  have hstart : Holds (Consistent inspectProof Resumable) (Worker.Inv inspectProof) (quiet s) :=
    ⟨h, fun _ _ h => by cases h⟩
  have hok : ∀ (s : State) (step : Step J), Allows (fun _ _ => True) s step := fun _ _ _ _ => trivial
  obtain ⟨steps, -, hrun⟩ := hreaches
  refine (run_invariant (fun s step t h ht => ?_) hstart hrun).shared
  exact consistent_step lasting_resumable (fun _ _ _ _ _ _ h => by cases h) s step t h (hok s step) ht

/-! ### What the loop does -/

variable (env) in
/-- What the run has added are proofs of rows, and what it has made is on the way to one. -/
structure Places (s : Shared) (site : Site) : Prop where
  written : ∀ path ∈ site.written, ∃ id row, s.store.row id = some row ∧ row.proofPath = path
  made : ∀ path ∈ site.made, ∃ id row, s.store.row id = some row ∧ path ∈ env.makes row.proofPath

/-- The loop ends if `_process_job` returns for every job, whatever the others have left. -/
theorem processAll_returns (h : Ready env s site jobs)
    (hreturns : ∀ job ∈ jobs, ∀ site, Places env s site → (processed inspectProof retryDelay env now job
      (s.files job.row.proofPath) (env.obstacles site job.row.proofPath)).2 = true) :
    (processAll inspectProof retryDelay env now site jobs).2 = true := by
  induction jobs generalizing site with
  | nil => rfl
  | cons job jobs ih =>
    obtain ⟨hfirst, hrest⟩ := List.forall_mem_cons.1 hreturns
    have hok : (processJob inspectProof retryDelay env now site job).2 = true := by
      rw [h.head]
      exact hfirst site ⟨h.written, h.made⟩
    rw [processAll, if_pos hok]
    exact ih h.tail hrest

variable (inspectProof retryDelay env now) in
/-- The rows and the files that no job of the loop is about stay. -/
theorem processAll_others (h : Ready env s site jobs) :
    (∀ id, id ∉ jobs.map Job.id →
      (processAll inspectProof retryDelay env now site jobs).1.shared.store.row id =
        site.shared.store.row id) ∧
    ∀ path, path ∉ (jobs.map fun job => job.row.proofPath) →
      (processAll inspectProof retryDelay env now site jobs).1.shared.files path =
        site.shared.files path := by
  induction jobs generalizing site with
  | nil => exact ⟨fun _ _ => rfl, fun _ _ => rfl⟩
  | cons job jobs ih =>
    obtain ⟨hrows, hfiles⟩ := ih h.tail
    rw [processAll]
    refine ⟨fun id hid => ?_, fun path hpath => ?_⟩
    · obtain ⟨hid, hids⟩ := not_or.1 (mt List.mem_cons.2 hid)
      split_ifs
      · exact (hrows id hids).trans (h.within.row id hid)
      · exact h.within.row id hid
    · obtain ⟨hpath, hpaths⟩ := not_or.1 (mt List.mem_cons.2 hpath)
      split_ifs
      · exact (hfiles path hpaths).trans (h.within.file path hpath)
      · exact h.within.file path hpath

/-- **A job of a loop that ends** has been processed, and has become what that makes of it. -/
theorem processAll_job (h : Ready env s site jobs)
    (hreturns : (processAll inspectProof retryDelay env now site jobs).2 = true) (hjob : job ∈ jobs) :
    ∃ turn, Places env s turn ∧ (processed inspectProof retryDelay env now job
        (s.files job.row.proofPath) (env.obstacles turn job.row.proofPath)).2 = true ∧
      Agree job (processAll inspectProof retryDelay env now site jobs).1.shared
        (result (.start s) (processed inspectProof retryDelay env now job (s.files job.row.proofPath)
          (env.obstacles turn job.row.proofPath))).1.shared := by
  induction jobs generalizing site with
  | nil => exact absurd hjob List.not_mem_nil
  | cons first jobs ih =>
    rw [processAll] at hreturns ⊢
    split_ifs at hreturns ⊢ with hok
    rcases List.mem_cons.1 hjob with rfl | hjob
    · have htail : Ready env s (processJob inspectProof retryDelay env now site job).1 jobs := h.tail
      have hothers := processAll_others inspectProof retryDelay env now htail
      have hlast := hothers.1 job.id (List.nodup_cons.1 h.ids).1
      have hfile := hothers.2 job.row.proofPath (List.nodup_cons.1 h.paths).1
      rw [h.head] at hok
      refine ⟨site, ⟨h.written, h.made⟩, hok, Agree.trans ⟨hlast, hfile⟩ ?_⟩
      rw [h.head]
      exact foldl_congr (processed_of job _ _) ⟨(h.row job List.mem_cons_self).trans
        (h.start job List.mem_cons_self).symm, h.file job List.mem_cons_self⟩
    · exact ih h.tail hreturns hjob

/-- The row of a tip that is tracked. -/
def freshRow (invocation : Run) : Row :=
  ⟨invocation.sequence, invocation.tipHash, .queued, invocation.proofPath, 0, none, none, none, none, none,
    invocation.intervalMinutes, invocation.confirmationThreshold⟩

/-- `track_tip` finds the row of its tip, or inserts it. -/
theorem tracked_cases (invocation : Run) (s : Shared) :
    (∃ job ∈ s.store.jobs, job.row.sequence = invocation.sequence ∧ job.row.tipHash = invocation.tipHash) ∧
      tracked invocation s = s ∨
    (∀ job ∈ s.store.jobs, ¬ (job.row.sequence = invocation.sequence ∧
      job.row.tipHash = invocation.tipHash)) ∧
      tracked invocation s = s.apply (.insert (freshRow invocation)) := by
  rw [tracked]
  cases htrack : s.store.trackTip invocation.sequence invocation.tipHash invocation.proofPath
      invocation.intervalMinutes invocation.confirmationThreshold with
  | some row =>
    obtain ⟨hnew, rfl⟩ := trackTip_eq_some htrack
    exact Or.inr ⟨hnew, rfl⟩
  | none =>
    rw [LifecycleStore.trackTip] at htrack
    cases hget : s.store.get invocation.sequence invocation.tipHash with
    | none =>
      rw [hget] at htrack
      cases htrack
    | some job =>
      refine Or.inl ⟨⟨job, List.mem_of_find?_eq_some hget, ?_⟩, rfl⟩
      exact (get_eq_some hget).2

/-- The rows that are there stay when a tip is tracked. -/
theorem row_tracked (hs : s.Inv inspectProof) {id : ℕ} {r : Row} (hr : s.store.row id = some r) :
    (tracked invocation s).store.row id = some r := by
  rcases tracked_cases invocation s with ⟨-, heq⟩ | ⟨-, heq⟩
  · rw [heq, hr]
  · rw [heq]
    exact (Function.update_of_ne (hs.bounded id r hr).ne _ _).trans hr

/-- A row after `track_tip` is the fresh one, or was there. -/
theorem of_row_tracked {id : ℕ} {r : Row} (hr : (tracked invocation s).store.row id = some r) :
    r = freshRow invocation ∨ s.store.row id = some r := by
  rcases tracked_cases invocation s with ⟨-, heq⟩ | ⟨-, heq⟩
  · rw [heq] at hr
    exact Or.inr hr
  · rw [heq] at hr
    exact (row_insert hr).imp And.right And.right

/-- `track_tip` leaves the files. -/
theorem files_tracked : (tracked invocation s).files = s.files := by
  rcases tracked_cases invocation s with ⟨-, heq⟩ | ⟨-, heq⟩ <;> rw [heq]
  rfl

/-- After `track_tip` there is a row of the tip. -/
theorem exists_tracked (invocation : Run) (s : Shared) : ∃ id r,
    (tracked invocation s).store.row id = some r ∧ r.sequence = invocation.sequence ∧
      r.tipHash = invocation.tipHash := by
  rcases tracked_cases invocation s with ⟨⟨job, hjob, htip⟩, heq⟩ | ⟨-, heq⟩
  · rw [heq]
    exact ⟨job.id, job.row, (mem_jobs.1 hjob).2, htip⟩
  · rw [heq]
    exact ⟨s.store.count, freshRow invocation, Function.update_self .., rfl, rfl⟩

/-- A tip that has a row is not tracked again. -/
theorem tracked_of_row (hs : s.Inv inspectProof) {id : ℕ} {r : Row} (hr : s.store.row id = some r)
    (hsequence : r.sequence = invocation.sequence) (htip : r.tipHash = invocation.tipHash) :
    tracked invocation s = s := by
  rcases tracked_cases invocation s with ⟨-, heq⟩ | ⟨hnew, -⟩
  · exact heq
  · exact absurd ⟨hsequence, htip⟩ (hnew ⟨id, r⟩ (mem_jobs.2 ⟨hs.bounded id r hr, hr⟩))

/-- `track_tip` keeps the table sound. -/
theorem Consistent.tracked {Q : Row → Prop} (h : Consistent inspectProof Q s) (hQ : Q (freshRow invocation)) :
    Consistent inspectProof Q (tracked invocation s) := by
  refine ⟨?_, fun id r hr => ?_⟩
  · rcases tracked_cases invocation s with ⟨-, heq⟩ | ⟨hnew, heq⟩
    · rw [heq]
      exact h.inv
    · rw [heq]
      refine h.inv.insert ⟨⟨rfl, rfl⟩, fun h => (by cases h), fun h => (by cases h), fun h => (by cases h),
        fun t ht => (by cases ht)⟩ ?_ hnew
      rintro (hstate | hstate | ⟨hstate, -⟩) <;> cases hstate
  · rcases of_row_tracked hr with rfl | hr
    · exact hQ
    · exact h.row id r hr

/-- The property of the rows may be weakened. -/
theorem Consistent.imp {Q Q' : Row → Prop} (h : Consistent inspectProof Q s) (hQ : ∀ r, Q r → Q' r) :
    Consistent inspectProof Q' s :=
  ⟨h.inv, fun id r hr => hQ r (h.row id r hr)⟩

/-- The rows of a sound table have paths of their own, which name their tips. -/
theorem Consistent.distinctPaths {Q : Row → Prop} (h : Consistent inspectProof Q s) :
    DistinctPaths s.store := by
  intro id id' r r' hr hr' hpath
  obtain ⟨hsequence, htip⟩ := (h.inv.lawful id r hr).path
  obtain ⟨hsequence', htip'⟩ := (h.inv.lawful id' r' hr').path
  rw [hpath] at hsequence htip
  exact h.inv.unique id id' r r' hr hr' (hsequence.symm.trans hsequence') (htip.symm.trans htip')

/-- The due jobs of a sound table are ready for the loop, in any order. -/
theorem Consistent.ready (h : Consistent inspectProof Resumable s) :
    Ready env s (.start s) (env.order (s.store.dueJobs now)) :=
  Isolation.ready env ⟨⟨h.inv.bounded, h.inv.unique⟩, h.row⟩ h.distinctPaths (env.perm _)

/-- A row that is due comes in the loop. -/
theorem mem_order {id : ℕ} {r : Row} (hs : s.Inv inspectProof) (hr : s.store.row id = some r)
    (hdue : LifecycleStore.due now r) : ⟨id, r⟩ ∈ env.order (s.store.dueJobs now) :=
  (env.perm _).mem_iff.2 (mem_dueJobs.2 ⟨hs.bounded id r hr, hr, hdue⟩)

/-- What comes in the loop is a row that is due. -/
theorem of_mem_order (hjob : job ∈ env.order (s.store.dueJobs now)) :
    s.store.row job.id = some job.row ∧ LifecycleStore.due now job.row :=
  (mem_dueJobs.1 ((env.perm _).mem_iff.1 hjob)).2

/-- The loop leaves the row and the proof of a row that is not due. -/
theorem loop_not_due (h : Consistent inspectProof Resumable s) {id : ℕ} {r : Row}
    (hr : s.store.row id = some r) (hdue : ¬ LifecycleStore.due now r) :
    (loop inspectProof retryDelay env now s).1.store.row id = some r ∧
      (loop inspectProof retryDelay env now s).1.files r.proofPath = s.files r.proofPath := by
  have hother : ∀ job ∈ env.order (s.store.dueJobs now), job.id ≠ id := by
    rintro job hjob rfl
    obtain ⟨hrow, hjobdue⟩ := of_mem_order hjob
    obtain rfl := Option.some.inj (hr.symm.trans hrow)
    exact hdue hjobdue
  refine ⟨((processAll_others _ _ _ _ h.ready).1 id fun hid => ?_).trans hr,
    (processAll_others _ _ _ _ h.ready).2 r.proofPath fun hpath => ?_⟩
  · obtain ⟨job, hjob, hid⟩ := List.mem_map.1 hid
    exact hother job hjob hid
  · obtain ⟨job, hjob, hpath⟩ := List.mem_map.1 hpath
    exact hother job hjob (h.distinctPaths job.id id job.row r (of_mem_order hjob).1 hr hpath)

/-- The row that is written last is the one that the table has. -/
theorem row_foldl_append {deeds : List Deed} {id : ℕ} {row : Row} {failure : Option FailureClass} :
    ((deeds ++ [Deed.effect (.write id row failure)]).foldl Site.apply site).shared.store.row id =
      some row := by
  rw [List.foldl_append]
  exact row_write_self

/-! ### No job is due any more -/

section

/-- Where no exception is raised, the deeds end with a row that is not due. -/
def Leaves (now : ℕ) (job : Job) (r : List Deed × Option Raised) : Prop :=
  r.2 = none → ∃ deeds row failure, r.1 = deeds ++ [.effect (.write job.id row failure)] ∧
    ¬ LifecycleStore.due now row

variable {obstacles : Obstacles} {file : Option (List UInt8)} {proof : List UInt8} {bitcoin replace : Bool}
  {answer : Answer}
  {raised : Raised} {row : Row}

/-- Nothing is said of an attempt that raises. -/
theorem leaves_raised {deeds : List Deed} : Leaves now job (deeds, some raised) := fun h => by cases h

/-- A row whose next attempt is later is not due, unless it is queued. -/
theorem not_due_later {next : ℕ} (hstate : row.state ≠ .queued) (hnext : row.nextAttempt = some next)
    (h : now < next) : ¬ LifecycleStore.due now row := by
  have hlate : ∀ t ∈ row.nextAttempt, ¬ t ≤ now := by
    intro t ht
    rw [hnext] at ht
    exact Option.some.inj ht ▸ Nat.not_le.2 h
  rintro (hqueued | ⟨-, hnone | ⟨t, ht, hle⟩⟩ | ⟨-, -, t, ht, hle⟩)
  · exact hstate hqueued
  · rw [hnext] at hnone
    cases hnone
  · exact hlate t ht hle
  · exact hlate t ht hle

/-- A settled row is not due. -/
theorem not_due_settled (h : row.Settled) : ¬ LifecycleStore.due now row := fun hdue =>
  not_settled_of_due hdue h

/-- After a proof the next check is later, by the interval. -/
theorem finishing_leaves (hinterval : 0 < job.row.intervalMinutes) :
    Leaves now job (finishing now job bitcoin) := by
  rw [finishing]
  split_ifs with hbitcoin
  · exact fun _ => ⟨[], _, _, rfl, not_due_settled (Or.inl rfl)⟩
  · refine fun _ => ⟨[], _, _, rfl, not_due_later (fun h => ?_) rfl (by omega)⟩
    cases h
  · exact leaves_raised

/-- A published proof leaves a row that is not due. -/
theorem publishing_leaves (hinterval : 0 < job.row.intervalMinutes) :
    Leaves now job (publishing env now job proof bitcoin replace obstacles) := by
  rw [publishing]
  split_ifs
  · exact leaves_raised
  · exact leaves_raised
  · exact leaves_raised
  · exact leaves_raised
  · intro hnone
    obtain ⟨deeds, row, failure, hdeeds, hdue⟩ := finishing_leaves hinterval hnone
    exact ⟨_ :: _ :: deeds, row, failure, congrArg (_ :: _ :: ·) hdeeds, hdue⟩

/-- An answer that leads to no exception leaves a row that is not due. -/
theorem answering_leaves (hinterval : 0 < job.row.intervalMinutes) :
    Leaves now job (answering inspectProof env now job replace obstacles answer) := by
  unfold answering
  split
  · split
    · exact publishing_leaves hinterval
    · exact leaves_raised
  · split_ifs
    · exact finishing_leaves hinterval
    · exact leaves_raised
  · exact leaves_raised
  · exact leaves_raised

/-- A proof that is read without an exception leaves a row that is not due. -/
theorem reading_leaves (hinterval : 0 < job.row.intervalMinutes) :
    Leaves now job (reading inspectProof env now job obstacles file) := by
  unfold reading
  split
  · exact leaves_raised
  · split_ifs
    · exact leaves_raised
    · split
      · exact leaves_raised
      · split_ifs
        · exact answering_leaves hinterval
        · exact finishing_leaves hinterval

/-- An attempt that raises nothing leaves a row that is not due. -/
theorem attempt_leaves (hinterval : 0 < job.row.intervalMinutes) (hactive : job.Active) :
    Leaves now job (attempt inspectProof env now job file obstacles) := by
  unfold attempt
  rcases hactive with hstate | hstate <;> rw [hstate] <;> dsimp only <;> split_ifs
  · exact answering_leaves hinterval
  · exact reading_leaves hinterval
  · exact leaves_raised
  · exact reading_leaves hinterval

/-- A failure that is recorded leaves a row that is not due. -/
theorem recording_leaves {error : Cause} {failureClass : FailureClass}
    (hdelay : ∀ n jitter delay, retryDelay n jitter = some delay → 0 < delay)
    (h : (recording retryDelay env now job error failureClass).2 = true) :
    ∃ row failure, (recording retryDelay env now job error failureClass).1 =
        [.effect (.write job.id row failure)] ∧
      ¬ LifecycleStore.due now row := by
  unfold recording at h ⊢
  split at h
  · exact ⟨_, _, rfl, not_due_settled (Or.inr ⟨rfl, rfl⟩)⟩
  · split at h
    · rename_i delay heq
      split_ifs at h ⊢
      have := hdelay _ _ _ heq
      refine ⟨_, _, rfl, not_due_later (fun h => ?_) rfl (by omega)⟩
      cases h
    · cases h

/-- An attempt and its handler leave a row that is not due, if they return. -/
theorem handled_leaves (hdelay : ∀ n jitter delay, retryDelay n jitter = some delay → 0 < delay)
    {r : List Deed × Option Raised} (hr : Leaves now job r)
    (h : (handled retryDelay env now job r).2 = true) :
    ∃ deeds row failure, (handled retryDelay env now job r).1 =
      deeds ++ [.effect (.write job.id row failure)] ∧ ¬ LifecycleStore.due now row := by
  obtain ⟨deeds, raised⟩ := r
  rw [handled] at h ⊢
  unfold handling at h ⊢
  cases raised with
  | none =>
    dsimp only
    rw [List.append_nil]
    exact hr rfl
  | some raised =>
    dsimp only at h ⊢
    split_ifs at h ⊢
    obtain ⟨row, failure, hdeeds, hdue⟩ := recording_leaves hdelay h
    exact ⟨deeds, row, failure, congrArg (deeds ++ ·) hdeeds, hdue⟩

/-- The job as it is processed: it is active, or the retry goes back to a state without work. -/
theorem resume_cases (hresumable : Resumable job.row) (hdue : LifecycleStore.due now job.row) {resumed : Job}
    (h : resume job = some resumed) :
    resumed.Active ∨ job.row.state = .retryFailed ∧ resumed.row.state = .upgradedUnverified := by
  rw [resume] at h
  split_ifs at h with hfailed
  · obtain ⟨retryFrom, hretry, rfl⟩ := Option.map_eq_some_iff.1 h
    have hsource := hresumable retryFrom hretry
    simp only [retrySources, List.mem_cons, List.not_mem_nil, or_false] at hsource
    rcases hsource with rfl | rfl | rfl
    · exact Or.inl (Or.inl rfl)
    · exact Or.inl (Or.inr rfl)
    · exact Or.inr ⟨hfailed, rfl⟩
  · obtain rfl := Option.some.inj h
    rcases hdue with hstate | ⟨hstate, -⟩ | ⟨hstate, -⟩
    · exact Or.inl (Or.inl hstate)
    · exact Or.inl (Or.inr hstate)
    · exact absurd hstate hfailed

/-- **A job that has been processed is not due.** -/
theorem processed_leaves (hdelay : ∀ n jitter delay, retryDelay n jitter = some delay → 0 < delay)
    (hinterval : 0 < job.row.intervalMinutes) (hresumable : Resumable job.row)
    (hdue : LifecycleStore.due now job.row)
    (h : (processed inspectProof retryDelay env now job file obstacles).2 = true) :
    ∃ deeds row failure, (processed inspectProof retryDelay env now job file obstacles).1 =
      deeds ++ [.effect (.write job.id row failure)] ∧ ¬ LifecycleStore.due now row := by
  unfold processed at h ⊢
  cases hresume : resume job with
  | none =>
    rw [hresume] at h
    cases h
  | some resumed =>
    rw [hresume] at h
    dsimp only at h ⊢
    obtain ⟨hid, -, -⟩ := resume_eq_some hresume
    have hlonger : 0 < resumed.row.intervalMinutes := by
      rw [resume] at hresume
      split_ifs at hresume
      · obtain ⟨retryFrom, -, rfl⟩ := Option.map_eq_some_iff.1 hresume
        exact hinterval
      · obtain rfl := Option.some.inj hresume
        exact hinterval
    rcases resume_cases hresumable hdue hresume with hactive | ⟨hfailed, hupgraded⟩
    · obtain ⟨deeds, row, failure, hdeeds, hrow⟩ :=
        handled_leaves hdelay (attempt_leaves hlonger hactive) h
      rw [hdeeds, hid]
      exact ⟨_, row, failure, (List.append_assoc ..).symm, hrow⟩
    · rw [resuming, if_pos hfailed]
      unfold attempt
      rw [hupgraded]
      exact ⟨[], _, _, rfl, not_due_settled (Or.inl hupgraded)⟩

/-- **A run that returns leaves no job that is due.** -/
theorem loop_idle (hdelay : ∀ n jitter delay, retryDelay n jitter = some delay → 0 < delay)
    (h : Consistent inspectProof Admissible s)
    (hreturns : (loop inspectProof retryDelay env now s).2 = true) :
    (loop inspectProof retryDelay env now s).1.store.dueJobs now = [] := by
  have hresumable : Consistent inspectProof Resumable s := h.imp fun r hr => hr.resumable
  refine List.eq_nil_iff_forall_not_mem.2 fun job hjob => ?_
  obtain ⟨hid, hrow, hdue⟩ := mem_dueJobs.1 hjob
  cases hold : s.store.row job.id with
  | none =>
    have hother : job.id ∉ (env.order (s.store.dueJobs now)).map Job.id := by
      intro hmem
      obtain ⟨job', hjob', hid'⟩ := List.mem_map.1 hmem
      rw [← hid', (of_mem_order hjob').1] at hold
      cases hold
    have hsame : (loop inspectProof retryDelay env now s).1.store.row job.id = s.store.row job.id :=
      (processAll_others _ _ _ _ hresumable.ready).1 _ hother
    rw [hsame, hold] at hrow
    cases hrow
  | some r =>
    by_cases hwas : LifecycleStore.due now r
    · obtain ⟨hresumes, hinterval, -⟩ := h.row _ _ hold
      obtain ⟨turn, -, hreturn, hagree⟩ :=
        processAll_job hresumable.ready hreturns (mem_order h.inv hold hwas)
      obtain ⟨deeds, row, failure, hdeeds, hrow'⟩ :=
        processed_leaves hdelay hinterval hresumes hwas hreturn
      have hlast := hagree.1
      rw [result, hdeeds, row_foldl_append] at hlast
      exact hrow' (Option.some.inj (hrow.symm.trans hlast) ▸ hdue)
    · rw [(loop_not_due hresumable hold hwas).1] at hrow
      exact hwas (Option.some.inj hrow ▸ hdue)

/-- The rows keep their tips. -/
theorem loop_sameTip (h : Consistent inspectProof Resumable s)
    (hreturns : (loop inspectProof retryDelay env now s).2 = true) {id : ℕ}
    {r : Row} (hr : s.store.row id = some r) :
    ∃ r', (loop inspectProof retryDelay env now s).1.store.row id = some r' ∧ r.SameTip r' := by
  by_cases hdue : LifecycleStore.due now r
  · obtain ⟨turn, -, -, hagree⟩ := processAll_job h.ready hreturns (mem_order h.inv hr hdue)
    have hwithin : Within ⟨id, r⟩ s (result (.start s) (processed inspectProof retryDelay env now ⟨id, r⟩
        (s.files r.proofPath) (env.obstacles turn r.proofPath))).1.shared := by
      have hstart : (Site.start s).shared = s := rfl
      rw [← hstart]
      exact foldl_within (processed_of _ _ _)
    obtain ⟨r', hr', htip⟩ := hwithin.tip ⟨r, hr, .refl r⟩
    exact ⟨r', hagree.1.trans hr', htip⟩
  · exact ⟨r, (loop_not_due h hr hdue).1, .refl r⟩

/-- A run with no new tip and nothing due does nothing. -/
theorem runOnce_idle (htracked : tracked invocation s = s) (hidle : s.store.dueJobs invocation.now = []) :
    runOnce inspectProof retryDelay env invocation s = (s, true) := by
  rw [runOnce, htracked, loop, hidle, List.perm_nil.1 (env.perm [])]
  rfl

/-- A run that returns, from any state of the workers, and another one at its time. -/
theorem idle_after_run {steps : List (Step J)} {t : State}
    (hrun : run (system inspectProof retryDelay) State.initial steps = some t)
    (hconfigured : Meets (system inspectProof retryDelay) (Allows Configured) State.initial steps)
    (hdelay : ∀ n jitter delay, retryDelay n jitter = some delay → 0 < delay)
    (hinvocation : 0 < invocation.intervalMinutes ∧ invocation.tipHash.length = 32)
    (hreturns : runOnce inspectProof retryDelay env invocation t.shared = (u, true)) :
    u.store.dueJobs invocation.now = [] ∧
      ∀ (env' : Environment J) (later : Run), later.now = invocation.now →
        later.sequence = invocation.sequence → later.tipHash = invocation.tipHash →
        runOnce inspectProof retryDelay env' later u = (u, true) := by
  have hrows := admissible_run hrun hconfigured
  have hconsistent : Consistent inspectProof Admissible (tracked invocation t.shared) :=
    hrows.tracked ⟨fun _ h => (by cases h), hinvocation.1, hinvocation.2⟩
  have hresumable := hconsistent.imp fun r hr => hr.resumable
  have hsnd : (loop inspectProof retryDelay env invocation.now (tracked invocation t.shared)).2 = true :=
    congrArg Prod.snd hreturns
  obtain rfl : (runOnce inspectProof retryDelay env invocation t.shared).1 = u := congrArg Prod.fst hreturns
  have hidle : (runOnce inspectProof retryDelay env invocation t.shared).1.store.dueJobs invocation.now = [] :=
    loop_idle hdelay hconsistent hsnd
  refine ⟨hidle, fun env' later hnow hsequence htip => ?_⟩
  have hquiet : Sound inspectProof (quiet t.shared) := ⟨hrows.inv, fun _ _ h => by cases h⟩
  have hinv := (sound_reaches hquiet (runOnce_run hreturns)).shared
  obtain ⟨id, r, hr, hrsequence, hrtip⟩ := exists_tracked invocation t.shared
  obtain ⟨r', hr', hsame⟩ := loop_sameTip hresumable hsnd hr
  have htracked : tracked later (runOnce inspectProof retryDelay env invocation t.shared).1 =
      (runOnce inspectProof retryDelay env invocation t.shared).1 := tracked_of_row hinv hr'
    (hsame.1.trans (hrsequence.trans hsequence.symm)) (hsame.2.1.trans (hrtip.trans htip.symm))
  exact runOnce_idle htracked (hnow ▸ hidle)

/-- **Another run at the same time does nothing.**  In any state that any number of workers has left
behind, kills included, a run that returns leaves no job that is due.  So one that comes after it
at the same time, for the same tip, calls no calendar and changes nothing, whatever would answer. -/
theorem second_run_idle {steps : List (Step J)} {t : State}
    (hrun : run (system inspectProof retryDelay) State.initial steps = some t)
    (hconfigured : Meets (system inspectProof retryDelay) (Allows Configured) State.initial steps)
    (hdelay : ∀ n jitter delay, retryDelay n jitter = some delay → 0 < delay)
    (hinvocation : 0 < invocation.intervalMinutes ∧ invocation.tipHash.length = 32)
    (hreturns : runOnce inspectProof retryDelay env invocation t.shared = (u, true)) :
    u.store.dueJobs invocation.now = [] ∧
      ∀ (env' : Environment J) (later : Run), later.now = invocation.now →
        later.sequence = invocation.sequence → later.tipHash = invocation.tipHash →
        runOnce inspectProof retryDelay env' later u = (u, true) :=
  idle_after_run hrun hconfigured hdelay hinvocation hreturns

/-- So it is with the delay that `_process_job` adds, which is never zero. -/
theorem idle_after_backoff {steps : List (Step ℚ)} {t : State} {env : Environment ℚ} {u : Shared}
    (hrun : run (system inspectProof Pacing.retryMicroseconds) State.initial steps = some t)
    (hconfigured : Meets (system inspectProof Pacing.retryMicroseconds) (Allows Configured) State.initial steps)
    (hinvocation : 0 < invocation.intervalMinutes ∧ invocation.tipHash.length = 32)
    (hreturns : runOnce inspectProof Pacing.retryMicroseconds env invocation t.shared = (u, true)) :
    u.store.dueJobs invocation.now = [] ∧
      ∀ (env' : Environment ℚ) (later : Run), later.now = invocation.now →
        later.sequence = invocation.sequence → later.tipHash = invocation.tipHash →
        runOnce inspectProof Pacing.retryMicroseconds env' later u = (u, true) :=
  idle_after_run hrun hconfigured (fun _ _ _ => Pacing.retryMicroseconds_pos) hinvocation hreturns

/-! ### The calendars answer again -/

/-- When a row is looked at again after a proof. -/
def nextCheck (now : ℕ) (row : Row) (bitcoin : Bool) : Option ℕ :=
  if bitcoin = true then none else some (now + row.intervalMinutes * 60000000)

variable (inspectProof) in
/-- No exception is raised; the row is updated for the proof that is then in the file. -/
structure Succeeds (now : ℕ) (job : Job) (file : Option (List UInt8)) (bitcoin : Bool)
    (r : List Deed × Option Raised) : Prop where
  returned : r.2 = none
  deeds : ∃ proof, inspectProof proof job.row.tipHash = some bitcoin ∧
    (file = some proof ∧
        r.1 = [.effect (.write job.id (job.row.finished bitcoin now (nextCheck now job.row bitcoin)) none)] ∨
      ∃ replace, r.1 = [.mkdir job.row.proofPath, .effect (.put job.row.proofPath proof replace),
        .effect (.write job.id (job.row.finished bitcoin now (nextCheck now job.row bitcoin)) none)])

/-- Nothing is in the way. -/
abbrev clear : Obstacles := ⟨false, false⟩

/-- A row is finished when the next check is a date. -/
theorem finishing_eq (hbound : now + job.row.intervalMinutes * 60000000 ≤ maxTime) :
    finishing now job bitcoin =
      ([.effect (.write job.id (job.row.finished bitcoin now (nextCheck now job.row bitcoin)) none)],
        none) := by
  rw [finishing, nextCheck, if_pos hbound]
  cases bitcoin <;> rfl

/-- A proof that is there is enough to finish the row. -/
theorem finishing_succeeds (hbound : now + job.row.intervalMinutes * 60000000 ≤ maxTime)
    (hinspect : inspectProof proof job.row.tipHash = some bitcoin) :
    Succeeds inspectProof now job (some proof) bitcoin (finishing now job bitcoin) := by
  rw [finishing_eq hbound]
  exact ⟨rfl, proof, hinspect, Or.inl ⟨rfl, rfl⟩⟩

/-- A proof that is returned can be written, where the file system answers. -/
theorem publishing_succeeds (henv : Answers inspectProof env job.row.tipHash)
    (hbound : now + job.row.intervalMinutes * 60000000 ≤ maxTime) (hproof : proof ≠ [])
    (hinspect : inspectProof proof job.row.tipHash = some bitcoin) :
    Succeeds inspectProof now job file bitcoin (publishing env now job proof bitcoin replace clear) := by
  rw [publishing, if_neg hproof, if_neg Bool.false_ne_true,
    if_neg (by rw [henv.makeable]; exact Bool.false_ne_true),
    if_neg (by rw [henv.writable]; exact Bool.false_ne_true), finishing_eq hbound]
  exact ⟨rfl, proof, hinspect, Or.inr ⟨replace, rfl⟩⟩

/-- A proof for the tip that is returned is published, and the row is finished. -/
theorem answering_succeeds (henv : Answers inspectProof env job.row.tipHash)
    (hbound : now + job.row.intervalMinutes * 60000000 ≤ maxTime) (hproof : proof ≠ [])
    (hinspect : inspectProof proof job.row.tipHash = some bitcoin)
    (hanswer : answer = .returned (some proof)) :
    Succeeds inspectProof now job file bitcoin
      (answering inspectProof env now job replace clear answer) := by
  rw [hanswer, answering, hinspect]
  exact publishing_succeeds henv hbound hproof hinspect

/-- A proof in the file is enough, unless the row waits for its Bitcoin attestation. -/
theorem reading_succeeds (henv : Answers inspectProof env job.row.tipHash)
    (hbound : now + job.row.intervalMinutes * 60000000 ≤ maxTime)
    (hvalid : inspectProof proof job.row.tipHash ≠ none) :
    ∃ bitcoin, Succeeds inspectProof now job (some proof) bitcoin
        (reading inspectProof env now job clear (some proof)) ∧
      (bitcoin = false → job.row.state ≠ .submittedPending) := by
  obtain ⟨bitcoin, hinspect⟩ := Option.ne_none_iff_exists'.1 hvalid
  rw [reading, if_neg (by rw [henv.readable]; exact not_or.2 ⟨Bool.false_ne_true, Bool.false_ne_true⟩),
    hinspect]
  dsimp only
  split_ifs with hpending
  · obtain ⟨-, rfl⟩ := hpending
    obtain ⟨upgraded, hanswer, hproof, hupgraded⟩ := henv.upgrades proof hinspect
    exact ⟨true, answering_succeeds henv hbound hproof hupgraded hanswer, fun h => by cases h⟩
  · exact ⟨bitcoin, finishing_succeeds hbound hinspect, fun hfalse hstate => hpending ⟨hstate, hfalse⟩⟩

/-- An attempt succeeds when the calendars answer, with a Bitcoin proof if the row has been pending. -/
theorem attempt_succeeds (henv : Answers inspectProof env job.row.tipHash) (hactive : job.Active)
    (hbound : now + job.row.intervalMinutes * 60000000 ≤ maxTime)
    (hbacked : job.row.state = .submittedPending → file ≠ none)
    (hvalid : ∀ proof, file = some proof → inspectProof proof job.row.tipHash ≠ none) :
    ∃ bitcoin, Succeeds inspectProof now job file bitcoin (attempt inspectProof env now job file clear) ∧
      (bitcoin = false → job.row.state ≠ .submittedPending) := by
  unfold attempt
  rcases hactive with hstate | hstate
  · cases file with
    | none =>
      obtain ⟨proof, bitcoin, hanswer, hproof, hinspect⟩ := henv.stamps
      refine ⟨bitcoin, ?_, fun _ h => ?_⟩
      · rw [hstate]
        dsimp only
        rw [if_pos ⟨rfl, rfl⟩]
        exact answering_succeeds henv hbound hproof hinspect hanswer
      · rw [hstate] at h
        cases h
    | some proof =>
      rw [hstate]
      dsimp only
      rw [if_neg fun h => by cases h.1]
      have := reading_succeeds henv hbound (hvalid proof rfl)
      rwa [hstate] at this
  · cases file with
    | none => exact absurd rfl (hbacked hstate)
    | some proof =>
      have := reading_succeeds henv hbound (hvalid proof rfl)
      rw [hstate] at this ⊢
      dsimp only
      rw [if_neg fun h => by cases h.1]
      exact this

/-- A file has the Bitcoin attestation that its proof has. -/
theorem hasBitcoin_of_file {path : ProofPath} (hfile : s.files path = some proof)
    (hinspect : inspectProof proof path.tipHash = some bitcoin) :
    hasBitcoin inspectProof s path = bitcoin := by
  rw [hasBitcoin, hfile]
  dsimp only
  rw [hinspect]
  cases bitcoin <;> rfl

variable (inspectProof) in
/-- What a run makes of a row when the calendars answer. -/
structure Advanced (now : ℕ) (r r' : Row) (bitcoin : Bool) (u : Shared) : Prop where
  tip : r.SameTip r'
  interval : r'.intervalMinutes = r.intervalMinutes
  state : r'.state = targetState bitcoin
  next : r'.nextAttempt = nextCheck now r bitcoin
  proof : hasBitcoin inspectProof u r'.proofPath = bitcoin
  bitcoin : r.state = .submittedPending → bitcoin = true

/-- The row of a job that is processed, if it is not settled. -/
theorem exists_resume {id : ℕ} {r : Row} (hlawful : r.Lawful) (hsettled : ¬ r.Settled) :
    ∃ q : Row, resume ⟨id, r⟩ = some ⟨id, q⟩ ∧ (q.state = .queued ∨ q.state = .submittedPending) ∧
      r.SameTip q ∧ q.intervalMinutes = r.intervalMinutes ∧
      (q.state = .submittedPending → r.Submitted) ∧
      (r.state = .submittedPending → q.state = .submittedPending) := by
  by_cases hfailed : r.state = .retryFailed
  · rw [resume, if_pos hfailed]
    have hother : r.state ≠ .submittedPending := by
      rw [hfailed]
      decide
    rcases hlawful.retry hfailed with hretry | hretry <;> dsimp only <;> rw [hretry]
    · exact ⟨_, rfl, Or.inl rfl, ⟨rfl, rfl, rfl⟩, rfl, fun h => (by cases h), fun h => absurd h hother⟩
    · exact ⟨_, rfl, Or.inr rfl, ⟨rfl, rfl, rfl⟩, rfl, fun _ => Or.inr (Or.inr ⟨hfailed, hretry⟩),
        fun h => absurd h hother⟩
  · rw [resume, if_neg hfailed]
    refine ⟨r, rfl, ?_, .refl r, rfl, Or.inl, fun h => h⟩
    cases hstate : r.state with
    | queued => exact Or.inl rfl
    | submittedPending => exact Or.inr rfl
    | upgradedUnverified => exact absurd (Or.inl hstate) hsettled
    | independentlyVerified => exact absurd hstate hlawful.state
    | retryFailed => exact absurd hstate hfailed

/-- An attempt that raises nothing is not handled. -/
theorem handled_returned {r : List Deed × Option Raised} (h : r.2 = none) :
    handled retryDelay env now job r = (r.1, true) := by
  rw [handled, h, handling, List.append_nil]

variable (retryDelay) in
/-- **A row that is not settled advances** when the calendars answer and nothing is in the way. -/
theorem processed_advances {id : ℕ} {r : Row} (henv : Answers inspectProof env r.tipHash)
    (hs : s.Inv inspectProof) (hr : s.store.row id = some r) (hsettled : ¬ r.Settled)
    (hbound : now + r.intervalMinutes * 60000000 ≤ maxTime) :
    (processed inspectProof retryDelay env now ⟨id, r⟩ (s.files r.proofPath) clear).2 = true ∧ ∃ r' b,
      (result (.start s) (processed inspectProof retryDelay env now ⟨id, r⟩
        (s.files r.proofPath) clear)).1.shared.store.row id = some r' ∧
      Advanced inspectProof now r r' b (result (.start s)
        (processed inspectProof retryDelay env now ⟨id, r⟩ (s.files r.proofPath) clear)).1.shared := by
  have hlawful := hs.lawful id r hr
  obtain ⟨q, hresume, hactive, htip, hinterval, hsubmitted, hpending⟩ := exists_resume hlawful hsettled
  obtain ⟨b, hsucceeds, hb⟩ := attempt_succeeds (htip.2.1.symm ▸ henv) (show Job.Active ⟨id, q⟩ from hactive)
    (hinterval ▸ hbound)
    (fun hstate => hs.backed id r hr (hsubmitted hstate)) fun proof hproof => by
      have := hs.bound _ _ hproof
      rwa [hlawful.path.2, ← htip.2.1] at this
  unfold processed
  rw [hresume]
  dsimp only
  rw [handled_returned hsucceeds.returned]
  refine ⟨rfl, q.finished b now (nextCheck now q b), b, ?_⟩
  obtain ⟨proof, hinspect, hdeeds⟩ := hsucceeds.deeds
  -- the retry is resumed first, which leaves the files as they are
  have hfiles : ((resuming ⟨id, r⟩ ⟨id, q⟩).foldl Site.apply (.start s)).shared.files = s.files := by
    rw [resuming]
    split_ifs <;> rfl
  rw [result]
  dsimp only
  have hadvanced : ∀ u : Shared, u.files q.proofPath = some proof →
      Advanced inspectProof now r (q.finished b now (nextCheck now q b)) b u := by
    refine fun u hfile => ⟨htip, hinterval, rfl, ?_, hasBitcoin_of_file hfile ?_, fun hstate => ?_⟩
    · show nextCheck now q b = nextCheck now r b
      rw [nextCheck, nextCheck, hinterval]
    · show inspectProof proof q.proofPath.tipHash = some b
      rw [htip.2.2, hlawful.path.2, ← htip.2.1]
      exact hinspect
    · cases b with
      | true => rfl
      | false => exact absurd (hpending hstate) (hb rfl)
  rcases hdeeds with ⟨hfile, hdeeds⟩ | ⟨replace, hdeeds⟩
  · rw [hdeeds, List.foldl_append]
    refine ⟨Function.update_self .., hadvanced _ ?_⟩
    show ((resuming ⟨id, r⟩ ⟨id, q⟩).foldl Site.apply (.start s)).shared.files q.proofPath = some proof
    rw [hfiles, htip.2.2]
    exact hfile
  · rw [hdeeds, List.foldl_append]
    exact ⟨Function.update_self .., hadvanced _ (apply_put_self _ proof replace)⟩

/-- What a run makes of a row depends on its proof file only. -/
theorem Advanced.congr {r r' : Row} {b : Bool} (h : Advanced inspectProof now r r' b u)
    (hfile : t.files r.proofPath = u.files r.proofPath) : Advanced inspectProof now r r' b t := by
  refine ⟨h.tip, h.interval, h.state, h.next, ?_, h.bitcoin⟩
  have hproof := h.proof
  rw [hasBitcoin, h.tip.2.2] at hproof ⊢
  rwa [hfile]

/-- A row that is not settled is due at a time when it need not wait any more. -/
theorem due_of_not_settled {r : Row} (hlawful : r.Lawful) (hsettled : ¬ r.Settled)
    (htime : ∀ n ∈ r.nextAttempt, n ≤ now) : LifecycleStore.due now r := by
  cases hstate : r.state with
  | queued => exact Or.inl hstate
  | submittedPending =>
    refine Or.inr (Or.inl ⟨hstate, ?_⟩)
    cases hnext : r.nextAttempt with
    | none => exact Or.inl rfl
    | some n => exact Or.inr ⟨n, rfl, htime n hnext⟩
  | upgradedUnverified => exact absurd (Or.inl hstate) hsettled
  | independentlyVerified => exact absurd hstate hlawful.state
  | retryFailed =>
    rcases hlawful.failure hstate with ⟨hclass, -⟩ | ⟨hclass, hnext⟩
    · exact absurd (Or.inr ⟨hstate, hclass⟩) hsettled
    · obtain ⟨n, hn⟩ := Option.ne_none_iff_exists'.1 hnext
      exact Or.inr (Or.inr ⟨hstate, hclass, n, hn, htime n hn⟩)

/-- No proof of a row is on the way to another one. -/
def Flat (store : LifecycleStore) : Prop := ∀ id id' row row', store.row id = some row →
  store.row id' = some row' → ¬ row.proofPath.Below row'.proofPath

/-- Where the file system answers and the proofs are apart, nothing is in the way. -/
theorem obstacles_clear {digest : List UInt8} (henv : Answers inspectProof env digest)
    (hflat : Flat s.store) (hsite : Places env s site) {id : ℕ} {r : Row} (hr : s.store.row id = some r) :
    env.obstacles site r.proofPath = clear := by
  have hdirectory : ¬ (env.obstacles site r.proofPath).directory = true := by
    rw [directory_iff, henv.place]
    rintro (⟨path, hpath, hbelow⟩ | hfalse)
    · obtain ⟨id', r', hr', hmakes⟩ := hsite.made path hpath
      exact hflat _ _ _ _ hr' hr (below_of_makes hmakes hbelow)
    · cases hfalse
  have hparent : ¬ (env.obstacles site r.proofPath).parent = true := by
    rw [parent_iff]
    rintro ⟨path, hpath, hbelow⟩
    obtain ⟨id', r', hr', rfl⟩ := hsite.written path hpath
    exact hflat _ _ _ _ hr hr' hbelow
  exact Obstacles.ext (Bool.eq_false_iff.2 hdirectory) (Bool.eq_false_iff.2 hparent)

variable (retryDelay) in
/-- **A run advances every row that is not settled** when the calendars answer, and it returns. -/
theorem runOnce_advances (hs : Consistent inspectProof Resumable s)
    (henv : ∀ id r, (tracked invocation s).store.row id = some r → Answers inspectProof env r.tipHash)
    (hflat : Flat (tracked invocation s).store)
    (hdue : ∀ id r, s.store.row id = some r → ∀ n ∈ r.nextAttempt, n ≤ invocation.now)
    (hbound : ∀ id r, (tracked invocation s).store.row id = some r →
      invocation.now + r.intervalMinutes * 60000000 ≤ maxTime) :
    ∃ u, runOnce inspectProof retryDelay env invocation s = (u, true) ∧
      (∀ id, (tracked invocation s).store.row id = none → u.store.row id = none) ∧
      ∀ id r, (tracked invocation s).store.row id = some r →
        (r.Settled → u.store.row id = some r ∧ u.files r.proofPath = s.files r.proofPath) ∧
        (¬ r.Settled → ∃ r' b, u.store.row id = some r' ∧ Advanced inspectProof invocation.now r r' b u) := by
  have htracked : Consistent inspectProof Resumable (tracked invocation s) :=
    hs.tracked fun _ h => by cases h
  have hreturns : (runOnce inspectProof retryDelay env invocation s).2 = true := by
    refine processAll_returns htracked.ready fun job hjob site hsite => ?_
    obtain ⟨hrow, hjobdue⟩ := of_mem_order hjob
    have hadvances := processed_advances retryDelay (henv _ _ hrow) htracked.inv hrow
      (not_settled_of_due hjobdue) (hbound _ _ hrow)
    rw [obstacles_clear (henv _ _ hrow) hflat hsite hrow]
    exact hadvances.1
  refine ⟨_, Prod.ext rfl hreturns, fun id hnone => ?_, fun id r hr => ⟨fun hsettled => ?_, fun hsettled => ?_⟩⟩
  · refine ((processAll_others _ _ _ _ htracked.ready).1 id fun hmem => ?_).trans hnone
    obtain ⟨job, hjob, rfl⟩ := List.mem_map.1 hmem
    rw [(of_mem_order hjob).1] at hnone
    cases hnone
  · obtain ⟨hrow, hfile⟩ := loop_not_due htracked hr (not_due_settled hsettled)
    exact ⟨hrow, hfile.trans (congrFun files_tracked _)⟩
  · have hlate : ∀ n ∈ r.nextAttempt, n ≤ invocation.now := by
      rcases of_row_tracked hr with rfl | hr
      · exact fun n hn => by cases hn
      · exact hdue id r hr
    obtain ⟨turn, hturn, -, hagree⟩ := processAll_job htracked.ready hreturns
      (mem_order htracked.inv hr (due_of_not_settled (htracked.inv.lawful id r hr) hsettled hlate))
    obtain ⟨-, r', b, hr', hadvanced⟩ :=
      processed_advances retryDelay (henv id r hr) htracked.inv hr hsettled (hbound id r hr)
    rw [obstacles_clear (henv id r hr) hflat hturn hr] at hagree
    exact ⟨r', b, hagree.1.trans hr', hadvanced.congr hagree.2⟩

/-- A row of a digest whose interval is not longer than the longest and that waits to some time at most. -/
structure Timely (longest latest : ℕ) (r : Row) : Prop where
  digest : r.tipHash.length = 32
  interval : r.intervalMinutes ≤ longest
  next : ∀ n ∈ r.nextAttempt, n ≤ latest

variable {longest latest : ℕ}

/-- A row that waits to some time at most waits to a later one at most. -/
theorem Timely.mono {r : Row} {later : ℕ} (h : Timely longest latest r) (hle : latest ≤ later) :
    Timely longest later r :=
  ⟨h.digest, h.interval, fun n hn => (h.next n hn).trans hle⟩

/-- A new row does not wait. -/
theorem timely_freshRow (hdigest : invocation.tipHash.length = 32)
    (hinterval : invocation.intervalMinutes ≤ longest) : Timely longest latest (freshRow invocation) :=
  ⟨hdigest, hinterval, fun n hn => by cases hn⟩

/-- A row that a run has advanced waits for its interval at most. -/
theorem Advanced.timely {r r' : Row} {b : Bool} (h : Advanced inspectProof now r r' b u)
    (hr : Timely longest latest r) : Timely longest (now + longest * 60000000) r' := by
  refine ⟨h.tip.2.1 ▸ hr.digest, h.interval ▸ hr.interval, fun n hn => ?_⟩
  rw [h.next, nextCheck] at hn
  split_ifs at hn
  · cases hn
  · rw [← Option.some.inj hn]
    exact Nat.add_le_add_left (Nat.mul_le_mul_right _ hr.interval) _

/-- A row that is pending after a run is upgraded by another one. -/
theorem Advanced.upgraded {r r' r'' : Row} {now' : ℕ} {b : Bool} (h : Advanced inspectProof now r r' false u)
    (hagain : Advanced inspectProof now' r' r'' b t) : r.SameTip r'' ∧ r''.state = .upgradedUnverified ∧
      hasBitcoin inspectProof t r''.proofPath = true := by
  obtain rfl := hagain.bitcoin h.state
  exact ⟨h.tip.trans hagain.tip, hagain.state, hagain.proof⟩

/-- The proof of a row, or of the tip of a run. -/
def Placed (s : Shared) (runs : List Run) (path : ProofPath) : Prop :=
  (∃ id r, s.store.row id = some r ∧ r.proofPath = path) ∨
    ∃ invocation ∈ runs, invocation.proofPath = path

/-- **Two runs recover every anchor** when the calendars answer again.  From any state that any number of
workers has left behind, killed at any point: if the first run is at a time when every retry is
due, the second when the longest interval is over, and no proof is on the way to another one, then
both return, and every row that was there or that the first has tracked is upgraded and has its
Bitcoin proof, save those that were settled. -/
theorem recovers {steps : List (Step J)} {t : State} {env' : Environment J} (first second : Run)
    {longest : ℕ}
    (hrun : run (system inspectProof retryDelay) State.initial steps = some t)
    (hconfigured : Meets (system inspectProof retryDelay) (Allows Configured) State.initial steps)
    (henv : ∀ digest, digest.length = 32 → Answers inspectProof env digest)
    (henv' : ∀ digest, digest.length = 32 → Answers inspectProof env' digest)
    (hflat : ∀ path path', Placed t.shared [first, second] path → Placed t.shared [first, second] path' →
      ¬ path.Below path')
    (hdigests : first.tipHash.length = 32 ∧ second.tipHash.length = 32)
    (hlongest : ∀ id r, t.shared.store.row id = some r → r.intervalMinutes ≤ longest)
    (hintervals : first.intervalMinutes ≤ longest ∧ second.intervalMinutes ≤ longest)
    (hdue : ∀ id r, t.shared.store.row id = some r → ∀ n ∈ r.nextAttempt, n ≤ first.now)
    (hlater : first.now + longest * 60000000 ≤ second.now)
    (hend : second.now + longest * 60000000 ≤ maxTime) :
    ∃ u v, runOnce inspectProof retryDelay env first t.shared = (u, true) ∧
      runOnce inspectProof retryDelay env' second u = (v, true) ∧
      ∀ id r, (tracked first t.shared).store.row id = some r →
        (r.Settled → v.store.row id = some r ∧ v.files r.proofPath = t.shared.files r.proofPath) ∧
        (¬ r.Settled → ∃ r', v.store.row id = some r' ∧ r.SameTip r' ∧ r'.state = .upgradedUnverified ∧
          hasBitcoin inspectProof v r'.proofPath = true) := by
  have hrows := admissible_run hrun hconfigured
  have hresumable := hrows.imp fun r hr => hr.resumable
  have hend' : first.now + longest * 60000000 ≤ maxTime := hlater.trans ((Nat.le_add_right _ _).trans hend)
  have hbound : ∀ {now : ℕ} {r : Row} {latest : ℕ}, Timely longest latest r →
      now + longest * 60000000 ≤ maxTime → now + r.intervalMinutes * 60000000 ≤ maxTime := fun hr h =>
    (Nat.add_le_add_left (Nat.mul_le_mul_right _ hr.interval) _).trans h
  have hfirst : ∀ id r, (tracked first t.shared).store.row id = some r →
      Timely longest first.now r ∧ Placed t.shared [first, second] r.proofPath := by
    intro id r hr
    rcases of_row_tracked hr with rfl | hr
    · exact ⟨timely_freshRow hdigests.1 hintervals.1, Or.inr ⟨first, List.mem_cons_self, rfl⟩⟩
    · exact ⟨⟨(hrows.row id r hr).digest, hlongest id r hr, hdue id r hr⟩, Or.inl ⟨id, r, hr, rfl⟩⟩
  obtain ⟨u, hu, hnone, hadvances⟩ := runOnce_advances retryDelay hresumable
    (fun id r hr => henv _ (hfirst id r hr).1.digest)
    (fun id id' r r' hr hr' => hflat _ _ (hfirst id r hr).2 (hfirst id' r' hr').2) hdue
    fun id r hr => hbound (hfirst id r hr).1 hend'
  have hconsistent : Consistent inspectProof Resumable u := consistent_reaches hresumable (runOnce_run hu)
  -- in between, a row is as it was or waits for its interval
  have hbetween : ∀ id r', u.store.row id = some r' →
      Timely longest second.now r' ∧ Placed t.shared [first, second] r'.proofPath := by
    intro id r' hr'
    cases hr : (tracked first t.shared).store.row id with
    | none =>
      rw [hnone id hr] at hr'
      cases hr'
    | some r =>
      obtain ⟨htimely, hplaced⟩ := hfirst id r hr
      by_cases hsettled : r.Settled
      · rw [((hadvances id r hr).1 hsettled).1] at hr'
        obtain rfl := Option.some.inj hr'
        exact ⟨htimely.mono ((Nat.le_add_right _ _).trans hlater), hplaced⟩
      · obtain ⟨r'', b, hr'', hadvanced⟩ := (hadvances id r hr).2 hsettled
        obtain rfl := Option.some.inj (hr''.symm.trans hr')
        exact ⟨(hadvanced.timely htimely).mono hlater, hadvanced.tip.2.2 ▸ hplaced⟩
  have hsecond : ∀ id r, (tracked second u).store.row id = some r →
      Timely longest second.now r ∧ Placed t.shared [first, second] r.proofPath := by
    intro id r hr
    rcases of_row_tracked hr with rfl | hr
    · exact ⟨timely_freshRow hdigests.2 hintervals.2,
        Or.inr ⟨second, List.mem_cons_of_mem _ List.mem_cons_self, rfl⟩⟩
    · exact hbetween id r hr
  obtain ⟨v, hv, -, hadvances'⟩ := runOnce_advances retryDelay hconsistent
    (fun id r hr => henv' _ (hsecond id r hr).1.digest)
    (fun id id' r r' hr hr' => hflat _ _ (hsecond id r hr).2 (hsecond id' r' hr').2)
    (fun id r hr => (hbetween id r hr).1.next) fun id r hr => hbound (hsecond id r hr).1 hend
  refine ⟨u, v, hu, hv, fun id r hr => ⟨fun hsettled => ?_, fun hsettled => ?_⟩⟩
  · obtain ⟨hrow, hfile⟩ := (hadvances id r hr).1 hsettled
    obtain ⟨hrow', hfile'⟩ := (hadvances' id r (row_tracked hconsistent.inv hrow)).1 hsettled
    exact ⟨hrow', hfile'.trans hfile⟩
  · obtain ⟨r', b, hr', hadvanced⟩ := (hadvances id r hr).2 hsettled
    have htracked : (tracked second u).store.row id = some r' := row_tracked hconsistent.inv hr'
    cases b with
    | true =>
      obtain ⟨hrow, hfile⟩ := (hadvances' id r' htracked).1 (Or.inl hadvanced.state)
      rw [hadvanced.tip.2.2] at hfile
      exact ⟨r', hrow, hadvanced.tip, hadvanced.state, (hadvanced.congr hfile).proof⟩
    | false =>
      have hunsettled : ¬ r'.Settled := by
        rintro (h | ⟨h, -⟩) <;> rw [hadvanced.state] at h <;> cases h
      obtain ⟨r'', b, hr'', hagain⟩ := (hadvances' id r' htracked).2 hunsettled
      exact ⟨r'', hr'', hadvanced.upgraded hagain⟩

end

/-- Calendars and a file system that answer. -/
def sampleAnswers : Environment Unit :=
  { sampleEnvironment (.returned none) with
    stamp digest := .returned (some (pendingProof digest "https://a.org"))
    upgrade _ digest := .returned (some (bitcoinProof digest)) }

/-- The calendars of the sample answer for every digest. -/
theorem answers_sample (digest : List UInt8) : Answers inspectSample sampleAnswers digest := by
  have hne : pendingProof digest "https://a.org" ≠ bitcoinProof digest := fun h => by
    have hlength := congrArg List.length h
    simp [pendingProof, bitcoinProof, detached] at hlength
  refine ⟨⟨_, false, rfl, fun h => (by cases h), ?_⟩, fun proof _ => ⟨_, rfl, fun h => (by cases h), ?_⟩,
    fun _ => rfl, fun _ => rfl, fun _ => rfl, fun _ => rfl⟩
  · rw [inspectSample, if_neg hne, if_pos (Or.inl rfl)]
  · rw [inspectSample, if_pos rfl]

/-- A worker whose call of the calendars fails, and one that is killed when it has resumed the retry. -/
def abandonedSteps : List (Step Unit) := fails 0 0 4 ++ begins 0 2000000000 3 ++ [⟨0, .kill⟩]

/-- The row that they leave behind is queued again. -/
theorem abandoned_run : ∃ t, run (system inspectSample sampleDelay) State.initial abandonedSteps = some t ∧
    (∀ id r, t.shared.store.row id = some r →
      r.intervalMinutes ≤ 15 ∧ r.nextAttempt = none ∧ r.proofPath = (sampleRun 0).proofPath) ∧
    ∃ r, t.shared.store.row 0 = some r ∧ ¬ r.Settled := by
  have hrun : (run (system inspectSample sampleDelay) State.initial abandonedSteps).any (fun t =>
      t.shared.store.count = 1 ∧ (t.shared.store.row 0).any fun r =>
        r.intervalMinutes ≤ 15 ∧ r.nextAttempt = none ∧ r.proofPath = (sampleRun 0).proofPath ∧
          r.state = .queued) = true := by
    decide +kernel
  obtain ⟨t, ht, hstate⟩ := (Option.any_eq_true _ _).1 hrun
  obtain ⟨hcount, hrow⟩ := of_decide_eq_true hstate
  obtain ⟨r, hr, hqueued⟩ := (Option.any_eq_true _ _).1 hrow
  obtain ⟨hinterval, hnext, hpath, hqueued⟩ := of_decide_eq_true hqueued
  refine ⟨t, ht, fun id r' hr' => ?_, r, hr, ?_⟩
  · have hsound := run_invariant (fun s step t h ht => sound_step s step t h ht) sound_initial ht
    have hid : id < 1 := hcount ▸ hsound.shared.bounded id r' hr'
    obtain rfl := Nat.lt_one_iff.1 hid
    obtain rfl := Option.some.inj (hr.symm.trans hr')
    exact ⟨hinterval, hnext, hpath⟩
  · rintro (h | ⟨h, -⟩) <;> rw [hqueued] at h <;> cases h

/-- The run after them returns, and one at the same time without calendars does nothing. -/
theorem second_run_idle_sample : ∃ t u,
    run (system inspectSample sampleDelay) State.initial abandonedSteps = some t ∧
    u.store.dueJobs 4000000000 = [] ∧
    runOnce inspectSample sampleDelay (sampleEnvironment (.raisedOther [])) (sampleRun 4000000000) u =
      (u, true) := by
  have hrun : (run (system inspectSample sampleDelay) State.initial abandonedSteps).any (fun t =>
      (runOnce inspectSample sampleDelay sampleAnswers (sampleRun 4000000000) t.shared).2) = true := by
    decide +kernel
  obtain ⟨t, ht, hreturns⟩ := (Option.any_eq_true _ _).1 hrun
  have hdelay : ∀ n jitter delay, sampleDelay n jitter = some delay → 0 < delay := fun _ _ _ h =>
    Option.some.inj h ▸ (by decide)
  obtain ⟨hidle, hagain⟩ := second_run_idle ht (by decide +kernel) hdelay (by decide)
    (Prod.ext rfl hreturns)
  exact ⟨t, _, ht, hidle, hagain _ (sampleRun 4000000000) rfl rfl rfl⟩

/-- Two runs upgrade the row that they have left behind. -/
theorem recovers_sample : ∃ t u v r,
    run (system inspectSample sampleDelay) State.initial abandonedSteps = some t ∧
    runOnce inspectSample sampleDelay sampleAnswers (sampleRun 4000000000) t.shared = (u, true) ∧
    runOnce inspectSample sampleDelay sampleAnswers (sampleRun 5000000000) u = (v, true) ∧
    v.store.row 0 = some r ∧ r.state = .upgradedUnverified ∧
    hasBitcoin inspectSample v r.proofPath = true := by
  obtain ⟨t, ht, hrows, r, hr, hsettled⟩ := abandoned_run
  have hsound := run_invariant (fun s step t h ht => sound_step s step t h ht) sound_initial ht
  have hflat : ∀ path path', Placed t.shared [sampleRun 4000000000, sampleRun 5000000000] path →
      Placed t.shared [sampleRun 4000000000, sampleRun 5000000000] path' → ¬ path.Below path' := by
    have hplaced : ∀ path, Placed t.shared [sampleRun 4000000000, sampleRun 5000000000] path →
        path = (sampleRun 0).proofPath := by
      rintro path (⟨id, r, hr, rfl⟩ | ⟨invocation, hmem, rfl⟩)
      · exact (hrows id r hr).2.2
      · rcases List.mem_cons.1 hmem with rfl | hmem
        · rfl
        · rw [List.mem_singleton.1 hmem]
          rfl
    intro path path' hpath hpath'
    rw [hplaced path hpath, hplaced path' hpath']
    exact ProofPath.not_below rfl
  obtain ⟨u, v, hu, hv, hrecovers⟩ := recovers (sampleRun 4000000000) (sampleRun 5000000000) ht
    (by decide +kernel) (fun digest _ => answers_sample digest) (fun digest _ => answers_sample digest)
    hflat ⟨rfl, rfl⟩ (fun id r hr => (hrows id r hr).1) ⟨le_rfl, le_rfl⟩
    (fun id r hr n hn => by cases (hrows id r hr).2.1 ▸ hn) (by decide) (by decide)
  obtain ⟨r', hr', -, hstate, hproof⟩ := (hrecovers 0 r (row_tracked hsound.shared hr)).2 hsettled
  exact ⟨t, u, v, r', ht, hu, hv, hr', hstate, hproof⟩

end Recovery
end Anchor
end Vestrix
