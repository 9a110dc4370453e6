/-
# What every schedule keeps

The table and the files have invariants that no interleaving of workers can break, and
so do the copies of rows that a worker holds: a file is a proof bound to its tip, a row
that says it has a proof has a file, and a failed row says how it will be tried again.

`invariant_step` is the rule for such invariants.  What a worker knows must survive what
the others do, and all that it needs of them is that they `Extend` what is there: no row
or file goes away, and no row changes the tip that it is about.
-/

import Vestrix.Anchor.Steps

namespace Vestrix
namespace Anchor

open Outcome Transition

variable {J : Type} {inspectProof : List UInt8 → List UInt8 → Option Bool}
  {retryDelay : ℕ → J → Option ℕ}

/-! ### The rule -/

/-- A condition on the worker that goes on. -/
def Allows (ok : Shared → Worker → Prop) (s : State) (step : Step J) : Prop :=
  ∀ w, s.workers step.worker = some w → ok s.shared w

instance decidableAllows (ok : Shared → Worker → Prop) [∀ s w, Decidable (ok s w)] (s : State)
    (step : Step J) : Decidable (Allows ok s step) :=
  match h : s.workers step.worker with
  | none => isTrue fun _ hw => nomatch h.symm.trans hw
  | some w => decidable_of_iff (ok s.shared w)
      ⟨fun hok _ hw => Option.some.inj (h.symm.trans hw) ▸ hok, fun hok => hok w h⟩

variable (inspectProof retryDelay) in
/-- A condition on what the worker that goes on does. -/
def Does (ok : Shared → Worker → Effect → Prop) (s : State) (step : Step J) : Prop :=
  ∀ w, s.workers step.worker = some w → ∀ reply, step.action = .go reply →
    ∀ next ∈ advance inspectProof retryDelay s.shared w reply, ok s.shared w next.1

instance decidableDoes (ok : Shared → Worker → Effect → Prop) [∀ s w e, Decidable (ok s w e)]
    (s : State) (step : Step J) : Decidable (Does inspectProof retryDelay ok s step) :=
  match h : s.workers step.worker, h' : step.action with
  | none, _ => isTrue fun _ hw => nomatch h.symm.trans hw
  | some _, .start _ => isTrue fun _ _ _ hreply => nomatch h'.symm.trans hreply
  | some _, .kill => isTrue fun _ _ _ hreply => nomatch h'.symm.trans hreply
  | some w, .go reply => decidable_of_iff
      (∀ next ∈ advance inspectProof retryDelay s.shared w reply, ok s.shared w next.1)
      ⟨fun hok _ hw _ hreply => Option.some.inj (h.symm.trans hw) ▸
        Action.go.inj (h'.symm.trans hreply) ▸ hok, fun hok => hok w h reply h'⟩

/-- What is shared satisfies `I`, and each worker what it should know. -/
structure Holds (I : Shared → Prop) (W : Shared → Worker → Prop) (s : State) : Prop where
  shared : I s.shared
  worker : ∀ k w, s.workers k = some w → W s.shared w

/-- **The rule for invariants of all schedules**: what a worker does keeps what is shared,
what it knows, and what any other worker knows. -/
theorem invariant_step {I : Shared → Prop} {W : Shared → Worker → Prop}
    {P : Shared → Worker → Effect → Prop}
    (hstart : ∀ s run, I s → W s ⟨run.now, .track run, []⟩)
    (hadvance : ∀ s w effect w', I s → W s w → P s w effect → Advances inspectProof s w effect w' →
      I (s.apply effect) ∧ (∀ v, w' = some v → W (s.apply effect) v) ∧
        ∀ v, W s v → W (s.apply effect) v)
    (s : State) (step : Step J) (t : State) (h : Holds I W s)
    (hok : Does inspectProof retryDelay P s step)
    (ht : system inspectProof retryDelay s step = some t) : Holds I W t := by
  have hupdate : ∀ {u : Shared} {w : Option Worker}, I u → (∀ v, w = some v → W u v) →
      (∀ v, W s.shared v → W u v) →
      Holds I W ⟨u, Function.update s.workers step.worker w⟩ := by
    intro u w hu hw hothers
    refine ⟨hu, fun k v hv => ?_⟩
    by_cases hk : k = step.worker
    · have hself : Function.update s.workers step.worker w step.worker = w := Function.update_self ..
      subst hk
      exact hw v (hself.symm.trans hv)
    · exact hothers v (h.worker k v ((Function.update_of_ne hk _ _).symm.trans hv))
  rcases system_eq_some ht with ⟨run, rfl⟩ | ⟨w, reply, effect, w', hw, hreply, hgo, rfl⟩ | rfl
  · refine hupdate h.shared (fun v hv => ?_) fun v hv => hv
    cases hv
    exact hstart _ _ h.shared
  · obtain ⟨hI, hw', hothers⟩ := hadvance _ _ _ _ h.shared (h.worker _ _ hw)
      (hok w hw reply hreply _ hgo) (advances_of_advance hgo)
    exact hupdate hI hw' hothers
  · exact hupdate h.shared (fun v hv => (nomatch hv)) fun v hv => hv

/-! ### Rows and files -/

/-- Rows of the same tip. -/
def Row.SameTip (r r' : Row) : Prop :=
  r'.sequence = r.sequence ∧ r'.tipHash = r.tipHash ∧ r'.proofPath = r.proofPath

/-- A row that the worker may leave behind. -/
structure Row.Lawful (r : Row) : Prop where
  path : r.proofPath.sequence = r.sequence ∧ r.proofPath.tipHash = r.tipHash
  state : r.state ≠ .independentlyVerified
  retry : r.state = .retryFailed → r.retryFrom = some .queued ∨ r.retryFrom = some .submittedPending
  failure : r.state = .retryFailed →
    r.failureClass = some .integrity ∧ r.nextAttempt = none ∨
      r.failureClass = some .transient ∧ r.nextAttempt ≠ none
  time : ∀ t ∈ r.nextAttempt, t ≤ maxTime

/-- A row that says that it has a proof. -/
def Row.Submitted (r : Row) : Prop :=
  r.state = .submittedPending ∨ r.state = .upgradedUnverified ∨
    r.state = .retryFailed ∧ r.retryFrom = some .submittedPending

/-- A row that has a file if it says so. -/
def Row.Backed (files : ProofPath → Option (List UInt8)) (r : Row) : Prop :=
  r.Submitted → files r.proofPath ≠ none

/-- What is there in one state is still there in another. -/
structure Extends (s t : Shared) : Prop where
  row : ∀ id r, s.store.row id = some r → ∃ r', t.store.row id = some r' ∧ r.SameTip r'
  file : ∀ p, s.files p ≠ none → t.files p ≠ none

/-- The invariant of the table and the files. -/
structure Shared.Inv (inspectProof : List UInt8 → List UInt8 → Option Bool) (s : Shared) : Prop where
  bounded : ∀ id r, s.store.row id = some r → id < s.store.count
  unique : ∀ id id' r r', s.store.row id = some r → s.store.row id' = some r' →
    r.sequence = r'.sequence → r.tipHash = r'.tipHash → id = id'
  lawful : ∀ id r, s.store.row id = some r → r.Lawful
  backed : ∀ id r, s.store.row id = some r → r.Backed s.files
  bound : ∀ p proof, s.files p = some proof → inspectProof proof p.tipHash ≠ none

/-- What a worker knows of a job. -/
structure Job.Inv (s : Shared) (job : Job) : Prop where
  known : ∃ r, s.store.row job.id = some r ∧ job.row.SameTip r
  lawful : job.row.Lawful
  backed : job.row.Backed s.files

/-- What a worker knows at each phase. -/
def Phase.Inv (inspectProof : List UInt8 → List UInt8 → Option Bool) (s : Shared) : Phase → Prop
  | .track _ | .select | .next => True
  | .reread job | .process job => job.Inv s
  | .read job | .stamp job | .fail job _ _ => job.Inv s ∧ job.Active
  | .upgrade job _ => job.Inv s ∧ job.Active ∧ s.files job.row.proofPath ≠ none
  | .publish job proof bitcoin _ | .rename job proof bitcoin _ =>
    job.Inv s ∧ job.Active ∧ inspectProof proof job.row.tipHash = some bitcoin
  | .update job _ => job.Inv s ∧ job.Active ∧ s.files job.row.proofPath ≠ none

/-- What a worker knows. -/
structure Worker.Inv (inspectProof : List UInt8 → List UInt8 → Option Bool) (s : Shared)
    (w : Worker) : Prop where
  phase : w.phase.Inv inspectProof s
  rest : ∀ job ∈ w.rest, job.Inv s

/-- A row has its own tip. -/
theorem Row.SameTip.refl (r : Row) : r.SameTip r := ⟨rfl, rfl, rfl⟩

/-- Rows with the tip of a third have one tip. -/
theorem Row.SameTip.trans {r r' r'' : Row} (h : r.SameTip r') (h' : r'.SameTip r'') : r.SameTip r'' :=
  ⟨h'.1.trans h.1, h'.2.1.trans h.2.1, h'.2.2.trans h.2.2⟩

section

variable {s t : Shared} {w : Worker} {job : Job}

/-- What a worker knows of its job stays true while the table and the files only grow. -/
theorem Job.Inv.mono (h : job.Inv s) (hst : Extends s t) : job.Inv t := by
  obtain ⟨r, hr, htip⟩ := h.known
  obtain ⟨r', hr', htip'⟩ := hst.row _ _ hr
  exact ⟨⟨r', hr', htip.trans htip'⟩, h.lawful, fun hsub => hst.file _ (h.backed hsub)⟩

/-- What a worker knows at a phase stays true while the table and the files only grow. -/
theorem Phase.Inv.mono {phase : Phase} (h : phase.Inv inspectProof s) (hst : Extends s t) :
    phase.Inv inspectProof t := by
  cases phase with
  | track | select | next => trivial
  | reread | process => exact Job.Inv.mono h hst
  | read | stamp | fail => exact ⟨h.1.mono hst, h.2⟩
  | upgrade | update => exact ⟨h.1.mono hst, h.2.1, hst.file _ h.2.2⟩
  | publish | rename => exact ⟨h.1.mono hst, h.2⟩

/-- What a worker knows stays true while the table and the files only grow. -/
theorem Worker.Inv.mono (h : w.Inv inspectProof s) (hst : Extends s t) : w.Inv inspectProof t :=
  ⟨h.phase.mono hst, fun job hjob => (h.rest job hjob).mono hst⟩

/-- A worker knows of the job of each phase what it knows of any copy of a row. -/
theorem Phase.Inv.jobInv {phase : Phase} (h : phase.Inv inspectProof s) (hjob : phase.job? = some job) :
    job.Inv s := by
  cases phase <;> cases hjob <;> first | exact h | exact h.1

/-- The job of a phase after the first is queued or pending. -/
theorem Phase.Inv.active {phase : Phase} (h : phase.Inv inspectProof s)
    (hjob : phase.job? = some job) (hprocess : ∀ job, phase = .process job → job.Active) :
    job.Active := by
  cases phase <;> cases hjob <;> first | exact h.2.1 | exact h.2 | exact hprocess _ rfl

/-- A row of the table is a job that a worker may read. -/
theorem Shared.Inv.jobInv (h : s.Inv inspectProof) (hrow : s.store.row job.id = some job.row) : job.Inv s :=
  ⟨⟨_, hrow, .refl _⟩, h.lawful _ _ hrow, h.backed _ _ hrow⟩

/-! ### Effects -/

/-- A proof that is published is in its file. -/
@[simp] theorem apply_put_self (path : ProofPath) (proof : List UInt8) (replace : Bool) :
    (s.apply (.put path proof replace)).files path = some proof := Function.update_self ..

/-- After a write, a row is the one that was written or an old one under another key. -/
theorem row_write {id id' : ℕ} {row r : Row} {failure : Option FailureClass}
    (h : (s.apply (.write id row failure)).store.row id' = some r) :
    id' = id ∧ r = row ∨ id' ≠ id ∧ s.store.row id' = some r := by
  by_cases hid : id' = id
  · subst hid
    have hself : (s.apply (.write id' row failure)).store.row id' = some row := Function.update_self ..
    exact Or.inl ⟨rfl, Option.some.inj (h.symm.trans hself)⟩
  · exact Or.inr ⟨hid, (Function.update_of_ne hid _ _).symm.trans h⟩

/-- After an insertion, a row is the new one or an old one. -/
theorem row_insert {id : ℕ} {row r : Row} (h : (s.apply (.insert row)).store.row id = some r) :
    id = s.store.count ∧ r = row ∨ id ≠ s.store.count ∧ s.store.row id = some r := by
  by_cases hid : id = s.store.count
  · subst hid
    have hself : (s.apply (.insert row)).store.row s.store.count = some row := Function.update_self ..
    exact Or.inl ⟨rfl, Option.some.inj (h.symm.trans hself)⟩
  · exact Or.inr ⟨hid, (Function.update_of_ne hid _ _).symm.trans h⟩

/-- After a rename, a proof is the one that was put or an old one at another path. -/
theorem file_put {path p : ProofPath} {proof q : List UInt8} {replace : Bool}
    (h : (s.apply (.put path proof replace)).files p = some q) :
    p = path ∧ q = proof ∨ p ≠ path ∧ s.files p = some q := by
  by_cases hp : p = path
  · subst hp
    exact Or.inl ⟨rfl, Option.some.inj (h.symm.trans (apply_put_self ..))⟩
  · exact Or.inr ⟨hp, (Function.update_of_ne hp _ _).symm.trans h⟩

/-- What is there is there. -/
theorem Extends.refl (s : Shared) : Extends s s :=
  ⟨fun _ r hr => ⟨r, hr, .refl r⟩, fun _ hp => hp⟩

/-- A new row leaves the others. -/
theorem extends_insert (h : s.Inv inspectProof) (row : Row) : Extends s (s.apply (.insert row)) := by
  refine ⟨fun id r hr => ⟨r, ?_, .refl r⟩, fun _ hp => hp⟩
  exact (Function.update_of_ne (h.bounded id r hr).ne _ _).trans hr

/-- A write that keeps the tip of its row keeps all rows and files. -/
theorem extends_write {id : ℕ} {r row : Row} {failure : Option FailureClass}
    (hr : s.store.row id = some r) (htip : r.SameTip row) :
    Extends s (s.apply (.write id row failure)) := by
  refine ⟨fun id' r' hr' => ?_, fun _ hp => hp⟩
  by_cases hid : id' = id
  · subst hid
    obtain rfl := Option.some.inj (hr.symm.trans hr')
    exact ⟨row, Function.update_self _ _ _, htip⟩
  · exact ⟨r', (Function.update_of_ne hid _ _).trans hr', .refl r'⟩

/-- A file that is published is there afterwards, and the others stay. -/
theorem extends_put (path : ProofPath) (proof : List UInt8) (replace : Bool) :
    Extends s (s.apply (.put path proof replace)) := by
  refine ⟨fun id r hr => ⟨r, hr, .refl r⟩, fun p hp => ?_⟩
  by_cases hpath : p = path
  · subst hpath
    exact fun hnone => nomatch (apply_put_self ..).symm.trans hnone
  · exact fun hnone => hp ((Function.update_of_ne hpath _ _).symm.trans hnone)

/-- A lawful row for a new tip keeps the invariant. -/
theorem Shared.Inv.insert (h : s.Inv inspectProof) {row : Row} (hlawful : row.Lawful)
    (hsub : ¬ row.Submitted)
    (hnew : ∀ j ∈ s.store.jobs, ¬ (j.row.sequence = row.sequence ∧ j.row.tipHash = row.tipHash)) :
    (s.apply (.insert row)).Inv inspectProof := by
  have hfresh : ∀ {id r}, s.store.row id = some r →
      ¬ (r.sequence = row.sequence ∧ r.tipHash = row.tipHash) := fun {id r} hr =>
    hnew ⟨id, r⟩ (mem_jobs.2 ⟨h.bounded _ _ hr, hr⟩)
  refine ⟨fun id r hr => ?_, fun id id' r r' hr hr' hseq htip => ?_, fun id r hr => ?_,
    fun id r hr => ?_, h.bound⟩
  · rcases row_insert hr with ⟨rfl, -⟩ | ⟨-, hr⟩
    · exact Nat.lt_succ_self _
    · exact Nat.lt_succ_of_lt (h.bounded id r hr)
  · rcases row_insert hr with ⟨hid, hrow⟩ | ⟨-, hold⟩ <;>
      rcases row_insert hr' with ⟨hid', hrow'⟩ | ⟨-, hold'⟩
    · rw [hid, hid']
    · rw [hrow] at hseq htip
      exact absurd ⟨hseq.symm, htip.symm⟩ (hfresh hold')
    · rw [hrow'] at hseq htip
      exact absurd ⟨hseq, htip⟩ (hfresh hold)
    · exact h.unique _ _ _ _ hold hold' hseq htip
  · rcases row_insert hr with ⟨-, rfl⟩ | ⟨-, hr⟩
    · exact hlawful
    · exact h.lawful _ _ hr
  · rcases row_insert hr with ⟨-, rfl⟩ | ⟨-, hr⟩
    · exact fun hs => absurd hs hsub
    · exact h.backed _ _ hr

/-- A lawful row for the old tip, with its file if it says so, keeps the invariant. -/
theorem Shared.Inv.write (h : s.Inv inspectProof) {id : ℕ} {r row : Row}
    {failure : Option FailureClass} (hr : s.store.row id = some r) (htip : r.SameTip row)
    (hlawful : row.Lawful) (hbacked : row.Backed s.files) :
    (s.apply (.write id row failure)).Inv inspectProof := by
  have hold : ∀ {id' r'}, (s.apply (.write id row failure)).store.row id' = some r' →
      ∃ r'', s.store.row id' = some r'' ∧ r'.sequence = r''.sequence ∧ r'.tipHash = r''.tipHash := by
    intro id' r' hr'
    rcases row_write hr' with ⟨rfl, rfl⟩ | ⟨-, hr'⟩
    · exact ⟨r, hr, htip.1, htip.2.1⟩
    · exact ⟨r', hr', rfl, rfl⟩
  refine ⟨fun id' r' hr' => ?_, fun i i' q q' hq hq' hseq hhash => ?_, fun id' r' hr' => ?_,
    fun id' r' hr' => ?_, h.bound⟩
  · obtain ⟨r'', hr'', -⟩ := hold hr'
    exact h.bounded _ _ hr''
  · obtain ⟨p, hp, hpseq, hphash⟩ := hold hq
    obtain ⟨p', hp', hpseq', hphash'⟩ := hold hq'
    exact h.unique _ _ _ _ hp hp' (hpseq.symm.trans (hseq.trans hpseq'))
      (hphash.symm.trans (hhash.trans hphash'))
  · rcases row_write hr' with ⟨-, rfl⟩ | ⟨-, hr'⟩
    · exact hlawful
    · exact h.lawful _ _ hr'
  · rcases row_write hr' with ⟨-, rfl⟩ | ⟨-, hr'⟩
    · exact hbacked
    · exact h.backed _ _ hr'

/-- A proof for the digest of its path keeps the invariant. -/
theorem Shared.Inv.put (h : s.Inv inspectProof) {path : ProofPath} {proof : List UInt8}
    {replace : Bool} (hproof : inspectProof proof path.tipHash ≠ none) :
    (s.apply (.put path proof replace)).Inv inspectProof := by
  refine ⟨h.bounded, h.unique, h.lawful, fun id r hr hsub => ?_, fun p q hp => ?_⟩
  · exact (extends_put path proof replace).file _ (h.backed id r hr hsub)
  · rcases file_put hp with ⟨rfl, rfl⟩ | ⟨-, hp⟩
    · exact hproof
    · exact h.bound p q hp

/-! ### Updates -/

/-- The row after a proof is lawful. -/
theorem Row.Lawful.finished {r : Row} (h : r.Lawful) (bitcoin : Bool) (now : ℕ) {next : Option ℕ}
    (htime : ∀ t ∈ next, t ≤ maxTime) : (r.finished bitcoin now next).Lawful := by
  have hstate : ∀ {state}, state = .independentlyVerified ∨ state = .retryFailed →
      targetState bitcoin ≠ state := by
    cases bitcoin <;> rintro _ (rfl | rfl) <;> decide
  exact ⟨h.path, hstate (Or.inl rfl), fun hs => absurd hs (hstate (Or.inr rfl)),
    fun hs => absurd hs (hstate (Or.inr rfl)), htime⟩

/-- The row after a failure is lawful: an integrity failure has no next attempt, a transient one has. -/
theorem Row.Lawful.failed {r : Row} (h : r.Lawful) {failureClass : FailureClass} {error : Cause}
    {now : ℕ} {next : Option ℕ} (hjob : job.Active)
    (hnext : failureClass = .integrity ∧ next = none ∨ failureClass = .transient ∧ next ≠ none)
    (htime : ∀ t ∈ next, t ≤ maxTime) : (r.failed job failureClass error now next).Lawful := by
  refine ⟨h.path, fun hs => (nomatch hs), fun _ => ?_, fun _ => ?_, htime⟩
  · exact hjob.imp (congrArg some) (congrArg some)
  · exact hnext.imp (fun h => ⟨congrArg some h.1, h.2⟩) fun h => ⟨congrArg some h.1, h.2⟩

/-- The row of a retry that goes back to `queued` or `submitted_pending` is lawful. -/
theorem Row.Lawful.resumed {r : Row} (h : r.Lawful) {retryFrom : Lifecycle}
    (hretry : retryFrom = .queued ∨ retryFrom = .submittedPending) : (r.resumed retryFrom).Lawful := by
  have hstate : ∀ {state}, state = .independentlyVerified ∨ state = .retryFailed →
      retryFrom ≠ state := by
    rintro _ (rfl | rfl) <;> rcases hretry with rfl | rfl <;> decide
  exact ⟨h.path, hstate (Or.inl rfl), fun hs => absurd hs (hstate (Or.inr rfl)),
    fun hs => absurd hs (hstate (Or.inr rfl)), fun t ht => nomatch ht⟩

/-- A retry goes on at `queued` or at `submitted_pending`. -/
theorem Job.Inv.retryFrom (h : job.Inv s) (hstate : job.row.state = .retryFailed)
    {retryFrom : Lifecycle} (hretry : job.row.retryFrom = some retryFrom) :
    retryFrom = .queued ∨ retryFrom = .submittedPending := by
  rcases h.lawful.retry hstate with hq | hq
  · exact Or.inl (Option.some.inj (hretry.symm.trans hq))
  · exact Or.inr (Option.some.inj (hretry.symm.trans hq))

/-- The row that a job is a copy of has the tip and the path of the copy. -/
theorem Job.Inv.sameTip (h : job.Inv s) {r : Row} (hr : s.store.row job.id = some r) :
    job.row.SameTip r := by
  obtain ⟨r', hr', htip⟩ := h.known
  rwa [Option.some.inj (hr.symm.trans hr')]

/-! ### The invariant -/

/-- **Every step of every worker keeps the invariant**, only adds to the table and the files, and
leaves the worker with what it must know. -/
theorem inv_advances {effect : Effect} {w' : Option Worker} (hs : s.Inv inspectProof)
    (hw : w.Inv inspectProof s) (h : Advances inspectProof s w effect w') :
    (s.apply effect).Inv inspectProof ∧ Extends s (s.apply effect) ∧
      ∀ v, w' = some v → v.Inv inspectProof (s.apply effect) := by
  have hphase := hw.phase
  have hsilent : ∀ {phase : Phase} {rest : List Job}, phase.Inv inspectProof s →
      (∀ job ∈ rest, job.Inv s) → s.Inv inspectProof ∧ Extends s s ∧ ∀ v : Worker,
        some { w with phase := phase, rest := rest } = some v → v.Inv inspectProof s := by
    intro phase rest hphase hrest
    refine ⟨hs, .refl s, fun v hv => ?_⟩
    cases hv
    exact ⟨hphase, hrest⟩
  have hwrite : ∀ {id : ℕ} {r row : Row} {failure : Option FailureClass} {phase : Phase}
      {rest : List Job}, s.store.row id = some r → r.SameTip row → row.Lawful →
      row.Backed s.files → phase.Inv inspectProof s → (∀ job ∈ rest, job.Inv s) →
      (s.apply (.write id row failure)).Inv inspectProof ∧
        Extends s (s.apply (.write id row failure)) ∧ ∀ v : Worker,
          some { w with phase := phase, rest := rest } = some v →
            v.Inv inspectProof (s.apply (.write id row failure)) := by
    intro id r row failure phase rest hr htip hlawful hbacked hphase hrest
    have hext : Extends s (s.apply (.write id row failure)) := extends_write hr htip
    refine ⟨hs.write hr htip hlawful hbacked, hext, fun v hv => ?_⟩
    cases hv
    exact ⟨hphase.mono hext, fun job hjob => (hrest job hjob).mono hext⟩
  cases h with
  | stop => exact ⟨hs, .refl s, fun v hv => (nomatch hv)⟩
  | @track run row hp htrack =>
    obtain ⟨hnew, rfl⟩ := trackTip_eq_some htrack
    have hext := extends_insert hs ⟨run.sequence, run.tipHash, .queued, run.proofPath, 0, none,
      none, none, none, none, run.intervalMinutes, run.confirmationThreshold⟩
    refine ⟨hs.insert ⟨⟨rfl, rfl⟩, fun h => (nomatch h), fun h => (nomatch h), fun h => (nomatch h),
      fun t ht => nomatch ht⟩ ?_ hnew, hext, fun v hv => ?_⟩
    · rintro (hs | hs | ⟨hs, -⟩) <;> cases hs
    · cases hv
      exact ⟨trivial, fun job hjob => (hw.rest job hjob).mono hext⟩
  | tracked => exact hsilent trivial hw.rest
  | select _ hjobs =>
    exact hsilent trivial fun job hjob => hs.jobInv (mem_dueJobs.1 (hjobs.mem_iff.1 hjob)).2.1
  | @resume job rest row _ hrest hresume =>
    have hjobs := hw.rest
    rw [hrest] at hjobs
    have hjob := hjobs job List.mem_cons_self
    obtain ⟨r, retryFrom, hr, -, hstate, hretry, rfl⟩ := resumeRetry_eq_ok hresume
    have hfrom := hjob.retryFrom hstate hretry
    refine hwrite hr ⟨rfl, rfl, rfl⟩ ((hs.lawful _ _ hr).resumed hfrom) (fun hsub => ?_)
      hjob fun j hj => hjobs j (List.mem_cons_of_mem _ hj)
    have hpending : retryFrom = .submittedPending := by
      rcases hfrom with rfl | rfl
      · rcases hsub with h | h | ⟨h, -⟩ <;> cases h
      · rfl
    have := hjob.backed (Or.inr (Or.inr ⟨hstate, hretry.trans (congrArg some hpending)⟩))
    rwa [← (hjob.sameTip hr).2.2] at this
  | take _ hrest =>
    have hjobs := hw.rest
    rw [hrest] at hjobs
    exact hsilent (hjobs _ List.mem_cons_self) fun j hj => hjobs j (List.mem_cons_of_mem _ hj)
  | reread _ hget => exact hsilent (hs.jobInv (get_eq_some hget).1) hw.rest
  | skip => exact hsilent trivial hw.rest
  | unstamped hp hjob =>
    rw [hp] at hphase
    exact hsilent ⟨hphase, hjob⟩ hw.rest
  | found hp hjob =>
    rw [hp] at hphase
    exact hsilent ⟨hphase, hjob⟩ hw.rest
  | pending hp hfile =>
    rw [hp] at hphase
    exact hsilent ⟨hphase.1, hphase.2, fun hnone => nomatch hfile.symm.trans hnone⟩ hw.rest
  | complete hp hfile =>
    rw [hp] at hphase
    exact hsilent ⟨hphase.1, hphase.2, fun hnone => nomatch hfile.symm.trans hnone⟩ hw.rest
  | stamped hp hproof =>
    rw [hp] at hphase
    exact hsilent ⟨hphase.1, hphase.2, hproof⟩ hw.rest
  | upgraded hp hproof =>
    rw [hp] at hphase
    exact hsilent ⟨hphase.1, hphase.2.1, hproof⟩ hw.rest
  | unchanged hp =>
    rw [hp] at hphase
    exact hsilent hphase hw.rest
  | publish hp =>
    rw [hp] at hphase
    exact hsilent hphase hw.rest
  | @rename job proof bitcoin replace hp =>
    rw [hp] at hphase
    obtain ⟨hjob, hactive, hproof⟩ := hphase
    have hext : Extends s (s.apply (.put job.row.proofPath proof replace)) := extends_put _ _ _
    refine ⟨hs.put ?_, hext, fun v hv => ?_⟩
    · rw [hjob.lawful.path.2, hproof]
      exact Option.some_ne_none _
    · cases hv
      refine ⟨⟨hjob.mono hext, hactive, fun hnone => ?_⟩, fun j hj => (hw.rest j hj).mono hext⟩
      exact nomatch (apply_put_self ..).symm.trans hnone
  | update hp hfinish =>
    rw [hp] at hphase
    obtain ⟨hjob, hactive, hfile⟩ := hphase
    obtain ⟨r, next, hr, -, htime, rfl⟩ := finish_eq_ok hactive hfinish
    refine hwrite hr ⟨rfl, rfl, rfl⟩ ((hs.lawful _ _ hr).finished _ _ htime) (fun _ => ?_) trivial hw.rest
    show s.files r.proofPath ≠ none
    rwa [(hjob.sameTip hr).2.2]
  | giveUp hp hprocess =>
    exact hsilent ⟨Phase.Inv.jobInv hphase hp, Phase.Inv.active hphase hp hprocess⟩ hw.rest
  | @fail job _ _ _ _ hp hnext htime hrecord =>
    rw [hp] at hphase
    obtain ⟨hjob, hactive⟩ := hphase
    obtain ⟨r, hr, hstate, rfl⟩ := recordFailure_eq_ok hrecord
    refine hwrite hr ⟨rfl, rfl, rfl⟩ ((hs.lawful _ _ hr).failed hactive hnext htime) (fun hsub => ?_)
      trivial hw.rest
    have hpending : job.row.state = .submittedPending := by
      rcases hsub with h | h | ⟨-, h⟩
      · cases h
      · cases h
      · exact Option.some.inj h
    have := hjob.backed (Or.inl hpending)
    rwa [← (hjob.sameTip hr).2.2] at this

/-- The invariant of every reachable state. -/
abbrev Sound (inspectProof : List UInt8 → List UInt8 → Option Bool) (s : State) : Prop :=
  Holds (Shared.Inv inspectProof) (Worker.Inv inspectProof) s

/-- The empty table without files and workers is sound. -/
theorem sound_initial : Sound inspectProof State.initial :=
  ⟨⟨fun _ _ h => (nomatch h), fun _ _ _ _ h => (nomatch h), fun _ _ h => (nomatch h),
    fun _ _ h => (nomatch h), fun _ _ h => (nomatch h)⟩, fun _ _ h => (nomatch h)⟩

/-- **Every schedule keeps the invariant.** -/
theorem sound_step (s : State) (step : Step J) (t : State) (h : Sound inspectProof s)
    (ht : system inspectProof retryDelay s step = some t) : Sound inspectProof t :=
  have hok : Does inspectProof retryDelay (fun _ _ _ => True) s step := fun _ _ _ _ _ _ => trivial
  invariant_step (fun s run _ => ⟨trivial, fun _ hj => nomatch hj⟩)
    (fun s w effect w' hs hw _ hadv => by
      obtain ⟨hI, hext, hw'⟩ := inv_advances hs hw hadv
      exact ⟨hI, hw', fun v hv => hv.mono hext⟩) s step t h hok ht

end

end Anchor
end Vestrix
