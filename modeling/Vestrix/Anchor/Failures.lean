/-
# Counting failures

`record_failure` writes back one more than the number of attempts of the copy that a
worker has read, and `resume_retry` looks at the state of the row only.  A row that has
left a state and come back to it is not noticed: a failure is then counted from an old
number, or a job that was put aside is taken up again.

Where every such update, in the row that it finds, finds the number of attempts or the
failure class of the copy, each row counts its failures and no worker changes a row that an
integrity failure has put aside.
-/

import Vestrix.Anchor.Overlap

namespace Vestrix
namespace Anchor

open Text Outcome Transition

variable {J : Type} {inspectProof : List UInt8 → List UInt8 → Option Bool}
  {retryDelay : ℕ → J → Option ℕ}

/-- The calls of `record_failure` that have succeeded for a row. -/
def attempts (s : Shared) (id : ℕ) : ℕ := (s.failures.filter fun f => f.1 = id).length

/-- An update that `resume_retry` makes finds the failure class of the copy in its row, and one
that `record_failure` makes finds the copy's number of attempts. -/
def CopyCurrent (s : Shared) (w : Worker) : Effect → Prop
  | .write id _ _ =>
    match w.phase, w.rest with
    | .next, job :: _ => ∀ r ∈ s.store.row id, r.failureClass = job.row.failureClass
    | .fail job _ _, _ => ∀ r ∈ s.store.row id, r.attemptCount = job.row.attemptCount
    | _, _ => True
  | _ => True

/-- A row that waits for an operator. -/
def Row.Quarantined (r : Row) : Prop := r.state = .retryFailed ∧ r.failureClass = some .integrity

/-- The rows count their failures. -/
structure Shared.Counted (s : Shared) : Prop where
  counted : ∀ id r, s.store.row id = some r → r.attemptCount = attempts s id
  recorded : ∀ f ∈ s.failures, f.1 < s.store.count
  quarantined : ∀ id, (id, .integrity) ∈ s.failures → ∃ r, s.store.row id = some r ∧ r.Quarantined

/-- A failed job that a worker has taken is one to try again. -/
def Worker.Retries (w : Worker) : Prop :=
  ∀ job ∈ w.rest, job.row.state = .retryFailed → job.row.failureClass = some .transient

section

variable {s : Shared} {w : Worker} {id id' : ℕ} {r row : Row}

/-- A failure that is due again is a transient one. -/
theorem due_transient {now : ℕ} (h : LifecycleStore.due now r) (hstate : r.state = .retryFailed) :
    r.failureClass = some .transient := by
  rcases h with h | ⟨h, -⟩ | ⟨-, h, -⟩
  · exact nomatch hstate.symm.trans h
  · exact nomatch hstate.symm.trans h
  · exact h

/-- A recorded failure counts for its own row, and for no other. -/
theorem attempts_write_some {failureClass : FailureClass} :
    attempts (s.apply (.write id row (some failureClass))) id' =
      attempts s id' + if id' = id then 1 else 0 := by
  have hfailures : (s.apply (.write id row (some failureClass))).failures =
      s.failures ++ [(id, failureClass)] := rfl
  rw [attempts, attempts, hfailures, List.filter_append, List.length_append]
  by_cases hid : id' = id
  · simp [hid]
  · simp [hid, Ne.symm hid]

/-- An update that is no failure and leaves the number of attempts keeps the count. -/
theorem Shared.Counted.update (h : s.Counted) (hr : s.store.row id = some r) (hq : ¬ r.Quarantined)
    (hcount : row.attemptCount = r.attemptCount) : (s.apply (.write id row none)).Counted := by
  refine ⟨fun id' r' hr' => ?_, h.recorded, fun id' hid' => ?_⟩
  · rcases row_write hr' with ⟨rfl, rfl⟩ | ⟨-, hr'⟩
    · exact hcount.trans (h.counted _ _ hr)
    · exact h.counted _ _ hr'
  · obtain ⟨r', hr', hq'⟩ := h.quarantined id' hid'
    have hne : id' ≠ id := by
      rintro rfl
      exact hq (Option.some.inj (hr'.symm.trans hr) ▸ hq')
    exact ⟨r', (Function.update_of_ne hne _ _).trans hr', hq'⟩

/-- An update that records a failure and counts it keeps the count, and quarantines the row if the
failure is one of integrity. -/
theorem Shared.Counted.failure (h : s.Counted) (hi : s.Inv inspectProof) {failureClass : FailureClass}
    (hr : s.store.row id = some r) (hq : ¬ r.Quarantined)
    (hcount : row.attemptCount = r.attemptCount + 1)
    (hrow : failureClass = .integrity → row.Quarantined) :
    (s.apply (.write id row (some failureClass))).Counted := by
  have hself : (s.apply (.write id row (some failureClass))).store.row id = some row :=
    Function.update_self ..
  have hfailures : ∀ {f}, f ∈ (s.apply (.write id row (some failureClass))).failures →
      f ∈ s.failures ∨ f = (id, failureClass) := fun hf =>
    (List.mem_append.1 hf).imp_right List.mem_singleton.1
  refine ⟨fun id' r' hr' => ?_, fun f hf => ?_, fun id' hid' => ?_⟩
  · rw [attempts_write_some]
    rcases row_write hr' with ⟨rfl, rfl⟩ | ⟨hne, hr'⟩
    · rw [if_pos rfl, hcount, h.counted _ _ hr]
    · rw [if_neg hne, h.counted _ _ hr']
      rfl
  · rcases hfailures hf with hf | rfl
    · exact h.recorded f hf
    · exact hi.bounded _ _ hr
  · by_cases hne : id' = id
    · subst hne
      rcases hfailures hid' with hold | hnew
      · obtain ⟨r', hr', hq'⟩ := h.quarantined id' hold
        exact absurd (Option.some.inj (hr'.symm.trans hr) ▸ hq') hq
      · exact ⟨row, hself, hrow (Prod.mk.inj hnew).2.symm⟩
    · rcases hfailures hid' with hold | hnew
      · obtain ⟨r', hr', hq'⟩ := h.quarantined id' hold
        exact ⟨r', (Function.update_of_ne hne _ _).trans hr', hq'⟩
      · exact absurd (Prod.mk.inj hnew).1 hne

/-- A row that was put aside is not one that an update finds. -/
theorem row_write_quarantined {failure : Option FailureClass} (hr : s.store.row id = some r)
    (hq : ¬ r.Quarantined) {q : Row} (hid : s.store.row id' = some q) (hquarantined : q.Quarantined) :
    (s.apply (.write id row failure)).store.row id' = some q := by
  have hne : id' ≠ id := by
    rintro rfl
    exact hq (Option.some.inj (hid.symm.trans hr) ▸ hquarantined)
  exact (Function.update_of_ne hne _ _).trans hid

/-- A job that is worked on was not put aside when it was read. -/
theorem Job.Active.not_quarantined {job : Job} (h : job.Active) (hstate : r.state = job.row.state) :
    ¬ r.Quarantined := by
  rintro ⟨hfailed, -⟩
  rcases h with h | h <;> cases hfailed.symm.trans (hstate.trans h)

/-- What a step keeps where the copy that it acts on is current. -/
theorem counted_advances {effect : Effect} {w' : Option Worker} (hs : s.Inv inspectProof)
    (hw : w.Inv inspectProof s) (hc : s.Counted) (hretries : w.Retries) (hok : CopyCurrent s w effect)
    (h : Advances inspectProof s w effect w') :
    (s.apply effect).Counted ∧ (∀ v, w' = some v → v.Retries) ∧
      ∀ id q, s.store.row id = some q → q.Quarantined → (s.apply effect).store.row id = some q := by
  have hphase := hw.phase
  have hsilent : ∀ {phase : Phase} {rest : List Job},
      (∀ job ∈ rest, job.row.state = .retryFailed → job.row.failureClass = some .transient) →
      s.Counted ∧ (∀ v : Worker, some { w with phase := phase, rest := rest } = some v → v.Retries) ∧
        ∀ id q, s.store.row id = some q → q.Quarantined → s.store.row id = some q := by
    refine fun hrest => ⟨hc, fun v hv => ?_, fun _ _ hq _ => hq⟩
    cases hv
    exact hrest
  cases h with
  | stop => exact ⟨hc, fun v hv => (by cases hv), fun _ _ hq _ => hq⟩
  | @track run row hp htrack =>
    obtain ⟨-, rfl⟩ := trackTip_eq_some htrack
    refine ⟨⟨fun id r hr => ?_, fun f hf => Nat.lt_succ_of_lt (hc.recorded f hf), fun id hid => ?_⟩,
      fun v hv => ?_, fun id q hq _ => (Function.update_of_ne (hs.bounded _ _ hq).ne _ _).trans hq⟩
    · rcases row_insert hr with ⟨rfl, rfl⟩ | ⟨-, hr⟩
      · refine (List.length_eq_zero_iff.2 (List.filter_eq_nil_iff.2 fun f hf => ?_)).symm
        rw [decide_eq_true_eq]
        exact (hc.recorded f hf).ne
      · exact hc.counted id r hr
    · obtain ⟨r, hr, hq⟩ := hc.quarantined id hid
      exact ⟨r, (Function.update_of_ne (hs.bounded _ _ hr).ne _ _).trans hr, hq⟩
    · cases hv
      exact hretries
  | tracked => exact hsilent hretries
  | select _ hjobs =>
    exact hsilent fun job hjob => due_transient (mem_dueJobs.1 (hjobs.mem_iff.1 hjob)).2.2
  | @resume job rest row hp hrest hresume =>
    rw [CopyCurrent, hp, hrest] at hok
    have hjobs := hretries
    rw [Worker.Retries, hrest] at hjobs
    obtain ⟨r, retryFrom, hr, -, hfailed, -, rfl⟩ := resumeRetry_eq_ok hresume
    have hq : ¬ r.Quarantined := by
      rintro ⟨-, hintegrity⟩
      rw [hok r hr, hjobs job List.mem_cons_self hfailed] at hintegrity
      cases hintegrity
    refine ⟨hc.update hr hq rfl, fun v hv => ?_, fun _ _ => row_write_quarantined hr hq⟩
    cases hv
    exact fun j hj => hjobs j (List.mem_cons_of_mem _ hj)
  | take _ hrest =>
    have hjobs := hretries
    rw [Worker.Retries, hrest] at hjobs
    exact hsilent fun j hj => hjobs j (List.mem_cons_of_mem _ hj)
  | reread => exact hsilent hretries
  | skip => exact hsilent hretries
  | unstamped => exact hsilent hretries
  | found => exact hsilent hretries
  | pending => exact hsilent hretries
  | complete => exact hsilent hretries
  | stamped => exact hsilent hretries
  | upgraded => exact hsilent hretries
  | unchanged => exact hsilent hretries
  | publish => exact hsilent hretries
  | rename =>
    refine ⟨⟨hc.counted, hc.recorded, hc.quarantined⟩, fun v hv => ?_, fun _ _ hq _ => hq⟩
    cases hv
    exact hretries
  | update hp hfinish =>
    rw [hp] at hphase
    obtain ⟨r, next, hr, hstate, -, rfl⟩ := finish_eq_ok hphase.2.1 hfinish
    have hq := hphase.2.1.not_quarantined hstate
    refine ⟨hc.update hr hq rfl, fun v hv => ?_, fun _ _ => row_write_quarantined hr hq⟩
    cases hv
    exact hretries
  | giveUp => exact hsilent hretries
  | fail hp _ _ hrecord =>
    rw [hp] at hphase
    rw [CopyCurrent, hp] at hok
    obtain ⟨r, hr, hstate, rfl⟩ := recordFailure_eq_ok hrecord
    have hq := hphase.2.not_quarantined hstate
    refine ⟨hc.failure hs hr hq ?_ fun hclass => ⟨rfl, congrArg some hclass⟩, fun v hv => ?_,
      fun _ _ => row_write_quarantined hr hq⟩
    · exact congrArg (· + 1) (hok r hr).symm
    · cases hv
      exact hretries

end

/-- What holds of the rows in every schedule without a stale update. -/
abbrev Counts (inspectProof : List UInt8 → List UInt8 → Option Bool) (s : State) : Prop :=
  Holds (fun s => s.Inv inspectProof ∧ s.Counted) (fun s w => w.Inv inspectProof s ∧ w.Retries) s

/-- What a step keeps of the rows where its update is not a stale one, and that it leaves the rows
that were put aside alone. -/
theorem counts_step {s t : State} {step : Step J} (h : Counts inspectProof s)
    (hok : Does inspectProof retryDelay CopyCurrent s step) (ht : system inspectProof retryDelay s step = some t) :
    Counts inspectProof t ∧ ∀ id q, s.shared.store.row id = some q → q.Quarantined →
      t.shared.store.row id = some q := by
  have hrule := fun id q (hq : q.Quarantined) => invariant_step
    (I := fun u => (u.Inv inspectProof ∧ u.Counted) ∧
      (s.shared.store.row id = some q → u.store.row id = some q))
    (W := fun u w => w.Inv inspectProof u ∧ w.Retries) (P := CopyCurrent)
    (fun u run _ => ⟨⟨trivial, fun _ hj => nomatch hj⟩, fun _ hj => nomatch hj⟩)
    (fun u w effect w' hu hw hok hadv => by
      obtain ⟨hI, hext, hw'⟩ := inv_advances hu.1.1 hw.1 hadv
      obtain ⟨hC, hwC, hrow⟩ := counted_advances hu.1.1 hw.1 hu.1.2 hw.2 hok hadv
      exact ⟨⟨⟨hI, hC⟩, fun hid => hrow id q (hu.2 hid) hq⟩, fun v hv => ⟨hw' v hv, hwC v hv⟩,
        fun v hv => ⟨hv.1.mono hext, hv.2⟩⟩)
    s step t ⟨⟨h.shared, fun hid => hid⟩, h.worker⟩ hok ht
  refine ⟨?_, fun id q hid hq => (hrule id q hq).shared.2 hid⟩
  have h' := hrule 0 ⟨0, [], .retryFailed, ⟨[], 0, []⟩, 0, none, none, none, none, some .integrity, 0, 0⟩
    ⟨rfl, rfl⟩
  exact ⟨h'.shared.1, h'.worker⟩

/-- At the beginning no failure has been recorded. -/
theorem counts_initial : Counts inspectProof State.initial :=
  ⟨⟨sound_initial.shared, ⟨fun _ _ h => (nomatch h), fun _ h => (nomatch h), fun _ h => nomatch h⟩⟩,
    fun _ _ h => nomatch h⟩

/-- **No failure is lost, and no job that was put aside is taken up**, where every update of a
row by a retry or a failure finds the copy's failure class or number of attempts in it. -/
theorem overlap_keeps_failures {steps : List (Step J)} {t : State}
    (hrun : run (system inspectProof retryDelay) State.initial steps = some t)
    (hok : Meets (system inspectProof retryDelay) (Does inspectProof retryDelay CopyCurrent)
      State.initial steps) :
    (∀ id r, t.shared.store.row id = some r → r.attemptCount = attempts t.shared id) ∧
      ∀ later u, run (system inspectProof retryDelay) t later = some u →
        Meets (system inspectProof retryDelay) (Does inspectProof retryDelay CopyCurrent) t later →
        ∀ id, (id, .integrity) ∈ t.shared.failures →
          u.shared.store.row id = t.shared.store.row id := by
  have ht : Counts inspectProof t :=
    run_induction (fun _ _ _ h hok ht => (counts_step h hok ht).1) counts_initial hok hrun
  refine ⟨ht.shared.2.counted, fun later u hlater hok' id hid => ?_⟩
  obtain ⟨q, hq, hquarantined⟩ := ht.shared.2.quarantined id hid
  have hu := run_induction (I := fun s => Counts inspectProof s ∧ s.shared.store.row id = some q)
    (fun _ _ _ h hok ht => ⟨(counts_step h.1 hok ht).1, (counts_step h.1 hok ht).2 id q h.2 hquarantined⟩)
    ⟨ht, hq⟩ hok' hlater
  exact hu.2.trans hq.symm

instance decidableCopyCurrent (s : Shared) (w : Worker) : ∀ e, Decidable (CopyCurrent s w e)
  | .write id _ _ =>
    match h : w.phase, h' : w.rest with
    | .next, job :: _ => decidable_of_iff
        (∀ r ∈ s.store.row id, r.failureClass = job.row.failureClass) (by rw [CopyCurrent, h, h'])
    | .fail job _ _, _ => decidable_of_iff
        (∀ r ∈ s.store.row id, r.attemptCount = job.row.attemptCount) (by rw [CopyCurrent, h])
    | .next, [] => isTrue (by rw [CopyCurrent, h, h']; trivial)
    | .track _, _ | .select, _ | .reread _, _ | .process _, _ | .read _, _ | .stamp _, _
    | .upgrade _ _, _ | .publish _ _ _ _, _ | .rename _ _ _ _, _ | .update _ _, _ =>
      isTrue (by rw [CopyCurrent, h]; trivial)
  | .silent => isTrue trivial
  | .insert _ => isTrue trivial
  | .put _ _ _ => isTrue trivial

section

/-- A worker whose call of the calendars fails. -/
def fails (k now steps : ℕ) : List (Step Unit) :=
  begins k now steps ++ goes k [.raisedOther, .sample (), .done]

/-- A failure that is tried again, and then a proof of something else. -/
def failingSteps : List (Step Unit) :=
  fails 0 0 4 ++ begins 0 2000000000 5 ++ goes 0 [.returned none, .done]

/-- The attempts are counted in the run that fails twice, and the integrity failure stays when
another worker comes to it. -/
theorem overlap_keeps_failures_retried : ∃ t u,
    run (system inspectSample sampleDelay) State.initial failingSteps = some t ∧
    run (system inspectSample sampleDelay) t (begins 1 4000000000 3) = some u ∧
    (0, .integrity) ∈ t.shared.failures ∧
    (∀ id r, t.shared.store.row id = some r → r.attemptCount = attempts t.shared id) ∧
    u.shared.store.row 0 = t.shared.store.row 0 := by
  have hrun : (run (system inspectSample sampleDelay) State.initial failingSteps).any (fun t =>
      decide ((0, .integrity) ∈ t.shared.failures) &&
        decide (Meets (system inspectSample sampleDelay) (Does inspectSample sampleDelay CopyCurrent) t
          (begins 1 4000000000 3)) &&
        (run (system inspectSample sampleDelay) t (begins 1 4000000000 3)).isSome) = true := by
    decide +kernel
  obtain ⟨t, ht, hand⟩ := (Option.any_eq_true _ _).1 hrun
  simp only [Bool.and_eq_true, decide_eq_true_eq] at hand
  obtain ⟨⟨hmem, hmeets⟩, hsome⟩ := hand
  obtain ⟨u, hu⟩ := Option.isSome_iff_exists.1 hsome
  have h := overlap_keeps_failures ht (by decide +kernel)
  exact ⟨t, u, ht, hu, hmem, h.1, h.2 _ u hu hmeets 0 hmem⟩

/-- Two workers that have both read the new row; the first one's failure is tried again
before the second one's is recorded. -/
def staleSteps : List (Step Unit) :=
  begins 0 0 4 ++ begins 1 0 4 ++ goes 0 [.raisedOther, .sample (), .done] ++
    begins 0 2000000000 4 ++ goes 1 [.raisedOther, .sample ()]

/-- **A failure is lost**: two are recorded, and the row counts one. -/
theorem overlap_loses_failure : ¬ ∀ (steps : List (Step Unit)) (t : State),
    run (system inspectSample sampleDelay) State.initial steps = some t →
    (∀ id r, t.shared.store.row id = some r → r.attemptCount = attempts t.shared id) ∧
      ∀ later u, run (system inspectSample sampleDelay) t later = some u →
        ∀ id, (id, .integrity) ∈ t.shared.failures →
          u.shared.store.row id = t.shared.store.row id := by
  intro h
  have hlost : (run (system inspectSample sampleDelay) State.initial staleSteps).any (fun t =>
      (t.shared.store.row 0).any fun r => r.attemptCount ≠ attempts t.shared 0) = true := by
    decide +kernel
  obtain ⟨t, ht, hrow⟩ := (Option.any_eq_true _ _).1 hlost
  obtain ⟨r, hr, hbad⟩ := (Option.any_eq_true _ _).1 hrow
  exact of_decide_eq_true hbad ((h staleSteps t ht).1 0 r hr)

end

end Anchor
end Vestrix
