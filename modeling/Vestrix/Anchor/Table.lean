/-
# Operations on the table

The methods of `LifecycleStore`, called one after the other in any order, each with the row as it
stands.  A row that has failed should say from where it is resumed and of which class the
failure was, and a row that has not failed should name no class.

`resume_retry` keeps that, and so does `record_failure` where it is given a class.  `transition` clears
both columns whatever the new state is, and its table of transitions has some into and out of
`retry_failed`, so that the record holds up where it is not called for these (`failures_recorded`).
-/

import Vestrix.Anchor.Steps

namespace Vestrix
namespace Anchor

open Text Outcome Transition

/-- A call of a method, on the row with a key where the method takes a row. -/
inductive Operation where
  | trackTip (sequence : ℕ) (tipHash : List UInt8) (proofPath : ProofPath)
    (intervalMinutes confirmationThreshold : ℕ)
  | transition (id : ℕ) (state : Lifecycle) (now : ℕ) (nextAttempt : Option ℕ)
  | pendingChecked (id : ℕ) (now nextAttempt : ℕ)
  | recordFailure (id : ℕ) (failureClass : Option FailureClass) (error : Cause) (now : ℕ)
    (nextAttempt : Option ℕ)
  | resumeRetry (id : ℕ)
deriving DecidableEq

namespace LifecycleStore

/-- The table after an `UPDATE` of one row. -/
def put (store : LifecycleStore) (id : ℕ) (row : Row) : LifecycleStore :=
  { store with row := Function.update store.row id (some row) }

/-- The table after an `INSERT`. -/
def insert (store : LifecycleStore) (row : Row) : LifecycleStore :=
  ⟨store.count + 1, Function.update store.row store.count (some row)⟩

/-- The table before the first call. -/
def empty : LifecycleStore := ⟨0, fun _ => none⟩

end LifecycleStore

/-- A call that updates a row, with the row as it stands. -/
def update (store : LifecycleStore) (id : ℕ) (method : Job → Except Cause Row) : Option LifecycleStore :=
  match store.row id with
  | none => none
  | some row =>
    match method ⟨id, row⟩ with
    | .ok row => some (store.put id row)
    | .error _ => none

/-- A successful call of a method. -/
def operate (store : LifecycleStore) : Operation → Option LifecycleStore
  | .trackTip n tipHash proofPath intervalMinutes confirmationThreshold =>
    match store.trackTip n tipHash proofPath intervalMinutes confirmationThreshold with
    | some row => some (store.insert row)
    | none => some store
  | .transition id state now nextAttempt =>
    update store id fun job => store.transition job state now nextAttempt
  | .pendingChecked id now nextAttempt => update store id fun job => store.pendingChecked job now nextAttempt
  | .recordFailure id failureClass error now nextAttempt =>
    update store id fun job => store.recordFailure job failureClass error now nextAttempt
  | .resumeRetry id => update store id store.resumeRetry

/-- The columns of a row that are about failures agree with its state. -/
def Row.Recorded (row : Row) : Prop :=
  (row.state = .retryFailed → row.retryFrom ≠ none ∧ row.failureClass ≠ none) ∧
    (row.state ≠ .retryFailed → row.failureClass = none)

instance (row : Row) : Decidable row.Recorded := inferInstanceAs (Decidable ((_ → _ ∧ _) ∧ (_ → _)))

/-- All rows say how they have failed. -/
def Recorded (store : LifecycleStore) : Prop := ∀ id row, store.row id = some row → row.Recorded

/-- A call takes no row whose failure is one of integrity out of `retry_failed`, unless it is one of
`resume_retry` for this row. -/
def Leaves (store store' : LifecycleStore) (op : Operation) : Prop :=
  ∀ id row, store.row id = some row → row.state = .retryFailed → row.failureClass = some .integrity →
    (∀ row', store'.row id = some row' → row'.state = .retryFailed) ∨ op = .resumeRetry id

/-- `transition` is not called for `retry_failed`, nor for a row whose failure is one of
integrity, and `record_failure` is called with a class. -/
def Guarded (store : LifecycleStore) : Operation → Prop
  | .transition id state _ _ =>
    state ≠ .retryFailed ∧ ∀ row ∈ store.row id, row.failureClass ≠ some .integrity
  | .recordFailure _ failureClass _ _ _ => failureClass ≠ none
  | _ => True

instance (store : LifecycleStore) : ∀ op, Decidable (Guarded store op)
  | .transition id state _ _ =>
    match h : store.row id with
    | none => decidable_of_iff (state ≠ .retryFailed)
        ⟨fun hs => ⟨hs, fun row hrow => by rw [h] at hrow; cases hrow⟩, And.left⟩
    | some row => decidable_of_iff (state ≠ .retryFailed ∧ row.failureClass ≠ some .integrity)
        ⟨fun hs => ⟨hs.1, fun row' hrow => by rw [h] at hrow; cases hrow; exact hs.2⟩,
          fun hs => ⟨hs.1, hs.2 row h⟩⟩
  | .trackTip .. => isTrue trivial
  | .pendingChecked .. => isTrue trivial
  | .recordFailure _ failureClass _ _ _ => inferInstanceAs (Decidable (failureClass ≠ none))
  | .resumeRetry _ => isTrue trivial

variable {store store' t : LifecycleStore} {op : Operation} {ops : List Operation} {id : ℕ}

/-! ### One call -/

/-- A call changes the row that it is made on, as its method does. -/
theorem update_eq_some {method : Job → Except Cause Row} :
    update store id method = some store' ↔
      ∃ row row', store.row id = some row ∧ method ⟨id, row⟩ = .ok row' ∧ store' = store.put id row' := by
  rw [update]
  cases hrow : store.row id with
  | none =>
    constructor
    · intro h
      cases h
    · rintro ⟨row, row', h, -⟩
      cases h
  | some row =>
    dsimp only
    cases hmethod : method ⟨id, row⟩ with
    | error e =>
      constructor
      · intro h
        cases h
      · rintro ⟨row', row'', h, hm, -⟩
        obtain rfl := Option.some.inj h
        cases hmethod.symm.trans hm
    | ok row' =>
      constructor
      · intro h
        exact ⟨row, row', rfl, hmethod, (Option.some.inj h).symm⟩
      · rintro ⟨r, r', h, hm, rfl⟩
        obtain rfl := Option.some.inj h
        rw [Except.ok.inj (hmethod.symm.trans hm)]

/-- What a call does to the table: nothing, one more row that is queued, or another row in the
place of one. -/
inductive Operates (store : LifecycleStore) (op : Operation) : LifecycleStore → Prop
  | silent : Operates store op store
  | insert {row : Row} (hstate : row.state = .queued) (hclass : row.failureClass = none) :
      Operates store op (store.insert row)
  | transition {id now : ℕ} {state : Lifecycle} {next : Option ℕ} {row : Row}
      (hop : op = .transition id state now next) (hrow : store.row id = some row) :
      Operates store op (store.put id { row with
        state := state, lastAttempt := some now, nextAttempt := next, lastError := none,
        retryFrom := none, failureClass := none })
  | check {id now next : ℕ} {row : Row} (hrow : store.row id = some row)
      (hstate : row.state = .submittedPending) :
      Operates store op (store.put id (row.finished false now (some next)))
  | fail {id now : ℕ} {failureClass : Option FailureClass} {error : Cause} {next : Option ℕ} {row : Row}
      (hop : op = .recordFailure id failureClass error now next) (hrow : store.row id = some row)
      (hstate : row.state ∈ retrySources) :
      Operates store op (store.put id (row.failed ⟨id, row⟩ failureClass error now next))
  | resume {id : ℕ} {row : Row} {retryFrom : Lifecycle} (hop : op = .resumeRetry id)
      (hrow : store.row id = some row) (hretry : retryFrom ∈ retrySources) :
      Operates store op (store.put id (row.resumed retryFrom))

/-- What a call does is what the relation of its method says. -/
theorem operates_of_operate (h : operate store op = some store') : Operates store op store' := by
  cases op with
  | trackTip sequence tipHash proofPath intervalMinutes confirmationThreshold =>
    rw [operate] at h
    split at h
    · rename_i row htrack
      obtain rfl := Option.some.inj h
      rw [LifecycleStore.trackTip] at htrack
      split at htrack
      · cases htrack
      · obtain rfl := Option.some.inj htrack
        exact .insert rfl rfl
    · obtain rfl := Option.some.inj h
      exact .silent
  | transition id state now next =>
    rw [operate] at h
    obtain ⟨row, row', hrow, hmethod, rfl⟩ := update_eq_some.1 h
    obtain ⟨-, -, hmethod⟩ := bind_eq_ok.1 hmethod
    obtain ⟨r, hr, -, rfl⟩ := updateWhere_eq_some.1 (orError_eq_ok.1 hmethod)
    obtain rfl := Option.some.inj (hrow.symm.trans hr)
    exact .transition rfl hrow
  | pendingChecked id now next =>
    rw [operate] at h
    obtain ⟨row, row', hrow, hmethod, rfl⟩ := update_eq_some.1 h
    obtain ⟨r, hr, hstate, rfl⟩ := pendingChecked_eq_ok hmethod
    obtain rfl := Option.some.inj (hrow.symm.trans hr)
    exact .check hrow hstate
  | recordFailure id failureClass error now next =>
    rw [operate] at h
    obtain ⟨row, row', hrow, hmethod, rfl⟩ := update_eq_some.1 h
    obtain ⟨_, hstate, -⟩ := bind_eq_ok.1 hmethod
    obtain ⟨r, hr, -, rfl⟩ := recordFailure_eq_ok hmethod
    obtain rfl := Option.some.inj (hrow.symm.trans hr)
    exact .fail rfl hrow (require_eq_ok.1 hstate)
  | resumeRetry id =>
    rw [operate] at h
    obtain ⟨row, row', hrow, hmethod, rfl⟩ := update_eq_some.1 h
    obtain ⟨retryFrom, -, hretry⟩ := bind_eq_ok.1 hmethod
    obtain ⟨_, hstate, hupdate⟩ := bind_eq_ok.1 hretry
    obtain ⟨r, hr, -, rfl⟩ := updateWhere_eq_some.1 (orError_eq_ok.1 hupdate)
    obtain rfl := Option.some.inj (hrow.symm.trans hr)
    exact .resume rfl hrow (require_eq_ok.1 hstate).2

/-! ### The record -/

/-- The rows of a table are those with smaller keys than its count. -/
def Bounded (store : LifecycleStore) : Prop := ∀ id row, store.row id = some row → id < store.count

/-- After a row has been put in the place of another one, it is there, and the others are where they
were. -/
theorem put_row {row row' : Row} {id' : ℕ} (h : (store.put id row).row id' = some row') :
    id' = id ∧ row' = row ∨ id' ≠ id ∧ store.row id' = some row' := by
  rcases eq_or_ne id' id with rfl | hne
  · refine Or.inl ⟨rfl, ?_⟩
    have hself : (store.put id' row).row id' = some row := Function.update_self ..
    exact (Option.some.inj (hself.symm.trans h)).symm
  · have hother : (store.put id row).row id' = store.row id' := Function.update_of_ne hne ..
    exact Or.inr ⟨hne, hother.symm.trans h⟩

/-- A row that says how it has failed may be put in the place of another one. -/
theorem Recorded.put {row : Row} (h : Recorded store) (hrow : row.Recorded) :
    Recorded (store.put id row) := by
  intro id' row' h'
  rcases put_row h' with ⟨-, rfl⟩ | ⟨-, h'⟩
  · exact hrow
  · exact h id' row' h'

/-- A row in the place of another one is below the count. -/
theorem Bounded.put {row : Row} (h : Bounded store) (hid : ∃ r, store.row id = some r) :
    Bounded (store.put id row) := by
  obtain ⟨r, hr⟩ := hid
  intro id' row' h'
  rcases put_row h' with ⟨rfl, -⟩ | ⟨-, h'⟩
  · exact h id' r hr
  · exact h id' row' h'

/-- A new row has the next key, and the others stay. -/
theorem insert_row {row row' : Row} {id' : ℕ} (h : (store.insert row).row id' = some row') :
    id' = store.count ∧ row' = row ∨ store.row id' = some row' := by
  rcases eq_or_ne id' store.count with rfl | hne
  · refine Or.inl ⟨rfl, ?_⟩
    have hself : (store.insert row).row store.count = some row := Function.update_self ..
    exact (Option.some.inj (hself.symm.trans h)).symm
  · have hother : (store.insert row).row id' = store.row id' := Function.update_of_ne hne ..
    exact Or.inr (hother.symm.trans h)

/-- Every call keeps the keys below the count. -/
theorem Bounded.operates (hb : Bounded store) (h : Operates store op store') : Bounded store' := by
  cases h with
  | silent => exact hb
  | insert =>
    intro id row hrow
    rcases insert_row hrow with ⟨rfl, -⟩ | hrow
    · exact Nat.lt_succ_self _
    · exact Nat.lt_succ_of_lt (hb id row hrow)
  | transition _ hrow => exact hb.put ⟨_, hrow⟩
  | check hrow => exact hb.put ⟨_, hrow⟩
  | fail _ hrow => exact hb.put ⟨_, hrow⟩
  | resume _ hrow => exact hb.put ⟨_, hrow⟩

/-- **A guarded call keeps the record.** -/
theorem Recorded.operates (hs : Recorded store) (hg : Guarded store op) (h : Operates store op store') :
    Recorded store' := by
  cases h with
  | silent => exact hs
  | insert hstate hclass =>
    intro id row hrow
    rcases insert_row hrow with ⟨-, rfl⟩ | hrow
    · exact ⟨fun hfailed => (by rw [hstate] at hfailed; cases hfailed), fun _ => hclass⟩
    · exact hs id row hrow
  | transition hop _ =>
    subst hop
    exact hs.put ⟨fun hfailed => absurd hfailed hg.1, fun _ => rfl⟩
  | check _ hstate =>
    refine hs.put ⟨fun hfailed => ?_, fun _ => rfl⟩
    rw [Row.finished, targetState, if_neg (by decide)] at hfailed
    cases hfailed
  | fail hop _ _ =>
    subst hop
    exact hs.put ⟨fun _ => ⟨Option.some_ne_none _, hg⟩, fun h => absurd rfl h⟩
  | resume _ _ hretry =>
    refine hs.put ⟨fun hfailed => ?_, fun _ => rfl⟩
    rw [show (Row.resumed _ _).state = _ from rfl] at hfailed
    subst hfailed
    exact absurd hretry (by decide)

/-- **A guarded call resumes no integrity failure**, unless it is one of `resume_retry`. -/
theorem leaves_of_operates (hb : Bounded store) (hg : Guarded store op) (h : Operates store op store') :
    Leaves store store' op := by
  intro id row hrow hstate hclass
  have hput : ∀ {id' : ℕ} {r new : Row}, store.row id' = some r → r.state ≠ .retryFailed →
      ∀ row', (store.put id' new).row id = some row' → row'.state = .retryFailed := by
    intro id' r new hr hne row' hrow'
    rcases put_row hrow' with ⟨rfl, -⟩ | ⟨-, hrow'⟩
    · rw [Option.some.inj (hr.symm.trans hrow)] at hne
      exact absurd hstate hne
    · rw [← Option.some.inj (hrow.symm.trans hrow')]
      exact hstate
  have hsame : ∀ row', store.row id = some row' → row'.state = .retryFailed := by
    intro row' hrow'
    rw [← Option.some.inj (hrow.symm.trans hrow')]
    exact hstate
  cases h with
  | silent => exact Or.inl hsame
  | insert =>
    refine Or.inl fun row' hrow' => ?_
    rcases insert_row hrow' with ⟨rfl, -⟩ | hrow'
    · exact absurd (hb _ row hrow) (Nat.lt_irrefl _)
    · exact hsame row' hrow'
  | @transition id' _ _ _ r hop hr =>
    subst hop
    refine Or.inl fun row' hrow' => ?_
    rcases put_row hrow' with ⟨rfl, -⟩ | ⟨-, hrow'⟩
    · exact absurd hclass (hg.2 row hrow)
    · exact hsame row' hrow'
  | check hr hpending => exact Or.inl (hput hr (by rw [hpending]; decide))
  | fail _ hr hsource =>
    refine Or.inl (hput hr ?_)
    rintro hfailed
    rw [hfailed] at hsource
    exact absurd hsource (by decide)
  | @resume id' r _ hop hr _ =>
    by_cases hid : id = id'
    · exact Or.inr (hid ▸ hop)
    · refine Or.inl fun row' hrow' => ?_
      rcases put_row hrow' with ⟨heq, -⟩ | ⟨-, hrow'⟩
      · exact absurd heq hid
      · exact hsame row' hrow'

/-! ### Runs -/

/-- **The record of failures.**  In every run of calls that are guarded, every row says how it has
failed, and no call but one of `resume_retry` takes an integrity failure up again. -/
theorem failures_recorded (hguarded : Meets operate Guarded .empty ops)
    (hrun : run operate .empty ops = some t) :
    Recorded t ∧ ∀ before op after s u, ops = before ++ op :: after →
      run operate .empty before = some s → operate s op = some u → Recorded s ∧ Leaves s u op := by
  have hkeep : ∀ {ops t}, Meets operate Guarded .empty ops → run operate .empty ops = some t →
      Bounded t ∧ Recorded t := by
    intro ops t hok h
    refine run_induction (I := fun s => Bounded s ∧ Recorded s) (fun s op t hs hg ht => ?_)
      ⟨fun id row hrow => (by cases hrow), fun id row hrow => (by cases hrow)⟩ hok h
    have hoperates := operates_of_operate ht
    exact ⟨hs.1.operates hoperates, hs.2.operates hg hoperates⟩
  refine ⟨(hkeep hguarded hrun).2, ?_⟩
  rintro before op after s u rfl hbefore hop
  obtain ⟨hfront, hback⟩ := Meets.append.1 hguarded
  obtain ⟨hbounded, hrecorded⟩ := hkeep hfront hbefore
  exact ⟨hrecorded, leaves_of_operates hbounded (hback s hbefore).1 (operates_of_operate hop)⟩

/-- A queued row fails, is resumed and is submitted. -/
def sampleOperations : List Operation :=
  [.trackTip 0 [] ⟨[], 0, []⟩ 60 6, .recordFailure 0 (some .integrity) .integrity 1 none, .resumeRetry 0,
    .transition 0 .submittedPending 2 (some 3)]

/-- The failure is recorded in a run that tracks a tip, quarantines it, resumes it and submits it. -/
theorem failures_recorded_sample : ∃ t, run operate .empty sampleOperations = some t ∧ Recorded t :=
  ⟨_, rfl, (failures_recorded (show Meets operate Guarded .empty sampleOperations by decide) rfl).1⟩

/-- A transition to `retry_failed` leaves a row that does not say from where it is resumed, and a failure without
a class a row that does not say of which class it is. -/
theorem transition_not_recorded :
    (∃ t, run operate .empty [.trackTip 0 [] ⟨[], 0, []⟩ 60 6, .transition 0 .retryFailed 1 (some 2)] =
      some t ∧ ¬ Recorded t) ∧
    ∃ t, run operate .empty [.trackTip 0 [] ⟨[], 0, []⟩ 60 6, .recordFailure 0 none .raised 1 (some 2)] =
      some t ∧ ¬ Recorded t :=
  ⟨⟨_, rfl, fun h => ((h 0 _ rfl).1 rfl).1 rfl⟩, ⟨_, rfl, fun h => ((h 0 _ rfl).1 rfl).2 rfl⟩⟩

end Anchor
end Vestrix
