/-
# Jobs of one run

What is done to one job depends on its row, its proof and what is in its way, and reaches the rows
and the proofs of no others.  So a job fares in the loop of `run_once` as it would alone, provided
that the loop comes to it and that no job before it has put something in its way.

That the loop does not come to a job is what an exception does that leaves `_process_job`: the
handler computes the next attempt and stores the text of the exception, both of which can fail, and
`resume_retry` is called before the handler is in place.  And what is in a job's way is a proof
where a directory of its path is to be, or a directory where its proof is to be (`jobs_isolated`).
-/

import Vestrix.Anchor.Overlap
import Vestrix.Anchor.Processing

namespace Vestrix
namespace Anchor
namespace Isolation

open Text Outcome

variable {J : Type} {inspectProof : List UInt8 → List UInt8 → Option Bool}
  {retryDelay : ℕ → J → Option ℕ} {env : Environment J} {now : ℕ} {s : Shared} {site t : Site}
  {job : Job} {deed : Deed} {effect : Effect} {n : ℕ} {error : Cause} {failureClass : FailureClass}
  {file : Option (List UInt8)} {obstacles : Obstacles}

/-! ### A job in the table -/

/-- The keys of the table: `id`, and the sequence with the tip. -/
structure Keyed (store : LifecycleStore) : Prop where
  bounded : ∀ id row, store.row id = some row → id < store.count
  unique : ∀ id id' row row', store.row id = some row → store.row id' = some row' →
    row.sequence = row'.sequence → row.tipHash = row'.tipHash → id = id'

/-- `get` finds the row of a job. -/
theorem Keyed.get {store : LifecycleStore} (h : Keyed store) {id : ℕ} {row : Row}
    (hrow : store.row id = some row) : store.get row.sequence row.tipHash = some ⟨id, row⟩ := by
  cases hget : store.get row.sequence row.tipHash with
  | none =>
    have hjob : (⟨id, row⟩ : Job) ∈ store.jobs := mem_jobs.2 ⟨h.bounded id row hrow, hrow⟩
    have := List.find?_eq_none.1 hget _ hjob
    simp at this
  | some job =>
    obtain ⟨hjob, hsequence, htip⟩ := get_eq_some hget
    obtain rfl := h.unique job.id id job.row row hjob hrow hsequence htip
    rw [← Option.some.inj (hjob.symm.trans hrow)]

/-- Two states have the same row and proof of a job. -/
def Agree (job : Job) (s t : Shared) : Prop :=
  s.store.row job.id = t.store.row job.id ∧ s.files job.row.proofPath = t.files job.row.proofPath

/-- A state agrees with itself on every job. -/
theorem Agree.refl (job : Job) (s : Shared) : Agree job s s := ⟨rfl, rfl⟩

/-- Agreement on a job goes both ways. -/
theorem Agree.symm {t : Shared} (h : Agree job s t) : Agree job t s := ⟨h.1.symm, h.2.symm⟩

/-- Agreement on a job goes on. -/
theorem Agree.trans {t u : Shared} (h : Agree job s t) (h' : Agree job t u) : Agree job s u :=
  ⟨h.1.trans h'.1, h.2.trans h'.2⟩

/-- What a job's processing leaves as it was. -/
structure Within (job : Job) (s t : Shared) : Prop where
  count : t.store.count = s.store.count
  row : ∀ id, id ≠ job.id → t.store.row id = s.store.row id
  tip : (∃ r, s.store.row job.id = some r ∧ job.row.SameTip r) →
    ∃ r, t.store.row job.id = some r ∧ job.row.SameTip r
  file : ∀ path, path ≠ job.row.proofPath → t.files path = s.files path

/-- Where nothing has changed, nothing but the job has. -/
theorem Within.refl (job : Job) (s : Shared) : Within job s s :=
  ⟨rfl, fun _ _ => rfl, id, fun _ _ => rfl⟩

/-- Two changes within a job are one. -/
theorem Within.trans {t u : Shared} (h : Within job s t) (h' : Within job t u) : Within job s u :=
  ⟨h'.count.trans h.count, fun id hid => (h'.row id hid).trans (h.row id hid),
    fun htip => h'.tip (h.tip htip), fun path hpath => (h'.file path hpath).trans (h.file path hpath)⟩

/-- Another job is left as it was. -/
theorem Within.agree {t : Shared} {other : Job} (h : Within job s t) (hid : other.id ≠ job.id)
    (hpath : other.row.proofPath ≠ job.row.proofPath) : Agree other t s :=
  ⟨h.row _ hid, h.file _ hpath⟩

/-- The table keeps its keys. -/
theorem Keyed.within {t : Shared} (h : Keyed s.store) (ht : Within job s t)
    (hrow : s.store.row job.id = some job.row) : Keyed t.store := by
  have htip : ∀ id r, t.store.row id = some r → ∃ r', s.store.row id = some r' ∧ r'.SameTip r := by
    intro id r hr
    by_cases hid : id = job.id
    · subst hid
      obtain ⟨r', hr', hsame⟩ := ht.tip ⟨job.row, hrow, .refl _⟩
      rw [Option.some.inj (hr.symm.trans hr')]
      exact ⟨job.row, hrow, hsame⟩
    · exact ⟨r, (ht.row id hid).symm.trans hr, .refl r⟩
  refine ⟨fun id r hr => ?_, fun id id' r r' hr hr' hsequence htiphash => ?_⟩
  · obtain ⟨r', hr', -⟩ := htip id r hr
    exact ht.count ▸ h.bounded id r' hr'
  · obtain ⟨r₁, hr₁, h₁⟩ := htip id r hr
    obtain ⟨r₂, hr₂, h₂⟩ := htip id' r' hr'
    exact h.unique id id' r₁ r₂ hr₁ hr₂ (h₁.1.symm.trans (hsequence.trans h₂.1))
      (h₁.2.1.symm.trans (htiphash.trans h₂.2.1))

/-- The row is the one that is written. -/
theorem row_write_self {id : ℕ} {row : Row} {failure : Option FailureClass} :
    (s.apply (.write id row failure)).store.row id = some row := Function.update_self _ _ _

/-- A deed for a job: a directory, its proof or its row. -/
def Of (job : Job) : Deed → Prop
  | .mkdir _ => True
  | .effect .silent => True
  | .effect (.insert _) => False
  | .effect (.write id row _) => id = job.id ∧ job.row.SameTip row
  | .effect (.put path _ _) => path = job.row.proofPath

/-- A deed for a job changes nothing else. -/
theorem Of.within (h : Of job deed) : Within job site.shared (site.apply deed).shared := by
  cases deed with
  | mkdir path => exact .refl job _
  | effect effect =>
    cases effect with
    | silent => exact .refl job _
    | insert row => exact h.elim
    | write id row failure =>
      obtain ⟨rfl, htip⟩ := h
      exact ⟨rfl, fun id hid => Function.update_of_ne hid _ _,
        fun _ => ⟨row, row_write_self, htip⟩, fun _ _ => rfl⟩
    | put path proof replace =>
      obtain rfl := h
      exact ⟨rfl, fun _ _ => rfl, id, fun path hpath => Function.update_of_ne hpath _ _⟩

/-- The deeds for a job reach no other. -/
theorem foldl_within {deeds : List Deed} (h : ∀ deed ∈ deeds, Of job deed) :
    Within job site.shared (deeds.foldl Site.apply site).shared := by
  induction deeds generalizing site with
  | nil => exact .refl job _
  | cons deed deeds ih =>
    obtain ⟨hdeed, hdeeds⟩ := List.forall_mem_cons.1 h
    exact hdeed.within.trans (ih hdeeds)

/-- What becomes of the row and the proof of a job depends on them only. -/
theorem foldl_congr {deeds : List Deed} (h : ∀ deed ∈ deeds, Of job deed)
    (hst : Agree job site.shared t.shared) :
    Agree job (deeds.foldl Site.apply site).shared (deeds.foldl Site.apply t).shared := by
  induction deeds generalizing site t with
  | nil => exact hst
  | cons deed deeds ih =>
    obtain ⟨hdeed, hdeeds⟩ := List.forall_mem_cons.1 h
    refine ih hdeeds ?_
    cases deed with
    | mkdir path => exact hst
    | effect effect =>
      cases effect with
      | silent => exact hst
      | insert row => exact hdeed.elim
      | write id row failure =>
        obtain ⟨rfl, -⟩ := hdeed
        exact ⟨row_write_self.trans row_write_self.symm, hst.2⟩
      | put path proof replace =>
        obtain rfl := hdeed
        exact ⟨hst.1, (apply_put_self ..).trans (apply_put_self ..).symm⟩

/-- The proofs added after some deeds are those before, and those that the deeds put where there was none. -/
theorem mem_written {deeds : List Deed} {path : ProofPath} :
    path ∈ (deeds.foldl Site.apply site).written ↔ path ∈ site.written ∨
      site.shared.files path = none ∧ ∃ proof replace, .effect (.put path proof replace) ∈ deeds := by
  induction deeds generalizing site with
  | nil => simp
  | cons deed deeds ih =>
    rw [List.foldl_cons, ih]
    cases deed with
    | mkdir other => simp [Site.apply]
    | effect effect =>
      cases effect with
      | put other proof replace =>
        by_cases hother : other = path
        · -- the first put decides, since the file is there afterwards
          subst hother
          have hput : (site.apply (.effect (.put other proof replace))).shared.files other = some proof :=
            apply_put_self ..
          by_cases hnew : site.shared.files other = none
          · refine iff_of_true (Or.inl ?_) (Or.inr ⟨hnew, proof, replace, List.mem_cons_self⟩)
            simp [Site.apply, hnew]
          · rw [hput]
            simp [Site.apply, hnew]
        · have hkept : (site.apply (.effect (.put other proof replace))).shared.files path =
              site.shared.files path := Function.update_of_ne (Ne.symm hother) _ _
          have hsame : path ∈ (site.apply (.effect (.put other proof replace))).written ↔
              path ∈ site.written := by
            simp only [Site.apply]
            split_ifs
            · simp [Ne.symm hother]
            · exact Iff.rfl
          simp [hkept, hsame, Ne.symm hother]
      | _ => simp [Site.apply, Shared.apply]

/-- The directories made after some deeds are those before and those that the deeds make. -/
theorem mem_made {deeds : List Deed} {path : ProofPath} :
    path ∈ (deeds.foldl Site.apply site).made ↔ path ∈ site.made ∨ .mkdir path ∈ deeds := by
  induction deeds generalizing site with
  | nil => simp
  | cons deed deeds ih =>
    rw [List.foldl_cons, ih]
    cases deed <;> simp [Site.apply, or_assoc, or_left_comm]

/-! ### What a job reaches -/

/-- What `_process_queued` and `_process_pending` do. -/
def Attempts (now : ℕ) (job : Job) : Deed → Prop
  | .mkdir _ => True
  | .effect (.write id row _) => id = job.id ∧ ∃ bitcoin next, row = job.row.finished bitcoin now next
  | .effect (.put path _ _) => path = job.row.proofPath
  | .effect _ => False

/-- What an attempt does is for its job. -/
theorem Attempts.of (h : Attempts now job deed) : Of job deed := by
  cases deed with
  | mkdir path => trivial
  | effect effect =>
    cases effect with
    | silent => trivial
    | insert row => exact h
    | write id row failure =>
      obtain ⟨rfl, bitcoin, next, rfl⟩ := h
      exact ⟨rfl, rfl, rfl, rfl⟩
    | put path proof replace => exact h

/-- The last update is for the row of the job. -/
theorem finishing_attempts (job : Job) (bitcoin : Bool) :
    ∀ deed ∈ (finishing now job bitcoin).1, Attempts now job deed := by
  intro deed h
  rw [finishing] at h
  split_ifs at h
  · obtain rfl := List.mem_singleton.1 h
    exact ⟨rfl, _, _, rfl⟩
  · obtain rfl := List.mem_singleton.1 h
    exact ⟨rfl, _, _, rfl⟩
  · exact absurd h List.not_mem_nil

/-- `write_proof_atomic` is for the proof of the job, and the update for its row. -/
theorem publishing_attempts (job : Job) (proof : List UInt8) (bitcoin replace : Bool) :
    ∀ deed ∈ (publishing env now job proof bitcoin replace obstacles).1, Attempts now job deed := by
  intro deed h
  rw [publishing] at h
  split_ifs at h
  · exact absurd h List.not_mem_nil
  · exact absurd h List.not_mem_nil
  · obtain ⟨path, -, rfl⟩ := List.mem_map.1 h
    trivial
  · obtain rfl := List.mem_singleton.1 h
    trivial
  · rcases List.mem_cons.1 h with rfl | h
    · trivial
    · rcases List.mem_cons.1 h with rfl | h
      · exact rfl
      · exact finishing_attempts job bitcoin deed h

/-- What follows an answer is for the row and the proof of the job. -/
theorem answering_attempts (job : Job) (replace : Bool) (answer : Answer) :
    ∀ deed ∈ (answering inspectProof env now job replace obstacles answer).1, Attempts now job deed := by
  intro deed h
  unfold answering at h
  split at h
  · split at h
    · exact publishing_attempts job _ _ replace deed h
    · exact absurd h List.not_mem_nil
  · split_ifs at h
    · exact finishing_attempts job false deed h
    · exact absurd h List.not_mem_nil
  · exact absurd h List.not_mem_nil
  · exact absurd h List.not_mem_nil

/-- What follows the reading of a proof is for the row and the proof of the job. -/
theorem reading_attempts (job : Job) (file : Option (List UInt8)) :
    ∀ deed ∈ (reading inspectProof env now job obstacles file).1, Attempts now job deed := by
  intro deed h
  unfold reading at h
  split at h
  · exact absurd h List.not_mem_nil
  · split_ifs at h
    · exact absurd h List.not_mem_nil
    · split at h
      · exact absurd h List.not_mem_nil
      · split_ifs at h
        · exact answering_attempts job true _ deed h
        · exact finishing_attempts job _ deed h

/-- All that an attempt does is for the row and the proof of the job. -/
theorem attempt_attempts (job : Job) (file : Option (List UInt8)) (obstacles : Obstacles) :
    ∀ deed ∈ (attempt inspectProof env now job file obstacles).1, Attempts now job deed := by
  intro deed h
  unfold attempt at h
  split at h
  · split_ifs at h
    · exact answering_attempts job false _ deed h
    · exact reading_attempts job _ deed h
  · split_ifs at h
    · exact absurd h List.not_mem_nil
    · exact reading_attempts job _ deed h
  · exact absurd h List.not_mem_nil

/-- The handler writes a failure of the exception's cause. -/
theorem handling_fails {raised : Option Raised} (h : deed ∈ (handling retryDelay env now job raised).1) :
    ∃ r failureClass next, raised = some r ∧ deed = .effect (.write job.id
      (job.row.failed job (some failureClass) r.error now next) (some failureClass)) := by
  cases raised with
  | none => exact absurd h List.not_mem_nil
  | some r =>
    rw [handling] at h
    split_ifs at h
    · unfold recording at h
      split at h
      · exact ⟨r, _, _, rfl, List.mem_singleton.1 h⟩
      · split at h
        · split_ifs at h
          · exact ⟨r, _, _, rfl, List.mem_singleton.1 h⟩
          · exact absurd h List.not_mem_nil
        · exact absurd h List.not_mem_nil
    · exact absurd h List.not_mem_nil

/-- The row that is resumed is that of the job. -/
theorem resume_eq_some {resumed : Job} (h : resume job = some resumed) :
    resumed.id = job.id ∧ job.row.SameTip resumed.row ∧
      resumed.row.attemptCount = job.row.attemptCount := by
  rw [resume] at h
  split_ifs at h
  · obtain ⟨retryFrom, -, rfl⟩ := Option.map_eq_some_iff.1 h
    exact ⟨rfl, ⟨rfl, rfl, rfl⟩, rfl⟩
  · obtain rfl := Option.some.inj h
    exact ⟨rfl, .refl _, rfl⟩

/-- `resume_retry` is for the row of the job. -/
theorem resuming_of {resumed : Job} (h : resume job = some resumed) :
    ∀ deed ∈ resuming job resumed, Of job deed := by
  intro deed hdeed
  rw [resuming] at hdeed
  split_ifs at hdeed
  · obtain rfl := List.mem_singleton.1 hdeed
    exact ⟨rfl, (resume_eq_some h).2.1⟩
  · exact absurd hdeed List.not_mem_nil

/-- The handler adds an update of the job's row. -/
theorem handled_of {r : List Deed × Option Raised} (hr : ∀ deed ∈ r.1, Attempts now job deed) :
    ∀ deed ∈ (handled retryDelay env now job r).1, Of job deed := by
  intro deed h
  rcases List.mem_append.1 h with h | h
  · exact (hr deed h).of
  · obtain ⟨r, failureClass, next, -, rfl⟩ := handling_fails h
    exact ⟨rfl, rfl, rfl, rfl⟩

/-- A deed for the resumed job is one for the job. -/
theorem Of.resumed {resumed : Job} (hresume : resume job = some resumed) (h : Of resumed deed) :
    Of job deed := by
  obtain ⟨hid, htip, -⟩ := resume_eq_some hresume
  cases deed with
  | mkdir path => trivial
  | effect effect =>
    cases effect with
    | silent => trivial
    | insert row => exact h.elim
    | write id row failure => exact ⟨h.1.trans hid, htip.trans h.2⟩
    | put path proof replace => exact h.trans htip.2.2

/-- **A job's processing reaches its own row and proof only.** -/
theorem processed_of (job : Job) (file : Option (List UInt8)) (obstacles : Obstacles) :
    ∀ deed ∈ (processed inspectProof retryDelay env now job file obstacles).1, Of job deed := by
  intro deed h
  unfold processed at h
  split at h
  · exact absurd h List.not_mem_nil
  · rename_i resumed hresume
    rcases List.mem_append.1 h with h | h
    · exact resuming_of hresume deed h
    · exact (handled_of (attempt_attempts resumed file obstacles) deed h).resumed hresume

/-! ### What is in the way -/

/-- The last update makes and writes nothing but the row. -/
theorem mem_finishing {bitcoin : Bool} {deed : Deed} (h : deed ∈ (finishing now job bitcoin).1) :
    ∃ id row, deed = .effect (.write id row none) := by
  rw [finishing] at h
  split_ifs at h
  · exact ⟨_, _, List.mem_singleton.1 h⟩
  · exact ⟨_, _, List.mem_singleton.1 h⟩
  · exact absurd h List.not_mem_nil

/-- The last update can only fail for a next check after the last date. -/
theorem finishing_error {bitcoin : Bool} {raised : Raised}
    (h : (finishing now job bitcoin).2 = some raised) : raised.error = .overflow := by
  rw [finishing] at h
  split_ifs at h
  obtain rfl := Option.some.inj h
  rfl

variable (inspectProof env) in
/-- What the calendars answer, if an attempt comes to ask them: whether there is a directory in the place of
the proof, and what the file is that is there. -/
def asked (job : Job) (directory : Bool) (file : Option (List UInt8)) : Option Answer :=
  match job.row.state with
  | .queued => if file = none ∧ directory = false then some (env.stamp job.row.tipHash) else none
  | .submittedPending =>
    file.bind fun proof =>
      if env.unreadable job.row.proofPath = true ∨ directory = true then none
      else if inspectProof proof job.row.tipHash = some false then
        some (env.upgrade proof job.row.tipHash)
      else none
  | _ => none

variable (inspectProof) in
/-- The answer has a proof for the tip of the job, one that is not empty. -/
def Offered (job : Job) (answer : Option Answer) : Prop :=
  ∃ proof, answer = some (.returned (some proof)) ∧ proof ≠ [] ∧ inspectProof proof job.row.tipHash ≠ none

variable (env) in
/-- What is done, by whether a proof of the run is in the way: if a proof is offered, then the attempt
comes to `mkdir`, which fails of that, or makes what it can; and the proof is written if the directory can be
made and the proof be written. -/
structure Publishing (job : Job) (offered : Prop) (f : Bool → List Deed × Option Raised) : Prop where
  blocked : offered → f true = ([], some ⟨.transient, .notDirectory, true⟩)
  unasked : ¬ offered → f true = f false
  error : ∀ raised, (f false).2 = some raised → raised.error ≠ .notDirectory
  made : ∀ path, .mkdir path ∈ (f false).1 ↔ offered ∧ path ∈ env.makes job.row.proofPath
  written : (∃ proof replace, .effect (.put job.row.proofPath proof replace) ∈ (f false).1) ↔
    offered ∧ env.unmakeable job.row.proofPath = false ∧ env.unwritable job.row.proofPath = false

/-- An attempt that comes to nothing has come to no proof. -/
theorem Publishing.raised {offered : Prop} {raised : Raised} (h : ¬ offered)
    (herror : raised.error ≠ .notDirectory) : Publishing env job offered fun _ => ([], some raised) where
  blocked hoffered := absurd hoffered h
  unasked _ := rfl
  error raised' h' := Option.some.inj h' ▸ herror
  made path := by simp [h]
  written := by simp [h]

/-- Without a proof, the last update is all that is done. -/
theorem Publishing.finishing {offered : Prop} {bitcoin : Bool} (h : ¬ offered) :
    Publishing env job offered fun _ => finishing now job bitcoin where
  blocked hoffered := absurd hoffered h
  unasked _ := rfl
  error raised h' := by
    rw [finishing_error h']
    decide
  made path := by
    refine iff_of_false (fun hmem => ?_) fun hoffered => h hoffered.1
    obtain ⟨id, row, heq⟩ := mem_finishing hmem
    cases heq
  written := by
    refine iff_of_false (fun hmem => ?_) fun hoffered => h hoffered.1
    obtain ⟨proof, replace, hmem⟩ := hmem
    obtain ⟨id, row, heq⟩ := mem_finishing hmem
    cases heq

/-- A proof that is returned for the tip is written, unless it is empty or something is in the way. -/
theorem publishing_publishing {proof : List UInt8} {bitcoin : Bool} (directory replace : Bool)
    (hproof : inspectProof proof job.row.tipHash = some bitcoin) :
    Publishing env job (Offered inspectProof job (some (.returned (some proof))))
      fun parent => publishing env now job proof bitcoin replace ⟨directory, parent⟩ := by
  have hoffered : Offered inspectProof job (some (.returned (some proof))) ↔ proof ≠ [] := by
    simp [Offered, hproof]
  rw [hoffered]
  by_cases hempty : proof = []
  · simp only [publishing, if_pos hempty]
    exact .raised (fun h => h hempty) (by decide)
  have hmkdir : ∀ path, .mkdir path ∉ (finishing now job bitcoin).1 := fun path hmem => by
    obtain ⟨id, row, heq⟩ := mem_finishing hmem
    cases heq
  have hput : ∀ proof replace, .effect (.put job.row.proofPath proof replace) ∉ (finishing now job bitcoin).1 :=
    fun proof replace hmem => by
      obtain ⟨id, row, heq⟩ := mem_finishing hmem
      cases heq
  refine ⟨fun _ => ?_, fun h => absurd hempty h, fun raised h => ?_, fun path => ?_, ?_⟩ <;>
    simp only [publishing, if_neg hempty, Bool.false_eq_true, if_false, if_true] at *
  · split_ifs at h
    · obtain rfl := Option.some.inj h
      decide
    · obtain rfl := Option.some.inj h
      decide
    · rw [finishing_error h]
      decide
  · rw [Environment.makes]
    split_ifs with hmake <;> simp [hempty, mkdirPartway, hmkdir, eq_comm]
  · by_cases hmake : env.unmakeable job.row.proofPath = true
    · simp [hmake, mkdirPartway]
    · by_cases hwrite : env.unwritable job.row.proofPath = true
      · simp [hmake, hwrite]
      · simp [hempty, hmake, hwrite, hput]

/-- After an answer, a proof is written just if it is one for the tip. -/
theorem answering_publishing (directory replace : Bool) (answer : Answer) :
    Publishing env job (Offered inspectProof job (some answer))
      fun parent => answering inspectProof env now job replace ⟨directory, parent⟩ answer := by
  cases answer with
  | returned proof =>
    cases proof with
    | some proof =>
      cases hproof : inspectProof proof job.row.tipHash with
      | some bitcoin =>
        simp only [answering, hproof]
        exact publishing_publishing directory replace hproof
      | none =>
        simp only [answering, hproof]
        exact .raised (fun h => by simp [Offered, hproof] at h) (by decide)
    | none =>
      have hnot : ¬ Offered inspectProof job (some (.returned none)) := by simp [Offered]
      simp only [answering]
      split_ifs
      · exact .finishing hnot
      · exact .raised hnot (by decide)
  | raisedIntegrity text => exact .raised (fun h => by simp [Offered] at h) fun h => by cases h
  | raisedOther text => exact .raised (fun h => by simp [Offered] at h) fun h => by cases h

variable (inspectProof env now) in
/-- **What an attempt makes and writes** is decided by what the calendars answer. -/
theorem attempt_publishing (job : Job) (file : Option (List UInt8)) (directory : Bool) :
    Publishing env job (Offered inspectProof job (asked inspectProof env job directory file))
      fun parent => attempt inspectProof env now job file ⟨directory, parent⟩ := by
  have hnone : ¬ Offered inspectProof job none := by simp [Offered]
  unfold attempt asked
  cases hstate : job.row.state with
  | queued =>
    simp only
    split_ifs
    · exact answering_publishing directory false _
    · cases file with
      | none => exact .raised hnone (by decide)
      | some proof =>
        simp only [reading, hstate]
        split_ifs
        · exact .raised hnone (by decide)
        · cases inspectProof proof job.row.tipHash with
          | none => exact .raised hnone (by decide)
          | some bitcoin => simpa using Publishing.finishing hnone
  | submittedPending =>
    cases file with
    | none =>
      simp only [Option.bind_none]
      split_ifs <;> exact .raised hnone (by decide)
    | some proof =>
      simp only [reading, hstate, Option.bind_some, reduceCtorEq, false_and, if_false, true_and]
      split_ifs with hunreadable hpending
      · exact .raised hnone (by decide)
      · simp only [hpending, if_true]
        exact answering_publishing directory true _
      · cases hproof : inspectProof proof job.row.tipHash with
        | none => exact .raised hnone (by decide)
        | some bitcoin =>
          have hbitcoin : bitcoin ≠ false := fun h => hpending (h ▸ hproof)
          simp only [if_neg hbitcoin]
          exact .finishing hnone
  | _ =>
    exact ⟨fun h => absurd h hnone, fun _ => rfl, fun _ h => (by cases h), fun path => (by simp [hnone]),
      (by simp [hnone])⟩

/-- The directories that an attempt makes are on the way to its proof. -/
theorem Publishing.makes {offered : Prop} {f : Bool → List Deed × Option Raised} {parent : Bool}
    {path : ProofPath} (h : Publishing env job offered f) (hmkdir : .mkdir path ∈ (f parent).1) :
    path ∈ env.makes job.row.proofPath := by
  cases parent with
  | false => exact ((h.made path).1 hmkdir).2
  | true =>
    by_cases hoffered : offered
    · rw [h.blocked hoffered] at hmkdir
      exact absurd hmkdir List.not_mem_nil
    · rw [h.unasked hoffered] at hmkdir
      exact ((h.made path).1 hmkdir).2

/-- Resuming a job and recording its failure write rows only. -/
theorem mem_processed_iff {resumed : Job} (hresume : resume job = some resumed)
    (hdeed : ∀ id row failure, deed ≠ .effect (.write id row failure)) :
    deed ∈ (processed inspectProof retryDelay env now job file obstacles).1 ↔
      deed ∈ (attempt inspectProof env now resumed file obstacles).1 := by
  have hresuming : deed ∉ resuming job resumed := by
    rw [resuming]
    split_ifs
    · exact fun h => hdeed _ _ _ (List.mem_singleton.1 h)
    · exact List.not_mem_nil
  have hhandling : ∀ raised, deed ∉ (handling retryDelay env now resumed raised).1 := by
    intro raised h
    obtain ⟨r, failureClass, next, -, heq⟩ := handling_fails h
    exact hdeed _ _ _ heq
  rw [processed, hresume]
  simp [handled, hresuming, hhandling]

/-- The directories that a job makes are on the way to its proof. -/
theorem makes_of_mkdir {path : ProofPath}
    (h : .mkdir path ∈ (processed inspectProof retryDelay env now job file obstacles).1) :
    path ∈ env.makes job.row.proofPath := by
  cases hresume : resume job with
  | none =>
    rw [processed, hresume] at h
    exact absurd h List.not_mem_nil
  | some resumed =>
    have hmkdir := (mem_processed_iff hresume fun _ _ _ => by simp).1 h
    rw [← (resume_eq_some hresume).2.1.2.2]
    exact (attempt_publishing inspectProof env now resumed file obstacles.directory).makes hmkdir

/-- The work on a retry that has a state to go back to begins with the update of `resume_retry`. -/
theorem work_resume {retryFrom : Lifecycle} (hkeyed : Keyed site.shared.store)
    (hrow : site.shared.store.row job.id = some job.row) (hfailed : job.row.state = .retryFailed)
    (hretry : job.row.retryFrom = some retryFrom) (hsource : retryFrom ∈ retrySources) :
    work inspectProof retryDelay env (n + 9) site ⟨now, .next, [job]⟩ =
      work inspectProof retryDelay env (n + 7)
        (site.apply (.effect (.write job.id (job.row.resumed retryFrom) none)))
          ⟨now, .process ⟨job.id, job.row.resumed retryFrom⟩, []⟩ := by
  have hresume : site.shared.store.resumeRetry job = .ok (job.row.resumed retryFrom) := by
    have hupdate := updateWhere_self (f := fun row => row.resumed retryFrom) hrow
    rw [hfailed] at hupdate
    rw [LifecycleStore.resumeRetry, hretry, orError, ok_bind, require_true ⟨hfailed, hsource⟩, ok_bind]
    exact congrArg (orError _) hupdate
  have hwithin : Within job site.shared
      (site.apply (.effect (.write job.id (job.row.resumed retryFrom) none))).shared :=
    Of.within ⟨rfl, rfl, rfl, rfl⟩
  have hget : (site.shared.apply (.write job.id (job.row.resumed retryFrom) none)).store.get
      job.row.sequence job.row.tipHash = some ⟨job.id, job.row.resumed retryFrom⟩ :=
    (hkeyed.within hwithin hrow).get row_write_self
  have hadvance : advance inspectProof retryDelay site.shared ⟨now, .next, [job]⟩
      (env.reply site .next) = some (.write job.id (job.row.resumed retryFrom) none,
        some ⟨now, .reread job, []⟩) := by
    dsimp only [Environment.reply, advance]
    rw [if_pos hfailed, hresume]
  rw [work_on hadvance fun h => by cases h]
  refine work_goto ?_ rfl fun h => by cases h
  dsimp only [Environment.reply, advance]
  rw [shared_after, hget]
  rfl

/-- **What `_process_job` does**, for a job whose row is in the table. -/
theorem processJob_eq (hkeyed : Keyed site.shared.store)
    (hrow : site.shared.store.row job.id = some job.row)
    (hsource : ∀ retryFrom ∈ job.row.retryFrom, retryFrom ∈ retrySources) :
    processJob inspectProof retryDelay env now site job =
      result site (processed inspectProof retryDelay env now job
        (site.shared.files job.row.proofPath) (env.obstacles site job.row.proofPath)) := by
  rw [processJob, processed]
  by_cases hfailed : job.row.state = .retryFailed
  · cases hretry : job.row.retryFrom with
    | none =>
      have hresumed : resume job = none := by rw [resume, if_pos hfailed, hretry, Option.map_none]
      rw [hresumed]
      refine work_escape ?_ rfl
      dsimp only [Environment.reply, advance]
      rw [if_pos hfailed, LifecycleStore.resumeRetry, hretry]
      rfl
    | some retryFrom =>
      have hresumed : resume job = some ⟨job.id, job.row.resumed retryFrom⟩ := by
        rw [resume, if_pos hfailed, hretry, Option.map_some]
      rw [hresumed]
      dsimp only
      rw [resuming, if_pos hfailed, work_resume hkeyed hrow hfailed hretry (hsource retryFrom hretry)]
      exact work_process row_write_self
  · have hresumed : resume job = some job := by rw [resume, if_neg hfailed]
    rw [hresumed]
    dsimp only
    rw [resuming, if_neg hfailed, List.nil_append,
      work_goto (v := ⟨now, .process job, []⟩) ?_ rfl fun h => by cases h]
    · exact work_process hrow
    · dsimp only [Environment.reply, advance]
      rw [if_neg hfailed]

/-- The jobs that the loop has not come to, with their rows and proofs as they were. -/
structure Ready (env : Environment J) (s : Shared) (t : Site) (jobs : List Job) : Prop where
  keyed : Keyed t.shared.store
  row : ∀ job ∈ jobs, t.shared.store.row job.id = some job.row
  start : ∀ job ∈ jobs, s.store.row job.id = some job.row
  file : ∀ job ∈ jobs, t.shared.files job.row.proofPath = s.files job.row.proofPath
  retryFrom : ∀ job ∈ jobs, ∀ retryFrom ∈ job.row.retryFrom, retryFrom ∈ retrySources
  ids : (jobs.map Job.id).Nodup
  paths : (jobs.map fun job => job.row.proofPath).Nodup
  written : ∀ path ∈ t.written, ∃ id row, s.store.row id = some row ∧ row.proofPath = path
  made : ∀ path ∈ t.made, ∃ id row, s.store.row id = some row ∧ path ∈ env.makes row.proofPath

variable {jobs : List Job}

/-- The first job of the rest is processed as its row and its proof were at the start. -/
theorem Ready.head (h : Ready env s t (job :: jobs)) :
    processJob inspectProof retryDelay env now t job =
      result t (processed inspectProof retryDelay env now job (s.files job.row.proofPath)
        (env.obstacles t job.row.proofPath)) := by
  rw [processJob_eq h.keyed (h.row job List.mem_cons_self) (h.retryFrom job List.mem_cons_self),
    h.file job List.mem_cons_self]

/-- The first job changes its own row and proof only. -/
theorem Ready.within (h : Ready env s t (job :: jobs)) :
    Within job t.shared (processJob inspectProof retryDelay env now t job).1.shared := by
  rw [h.head]
  exact foldl_within (processed_of job _ _)

/-- What a job writes is its own. -/
theorem Ready.writes (h : Ready env s t (job :: jobs)) :
    ∀ path ∈ (processJob inspectProof retryDelay env now t job).1.written,
      ∃ id row, s.store.row id = some row ∧ row.proofPath = path := by
  intro path hpath
  rw [h.head, result, mem_written] at hpath
  rcases hpath with hold | ⟨-, proof, replace, hdeed⟩
  · exact h.written path hold
  · exact ⟨job.id, job.row, h.start job List.mem_cons_self, (processed_of job _ _ _ hdeed).symm⟩

/-- What a job makes is on the way to its own proof. -/
theorem Ready.makes (h : Ready env s t (job :: jobs)) :
    ∀ path ∈ (processJob inspectProof retryDelay env now t job).1.made,
      ∃ id row, s.store.row id = some row ∧ path ∈ env.makes row.proofPath := by
  intro path hpath
  rw [h.head, result, mem_made] at hpath
  rcases hpath with hold | hdeed
  · exact h.made path hold
  · exact ⟨job.id, job.row, h.start job List.mem_cons_self, makes_of_mkdir hdeed⟩

/-- When the first job has been processed, the jobs after it still have their rows and proofs as at
the start. -/
theorem Ready.tail (h : Ready env s t (job :: jobs)) :
    Ready env s (processJob inspectProof retryDelay env now t job).1 jobs := by
  have hids := List.nodup_cons.1 h.ids
  have hpaths := List.nodup_cons.1 h.paths
  have hagree : ∀ j ∈ jobs, Agree j (processJob inspectProof retryDelay env now t job).1.shared t.shared :=
    fun j hj => h.within.agree (fun hid => hids.1 (List.mem_map.2 ⟨j, hj, hid⟩))
      fun hpath => hpaths.1 (List.mem_map.2 ⟨j, hj, hpath⟩)
  exact ⟨h.keyed.within h.within (h.row job List.mem_cons_self),
    fun j hj => (hagree j hj).1.trans (h.row j (List.mem_cons_of_mem _ hj)),
    fun j hj => h.start j (List.mem_cons_of_mem _ hj),
    fun j hj => (hagree j hj).2.trans (h.file j (List.mem_cons_of_mem _ hj)),
    fun j hj => h.retryFrom j (List.mem_cons_of_mem _ hj), hids.2, hpaths.2, h.writes, h.makes⟩

variable {before : List Job}

section

variable (inspectProof retryDelay env now) (s)

/-- The job can be resumed, and what is answered for it is a proof for its tip: alone, it comes to
`mkdir`. -/
def Publishes (job : Job) : Prop := ∃ resumed, resume job = some resumed ∧
  Offered inspectProof resumed
    (asked inspectProof env resumed (env.directory job.row.proofPath) (s.files job.row.proofPath))

/-- Alone, the job makes the directory of a path: its own, or as far as `mkdir` gets. -/
def Makes (job : Job) (path : ProofPath) : Prop :=
  Publishes inspectProof env s job ∧ path ∈ env.makes job.row.proofPath

/-- Alone, the job writes its proof, where there was none. -/
def Adds (job : Job) : Prop :=
  Publishes inspectProof env s job ∧ env.unmakeable job.row.proofPath = false ∧
    env.unwritable job.row.proofPath = false ∧ s.files job.row.proofPath = none

/-- A job before it has made a directory where the proof of the job is to be. -/
def Displaced (before : List Job) (job : Job) : Prop :=
  env.directory job.row.proofPath = false ∧ (∃ resumed, resume job = some resumed ∧ resumed.Active) ∧
    ∃ other ∈ before, ∃ path, Makes inspectProof env s other path ∧ path.Below job.row.proofPath

/-- A job before it has added a proof where the job would make a directory. -/
def Obstructed (before : List Job) (job : Job) : Prop :=
  Publishes inspectProof env s job ∧
    ∃ other ∈ before, Adds inspectProof env s other ∧ job.row.proofPath.Below other.row.proofPath

/-- A job before it has put something in the way of the job. -/
def Hindered (before : List Job) (job : Job) : Prop :=
  Displaced inspectProof env s before job ∨
    Obstructed inspectProof env s before job

end

/-- There is a directory at a path from the beginning, or because the run has made one below it. -/
theorem directory_iff {path : ProofPath} : (env.obstacles t path).directory = true ↔
    (∃ other ∈ t.made, other.Below path) ∨ env.directory path = true := by
  simp [Environment.obstacles]

/-- What is in the way of a directory is a proof that the run has added. -/
theorem parent_iff {path : ProofPath} : (env.obstacles t path).parent = true ↔
    ∃ other ∈ t.written, path.Below other := by
  simp [Environment.obstacles]

/-- What the constraints of the table say. -/
structure Constrained (store : LifecycleStore) : Prop where
  keyed : Keyed store
  retryFrom : ∀ id row, store.row id = some row →
    ∀ retryFrom ∈ row.retryFrom, retryFrom ∈ retrySources

/-- No two rows have one proof. -/
def DistinctPaths (store : LifecycleStore) : Prop :=
  ∀ id id' row row', store.row id = some row → store.row id' = some row' →
    row.proofPath = row'.proofPath → id = id'

variable (env) in
/-- Before the loop the due jobs have the rows and the proofs of the start. -/
theorem ready (hconstrained : Constrained s.store) (hpaths : DistinctPaths s.store)
    (hjobs : jobs.Perm (s.store.dueJobs now)) : Ready env s (.start s) jobs := by
  have hrow : ∀ job ∈ jobs, s.store.row job.id = some job.row := fun job hjob =>
    (mem_dueJobs.1 (hjobs.mem_iff.1 hjob)).2.1
  have hids : (jobs.map Job.id).Nodup := (hjobs.map Job.id).nodup_iff.2 nodup_dueJobs
  refine ⟨hconstrained.keyed, hrow, hrow, fun _ _ => rfl,
    fun job hjob => hconstrained.retryFrom job.id job.row (hrow job hjob), hids, ?_,
    fun _ h => absurd h List.not_mem_nil, fun _ h => absurd h List.not_mem_nil⟩
  refine (List.nodup_map_iff_inj_on hids.of_map).2 fun job hjob job' hjob' hpath => ?_
  have hid := hpaths job.id job'.id job.row job'.row (hrow job hjob) (hrow job' hjob') hpath
  exact List.inj_on_of_nodup_map hids hjob hjob' hid

/-- What is below a directory that is made for a path is below that path. -/
theorem below_of_makes {path made place : ProofPath} (h : made ∈ env.makes path) (hbelow : made.Below place) :
    path.Below place := by
  rw [Environment.makes] at h
  split_ifs at h
  · exact env.on_the_way _ _ _ h hbelow
  · obtain rfl := Option.some.inj h
    exact hbelow

/-- A job is hindered over a path that goes through another one. -/
theorem Hindered.below (h : Hindered inspectProof env s before job) :
    ∃ other ∈ before, other.row.proofPath.Below job.row.proofPath ∨
      job.row.proofPath.Below other.row.proofPath := by
  rcases h with ⟨-, -, other, hother, path, hmakes, hbelow⟩ | ⟨-, other, hother, -, hbelow⟩
  · exact ⟨other, hother, Or.inl (below_of_makes hmakes.2 hbelow)⟩
  · exact ⟨other, hother, Or.inr hbelow⟩

section

/-- The digest of a sequence. -/
def sampleTip (sequence : ℕ) : List UInt8 := List.replicate 32 (UInt8.ofNat sequence)

/-- A backend with an answer for the tip of sequence 0; for others it returns a Bitcoin proof. -/
def sampleEnvironment (answer : Answer) : Environment Unit where
  stamp digest := if digest = sampleTip 0 then answer else .returned (some (bitcoinProof digest))
  upgrade _ _ := .returned none
  unreadable _ := false
  unwritable _ := false
  directory _ := false
  unmakeable _ := false
  partway _ := none
  on_the_way _ _ _ h := by cases h
  jitter _ := ()
  order jobs := jobs
  perm jobs := .refl jobs

end

end Isolation
end Anchor
end Vestrix
