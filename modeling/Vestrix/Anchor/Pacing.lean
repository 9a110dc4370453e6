/-
# The pace of retries

The workers with the delay that `_process_job` really adds: `retry_delay_seconds` in binary64, and in whole
microseconds, which is what a `timedelta` has.

However many workers there are, a row that waits for its retry waits as long as its number of
attempts demands, and no longer than the longest delay (`retry_window`).  For one worker at a time,
and a clock that does not go back, this is a bound on the calls that fail: `timed` records when
failures are recorded, next to the state and the clock, and the failures of a row come further and
further apart until they are a day apart, over any runs and kills (`failures_paced`).
-/

import Vestrix.Anchor.Backoff
import Vestrix.Anchor.Crash
import Mathlib.Data.Rat.Floor

namespace Vestrix
namespace Anchor
namespace Pacing

open Outcome Transition Rounding

/-! ### The delay -/

/-- `round` of a rational, to even where it is half-way. -/
def roundHalfEven (q : ℚ) : ℤ :=
  if q - ⌊q⌋ < 1 / 2 then ⌊q⌋
  else if 1 / 2 < q - ⌊q⌋ then ⌊q⌋ + 1
  else if ⌊q⌋ % 2 = 0 then ⌊q⌋ else ⌊q⌋ + 1

/-- `timedelta(seconds=delay)`, as its microseconds.  Those of the whole seconds are computed with integers; those
of the fraction are a product in binary64, which is then rounded to an integer. -/
def timedeltaSeconds (delay : ℚ) : ℕ :=
  (⌊delay⌋ * 1000000 + roundHalfEven (rounded ((delay - ⌊delay⌋) * 1000000))).toNat

/-- What `_process_job` adds to the time for the next attempt. -/
def retryMicroseconds (attempt : ℕ) (jitterSample : ℚ) : Option ℕ :=
  match retryDelayFloat attempt jitterSample with
  | .ok delay => some (timedeltaSeconds delay)
  | .error _ => none

-- the exact delay is half a microsecond less, and the even number of them is the other one
example : retryMicroseconds 1 (3074272878176521 / 9223372036854775808) = some 900074996 := by decide +kernel

/-- The least delay before the attempt after so many. -/
def leastDelay (attempts : ℕ) : ℕ := min (900 * 2 ^ (attempts - 1)) 86400 * 1000000

/-- The longest delay. -/
def longestDelay : ℕ := 108000 * 1000000

/-- Rounding goes not below an integer that is not above the number. -/
theorem le_roundHalfEven {m : ℤ} {q : ℚ} (h : m ≤ q) : m ≤ roundHalfEven q := by
  have hfloor : m ≤ ⌊q⌋ := Int.le_floor.2 h
  rw [roundHalfEven]
  split_ifs <;> omega

/-- Rounding goes not above an integer that is not below the number. -/
theorem roundHalfEven_le {m : ℤ} {q : ℚ} (h : q ≤ m) : roundHalfEven q ≤ m := by
  rcases h.lt_or_eq with hlt | rfl
  · have hfloor : ⌊q⌋ < m := Int.floor_lt.2 hlt
    rw [roundHalfEven]
    split_ifs <;> omega
  · rw [roundHalfEven, Int.floor_intCast, sub_self, if_pos (by norm_num)]

/-- Whole seconds that a delay has are in its microseconds. -/
theorem le_timedeltaSeconds {m : ℕ} {delay : ℚ} (h : m ≤ delay) : m * 1000000 ≤ timedeltaSeconds delay := by
  have hfloor : (m : ℤ) ≤ ⌊delay⌋ := Int.le_floor.2 (by exact_mod_cast h)
  have hround : 0 ≤ roundHalfEven (rounded ((delay - ⌊delay⌋) * 1000000)) :=
    le_roundHalfEven (by exact_mod_cast rounded_nonneg)
  rw [timedeltaSeconds]
  omega

/-- Whole seconds that a delay does not exceed bound its microseconds. -/
theorem timedeltaSeconds_le {m : ℕ} {delay : ℚ} (h : delay ≤ m) : timedeltaSeconds delay ≤ m * 1000000 := by
  have hround : roundHalfEven (rounded ((delay - ⌊delay⌋) * 1000000)) ≤ 1000000 := by
    refine roundHalfEven_le ?_
    have hfract : (delay - ⌊delay⌋) * 1000000 ≤ (1000000 : ℕ) := by
      have := Int.fract_lt_one delay
      rw [Int.fract] at this
      push_cast
      linarith
    have hnonneg : 0 ≤ (delay - ⌊delay⌋) * 1000000 :=
      mul_nonneg (Int.fract_nonneg delay) (by norm_num)
    exact_mod_cast rounded_le (by norm_num) hnonneg hfract
  rw [timedeltaSeconds]
  rcases h.lt_or_eq with hlt | rfl
  · have hfloor : ⌊delay⌋ < (m : ℤ) := Int.floor_lt.2 (by exact_mod_cast hlt)
    omega
  · -- a whole number of seconds has no fraction
    have hzero : rounded 0 = 0 := by exact_mod_cast rounded_natCast (Nat.zero_le _)
    have hround : roundHalfEven 0 ≤ 0 := roundHalfEven_le (by norm_num)
    rw [Int.floor_natCast, Int.cast_natCast, sub_self, zero_mul, hzero]
    omega

/-- **The delay in microseconds** is between the same bounds. -/
theorem retryMicroseconds_bounds {attempt delay : ℕ} {jitterSample : ℚ}
    (h : retryMicroseconds attempt jitterSample = some delay) :
    (1 ≤ attempt ∧ attempt ≤ 1015) ∧ leastDelay attempt ≤ delay ∧ delay ≤ longestDelay := by
  rw [retryMicroseconds] at h
  cases hdelay : retryDelayFloat attempt jitterSample with
  | error e =>
    rw [hdelay] at h
    cases h
  | ok d =>
    rw [hdelay] at h
    obtain ⟨hcount, hleast, hlongest⟩ := retryDelayFloat_bounds hdelay
    obtain rfl := Option.some.inj h
    rw [show ((attempt : ℤ) - 1).toNat = attempt - 1 by omega] at hleast
    exact ⟨by exact_mod_cast hcount, le_timedeltaSeconds hleast, timedeltaSeconds_le hlongest⟩

/-- No delay is zero. -/
theorem retryMicroseconds_pos {attempt delay : ℕ} {jitterSample : ℚ}
    (h : retryMicroseconds attempt jitterSample = some delay) : 0 < delay := by
  have hleast : 0 < leastDelay attempt :=
    Nat.mul_pos (lt_min (Nat.mul_pos (by decide) (Nat.two_pow_pos _)) (by decide)) (by decide)
  exact hleast.trans_le (retryMicroseconds_bounds h).2.1

/-! ### The window of a retry -/

variable {J : Type} {inspectProof : List UInt8 → List UInt8 → Option Bool}
  {retryDelay : ℕ → J → Option ℕ} {s : Shared} {w : Worker} {reply : Reply J} {w' : Option Worker}

/-- A failure that is recorded, with the time of the next attempt. -/
theorem failed_of_advance {id : ℕ} {row : Row} {failureClass : FailureClass}
    (h : advance inspectProof retryDelay s w reply = some (.write id row (some failureClass), w')) :
    ∃ job error r, w.phase = .fail job failureClass error ∧ id = job.id ∧ s.store.row job.id = some r ∧
      (failureClass = .integrity ∧ row = r.failed job (some .integrity) error w.now none ∨
        failureClass = .transient ∧ ∃ jitter delay,
          retryDelay (job.row.attemptCount + 1) jitter = some delay ∧
          row = r.failed job (some .transient) error w.now (some (w.now + delay))) := by
  cases advances_of_advance h with
  | @fail job _ error next row hphase _ _ hrecord =>
    obtain ⟨r, hr, -, -⟩ := recordFailure_eq_ok hrecord
    refine ⟨job, error, r, hphase, rfl, hr, ?_⟩
    rw [advance.eq_def, hphase] at h
    obtain ⟨outcome, houtcome, heffect⟩ := Option.map_eq_some_iff.1 h
    cases outcome with
    | error _ => cases heffect
    | ok row' =>
      cases heffect
      have hfailed : ∀ {kind next}, s.store.recordFailure job kind error w.now next = .ok row →
          row = r.failed job kind error w.now next := by
        intro kind next hok
        obtain ⟨r', hr', -, rfl⟩ := recordFailure_eq_ok hok
        rw [Option.some.inj (hr.symm.trans hr')]
      rw [failStep.eq_def] at houtcome
      split at houtcome
      · exact Or.inl ⟨rfl, hfailed (Option.some.inj houtcome)⟩
      · rename_i jitter _
        obtain ⟨delay, hdelay, hnext⟩ := bind_eq_ok.1 (Option.some.inj houtcome)
        obtain ⟨next, htime, hok⟩ := bind_eq_ok.1 hnext
        rw [addTime] at htime
        split_ifs at htime
        obtain rfl := Except.ok.inj htime
        exact Or.inr ⟨rfl, jitter, delay, orError_eq_ok.1 hdelay, hfailed hok⟩
      · cases houtcome

/-- A row that waits for its retry: the next attempt is as long after the last one as the number of
attempts demands. -/
def Waits (r : Row) : Prop :=
  r.state = .retryFailed → r.failureClass = some .transient →
    (1 ≤ r.attemptCount ∧ r.attemptCount ≤ 1015) ∧ ∃ last next, r.lastAttempt = some last ∧
      r.nextAttempt = some next ∧ last + leastDelay r.attemptCount ≤ next ∧ next ≤ last + longestDelay

/-- A failure that a step records makes the row wait, and every other row that it writes need not. -/
theorem waits_advance {reply : Reply ℚ} {effect : Effect} {id : ℕ} {r : Row} (hw : w.Inv inspectProof s)
    (hs : ∀ id r, s.store.row id = some r → Waits r)
    (h : advance inspectProof retryMicroseconds s w reply = some (effect, w'))
    (hr : (s.apply effect).store.row id = some r) : Waits r := by
  have hwrite : ∀ {id' : ℕ} {row : Row} {failure : Option FailureClass}, Waits row →
      (s.apply (.write id' row failure)).store.row id = some r → Waits r := by
    intro id' row failure hrow hr
    rcases row_write hr with ⟨-, rfl⟩ | ⟨-, hr⟩
    · exact hrow
    · exact hs id r hr
  cases advances_of_advance h with
  | track _ htrack =>
    obtain ⟨-, rfl⟩ := trackTip_eq_some htrack
    rcases row_insert hr with ⟨-, rfl⟩ | ⟨-, hr⟩
    · exact fun h => by cases h
    · exact hs id r hr
  | resume _ _ hresume =>
    obtain ⟨q, retryFrom, -, -, -, -, rfl⟩ := resumeRetry_eq_ok hresume
    exact hwrite (fun _ h => by cases h) hr
  | @update job bitcoin row hphase hfinish =>
    have hjob := hw.phase
    rw [hphase] at hjob
    obtain ⟨q, next, -, -, -, rfl⟩ := finish_eq_ok hjob.2.1 hfinish
    exact hwrite (fun _ h => by cases h) hr
  | fail _ _ _ _ =>
    obtain ⟨job, error, q, -, -, -, ⟨rfl, rfl⟩ | ⟨rfl, jitter, delay, hdelay, rfl⟩⟩ := failed_of_advance h
    · exact hwrite (fun _ h => by cases h) hr
    · obtain ⟨hcount, hleast, hlongest⟩ := retryMicroseconds_bounds hdelay
      refine hwrite (fun _ _ => ⟨hcount, w.now, w.now + delay, rfl, rfl, ?_, ?_⟩) hr
      · exact Nat.add_le_add_left hleast _
      · exact Nat.add_le_add_left hlongest _
  | _ => exact hs id r hr

/-- What happens in one step: a worker begins, goes on with a reply, or is killed. -/
theorem system_advance {s t : State} {step : Step J} (ht : system inspectProof retryDelay s step = some t) :
    (∃ invocation, step.action = .start invocation ∧ t = ⟨s.shared,
      Function.update s.workers step.worker (some ⟨invocation.now, .track invocation, []⟩)⟩) ∨
    (∃ w reply effect w', step.action = .go reply ∧ s.workers step.worker = some w ∧
      advance inspectProof retryDelay s.shared w reply = some (effect, w') ∧
      t = ⟨s.shared.apply effect, Function.update s.workers step.worker w'⟩) ∨
    step.action = .kill ∧ t = ⟨s.shared, Function.update s.workers step.worker none⟩ := by
  rw [system.eq_def] at ht
  split at ht
  · rename_i invocation haction _
    cases ht
    exact Or.inl ⟨invocation, haction, rfl⟩
  · rename_i reply w haction hw
    obtain ⟨⟨effect, w'⟩, hadvance, rfl⟩ := Option.map_eq_some_iff.1 ht
    exact Or.inr (Or.inl ⟨w, reply, effect, w', haction, hw, hadvance, rfl⟩)
  · rename_i haction _
    cases ht
    exact Or.inr (Or.inr ⟨haction, rfl⟩)
  · cases ht

/-- **A retry waits as long as its number of attempts demands.**  In every state that any number of
workers reach, killed at any point: the next attempt of a row with a transient failure is later
than its last one by `900 * 2 ^ (n - 1)` seconds or a day, where `n` is its number of attempts, and
by thirty hours at most. -/
theorem retry_window {steps : List (Step ℚ)} {t : State}
    (hrun : run (system inspectProof retryMicroseconds) State.initial steps = some t) (id : ℕ) (r : Row)
    (hr : t.shared.store.row id = some r) (hstate : r.state = .retryFailed)
    (hclass : r.failureClass = some .transient) :
    (1 ≤ r.attemptCount ∧ r.attemptCount ≤ 1015) ∧ ∃ last next, r.lastAttempt = some last ∧
      r.nextAttempt = some next ∧ last + leastDelay r.attemptCount ≤ next ∧ next ≤ last + longestDelay := by
  have hstep : ∀ (s : State) (step : Step ℚ) (t : State),
      (Sound inspectProof s ∧ ∀ id r, s.shared.store.row id = some r → Waits r) →
      system inspectProof retryMicroseconds s step = some t →
      Sound inspectProof t ∧ ∀ id r, t.shared.store.row id = some r → Waits r := by
    rintro s step t ⟨hsound, hrows⟩ ht
    refine ⟨sound_step s step t hsound ht, ?_⟩
    rcases system_advance ht with ⟨-, -, rfl⟩ | ⟨w, reply, effect, w', -, hw, hadvance, rfl⟩ | ⟨-, rfl⟩
    · exact hrows
    · exact fun id r hr => waits_advance (hsound.worker _ w hw) hrows hadvance hr
    · exact hrows
  exact (run_invariant hstep ⟨sound_initial, fun id r h => by cases h⟩ hrun).2 id r hr hstate hclass

/-- A run at a calendar that does not answer. -/
def unanswered (now steps : ℕ) : List (Step ℚ) :=
  ⟨0, .start (sampleRun now)⟩ ::
    (List.replicate steps Reply.done ++ [Reply.raisedOther, Reply.sample (1 / 2 : ℚ), Reply.done]).map
      fun reply => ⟨0, .go reply⟩

/-- After its first failure a row waits for fifteen minutes at least. -/
theorem retry_window_unanswered : ∃ t r last next,
    run (system inspectSample retryMicroseconds) State.initial (unanswered 0 4) = some t ∧
    t.shared.store.row 0 = some r ∧ r.lastAttempt = some last ∧ r.nextAttempt = some next ∧
    last + leastDelay 1 ≤ next ∧ next ≤ last + longestDelay := by
  have hrun : (run (system inspectSample retryMicroseconds) State.initial (unanswered 0 4)).any (fun t =>
      (t.shared.store.row 0).any fun r => r.state = .retryFailed ∧ r.failureClass = some .transient ∧
        r.attemptCount = 1) = true := by
    decide +kernel
  obtain ⟨t, ht, hrow⟩ := (Option.any_eq_true _ _).1 hrun
  obtain ⟨r, hr, hsample⟩ := (Option.any_eq_true _ _).1 hrow
  obtain ⟨hstate, hclass, hcount⟩ := of_decide_eq_true hsample
  obtain ⟨-, last, next, hlast, hnext, hleast, hlongest⟩ := retry_window ht 0 r hr hstate hclass
  exact ⟨t, r, last, next, ht, hr, hlast, hnext, hcount ▸ hleast, hlongest⟩

/-! ### Failures over the runs of one worker -/

/-- The worker, the clock that its last run began at, and when the failures of each row were recorded,
the latest first. -/
structure Timed where
  state : State
  clock : ℕ
  failures : ℕ → List ℕ

/-- The failures after an effect. -/
def recorded (failures : ℕ → List ℕ) (now : ℕ) : Effect → ℕ → List ℕ
  | .write id _ (some _) => Function.update failures id (now :: failures id)
  | _ => failures

/-- What the step of a worker does. -/
def effectOf (inspectProof : List UInt8 → List UInt8 → Option Bool) (s : Shared) (w : Worker)
    (reply : Reply ℚ) : Effect :=
  ((advance inspectProof retryMicroseconds s w reply).map Prod.fst).getD .silent

/-- A step of the system, with a clock that does not go back. -/
def timed (inspectProof : List UInt8 → List UInt8 → Option Bool) (s : Timed) (step : Step ℚ) : Option Timed :=
  match step.action, s.state.workers step.worker with
  | .start invocation, _ =>
    if s.clock ≤ invocation.now then
      (system inspectProof retryMicroseconds s.state step).map fun t => ⟨t, invocation.now, s.failures⟩
    else none
  | .go reply, some w =>
    (system inspectProof retryMicroseconds s.state step).map fun t =>
      ⟨t, s.clock, recorded s.failures w.now (effectOf inspectProof s.state.shared w reply)⟩
  | _, _ => (system inspectProof retryMicroseconds s.state step).map fun t => { s with state := t }

/-- Each failure is as long after the one before as the number of those up to then demands. -/
def Spaced : List ℕ → Prop
  | later :: earlier :: before =>
    earlier + leastDelay (before.length + 1) ≤ later ∧ Spaced (earlier :: before)
  | _ => True

/-- The failures of a row, and when the next can be. -/
structure Paced (clock : ℕ) (r : Row) (failures : List ℕ) : Prop where
  count : failures.length = r.attemptCount
  spaced : Spaced failures
  waits : ∀ last ∈ failures.head?, ¬ r.Quarantined →
    (r.state = .retryFailed → ∃ next ∈ r.nextAttempt, last + leastDelay failures.length ≤ next) ∧
      (r.state ≠ .retryFailed → last + leastDelay failures.length ≤ clock)

/-- The rows and the failures of a table. -/
structure Paces (clock : ℕ) (s : Shared) (failures : ℕ → List ℕ) : Prop where
  paced : ∀ id r, s.store.row id = some r → Paced clock r (failures id)
  fresh : ∀ id, s.store.row id = none → failures id = []

/-- What every run of the only worker keeps. -/
structure Timed.Inv (inspectProof : List UInt8 → List UInt8 → Option Bool) (s : Timed) : Prop where
  single : Single inspectProof s.state
  paces : Paces s.clock s.state.shared s.failures
  worker : ∀ w, s.state.workers 0 = some w →
    w.now = s.clock ∧ ∀ job ∈ w.rest, LifecycleStore.due s.clock job.row

/-- No failure before the first run. -/
def Timed.initial : Timed := ⟨State.initial, 0, fun _ => []⟩

/-- The time that so many failures after the first take. -/
def totalDelay (n : ℕ) : ℕ := ∑ i ∈ Finset.range n, leastDelay (i + 1)

/-- A row that has waited still has when the clock is later. -/
theorem Paced.mono {clock clock' : ℕ} {r : Row} {failures : List ℕ} (h : Paced clock r failures)
    (hclock : clock ≤ clock') : Paced clock' r failures :=
  ⟨h.count, h.spaced, fun last hlast hquarantined =>
    ⟨(h.waits last hlast hquarantined).1, fun hstate =>
      ((h.waits last hlast hquarantined).2 hstate).trans hclock⟩⟩

/-- The latest failure is later than the first by all delays in between. -/
theorem Spaced.total {failures : List ℕ} (h : Spaced failures) {last first : ℕ}
    (hlast : last ∈ failures.head?) (hfirst : first ∈ failures.getLast?) :
    first + totalDelay (failures.length - 1) ≤ last := by
  induction failures generalizing last with
  | nil => cases hlast
  | cons later rest ih =>
    obtain rfl := Option.some.inj hlast
    cases rest with
    | nil =>
      obtain rfl := Option.some.inj hfirst
      exact le_rfl
    | cons earlier before =>
      have hbefore := ih h.2 rfl hfirst
      have hdelay := h.1
      have htotal : totalDelay (before.length + 1) =
          totalDelay before.length + leastDelay (before.length + 1) := Finset.sum_range_succ ..
      simp only [List.length_cons, Nat.add_sub_cancel] at hbefore ⊢
      omega

section

variable {s t : Timed} {step : Step ℚ}

/-- What happens in one step, with the clock and the failures. -/
theorem timed_cases (h : timed inspectProof s step = some t) :
    system inspectProof retryMicroseconds s.state step = some t.state ∧
    ((∃ invocation, s.clock ≤ invocation.now ∧ t.clock = invocation.now ∧ t.failures = s.failures ∧
        t.state = ⟨s.state.shared, Function.update s.state.workers step.worker
          (some ⟨invocation.now, .track invocation, []⟩)⟩) ∨
      (∃ w reply effect w', s.state.workers step.worker = some w ∧
        advance inspectProof retryMicroseconds s.state.shared w reply = some (effect, w') ∧
        t.clock = s.clock ∧ t.failures = recorded s.failures w.now effect ∧
        t.state = ⟨s.state.shared.apply effect, Function.update s.state.workers step.worker w'⟩) ∨
      t.clock = s.clock ∧ t.failures = s.failures ∧
        t.state = ⟨s.state.shared, Function.update s.state.workers step.worker none⟩) := by
  rw [timed.eq_def] at h
  split at h
  · rename_i invocation haction
    split_ifs at h with hclock
    obtain ⟨u, hu, rfl⟩ := Option.map_eq_some_iff.1 h
    rcases system_advance hu with ⟨i, hi, rfl⟩ | ⟨_, _, _, _, hgo, -⟩ | ⟨hkill, -⟩
    · obtain rfl := Action.start.inj (haction.symm.trans hi)
      exact ⟨hu, Or.inl ⟨invocation, hclock, rfl, rfl, rfl⟩⟩
    · cases haction.symm.trans hgo
    · cases haction.symm.trans hkill
  · rename_i reply w haction hw
    obtain ⟨u, hu, rfl⟩ := Option.map_eq_some_iff.1 h
    rcases system_advance hu with ⟨_, hstart, -⟩ | ⟨w', reply', effect, v, hgo, hw', hadvance, rfl⟩ |
      ⟨hkill, -⟩
    · cases haction.symm.trans hstart
    · obtain rfl := Action.go.inj (haction.symm.trans hgo)
      obtain rfl := Option.some.inj (hw.symm.trans hw')
      refine ⟨hu, Or.inr (Or.inl ⟨w, reply, effect, v, hw, hadvance, rfl, ?_, rfl⟩)⟩
      simp only [effectOf, hadvance, Option.map_some, Option.getD_some]
    · cases haction.symm.trans hkill
  · rename_i hstart hgo
    obtain ⟨u, hu, rfl⟩ := Option.map_eq_some_iff.1 h
    rcases system_advance hu with ⟨i, hi, -⟩ | ⟨w, reply, _, _, hreply, hw, -⟩ | ⟨-, rfl⟩
    · exact absurd hi (hstart i)
    · exact absurd hw (hgo reply w hreply)
    · exact ⟨hu, Or.inr (Or.inr ⟨rfl, rfl, rfl⟩)⟩

/-- Before the first run no failure has been recorded. -/
theorem timed_initial : Timed.Inv inspectProof Timed.initial :=
  ⟨single_initial, ⟨fun _ _ h => (by cases h), fun _ _ => rfl⟩, fun _ h => (by cases h)⟩

/-- The rows that have waited still have when the clock is later. -/
theorem Paces.mono {clock clock' : ℕ} {s : Shared} {failures : ℕ → List ℕ} (h : Paces clock s failures)
    (hclock : clock ≤ clock') : Paces clock' s failures :=
  ⟨fun id r hr => (h.paced id r hr).mono hclock, h.fresh⟩

/-- A row that a worker takes up again was due. -/
theorem Paced.resumed {clock : ℕ} {r : Row} {failures : List ℕ} (h : Paced clock r failures)
    (hdue : LifecycleStore.due clock r) (hfailed : r.state = .retryFailed) {retryFrom : Lifecycle}
    (hretry : retryFrom ≠ .retryFailed) : Paced clock (r.resumed retryFrom) failures := by
  refine ⟨h.count, h.spaced, fun last hlast _ => ⟨fun hstate => absurd hstate hretry, fun _ => ?_⟩⟩
  have hquarantined : ¬ r.Quarantined := fun hq => not_settled_of_due hdue (Or.inr hq)
  obtain ⟨next, hnext, hwait⟩ := (h.waits last hlast hquarantined).1 hfailed
  rcases hdue with hqueued | ⟨hpending, -⟩ | ⟨-, -, t, ht, hle⟩
  · cases hfailed.symm.trans hqueued
  · cases hfailed.symm.trans hpending
  · obtain rfl := Option.some.inj (hnext.symm.trans ht)
    exact hwait.trans hle

/-- A row that a worker works on has waited long enough since its last failure. -/
theorem Paced.waited {clock : ℕ} {job : Job} {failures : List ℕ} (h : Paced clock job.row failures)
    (hactive : job.Active) {last : ℕ} (hlast : last ∈ failures.head?) :
    last + leastDelay failures.length ≤ clock := by
  refine (h.waits last hlast (hactive.not_quarantined rfl)).2 fun hfailed => ?_
  rcases hactive with hstate | hstate <;> cases hfailed.symm.trans hstate

/-- A row that is updated after a proof has no new failure to wait for. -/
theorem Paced.finished {clock : ℕ} {job : Job} {failures : List ℕ} (h : Paced clock job.row failures)
    (hactive : job.Active) {bitcoin : Bool} {now : ℕ} {next : Option ℕ} :
    Paced clock (job.row.finished bitcoin now next) failures := by
  refine ⟨h.count, h.spaced, fun last hlast _ => ⟨fun hfailed => ?_, fun _ => h.waited hactive hlast⟩⟩
  rw [Row.finished, targetState] at hfailed
  cases bitcoin <;> cases hfailed

/-- A failure is the latest one, and the row waits for the next attempt or is quarantined. -/
theorem Paced.failed {clock : ℕ} {job : Job} {failures : List ℕ} (h : Paced clock job.row failures)
    (hactive : job.Active) {failureClass : FailureClass} {error : Cause} {next : Option ℕ}
    (hnext : failureClass = .integrity ∨
      ∃ t ∈ next, clock + leastDelay (job.row.attemptCount + 1) ≤ t) :
    Paced clock (job.row.failed job failureClass error clock next) (clock :: failures) := by
  refine ⟨congrArg (· + 1) h.count, ?_, fun last hlast hquarantined => ⟨fun _ => ?_, fun hstate => ?_⟩⟩
  · cases failures with
    | nil => trivial
    | cons earlier before => exact ⟨h.waited hactive rfl, h.spaced⟩
  · obtain rfl := Option.some.inj hlast
    rcases hnext with rfl | hnext
    · exact absurd ⟨rfl, rfl⟩ hquarantined
    · rw [List.length_cons, h.count]
      exact hnext
  · exact absurd rfl hstate

/-- The jobs that a worker still has were due when its run began. -/
theorem rest_of_advances {inspectProof : List UInt8 → List UInt8 → Option Bool} {s : Shared} {w v : Worker}
    {effect : Effect} (hrest : ∀ job ∈ w.rest, LifecycleStore.due w.now job.row)
    (h : Advances inspectProof s w effect (some v)) :
    v.now = w.now ∧ ∀ job ∈ v.rest, LifecycleStore.due w.now job.row := by
  cases h with
  | select _ hjobs => exact ⟨rfl, fun job hjob => (mem_dueJobs.1 (hjobs.mem_iff.1 hjob)).2.2⟩
  | resume _ hphase | take _ hphase =>
    rw [hphase] at hrest
    exact ⟨rfl, fun job hjob => hrest job (List.mem_cons_of_mem _ hjob)⟩
  | _ => exact ⟨rfl, hrest⟩

/-- A row that is written brings its own failures. -/
theorem Paces.write {clock : ℕ} {s : Shared} {failures : ℕ → List ℕ} (h : Paces clock s failures) {id : ℕ}
    {row : Row} {failure : Option FailureClass} {failures' : List ℕ} (hrow : Paced clock row failures') :
    Paces clock (s.apply (.write id row failure)) (Function.update failures id failures') := by
  refine ⟨fun id' r hr => ?_, fun id' hid => ?_⟩
  · rcases row_write hr with ⟨rfl, rfl⟩ | ⟨hne, hr⟩
    · rw [Function.update_self]
      exact hrow
    · rw [Function.update_of_ne hne]
      exact h.paced id' r hr
  · have hne : id' ≠ id := by
      rintro rfl
      have hself : (s.apply (.write id' row failure)).store.row id' = some row := Function.update_self ..
      cases hid.symm.trans hself
    rw [Function.update_of_ne hne]
    exact h.fresh id' ((Function.update_of_ne hne _ _).symm.trans hid)

/-- A new row has no failures. -/
theorem Paces.insert {clock : ℕ} {s : Shared} {failures : ℕ → List ℕ} (h : Paces clock s failures)
    (hs : s.Inv inspectProof) {row : Row} (hcount : row.attemptCount = 0) :
    Paces clock (s.apply (.insert row)) failures := by
  have hnone : failures s.store.count = [] := by
    refine h.fresh _ (Option.eq_none_iff_forall_ne_some.2 fun r hr => ?_)
    exact (hs.bounded _ _ hr).false
  refine ⟨fun id r hr => ?_, fun id hid => ?_⟩
  · rcases row_insert hr with ⟨rfl, rfl⟩ | ⟨-, hr⟩
    · rw [hnone]
      exact ⟨hcount.symm, trivial, fun last hlast => by cases hlast⟩
    · exact h.paced id r hr
  · by_cases hne : id = s.store.count
    · rw [hne, hnone]
    · exact h.fresh id ((Function.update_of_ne hne _ _).symm.trans hid)

/-- A step of the only worker records a failure only when the one before is long enough ago. -/
theorem paces_advance {s : Shared} {w : Worker} {reply : Reply ℚ} {effect : Effect} {w' : Option Worker}
    {failures : ℕ → List ℕ} (hs : s.Inv inspectProof) (hw : w.Inv inspectProof s)
    (ha : w.Alone inspectProof s) (hrest : ∀ job ∈ w.rest, LifecycleStore.due w.now job.row)
    (hp : Paces w.now s failures)
    (h : advance inspectProof retryMicroseconds s w reply = some (effect, w')) :
    Paces w.now (s.apply effect) (recorded failures w.now effect) := by
  have hphase := hw.phase
  have halone := ha.phase
  have hkeep : ∀ {id : ℕ} {row : Row}, Paced w.now row (failures id) →
      Paces w.now (s.apply (.write id row none)) failures := by
    intro id row hrow
    have hwrite : Paces w.now (s.apply (.write id row none)) _ := hp.write hrow
    rwa [Function.update_eq_self] at hwrite
  cases advances_of_advance h with
  | track _ htrack =>
    obtain ⟨-, rfl⟩ := trackTip_eq_some htrack
    exact hp.insert hs rfl
  | @resume job rest row _ hjobs hresume =>
    have hmem : job ∈ w.rest := hjobs ▸ List.mem_cons_self
    obtain ⟨r, retryFrom, hr, hfailed, -, hretry, rfl⟩ := resumeRetry_eq_ok hresume
    obtain rfl := Option.some.inj (hr.symm.trans (ha.fresh job hmem).1)
    refine hkeep ((hp.paced job.id job.row hr).resumed (hrest job hmem) hfailed ?_)
    rintro rfl
    rcases (hw.rest job hmem).lawful.retry hfailed with hsource | hsource <;> cases hretry.symm.trans hsource
  | @update job bitcoin row hupdate hfinish =>
    rw [hupdate] at hphase halone
    obtain ⟨r, next, hr, -, -, rfl⟩ := finish_eq_ok hphase.2.1 hfinish
    obtain rfl := Option.some.inj (hr.symm.trans halone)
    exact hkeep ((hp.paced job.id job.row hr).finished hphase.2.1)
  | fail hfail' _ _ _ =>
    obtain ⟨job, error, r, hfail, -, hr, hrow⟩ := failed_of_advance h
    obtain rfl := (Phase.fail.inj (hfail'.symm.trans hfail)).1
    rw [hfail] at hphase halone
    obtain rfl := Option.some.inj (hr.symm.trans halone)
    refine hp.write ?_
    rcases hrow with ⟨rfl, rfl⟩ | ⟨rfl, jitter, delay, hdelay, rfl⟩
    · exact (hp.paced _ _ hr).failed hphase.2 (Or.inl rfl)
    · exact (hp.paced _ _ hr).failed hphase.2 (Or.inr ⟨w.now + delay, rfl,
        Nat.add_le_add_left (retryMicroseconds_bounds hdelay).2.1 _⟩)
  | rename _ => exact ⟨hp.paced, hp.fresh⟩
  | _ => exact hp

/-- **What every step of the only worker keeps**, with a clock that does not go back. -/
theorem timed_step (h : s.Inv inspectProof) (hworker : step.worker = 0)
    (ht : timed inspectProof s step = some t) : t.Inv inspectProof := by
  obtain ⟨hsystem, hcases⟩ := timed_cases ht
  have hself : ∀ {w : Option Worker}, Function.update s.state.workers step.worker w 0 = w := by
    intro w
    rw [hworker]
    exact Function.update_self ..
  refine ⟨(single_step h.single hworker hsystem).1, ?_, ?_⟩
  · rcases hcases with ⟨invocation, hle, hclock, hfailures, hstate⟩ |
      ⟨w, reply, effect, w', hw, hadvance, hclock, hfailures, hstate⟩ | ⟨hclock, hfailures, hstate⟩
    · rw [hclock, hfailures, hstate]
      exact h.paces.mono hle
    · obtain ⟨hnow, hrest⟩ := h.worker w (hworker ▸ hw)
      rw [hclock, hfailures, hstate, ← hnow]
      rw [← hnow] at hrest
      exact paces_advance h.single.sound.shared (h.single.sound.worker _ w hw)
        (h.single.alone w (hworker ▸ hw)) hrest (hnow ▸ h.paces) hadvance
    · rw [hclock, hfailures, hstate]
      exact h.paces
  · intro v hv
    rcases hcases with ⟨invocation, hle, hclock, hfailures, hstate⟩ |
      ⟨w, reply, effect, w', hw, hadvance, hclock, hfailures, hstate⟩ | ⟨hclock, hfailures, hstate⟩
    · rw [hstate] at hv
      cases hself.symm.trans hv
      exact ⟨hclock.symm, fun job hjob => by cases hjob⟩
    · rw [hstate] at hv
      obtain rfl := hself.symm.trans hv
      obtain ⟨hnow, hrest⟩ := h.worker w (hworker ▸ hw)
      rw [hclock, ← hnow]
      rw [← hnow] at hrest
      exact rest_of_advances hrest (advances_of_advance hadvance)
    · rw [hstate] at hv
      cases hself.symm.trans hv

end

/-- **Failures come further and further apart.**  Over any runs of one worker at a time, killed at
any point, with a clock that does not go back: a row's number of attempts is the number of its
recorded failures, each failure is later than the one before by `900 * 2 ^ (n - 1)` seconds or a day,
where `n` is the number of those before it, and so the latest is later than the first by the sum. -/
theorem failures_paced {steps : List (Step ℚ)} {t : Timed}
    (hrun : run (timed inspectProof) Timed.initial steps = some t)
    (halone : ∀ step ∈ steps, step.worker = 0) (id : ℕ) (r : Row)
    (hr : t.state.shared.store.row id = some r) :
    r.attemptCount = (t.failures id).length ∧ Spaced (t.failures id) ∧
      ∀ last ∈ (t.failures id).head?, ∀ first ∈ (t.failures id).getLast?,
        first + totalDelay (r.attemptCount - 1) ≤ last := by
  have hinv : t.Inv inspectProof := run_induction (fun s step t h hworker => timed_step h hworker)
    timed_initial (.of_forall fun step hstep _ => halone step hstep) hrun
  have hpaced := hinv.paces.paced id r hr
  refine ⟨hpaced.count.symm, hpaced.spaced, fun last hlast first hfirst => ?_⟩
  rw [← hpaced.count]
  exact hpaced.spaced.total hlast hfirst

/-- Two runs without an answer, 2000 seconds apart, record two failures. -/
theorem failures_paced_unanswered : ∃ t r,
    run (timed inspectSample) Timed.initial (unanswered 0 4 ++ unanswered 2000000000 5) = some t ∧
    t.state.shared.store.row 0 = some r ∧ t.failures 0 = [2000000000, 0] ∧ r.attemptCount = 2 ∧
    0 + leastDelay 1 ≤ 2000000000 := by
  have hrun : (run (timed inspectSample) Timed.initial
      (unanswered 0 4 ++ unanswered 2000000000 5)).any (fun t =>
        (t.state.shared.store.row 0).isSome ∧ t.failures 0 = [2000000000, 0]) = true := by
    decide +kernel
  obtain ⟨t, ht, hsample⟩ := (Option.any_eq_true _ _).1 hrun
  obtain ⟨hrow, hfailures⟩ := of_decide_eq_true hsample
  obtain ⟨r, hr⟩ := Option.isSome_iff_exists.1 hrow
  obtain ⟨hcount, hspaced, -⟩ := failures_paced ht (by decide) 0 r hr
  rw [hfailures] at hcount hspaced
  exact ⟨t, r, ht, hr, hfailures, hcount, hspaced.1⟩

end Pacing
end Anchor
end Vestrix
