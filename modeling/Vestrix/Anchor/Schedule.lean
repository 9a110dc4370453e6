/-
# Times as texts

The database keeps times as texts: `_utc_text` makes them, and SQLite compares them byte by byte in
`due_jobs`.  `LifecycleStore` has the instants that the texts were made from.  `Database` adds the
columns as SQLite has them, and a call writes both.

The order of the texts is the order of the instants (`utcText_le_iff`), so that `due_jobs` on texts
is `due_jobs` on instants (`dueJobs_text`), in every database that calls lead to.  What workers
write, they write by such calls (`written_run`).
-/

import Vestrix.Anchor.Table
import Vestrix.Python.AwareDatetime

namespace Vestrix
namespace Anchor

open Text Outcome Transition Calendar Python

/-! ### `_utc_text` -/

/-- `_utc_text`; there is no text where `astimezone` overflows. -/
def utcText (value : AwareDatetime) : Option (List Char) :=
  value.astimezoneUtc.map fun utc => replace "+00:00".toList "Z".toList utc.isoformat

/-- The text of an instant. -/
def instantText (n : ℕ) : List Char := momentText (.ofInstant n) ++ ['Z']

/-- `s <= t` in SQLite, which compares the bytes of texts. -/
def binaryLe (s t : List Char) : Prop := ¬ utf8 t < utf8 s

instance (s t : List Char) : Decidable (binaryLe s t) := inferInstanceAs (Decidable (¬ _))

/-- What comes before the first character of a match stays. -/
theorem replaceFrom_append {c : Char} {old new s : List Char} (h : c ∉ s) (t : List Char) :
    replaceFrom (c :: old) new 0 (s ++ t) = s ++ replaceFrom (c :: old) new 0 t := by
  induction s with
  | nil => rfl
  | cons d s ih =>
    obtain ⟨hne, hs⟩ := not_or.1 (mt List.mem_cons.2 h)
    have hprefix : (c :: old).isPrefixOf (d :: (s ++ t)) = false := by
      rw [List.isPrefixOf_cons_cons, beq_false_of_ne hne, Bool.false_and]
    rw [List.cons_append, replaceFrom, hprefix, if_neg Bool.false_ne_true, ih hs, List.cons_append]

/-- The text of a moment has no `+`, so that `replace` finds the offset only. -/
theorem plus_notMem_momentText (m : Moment) : '+' ∉ momentText m := by
  have hpadded : ∀ width n, '+' ∉ padded width n := fun width n h => by
    have hdigit := allDigits_padded _ h
    cases hdigit
  simp [momentText, dateText, timeText, hpadded]

/-- The text of an instant of UTC ends in `Z`. -/
theorem utcText_utc {n : ℕ} (h : n ≤ maxInstant) :
    replace "+00:00".toList "Z".toList (AwareDatetime.utc n h).isoformat = instantText n := by
  have hoffset : offsetText 0 = "+00:00".toList := by decide
  have hreplace : replace "+00:00".toList "Z".toList "+00:00".toList = ['Z'] := by decide
  rw [AwareDatetime.isoformat, AwareDatetime.utc, hoffset, instantText, ← hreplace]
  exact replaceFrom_append (plus_notMem_momentText _) _

/-- **A datetime has a text just if it is in range**, and that is the text of its instant. -/
theorem utcText_eq_some {value : AwareDatetime} {text : List Char} :
    utcText value = some text ↔ value.InRange ∧ text = instantText value.instant.toNat := by
  rw [utcText, AwareDatetime.astimezoneUtc]
  by_cases h : value.InRange
  · rw [dif_pos h, Option.map_some, utcText_utc, Option.some.injEq, eq_comm]
    exact ⟨fun heq => ⟨h, heq⟩, And.right⟩
  · rw [dif_neg h]
    exact ⟨fun hnone => (nomatch hnone), fun hrange => absurd hrange.1 h⟩

example : utcText ⟨⟨⟨2024, 2, 29, by decide, by decide, by decide⟩, 23, 30, 0, 7, by decide, by decide⟩,
    -18000000000, by decide, by decide⟩ = some "2024-03-01T04:30:00.000007Z".toList := by decide

/-- **Texts of instants are ordered as the instants are.** -/
theorem instantText_lt {m n : ℕ} (hn : n ≤ maxInstant) (h : m < n) : instantText m < instantText n := by
  refine momentText_lt (year_ofInstant (h.le.trans hn)) (year_ofInstant hn) ?_ _ _
  rwa [instant_ofInstant, instant_ofInstant]

/-- **The order of the texts of instants** is that of the instants. -/
theorem instantText_le_iff {m n : ℕ} (hm : m ≤ maxInstant) (hn : n ≤ maxInstant) :
    instantText m ≤ instantText n ↔ m ≤ n := by
  refine ⟨fun h => Nat.not_lt.1 fun hlt => absurd (instantText_lt hm hlt) (not_lt.2 h), fun h => ?_⟩
  rcases Nat.lt_or_eq_of_le h with hlt | rfl
  · exact (instantText_lt hn hlt).le
  · exact le_rfl

/-- SQLite's order of texts is the order of their characters. -/
theorem binaryLe_iff {s t : List Char} : binaryLe s t ↔ s ≤ t := by
  rw [binaryLe, utf8_lt_iff, not_lt]

/-- Two instants in range are ordered as their numbers of microseconds are. -/
theorem toNat_le_toNat {a b : AwareDatetime} (ha : a.InRange) (hb : b.InRange) :
    a.instant.toNat ≤ b.instant.toNat ↔ a.instant ≤ b.instant := by
  have := ha.1
  have := hb.1
  omega

/-- **The order of the texts of datetimes** is the order of time. -/
theorem utcText_le_iff {a b : AwareDatetime} {s t : List Char} (ha : utcText a = some s)
    (hb : utcText b = some t) : s ≤ t ↔ a.instant ≤ b.instant := by
  obtain ⟨harange, rfl⟩ := utcText_eq_some.1 ha
  obtain ⟨hbrange, rfl⟩ := utcText_eq_some.1 hb
  rw [instantText_le_iff (Int.toNat_le.2 harange.2) (Int.toNat_le.2 hbrange.2),
    toNat_le_toNat harange hbrange]

/-! ### The database -/

/-- The table, and two of its columns as SQLite has them.  The times in the rows of `store` are the
instants that the texts were made from. -/
structure Database where
  store : LifecycleStore
  lastAttempt : ℕ → Option (List Char)
  nextAttempt : ℕ → Option (List Char)

/-- A call of a method of `LifecycleStore` as a worker makes it: with a row that it has read at some
time, and with the datetimes that it makes texts of. -/
inductive Call where
  | trackTip (sequence : ℕ) (tipHash : List UInt8) (proofPath : ProofPath)
    (intervalMinutes confirmationThreshold : ℕ)
  | transition (job : Job) (state : Lifecycle) (now : AwareDatetime) (nextAttempt : Option AwareDatetime)
  | pendingChecked (job : Job) (now nextAttempt : AwareDatetime)
  | integrityFailure (job : Job) (error : Cause) (now : AwareDatetime)
  | transientFailure (job : Job) (error : Cause) (now nextAttempt : AwareDatetime)
  | resumeRetry (job : Job)
deriving DecidableEq

namespace Database

/-- The database before the first call. -/
def empty : Database := ⟨.empty, fun _ => none, fun _ => none⟩

variable (db : Database)

/-- The condition of `due_jobs`. -/
def due (now : List Char) (job : Job) : Prop :=
  job.row.state = .queued ∨
  (job.row.state = .submittedPending ∧
    (db.nextAttempt job.id = none ∨ ∃ t ∈ db.nextAttempt job.id, binaryLe t now)) ∨
  (job.row.state = .retryFailed ∧ job.row.failureClass = some .transient ∧
    ∃ t ∈ db.nextAttempt job.id, binaryLe t now)

instance (now : List Char) (job : Job) : Decidable (db.due now job) :=
  inferInstanceAs (Decidable (_ ∨ _ ∧ (_ ∨ _) ∨ _ ∧ _ ∧ _))

/-- `due_jobs`. -/
def dueJobs (now : List Char) : List Job :=
  (db.store.jobs.filter fun job => db.due now job).insertionSort fun a b =>
    a.row.sequence ≤ b.row.sequence

/-- An `UPDATE` of a row with two times, of which texts are made first. -/
def write (id : ℕ) (now : AwareDatetime) (nextAttempt : Option AwareDatetime)
    (method : ℕ → Option ℕ → Except Cause Row) : Option Database := do
  let nowText ← utcText now
  let nextText ← nextAttempt.mapM utcText
  match method now.instant.toNat (nextAttempt.map fun t => t.instant.toNat) with
  | .ok row => some ⟨db.store.put id row, Function.update db.lastAttempt id (some nowText),
      Function.update db.nextAttempt id nextText⟩
  | .error _ => none

end Database

/-- A successful call. -/
def perform (db : Database) : Call → Option Database
  | .trackTip n tipHash proofPath intervalMinutes confirmationThreshold =>
    match db.store.trackTip n tipHash proofPath intervalMinutes confirmationThreshold with
    | some row => some ⟨db.store.insert row, Function.update db.lastAttempt db.store.count none,
        Function.update db.nextAttempt db.store.count none⟩
    | none => some db
  | .transition job state now nextAttempt =>
    db.write job.id now nextAttempt fun now next => db.store.transition job state now next
  | .pendingChecked job now nextAttempt =>
    db.write job.id now (some nextAttempt) fun now _ =>
      db.store.pendingChecked job now nextAttempt.instant.toNat
  | .integrityFailure job error now =>
    db.write job.id now none fun now next => db.store.recordFailure job (some .integrity) error now next
  | .transientFailure job error now nextAttempt =>
    db.write job.id now (some nextAttempt) fun now next =>
      db.store.recordFailure job (some .transient) error now next
  | .resumeRetry job =>
    match db.store.resumeRetry job with
    | .ok row => some ⟨db.store.put job.id row, db.lastAttempt, Function.update db.nextAttempt job.id none⟩
    | .error _ => none

/-! ### What a database keeps -/

/-- A row whose next attempt is a time that a `datetime` has, and is set when a transient failure
waits for it. -/
structure Row.Timed (row : Row) : Prop where
  range : ∀ t ∈ row.nextAttempt, t ≤ maxInstant
  transient : row.failureClass = some .transient → row.nextAttempt ≠ none

/-- The column `next_attempt` has the texts of the instants. -/
structure Database.Inv (db : Database) : Prop where
  bounded : Bounded db.store
  timed : ∀ id row, db.store.row id = some row → row.Timed
  nextAttempt : ∀ id row, db.store.row id = some row → db.nextAttempt id = row.nextAttempt.map instantText

variable {db db' : Database} {id : ℕ}

/-- A row with no next attempt and no failure has nothing to wait for. -/
theorem Row.Timed.of_none {row : Row} (hnext : row.nextAttempt = none) (hclass : row.failureClass = none) :
    row.Timed where
  range t ht := by
    rw [hnext] at ht
    cases ht
  transient h := by
    rw [hclass] at h
    cases h

/-- The empty table has no texts. -/
theorem Database.inv_empty : Database.empty.Inv :=
  ⟨fun _ _ h => (nomatch h), fun _ _ h => (nomatch h), fun _ _ h => (nomatch h)⟩

/-- A next attempt has a text just if it is in range, and that is the text of its instant. -/
theorem mapM_utcText {next : Option AwareDatetime} {texts : Option (List Char)}
    (h : next.mapM utcText = some texts) :
    (∀ t ∈ next, t.InRange) ∧ texts = next.map fun t => instantText t.instant.toNat := by
  cases next with
  | none => exact ⟨fun t ht => (nomatch ht), (Option.some.inj h).symm⟩
  | some t =>
    obtain ⟨text, htext, rfl⟩ := Option.map_eq_some_iff.1 h
    obtain ⟨hrange, rfl⟩ := utcText_eq_some.1 htext
    exact ⟨fun u hu => Option.some.inj hu ▸ hrange, rfl⟩

/-- An update that succeeds puts the row of its method, with the text of the next attempt. -/
theorem write_eq_some {now : AwareDatetime} {next : Option AwareDatetime}
    {method : ℕ → Option ℕ → Except Cause Row} (h : db.write id now next method = some db') :
    ∃ row lastAttempt, method now.instant.toNat (next.map fun t => t.instant.toNat) = .ok row ∧
      (∀ t ∈ next, t.InRange) ∧ db' = ⟨db.store.put id row, lastAttempt,
        Function.update db.nextAttempt id (next.map fun t => instantText t.instant.toNat)⟩ := by
  obtain ⟨nowText, -, h⟩ := Option.bind_eq_some_iff.1 h
  obtain ⟨nextText, hnext, h⟩ := Option.bind_eq_some_iff.1 h
  obtain ⟨hrange, rfl⟩ := mapM_utcText hnext
  split at h
  · rename_i row hrow
    exact ⟨row, _, hrow, hrange, (Option.some.inj h).symm⟩
  · cases h

/-- A row with its own text may be put in the place of another one. -/
theorem Database.Inv.put (h : db.Inv) {row : Row} (hid : ∃ r, db.store.row id = some r) (hrow : row.Timed)
    (lastAttempt : ℕ → Option (List Char)) : Database.Inv ⟨db.store.put id row, lastAttempt,
      Function.update db.nextAttempt id (row.nextAttempt.map instantText)⟩ where
  bounded := h.bounded.put hid
  timed id' row' h' := by
    rcases put_row h' with ⟨-, rfl⟩ | ⟨-, h'⟩
    · exact hrow
    · exact h.timed id' row' h'
  nextAttempt id' row' h' := by
    rcases put_row h' with ⟨rfl, rfl⟩ | ⟨hne, h'⟩
    · exact Function.update_self ..
    · exact (Function.update_of_ne hne ..).trans (h.nextAttempt id' row' h')

/-- A row without a next attempt may be added without a text. -/
theorem Database.Inv.insert (h : db.Inv) {row : Row} (hrow : row.Timed) (hnext : row.nextAttempt = none)
    (lastAttempt : ℕ → Option (List Char)) : Database.Inv ⟨db.store.insert row, lastAttempt,
      Function.update db.nextAttempt db.store.count none⟩ where
  bounded id' row' h' := by
    rcases insert_row h' with ⟨rfl, -⟩ | h'
    · exact Nat.lt_succ_self _
    · exact Nat.lt_succ_of_lt (h.bounded id' row' h')
  timed id' row' h' := by
    rcases insert_row h' with ⟨-, rfl⟩ | h'
    · exact hrow
    · exact h.timed id' row' h'
  nextAttempt id' row' h' := by
    rcases insert_row h' with ⟨rfl, rfl⟩ | h'
    · rw [hnext]
      exact Function.update_self ..
    · have hne : id' ≠ db.store.count := (h.bounded id' row' h').ne
      exact (Function.update_of_ne hne ..).trans (h.nextAttempt id' row' h')

/-- An update whose method writes the time of the next attempt. -/
theorem Database.Inv.write (h : db.Inv) {now : AwareDatetime} {next : Option AwareDatetime}
    {method : ℕ → Option ℕ → Except Cause Row} (hwrite : db.write id now next method = some db')
    (hmethod : ∀ now next' row, method now next' = .ok row → (∃ r, db.store.row id = some r) ∧
      (next' = next.map (fun t => t.instant.toNat) → row.nextAttempt = next') ∧
        (row.failureClass = some .transient → next ≠ none)) : db'.Inv := by
  obtain ⟨row, lastAttempt, hrow, hrange, rfl⟩ := write_eq_some hwrite
  obtain ⟨hid, hnext, htransient⟩ := hmethod _ _ _ hrow
  have htimed : row.Timed := by
    refine ⟨fun t ht => ?_, fun hclass hnone => htransient hclass ?_⟩
    · rw [hnext rfl] at ht
      obtain ⟨d, hd, rfl⟩ := Option.map_eq_some_iff.1 ht
      exact Int.toNat_le.2 (hrange d hd).2
    · rw [hnext rfl] at hnone
      exact Option.map_eq_none_iff.1 hnone
  have hput := h.put hid htimed lastAttempt
  rwa [hnext rfl, Option.map_map] at hput

/-- **Every call keeps the texts of the next attempts.** -/
theorem inv_perform (h : db.Inv) {call : Call} (hcall : perform db call = some db') : db'.Inv := by
  cases call with
  | trackTip n tipHash proofPath intervalMinutes confirmationThreshold =>
    rw [perform] at hcall
    split at hcall
    · rename_i row htrack
      obtain rfl := Option.some.inj hcall
      rw [LifecycleStore.trackTip] at htrack
      split at htrack
      · cases htrack
      · obtain rfl := Option.some.inj htrack
        exact h.insert (.of_none rfl rfl) rfl _
    · exact Option.some.inj hcall ▸ h
  | transition job state now next =>
    refine h.write hcall fun now' next' row hrow => ?_
    obtain ⟨-, -, hupdate⟩ := bind_eq_ok.1 hrow
    obtain ⟨r, hr, -, rfl⟩ := updateWhere_eq_some.1 (orError_eq_ok.1 hupdate)
    exact ⟨⟨r, hr⟩, fun _ => rfl, fun hclass => by cases hclass⟩
  | pendingChecked job now next =>
    rw [perform] at hcall
    refine h.write hcall fun now' next' row hrow => ?_
    obtain ⟨r, hr, -, rfl⟩ := pendingChecked_eq_ok hrow
    exact ⟨⟨r, hr⟩, fun hnext => hnext.symm, fun _ => Option.some_ne_none _⟩
  | integrityFailure job error now =>
    refine h.write hcall fun now' next' row hrow => ?_
    obtain ⟨r, hr, -, rfl⟩ := recordFailure_eq_ok hrow
    exact ⟨⟨r, hr⟩, fun _ => rfl, fun hclass => by cases hclass⟩
  | transientFailure job error now next =>
    refine h.write hcall fun now' next' row hrow => ?_
    obtain ⟨r, hr, -, rfl⟩ := recordFailure_eq_ok hrow
    exact ⟨⟨r, hr⟩, fun _ => rfl, fun _ => Option.some_ne_none _⟩
  | resumeRetry job =>
    rw [perform] at hcall
    split at hcall
    · rename_i row hresume
      obtain rfl := Option.some.inj hcall
      obtain ⟨r, retryFrom, hr, -, -, -, rfl⟩ := resumeRetry_eq_ok hresume
      exact h.put ⟨r, hr⟩ (.of_none rfl rfl) _
    · cases hcall

/-! ### Scheduling -/

/-- **A row is due by the texts when it is due by the instants.** -/
theorem due_text (h : db.Inv) {now : ℕ} (hnow : now ≤ maxInstant) {job : Job}
    (hjob : db.store.row job.id = some job.row) :
    db.due (instantText now) job ↔ LifecycleStore.due now job.row := by
  have hle : ∀ t ∈ job.row.nextAttempt, binaryLe (instantText t) (instantText now) ↔ t ≤ now :=
    fun t ht => binaryLe_iff.trans (instantText_le_iff ((h.timed _ _ hjob).range t ht) hnow)
  rw [Database.due, LifecycleStore.due, h.nextAttempt _ _ hjob]
  cases hnext : job.row.nextAttempt with
  | none => simp
  | some t => simp [hle t hnext]

/-- **`due_jobs` compares texts, and so times.** -/
theorem dueJobs_text (h : db.Inv) {now : ℕ} (hnow : now ≤ maxInstant) :
    db.dueJobs (instantText now) = db.store.dueJobs now := by
  rw [Database.dueJobs, LifecycleStore.dueJobs]
  congr 1
  refine List.filter_congr fun job hjob => decide_eq_decide.2 ?_
  exact due_text h hnow (mem_jobs.1 hjob).2

/-- Every sequence of calls keeps the texts of the next attempts. -/
theorem inv_run {calls : List Call} (h : run perform .empty calls = some db) : db.Inv :=
  run_invariant (fun _ _ _ hs ht => inv_perform hs ht) Database.inv_empty h

/-- **Scheduling by text is scheduling by time.**  The texts of two datetimes compare as the times do.
Whatever calls have written the database, a row that waits for its next attempt is among those that
`due_jobs` finds exactly when the time has come that the text of its next attempt was made from. -/
theorem schedules_by_time :
    (∀ a b : AwareDatetime, a.InRange → b.InRange →
      ∃ s t, utcText a = some s ∧ utcText b = some t ∧ (s ≤ t ↔ a.instant ≤ b.instant)) ∧
    ∀ calls db, run perform .empty calls = some db → ∀ now : AwareDatetime, now.InRange →
      ∃ text, utcText now = some text ∧ ∀ id row, db.store.row id = some row →
        (row.state = .submittedPending ∧ db.nextAttempt id ≠ none ∨
          row.state = .retryFailed ∧ row.failureClass = some .transient) →
        ∃ source, row.nextAttempt = some source ∧ db.nextAttempt id = some (instantText source) ∧
          (⟨id, row⟩ ∈ db.dueJobs text ↔ (source : ℤ) ≤ now.instant) := by
  constructor
  · intro a b ha hb
    have hs := utcText_eq_some.2 ⟨ha, rfl⟩
    have ht := utcText_eq_some.2 ⟨hb, rfl⟩
    exact ⟨_, _, hs, ht, utcText_le_iff hs ht⟩
  · intro calls db hrun now hnow
    have h := inv_run hrun
    refine ⟨_, utcText_eq_some.2 ⟨hnow, rfl⟩, fun id row hrow hwaits => ?_⟩
    have htext := h.nextAttempt id row hrow
    have hset : row.nextAttempt ≠ none := by
      rcases hwaits with ⟨-, hnext⟩ | ⟨-, hclass⟩
      · rwa [htext, Ne, Option.map_eq_none_iff] at hnext
      · exact (h.timed id row hrow).transient hclass
    obtain ⟨source, hsource⟩ := Option.ne_none_iff_exists'.1 hset
    refine ⟨source, hsource, by rw [htext, hsource, Option.map_some], ?_⟩
    rw [dueJobs_text h (Int.toNat_le.2 hnow.2), mem_dueJobs, LifecycleStore.due, hsource]
    have hbounded := h.bounded id row hrow
    have hle : source ≤ now.instant.toNat ↔ (source : ℤ) ≤ now.instant := by
      have := hnow.1
      omega
    rcases hwaits with ⟨hstate, -⟩ | ⟨hstate, hclass⟩
    · simp [hstate, hrow, hbounded, hle]
    · simp [hstate, hclass, hrow, hbounded, hle]

/-- The evening of a leap day, five hours behind UTC. -/
def sampleEvening : AwareDatetime :=
  ⟨⟨⟨2024, 2, 29, by decide, by decide, by decide⟩, 23, 30, 0, 0, by decide, by decide⟩, -18000000000,
    by decide, by decide⟩

/-- The next morning, five and a half hours ahead of UTC. -/
def sampleMorning : AwareDatetime :=
  ⟨⟨⟨2024, 3, 1, by decide, by decide, by decide⟩, 9, 0, 0, 0, by decide, by decide⟩, 19800000000,
    by decide, by decide⟩

/-- A row is tracked, and submitted in the morning with the evening for its next attempt. -/
def sampleCalls : List Call :=
  [.trackTip 0 [] ⟨[], 0, []⟩ 60 6,
    .transition ⟨0, ⟨0, [], .queued, ⟨[], 0, []⟩, 0, none, none, none, none, none, 60, 6⟩⟩ .submittedPending
      sampleMorning (some sampleEvening)]

/-- The evening in the west is after the morning in the east, and what waits for it is not due then. -/
theorem schedules_by_time_sample :
    (∃ s t, utcText sampleEvening = some s ∧ utcText sampleMorning = some t ∧ ¬ s ≤ t) ∧
      ∃ db row text, run perform .empty sampleCalls = some db ∧ db.store.row 0 = some row ∧
        utcText sampleMorning = some text ∧ ⟨0, row⟩ ∉ db.dueJobs text := by
  constructor
  · obtain ⟨s, t, hs, ht, hle⟩ := schedules_by_time.1 sampleEvening sampleMorning (by decide) (by decide)
    exact ⟨s, t, hs, ht, fun h => absurd (hle.1 h) (by decide)⟩
  · obtain ⟨text, htext, hdue⟩ := schedules_by_time.2 sampleCalls _ rfl sampleMorning (by decide)
    obtain ⟨source, hsource, -, hiff⟩ := hdue 0 _ rfl (Or.inl ⟨rfl, Option.some_ne_none _⟩)
    obtain rfl := Option.some.inj hsource
    exact ⟨_, _, text, rfl, rfl, htext, fun h => absurd (hiff.1 h) (by decide)⟩

/-! ### The worker's calls -/

section

variable {J : Type} {inspectProof : List UInt8 → List UInt8 → Option Bool}
  {retryDelay : ℕ → J → Option ℕ}

/-- The instants of UTC are in range. -/
theorem inRange_utc {n : ℕ} (h : n ≤ maxInstant) : (AwareDatetime.utc n h).InRange := by
  rw [AwareDatetime.InRange, instant_utc]
  exact ⟨Int.natCast_nonneg n, Int.ofNat_le.2 h⟩

/-- The instant of a UTC datetime is the one it was made from. -/
theorem toNat_instant_utc {n : ℕ} (h : n ≤ maxInstant) : (AwareDatetime.utc n h).instant.toNat = n := by
  rw [instant_utc, Int.toNat_natCast]

/-- Each instant of UTC has a text. -/
theorem exists_text {n : ℕ} (h : n ≤ maxInstant) :
    ∃ texts, (some (AwareDatetime.utc n h)).mapM utcText = some texts := by
  rw [Option.mapM_some, utcText_eq_some.2 ⟨inRange_utc h, rfl⟩]
  exact ⟨_, rfl⟩

/-- Times up to the last date are instants of datetimes with a text. -/
theorem exists_datetime {next : Option ℕ} (h : ∀ t ∈ next, t ≤ maxInstant) :
    ∃ next' : Option AwareDatetime, (next'.map fun t => t.instant.toNat) = next ∧
      ∃ texts, next'.mapM utcText = some texts := by
  cases next with
  | none => exact ⟨none, rfl, none, rfl⟩
  | some t => exact ⟨some (.utc t (h t rfl)), congrArg some (toNat_instant_utc _), exists_text _⟩

/-- An update of the instants is one of the texts. -/
theorem exists_write {now : ℕ} (hnow : now ≤ maxInstant) {next : Option ℕ} {next' : Option AwareDatetime}
    (hmap : (next'.map fun t => t.instant.toNat) = next) (htexts : ∃ texts, next'.mapM utcText = some texts)
    {method : ℕ → Option ℕ → Except Cause Row} {row : Row} (hrow : method now next = .ok row) :
    ∃ db', db.write id (.utc now hnow) next' method = some db' ∧ db'.store = db.store.put id row := by
  obtain ⟨texts, htexts⟩ := htexts
  have hnowText := utcText_eq_some.2 ⟨inRange_utc hnow, rfl⟩
  have hwrite : db.write id (.utc now hnow) next' method = some ⟨db.store.put id row,
      Function.update db.lastAttempt id (some (instantText (AwareDatetime.utc now hnow).instant.toNat)),
      Function.update db.nextAttempt id texts⟩ := by
    rw [Database.write, hnowText, htexts, hmap, toNat_instant_utc]
    simp only [Option.bind_eq_bind, Option.bind_some, hrow]
  exact ⟨_, hwrite, rfl⟩

/-- A worker keeps its time. -/
theorem now_advances {s : Shared} {w v : Worker} {effect : Effect}
    (h : Advances inspectProof s w effect (some v)) : v.now = w.now := by
  cases h <;> rfl

/-- The row that ends a job is written by a call. -/
theorem exists_call_finish {now : ℕ} (hnow : now ≤ maxInstant) {job : Job} {bitcoin : Bool} {row : Row}
    (h : finish db.store job now bitcoin = .ok row) :
    ∃ call db', perform db call = some db' ∧ db'.store = db.store.put job.id row := by
  have htransition : ∀ {state next}, (∀ t ∈ next, t ≤ maxInstant) →
      db.store.transition job state now next = .ok row →
        ∃ call db', perform db call = some db' ∧ db'.store = db.store.put job.id row := by
    intro state next hnext hrow
    obtain ⟨next', hmap, htexts⟩ := exists_datetime hnext
    exact ⟨.transition job state (.utc now hnow) next', exists_write hnow hmap htexts hrow⟩
  have hnone : ∀ t ∈ (none : Option ℕ), t ≤ maxInstant := fun t ht => nomatch ht
  have hsome : ∀ {next}, nextPendingAttempt job now = .ok next → ∀ t ∈ some next, t ≤ maxInstant :=
    fun hnext t ht => Option.some.inj ht ▸ addTime_eq_ok hnext
  rw [finish] at h
  split_ifs at h
  · exact htransition hnone h
  · obtain ⟨next, hnext, h⟩ := bind_eq_ok.1 h
    exact htransition (hsome hnext) h
  · exact htransition hnone h
  · obtain ⟨next, hnext, h⟩ := bind_eq_ok.1 h
    have hle : next ≤ maxInstant := hsome hnext next rfl
    have hmap : ((some (AwareDatetime.utc next hle)).map fun t => t.instant.toNat) = some next :=
      congrArg some (toNat_instant_utc hle)
    have hwrite : ∃ db', db.write job.id (.utc now hnow) (some (.utc next hle)) (fun now _ =>
        db.store.pendingChecked job now (AwareDatetime.utc next hle).instant.toNat) = some db' ∧
          db'.store = db.store.put job.id row :=
      exists_write hnow hmap (exists_text hle) (by rwa [toNat_instant_utc])
    exact ⟨.pendingChecked job (.utc now hnow) (.utc next hle), hwrite⟩

/-- **What a worker writes, it writes by a call.** -/
theorem exists_call {s : Shared} {w : Worker} {effect : Effect} {w' : Option Worker}
    (hdb : db.store = s.store)
    (hnow : w.now ≤ maxInstant) (h : Advances inspectProof s w effect w') :
    (s.apply effect).store = db.store ∨
      ∃ call db', perform db call = some db' ∧ db'.store = (s.apply effect).store := by
  cases h with
  | @track run row hphase htrack =>
    rw [← hdb] at htrack
    have hcall : perform db (.trackTip run.sequence run.tipHash run.proofPath run.intervalMinutes
        run.confirmationThreshold) = some ⟨db.store.insert row,
          Function.update db.lastAttempt db.store.count none,
          Function.update db.nextAttempt db.store.count none⟩ := by
      rw [perform, htrack]
    exact Or.inr ⟨_, _, hcall, by rw [hdb]; rfl⟩
  | @resume job rest row hphase hrest hresume =>
    rw [← hdb] at hresume
    have hcall : perform db (.resumeRetry job) = some ⟨db.store.put job.id row, db.lastAttempt,
        Function.update db.nextAttempt job.id none⟩ := by
      rw [perform, hresume]
    exact Or.inr ⟨_, _, hcall, by rw [hdb]; rfl⟩
  | @update job bitcoin row hphase hfinish =>
    rw [← hdb] at hfinish
    obtain ⟨call, db', hcall, hstore⟩ := exists_call_finish hnow hfinish
    exact Or.inr ⟨call, db', hcall, hstore.trans (by rw [hdb]; rfl)⟩
  | @fail job failureClass error next row hphase hnext htime hrecord =>
    rw [← hdb] at hrecord
    have happly : (s.apply (.write job.id row (some failureClass))).store = db.store.put job.id row := by
      rw [hdb]
      rfl
    rw [happly]
    obtain ⟨next', hmap, htexts⟩ := exists_datetime htime
    rcases hnext with ⟨rfl, rfl⟩ | ⟨rfl, hnext⟩
    · obtain rfl := Option.map_eq_none_iff.1 hmap
      exact Or.inr ⟨.integrityFailure job error (.utc w.now hnow), exists_write hnow hmap htexts hrecord⟩
    · cases next' with
      | none => exact absurd hmap.symm hnext
      | some t =>
        exact Or.inr ⟨.transientFailure job error (.utc w.now hnow) t, exists_write hnow hmap htexts hrecord⟩
  | _ => exact Or.inl hdb.symm

/-- The databases of the workers' tables: those that some calls lead to. -/
def Written (s : State) : Prop :=
  (∀ k w, s.workers k = some w → w.now ≤ maxInstant) ∧
    ∃ calls db, run perform .empty calls = some db ∧ db.store = s.shared.store

/-- A run begins at a time that a `datetime` has. -/
def Clocked (_ : State) (step : Step J) : Prop := ∀ run, step.action = .start run → run.now ≤ maxInstant

/-- A step writes a text only for a time that a `datetime` has. -/
theorem written_step {s t : State} {step : Step J} (hs : Written s) (hok : Clocked s step)
    (h : system inspectProof retryDelay s step = some t) : Written t := by
  obtain ⟨hnow, calls, db, hrun, hdb⟩ := hs
  have hworkers : ∀ {w' : Option Worker}, (∀ w, w' = some w → w.now ≤ maxInstant) →
      ∀ k w, Function.update s.workers step.worker w' k = some w → w.now ≤ maxInstant := by
    intro w' hw' k w hw
    rcases eq_or_ne k step.worker with rfl | hne
    · exact hw' w (by rwa [Function.update_self] at hw)
    · exact hnow k w (by rwa [Function.update_of_ne hne] at hw)
  rw [system.eq_def] at h
  split at h
  · rename_i started hstart _
    cases h
    exact ⟨hworkers fun w hw => Option.some.inj hw ▸ hok started hstart, calls, db, hrun, hdb⟩
  · rename_i w _ hw
    obtain ⟨⟨effect, w'⟩, hgo, rfl⟩ := Option.map_eq_some_iff.1 h
    have hadv := advances_of_advance hgo
    refine ⟨hworkers fun v hv => ?_, ?_⟩
    · subst hv
      exact (now_advances hadv).trans_le (hnow _ w hw)
    · rcases exists_call hdb (hnow _ w hw) hadv with hsame | ⟨call, db', hcall, hstore⟩
      · exact ⟨calls, db, hrun, hsame.symm⟩
      · exact ⟨calls ++ [call], db', run_append.2 ⟨db, hrun, run_cons.2 ⟨db', hcall, rfl⟩⟩, hstore⟩
  · cases h
    exact ⟨hworkers fun w hw => (by cases hw), calls, db, hrun, hdb⟩
  · cases h

/-- **Every table that workers leave** is the table of a database that calls have written. -/
theorem written_run {t : State} {steps : List (Step J)}
    (hclocked : Meets (system inspectProof retryDelay) Clocked .initial steps)
    (h : run (system inspectProof retryDelay) .initial steps = some t) :
    ∃ calls db, run perform .empty calls = some db ∧ db.store = t.shared.store := by
  have hinitial : Written .initial := ⟨fun k w hw => (nomatch hw), [], .empty, rfl, rfl⟩
  exact (run_induction (fun _ _ _ hs hok ht => written_step hs hok ht) hinitial hclocked h).2

end

end Anchor
end Vestrix
