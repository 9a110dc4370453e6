/-
# Sequence numbers

What the reservation of a number under the lock gives over all schedules: the last number
of a node never decreases, and a number is handed to `event_logger` once at most, by the
connection whose certificate has the node's name.

A reservation does not order the appends.  What keeps the records of a node in order is
that no call appends while another connection of the node waits with a smaller number.
-/

import Vestrix.Collector.Ingest
import Mathlib.Data.List.Pairwise

namespace Vestrix
namespace Collector
namespace Ingest

open Text Json Outcome Python Transition

/-- What `event_logger` may see once. -/
def CSIEvent.number (event : CSIEvent) : Str × ℕ := (event.nodeId, event.sequenceNumber)

/-- The event of a handler that has reserved its number, before the event is appended. -/
def Phase.waiting? : Phase → Option CSIEvent
  | .reserved _ event => some event
  | .calling _ event => some event
  | _ => none

/-- A number that is not above the last one of its node. -/
def Below (last : Str → Option ℕ) (event : CSIEvent) : Prop :=
  ∃ q, last event.nodeId = some q ∧ event.sequenceNumber ≤ q

/-- The invariant of the collector. -/
structure State.Inv (s : State) : Prop where
  connection : ∀ k, (s.connections k).Inv
  fresh : ∀ k, s.accepted ≤ k → s.connections k = .new
  called : ∀ c ∈ s.calls, ¬ (s.connections c.1).phase.Early ∧
    (s.connections c.1).names = [c.2.nodeId] ∧ c.2.nodeId ∈ (s.connections c.1).snapshot
  once : (s.calls.map fun c => CSIEvent.number c.2).Nodup
  below : ∀ c ∈ s.calls, Below s.lastSequences c.2
  reserved : ∀ k name event, (s.connections k).phase = .reserved name event →
    CSIEvent.number event ∉ s.calls.map fun c => CSIEvent.number c.2
  waiting : ∀ k event, (s.connections k).phase.waiting? = some event → Below s.lastSequences event
  distinct : ∀ j k e e', j ≠ k → (s.connections j).phase.waiting? = some e →
    (s.connections k).phase.waiting? = some e' → CSIEvent.number e ≠ CSIEvent.number e'

variable {limit : ℕ} {s t : State}

/-! ### Frames -/

/-- A handler that the others see nothing of waits with no number. -/
theorem Quiet.waiting {k : ℕ} {c : Connection} (hc : Quiet s k c) : c.phase.waiting? = none := by
  cases hc <;> rfl

/-- A quiet step leaves the names and the allow-list that a handler has taken. -/
theorem Quiet.frame {k : ℕ} {c : Connection} (hc : Quiet s k c)
    (h : ¬ (s.connections k).phase.Early) : ¬ c.phase.Early ∧ c.names = (s.connections k).names ∧
      c.snapshot = (s.connections k).snapshot := by
  have hlate : ∀ {phase : Phase}, phase ≠ .accepted → phase ≠ .snapshotted → ¬ phase.Early :=
    fun h₁ h₂ h => h.elim h₁ h₂
  cases hc with
  | snapshot hphase => exact absurd (Or.inl hphase) h
  | connect hphase => exact absurd (Or.inr hphase) h
  | _ => exact ⟨hlate (fun h => nomatch h) (fun h => nomatch h), rfl, rfl⟩

/-- The connection that is set is there. -/
@[simp] theorem set_connections_self (s : State) (k : ℕ) (c : Connection) :
    (s.set k c).connections k = c := Function.update_self ..

/-- The other connections stay. -/
theorem set_connections_of_ne {j k : ℕ} (h : j ≠ k) (c : Connection) :
    (s.set k c).connections j = s.connections j := Function.update_of_ne h ..

/-- What is true of the connection that has moved and of all others. -/
theorem forall_set {k : ℕ} {c : Connection} {p : ℕ → Connection → Prop} (hc : p k c)
    (h : ∀ j, j ≠ k → p j (s.connections j)) : ∀ j, p j ((s.set k c).connections j) := by
  intro j
  by_cases hj : j = k
  · rw [hj, set_connections_self]
    exact hc
  · rw [set_connections_of_ne hj]
    exact h j hj

/-- The connections that have not been accepted stay new. -/
theorem fresh_set {k : ℕ} {c : Connection} (h : ∀ j, s.accepted ≤ j → s.connections j = .new)
    (hk : k < s.accepted) : ∀ j, s.accepted ≤ j → (s.set k c).connections j = .new :=
  forall_set (p := fun j c => s.accepted ≤ j → c = .new) (fun hle => absurd hle (Nat.not_le.2 hk))
    fun j _ => h j

/-- No handler has a reserved number that is among those called for, if the one that has moved has
not. -/
theorem reserved_set {k : ℕ} {c : Connection} {numbers : List (Str × ℕ)}
    (hc : ∀ name event, c.phase = .reserved name event → CSIEvent.number event ∉ numbers)
    (h : ∀ j, j ≠ k → ∀ name event, (s.connections j).phase = .reserved name event →
      CSIEvent.number event ∉ numbers) :
    ∀ j name event, ((s.set k c).connections j).phase = .reserved name event →
      CSIEvent.number event ∉ numbers :=
  forall_set (p := fun _ c => ∀ name event, c.phase = .reserved name event →
    CSIEvent.number event ∉ numbers) hc h

/-- Every number that is waited for is below the last one of its node, if that of the one that has
moved is. -/
theorem waiting_set {k : ℕ} {c : Connection} {last : Str → Option ℕ}
    (hc : ∀ event, c.phase.waiting? = some event → Below last event)
    (h : ∀ j event, (s.connections j).phase.waiting? = some event → Below last event) :
    ∀ j event, ((s.set k c).connections j).phase.waiting? = some event → Below last event :=
  forall_set (p := fun _ c => ∀ event, c.phase.waiting? = some event → Below last event) hc
    fun j _ => h j

/-- Each connection has its invariant, if the one that has moved has. -/
theorem connection_set {k : ℕ} {c : Connection} (hc : c.Inv) (h : ∀ j, (s.connections j).Inv) :
    ∀ j, ((s.set k c).connections j).Inv :=
  forall_set (p := fun _ c => c.Inv) hc fun j _ => h j

/-- The calls of a connection that has moved on, and of the others. -/
theorem called_set {k : ℕ} {c : Connection} {call : ℕ × CSIEvent}
    (hc : ¬ (s.connections k).phase.Early → ¬ c.phase.Early ∧ c.names = (s.connections k).names ∧
      c.snapshot = (s.connections k).snapshot)
    (h : ¬ (s.connections call.1).phase.Early ∧ (s.connections call.1).names = [call.2.nodeId] ∧
      call.2.nodeId ∈ (s.connections call.1).snapshot) :
    ¬ ((s.set k c).connections call.1).phase.Early ∧
      ((s.set k c).connections call.1).names = [call.2.nodeId] ∧
      call.2.nodeId ∈ ((s.set k c).connections call.1).snapshot := by
  by_cases hk : call.1 = k
  · rw [hk] at h ⊢
    obtain ⟨hearly, hnames, hsnapshot⟩ := hc h.1
    rw [set_connections_self, hnames, hsnapshot]
    exact ⟨hearly, h.2⟩
  · rw [set_connections_of_ne hk]
    exact h

/-- The numbers that are waited for, when the connection that has moved waits for a new one
or for none. -/
theorem distinct_set {k : ℕ} {c : Connection}
    (h : ∀ i j e e', i ≠ j → (s.connections i).phase.waiting? = some e →
      (s.connections j).phase.waiting? = some e' → CSIEvent.number e ≠ CSIEvent.number e')
    (hc : ∀ e, c.phase.waiting? = some e → ∀ j e', j ≠ k →
      (s.connections j).phase.waiting? = some e' → CSIEvent.number e' ≠ CSIEvent.number e) :
    ∀ i j e e', i ≠ j → ((s.set k c).connections i).phase.waiting? = some e →
      ((s.set k c).connections j).phase.waiting? = some e' →
        CSIEvent.number e ≠ CSIEvent.number e' := by
  intro i j e e' hij hi hj
  by_cases hik : i = k
  · rw [hik, set_connections_self] at hi
    rw [set_connections_of_ne fun hjk => hij (hik.trans hjk.symm)] at hj
    exact (hc e hi j e' (fun hjk => hij (hik.trans hjk.symm)) hj).symm
  · rw [set_connections_of_ne hik] at hi
    by_cases hjk : j = k
    · rw [hjk, set_connections_self] at hj
      exact hc e' hj i e hik hi
    · rw [set_connections_of_ne hjk] at hj
      exact h i j e e' hij hi hj

/-! ### The last number -/

/-- A reservation leaves every number that was not above the last one below it. -/
theorem Below.update {name : Str} {n : ℕ} {event : CSIEvent}
    (hn : ∀ q, s.lastSequences name = some q → q < n) (h : Below s.lastSequences event) :
    Below (Function.update s.lastSequences name (some n)) event := by
  obtain ⟨q, hq, hle⟩ := h
  by_cases hname : event.nodeId = name
  · refine ⟨n, by rw [hname]; exact Function.update_self .., hle.trans (hn q (hname ▸ hq)).le⟩
  · exact ⟨q, (Function.update_of_ne hname ..).trans hq, hle⟩

/-- **The last number of a node never decreases.** -/
theorem last_mono {step : Step} (h : Goes s step t) {node : Str} {q : ℕ}
    (hq : s.lastSequences node = some q) : ∃ q', t.lastSequences node = some q' ∧ q ≤ q' := by
  cases h with
  | @reserve k reply name event _ _ hreplay =>
    by_cases hname : node = name
    · subst hname
      exact ⟨_, Function.update_self .., (hreplay q hq).le⟩
    · exact ⟨q, (Function.update_of_ne hname ..).trans hq, le_rfl⟩
  | _ => exact ⟨q, hq, le_rfl⟩

/-! ### The invariant -/

/-- A phase that keeps what the handler knows, and decides nothing, keeps the invariant. -/
theorem Connection.Inv.phase {c : Connection} (h : c.Inv) {phase : Phase}
    (hmatched : phase.matched? = c.phase.matched?) (hname : phase.name? = c.phase.name?)
    (hundecided : c.decisions = [] ∧ c.returned ≠ some true)
    (hdone : phase ≠ .done) (hreturned : ∀ name event, phase ≠ .returned name event) :
    ({ c with phase := phase } : Connection).Inv := by
  refine ⟨fun name h' => h.named name (hname ▸ h'), fun name event h' => h.matched name event
    (hmatched ▸ h'), ?_⟩
  rw [Connection.Decided]
  cases phase <;> first | exact absurd rfl hdone | exact absurd rfl (hreturned _ _) | exact hundecided

/-- **Every step of the collector keeps the invariant.** -/
theorem State.Inv.step {step : Step} (h : s.Inv) (ht : Goes s step t) : t.Inv := by
  cases ht with
  | reload => exact ⟨h.connection, h.fresh, h.called, h.once, h.below, h.reserved, h.waiting, h.distinct⟩
  | accept =>
    have hset : ({ s with accepted := s.accepted + 1 }.set s.accepted .new).connections =
        s.connections := by
      rw [← h.fresh s.accepted le_rfl]
      exact Function.update_eq_self _ _
    constructor
    · rw [hset]; exact h.connection
    · rw [hset]; exact fun k hk => h.fresh k (Nat.le_of_succ_le hk)
    · rw [hset]; exact h.called
    · exact h.once
    · exact h.below
    · rw [hset]; exact h.reserved
    · rw [hset]; exact h.waiting
    · rw [hset]; exact h.distinct
  | @quiet k reply c hk hc =>
    refine ⟨connection_set (hc.inv (h.connection k)) h.connection, fresh_set h.fresh hk,
      fun c' hc' => called_set hc.frame (h.called c' hc'), h.once, h.below,
      reserved_set (fun name event hp => ?_) fun j _ => h.reserved j,
      waiting_set (fun event he => ?_) h.waiting,
      distinct_set h.distinct fun e he => nomatch hc.waiting.symm.trans he⟩
    · have := hc.waiting
      rw [hp] at this
      cases this
    · cases hc.waiting.symm.trans he
  | @reserve k reply name event hk hphase hreplay =>
    have hmatched : event.nodeId = name := (h.connection k).matched name event (by rw [hphase]; rfl)
    have hbelow : ∀ {e}, Below s.lastSequences e →
        Below (Function.update s.lastSequences name (some event.sequenceNumber)) e := fun he =>
      he.update hreplay
    have hself : Below (Function.update s.lastSequences name (some event.sequenceNumber)) event :=
      ⟨event.sequenceNumber, by rw [hmatched]; exact Function.update_self .., le_rfl⟩
    have hnew : ∀ e, Below s.lastSequences e → CSIEvent.number e ≠ CSIEvent.number event := by
      rintro e ⟨q, hq, hle⟩ heq
      obtain ⟨hnode, hseq⟩ := Prod.mk.inj heq
      have := hreplay q (by rw [← hmatched, ← hnode]; exact hq)
      omega
    have hundecided := (h.connection k).undecided (by simp [hphase]) (by simp [hphase])
    refine ⟨connection_set ?_ h.connection, fresh_set h.fresh hk,
      fun c hc => called_set (fun _ => ⟨?_, rfl, rfl⟩) (h.called c hc), h.once,
      fun c hc => hbelow (h.below c hc), reserved_set (fun name' event' hp hmem => ?_) fun j _ =>
        h.reserved j, waiting_set (fun event' he => ?_) fun j event' he => hbelow (h.waiting j event' he),
      distinct_set h.distinct fun e he j e' _ he' => ?_⟩
    · exact (h.connection k).phase (by rw [hphase]; rfl) (by rw [hphase]; rfl) hundecided
        (fun h => nomatch h) fun _ _ h => nomatch h
    · rintro (hp | hp) <;> cases hp
    · cases hp
      obtain ⟨c, hc, hnumber⟩ := List.mem_map.1 hmem
      exact hnew _ (h.below c hc) hnumber
    · cases he
      exact hself
    · cases he
      exact hnew e' (h.waiting j e' he')
  | @call k reply name event hk hphase =>
    have hwaiting : (s.connections k).phase.waiting? = some event := by rw [hphase]; rfl
    have hmatched : event.nodeId = name := (h.connection k).matched name event (by rw [hphase]; rfl)
    have hnamed := (h.connection k).named name (by rw [hphase]; rfl)
    have hundecided := (h.connection k).undecided (by simp [hphase]) (by simp [hphase])
    have hlate : ¬ (Phase.calling name event).Early := by rintro (hp | hp) <;> cases hp
    have hmem : ∀ {c : ℕ × CSIEvent}, c ∈ s.calls ++ [(k, event)] → c ∈ s.calls ∨ c = (k, event) :=
      fun hc => (List.mem_append.1 hc).imp_right List.mem_singleton.1
    refine ⟨connection_set ?_ h.connection, fresh_set h.fresh hk, fun c hc => ?_, ?_, fun c hc => ?_,
      reserved_set (fun _ _ hp => ?_) fun j hj name' event' hp hin => ?_,
      waiting_set (fun event' he => ?_) h.waiting, distinct_set h.distinct fun e he j e' hj he' => ?_⟩
    · exact (h.connection k).phase (by rw [hphase]; rfl) (by rw [hphase]; rfl) hundecided
        (fun h => nomatch h) fun _ _ h => nomatch h
    · rcases hmem hc with hc | rfl
      · exact called_set (fun _ => ⟨hlate, rfl, rfl⟩) (h.called c hc)
      · rw [set_connections_self]
        exact ⟨hlate, hmatched ▸ hnamed⟩
    · show (List.map _ (s.calls ++ [(k, event)])).Nodup
      rw [List.map_append]
      refine h.once.append (List.nodup_singleton _) fun n hn hn' => ?_
      rw [List.map_singleton, List.mem_singleton] at hn'
      exact h.reserved k name event hphase (hn' ▸ hn)
    · rcases hmem hc with hc | rfl
      · exact h.below c hc
      · exact h.waiting k event hwaiting
    · cases hp
    · obtain ⟨c, hc, hnumber⟩ := List.mem_map.1 hin
      rcases hmem hc with hc | rfl
      · exact h.reserved j name' event' hp (List.mem_map.2 ⟨c, hc, hnumber⟩)
      · exact h.distinct k j event event' (Ne.symm hj) hwaiting (by rw [hp]; rfl) hnumber
    · cases he
      exact h.waiting k event hwaiting
    · cases he
      exact h.distinct j k e' event hj he' hwaiting
  | @append k name event hk hphase =>
    have hundecided := (h.connection k).undecided (by simp [hphase]) (by simp [hphase])
    refine ⟨connection_set ?_ h.connection, fresh_set h.fresh hk,
      fun c hc => called_set (fun _ => ⟨?_, rfl, rfl⟩) (h.called c hc), h.once, h.below,
      reserved_set (fun _ _ hp => ?_) fun j _ => h.reserved j,
      waiting_set (fun _ he => ?_) h.waiting, distinct_set h.distinct fun e he => ?_⟩
    · exact (h.connection k).phase (by rw [hphase]; rfl) (by rw [hphase]; rfl) hundecided
        (fun h => nomatch h) fun _ _ h => nomatch h
    · rintro (hp | hp) <;> cases hp
    · cases hp
    · cases he
    · cases he

/-- At the beginning there is no connection. -/
theorem inv_initial (nodes : List Str) : (State.initial nodes).Inv where
  connection _ := Connection.inv_new
  fresh _ _ := rfl
  called _ hc := nomatch hc
  once := List.nodup_nil
  below _ hc := nomatch hc
  reserved _ _ _ hp := nomatch hp
  waiting _ _ he := nomatch he
  distinct _ _ _ _ _ he := nomatch he

/-- Every run of the collector keeps the invariant. -/
theorem inv_run {nodes : List Str} {steps : List Step}
    (hrun : run (system limit) (State.initial nodes) steps = some t) : t.Inv :=
  run_invariant (fun _ _ _ h ht => h.step (goes_of_system ht)) (inv_initial nodes) hrun

/-! ### How a call ends -/

/-- How a call of `event_logger` ends with a reply. -/
def Reply.ended? : Reply → Option Bool
  | .returned => some true
  | .raised => some false
  | _ => none

/-- What is known of the call of a handler that has gone on: how it ended, if the reply has ended it, and else
what was known before. -/
theorem handlerStep_returned {k : ℕ} {reply : Reply} (h : handlerStep limit s k reply = some t) :
    (∀ j, j ≠ k → t.connections j = s.connections j) ∧
      (t.connections k).returned = reply.ended?.or (s.connections k).returned := by
  have hset : ∀ (u : State) (c : Connection), u.connections = s.connections → t = u.set k c →
      c.returned = reply.ended?.or (s.connections k).returned →
      (∀ j, j ≠ k → t.connections j = s.connections j) ∧
        (t.connections k).returned = reply.ended?.or (s.connections k).returned := by
    rintro u c hu rfl hc
    exact ⟨fun j hj => (set_connections_of_ne hj c).trans (congrFun hu j), by rw [set_connections_self, hc]⟩
  rw [handlerStep.eq_def] at h
  dsimp only at h
  split at h <;> (try split at h) <;> simp only [Option.some.injEq, reduceCtorEq] at h <;>
    refine hset _ _ ?_ h.symm ?_ <;> rfl

/-- A call that has returned does not raise. -/
theorem State.Inv.not_raised (h : s.Inv) {k : ℕ} (ht : handlerStep limit s k .raised = some t) :
    (s.connections k).returned ≠ some true := by
  rw [handlerStep.eq_def] at ht
  dsimp only at ht
  split at ht <;> first
    | contradiction
    | exact ((h.connection k).undecided (by simp [*]) (by simp [*])).2

/-- **A call has returned just if the schedule has its reply.** -/
theorem returned_iff {nodes : List Str} {steps : List Step} {k : ℕ}
    (hrun : run (system limit) (State.initial nodes) steps = some t) :
    (t.connections k).returned = some true ↔ .go k .returned ∈ steps := by
  induction steps using List.reverseRecOn generalizing t with
  | nil =>
    obtain rfl := run_nil.1 hrun
    exact iff_of_false (fun h => by cases h) List.not_mem_nil
  | append_singleton steps step ih =>
    obtain ⟨s, hs, hlast⟩ := run_append.1 hrun
    obtain ⟨t', hstep, hnil⟩ := run_cons.1 hlast
    obtain rfl := run_nil.1 hnil
    have hinv := inv_run hs
    rw [List.mem_append, List.mem_singleton, ← ih hs]
    cases step with
    | reload nodes' =>
      cases hstep
      simp
    | accept =>
      cases hstep
      have hset : ({ s with accepted := s.accepted + 1 }.set s.accepted .new).connections = s.connections := by
        rw [← hinv.fresh s.accepted le_rfl]
        exact Function.update_eq_self _ _
      rw [hset]
      simp
    | go j reply =>
      rw [system] at hstep
      split_ifs at hstep
      obtain ⟨hother, hself⟩ := handlerStep_returned hstep
      by_cases hjk : k = j
      · subst hjk
        rw [hself]
        cases reply with
        | returned => simp [Reply.ended?]
        | raised => simp [Reply.ended?, hinv.not_raised hstep]
        | _ => simp [Reply.ended?]
      · rw [hother k hjk]
        simp [hjk]

/-- **Authenticated ingest, at most once.**  Over every schedule, `event_logger` is called
once at most for a node and a number; each event it is called with has the one common name
of its connection's certificate, which is in the allow-list that the connection took; the
last number of a node never decreases; and a connection's one decision is to accept just
when its call has returned. -/
theorem ingest_at_most_once {nodes : List Str} {steps : List Step}
    (hrun : run (system limit) (State.initial nodes) steps = some t) :
    (t.calls.map fun c => (c.2.nodeId, c.2.sequenceNumber)).Nodup ∧
    (∀ c ∈ t.calls, (t.connections c.1).names = [c.2.nodeId] ∧
      c.2.nodeId ∈ (t.connections c.1).snapshot) ∧
    (∀ later u, run (system limit) t later = some u → ∀ node q, t.lastSequences node = some q →
      ∃ q', u.lastSequences node = some q' ∧ q ≤ q') ∧
    ∀ k, (t.connections k).decisions.length ≤ 1 ∧ ∀ d ∈ (t.connections k).decisions,
      (d = .accept ↔ (t.connections k).returned = some true) := by
  have h := inv_run hrun
  refine ⟨h.once, fun c hc => (h.called c hc).2, fun later u hlater node q hq => ?_, fun k => ?_⟩
  · refine run_invariant (I := fun u => ∃ q', u.lastSequences node = some q' ∧ q ≤ q')
      (fun _ _ _ hs hstep => ?_) ⟨q, hq, le_rfl⟩ hlater
    obtain ⟨q', hq', hle⟩ := hs
    obtain ⟨q'', hq'', hle'⟩ := last_mono (goes_of_system hstep) hq'
    exact ⟨q'', hq'', hle.trans hle'⟩
  · have hdecided := (h.connection k).decided
    rw [Connection.Decided] at hdecided
    split at hdecided
    · rcases hdecided with ⟨hd, hr⟩ | ⟨reason, hd, hr⟩
      · rw [hd]
        refine ⟨le_rfl, fun d hmem => ?_⟩
        rw [List.mem_singleton.1 hmem]
        exact iff_of_true rfl hr
      · rw [hd]
        refine ⟨le_rfl, fun d hmem => ?_⟩
        rw [List.mem_singleton.1 hmem]
        exact iff_of_false (fun h => by cases h) hr
    · rw [hdecided.1]
      exact ⟨Nat.zero_le _, fun d hmem => (by cases hmem)⟩
    · rw [hdecided.1]
      exact ⟨Nat.zero_le _, fun d hmem => (by cases hmem)⟩

/-! ### The order of the chain -/

/-- No call appends while another connection of its node waits with a smaller number. -/
def InOrder (s : State) : Step → Prop
  | .go k .appended => ∀ e ∈ (s.connections k).phase.waiting?, ∀ j < s.accepted,
    ∀ e' ∈ (s.connections j).phase.waiting?, e'.nodeId = e.nodeId → e.sequenceNumber ≤ e'.sequenceNumber
  | _ => True

instance decidableInOrder (s : State) : ∀ step, Decidable (InOrder s step)
  | .go k .appended => inferInstanceAs (Decidable (∀ e ∈ (s.connections k).phase.waiting?,
    ∀ j < s.accepted, ∀ e' ∈ (s.connections j).phase.waiting?, _ → _))
  | .go _ .done | .go _ .handshakeFailed | .go _ (.certificate _) | .go _ (.received _)
  | .go _ .timeout | .go _ .osError | .go _ .returned | .go _ .raised | .reload _ | .accept =>
    inferInstanceAs (Decidable True)

/-- The sequence numbers of a node's records, in the order of the chain. -/
def numbersOf (chain : List CSIEvent) (node : Str) : List ℕ :=
  (chain.filter fun e => e.nodeId = node).map CSIEvent.sequenceNumber

/-- The records are in order, and every number that is waited for is above them. -/
structure State.Ordered (s : State) : Prop where
  sorted : ∀ node, (numbersOf s.chain node).Pairwise (· < ·)
  below : ∀ r ∈ s.chain, Below s.lastSequences r
  ahead : ∀ k e, (s.connections k).phase.waiting? = some e → ∀ r ∈ s.chain, r.nodeId = e.nodeId →
    r.sequenceNumber < e.sequenceNumber

/-- Every number that is waited for is above the records of its node, if that of the one that has
moved is. -/
theorem ahead_set {k : ℕ} {c : Connection} {chain : List CSIEvent}
    (hc : ∀ e, c.phase.waiting? = some e → ∀ r ∈ chain, r.nodeId = e.nodeId →
      r.sequenceNumber < e.sequenceNumber)
    (h : ∀ j, j ≠ k → ∀ e, (s.connections j).phase.waiting? = some e → ∀ r ∈ chain,
      r.nodeId = e.nodeId → r.sequenceNumber < e.sequenceNumber) :
    ∀ j e, ((s.set k c).connections j).phase.waiting? = some e → ∀ r ∈ chain,
      r.nodeId = e.nodeId → r.sequenceNumber < e.sequenceNumber :=
  forall_set (p := fun _ c => ∀ e, c.phase.waiting? = some e → ∀ r ∈ chain, r.nodeId = e.nodeId →
    r.sequenceNumber < e.sequenceNumber) hc h

/-- A record that is above all of its node keeps them in order. -/
theorem sorted_append {chain : List CSIEvent} {e : CSIEvent}
    (h : ∀ node, (numbersOf chain node).Pairwise (· < ·))
    (he : ∀ r ∈ chain, r.nodeId = e.nodeId → r.sequenceNumber < e.sequenceNumber) (node : Str) :
    (numbersOf (chain ++ [e]) node).Pairwise (· < ·) := by
  rw [numbersOf, List.filter_append, List.map_append, List.pairwise_append]
  refine ⟨h node, ?_, fun a ha b hb => ?_⟩
  · rw [List.filter_singleton]
    cases decide (e.nodeId = node) with
    | true => exact List.pairwise_singleton _ _
    | false => exact List.Pairwise.nil
  · obtain ⟨r, hr, rfl⟩ := List.mem_map.1 ha
    obtain ⟨e', he', rfl⟩ := List.mem_map.1 hb
    obtain ⟨hr, hnode⟩ := List.mem_filter.1 hr
    obtain ⟨he', hnode'⟩ := List.mem_filter.1 he'
    rw [List.mem_singleton.1 he'] at hnode' ⊢
    exact he r hr ((of_decide_eq_true hnode).trans (of_decide_eq_true hnode').symm)

/-- A step in order keeps the records of each node in order. -/
theorem State.Ordered.step {step : Step} (hs : s.Inv) (h : s.Ordered) (hok : InOrder s step)
    (ht : Goes s step t) : t.Ordered := by
  cases ht with
  | reload => exact ⟨h.sorted, h.below, h.ahead⟩
  | accept =>
    have hset : ({ s with accepted := s.accepted + 1 }.set s.accepted .new).connections =
        s.connections := by
      rw [← hs.fresh s.accepted le_rfl]
      exact Function.update_eq_self _ _
    refine ⟨h.sorted, h.below, ?_⟩
    rw [hset]
    exact h.ahead
  | quiet hk hc =>
    exact ⟨h.sorted, h.below, ahead_set (fun e he => nomatch hc.waiting.symm.trans he) fun j _ =>
      h.ahead j⟩
  | @reserve k reply name event hk hphase hreplay =>
    have hmatched : event.nodeId = name := (hs.connection k).matched name event (by rw [hphase]; rfl)
    refine ⟨h.sorted, fun r hr => (h.below r hr).update hreplay, ahead_set (fun e he r hr hnode => ?_)
      fun j _ => h.ahead j⟩
    cases he
    obtain ⟨q, hq, hle⟩ := h.below r hr
    exact lt_of_le_of_lt hle (hreplay q (by rw [← hmatched, ← hnode]; exact hq))
  | @call k reply name event hk hphase =>
    refine ⟨h.sorted, h.below, ahead_set (fun e he => ?_) fun j _ => h.ahead j⟩
    cases he
    exact h.ahead k event (by rw [hphase]; rfl)
  | @append k name event hk hphase =>
    have hwaiting : (s.connections k).phase.waiting? = some event := by rw [hphase]; rfl
    refine ⟨sorted_append h.sorted (h.ahead k event hwaiting), fun r hr => ?_,
      ahead_set (fun e he => nomatch he) fun j hj e he r hr hnode => ?_⟩
    · rcases List.mem_append.1 hr with hr | hr
      · exact h.below r hr
      · exact List.mem_singleton.1 hr ▸ hs.waiting k event hwaiting
    · rcases List.mem_append.1 hr with hr | hr
      · exact h.ahead j e he r hr hnode
      · rw [List.mem_singleton.1 hr] at hnode ⊢
        have haccepted : j < s.accepted := by
          by_contra hle
          rw [hs.fresh j (Nat.not_lt.1 hle)] at he
          cases he
        refine lt_of_le_of_ne (hok event hwaiting j haccepted e he hnode.symm) fun hseq => ?_
        exact hs.distinct k j event e (Ne.symm hj) hwaiting he (Prod.ext hnode hseq)

/-- **The chain keeps the order of a node's numbers** where no call appends while another
connection of the node waits with a smaller number. -/
theorem chain_order {nodes : List Str} {steps : List Step}
    (hrun : run (system limit) (State.initial nodes) steps = some t)
    (hok : Meets (system limit) InOrder (State.initial nodes) steps) (node : Str) :
    (numbersOf t.chain node).Pairwise (· < ·) := by
  have hinitial : (State.initial nodes).Ordered :=
    ⟨fun _ => List.Pairwise.nil, fun _ hr => (nomatch hr), fun _ _ he => nomatch he⟩
  exact (run_induction (I := fun s : State => s.Inv ∧ s.Ordered)
    (fun _ _ _ hs hok ht => ⟨hs.1.step (goes_of_system ht), hs.2.step hs.1 hok (goes_of_system ht)⟩)
    ⟨inv_initial nodes, hinitial⟩ hok hrun).2.sorted node

section

/-- The line that a node sends. -/
def sampleLine (sequenceNumber : String) : List UInt8 :=
  utf8 ("\x7b\x22schema_version\x22:\x220.1\x22,\x22node_id\x22:\x22n\x22,".toList ++
    "\x22timestamp_utc\x22:\x222026-07-01T12:00:00Z\x22,\x22csi_window_sha256\x22:\x22".toList ++
    List.replicate 64 'a' ++ "\x22,\x22sequence_number\x22:".toList ++ sequenceNumber.toList ++
    "\x7d\n".toList)

/-- A connection of the node up to its reservation. -/
def reserves (k : ℕ) (sequenceNumber : String) : List Step :=
  [.accept, .go k .done, .go k (.certificate [lit "n"]), .go k .done,
    .go k (.received [sampleLine sequenceNumber]), .go k .done, .go k .done]

/-- A connection whose event is logged, and one that replays its number. -/
def replaySteps : List Step :=
  reserves 0 "1" ++ [.go 0 .done, .go 0 .appended, .go 0 .returned, .go 0 .done] ++ reserves 1 "1" ++
    [.go 1 .done]

/-- The replay of the sample makes no second call. -/
theorem ingest_at_most_once_replayed : ∃ t,
    run (system 65536) (State.initial [lit "n"]) replaySteps = some t ∧ t.calls.length = 1 ∧
    (t.calls.map fun c => (c.2.nodeId, c.2.sequenceNumber)).Nodup ∧
    ∀ k, ∀ d ∈ (t.connections k).decisions,
      (d = .accept ↔ (t.connections k).returned = some true) := by
  have hrun : (run (system 65536) (State.initial [lit "n"]) replaySteps).any (fun t =>
      t.calls.length = 1) = true := by
    decide +kernel
  obtain ⟨t, ht, hcalls⟩ := (Option.any_eq_true _ _).1 hrun
  obtain ⟨honce, -, -, hdecided⟩ := ingest_at_most_once ht
  exact ⟨t, ht, of_decide_eq_true hcalls, honce, fun k => (hdecided k).2⟩

/-- Two connections of a node that append in the order of their reservations. -/
def orderedSteps : List Step :=
  reserves 0 "1" ++ reserves 1 "2" ++ [.go 0 .done, .go 0 .appended, .go 1 .done, .go 1 .appended]

/-- The records of the sample are in the order of their reservations. -/
theorem chain_order_reserved : ∃ t,
    run (system 65536) (State.initial [lit "n"]) orderedSteps = some t ∧
    (numbersOf t.chain (lit "n")).Pairwise (· < ·) := by
  have hrun : (run (system 65536) (State.initial [lit "n"]) orderedSteps).isSome = true := by
    decide +kernel
  obtain ⟨t, ht⟩ := Option.isSome_iff_exists.1 hrun
  exact ⟨t, ht, chain_order ht (by decide +kernel) (lit "n")⟩

/-- Two connections of a node that append in the other order. -/
def overtakingSteps : List Step :=
  reserves 0 "1" ++ reserves 1 "2" ++ [.go 0 .done, .go 1 .done, .go 1 .appended, .go 0 .appended]

/-- **The records of a node can be out of order**: the second number is appended while the
first one waits. -/
theorem chain_out_of_order : ¬ ∀ (steps : List Step) (t : State),
    run (system 65536) (State.initial [lit "n"]) steps = some t →
      ∀ node, (numbersOf t.chain node).Pairwise (· < ·) := by
  intro h
  have hrun : (run (system 65536) (State.initial [lit "n"]) overtakingSteps).any (fun t =>
      numbersOf t.chain (lit "n") = [2, 1]) = true := by
    decide +kernel
  obtain ⟨t, ht, hnumbers⟩ := (Option.any_eq_true _ _).1 hrun
  have hsorted := h overtakingSteps t ht (lit "n")
  rw [of_decide_eq_true hnumbers] at hsorted
  exact absurd hsorted (by decide)

end

end Ingest
end Collector
end Vestrix
