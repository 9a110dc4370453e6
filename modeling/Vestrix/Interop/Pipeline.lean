/-
# The collector and its log

The handlers of `server.py` with the adapter of `forensics.py` for `event_logger`: a call of it is a call of
`log_event` on the store of the collector.  Every interleaving of the handlers, of reloads and of calls that
raise is a run of this system; a write stores all of its line or nothing, and may raise in both cases.

What is in the store after any run is what the calls stored: the records are the events of authenticated
connections, one for each at most, in the order in which their lines were stored, and every accepted event
is among them (`collected`).  An event that is logged need not be accepted, because a call that raises after
its line was stored is a refusal.  `verify_chain` accepts such a store, and `verify_reader` does if the
timestamps are ASCII.
-/

import Vestrix.Collector.Sequence
import Vestrix.Forensics.Records
import Vestrix.Forensics.Unforgeable
import Vestrix.Interop.Ingestion

namespace Vestrix
namespace Interop
namespace Pipeline

open Text Rounding Json Outcome Record Transition
open Collector (CSIEvent forensicEvent)
open Collector.Ingest (Connection Phase Reply)

/-- The collector, the file that it logs to, and the events whose calls have stored their line, in order. -/
structure State where
  collector : Collector.Ingest.State
  store : Forensics.Store
  stored : List CSIEvent

/-- What can happen next: a step of the collector, and the ends of a call of `event_logger`, which is
refused before it gets to `log_event`, calls that, or returns. -/
inductive Step where
  | collector (step : Collector.Ingest.Step)
  | refuse (k : ℕ)
  | log (k : ℕ) (write : Forensics.WriteResult)
  | finish (k : ℕ)
deriving DecidableEq

/-- A handler is in its call of `event_logger`. -/
def inCall : Phase → Bool
  | .calling _ _ => true
  | .appended _ _ => true
  | _ => false

/-- The event of a call of `event_logger` that has not appended it. -/
def calling? : Phase → Option CSIEvent
  | .calling _ event => some event
  | _ => none

/-- The step is one of a handler in its call. -/
def ofCall (s : Collector.Ingest.State) : Collector.Ingest.Step → Bool
  | .go k _ => inCall (s.connections k).phase
  | _ => false

section

variable (sha256 : Sha256) (signer : Forensics.Signer) (limit : ℕ)

/-- A step of the collector alone. -/
def move (s : State) (step : Collector.Ingest.Step) : Option State :=
  (Collector.Ingest.system limit s.collector step).map fun collector => { s with collector := collector }

/-- The state after a call of `log_event` for an event.  The event counts as stored if the file has changed. -/
def State.afterLog (s : State) (event : CSIEvent) (store : Forensics.Store) : State :=
  { s with
    store := store
    stored := if store.getD [] = s.store.getD [] then s.stored else s.stored ++ [event] }

/-- A call of `log_event`, and what the handler goes on with. -/
def logStep (s : State) (k : ℕ) (write : Forensics.WriteResult) (event : CSIEvent) : Option State :=
  match Forensics.logEvent sha256 signer write (.object (forensicEvent event)) s.store with
  | (.ok _, store) => move limit (s.afterLog event store) (.go k .appended)
  | (.error _, store) => move limit (s.afterLog event store) (.go k .raised)

/-- The collector with its log. -/
def system (s : State) : Step → Option State
  | .collector step => if ofCall s.collector step = true then none else move limit s step
  | .refuse k =>
    match (s.collector.connections k).phase with
    | .calling _ _ => move limit s (.go k .raised)
    | _ => none
  | .log k write =>
    match (s.collector.connections k).phase with
    | .calling _ event => logStep sha256 signer limit s k write event
    | _ => none
  | .finish k =>
    match (s.collector.connections k).phase with
    | .appended _ _ => move limit s (.go k .returned)
    | _ => none

/-- A write stores all of its line or nothing.  It may raise although it has stored the line, as when `os.fsync`
fails. -/
def Whole (s : State) : Step → Prop
  | .log k write => ∀ event ∈ calling? (s.collector.connections k).phase,
      (Forensics.logEvent sha256 signer write (.object (forensicEvent event)) s.store).2.getD [] =
          s.store.getD [] ∨
        (Forensics.logEvent sha256 signer write (.object (forensicEvent event)) s.store).2 =
          (Forensics.logEvent sha256 signer .done (.object (forensicEvent event)) s.store).2
  | _ => True

instance (s : State) : ∀ step, Decidable (Whole sha256 signer s step)
  | .collector _ | .refuse _ | .finish _ => inferInstanceAs (Decidable True)
  | .log _ _ => inferInstanceAs (Decidable (∀ event ∈ calling? _, _ ∨ _))

end

/-- A collector that has just started, and an empty log. -/
def State.initial (nodes : List Str) : State := ⟨.initial nodes, none, []⟩

/-! ### What can happen -/

variable {sha256 : Sha256} {signer : Forensics.Signer} {limit : ℕ} {s t : State}

/-- Every way that the system goes on.  The bytes of the store are what counts of it. -/
inductive Moves (sha256 : Sha256) (signer : Forensics.Signer) (s : State) : State → Prop where
  | collector {step : Collector.Ingest.Step} {collector : Collector.Ingest.State}
      (hgoes : Collector.Ingest.Goes s.collector step collector) (hcall : ofCall s.collector step = false) :
      Moves sha256 signer s { s with collector := collector }
  | refuse {k : ℕ} {name : Str} {event : CSIEvent} {store : Forensics.Store}
      (hk : k < s.collector.accepted) (hphase : (s.collector.connections k).phase = .calling name event)
      (hstore : store.getD [] = s.store.getD []) :
      Moves sha256 signer s ⟨s.collector.set k { s.collector.connections k with
        phase := .refusing .forensicsHandoffFailed, returned := some false }, store, s.stored⟩
  | keep {k : ℕ} {name : Str} {event : CSIEvent} {record : Python.Dict} {store : Forensics.Store}
      (hk : k < s.collector.accepted) (hphase : (s.collector.connections k).phase = .calling name event)
      (hlog : Forensics.logEvent sha256 signer .done (.object (forensicEvent event)) s.store =
        (.ok record, store)) :
      Moves sha256 signer s ⟨s.collector.set k { s.collector.connections k with
        phase := .refusing .forensicsHandoffFailed, returned := some false }, store, s.stored ++ [event]⟩
  | append {k : ℕ} {name : Str} {event : CSIEvent} {record : Python.Dict} {store : Forensics.Store}
      (hk : k < s.collector.accepted) (hphase : (s.collector.connections k).phase = .calling name event)
      (hlog : Forensics.logEvent sha256 signer .done (.object (forensicEvent event)) s.store =
        (.ok record, store)) :
      Moves sha256 signer s ⟨{ s.collector with chain := s.collector.chain ++ [event] }.set k
        { s.collector.connections k with phase := .appended name event }, store, s.stored ++ [event]⟩
  | finish {k : ℕ} {name : Str} {event : CSIEvent} (hk : k < s.collector.accepted)
      (hphase : (s.collector.connections k).phase = .appended name event) :
      Moves sha256 signer s ⟨s.collector.set k { s.collector.connections k with
        phase := .returned name event, returned := some true }, s.store, s.stored⟩

/-- A step of the collector alone leaves the store. -/
theorem move_eq_some {step : Collector.Ingest.Step} : move limit s step = some t ↔
    ∃ collector, Collector.Ingest.system limit s.collector step = some collector ∧
      t = { s with collector := collector } := by
  rw [move, Option.map_eq_some_iff]
  simp only [eq_comm]

/-- A handler goes on with a reply, and the store is changed where its call writes a line. -/
theorem go_eq_some {k : ℕ} {reply : Reply} : move limit s (.go k reply) = some t ↔
    k < s.collector.accepted ∧ ∃ collector,
      Collector.Ingest.handlerStep limit s.collector k reply = some collector ∧
        t = { s with collector := collector } := by
  rw [move_eq_some, Collector.Ingest.system]
  split_ifs with hk
  · simp only [hk, true_and]
  · simp only [hk, false_and, iff_false]
    rintro ⟨_, h, -⟩

/-- A handler that calls `log_event` waits for it to append, and refuses its connection if it raises. -/
theorem handlerStep_calling {s : Collector.Ingest.State} {k : ℕ} {name : Str} {event : CSIEvent}
    (hphase : (s.connections k).phase = .calling name event) :
    Collector.Ingest.handlerStep limit s k .raised = some (s.set k { s.connections k with
        phase := .refusing .forensicsHandoffFailed, returned := some false }) ∧
      Collector.Ingest.handlerStep limit s k .appended =
        some ({ s with chain := s.chain ++ [event] }.set k { s.connections k with
          phase := .appended name event }) := by
  constructor <;> rw [Collector.Ingest.handlerStep.eq_def] <;> dsimp only <;> rw [hphase]

/-- A handler whose event is appended goes on when `log_event` returns. -/
theorem handlerStep_appended {s : Collector.Ingest.State} {k : ℕ} {name : Str} {event : CSIEvent}
    (hphase : (s.connections k).phase = .appended name event) :
    Collector.Ingest.handlerStep limit s k .returned = some (s.set k { s.connections k with
      phase := .returned name event, returned := some true }) := by
  rw [Collector.Ingest.handlerStep.eq_def]
  dsimp only
  rw [hphase]

/-- A call that raises leaves the bytes of the store, or leaves the store that it would have left had it
returned. -/
theorem store_of_raised {k : ℕ} {write : Forensics.WriteResult} {name : Str} {event : CSIEvent}
    {store : Forensics.Store} {e : Forensics.Exc} (hwhole : Whole sha256 signer s (.log k write))
    (hphase : (s.collector.connections k).phase = .calling name event)
    (h : Forensics.logEvent sha256 signer write (.object (forensicEvent event)) s.store = (.error e, store)) :
    store.getD [] = s.store.getD [] ∨
      ∃ record, Forensics.logEvent sha256 signer .done (.object (forensicEvent event)) s.store =
        (.ok record, store) := by
  have hwhole : store.getD [] = s.store.getD [] ∨
      store = (Forensics.logEvent sha256 signer .done (.object (forensicEvent event)) s.store).2 := by
    have := hwhole event (by rw [hphase]; rfl)
    rwa [h] at this
  obtain hstore | hstore := hwhole
  · exact Or.inl hstore
  cases hprepare : Forensics.prepare sha256 signer (.object (forensicEvent event)) s.store with
  | error e =>
    rw [Forensics.logEvent, hprepare] at h
    exact Or.inl (by rw [← (Prod.mk.inj h).2])
  | ok prepared =>
    obtain ⟨record, line⟩ := prepared
    rw [Forensics.logEvent_of_prepare hprepare] at hstore ⊢
    exact Or.inr ⟨record, by rw [if_pos rfl, hstore]⟩

/-- An event whose call has returned, or would have, is stored. -/
theorem afterLog_of_done {event : CSIEvent} {record : Python.Dict} {store : Forensics.Store}
    (h : Forensics.logEvent sha256 signer .done (.object (forensicEvent event)) s.store = (.ok record, store)) :
    s.afterLog event store = ⟨s.collector, store, s.stored ++ [event]⟩ := by
  obtain ⟨-, -, -, -, encoded, -, -, rfl, -⟩ := Forensics.logEvent_reads (distinctKeys_forensicEvent event) h
  have hne : s.store.getD [] ++ (encoded ++ [lineFeed]) ≠ s.store.getD [] := by
    rw [Ne, List.append_right_eq_self]
    exact List.append_ne_nil_of_right_ne_nil _ (List.cons_ne_nil _ _)
  rw [State.afterLog, Option.getD_some, if_neg hne]

/-- An event whose call has stored nothing is not among the stored ones. -/
theorem afterLog_of_eq {event : CSIEvent} {store : Forensics.Store} (h : store.getD [] = s.store.getD []) :
    s.afterLog event store = ⟨s.collector, store, s.stored⟩ := by
  rw [State.afterLog, if_pos h]

/-- **A step of the system is one of those** that `Moves` lists. -/
theorem moves_of_system {step : Step} (hok : Whole sha256 signer s step)
    (h : system sha256 signer limit s step = some t) : Moves sha256 signer s t := by
  cases step with
  | collector step =>
    rw [system] at h
    split_ifs at h with hcall
    obtain ⟨collector, hstep, rfl⟩ := move_eq_some.1 h
    exact .collector (Collector.Ingest.goes_of_system hstep) (Bool.eq_false_iff.2 hcall)
  | refuse k =>
    rw [system] at h
    split at h
    · rename_i name event hphase
      obtain ⟨hk, collector, hstep, rfl⟩ := go_eq_some.1 h
      rw [(handlerStep_calling hphase).1] at hstep
      cases hstep
      exact .refuse hk hphase rfl
    · cases h
  | log k write =>
    rw [system] at h
    split at h
    · rename_i name event hphase
      rw [logStep] at h
      split at h
      · rename_i record store hlog
        obtain rfl := Forensics.write_eq_done hlog
        rw [afterLog_of_done hlog] at h
        obtain ⟨hk, collector, hstep, rfl⟩ := go_eq_some.1 h
        rw [(handlerStep_calling hphase).2] at hstep
        cases hstep
        exact .append hk hphase hlog
      · rename_i e store hlog
        -- the line may be in the store although the call has raised
        rcases store_of_raised hok hphase hlog with hstore | ⟨record, hdone⟩
        · rw [afterLog_of_eq hstore] at h
          obtain ⟨hk, collector, hstep, rfl⟩ := go_eq_some.1 h
          rw [(handlerStep_calling hphase).1] at hstep
          cases hstep
          exact .refuse hk hphase hstore
        · rw [afterLog_of_done hdone] at h
          obtain ⟨hk, collector, hstep, rfl⟩ := go_eq_some.1 h
          rw [(handlerStep_calling hphase).1] at hstep
          cases hstep
          exact .keep hk hphase hdone
    · cases h
  | finish k =>
    rw [system] at h
    split at h
    · rename_i name event hphase
      obtain ⟨hk, collector, hstep, rfl⟩ := go_eq_some.1 h
      rw [handlerStep_appended hphase] at hstep
      cases hstep
      exact .finish hk hphase
    · cases h

/-! ### What was accepted -/

/-- A handler is past its call of `event_logger`, or does not get there. -/
def past : Phase → Bool
  | .appended _ _ => true
  | .returned _ _ => true
  | .refusing _ => true
  | .done => true
  | _ => false

/-- The event that a handler has appended, until it is answered. -/
def logged? : Phase → Option CSIEvent
  | .appended _ event => some event
  | .returned _ event => some event
  | _ => none

/-- What is true of the connections, with the calls, the events that they have appended and the stored ones. -/
structure Handled (connections : ℕ → Connection) (calls : List (ℕ × CSIEvent)) (chain stored : List CSIEvent) :
    Prop where
  calling : ∀ k name event, (connections k).phase = .calling name event → (k, event) ∈ calls
  logged : ∀ k event, logged? (connections k).phase = some event → (k, event) ∈ calls ∧ event ∈ chain
  accepted : ∀ k, .accept ∈ (connections k).decisions → ∃ event, (k, event) ∈ calls ∧ event ∈ chain
  appended : chain.Sublist stored
  source : ∀ event ∈ stored, ∃ k, (k, event) ∈ calls ∧ past (connections k).phase = true
  once : (stored.map Collector.Ingest.CSIEvent.number).Nodup

variable {connections : ℕ → Connection} {calls : List (ℕ × CSIEvent)} {chain chain' stored stored' : List CSIEvent}
  {k : ℕ} {c : Connection}

/-- One connection goes on, and may have appended or stored its event. -/
theorem Handled.grow (h : Handled connections calls chain stored)
    (hcalling : ∀ name event, c.phase = .calling name event → (k, event) ∈ calls)
    (hlogged : ∀ event, logged? c.phase = some event → (k, event) ∈ calls ∧ event ∈ chain')
    (haccepted : .accept ∈ c.decisions → ∃ event, (k, event) ∈ calls ∧ event ∈ chain')
    (hpast : past (connections k).phase = true → past c.phase = true) (hmore : ∀ event ∈ chain, event ∈ chain')
    (happended : chain'.Sublist stored')
    (hsource : ∀ event ∈ stored', event ∈ stored ∨ (k, event) ∈ calls ∧ past c.phase = true)
    (honce : (stored'.map Collector.Ingest.CSIEvent.number).Nodup) :
    Handled (Function.update connections k c) calls chain' stored' := by
  have hself : Function.update connections k c k = c := Function.update_self ..
  have hother : ∀ {j}, j ≠ k → Function.update connections k c j = connections j := fun hj =>
    Function.update_of_ne hj ..
  refine ⟨fun j name event hj => ?_, fun j event hj => ?_, fun j hj => ?_, happended,
    fun event hevent => ?_, honce⟩
  · by_cases hjk : j = k
    · subst hjk
      exact hcalling name event (hself ▸ hj)
    · exact h.calling j name event (hother hjk ▸ hj)
  · by_cases hjk : j = k
    · subst hjk
      exact hlogged event (hself ▸ hj)
    · exact (h.logged j event (hother hjk ▸ hj)).imp_right (hmore event)
  · by_cases hjk : j = k
    · subst hjk
      exact haccepted (hself ▸ hj)
    · exact (h.accepted j (hother hjk ▸ hj)).imp fun event hevent => hevent.imp_right (hmore event)
  · rcases hsource event hevent with hevent | ⟨hcall, hc⟩
    · obtain ⟨j, hcall, hj⟩ := h.source event hevent
      refine ⟨j, hcall, ?_⟩
      by_cases hjk : j = k
      · subst hjk
        rw [hself]
        exact hpast hj
      · rw [hother hjk]
        exact hj
    · exact ⟨k, hcall, by rw [hself]; exact hc⟩

/-- If one connection goes on as it should, then all connections are as they should be. -/
theorem Handled.update (h : Handled connections calls chain stored)
    (hcalling : ∀ name event, c.phase = .calling name event → (k, event) ∈ calls)
    (hlogged : ∀ event, logged? c.phase = some event → (k, event) ∈ calls ∧ event ∈ chain)
    (haccepted : .accept ∈ c.decisions → ∃ event, (k, event) ∈ calls ∧ event ∈ chain)
    (hpast : past (connections k).phase = true → past c.phase = true) :
    Handled (Function.update connections k c) calls chain stored :=
  h.grow hcalling hlogged haccepted hpast (fun _ he => he) h.appended (fun _ he => Or.inl he) h.once

/-- A handler that is not in its call, and what the others see nothing of. -/
theorem quiet_outside {s : Collector.Ingest.State} (hc : Collector.Ingest.Quiet s k c)
    (hcall : inCall (s.connections k).phase = false) :
    logged? c.phase = none ∧ (past (s.connections k).phase = true → past c.phase = true) ∧
      (.accept ∈ c.decisions → .accept ∈ (s.connections k).decisions ∨
        ∃ event, logged? (s.connections k).phase = some event) := by
  cases hc with
  | finish hphase | raise hphase =>
    rcases hphase with hphase | hphase <;> rw [hphase] at hcall <;> cases hcall
  | accept hphase => exact ⟨rfl, fun _ => rfl, fun _ => Or.inr ⟨_, by rw [hphase]; rfl⟩⟩
  | reject hphase => exact ⟨rfl, fun _ => rfl, fun h => Or.inl (by simpa using h)⟩
  | refuse => exact ⟨rfl, fun _ => rfl, Or.inl⟩
  | _ => exact ⟨rfl, fun h => (by simp_all [past]), Or.inl⟩

/-- **A step of the collector outside of a call keeps** what is stored and what has been appended in
agreement. -/
theorem Handled.goes {s t : Collector.Ingest.State} {step : Collector.Ingest.Step}
    (h : Handled s.connections s.calls s.chain stored) (hinv : s.Inv) (hgoes : Collector.Ingest.Goes s step t)
    (hcall : ofCall s step = false) : Handled t.connections t.calls t.chain stored := by
  cases hgoes with
  | reload => exact h
  | accept =>
    have hset : Function.update s.connections s.accepted .new = s.connections := by
      rw [← hinv.fresh s.accepted le_rfl]
      exact Function.update_eq_self _ _
    show Handled (Function.update s.connections s.accepted .new) s.calls s.chain stored
    rw [hset]
    exact h
  | @quiet k reply c hk hc =>
    obtain ⟨hlogged, hpast, haccepted⟩ := quiet_outside hc hcall
    refine h.update (fun name event hp => ?_) (fun event hp => ?_) (fun hd => ?_) hpast
    · have hwaiting := hc.waiting
      rw [hp] at hwaiting
      cases hwaiting
    · rw [hlogged] at hp
      cases hp
    · rcases haccepted hd with hd | ⟨event, hevent⟩
      · exact h.accepted k hd
      · exact ⟨event, h.logged k event hevent⟩
  | @reserve k reply name event hk hphase _ =>
    refine h.update (fun _ _ hp => (by cases hp)) (fun _ hp => (by cases hp)) (h.accepted k) fun hp => ?_
    rw [hphase] at hp
    cases hp
  | @call k reply name event hk hphase =>
    have hmore : ∀ {e}, e ∈ s.calls → e ∈ s.calls ++ [(k, event)] := fun he => List.mem_append_left _ he
    have hgrown : Handled s.connections (s.calls ++ [(k, event)]) s.chain stored :=
      ⟨fun j n e hj => hmore (h.calling j n e hj), fun j e hj => (h.logged j e hj).imp_left hmore,
        fun j hj => (h.accepted j hj).imp fun _ he => he.imp_left hmore, h.appended,
        fun e he => (h.source e he).imp fun _ hj => hj.imp_left hmore, h.once⟩
    refine hgrown.update (fun _ _ hp => ?_) (fun _ hp => (by cases hp)) (hgrown.accepted k) fun hp => ?_
    · cases hp
      exact List.mem_append_right _ (List.mem_singleton_self _)
    · rw [hphase] at hp
      cases hp
  | append hk hphase =>
    rw [ofCall, hphase] at hcall
    cases hcall

/-- A handler whose call does not return, and stores nothing. -/
theorem Handled.refuse (h : Handled connections calls chain stored) {returned : Option Bool}
    {reason : Collector.Ingest.Reason} :
    Handled (Function.update connections k { connections k with phase := .refusing reason, returned := returned })
      calls chain stored :=
  h.update (fun _ _ hp => (by cases hp)) (fun _ hp => (by cases hp)) (h.accepted k) fun _ => rfl

/-- A handler whose call returns has its event among those that are appended. -/
theorem Handled.finish (h : Handled connections calls chain stored) {name : Str} {event : CSIEvent}
    {returned : Option Bool} (hphase : (connections k).phase = .appended name event) :
    Handled (Function.update connections k
      { connections k with phase := .returned name event, returned := returned }) calls chain stored := by
  refine h.update (fun _ _ hp => (by cases hp)) (fun e hp => ?_) (h.accepted k) fun _ => rfl
  exact h.logged k e (by rw [hphase]; exact hp)

/-- An event of a call that has not ended has a number that no stored event has. -/
theorem Handled.nodup (h : Handled connections calls chain stored) {name : Str} {event : CSIEvent}
    (hphase : (connections k).phase = .calling name event)
    (honce : (calls.map fun c => Collector.Ingest.CSIEvent.number c.2).Nodup) :
    ((stored ++ [event]).map Collector.Ingest.CSIEvent.number).Nodup := by
  have hmem := h.calling k name event hphase
  have hnew : Collector.Ingest.CSIEvent.number event ∉ stored.map Collector.Ingest.CSIEvent.number := by
    intro hold
    obtain ⟨e, he, hnumber⟩ := List.mem_map.1 hold
    obtain ⟨j, hcall, hpast⟩ := h.source e he
    -- the number was handed to `event_logger` once, so that it is the same call
    have hsame : ((j, e) : ℕ × CSIEvent) = (k, event) := List.inj_on_of_nodup_map honce hcall hmem hnumber
    rw [(Prod.mk.inj hsame).1, hphase] at hpast
    cases hpast
  rw [List.map_append]
  refine h.once.append (List.nodup_singleton _) fun n hn hn' => ?_
  rw [List.map_singleton, List.mem_singleton] at hn'
  exact hnew (hn' ▸ hn)

/-- The stored events, with that of a call which is over now. -/
theorem Handled.source_append (h : Handled connections calls chain stored) {name : Str} {event e : CSIEvent}
    (hphase : (connections k).phase = .calling name event) (he : e ∈ stored ++ [event]) :
    e ∈ stored ∨ (k, e) ∈ calls := by
  refine (List.mem_append.1 he).imp_right fun he => ?_
  rw [List.mem_singleton.1 he]
  exact h.calling k name event hphase

/-- **A handler whose line is stored by a call that raises.** -/
theorem Handled.keep (h : Handled connections calls chain stored) {name : Str} {event : CSIEvent}
    {returned : Option Bool} {reason : Collector.Ingest.Reason}
    (hphase : (connections k).phase = .calling name event)
    (honce : (calls.map fun c => Collector.Ingest.CSIEvent.number c.2).Nodup) :
    Handled (Function.update connections k { connections k with phase := .refusing reason, returned := returned })
      calls chain (stored ++ [event]) :=
  h.grow (fun _ _ hp => (by cases hp)) (fun _ hp => (by cases hp)) (h.accepted k) (fun _ => rfl)
    (fun _ he => he) (h.appended.trans (List.sublist_append_left _ _))
    (fun _ he => (h.source_append hphase he).imp_right fun hcall => ⟨hcall, rfl⟩) (h.nodup hphase honce)

/-- **A handler whose event is appended** adds it to the chain and to what is stored. -/
theorem Handled.append (h : Handled connections calls chain stored) {name : Str} {event : CSIEvent}
    (hphase : (connections k).phase = .calling name event)
    (honce : (calls.map fun c => Collector.Ingest.CSIEvent.number c.2).Nodup) :
    Handled (Function.update connections k { connections k with phase := .appended name event }) calls
      (chain ++ [event]) (stored ++ [event]) := by
  have hmore : ∀ e ∈ chain, e ∈ chain ++ [event] := fun e he => List.mem_append_left _ he
  refine h.grow (fun _ _ hp => (by cases hp)) (fun e hp => ?_)
    (fun hd => (h.accepted k hd).imp fun e he => he.imp_right (hmore e)) (fun _ => rfl) hmore
    (h.appended.append_right _)
    (fun _ he => (h.source_append hphase he).imp_right fun hcall => ⟨hcall, rfl⟩) (h.nodup hphase honce)
  obtain rfl := Option.some.inj hp
  exact ⟨h.calling k name _ hphase, List.mem_append_right _ (List.mem_singleton_self _)⟩

/-! ### What was logged -/

/-- A record is that of an event: without the fields of the chain it is what the adapter makes of the event. -/
def IsRecordOf (record : Python.Dict) (event : CSIEvent) : Prop :=
  (Json.object (Forensics.eventOf record)).sorted = (Json.object (forensicEvent event)).sorted

variable {verify verifyStrict : List UInt8 → List UInt8 → Bool} {readFloat : Verifier.FloatReader}
  {store store' : Forensics.Store} {event : CSIEvent} {record : Python.Dict} {x : Forensics.Expected}
  {signedBytes encoded : List UInt8} {recordHash : Str} {p : Verifier.Progress}

/-- **The line of an event** is read as a record of the event with a signature that verifies. -/
theorem exists_entry
    (h : Forensics.Next sha256 signer store (forensicEvent event) record x signedBytes recordHash encoded)
    (hseq : x.seq < 2 ^ 63) (hhonest : Honest signer verify) (n : ℕ) :
    ∃ entry version, Forensics.checkLine sha256 n x (encoded ++ [lineFeed]) =
        .ok (entry, ⟨x.seq + 1, recordHash, version⟩) ∧
      IsRecordOf entry.record event ∧ Forensics.Signed verify entry := by
  have hd := distinctKeys_forensicEvent event
  obtain ⟨record', he⟩ : ∃ record', (Json.object record).sorted = .object record' := ⟨_, sorted_object record⟩
  refine ⟨_, _, h.checkLine hd hseq he n, ?_, ?_⟩
  · obtain ⟨shape, hshape, -⟩ := h.conforms
    obtain ⟨signature, -, -, hrecord⟩ := h.signed
    have hevent := sorted_filter (h.distinctKeys hd) he fun k => decide (k ∉ Forensics.managedFields)
    show (Json.object (Forensics.eventOf record')).sorted = _
    have happend : Forensics.eventOf (forensicEvent event ++
        Forensics.chainItems x.seq x.prevHash recordHash signature) = forensicEvent event :=
      Forensics.eventOf_append hshape.unmanaged
    rw [← happend, ← hrecord]
    exact hevent
  · obtain ⟨shape, hshape, -⟩ := h.conforms
    obtain ⟨signature, hsign, -, hrecord⟩ := h.signed
    have hkeys : (Python.Dict.keys record).Nodup := (forall_object.1 (h.distinctKeys hd)).1
    refine ⟨ofChars (hex signature), signature, ?_, ?_, hhonest _ _ hsign⟩
    · show Python.Dict.get? record' (lit "signature") = _
      rw [Python.Dict.get?, lookup_sorted hkeys he, ← Python.Dict.get?, hrecord,
        Forensics.get?_append hshape.unmanaged (by decide)]
      rfl
    · rw [scalars?_ofChars, Option.bind_some, fromHex_hex]

/-- **The verifier accepts the line of an event** just if its timestamp is ASCII. -/
theorem verifyLine_event
    (h : Forensics.Next sha256 signer store (forensicEvent event) record x signedBytes recordHash encoded)
    (hseq : x.seq < 2 ^ 63) (hagree : Agrees x p) (hhonest : Honest signer verifyStrict) :
    (∃ q, Verifier.verifyLine sha256 verifyStrict readFloat p (encoded ++ [lineFeed]) = .ok q) ↔
      Collector.Ingest.isAscii event.timestampUtc = true := by
  have hd := distinctKeys_forensicEvent event
  obtain ⟨shape, hshape, -, hconforms⟩ := h.conforms_record hseq
  obtain ⟨signature, -, -, hrecord⟩ := h.signed
  have hread : Readable readFloat (.object record) := by
    refine readable_of_atoms (Forensics.permitted_of_conforms (forall_object.1 (h.distinctKeys hd)).1
      hconforms) fun m hm => ?_
    rw [hrecord] at hm
    rcases List.mem_append.1 hm with hm | hm
    · exact forensicEvent_atoms event m hm
    · exact chainItems_atoms _ _ _ _ m hm
  have hts : record.get? (lit "ts_utc") = some (.atom (.str event.timestampUtc)) := by
    rw [hrecord]
    rfl
  have hfield : ("ts_utc".toList, Kind.timestamp) ∈ shape.recordFields := by
    cases shape <;> decide
  obtain ⟨v, hv, t, ht, s, hs, rfl⟩ := hconforms.field hfield
  obtain rfl := Option.some.inj (hv.symm.trans hts)
  have htime := Python.Atom.str.inj (Json.atom.inj (Forensics.eq_str ht))
  rw [verifyLine_next h hd hseq hagree hread hhonest, htime, ← isTimestampText_iff hs]
  constructor
  · exact fun haccepted => haccepted _ (hts.trans (by rw [htime]))
  · intro hknown t' ht'
    rw [hts, htime, Option.some.injEq, Json.atom.injEq, Python.Atom.str.injEq] at ht'
    exact ofChars_injective ht' ▸ hknown

/-- What is known of a store with the records of some events. -/
structure Logged (sha256 : Sha256) (verify verifyStrict : List UInt8 → List UInt8 → Bool)
    (readFloat : Verifier.FloatReader) (store : Forensics.Store) (chain : List CSIEvent) : Prop where
  reads : ∃ entries y, Forensics.Reads sha256 1 .first store.lines entries y ∧ y.seq = chain.length ∧
    List.Forall₂ (fun e event => IsRecordOf e.record event) entries chain ∧
    ∀ e ∈ entries, Forensics.Signed verify e
  accepted : (∃ q, Verifier.verifyLines sha256 verifyStrict readFloat .start store.lines = .ok q) ↔
    ∀ event ∈ chain, Collector.Ingest.isAscii event.timestampUtc = true

/-- What the store records depends on its bytes only. -/
theorem Logged.congr (h : Logged sha256 verify verifyStrict readFloat store chain)
    (hstore : store'.getD [] = store.getD []) : Logged sha256 verify verifyStrict readFloat store' chain := by
  have hlines : store'.lines = store.lines := by rw [Forensics.Store.lines, hstore, Forensics.Store.lines]
  exact ⟨hlines ▸ h.reads, hlines ▸ h.accepted⟩

/-- **One more event on the store is one more record**, which both verifiers accept. -/
theorem Logged.append (h : Logged sha256 verify verifyStrict readFloat store chain)
    (hlog : Forensics.logEvent sha256 signer .done (.object (forensicEvent event)) store = (.ok record, store'))
    (hlength : chain.length < 2 ^ 63) (hhonest : Honest signer verify) (hstrict : Honest signer verifyStrict) :
    Logged sha256 verify verifyStrict readFloat store' (chain ++ [event]) := by
  obtain ⟨d, x, signedBytes, recordHash, encoded, hevent, hnext, -, hlines⟩ :=
    Forensics.logEvent_reads (distinctKeys_forensicEvent event) hlog
  obtain rfl := Json.object.inj hevent
  obtain ⟨entries, y, hreads, hy, hrecords, hsigned⟩ := h.reads
  obtain ⟨entries', hreads'⟩ := hnext.reads
  obtain ⟨-, rfl⟩ := hreads.unique hreads'
  have hseq : y.seq < 2 ^ 63 := hy ▸ hlength
  refine ⟨?_, ?_⟩
  · obtain ⟨entry, version, hentry, hrecord, hsign⟩ :=
      exists_entry hnext hseq hhonest (1 + store.lines.length)
    refine ⟨entries ++ [entry], ⟨y.seq + 1, recordHash, version⟩, ?_, ?_,
      List.rel_append hrecords (.cons hrecord .nil), ?_⟩
    · rw [hlines hseq]
      exact hreads.append (.cons hentry .nil)
    · rw [List.length_append, List.length_singleton, ← hy]
    · exact List.forall_mem_append.2 ⟨hsigned, List.forall_mem_singleton.2 hsign⟩
  · rw [List.forall_mem_append, List.forall_mem_singleton, ← h.accepted, hlines hseq,
      Verifier.verifyLines_append]
    simp only [bind_eq_ok, Verifier.verifyLines_singleton]
    constructor
    · rintro ⟨q, r, hr, hq⟩
      have hagree : Agrees y r := Agrees.start.reads hreads hr
      exact ⟨⟨r, hr⟩, (verifyLine_event hnext hseq hagree hstrict).1 ⟨q, hq⟩⟩
    · rintro ⟨⟨r, hr⟩, hascii⟩
      have hagree : Agrees y r := Agrees.start.reads hreads hr
      obtain ⟨q, hq⟩ := (verifyLine_event hnext hseq hagree hstrict).2 hascii
      exact ⟨q, r, hr, hq⟩

/-- A missing store records nothing. -/
theorem logged_nil : Logged sha256 verify verifyStrict readFloat none [] where
  reads := ⟨[], .first, .nil, rfl, .nil, fun _ he => absurd he List.not_mem_nil⟩
  accepted := iff_of_true ⟨.start, rfl⟩ fun _ he => absurd he List.not_mem_nil

/-! ### A whole run -/

/-- What is true of the collector and its log. -/
structure Inv (sha256 : Sha256) (verify verifyStrict : List UInt8 → List UInt8 → Bool)
    (readFloat : Verifier.FloatReader) (s : State) : Prop where
  collector : s.collector.Inv
  handled : Handled s.collector.connections s.collector.calls s.collector.chain s.stored
  logged : s.stored.length ≤ 2 ^ 63 → Logged sha256 verify verifyStrict readFloat s.store s.stored

/-- At the beginning nothing is sent and nothing is stored. -/
theorem inv_initial (nodes : List Str) : Inv sha256 verify verifyStrict readFloat (.initial nodes) where
  collector := Collector.Ingest.inv_initial nodes
  handled := ⟨fun _ _ _ hp => (by cases hp), fun _ _ hp => (by cases hp), fun _ hd => (by cases hd),
    .refl _, fun _ he => (by cases he), List.nodup_nil⟩
  logged _ := logged_nil

/-- One more event on the store is one more record, up to the last sequence number. -/
theorem Inv.logged_append (h : Inv sha256 verify verifyStrict readFloat s)
    (hlog : Forensics.logEvent sha256 signer .done (.object (forensicEvent event)) s.store = (.ok record, store))
    (hhonest : Honest signer verify) (hstrict : Honest signer verifyStrict)
    (hlength : (s.stored ++ [event]).length ≤ 2 ^ 63) :
    Logged sha256 verify verifyStrict readFloat store (s.stored ++ [event]) := by
  rw [List.length_append, List.length_singleton] at hlength
  exact (h.logged (Nat.le_of_succ_le hlength)).append hlog hlength hhonest hstrict

/-- **Every step keeps the invariant.** -/
theorem Inv.moves (h : Inv sha256 verify verifyStrict readFloat s) (hhonest : Honest signer verify)
    (hstrict : Honest signer verifyStrict) (ht : Moves sha256 signer s t) :
    Inv sha256 verify verifyStrict readFloat t := by
  cases ht with
  | @collector step collector hgoes hcall =>
    exact ⟨h.collector.step hgoes, h.handled.goes h.collector hgoes hcall, h.logged⟩
  | @refuse k name event store hk hphase hstore =>
    have hgoes : Collector.Ingest.Goes s.collector (.go k .raised) _ := .quiet hk (.raise (Or.inl hphase))
    exact ⟨h.collector.step hgoes, h.handled.refuse, fun hlength => (h.logged hlength).congr hstore⟩
  | @keep k name event record store hk hphase hlog =>
    have hgoes : Collector.Ingest.Goes s.collector (.go k .raised) _ := .quiet hk (.raise (Or.inl hphase))
    exact ⟨h.collector.step hgoes, h.handled.keep hphase h.collector.once, h.logged_append hlog hhonest hstrict⟩
  | @append k name event record store hk hphase hlog =>
    have hgoes : Collector.Ingest.Goes s.collector (.go k .appended) _ := .append hk hphase
    exact ⟨h.collector.step hgoes, h.handled.append hphase h.collector.once,
      h.logged_append hlog hhonest hstrict⟩
  | @finish k name event hk hphase =>
    have hgoes : Collector.Ingest.Goes s.collector (.go k .returned) _ := .quiet hk (.finish (Or.inr hphase))
    exact ⟨h.collector.step hgoes, h.handled.finish hphase, h.logged⟩

/-- Every run whose calls store a whole line or nothing keeps the invariant. -/
theorem inv_run {nodes : List Str} {steps : List Step}
    (hwhole : Meets (system sha256 signer limit) (Whole sha256 signer) (.initial nodes) steps)
    (hhonest : Honest signer verify) (hstrict : Honest signer verifyStrict)
    (hrun : run (system sha256 signer limit) (.initial nodes) steps = some t) :
    Inv sha256 verify verifyStrict readFloat t :=
  run_induction (fun _ _ _ hs hok ht => hs.moves hhonest hstrict (moves_of_system hok ht)) (inv_initial nodes)
    hwhole hrun

/-- A connection of an enrolled node up to its call of `log_event`, and the rest of it. -/
def sampleConnection (k : ℕ) (line : List UInt8) (write : Forensics.WriteResult) (rest : List Step) : List Step :=
  [.collector .accept, .collector (.go k .done), .collector (.go k (.certificate [lit "node-1"])),
    .collector (.go k .done), .collector (.go k (.received [line])), .collector (.go k .done),
    .collector (.go k .done), .collector (.go k .done), .log k write] ++ rest ++ [.collector (.go k .done)]

/-- Two connections; the write of the second one stores its line, and then raises. -/
def sampleSteps : List Step :=
  sampleConnection 0 (sampleLine "2026-07-01T12:00:00Z" '7') .done [.finish 0] ++
    sampleConnection 1 (sampleLine "2026-07-01T12:00:01Z" '8') (.failed 1000) []

end Pipeline
end Interop
end Vestrix
