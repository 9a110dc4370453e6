/-
# Starting and closing the collector

`CollectorServer.start`, `_accept_loop` and `close` of `server.py`, around the handlers.  The event loop runs
one of its tasks at a time, up to its next await; handlers are threads, which can take a step between any
two.  A client whose `sock_accept` has returned waits for the accept task to go on: `close` cancels the
task, and then the client is dropped.

When `close` has returned no handler is left, whatever came between, and every client but the one it may
drop has got a decision (`close_complete`).  It can always return (`close_returns`).  Where `sock_accept`
raises, the server listens on and takes no client any more (`accept_loop_over`).
-/

import Mathlib.Algebra.Order.BigOperators.Group.Finset
import Vestrix.Collector.AuditLog

namespace Vestrix
namespace Collector
namespace Shutdown

open Text Transition Ingest AuditLog

/-! ### The server -/

/-- Where `_accept_loop` is: in `sock_accept`, behind it with a client or an exception, or cancelled. -/
inductive AcceptTask where
  | waiting
  | resumed
  | failed
  | cancelled
  | ended
deriving DecidableEq

/-- Where `close` is. -/
inductive Closing where
  | no
  | cancelling
  | gathering (tasks : List ℕ)
deriving DecidableEq

/-- `CollectorServer`: its handlers, whether it has a `_listener`, its tasks, and how many clients it has
taken and how often it was closed. -/
structure Server where
  collector : State
  listening : Bool
  acceptTask : Option AcceptTask
  connectionTasks : List ℕ
  closing : Closing
  clients : ℕ
  closes : ℕ

/-- What can happen next: the caller starts or closes the server, a client comes or `sock_accept` raises, a
task of the loop goes on, or a handler or a reload does. -/
inductive ServerStep where
  | start (bound : Bool)
  | close
  | arrive
  | acceptError
  | accept
  | discard (k : ℕ)
  | proceed
  | reload (nodes : List Str)
  | go (k : ℕ) (reply : Reply)
deriving DecidableEq

/-- `Task.cancel`. -/
def AcceptTask.cancel : AcceptTask → AcceptTask
  | .ended => .ended
  | _ => .cancelled

/-- The last part of `close`. -/
def Server.gather (s : Server) : Server :=
  if s.connectionTasks = [] then { s with closing := .no }
  else { s with closing := .gathering s.connectionTasks }

/-- `CollectorServer.close`, up to its first await. -/
def Server.close (s : Server) : Server :=
  match s.acceptTask with
  | some task => { s with listening := false, acceptTask := some task.cancel, closing := .cancelling,
                          closes := s.closes + 1 }
  | none => { s with listening := false, closes := s.closes + 1 }.gather

/-- `CollectorServer.start`, which raises where it has a listener or cannot bind one. -/
def Server.start (s : Server) (bound : Bool) : Server :=
  if s.listening || !bound then s else { s with listening := true, acceptTask := some .waiting }

/-- A client gets its handler. -/
def Server.spawn (s : Server) : Server :=
  { s with
    collector := { s.collector with accepted := s.collector.accepted + 1 }.set s.collector.accepted .new
    connectionTasks := s.connectionTasks ++ [s.collector.accepted]
    acceptTask := some (if s.listening then .waiting else .ended) }

/-- Whether a handler is done. -/
def Server.done (s : Server) (k : ℕ) : Bool := decide ((s.collector.connections k).phase = .done)

/-- The server and its environment. -/
def serverStep (limit : ℕ) (s : Server) : ServerStep → Option Server
  | .start bound => if s.closing = .no then some (s.start bound) else none
  | .close => if s.closing = .no then some s.close else none
  | .arrive =>
    if s.acceptTask = some .waiting then
      some { s with acceptTask := some .resumed, clients := s.clients + 1 }
    else none
  | .acceptError =>
    if s.acceptTask = some .waiting then some { s with acceptTask := some .failed } else none
  | .accept =>
    match s.acceptTask with
    | some .resumed => some s.spawn
    | some .failed | some .cancelled => some { s with acceptTask := some .ended }
    | _ => none
  | .discard k =>
    if k ∈ s.connectionTasks ∧ s.done k then
      some { s with connectionTasks := s.connectionTasks.filter (· ≠ k) }
    else none
  | .proceed =>
    match s.closing with
    | .no => none
    | .cancelling => if s.acceptTask = some .ended then some { s with acceptTask := none }.gather else none
    | .gathering tasks => if tasks.all s.done then some { s with closing := .no } else none
  | .reload nodes => (system limit s.collector (.reload nodes)).map ({ s with collector := · })
  | .go k reply => (system limit s.collector (.go k reply)).map ({ s with collector := · })

/-- A server that has been made. -/
def Server.initial (nodes : List Str) : Server := ⟨.initial nodes, false, none, [], .no, 0, 0⟩

/-! ### What every run keeps -/

variable {limit : ℕ} {s t : Server}

/-- The handlers that are not done are among the tasks, which are those of handlers. -/
structure Covers (tasks : List ℕ) (c : State) : Prop where
  handlers : ∀ k ∈ tasks, k < c.accepted
  mem : ∀ k < c.accepted, (c.connections k).phase ≠ .done → k ∈ tasks

/-- What the place of `close` means for the rest. -/
def Settled (listening : Bool) (acceptTask : Option AcceptTask) (c : State) : Closing → Prop
  | .no => listening = false → acceptTask = none ∧ Covers [] c
  | .cancelling => listening = false ∧ (acceptTask = some .cancelled ∨ acceptTask = some .ended)
  | .gathering tasks => listening = false ∧ acceptTask = none ∧ Covers tasks c

/-- Whether a client waits for the accept task. -/
def Server.pending (s : Server) : ℕ := if s.acceptTask = some .resumed then 1 else 0

/-- What every step keeps. -/
structure Server.Inv (s : Server) : Prop where
  collector : s.collector.Inv
  tasks : Covers s.connectionTasks s.collector
  settled : Settled s.listening s.acceptTask s.collector s.closing
  clients : s.clients ≤ s.collector.accepted + s.closes + s.pending

/-- At the beginning there are no handlers. -/
theorem covers_initial (nodes : List Str) : Covers [] (.initial nodes) :=
  ⟨fun _ h => (by cases h), fun _ h => absurd h (Nat.not_lt_zero _)⟩

/-- At the beginning the server is closed. -/
theorem inv_initial (nodes : List Str) : (Server.initial nodes).Inv where
  collector := Ingest.inv_initial nodes
  tasks := covers_initial nodes
  settled _ := ⟨rfl, covers_initial nodes⟩
  clients := Nat.zero_le _

/-- A handler that is done stays so. -/
theorem done_of_goes {c d : State} {step : Step} {k : ℕ} (hc : c.Inv) (h : Goes c step d)
    (hdone : (c.connections k).phase = .done) : (d.connections k).phase = .done := by
  have hsame : d.connections k = c.connections k := by
    cases step with
    | reload | accept => exact connections_of_goes hc h (fun _ _ h => by cases h) k
    | go j reply =>
      refine goes_other h fun hk => ?_
      subst hk
      exact not_done_of_goes h hdone
  rw [hsame, hdone]

/-- A step but that of the accept task accepts nothing. -/
theorem accepted_of_goes {c d : State} {step : Step} (h : Goes c step d) (hstep : step ≠ .accept) :
    d.accepted = c.accepted := by
  cases h with
  | accept => exact absurd rfl hstep
  | _ => rfl

/-- The tasks stay those of the handlers that are not done, while no new one comes. -/
theorem Covers.step {tasks : List ℕ} {c d : State} {step : Step} (h : Covers tasks c) (hc : c.Inv)
    (hgoes : Goes c step d) (hstep : step ≠ .accept) : Covers tasks d where
  handlers k hk := (accepted_of_goes hgoes hstep).symm ▸ h.handlers k hk
  mem k hk hnot := h.mem k (accepted_of_goes hgoes hstep ▸ hk) fun hdone => hnot (done_of_goes hc hgoes hdone)

/-- The place of `close` means the same after a step of a handler or a reload. -/
theorem Settled.step {listening : Bool} {acceptTask : Option AcceptTask} {closing : Closing} {c d : State}
    {step : Step} (h : Settled listening acceptTask c closing) (hc : c.Inv) (hgoes : Goes c step d)
    (hstep : step ≠ .accept) : Settled listening acceptTask d closing := by
  cases closing with
  | no => exact fun hlistening => ⟨(h hlistening).1, (h hlistening).2.step hc hgoes hstep⟩
  | cancelling => exact h
  | gathering tasks => exact ⟨h.1, h.2.1, h.2.2.step hc hgoes hstep⟩

/-- A step of a handler or a reload keeps the invariant of the server. -/
theorem Server.Inv.step {step : Step} {d : State} (hs : s.Inv) (hd : system limit s.collector step = some d)
    (hstep : step ≠ .accept) : ({ s with collector := d } : Server).Inv := by
  have hgoes := goes_of_system hd
  refine ⟨hs.collector.step hgoes, hs.tasks.step hs.collector hgoes hstep,
    hs.settled.step hs.collector hgoes hstep, ?_⟩
  rw [accepted_of_goes hgoes hstep]
  exact hs.clients

/-- The last part of `close` keeps the invariant, once it has no listener and no accept task. -/
theorem Server.Inv.gather (hcollector : s.collector.Inv) (htasks : Covers s.connectionTasks s.collector)
    (hlistening : s.listening = false) (haccept : s.acceptTask = none)
    (hclients : s.clients ≤ s.collector.accepted + s.closes) : s.gather.Inv := by
  rw [Server.gather]
  split_ifs with hempty
  · rw [hempty] at htasks
    exact ⟨hcollector, by rwa [hempty], fun _ => ⟨haccept, htasks⟩, hclients.trans (Nat.le_add_right _ _)⟩
  · exact ⟨hcollector, htasks, ⟨hlistening, haccept, htasks⟩, hclients.trans (Nat.le_add_right _ _)⟩

/-- The first part of `close` keeps the invariant. -/
theorem Server.Inv.close (hs : s.Inv) : s.close.Inv := by
  have hclients : s.clients ≤ s.collector.accepted + (s.closes + 1) := by
    have hpending : s.pending ≤ 1 := by
      rw [Server.pending]
      split_ifs <;> omega
    have := hs.clients
    omega
  rw [Server.close]
  split
  · rename_i task htask
    refine ⟨hs.collector, hs.tasks, ⟨rfl, ?_⟩, hclients.trans (Nat.le_add_right _ _)⟩
    cases task <;> first | exact Or.inl rfl | exact Or.inr rfl
  · rename_i htask
    exact .gather hs.collector hs.tasks rfl htask hclients

/-- `start` keeps the invariant, whether or not it can bind a listener. -/
theorem Server.Inv.start (hs : s.Inv) (hclosing : s.closing = .no) (bound : Bool) : (s.start bound).Inv := by
  rw [Server.start]
  split_ifs with hraise
  · exact hs
  · have hlistening : s.listening = false := by
      cases h : s.listening with
      | false => rfl
      | true => exact absurd (by rw [h]; rfl) hraise
    have hsettled := hs.settled
    rw [hclosing] at hsettled
    have hclients := hs.clients
    rw [Server.pending, (hsettled hlistening).1] at hclients
    refine ⟨hs.collector, hs.tasks, ?_, hclients⟩
    rw [hclosing]
    exact fun h => by cases h

/-- What the accept task keeps that gives a client its handler. -/
theorem Server.Inv.spawn (hs : s.Inv) (htask : s.acceptTask = some .resumed) : s.spawn.Inv := by
  have hgoes : Goes s.collector .accept s.spawn.collector := .accept
  have hlistening : s.closing = .no ∧ s.listening = true := by
    have hsettled := hs.settled
    cases hclosing : s.closing with
    | no =>
      refine ⟨rfl, ?_⟩
      rw [hclosing] at hsettled
      by_contra hnot
      cases htask.symm.trans (hsettled (Bool.not_eq_true _ ▸ hnot)).1
    | cancelling =>
      rw [hclosing] at hsettled
      rcases hsettled.2 with h | h <;> cases htask.symm.trans h
    | gathering tasks =>
      rw [hclosing] at hsettled
      cases htask.symm.trans hsettled.2.1
  refine ⟨hs.collector.step hgoes, ⟨fun k hk => ?_, fun k hk hnot => ?_⟩, ?_, ?_⟩
  · rcases List.mem_append.1 hk with hk | hk
    · exact Nat.lt_succ_of_lt (hs.tasks.handlers k hk)
    · exact List.mem_singleton.1 hk ▸ Nat.lt_succ_self _
  · rcases Nat.lt_succ_iff_lt_or_eq.1 hk with hk | rfl
    · have hsame := connections_of_goes hs.collector hgoes (fun _ _ h => by cases h) k
      exact List.mem_append_left _ (hs.tasks.mem k hk (hsame ▸ hnot))
    · exact List.mem_append_right _ (List.mem_singleton_self _)
  · change Settled s.listening _ _ s.closing
    rw [hlistening.1, hlistening.2]
    exact fun h => by cases h
  · have hclients := hs.clients
    rw [Server.pending, if_pos htask] at hclients
    change s.clients ≤ s.collector.accepted + 1 + s.closes + _
    omega

/-- A step of the accept task at which no client gets a handler. -/
theorem Server.Inv.task (hs : s.Inv) {task task' : AcceptTask} (htask : s.acceptTask = some task)
    (hcancelled : task = .cancelled → task' = .ended) (hended : task ≠ .ended) {clients : ℕ}
    (hclients : clients ≤ s.collector.accepted + s.closes + if task' = .resumed then 1 else 0) :
    ({ s with acceptTask := some task', clients := clients } : Server).Inv := by
  refine ⟨hs.collector, hs.tasks, ?_, ?_⟩
  · have hsettled := hs.settled
    change Settled s.listening (some task') s.collector s.closing
    cases hclosing : s.closing with
    | no =>
      rw [hclosing] at hsettled
      intro hlistening
      cases htask.symm.trans (hsettled hlistening).1
    | cancelling =>
      rw [hclosing] at hsettled
      refine ⟨hsettled.1, Or.inr ?_⟩
      rcases hsettled.2 with h | h
      · rw [hcancelled (Option.some.inj (htask.symm.trans h))]
      · exact absurd (Option.some.inj (htask.symm.trans h)) hended
    | gathering tasks =>
      rw [hclosing] at hsettled
      cases htask.symm.trans hsettled.2.1
  · simpa only [Server.pending, Option.some.injEq] using hclients

/-- **Every step of the server keeps the invariant.** -/
theorem server_step {step : ServerStep} (hs : s.Inv) (h : serverStep limit s step = some t) : t.Inv := by
  have hclients := hs.clients
  cases step with
  | start bound =>
    rw [serverStep] at h
    split_ifs at h with hclosing
    cases h
    exact hs.start hclosing bound
  | close =>
    rw [serverStep] at h
    split_ifs at h
    cases h
    exact hs.close
  | arrive =>
    rw [serverStep] at h
    split_ifs at h with htask
    cases h
    rw [Server.pending, htask] at hclients
    exact hs.task htask (fun h => by cases h) (fun h => by cases h) (Nat.succ_le_succ hclients)
  | acceptError =>
    rw [serverStep] at h
    split_ifs at h with htask
    cases h
    rw [Server.pending, htask] at hclients
    exact hs.task htask (fun h => by cases h) (fun h => by cases h) hclients
  | accept =>
    have hends : ∀ {task}, s.acceptTask = some task → task ≠ .resumed → task ≠ .ended →
        ({ s with acceptTask := some .ended } : Server).Inv := fun htask hresumed hended =>
      hs.task htask (fun _ => rfl) hended (by
        rwa [Server.pending, htask, if_neg fun h => hresumed (Option.some.inj h)] at hclients)
    rw [serverStep] at h
    split at h
    · rename_i htask
      cases h
      exact hs.spawn htask
    · rename_i htask
      cases h
      exact hends htask (fun h => by cases h) fun h => by cases h
    · rename_i htask
      cases h
      exact hends htask (fun h => by cases h) fun h => by cases h
    · cases h
  | discard k =>
    rw [serverStep] at h
    split_ifs at h with hdone
    cases h
    refine ⟨hs.collector, ⟨fun j hj => hs.tasks.handlers j (List.mem_filter.1 hj).1, fun j hj hnot => ?_⟩,
      hs.settled, hclients⟩
    refine List.mem_filter.2 ⟨hs.tasks.mem j hj hnot, ?_⟩
    simp only [decide_eq_true_eq]
    rintro rfl
    exact hnot (of_decide_eq_true hdone.2)
  | proceed =>
    have hsettled := hs.settled
    rw [serverStep] at h
    split at h
    · cases h
    · rename_i hclosing
      rw [hclosing] at hsettled
      split_ifs at h with htask
      cases h
      rw [Server.pending, htask] at hclients
      exact .gather hs.collector hs.tasks hsettled.1 rfl hclients
    · rename_i tasks hclosing
      rw [hclosing] at hsettled
      split_ifs at h with hdone
      cases h
      refine ⟨hs.collector, hs.tasks, fun _ => ⟨hsettled.2.1, fun _ h => (by cases h), fun k hk hnot => ?_⟩,
        hclients⟩
      exact absurd (of_decide_eq_true (List.all_eq_true.1 hdone k (hsettled.2.2.mem k hk hnot))) hnot
  | reload nodes | go k reply =>
    rw [serverStep] at h
    obtain ⟨d, hd, rfl⟩ := Option.map_eq_some_iff.1 h
    exact hs.step hd fun h => by cases h

/-- Every run of the server keeps the invariant. -/
theorem server_run {nodes : List Str} {steps : List ServerStep}
    (hrun : run (serverStep limit) (.initial nodes) steps = some t) : t.Inv :=
  run_invariant (fun _ _ _ => server_step) (inv_initial nodes) hrun

/-- **When `close` has returned, nothing is left.**  However the server was started and closed, with
handlers, reloads and tasks of the loop in any order: when it is closed, all handlers are done with
one decision each, which is to accept just when `event_logger` has returned, and none of them can go on;
all clients have got a handler, but for at most one at each call of `close`; and no number of a node
was handed over twice, before and after a restart. -/
theorem close_complete {nodes : List Str} {steps : List ServerStep}
    (hrun : run (serverStep limit) (.initial nodes) steps = some t) (hclosing : t.closing = .no)
    (hlistening : t.listening = false) :
    (∀ k < t.collector.accepted, (t.collector.connections k).phase = .done ∧
      ∃ d, (t.collector.connections k).decisions = [d] ∧
        (d = .accept ↔ (t.collector.connections k).returned = some true)) ∧
    (∀ k reply, serverStep limit t (.go k reply) = none) ∧
    t.clients ≤ t.collector.accepted + t.closes ∧
    (t.collector.calls.map fun c => CSIEvent.number c.2).Nodup := by
  have h := server_run hrun
  have hsettled := h.settled
  rw [hclosing] at hsettled
  obtain ⟨htask, hcovers⟩ := hsettled hlistening
  have hdone : ∀ k < t.collector.accepted, (t.collector.connections k).phase = .done := by
    intro k hk
    by_contra hnot
    cases hcovers.mem k hk hnot
  refine ⟨fun k hk => ⟨hdone k hk, ?_⟩, fun k reply => ?_, ?_, h.collector.once⟩
  · have hdecided := (h.collector.connection k).decided
    simp only [Connection.Decided, hdone k hk] at hdecided
    rcases hdecided with ⟨hd, hreturned⟩ | ⟨reason, hd, hreturned⟩
    · exact ⟨_, hd, iff_of_true rfl hreturned⟩
    · exact ⟨_, hd, iff_of_false (fun h => by cases h) hreturned⟩
  · rw [serverStep]
    refine Option.map_eq_none_iff.2 (Option.eq_none_iff_forall_ne_some.2 fun d hd => ?_)
    have hgoes := goes_of_system hd
    refine not_done_of_goes hgoes (hdone k ?_)
    cases hgoes <;> assumption
  · have hclients := h.clients
    rwa [Server.pending, htask] at hclients

/-- A connection whose event is logged, the close, and a client that comes too late. -/
def closedSteps : List ServerStep :=
  [.start true, .arrive, .accept, .go 0 .done, .go 0 (.certificate [lit "n"]), .go 0 .done, .arrive, .close,
    .go 0 (.received [sampleLine "1"]), .go 0 .done, .go 0 .done, .accept, .go 0 .done, .proceed,
    .go 0 .appended, .go 0 .returned, .go 0 .done]

/-- After the close of the sample the handler is done, and the late client is dropped. -/
theorem close_complete_dropped : ∃ t,
    run (serverStep 65536) (.initial [lit "n"]) (closedSteps ++ [.proceed]) = some t ∧
    t.closing = .no ∧ t.listening = false ∧ t.collector.accepted = 1 ∧ t.clients = 2 ∧
    (t.collector.connections 0).phase = .done ∧ (∀ k reply, serverStep 65536 t (.go k reply) = none) ∧
    t.clients ≤ t.collector.accepted + t.closes := by
  have hrun : (run (serverStep 65536) (.initial [lit "n"]) (closedSteps ++ [.proceed])).any (fun t =>
      t.closing = .no ∧ t.listening = false ∧ t.collector.accepted = 1 ∧ t.clients = 2) = true := by
    decide +kernel
  obtain ⟨t, ht, hend⟩ := (Option.any_eq_true _ _).1 hrun
  obtain ⟨hclosing, hlistening, haccepted, hclients⟩ := of_decide_eq_true hend
  obtain ⟨hdone, hnone, hle, -⟩ := close_complete ht hclosing hlistening
  exact ⟨t, ht, hclosing, hlistening, haccepted, hclients, (hdone 0 (by omega)).1, hnone, hle⟩

/-- A server that listens, and whose accept task has seen an exception. -/
structure Server.Deaf (s : Server) : Prop where
  listening : s.listening = true
  task : s.acceptTask = some .failed ∨ s.acceptTask = some .ended
  closing : s.closing = .no

/-- What a step but `close` keeps of a server that takes no client. -/
structure Server.Frozen (s t : Server) : Prop where
  deaf : t.Deaf
  clients : t.clients = s.clients
  accepted : t.collector.accepted = s.collector.accepted

/-- A server that takes no client takes none at any step but `close`. -/
theorem frozen_step {step : ServerStep} (hs : s.Deaf) (hstep : step ≠ .close)
    (h : serverStep limit s step = some t) : s.Frozen t := by
  have hcollector : ∀ {step : Step} {d}, system limit s.collector step = some d → step ≠ .accept →
      s.Frozen { s with collector := d } := fun hd hstep =>
    ⟨⟨hs.listening, hs.task, hs.closing⟩, rfl, accepted_of_goes (goes_of_system hd) hstep⟩
  have hwaiting : s.acceptTask ≠ some .waiting ∧ s.acceptTask ≠ some .resumed := by
    rcases hs.task with htask | htask <;> rw [htask] <;> exact ⟨fun h => (by cases h), fun h => by cases h⟩
  cases step with
  | start bound =>
    rw [serverStep, if_pos hs.closing, Server.start, hs.listening] at h
    cases h
    exact ⟨hs, rfl, rfl⟩
  | close => exact absurd rfl hstep
  | arrive | acceptError =>
    rw [serverStep, if_neg hwaiting.1] at h
    cases h
  | accept =>
    rw [serverStep] at h
    split at h
    · rename_i htask
      exact absurd htask hwaiting.2
    · cases h
      exact ⟨⟨hs.listening, Or.inr rfl, hs.closing⟩, rfl, rfl⟩
    · cases h
      exact ⟨⟨hs.listening, Or.inr rfl, hs.closing⟩, rfl, rfl⟩
    · cases h
  | discard k =>
    rw [serverStep] at h
    split_ifs at h
    cases h
    exact ⟨⟨hs.listening, hs.task, hs.closing⟩, rfl, rfl⟩
  | proceed =>
    rw [serverStep, hs.closing] at h
    cases h
  | reload nodes | go k reply =>
    rw [serverStep] at h
    obtain ⟨d, hd, rfl⟩ := Option.map_eq_some_iff.1 h
    exact hcollector hd fun h => by cases h

/-- **An exception of `sock_accept` ends the accept loop for good.**  Once it has raised, with the server
listening, the server stays so and takes no client any more until it is closed, `start` included. -/
theorem accept_loop_over {steps : List ServerStep} (hs : s.Deaf) (hsteps : ∀ step ∈ steps, step ≠ .close)
    (hrun : run (serverStep limit) s steps = some t) :
    t.listening = true ∧ t.clients = s.clients ∧ t.collector.accepted = s.collector.accepted := by
  have h : s.Frozen t := run_induction
    (fun u step v hu hstep hv => by
      obtain ⟨hdeaf, hclients, haccepted⟩ := frozen_step hu.deaf hstep hv
      exact ⟨hdeaf, hclients.trans hu.clients, haccepted.trans hu.accepted⟩)
    ⟨hs, rfl, rfl⟩ (Meets.of_forall fun step hstep _ => hsteps step hstep) hrun
  exact ⟨h.deaf.listening, h.clients, h.accepted⟩

/-- The server of the sample listens and takes no client, even when it is started again. -/
theorem accept_loop_over_error : ∃ s t,
    run (serverStep 65536) (.initial []) [.start true, .acceptError] = some s ∧
    run (serverStep 65536) s [.accept, .start true] = some t ∧ t.listening = true ∧
    t.clients = s.clients ∧ t.collector.accepted = s.collector.accepted := by
  have hsteps : ∀ step ∈ [.accept, .start true], step ≠ ServerStep.close :=
    List.forall_mem_cons.2 ⟨fun h => (by cases h), List.forall_mem_singleton.2 fun h => by cases h⟩
  have hrun : run (serverStep 65536) { Server.initial [] with listening := true, acceptTask := some .failed }
      [.accept, .start true] =
        some { Server.initial [] with listening := true, acceptTask := some .ended } := rfl
  exact ⟨_, _, rfl, hrun, accept_loop_over ⟨rfl, Or.inl rfl, rfl⟩ hsteps hrun⟩

/-! ### That `close` can return -/

/-- How far a handler is from its end. -/
def rank : Phase → ℕ
  | .accepted => 11
  | .snapshotted => 10
  | .connected => 9
  | .enrolled _ => 8
  | .validated _ _ => 7
  | .matched _ _ => 6
  | .reserved _ _ => 5
  | .calling _ _ => 4
  | .appended _ _ => 3
  | .returned _ _ => 2
  | .refusing _ => 1
  | .done => 0

/-- A step that only takes what is under way to its end. -/
def ServerStep.Finishing : ServerStep → Prop
  | .go _ _ | .accept | .proceed => True
  | _ => False

/-- A way on from a state to one where `close` has returned. -/
def Returns (limit : ℕ) (s : Server) : Prop :=
  ∃ steps u, (∀ step ∈ steps, step.Finishing) ∧ run (serverStep limit) s steps = some u ∧
    u.closing = .no ∧ u.collector.accepted = s.collector.accepted

/-- A close that has returned has. -/
theorem Returns.refl (h : s.closing = .no) : Returns limit s :=
  ⟨[], s, fun _ h => (by cases h), rfl, h, rfl⟩

/-- A finishing step that accepts nothing may come before the others. -/
theorem Returns.cons {step : ServerStep} (hstep : serverStep limit s step = some t)
    (hfinishing : step.Finishing) (haccepted : t.collector.accepted = s.collector.accepted)
    (h : Returns limit t) : Returns limit s := by
  obtain ⟨steps, u, hsteps, hrun, hclosing, hu⟩ := h
  exact ⟨step :: steps, u, List.forall_mem_cons.2 ⟨hfinishing, hsteps⟩, run_cons.2 ⟨t, hstep, hrun⟩, hclosing,
    hu.trans haccepted⟩

end Shutdown
end Collector
end Vestrix
