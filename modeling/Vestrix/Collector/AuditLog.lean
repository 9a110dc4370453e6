/-
# The decisions that are logged

`_decision` of `server.py` logs each decision with what the handler knows then: the names, the numbers,
the exception.  `Entry` is a call of it, and `audited` are the handlers with the entries that they have
logged, in order.

Over every schedule the log tells what happened (`log_truthful`): it has one entry for each handler that
is done and none for another, with the decision that the handler came to, and what an entry says of
the certificate, of the allow-list, of the sequence numbers and of the call of `event_logger` is so.
-/

import Vestrix.Collector.Sequence

namespace Vestrix
namespace Collector
namespace AuditLog

open Text Outcome Python Transition Ingest

/-! ### Entries -/

/-- A call of `_decision`, with its fields, but for the peer. -/
inductive Entry where
  | tlsHandshakeFailed (errorType : List Char)
  | internalServerError (errorType : List Char)
  | invalidCertificateCn
  | unenrolledCertificateCn (certificateNodeId : Str)
  | payload (reason : Reason) (certificateNodeId : Str)
  | nodeIdCertificateCnMismatch (certificateNodeId payloadNodeId : Str) (sequenceNumber : ℕ)
  | replayedOrOutOfOrderSequence (nodeId : Str) (sequenceNumber lastSequenceNumber : ℕ)
  | forensicsHandoffFailed (nodeId : Str) (sequenceNumber : ℕ) (errorType : List Char)
  | accept (nodeId : Str) (sequenceNumber : ℕ) (csiWindowSha256 : Str)
deriving DecidableEq

/-- The decision of an entry. -/
def Entry.decision : Entry → Decision
  | .tlsHandshakeFailed _ => .reject .tlsHandshakeFailed
  | .internalServerError _ => .reject .internalServerError
  | .invalidCertificateCn => .reject .invalidCertificateCn
  | .unenrolledCertificateCn _ => .reject .unenrolledCertificateCn
  | .payload reason _ => .reject reason
  | .nodeIdCertificateCnMismatch _ _ _ => .reject .nodeIdCertificateCnMismatch
  | .replayedOrOutOfOrderSequence _ _ _ => .reject .replayedOrOutOfOrderSequence
  | .forensicsHandoffFailed _ _ _ => .reject .forensicsHandoffFailed
  | .accept _ _ _ => .accept

/-- The entry of a handler that comes to refuse its connection, from where it was before. -/
def refusal (s : State) (k : ℕ) (errorType : List Char) (reason : Reason) : Option Entry :=
  match (s.connections k).phase, reason with
  | .snapshotted, _ => some (.tlsHandshakeFailed errorType)
  | .connected, .unenrolledCertificateCn => (s.connections k).names.head?.map .unenrolledCertificateCn
  | .connected, _ => some .invalidCertificateCn
  | .enrolled _, .internalServerError => some (.internalServerError errorType)
  | .enrolled name, reason => some (.payload reason name)
  | .validated _ _, .internalServerError => some (.internalServerError errorType)
  | .validated name event, _ =>
    some (.nodeIdCertificateCnMismatch name event.nodeId event.sequenceNumber)
  | .matched name event, _ =>
    (s.lastSequences name).map (.replayedOrOutOfOrderSequence name event.sequenceNumber)
  | .calling name event, _ | .appended name event, _ =>
    some (.forensicsHandoffFailed name event.sequenceNumber errorType)
  | _, _ => none

/-- The handlers, what each is about to log, and the log. -/
structure Audited where
  state : State
  entries : ℕ → Option Entry
  log : List (ℕ × Entry)

/-- What a handler does to the entries and the log, when it has got to a phase. -/
def Audited.record (s : Audited) (k : ℕ) (errorType : List Char) (t : State) : Audited :=
  match (t.connections k).phase with
  | .refusing reason => ⟨t, Function.update s.entries k (refusal s.state k errorType reason), s.log⟩
  | .returned name event =>
    ⟨t, Function.update s.entries k (some (.accept name event.sequenceNumber event.csiWindowSha256)), s.log⟩
  | .done => ⟨t, s.entries, s.log ++ (s.entries k).toList.map fun e => (k, e)⟩
  | _ => ⟨t, s.entries, s.log⟩

/-- A step of the collector, with the name of the exception's type where a handler has caught one. -/
def audited (limit : ℕ) (s : Audited) (step : Step × List Char) : Option Audited :=
  (system limit s.state step.1).map fun t =>
    match step.1 with
    | .go k _ => s.record k step.2 t
    | _ => { s with state := t }

/-- A collector that has just started. -/
def Audited.initial (nodes : List Str) : Audited := ⟨.initial nodes, fun _ => none, []⟩

/-! ### Refusals -/

variable {limit : ℕ} {s t : State} {k : ℕ} {errorType : List Char} {reason : Reason} {e : Entry}

/-- Why a handler refuses its connection, and what it logs then. -/
inductive Refuses (limit : ℕ) (s : State) (k : ℕ) (errorType : List Char) : Reason → Entry → Prop where
  | handshake (hphase : (s.connections k).phase = .snapshotted) :
      Refuses limit s k errorType .tlsHandshakeFailed (.tlsHandshakeFailed errorType)
  | names (hphase : (s.connections k).phase = .connected) (hnames : (s.connections k).names.length ≠ 1) :
      Refuses limit s k errorType .invalidCertificateCn .invalidCertificateCn
  | unenrolled {name} (hphase : (s.connections k).phase = .connected)
      (hnames : (s.connections k).names = [name]) (hname : name ∉ (s.connections k).snapshot) :
      Refuses limit s k errorType .unenrolledCertificateCn (.unenrolledCertificateCn name)
  | payload {name reason} (hphase : (s.connections k).phase = .enrolled name)
      (hreason : reason = .payloadReadTimeout ∨ reason = .invalidJsonPayload ∨
        ∃ chunks, readEvent limit chunks = .error reason) (hinternal : reason ≠ .internalServerError) :
      Refuses limit s k errorType reason (.payload reason name)
  | digits {name} (hphase : (s.connections k).phase = .enrolled name) :
      Refuses limit s k errorType .internalServerError (.internalServerError errorType)
  | mismatch {name event} (hphase : (s.connections k).phase = .validated name event)
      (hname : event.nodeId ≠ name) :
      Refuses limit s k errorType .nodeIdCertificateCnMismatch
        (.nodeIdCertificateCnMismatch name event.nodeId event.sequenceNumber)
  | uncomparable {name event} (hphase : (s.connections k).phase = .validated name event) :
      Refuses limit s k errorType .internalServerError (.internalServerError errorType)
  | replay {name event last} (hphase : (s.connections k).phase = .matched name event)
      (hlast : s.lastSequences name = some last) (hle : event.sequenceNumber ≤ last) :
      Refuses limit s k errorType .replayedOrOutOfOrderSequence
        (.replayedOrOutOfOrderSequence name event.sequenceNumber last)
  | handoff {name event} (hphase : (s.connections k).phase = .calling name event ∨
        (s.connections k).phase = .appended name event) :
      Refuses limit s k errorType .forensicsHandoffFailed
        (.forensicsHandoffFailed name event.sequenceNumber errorType)

/-- An entry of a refusal has the decision to reject, with its reason. -/
theorem Refuses.decision (h : Refuses limit s k errorType reason e) : e.decision = .reject reason := by
  cases h <;> rfl

/-- Texts that `compare_digest` tells apart are different. -/
theorem compareDigest_eq_false {a b : Str} (h : compareDigest a b = some false) : a ≠ b := by
  rw [compareDigest] at h
  split_ifs at h
  exact ne_of_beq_false (Option.some.inj h)

/-- The connection that is set has its new phase. -/
@[simp] theorem set_phase_self (s : State) (k : ℕ) (c : Connection) :
    ((s.set k c).connections k).phase = c.phase := by
  rw [set_connections_self]

/-- A handler that has checked the certificate and refuses. -/
theorem refuses_checkCertificate (hphase : (s.connections k).phase = .connected)
    (h : checkCertificate (s.connections k) = .refusing reason) :
    ∃ e, refusal s k errorType reason = some e ∧ Refuses limit s k errorType reason e := by
  rw [checkCertificate] at h
  split at h
  · rename_i name hnames
    split_ifs at h with hname
    cases h
    refine ⟨_, ?_, .unenrolled hphase hnames hname⟩
    rw [refusal.eq_def, hphase, hnames]
    rfl
  · rename_i hnames
    cases h
    refine ⟨_, ?_, .names hphase fun hlength => ?_⟩
    · rw [refusal.eq_def, hphase]
    · obtain ⟨name, hname⟩ := List.length_eq_one_iff.1 hlength
      exact hnames name hname

/-- A handler that refuses over the names has an entry for it, which says why. -/
theorem refuses_checkNodeId {name : Str} {event : CSIEvent}
    (hphase : (s.connections k).phase = .validated name event)
    (h : checkNodeId name event = .refusing reason) :
    ∃ e, refusal s k errorType reason = some e ∧ Refuses limit s k errorType reason e := by
  rw [checkNodeId] at h
  split at h
  · cases h
  · rename_i hcompare
    cases h
    refine ⟨_, ?_, .mismatch hphase (compareDigest_eq_false hcompare)⟩
    rw [refusal.eq_def, hphase]
  · cases h
    refine ⟨_, ?_, .uncomparable hphase⟩
    rw [refusal.eq_def, hphase]

/-- A handler that has not got a payload has an entry for it, which says why. -/
theorem refuses_payload {name : Str} (hphase : (s.connections k).phase = .enrolled name)
    (hreason : reason = .payloadReadTimeout ∨ reason = .invalidJsonPayload ∨
      ∃ chunks, readEvent limit chunks = .error reason) :
    ∃ e, refusal s k errorType reason = some e ∧ Refuses limit s k errorType reason e := by
  by_cases hinternal : reason = .internalServerError
  · subst hinternal
    refine ⟨_, ?_, .digits hphase⟩
    rw [refusal.eq_def, hphase]
  · refine ⟨_, ?_, .payload hphase hreason hinternal⟩
    rw [refusal.eq_def, hphase]
    cases reason <;> first | rfl | exact absurd rfl hinternal

variable (errorType) in
/-- **What a handler that comes to refuse its connection logs.** -/
theorem refuses_of_system {reply : Reply} (h : system limit s (.go k reply) = some t)
    (hafter : (t.connections k).phase = .refusing reason) :
    ∃ e, refusal s k errorType reason = some e ∧ Refuses limit s k errorType reason e := by
  rw [system] at h
  split_ifs at h with hk
  rw [handlerStep.eq_def] at h
  dsimp only at h
  split at h
  · cases h
    rw [set_phase_self] at hafter
    cases hafter
  · cases h
    rw [set_phase_self] at hafter
    cases hafter
  · rename_i hphase
    cases h
    rw [set_phase_self] at hafter
    cases hafter
    refine ⟨_, ?_, .handshake hphase⟩
    rw [refusal.eq_def, hphase]
  · rename_i hphase
    cases h
    rw [set_phase_self] at hafter
    exact refuses_checkCertificate hphase hafter
  · rename_i name chunks hphase
    split at h
    · cases h
      rw [set_phase_self] at hafter
      cases hafter
    · rename_i reason' hread
      cases h
      rw [set_phase_self] at hafter
      cases hafter
      exact refuses_payload hphase (Or.inr (Or.inr ⟨chunks, hread⟩))
  · rename_i name hphase
    cases h
    rw [set_phase_self] at hafter
    cases hafter
    exact refuses_payload hphase (Or.inl rfl)
  · rename_i name hphase
    cases h
    rw [set_phase_self] at hafter
    cases hafter
    exact refuses_payload hphase (Or.inr (Or.inl rfl))
  · rename_i name event hphase
    cases h
    rw [set_phase_self] at hafter
    exact refuses_checkNodeId hphase hafter
  · rename_i name event hphase
    split_ifs at h with hreplay
    · cases h
      rw [set_phase_self] at hafter
      cases hafter
      obtain ⟨last, hlast, hle⟩ := (Option.any_eq_true _ _).1 hreplay
      refine ⟨_, ?_, .replay hphase hlast (of_decide_eq_true hle)⟩
      rw [refusal.eq_def, hphase]
      exact Option.map_eq_some_iff.2 ⟨last, hlast, rfl⟩
    · cases h
      rw [set_phase_self] at hafter
      cases hafter
  · cases h
    rw [set_phase_self] at hafter
    cases hafter
  · cases h
    rw [set_phase_self] at hafter
    cases hafter
  · cases h
    rw [set_phase_self] at hafter
    cases hafter
  · cases h
    rw [set_phase_self] at hafter
    cases hafter
  · rename_i name event hphase
    cases h
    rw [set_phase_self] at hafter
    cases hafter
    refine ⟨_, ?_, .handoff (Or.inl hphase)⟩
    rw [refusal.eq_def, hphase]
  · rename_i name event hphase
    cases h
    rw [set_phase_self] at hafter
    cases hafter
    refine ⟨_, ?_, .handoff (Or.inr hphase)⟩
    rw [refusal.eq_def, hphase]
  · cases h
    rw [set_phase_self] at hafter
    cases hafter
  · cases h
    rw [set_phase_self] at hafter
    cases hafter
  · cases h

/-! ### What entries say -/

/-- The one name of the certificate, which the connection has found in its allow-list. -/
def Enrolled (c : Connection) (name : Str) : Prop := c.names = [name] ∧ name ∈ c.snapshot

/-- What an entry of a handler says is so. -/
def Entry.Holds (s : State) (k : ℕ) : Entry → Prop
  | .tlsHandshakeFailed _ | .internalServerError _ => True
  | .invalidCertificateCn => (s.connections k).names.length ≠ 1
  | .unenrolledCertificateCn name =>
    (s.connections k).names = [name] ∧ name ∉ (s.connections k).snapshot
  | .payload _ name => Enrolled (s.connections k) name
  | .nodeIdCertificateCnMismatch name nodeId _ => Enrolled (s.connections k) name ∧ nodeId ≠ name
  | .replayedOrOutOfOrderSequence name n last => Enrolled (s.connections k) name ∧ n ≤ last ∧
    ∃ q, s.lastSequences name = some q ∧ last ≤ q
  | .forensicsHandoffFailed name n _ => Enrolled (s.connections k) name ∧
    ∃ event, (k, event) ∈ s.calls ∧ CSIEvent.number event = (name, n)
  | .accept name n digest => Enrolled (s.connections k) name ∧
    ∃ event, (k, event) ∈ s.calls ∧ CSIEvent.number event = (name, n) ∧ event.csiWindowSha256 = digest

/-- A handler that has come to its decision. -/
def Phase.Ended : Phase → Prop
  | .refusing _ | .returned _ _ | .done => True
  | _ => False

/-- What a step leaves of a connection whose handler has come to its decision. -/
structure Settled (c d : Connection) : Prop where
  names : d.names = c.names
  snapshot : d.snapshot = c.snapshot
  ended : Phase.Ended d.phase

/-- A quiet step of another handler leaves a connection that has come to its decision. -/
theorem Quiet.settled {c : Connection} (h : Quiet s k c) (hended : Phase.Ended (s.connections k).phase) :
    Settled (s.connections k) c := by
  cases h with
  | snapshot hphase | connect hphase | enroll hphase | validate hphase | compare hphase =>
    rw [hphase] at hended
    exact hended.elim
  | finish hphase | raise hphase =>
    rcases hphase with hphase | hphase <;> rw [hphase] at hended <;> exact hended.elim
  | refuse | accept | reject => exact ⟨rfl, rfl, trivial⟩

/-- A step of one handler leaves the other connections. -/
theorem goes_other {reply : Reply} (h : Goes s (.go k reply) t) {j : ℕ} (hj : j ≠ k) :
    t.connections j = s.connections j := by
  cases h with
  | quiet | reserve | call | append => exact Function.update_of_ne hj ..

/-- **What every step keeps** of a connection whose handler has come to its decision. -/
theorem goes_settled {step : Step} (hs : s.Inv) (h : Goes s step t)
    (hended : Phase.Ended (s.connections k).phase) : Settled (s.connections k) (t.connections k) := by
  have hsame : t.connections k = s.connections k → Settled (s.connections k) (t.connections k) := by
    intro heq
    rw [heq]
    exact ⟨rfl, rfl, hended⟩
  have hother : ∀ {j}, ¬ Phase.Ended (s.connections j).phase → k ≠ j := by
    rintro j hj rfl
    exact hj hended
  cases h with
  | reload => exact hsame rfl
  | accept =>
    refine hsame (Function.update_of_ne (fun hk => ?_) ..)
    rw [hk, hs.fresh s.accepted le_rfl] at hended
    exact hended
  | @quiet j reply c hj hc =>
    by_cases hjk : k = j
    · subst hjk
      rw [set_connections_self]
      exact Quiet.settled hc hended
    · exact hsame (Function.update_of_ne hjk ..)
  | reserve _ hphase => exact hsame (Function.update_of_ne (hother (by rw [hphase]; exact id)) ..)
  | call _ hphase => exact hsame (Function.update_of_ne (hother (by rw [hphase]; exact id)) ..)
  | append _ hphase => exact hsame (Function.update_of_ne (hother (by rw [hphase]; exact id)) ..)

/-- No step takes back a call of `event_logger`. -/
theorem goes_calls {step : Step} (h : Goes s step t) : s.calls ⊆ t.calls := by
  cases h with
  | call => exact List.subset_append_left _ _
  | _ => exact List.Subset.refl _

/-- What an entry says stays so. -/
theorem Entry.Holds.mono {step : Step} (h : e.Holds s k) (hgoes : Goes s step t)
    (hsettled : Settled (s.connections k) (t.connections k)) : e.Holds t k := by
  have henrolled : ∀ {name}, Enrolled (s.connections k) name → Enrolled (t.connections k) name := by
    intro name h
    rw [Enrolled, hsettled.names, hsettled.snapshot]
    exact h
  cases e with
  | tlsHandshakeFailed | internalServerError => trivial
  | invalidCertificateCn =>
    rw [Entry.Holds, hsettled.names]
    exact h
  | unenrolledCertificateCn name =>
    rw [Entry.Holds, hsettled.names, hsettled.snapshot]
    exact h
  | payload reason name => exact henrolled h
  | nodeIdCertificateCnMismatch name nodeId n => exact ⟨henrolled h.1, h.2⟩
  | replayedOrOutOfOrderSequence name n last =>
    obtain ⟨hname, hle, q, hq, hlast⟩ := h
    obtain ⟨q', hq', hle'⟩ := last_mono hgoes hq
    exact ⟨henrolled hname, hle, q', hq', hlast.trans hle'⟩
  | forensicsHandoffFailed name n errorType =>
    obtain ⟨hname, event, hcall, hnumber⟩ := h
    exact ⟨henrolled hname, event, goes_calls hgoes hcall, hnumber⟩
  | accept name n digest =>
    obtain ⟨hname, event, hcall, hnumber⟩ := h
    exact ⟨henrolled hname, event, goes_calls hgoes hcall, hnumber⟩

/-! ### Over every schedule -/

/-- The calls of `event_logger` that are under way. -/
def Called (s : State) : Prop := ∀ k name event, ((s.connections k).phase = .calling name event ∨
  (s.connections k).phase = .appended name event) → (k, event) ∈ s.calls

/-- A handler that knows a name knows it from its certificate, and has found it in its allow-list. -/
theorem enrolled_of_name (hs : s.Inv) {name : Str} (h : (s.connections k).phase.name? = some name) :
    Enrolled (s.connections k) name := (hs.connection k).named name h

/-- What a handler logs that refuses its connection is so. -/
theorem Refuses.holds (hs : s.Inv) (hcalled : Called s) (h : Refuses limit s k errorType reason e) :
    e.Holds s k := by
  cases h with
  | handshake | digits | uncomparable => trivial
  | names _ hnames => exact hnames
  | unenrolled _ hnames hname => exact ⟨hnames, hname⟩
  | payload hphase => exact enrolled_of_name hs (by rw [hphase]; rfl)
  | mismatch hphase hname => exact ⟨enrolled_of_name hs (by rw [hphase]; rfl), hname⟩
  | replay hphase hlast hle =>
    exact ⟨enrolled_of_name hs (by rw [hphase]; rfl), hle, _, hlast, le_rfl⟩
  | @handoff name event hphase =>
    have hmatched : (s.connections k).phase.matched? = some (name, event) := by
      rcases hphase with hphase | hphase <;> rw [hphase] <;> rfl
    have hname : (s.connections k).phase.name? = some name := by
      rcases hphase with hphase | hphase <;> rw [hphase] <;> rfl
    refine ⟨enrolled_of_name hs hname, event, hcalled k name event hphase, ?_⟩
    rw [CSIEvent.number, (hs.connection k).matched name event hmatched]

/-- What a handler may do that gets to the end of a call. -/
theorem returned_of_goes {reply : Reply} (h : Goes s (.go k reply) t) {name : Str} {event : CSIEvent}
    (hafter : (t.connections k).phase = .returned name event) :
    (s.connections k).phase = .calling name event ∨ (s.connections k).phase = .appended name event := by
  cases h with
  | quiet hk hc =>
    rw [set_phase_self] at hafter
    cases hc with
    | finish hphase =>
      cases hafter
      exact hphase
    | _ => cases hafter
  | _ =>
    rw [set_phase_self] at hafter
    cases hafter

/-- The decision that a handler has come to and has not logged. -/
def decision? : Phase → Option Decision
  | .refusing reason => some (.reject reason)
  | .returned _ _ => some .accept
  | _ => none

/-- What a handler may do that gets done: it logs the decision that it has come to. -/
theorem done_of_goes {reply : Reply} (h : Goes s (.go k reply) t)
    (hafter : (t.connections k).phase = .done) : ∃ d, decision? (s.connections k).phase = some d ∧
      (t.connections k).decisions = (s.connections k).decisions ++ [d] := by
  cases h with
  | quiet hk hc =>
    rw [set_phase_self] at hafter
    rw [set_connections_self]
    cases hc with
    | accept hphase => exact ⟨_, by rw [hphase]; rfl, rfl⟩
    | reject hphase => exact ⟨_, by rw [hphase]; rfl, rfl⟩
    | _ => cases hafter
  | _ =>
    rw [set_phase_self] at hafter
    cases hafter

/-- A handler that is done does nothing more. -/
theorem not_done_of_goes {reply : Reply} (h : Goes s (.go k reply) t) : (s.connections k).phase ≠ .done := by
  intro hdone
  cases h with
  | quiet hk hc =>
    cases hc with
    | refuse _ hbefore => exact hbefore hdone
    | finish hphase | raise hphase => rcases hphase with hphase | hphase <;> cases hdone.symm.trans hphase
    | snapshot hphase | connect hphase | enroll hphase | validate hphase | compare hphase | accept hphase
    | reject hphase => cases hdone.symm.trans hphase
  | reserve _ hphase | call _ hphase | append _ hphase => cases hdone.symm.trans hphase

/-- Of the steps of handlers that the others see nothing of, none gets into a call. -/
theorem not_called_of_quiet {c : Connection} (h : Quiet s k c) (name : Str) (event : CSIEvent) :
    ¬ (c.phase = .calling name event ∨ c.phase = .appended name event) := by
  cases h <;> simp

/-- A step keeps the calls under way among those that have been made. -/
theorem called_step {step : Step} (hcalled : Called s) (h : Goes s step t) : Called t := by
  intro j name event hphase
  have hold : t.connections j = s.connections j → (j, event) ∈ t.calls := fun heq =>
    goes_calls h (hcalled j name event (heq ▸ hphase))
  cases h with
  | reload => exact hold rfl
  | accept =>
    by_cases hj : j = s.accepted
    · rw [hj, set_phase_self] at hphase
      rcases hphase with hphase | hphase <;> cases hphase
    · exact hold (Function.update_of_ne hj ..)
  | @quiet k reply c hk hc =>
    by_cases hj : j = k
    · rw [hj, set_phase_self] at hphase
      exact absurd hphase (not_called_of_quiet hc name event)
    · exact hold (Function.update_of_ne hj ..)
  | @reserve k reply name' event' hk hbefore =>
    by_cases hj : j = k
    · rw [hj, set_phase_self] at hphase
      rcases hphase with hphase | hphase <;> cases hphase
    · exact hold (Function.update_of_ne hj ..)
  | @call k reply name' event' hk hbefore =>
    by_cases hj : j = k
    · rw [hj, set_phase_self] at hphase
      rcases hphase with hphase | hphase <;> cases hphase
      rw [hj]
      exact List.mem_append_right _ (List.mem_singleton_self _)
    · exact hold (Function.update_of_ne hj ..)
  | @append k name' event' hk hbefore =>
    by_cases hj : j = k
    · subst hj
      rw [set_phase_self] at hphase
      rcases hphase with hphase | hphase <;> cases hphase
      exact hcalled j name event (Or.inl hbefore)
    · exact hold (Function.update_of_ne hj ..)

/-- An entry that a handler has made of its decision. -/
structure Entry.Records (s : State) (k : ℕ) (d : Decision) (e : Entry) : Prop where
  decision : e.decision = d
  holds : e.Holds s k

/-- What every run keeps. -/
structure Audited.Inv (s : Audited) : Prop where
  state : s.state.Inv
  called : Called s.state
  pending : ∀ k d, decision? (s.state.connections k).phase = some d →
    ∃ e, s.entries k = some e ∧ e.Records s.state k d
  logged : ∀ r ∈ s.log, (s.state.connections r.1).phase = .done ∧
    (s.state.connections r.1).decisions = [r.2.decision] ∧ r.2.Holds s.state r.1
  once : (s.log.map Prod.fst).Nodup
  complete : ∀ k, (s.state.connections k).phase = .done → k ∈ s.log.map Prod.fst

/-- At the beginning nothing is logged. -/
theorem audited_initial (nodes : List Str) : (Audited.initial nodes).Inv where
  state := inv_initial nodes
  called _ _ _ h := by rcases h with h | h <;> cases h
  pending _ _ h := by cases h
  logged _ h := by cases h
  once := List.nodup_nil
  complete _ h := by cases h

/-- A handler that has a decision has come to its end. -/
theorem ended_of_decision? {phase : Phase} {d : Decision} (h : decision? phase = some d) :
    Phase.Ended phase := by
  cases phase <;> trivial

section Record

variable (r : Audited) (u : State)

/-- Recording an entry leaves the connections. -/
@[simp] theorem record_state : (r.record k errorType u).state = u := by
  rw [Audited.record]
  split <;> rfl

/-- Recording an entry leaves those of the other handlers. -/
theorem record_entries_of_ne {j : ℕ} (hj : j ≠ k) : (r.record k errorType u).entries j = r.entries j := by
  rw [Audited.record]
  split <;> first | rfl | exact Function.update_of_ne hj ..

/-- Nothing is logged before the handler is done. -/
theorem record_log (hdone : (u.connections k).phase ≠ .done) : (r.record k errorType u).log = r.log := by
  rw [Audited.record]
  split
  · rfl
  · rfl
  · rename_i h
    exact absurd h hdone
  · rfl

end Record

/-- A handler that comes to its decision leaves what the connection has taken. -/
theorem settled_of_ended {reply : Reply} (h : Goes s (.go k reply) t)
    (hended : Phase.Ended (t.connections k).phase) : Settled (s.connections k) (t.connections k) := by
  refine ⟨?_, ?_, hended⟩
  all_goals
    cases h with
    | quiet hk hc =>
      rw [set_phase_self] at hended
      rw [set_connections_self]
      cases hc <;> first | rfl | exact hended.elim
    | _ => rw [set_connections_self]

/-- What the handler that takes a step is about to log after it. -/
theorem pending_record {r : Audited} {reply : Reply} (hr : r.Inv)
    (h : system limit r.state (.go k reply) = some t) {d : Decision}
    (hd : decision? (t.connections k).phase = some d) :
    ∃ e, (r.record k errorType t).entries k = some e ∧ e.Records t k d := by
  have hgoes := goes_of_system h
  have hsettled := settled_of_ended hgoes (ended_of_decision? hd)
  cases hphase : (t.connections k).phase with
  | refusing reason =>
    rw [hphase] at hd
    obtain rfl := Option.some.inj hd
    obtain ⟨e, he, hrefuses⟩ := refuses_of_system errorType h hphase
    refine ⟨e, ?_, hrefuses.decision, (hrefuses.holds hr.state hr.called).mono hgoes hsettled⟩
    rw [Audited.record, hphase]
    exact (Function.update_self ..).trans he
  | returned name event =>
    rw [hphase] at hd
    obtain rfl := Option.some.inj hd
    have hbefore := returned_of_goes hgoes hphase
    have hmatched : (r.state.connections k).phase.matched? = some (name, event) := by
      rcases hbefore with hbefore | hbefore <;> rw [hbefore] <;> rfl
    have hname : (r.state.connections k).phase.name? = some name := by
      rcases hbefore with hbefore | hbefore <;> rw [hbefore] <;> rfl
    have hholds : (Entry.accept name event.sequenceNumber event.csiWindowSha256).Holds r.state k := by
      refine ⟨enrolled_of_name hr.state hname, event, hr.called k name event hbefore, ?_, rfl⟩
      rw [CSIEvent.number, (hr.state.connection k).matched name event hmatched]
    refine ⟨_, ?_, rfl, hholds.mono hgoes hsettled⟩
    rw [Audited.record, hphase]
    exact Function.update_self ..
  | _ =>
    rw [hphase] at hd
    cases hd

/-- A decision that another handler has come to, or that has been logged, stays. -/
theorem Audited.Inv.kept {r : Audited} {step : Step} (hr : r.Inv) (h : Goes r.state step t)
    (hsame : t.connections k = r.state.connections k) :
    (∀ d, decision? (t.connections k).phase = some d →
        ∃ e, r.entries k = some e ∧ e.Records t k d) ∧
      ∀ e, (k, e) ∈ r.log → (t.connections k).phase = .done ∧
        (t.connections k).decisions = [e.decision] ∧ e.Holds t k := by
  have hmono : ∀ {e : Entry}, Phase.Ended (r.state.connections k).phase → e.Holds r.state k → e.Holds t k :=
    fun hended hholds => hholds.mono h (goes_settled hr.state h hended)
  constructor
  · intro d hd
    rw [hsame] at hd
    obtain ⟨e, he, hdecision, hholds⟩ := hr.pending k d hd
    exact ⟨e, he, hdecision, hmono (ended_of_decision? hd) hholds⟩
  · intro e he
    obtain ⟨hdone, hdecisions, hholds⟩ := hr.logged (k, e) he
    rw [hsame]
    refine ⟨hdone, hdecisions, hmono ?_ hholds⟩
    rw [hdone]
    trivial

/-- The connections at a step that no handler takes: they stay, but for a new one. -/
theorem connections_of_goes {step : Step} (hs : s.Inv) (h : Goes s step t) (hstep : ∀ k reply, step ≠ .go k reply)
    (k : ℕ) : t.connections k = s.connections k := by
  cases h with
  | reload => rfl
  | accept =>
    by_cases hk : k = s.accepted
    · rw [hk, hs.fresh _ le_rfl, set_connections_self]
    · exact Function.update_of_ne hk ..
  | quiet | reserve | call | append => exact absurd rfl (hstep _ _)

/-- A step that no handler takes keeps the invariant of the log. -/
theorem Audited.Inv.environment {r : Audited} {step : Step} (hr : r.Inv) (h : Goes r.state step t)
    (hstep : ∀ k reply, step ≠ .go k reply) : ({ r with state := t } : Audited).Inv where
  state := hr.state.step h
  called := called_step hr.called h
  pending k d hd := (hr.kept h (connections_of_goes hr.state h hstep k)).1 d hd
  logged x hx := (hr.kept h (connections_of_goes hr.state h hstep x.1)).2 x.2 hx
  once := hr.once
  complete k hk := hr.complete k (connections_of_goes hr.state h hstep k ▸ hk)

/-- A decision that a handler has come to has not been made before. -/
theorem undecided (hs : s.Inv) {d : Decision} (hd : decision? (s.connections k).phase = some d) :
    (s.connections k).decisions = [] := by
  have hdecided := (hs.connection k).decided
  rw [Connection.Decided] at hdecided
  split at hdecided
  · rename_i hphase
    rw [hphase] at hd
    cases hd
  · exact hdecided.1
  · exact hdecided.1

variable (errorType) in
/-- The step of a handler adds its entry to the log just when the handler is done. -/
theorem log_record {r : Audited} {reply : Reply} (hr : r.Inv) (h : Goes r.state (.go k reply) t) :
    ((t.connections k).phase ≠ .done ∧ (r.record k errorType t).log = r.log) ∨
    (t.connections k).phase = .done ∧ ∃ e, (r.record k errorType t).log = r.log ++ [(k, e)] ∧
      (t.connections k).decisions = [e.decision] ∧ e.Holds t k := by
  by_cases hdone : (t.connections k).phase = .done
  · obtain ⟨d, hd, hdecisions⟩ := done_of_goes h hdone
    obtain ⟨e, he, hdecision, hholds⟩ := hr.pending k d hd
    have hnone := undecided hr.state hd
    refine Or.inr ⟨hdone, e, ?_, ?_, hholds.mono h (goes_settled hr.state h (ended_of_decision? hd))⟩
    · rw [Audited.record, hdone, he]
      rfl
    · rw [hdecisions, hnone, hdecision]
      rfl
  · exact Or.inl ⟨hdone, record_log r t hdone⟩

/-- A step of a handler keeps the invariant of the log. -/
theorem Audited.Inv.handler {r : Audited} {reply : Reply} (hr : r.Inv)
    (h : system limit r.state (.go k reply) = some t) : (r.record k errorType t).Inv := by
  have hgoes := goes_of_system h
  have hkept : ∀ {j}, j ≠ k → t.connections j = r.state.connections j := fun hj => goes_other hgoes hj
  have hnew : k ∉ r.log.map Prod.fst := by
    intro hk
    obtain ⟨x, hx, rfl⟩ := List.mem_map.1 hk
    exact not_done_of_goes hgoes (hr.logged x hx).1
  have hne : ∀ {x}, x ∈ r.log → x.1 ≠ k := fun hx heq => hnew (heq ▸ List.mem_map_of_mem hx)
  have hlog := log_record errorType hr hgoes
  refine ⟨?_, ?_, fun j d hd => ?_, fun x hx => ?_, ?_, fun j hj => ?_⟩
  · rw [record_state]
    exact hr.state.step hgoes
  · rw [record_state]
    exact called_step hr.called hgoes
  · rw [record_state] at hd ⊢
    by_cases hj : j = k
    · subst hj
      exact pending_record hr h hd
    · rw [record_entries_of_ne r t hj]
      exact (hr.kept hgoes (hkept hj)).1 d hd
  · rw [record_state]
    rcases hlog with ⟨-, hlog⟩ | ⟨hdone, e, hlog, hdecisions, hholds⟩
    · rw [hlog] at hx
      exact (hr.kept hgoes (hkept (hne hx))).2 x.2 hx
    · rw [hlog] at hx
      rcases List.mem_append.1 hx with hx | hx
      · exact (hr.kept hgoes (hkept (hne hx))).2 x.2 hx
      · rw [List.mem_singleton.1 hx]
        exact ⟨hdone, hdecisions, hholds⟩
  · rcases hlog with ⟨-, hlog⟩ | ⟨-, e, hlog, -⟩
    · rw [hlog]
      exact hr.once
    · rw [hlog, List.map_append]
      exact List.nodup_append'.2 ⟨hr.once, List.nodup_singleton k, by simpa using hnew⟩
  · rw [record_state] at hj
    by_cases hjk : j = k
    · subst hjk
      rcases hlog with ⟨hdone, -⟩ | ⟨-, e, hlog, -⟩
      · exact absurd hj hdone
      · rw [hlog]
        simp
    · have hold := hr.complete j (hkept hjk ▸ hj)
      rcases hlog with ⟨-, hlog⟩ | ⟨-, e, hlog, -⟩
      · rw [hlog]
        exact hold
      · rw [hlog, List.map_append]
        exact List.mem_append_left _ hold

/-- **Every step keeps the invariant of the log.** -/
theorem audited_step {r r' : Audited} {step : Step × List Char} (hr : r.Inv)
    (h : audited limit r step = some r') : r'.Inv := by
  obtain ⟨step, errorType⟩ := step
  obtain ⟨t, ht, rfl⟩ := Option.map_eq_some_iff.1 h
  cases step with
  | reload | accept => exact hr.environment (goes_of_system ht) fun _ _ h => by cases h
  | go k reply => exact hr.handler ht

/-- Every run of the collector with its log keeps the invariant. -/
theorem audited_run {nodes : List Str} {steps : List (Step × List Char)} {t : Audited}
    (hrun : run (audited limit) (.initial nodes) steps = some t) : t.Inv :=
  run_invariant (fun _ _ _ => audited_step) (audited_initial nodes) hrun

/-- The node and the number of an event that was handed to `event_logger`. -/
def Entry.handed? : Entry → Option (Str × ℕ)
  | .forensicsHandoffFailed name n _ => some (name, n)
  | .accept name n _ => some (name, n)
  | _ => none

/-- An entry with an event is about a call of `event_logger`. -/
theorem Entry.Holds.call {number : Str × ℕ} (h : e.Holds s k) (he : e.handed? = some number) :
    ∃ event, (k, event) ∈ s.calls ∧ CSIEvent.number event = number := by
  cases e with
  | forensicsHandoffFailed name n errorType =>
    obtain ⟨-, event, hcall, hnumber⟩ := h
    exact ⟨event, hcall, hnumber.trans (Option.some.inj he)⟩
  | accept name n digest =>
    obtain ⟨-, event, hcall, hnumber, -⟩ := h
    exact ⟨event, hcall, hnumber.trans (Option.some.inj he)⟩
  | _ => cases he

/-- No event is handed over by two handlers. -/
theorem Audited.Inv.handed_once {r : Audited} (hr : r.Inv) :
    (r.log.filterMap fun x => x.2.handed?).Nodup := by
  refine List.pairwise_filterMap.2 ((List.pairwise_map.1 hr.once).imp_of_mem ?_)
  intro x y hx hy hne number hnumber number' hnumber' heq
  obtain ⟨event, hcall, hevent⟩ := (hr.logged x hx).2.2.call hnumber
  obtain ⟨event', hcall', hevent'⟩ := (hr.logged y hy).2.2.call hnumber'
  have hsame := List.inj_on_of_nodup_map hr.state.once hcall hcall' (hevent.trans (heq.trans hevent'.symm))
  exact hne (Prod.mk.inj hsame).1

/-- **The log tells what happened.**  Over every schedule, the handlers that have an entry in the log are
those that are done, with one each; the entry has the decision of the handler, which is to accept just
when its call of `event_logger` has returned; what it says of the certificate, the allow-list, the
sequence numbers and the call is so; and no number of a node is handed over by two of them. -/
theorem log_truthful {nodes : List Str} {steps : List (Step × List Char)} {t : Audited}
    (hrun : run (audited limit) (.initial nodes) steps = some t) :
    (t.log.map Prod.fst).Nodup ∧
    (∀ k, k ∈ t.log.map Prod.fst ↔ (t.state.connections k).phase = .done) ∧
    (∀ k e, (k, e) ∈ t.log → (t.state.connections k).decisions = [e.decision] ∧
      (e.decision = .accept ↔ (t.state.connections k).returned = some true) ∧ e.Holds t.state k) ∧
    (t.log.filterMap fun x => x.2.handed?).Nodup := by
  have h := audited_run hrun
  refine ⟨h.once, fun k => ⟨fun hk => ?_, h.complete k⟩, fun k e he => ?_, h.handed_once⟩
  · obtain ⟨x, hx, rfl⟩ := List.mem_map.1 hk
    exact (h.logged x hx).1
  · obtain ⟨hdone, hdecisions, hholds⟩ := h.logged (k, e) he
    refine ⟨hdecisions, ?_, hholds⟩
    have hdecided := (h.state.connection k).decided
    simp only [Connection.Decided, hdone] at hdecided
    rcases hdecided with ⟨hd, hreturned⟩ | ⟨reason, hd, hreturned⟩
    · rw [(List.cons.inj (hdecisions.symm.trans hd)).1]
      exact iff_of_true rfl hreturned
    · rw [(List.cons.inj (hdecisions.symm.trans hd)).1]
      exact iff_of_false (fun h => by cases h) hreturned

/-- The log of an event that is accepted and of its replay, which is refused. -/
theorem log_truthful_replayed : ∃ t,
    run (audited 65536) (.initial [lit "n"]) (replaySteps.map fun step => (step, [])) = some t ∧
    t.log = [(0, .accept (lit "n") 1 (ofChars (List.replicate 64 'a'))),
      (1, .replayedOrOutOfOrderSequence (lit "n") 1 1)] ∧
    (t.log.map Prod.fst).Nodup ∧ (t.state.connections 0).returned = some true ∧
    (∃ event, (0, event) ∈ t.state.calls ∧ CSIEvent.number event = (lit "n", 1)) ∧
    ∃ q, t.state.lastSequences (lit "n") = some q ∧ 1 ≤ q := by
  have hrun : (run (audited 65536) (.initial [lit "n"]) (replaySteps.map fun step => (step, []))).any
      (fun t => t.log = [(0, .accept (lit "n") 1 (ofChars (List.replicate 64 'a'))),
        (1, .replayedOrOutOfOrderSequence (lit "n") 1 1)]) = true := by
    decide +kernel
  obtain ⟨t, ht, hlog⟩ := (Option.any_eq_true _ _).1 hrun
  have hlog := of_decide_eq_true hlog
  obtain ⟨honce, -, hentries, -⟩ := log_truthful ht
  obtain ⟨-, haccept, -, event, hcall, hnumber, -⟩ := hentries 0 _ (hlog ▸ List.mem_cons_self)
  obtain ⟨-, -, -, -, hlast⟩ := hentries 1 _ (hlog ▸ List.mem_cons_of_mem _ List.mem_cons_self)
  exact ⟨t, ht, hlog, honce, haccept.1 rfl, ⟨event, hcall, hnumber⟩, hlast⟩

end AuditLog
end Collector
end Vestrix
