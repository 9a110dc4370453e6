/-
# The ingest server

`server.py`: what one connection goes through, from the snapshot of the allow-list to the
logged decision, and the state that the handlers share.  A handler takes its steps one at
a time, with what comes back from the network and from `event_logger` as replies; a
security-state reload and a new connection can come between any two of them.

The sequence check reserves a number under its lock before `event_logger` is called, and
a call that raises keeps the reservation.  This is what makes `event_logger` see a number
once (`ingest_at_most_once`).  With the default adapter a call appends one record to the
chain, at some point before it ends: two calls may append in the other order than they
reserved (`chain_order` and `chain_out_of_order`).
-/

import Vestrix.Collector.Payload
import Vestrix.Text.Lines
import Vestrix.Transition

namespace Vestrix
namespace Collector
namespace Ingest

open Text Json Outcome Python Transition

/-- The reasons of a rejection. -/
inductive Reason where
  | tlsHandshakeFailed
  | internalServerError
  | invalidCertificateCn
  | unenrolledCertificateCn
  | payloadReadTimeout
  | payloadMissingNewline
  | payloadTooLarge
  | emptyPayload
  | payload (error : PayloadError)
  | invalidJsonPayload
  | nodeIdCertificateCnMismatch
  | replayedOrOutOfOrderSequence
  | forensicsHandoffFailed
deriving DecidableEq

/-- A logged decision. -/
inductive Decision where
  | accept
  | reject (reason : Reason)
deriving DecidableEq

/-! ### The payload -/

/-- What `_read_json_line` makes of the bytes before a newline, or of too many. -/
def checkLine (limit : ℕ) (payload : List UInt8) : Except Reason (List UInt8) := do
  require (payload.length ≤ limit) .payloadTooLarge
  require (payload ≠ []) .emptyPayload
  return payload

/-- `_read_json_line`, with the chunks that `recv` returns. -/
def readJsonLine (limit : ℕ) : List UInt8 → List (List UInt8) → Except Reason (List UInt8)
  | _, [] => .error .payloadMissingNewline
  | payload, chunk :: chunks =>
    if chunk = [] then .error .payloadMissingNewline
    else if lineFeed ∈ chunk then checkLine limit (payload ++ chunk.takeWhile (· ≠ lineFeed))
    else if (payload ++ chunk).length ≤ limit then readJsonLine limit (payload ++ chunk) chunks
    else checkLine limit (payload ++ chunk)

/-- `json.loads` on a string that is nested no deeper than the interpreter's recursion limit allows.  A payload
nested more deeply makes it raise `RecursionError`, and is refused as an internal server error. -/
def loadsStr (s : Str) : Except LoadsError Value :=
  if s.head? = some (.scalar '\uFEFF') then .error .jsonDecode else grammar.parse s.length s

/-- The event that a node sends, or the reason that it is rejected for. -/
def readEvent (limit : ℕ) (chunks : List (List UInt8)) : Except Reason CSIEvent := do
  let raw ← readJsonLine limit [] chunks
  let text ← orError .invalidJsonPayload (fromUtf8 raw)
  let decoded ← (loadsStr (ofChars text)).mapError fun
    | .intDigits => .internalServerError
    | _ => .invalidJsonPayload
  (validatePayload decoded).mapError .payload

/-! ### A connection -/

/-- Whether all characters are ASCII. -/
def isAscii (s : Str) : Bool := s.all fun c => decide (c.ord < 128)

/-- `hmac.compare_digest`, which raises on other strings than ASCII. -/
def compareDigest (a b : Str) : Option Bool := if isAscii a && isAscii b then some (a == b) else none

/-- How far a handler is. -/
inductive Phase where
  | accepted
  | snapshotted
  | connected
  | enrolled (name : Str)
  | validated (name : Str) (event : CSIEvent)
  | matched (name : Str) (event : CSIEvent)
  | reserved (name : Str) (event : CSIEvent)
  | calling (name : Str) (event : CSIEvent)
  | appended (name : Str) (event : CSIEvent)
  | returned (name : Str) (event : CSIEvent)
  | refusing (reason : Reason)
  | done
deriving DecidableEq

/-- A connection: the allow-list it has taken, the common names of its certificate, whether
its call of `event_logger` has returned or raised, and the decisions that were logged. -/
structure Connection where
  snapshot : List Str
  names : List Str
  phase : Phase
  returned : Option Bool
  decisions : List Decision
deriving DecidableEq

/-- What comes back to a handler. -/
inductive Reply where
  | done
  | handshakeFailed
  | certificate (names : List Str)
  | received (chunks : List (List UInt8))
  | timeout
  | osError
  | appended
  | returned
  | raised
deriving DecidableEq

/-- The collector: the active allow-list, the last sequence numbers, the calls of
`event_logger`, the records that the default adapter has appended, and the connections. -/
structure State where
  enrolledNodes : List Str
  lastSequences : Str → Option ℕ
  calls : List (ℕ × CSIEvent)
  chain : List CSIEvent
  accepted : ℕ
  connections : ℕ → Connection

/-- What can happen next. -/
inductive Step where
  | reload (nodes : List Str)
  | accept
  | go (k : ℕ) (reply : Reply)
deriving DecidableEq

/-- A connection that has just been accepted. -/
def Connection.new : Connection := ⟨[], [], .accepted, none, []⟩

/-- A connection is somewhere else. -/
def State.set (s : State) (k : ℕ) (c : Connection) : State :=
  { s with connections := Function.update s.connections k c }

/-- The check of the certificate. -/
def checkCertificate (c : Connection) : Phase :=
  match c.names with
  | [name] => if name ∈ c.snapshot then .enrolled name else .refusing .unenrolledCertificateCn
  | _ => .refusing .invalidCertificateCn

/-- The comparison of the two names. -/
def checkNodeId (name : Str) (event : CSIEvent) : Phase :=
  match compareDigest event.nodeId name with
  | some true => .matched name event
  | some false => .refusing .nodeIdCertificateCnMismatch
  | none => .refusing .internalServerError

/-- Whether a sequence number is a replay. -/
def isReplay (previous : Option ℕ) (n : ℕ) : Bool := previous.any fun m => decide (n ≤ m)

/-- The next step of `_handle_socket` and `_handle_tls_socket`. -/
def handlerStep (limit : ℕ) (s : State) (k : ℕ) (reply : Reply) : Option State :=
  let c := s.connections k
  match c.phase, reply with
  | .accepted, .done => some (s.set k { c with snapshot := s.enrolledNodes, phase := .snapshotted })
  | .snapshotted, .certificate names => some (s.set k { c with names := names, phase := .connected })
  | .snapshotted, .handshakeFailed =>
    some (s.set k { c with phase := .refusing .tlsHandshakeFailed })
  | .connected, .done => some (s.set k { c with phase := checkCertificate c })
  | .enrolled name, .received chunks =>
    match readEvent limit chunks with
    | .ok event => some (s.set k { c with phase := .validated name event })
    | .error reason => some (s.set k { c with phase := .refusing reason })
  | .enrolled _, .timeout => some (s.set k { c with phase := .refusing .payloadReadTimeout })
  | .enrolled _, .osError => some (s.set k { c with phase := .refusing .invalidJsonPayload })
  | .validated name event, .done => some (s.set k { c with phase := checkNodeId name event })
  | .matched name event, .done =>
    if isReplay (s.lastSequences name) event.sequenceNumber then
      some (s.set k { c with phase := .refusing .replayedOrOutOfOrderSequence })
    else
      some ({ s with
        lastSequences := Function.update s.lastSequences name (some event.sequenceNumber) }.set k
          { c with phase := .reserved name event })
  | .reserved name event, .done =>
    some ({ s with calls := s.calls ++ [(k, event)] }.set k { c with phase := .calling name event })
  | .calling name event, .appended =>
    some ({ s with chain := s.chain ++ [event] }.set k { c with phase := .appended name event })
  | .calling name event, .returned | .appended name event, .returned =>
    some (s.set k { c with phase := .returned name event, returned := some true })
  | .calling _ _, .raised | .appended _ _, .raised =>
    some (s.set k { c with phase := .refusing .forensicsHandoffFailed, returned := some false })
  | .returned _ _, .done =>
    some (s.set k { c with phase := .done, decisions := c.decisions ++ [.accept] })
  | .refusing reason, .done =>
    some (s.set k { c with phase := .done, decisions := c.decisions ++ [.reject reason] })
  | _, _ => none

/-- The collector process and its environment. -/
def system (limit : ℕ) (s : State) : Step → Option State
  | .reload nodes => some { s with enrolledNodes := nodes }
  | .accept => some ({ s with accepted := s.accepted + 1 }.set s.accepted .new)
  | .go k reply => if k < s.accepted then handlerStep limit s k reply else none

/-- A collector that has just started. -/
def State.initial (nodes : List Str) : State := ⟨nodes, fun _ => none, [], [], 0, fun _ => .new⟩

/-! ### What a handler can do -/

/-- The handler that the others see nothing of. -/
inductive Quiet (s : State) (k : ℕ) : Connection → Prop where
  | snapshot (hphase : (s.connections k).phase = .accepted) :
      Quiet s k { s.connections k with snapshot := s.enrolledNodes, phase := .snapshotted }
  | connect {names} (hphase : (s.connections k).phase = .snapshotted) :
      Quiet s k { s.connections k with names := names, phase := .connected }
  | enroll {name} (hphase : (s.connections k).phase = .connected)
      (hnames : (s.connections k).names = [name]) (hname : name ∈ (s.connections k).snapshot) :
      Quiet s k { s.connections k with phase := .enrolled name }
  | validate {name event} (hphase : (s.connections k).phase = .enrolled name) :
      Quiet s k { s.connections k with phase := .validated name event }
  | compare {name event} (hphase : (s.connections k).phase = .validated name event)
      (hname : event.nodeId = name) : Quiet s k { s.connections k with phase := .matched name event }
  | finish {name event} (hphase : (s.connections k).phase = .calling name event ∨
        (s.connections k).phase = .appended name event) :
      Quiet s k { s.connections k with phase := .returned name event, returned := some true }
  | raise {name event} (hphase : (s.connections k).phase = .calling name event ∨
        (s.connections k).phase = .appended name event) :
      Quiet s k { s.connections k with
        phase := .refusing .forensicsHandoffFailed, returned := some false }
  | refuse {reason} (hphase : ∀ name event, (s.connections k).phase ≠ .returned name event)
      (hbefore : (s.connections k).phase ≠ .done) :
      Quiet s k { s.connections k with phase := .refusing reason }
  | accept {name event} (hphase : (s.connections k).phase = .returned name event) :
      Quiet s k { s.connections k with
        phase := .done, decisions := (s.connections k).decisions ++ [.accept] }
  | reject {reason} (hphase : (s.connections k).phase = .refusing reason) :
      Quiet s k { s.connections k with
        phase := .done, decisions := (s.connections k).decisions ++ [.reject reason] }

/-- Every way that the collector goes on. -/
inductive Goes (s : State) : Step → State → Prop where
  | reload {nodes} : Goes s (.reload nodes) { s with enrolledNodes := nodes }
  | accept : Goes s .accept ({ s with accepted := s.accepted + 1 }.set s.accepted .new)
  | quiet {k reply c} (hk : k < s.accepted) (hc : Quiet s k c) : Goes s (.go k reply) (s.set k c)
  | reserve {k reply name event} (hk : k < s.accepted)
      (hphase : (s.connections k).phase = .matched name event)
      (hreplay : ∀ q, s.lastSequences name = some q → q < event.sequenceNumber) :
      Goes s (.go k reply) ({ s with
        lastSequences := Function.update s.lastSequences name (some event.sequenceNumber) }.set k
          { s.connections k with phase := .reserved name event })
  | call {k reply name event} (hk : k < s.accepted)
      (hphase : (s.connections k).phase = .reserved name event) :
      Goes s (.go k reply) ({ s with calls := s.calls ++ [(k, event)] }.set k
        { s.connections k with phase := .calling name event })
  | append {k name event} (hk : k < s.accepted)
      (hphase : (s.connections k).phase = .calling name event) :
      Goes s (.go k .appended) ({ s with chain := s.chain ++ [event] }.set k
        { s.connections k with phase := .appended name event })

variable {limit : ℕ} {s t : State}

/-- The others see nothing of the check of a certificate. -/
theorem checkCertificate_quiet {k : ℕ} (hphase : (s.connections k).phase = .connected) :
    Quiet s k { s.connections k with phase := checkCertificate (s.connections k) } := by
  have hrefuse : ∀ {reason}, Quiet s k { s.connections k with phase := .refusing reason } := fun {_} =>
    .refuse (by simp [hphase]) (by simp [hphase])
  rw [checkCertificate]
  split
  · rename_i name hnames
    split_ifs with hname
    · exact .enroll hphase hnames hname
    · exact hrefuse
  · exact hrefuse

/-- Texts that `compare_digest` finds equal are equal. -/
theorem compareDigest_eq_true {a b : Str} (h : compareDigest a b = some true) : a = b := by
  rw [compareDigest] at h
  split_ifs at h
  exact beq_iff_eq.1 (Option.some.inj h)

/-- The others see nothing of the comparison of the names. -/
theorem checkNodeId_quiet {k : ℕ} {name : Str} {event : CSIEvent}
    (hphase : (s.connections k).phase = .validated name event) :
    Quiet s k { s.connections k with phase := checkNodeId name event } := by
  have hrefuse : ∀ {reason}, Quiet s k { s.connections k with phase := .refusing reason } := fun {_} =>
    .refuse (by simp [hphase]) (by simp [hphase])
  rw [checkNodeId]
  split
  · rename_i hequal
    exact .compare hphase (compareDigest_eq_true hequal)
  · exact hrefuse
  · exact hrefuse

/-- A number that is no replay is above the last one of its node. -/
theorem isReplay_eq_false {previous : Option ℕ} {n : ℕ} (h : ¬ isReplay previous n = true) :
    ∀ q, previous = some q → q < n := by
  rintro q rfl
  simpa [isReplay] using h

/-- **A step of the collector is one of those** that `Goes` lists. -/
theorem goes_of_system {step : Step} (h : system limit s step = some t) : Goes s step t := by
  cases step with
  | reload nodes =>
    cases h
    exact .reload
  | accept =>
    cases h
    exact .accept
  | go k reply =>
    rw [system] at h
    split_ifs at h with hk
    rw [handlerStep.eq_def] at h
    dsimp only at h
    split at h
    · rename_i hphase
      cases h
      exact .quiet hk (.snapshot hphase)
    · rename_i names hphase
      cases h
      exact .quiet hk (.connect hphase)
    · rename_i hphase
      cases h
      exact .quiet hk (.refuse (by simp [hphase]) (by simp [hphase]))
    · rename_i hphase
      cases h
      exact .quiet hk (checkCertificate_quiet hphase)
    · rename_i name chunks hphase
      split at h
      · cases h
        exact .quiet hk (.validate hphase)
      · cases h
        exact .quiet hk (.refuse (by simp [hphase]) (by simp [hphase]))
    · rename_i name hphase
      cases h
      exact .quiet hk (.refuse (by simp [hphase]) (by simp [hphase]))
    · rename_i name hphase
      cases h
      exact .quiet hk (.refuse (by simp [hphase]) (by simp [hphase]))
    · rename_i name event hphase
      cases h
      exact .quiet hk (checkNodeId_quiet hphase)
    · rename_i name event hphase
      split_ifs at h with hreplay
      · cases h
        exact .quiet hk (.refuse (by simp [hphase]) (by simp [hphase]))
      · cases h
        exact .reserve hk hphase (isReplay_eq_false hreplay)
    · rename_i name event hphase
      cases h
      exact .call hk hphase
    · rename_i name event hphase
      cases h
      exact .append hk hphase
    · rename_i name event hphase
      cases h
      exact .quiet hk (.finish (Or.inl hphase))
    · rename_i name event hphase
      cases h
      exact .quiet hk (.finish (Or.inr hphase))
    · rename_i name event hphase
      cases h
      exact .quiet hk (.raise (Or.inl hphase))
    · rename_i name event hphase
      cases h
      exact .quiet hk (.raise (Or.inr hphase))
    · rename_i name event hphase
      cases h
      exact .quiet hk (.accept hphase)
    · rename_i reason hphase
      cases h
      exact .quiet hk (.reject hphase)
    · cases h

/-! ### What a connection knows -/

/-- The name and the event that a handler has matched. -/
def Phase.matched? : Phase → Option (Str × CSIEvent)
  | .matched name event => some (name, event)
  | .reserved name event => some (name, event)
  | .calling name event => some (name, event)
  | .appended name event => some (name, event)
  | .returned name event => some (name, event)
  | _ => none

/-- The name that a handler has found in its allow-list. -/
def Phase.name? : Phase → Option Str
  | .enrolled name => some name
  | .validated name _ => some name
  | phase => phase.matched?.map Prod.fst

/-- Whether a handler has not checked its certificate yet. -/
def Phase.Early (phase : Phase) : Prop := phase = .accepted ∨ phase = .snapshotted

/-- The decisions and the call of a connection agree with its phase. -/
def Connection.Decided (c : Connection) : Prop :=
  match c.phase with
  | .done => c.decisions = [.accept] ∧ c.returned = some true ∨
    ∃ reason, c.decisions = [.reject reason] ∧ c.returned ≠ some true
  | .returned _ _ => c.decisions = [] ∧ c.returned = some true
  | _ => c.decisions = [] ∧ c.returned ≠ some true

/-- What is true of every connection. -/
structure Connection.Inv (c : Connection) : Prop where
  named : ∀ name, c.phase.name? = some name → c.names = [name] ∧ name ∈ c.snapshot
  matched : ∀ name event, c.phase.matched? = some (name, event) → event.nodeId = name
  decided : c.Decided

/-- A new connection has decided nothing. -/
theorem Connection.inv_new : Connection.new.Inv :=
  ⟨fun _ h => (nomatch h), fun _ _ h => (nomatch h), rfl, fun h => nomatch h⟩

/-- A handler that is under way, and has no call behind it that returned, has decided nothing. -/
theorem Connection.Inv.undecided {c : Connection} (h : c.Inv)
    (hphase : c.phase ≠ .done) (hreturned : ∀ name event, c.phase ≠ .returned name event) :
    c.decisions = [] ∧ c.returned ≠ some true := by
  have hdecided := h.decided
  rw [Connection.Decided] at hdecided
  split at hdecided
  · rename_i hp
    exact absurd hp hphase
  · rename_i hp
    exact absurd hp (hreturned _ _)
  · exact hdecided

/-- Every step of a handler keeps what is true of its connection. -/
theorem Quiet.inv {k : ℕ} {c : Connection} (h : (s.connections k).Inv) (hc : Quiet s k c) : c.Inv := by
  have hundecided := h.undecided
  cases hc with
  | snapshot hphase =>
    exact ⟨fun _ h => (nomatch h), fun _ _ h => (nomatch h), hundecided (by simp [hphase]) (by simp [hphase])⟩
  | connect hphase =>
    exact ⟨fun _ h => (nomatch h), fun _ _ h => (nomatch h), hundecided (by simp [hphase]) (by simp [hphase])⟩
  | enroll hphase hnames hname =>
    refine ⟨fun name h => ?_, fun _ _ h => (nomatch h), hundecided (by simp [hphase]) (by simp [hphase])⟩
    cases h
    exact ⟨hnames, hname⟩
  | @validate name event hphase =>
    refine ⟨fun name' h' => ?_, fun _ _ h => (nomatch h), hundecided (by simp [hphase]) (by simp [hphase])⟩
    cases h'
    exact h.named name (by rw [hphase]; rfl)
  | @compare name event hphase hname =>
    refine ⟨fun name' h' => ?_, fun name' event' h' => ?_, hundecided (by simp [hphase]) (by simp [hphase])⟩
    · cases h'
      exact h.named name (by rw [hphase]; rfl)
    · cases h'
      exact hname
  | @finish name event hphase =>
    have hmatched : (s.connections k).phase.matched? = some (name, event) := by
      rcases hphase with hp | hp <;> rw [hp] <;> rfl
    have hname : (s.connections k).phase.name? = some name := by
      rcases hphase with hp | hp <;> rw [hp] <;> rfl
    refine ⟨fun name' h' => ?_, fun name' event' h' => ?_, ?_, rfl⟩
    · cases h'
      exact h.named name hname
    · cases h'
      exact h.matched name event hmatched
    · rcases hphase with hp | hp
      · exact (hundecided (by simp [hp]) (by simp [hp])).1
      · exact (hundecided (by simp [hp]) (by simp [hp])).1
  | raise hphase =>
    refine ⟨fun _ h => (nomatch h), fun _ _ h => (nomatch h), ?_, fun h => nomatch h⟩
    rcases hphase with hp | hp
    · exact (hundecided (by simp [hp]) (by simp [hp])).1
    · exact (hundecided (by simp [hp]) (by simp [hp])).1
  | refuse hphase hbefore =>
    exact ⟨fun _ h => (nomatch h), fun _ _ h => (nomatch h), hundecided hbefore hphase⟩
  | accept hphase =>
    have hdecided := h.decided
    rw [Connection.Decided, hphase] at hdecided
    refine ⟨fun _ h => (nomatch h), fun _ _ h => (nomatch h), Or.inl ⟨?_, hdecided.2⟩⟩
    exact (congrArg (· ++ [.accept]) hdecided.1)
  | @reject reason hphase =>
    have hdecided := hundecided (by simp [hphase]) (by simp [hphase])
    refine ⟨fun _ h => (nomatch h), fun _ _ h => (nomatch h), Or.inr ⟨reason, ?_, hdecided.2⟩⟩
    exact (congrArg (· ++ [.reject reason]) hdecided.1)

end Ingest
end Collector
end Vestrix
