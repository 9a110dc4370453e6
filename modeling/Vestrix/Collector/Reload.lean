/-
# Reloading the security state

`_run` of `__main__.py` handles SIGHUP in the event loop: it starts a reload unless one is
running.  The reload reads the allow-list and builds the TLS context in a thread, and
then swaps both under a lock, which a connection takes to read both.

Each of the two is kept with the load that it comes from and the number of SIGHUPs that
had been handled when its file was read.  A step of `system` is a write to one of the two
files, a signal, or the next step of the reload or of a connection, so that a run is any
interleaving of them.

A signal that is handled while a reload is running is dropped.  `reload_current` is what
remains true: if no signal is handled between the first read of a reload and its end,
then after a reload the state is newer than every signal.  No run lets a connection see
one load's allow-list with another's TLS context.
-/

import Vestrix.Collector.Enrollment
import Vestrix.Transition

namespace Vestrix
namespace Collector
namespace Reload

open Text Outcome Transition

/-- A value, the load that it comes from, and the number of signals that had been handled
when its file was read. -/
structure Loaded (α : Type) where
  value : α
  load : ℕ
  signals : ℕ
deriving DecidableEq

/-- The reload task; `none` and a task that is done are both `idle`. -/
inductive Task (T : Type) where
  | idle
  | started
  | nodesRead (nodes : Loaded (List Str))
  | loaded (nodes : Loaded (List Str)) (context : Loaded T)
  | locked (nodes : Loaded (List Str)) (context : Loaded T)
  | nodesSwapped (context : Loaded T)
  | swapped
  | released
deriving DecidableEq

/-- A connection handler, up to its use of the snapshot. -/
inductive Handler (T : Type) where
  | accepted
  | locked
  | contextRead (context : Loaded T)
  | nodesRead (context : Loaded T) (nodes : Loaded (List Str))
  | serving (context : Loaded T) (nodes : Loaded (List Str))
deriving DecidableEq

/-- Who holds `_security_state_lock`. -/
inductive Holder where
  | reload
  | handler (k : ℕ)
deriving DecidableEq

/-- The collector process and the two files. -/
structure State (F T : Type) where
  allowlist : F
  crl : F
  signals : ℕ
  loads : ℕ
  enrolledNodes : Loaded (List Str)
  tlsContext : Loaded T
  lock : Option Holder
  task : Task T
  handlers : ℕ → Handler T

/-- What can happen next. -/
inductive Step (F : Type) where
  | writeAllowlist (contents : F)
  | writeCrl (contents : F)
  | sighup
  | reload
  | handler (k : ℕ)
deriving DecidableEq

variable {F T : Type} (safeLoad : F → Option Yaml) (buildContext : F → Option T)

/-- `request_reload`. -/
def requestReload (s : State F T) : State F T :=
  match s.task with
  | .idle => { s with signals := s.signals + 1, loads := s.loads + 1, task := .started }
  | _ => { s with signals := s.signals + 1 }

/-- The next step of `reload_security_state`; a load that fails ends the task. -/
def reloadStep (s : State F T) : Option (State F T) :=
  match s.task with
  | .idle => none
  | .started =>
    match loadEnrolledNodes safeLoad s.allowlist with
    | .ok nodes => some { s with task := .nodesRead ⟨nodes, s.loads, s.signals⟩ }
    | .error _ => some { s with task := .idle }
  | .nodesRead nodes =>
    match buildContext s.crl with
    | some context => some { s with task := .loaded nodes ⟨context, s.loads, s.signals⟩ }
    | none => some { s with task := .idle }
  | .loaded nodes context =>
    if s.lock = none then some { s with lock := some .reload, task := .locked nodes context }
    else none
  | .locked nodes context => some { s with enrolledNodes := nodes, task := .nodesSwapped context }
  | .nodesSwapped context => some { s with tlsContext := context, task := .swapped }
  | .swapped => some { s with lock := none, task := .released }
  | .released => some { s with task := .idle }

/-- The next step of `_handle_socket`, up to the handshake. -/
def handlerStep (k : ℕ) (s : State F T) : Option (State F T) :=
  match s.handlers k with
  | .accepted =>
    if s.lock = none then
      some { s with lock := some (.handler k), handlers := Function.update s.handlers k .locked }
    else none
  | .locked =>
    some { s with handlers := Function.update s.handlers k (.contextRead s.tlsContext) }
  | .contextRead context =>
    some { s with handlers := Function.update s.handlers k (.nodesRead context s.enrolledNodes) }
  | .nodesRead context nodes =>
    some { s with lock := none, handlers := Function.update s.handlers k (.serving context nodes) }
  | .serving _ _ => none

/-- The process and its environment. -/
def system (s : State F T) : Step F → Option (State F T)
  | .writeAllowlist contents => some { s with allowlist := contents }
  | .writeCrl contents => some { s with crl := contents }
  | .sighup => some (requestReload s)
  | .reload => reloadStep safeLoad buildContext s
  | .handler k => handlerStep k s

/-- The state of a collector that has just started, if its first load succeeds. -/
def start (allowlist crl : F) : Option (State F T) :=
  match loadEnrolledNodes safeLoad allowlist, buildContext crl with
  | .ok nodes, some context =>
    some ⟨allowlist, crl, 0, 0, ⟨nodes, 0, 0⟩, ⟨context, 0, 0⟩, none, .idle, fun _ => .accepted⟩
  | _, _ => none

/-! ### What a run should keep -/

/-- Where no reload is running, the active state was read after the last signal. -/
def Current (s : State F T) : Prop :=
  s.task = .idle → 0 < s.signals →
    s.enrolledNodes.signals = s.signals ∧ s.tlsContext.signals = s.signals

/-- Every connection uses an allow-list and a TLS context of the same load. -/
def Coherent (s : State F T) : Prop :=
  ∀ k context nodes, s.handlers k = .serving context nodes → context.load = nodes.load

/-- The step does not make a load fail. -/
def LoadSucceeds (s : State F T) : Step F → Prop
  | .reload =>
    match s.task with
    | .started => (loadEnrolledNodes safeLoad s.allowlist).isOk = true
    | .nodesRead _ => (buildContext s.crl).isSome = true
    | _ => True
  | _ => True

/-- The step is not a signal that is handled after a running reload has begun to read. -/
def Timely (s : State F T) : Step F → Prop
  | .sighup => s.task = .idle ∨ s.task = .started
  | _ => True

instance decidableLoadSucceeds (s : State F T) :
    ∀ i, Decidable (LoadSucceeds safeLoad buildContext s i)
  | .writeAllowlist _ | .writeCrl _ | .sighup | .handler _ => inferInstanceAs (Decidable True)
  | .reload =>
    match h : s.task with
    | .started => decidable_of_iff ((loadEnrolledNodes safeLoad s.allowlist).isOk = true)
        (by rw [LoadSucceeds, h])
    | .nodesRead _ => decidable_of_iff ((buildContext s.crl).isSome = true) (by rw [LoadSucceeds, h])
    | .idle | .loaded _ _ | .locked _ _ | .nodesSwapped _ | .swapped | .released =>
      isTrue (by rw [LoadSucceeds, h]; trivial)

instance decidableTimely [DecidableEq T] (s : State F T) : ∀ i, Decidable (Timely s i)
  | .writeAllowlist _ | .writeCrl _ | .reload | .handler _ => inferInstanceAs (Decidable True)
  | .sighup => inferInstanceAs (Decidable (s.task = .idle ∨ s.task = .started))

/-! ### The lock -/

/-- What the reload task knows at each of its steps. -/
def TaskInv (s : State F T) : Task T → Prop
  | .nodesRead nodes => s.lock ≠ some .reload ∧ nodes.load = s.loads
  | .loaded nodes context => s.lock ≠ some .reload ∧ nodes.load = context.load
  | .locked nodes context => s.lock = some .reload ∧ nodes.load = context.load
  | .nodesSwapped context => s.lock = some .reload ∧ s.enrolledNodes.load = context.load
  | .swapped => s.lock = some .reload ∧ s.enrolledNodes.load = s.tlsContext.load
  | _ => s.lock ≠ some .reload

/-- What a handler knows at each of its steps. -/
def HandlerInv (s : State F T) (k : ℕ) : Handler T → Prop
  | .accepted => s.lock ≠ some (.handler k)
  | .locked => s.lock = some (.handler k)
  | .contextRead context => s.lock = some (.handler k) ∧ context = s.tlsContext
  | .nodesRead context nodes => s.lock = some (.handler k) ∧ context.load = nodes.load
  | .serving context nodes => s.lock ≠ some (.handler k) ∧ context.load = nodes.load

/-- What the lock protects: whoever does not find the reload holding it sees two values of
one load. -/
structure Inv (s : State F T) : Prop where
  same : s.lock ≠ some .reload → s.enrolledNodes.load = s.tlsContext.load
  task : TaskInv s s.task
  handler : ∀ k, HandlerInv s k (s.handlers k)

/-- What the lock protects gives every connection values of one load. -/
theorem Inv.coherent {s : State F T} (h : Inv s) : Coherent s := by
  intro k context nodes hk
  have hserving := h.handler k
  rw [hk] at hserving
  exact hserving.2

/-- A handler sees nothing of a step that leaves it the lock and the TLS context. -/
theorem HandlerInv.frame {s t : State F T} {k : ℕ} {a : Handler T} (h : HandlerInv s k a)
    (hlock : t.lock = some (.handler k) ↔ s.lock = some (.handler k))
    (hcontext : s.lock = some (.handler k) → t.tlsContext = s.tlsContext) : HandlerInv t k a := by
  cases a with
  | accepted => exact fun ht => h (hlock.1 ht)
  | locked => exact hlock.2 h
  | contextRead context => exact ⟨hlock.2 h.1, h.2.trans (hcontext h.1).symm⟩
  | nodesRead context nodes => exact ⟨hlock.2 h.1, h.2⟩
  | serving context nodes => exact ⟨fun ht => h.1 (hlock.1 ht), h.2⟩

/-- The reload sees nothing of a step that leaves it the lock and the active state. -/
theorem TaskInv.frame {s t : State F T} {a : Task T} (h : TaskInv s a)
    (hlock : t.lock = some .reload ↔ s.lock = some .reload) (hloads : t.loads = s.loads)
    (hnodes : t.enrolledNodes = s.enrolledNodes) (hcontext : t.tlsContext = s.tlsContext) :
    TaskInv t a := by
  cases a with
  | nodesRead nodes => exact ⟨fun ht => h.1 (hlock.1 ht), h.2.trans hloads.symm⟩
  | loaded nodes context => exact ⟨fun ht => h.1 (hlock.1 ht), h.2⟩
  | locked nodes context => exact ⟨hlock.2 h.1, h.2⟩
  | nodesSwapped context => exact ⟨hlock.2 h.1, (congrArg Loaded.load hnodes).trans h.2⟩
  | swapped => exact ⟨hlock.2 h.1, by rw [hnodes, hcontext]; exact h.2⟩
  | idle => exact fun ht => h (hlock.1 ht)
  | started => exact fun ht => h (hlock.1 ht)
  | released => exact fun ht => h (hlock.1 ht)

/-- A signal keeps what the lock protects. -/
theorem Inv.requestReload {s : State F T} (h : Inv s) : Inv (requestReload s) := by
  have htask := h.task
  rw [Reload.requestReload]
  split
  · rename_i hidle
    rw [hidle] at htask
    exact ⟨h.same, htask, fun k => (h.handler k).frame Iff.rfl fun _ => rfl⟩
  · exact ⟨h.same, htask.frame Iff.rfl rfl rfl rfl, fun k => (h.handler k).frame Iff.rfl fun _ => rfl⟩

variable {safeLoad buildContext}

/-- A step of the reload keeps what the lock protects. -/
theorem Inv.reloadStep {s t : State F T} (h : Inv s)
    (ht : reloadStep safeLoad buildContext s = some t) : Inv t := by
  have htask := h.task
  have hquiet : ∀ {u : State F T}, u.lock = s.lock → u.tlsContext = s.tlsContext →
      u.handlers = s.handlers → ∀ k, HandlerInv u k (u.handlers k) := by
    intro u hlock hcontext hhandlers k
    rw [hhandlers]
    exact (h.handler k).frame (by rw [hlock]) fun _ => hcontext
  have hothers : ∀ {u : State F T}, (u.lock = some .reload ∨ u.lock = none) →
      (s.lock = some .reload ∨ s.lock = none) →
      u.handlers = s.handlers → ∀ k, HandlerInv u k (u.handlers k) := by
    intro u hu hs hhandlers k
    have hnotHeld : ∀ {l : Option Holder}, l = some .reload ∨ l = none → l ≠ some (.handler k) := by
      rintro l (rfl | rfl) <;> exact fun hl => nomatch hl
    rw [hhandlers]
    exact (h.handler k).frame (iff_of_false (hnotHeld hu) (hnotHeld hs))
      fun hl => absurd hl (hnotHeld hs)
  rw [Reload.reloadStep] at ht
  split at ht
  · cases ht
  · rename_i hs
    rw [hs] at htask
    split at ht
    · cases ht
      exact ⟨h.same, ⟨htask, rfl⟩, hquiet rfl rfl rfl⟩
    · cases ht
      exact ⟨h.same, htask, hquiet rfl rfl rfl⟩
  · rename_i nodes hs
    rw [hs] at htask
    split at ht
    · cases ht
      exact ⟨h.same, ⟨htask.1, htask.2⟩, hquiet rfl rfl rfl⟩
    · cases ht
      exact ⟨h.same, htask.1, hquiet rfl rfl rfl⟩
  · rename_i nodes context hs
    rw [hs] at htask
    split_ifs at ht with hlock
    cases ht
    exact ⟨fun hl => absurd rfl hl, ⟨rfl, htask.2⟩, hothers (Or.inl rfl) (Or.inr hlock) rfl⟩
  · rename_i nodes context hs
    rw [hs] at htask
    cases ht
    exact ⟨fun hl => absurd htask.1 hl, ⟨htask.1, htask.2⟩, hquiet rfl rfl rfl⟩
  · rename_i context hs
    rw [hs] at htask
    cases ht
    exact ⟨fun hl => absurd htask.1 hl, ⟨htask.1, htask.2⟩,
      hothers (Or.inl htask.1) (Or.inl htask.1) rfl⟩
  · rename_i hs
    rw [hs] at htask
    cases ht
    exact ⟨fun _ => htask.2, fun hl => (nomatch hl), hothers (Or.inr rfl) (Or.inl htask.1) rfl⟩
  · rename_i hs
    rw [hs] at htask
    cases ht
    exact ⟨h.same, htask, hquiet rfl rfl rfl⟩

/-- A step of a handler keeps what the lock protects. -/
theorem Inv.handlerStep {s t : State F T} {k : ℕ} (h : Inv s) (ht : handlerStep k s = some t) :
    Inv t := by
  have hk := h.handler k
  have hupdate : ∀ {u : State F T} {a : Handler T}, u.handlers = Function.update s.handlers k a →
      HandlerInv u k a → (∀ j, j ≠ k → (u.lock = some (.handler j) ↔ s.lock = some (.handler j))) →
      u.tlsContext = s.tlsContext → ∀ j, HandlerInv u j (u.handlers j) := by
    intro u a hu ha hlock hcontext j
    rw [hu]
    by_cases hj : j = k
    · subst hj
      rw [Function.update_self]
      exact ha
    · rw [Function.update_of_ne hj]
      exact (h.handler j).frame (hlock j hj) fun _ => hcontext
  have hheld : s.lock = some (.handler k) → s.lock ≠ some .reload := fun hl hr => by
    rw [hl] at hr
    cases hr
  have hother : ∀ {l : Option Holder} j, j ≠ k → l = some (.handler k) → l ≠ some (.handler j) := by
    rintro _ j hj rfl hl
    cases hl
    exact hj rfl
  rw [Reload.handlerStep] at ht
  split at ht
  · rename_i hs
    split_ifs at ht with hlock
    cases ht
    exact ⟨fun _ => h.same (by rw [hlock]; exact fun hl => nomatch hl),
      h.task.frame (by rw [hlock]; exact iff_of_false (fun hl => nomatch hl) fun hl => nomatch hl)
        rfl rfl rfl,
      hupdate rfl rfl (fun j hj => by
        rw [hlock]; exact iff_of_false (hother j hj rfl) fun hl => nomatch hl) rfl⟩
  · rename_i hs
    rw [hs] at hk
    cases ht
    exact ⟨h.same, h.task.frame Iff.rfl rfl rfl rfl, hupdate rfl ⟨hk, rfl⟩ (fun _ _ => Iff.rfl) rfl⟩
  · rename_i context hs
    rw [hs] at hk
    cases ht
    refine ⟨h.same, h.task.frame Iff.rfl rfl rfl rfl, hupdate rfl ⟨hk.1, ?_⟩ (fun _ _ => Iff.rfl) rfl⟩
    rw [hk.2, h.same (hheld hk.1)]
  · rename_i context nodes hs
    rw [hs] at hk
    cases ht
    exact ⟨fun _ => h.same (hheld hk.1),
      h.task.frame (iff_of_false (fun hl => nomatch hl) (hheld hk.1)) rfl rfl rfl,
      hupdate rfl ⟨fun hl => (nomatch hl), hk.2⟩
        (fun j hj => iff_of_false (fun hl => nomatch hl) (hother j hj hk.1)) rfl⟩
  · cases ht

/-- Every step keeps what the lock protects. -/
theorem Inv.step {s t : State F T} {i : Step F} (h : Inv s)
    (ht : system safeLoad buildContext s i = some t) : Inv t := by
  cases i with
  | writeAllowlist contents =>
    cases ht
    exact ⟨h.same, h.task.frame Iff.rfl rfl rfl rfl, fun k => (h.handler k).frame Iff.rfl fun _ => rfl⟩
  | writeCrl contents =>
    cases ht
    exact ⟨h.same, h.task.frame Iff.rfl rfl rfl rfl, fun k => (h.handler k).frame Iff.rfl fun _ => rfl⟩
  | sighup =>
    cases ht
    exact h.requestReload
  | reload => exact h.reloadStep ht
  | handler k => exact h.handlerStep ht

/-- After the first load the values are of one load. -/
theorem inv_start {allowlist crl : F} {s : State F T}
    (h : start safeLoad buildContext allowlist crl = some s) : Inv s := by
  rw [start] at h
  split at h
  · cases h
    exact ⟨fun _ => rfl, fun hl => (nomatch hl), fun _ hl => (nomatch hl)⟩
  · cases h

/-! ### The signals -/

/-- What the state is newer than, at each step of a reload. -/
def Fresh (s : State F T) : Prop :=
  match s.task with
  | .started => True
  | .nodesRead nodes => nodes.signals = s.signals
  | .loaded nodes context => nodes.signals = s.signals ∧ context.signals = s.signals
  | .locked nodes context => nodes.signals = s.signals ∧ context.signals = s.signals
  | .nodesSwapped context => s.enrolledNodes.signals = s.signals ∧ context.signals = s.signals
  | _ => 0 < s.signals → s.enrolledNodes.signals = s.signals ∧ s.tlsContext.signals = s.signals

/-- Where no reload is running, the state is newer than the last signal. -/
theorem Fresh.current {s : State F T} (h : Fresh s) : Current s := by
  intro hidle
  rwa [Fresh, hidle] at h

/-- A signal that starts a reload, or comes before it reads, is answered by it. -/
theorem Fresh.requestReload {s : State F T} (hok : s.task = .idle ∨ s.task = .started) :
    Fresh (requestReload s) := by
  rcases hok with hs | hs
  · simp only [Fresh, Reload.requestReload, hs]
  · simp only [Fresh, Reload.requestReload, hs]

/-- Every step of a reload keeps what the state is newer than. -/
theorem Fresh.reloadStep {s t : State F T} (h : Fresh s)
    (hok : LoadSucceeds safeLoad buildContext s .reload)
    (ht : reloadStep safeLoad buildContext s = some t) : Fresh t := by
  rw [Reload.reloadStep] at ht
  rw [LoadSucceeds] at hok
  rw [Fresh] at h
  split at ht
  · cases ht
  · rename_i hs
    rw [hs] at hok
    split at ht
    · cases ht
      exact rfl
    · rename_i e he
      simp only [he] at hok
      cases hok
  · rename_i nodes hs
    rw [hs] at h hok
    split at ht
    · cases ht
      exact ⟨h, rfl⟩
    · rename_i he
      simp only [he] at hok
      cases hok
  · rename_i nodes context hs
    rw [hs] at h
    split_ifs at ht
    cases ht
    exact h
  · rename_i nodes context hs
    rw [hs] at h
    cases ht
    exact h
  · rename_i context hs
    rw [hs] at h
    cases ht
    exact fun _ => h
  · rename_i hs
    rw [hs] at h
    cases ht
    exact h
  · rename_i hs
    rw [hs] at h
    cases ht
    exact h

/-- Each step whose load succeeds and whose signal is timely keeps the state newer than the signals. -/
theorem Fresh.step {s t : State F T} {i : Step F} (h : Fresh s)
    (hok : LoadSucceeds safeLoad buildContext s i ∧ Timely s i)
    (ht : system safeLoad buildContext s i = some t) : Fresh t := by
  cases i with
  | writeAllowlist contents =>
    cases ht
    exact h
  | writeCrl contents =>
    cases ht
    exact h
  | sighup =>
    cases ht
    exact Fresh.requestReload hok.2
  | reload => exact h.reloadStep hok.1 ht
  | handler k =>
    simp only [system, handlerStep] at ht
    split at ht
    · split_ifs at ht
      cases ht
      exact h
    · cases ht
      exact h
    · cases ht
      exact h
    · cases ht
      exact h
    · cases ht

/-- After the first load there has been no signal. -/
theorem fresh_start {allowlist crl : F} {s : State F T}
    (h : start safeLoad buildContext allowlist crl = some s) : Fresh s := by
  rw [start] at h
  split at h
  · cases h
    exact fun h => absurd h (Nat.lt_irrefl 0)
  · cases h

/-! ### Runs -/

/-- **No revocation signal is lost** while none is handled between the first read of a
reload and its end; and whatever the signals, a connection sees one load. -/
theorem reload_current {allowlist crl : F} {s t : State F T} {steps : List (Step F)}
    (hstart : start safeLoad buildContext allowlist crl = some s)
    (hrun : run (system safeLoad buildContext) s steps = some t)
    (hloads : Meets (system safeLoad buildContext) (LoadSucceeds safeLoad buildContext) s steps) :
    (Meets (system safeLoad buildContext) Timely s steps → Current t) ∧ Coherent t := by
  refine ⟨fun htimely => ?_, ?_⟩
  · exact (run_induction (fun _ _ _ h hok ht => Fresh.step h hok ht) (fresh_start hstart)
      (hloads.and htimely) hrun).current
  · exact (run_invariant (fun _ _ _ h ht => Inv.step h ht) (inv_start hstart) hrun).coherent

section

/-- A file with a list of nodes, as its YAML is read. -/
def nodesFile (contents : List Str) : Option Yaml :=
  some (.dict [(.str (lit "nodes"), .list (contents.map .str))])

/-- A collector that has just started. -/
def collector : State (List Str) (List Str) :=
  ⟨[lit "node-1", lit "node-2"], [], 0, 0, ⟨[lit "node-1", lit "node-2"], 0, 0⟩, ⟨[], 0, 0⟩, none,
    .idle, fun _ => .accepted⟩

/-- Two signals, each handled before the reload reads, and a connection after it. -/
theorem reload_current_timely : ∃ t, run (system nodesFile some) collector
      ([.sighup, .writeAllowlist [lit "node-1"], .sighup] ++ List.replicate 7 .reload ++
        List.replicate 4 (.handler 0)) = some t ∧ Current t ∧ Coherent t := by
  have hstart : start nodesFile some [lit "node-1", lit "node-2"] [] = some collector := rfl
  have hrun : run (system nodesFile some) collector
      ([.sighup, .writeAllowlist [lit "node-1"], .sighup] ++ List.replicate 7 .reload ++
        List.replicate 4 (.handler 0)) = some _ := rfl
  refine ⟨_, rfl, ?_⟩
  have h := reload_current hstart hrun (by decide)
  exact ⟨h.1 (by decide), h.2⟩

/-- **A signal that is handled while a reload is running is lost**: the node that the
second write removes stays enrolled after the reload. -/
theorem reload_loses_signal : ¬ ∀ (s t : State (List Str) (List Str)) (steps : List (Step (List Str))),
    start nodesFile some [lit "node-1", lit "node-2"] [] = some s →
      run (system nodesFile some) s steps = some t →
      Meets (system nodesFile some) (LoadSucceeds nodesFile some) s steps →
      Current t ∧ Coherent t := by
  intro h
  have hlost := (h collector _ ([.sighup, .reload, .writeAllowlist [lit "node-1"], .sighup] ++
    List.replicate 6 .reload) rfl rfl (by decide)).1 rfl (Nat.zero_lt_succ 1)
  exact absurd hlost.1 (by decide)

end

end Reload
end Collector
end Vestrix
