/-
# Computations that change a state and may fail

Where a program changes files step by step and a step raises, the changes before it stay.
`EStateM` is that: an exception comes with the state that it leaves.

`Leads x s P Q` says what a computation leads to from a state, with one condition for when it returns
and one for when it raises.  There is one rule for each way to put computations together.
-/

import Mathlib.Tactic.TypeStar

namespace Vestrix
namespace Effects

variable {ε σ α β : Type}

/-- From `s`, the computation returns with `P` or raises with `Q`. -/
def Leads (x : EStateM ε σ α) (s : σ) (P : α → σ → Prop) (Q : ε → σ → Prop) : Prop :=
  match x s with
  | .ok a t => P a t
  | .error e t => Q e t

variable {x : EStateM ε σ α} {f : α → EStateM ε σ β} {s : σ} {P P' : α → σ → Prop} {Q Q' : ε → σ → Prop}

/-- What a computation leads to may be said more weakly. -/
theorem Leads.mono (h : Leads x s P Q) (hP : ∀ a t, P a t → P' a t) (hQ : ∀ e t, Q e t → Q' e t) :
    Leads x s P' Q' := by
  unfold Leads at h ⊢
  cases hx : x s with
  | ok a t =>
    rw [hx] at h
    exact hP a t h
  | error e t =>
    rw [hx] at h
    exact hQ e t h

/-- `pure` returns its value and leaves the state. -/
theorem Leads.pure {a : α} (h : P a s) : Leads (Pure.pure a) s P Q := h

/-- One computation after another leads to what the second leads to, from wherever the first returns. -/
theorem Leads.bind {R : β → σ → Prop} (hx : Leads x s P Q) (hf : ∀ a t, P a t → Leads (f a) t R Q) :
    Leads (x >>= f) s R Q := by
  change match EStateM.bind x f s with | .ok a t => R a t | .error e t => Q e t
  unfold Leads at hx
  rw [EStateM.bind]
  cases h : x s with
  | ok a t =>
    rw [h] at hx
    exact hf a t hx
  | error e t =>
    rw [h] at hx
    exact hx

/-- The same, where the first computation raises with less. -/
theorem Leads.bind_of_imp {R : β → σ → Prop} (hx : Leads x s P Q') (hQ : ∀ e t, Q' e t → Q e t)
    (hf : ∀ a t, P a t → Leads (f a) t R Q) : Leads (x >>= f) s R Q :=
  (hx.mono (fun _ _ h => h) hQ).bind hf

/-- `throw` raises its exception and leaves the state. -/
theorem Leads.throw {e : ε} (h : Q e s) : Leads (throw e : EStateM ε σ α) s P Q := h

/-- `modify` returns, in the changed state. -/
theorem Leads.modify {g : σ → σ} {P : PUnit → σ → Prop} (h : P ⟨⟩ (g s)) :
    Leads (modify g : EStateM ε σ PUnit) s P Q := h

/-- `get` returns the state that it leaves. -/
theorem Leads.get {P : σ → σ → Prop} (h : P s s) : Leads (get : EStateM ε σ σ) s P Q := h

/-- What is done about an exception starts from the state that the exception leaves. -/
theorem Leads.tryCatch {R : ε → σ → Prop} {handle : ε → EStateM ε σ α} (hx : Leads x s P R)
    (hhandle : ∀ e t, R e t → Leads (handle e) t P Q) : Leads (tryCatch x handle) s P Q := by
  change match EStateM.tryCatch x handle s with | .ok a t => P a t | .error e t => Q e t
  unfold Leads at hx
  delta EStateM.tryCatch
  cases h : x s with
  | ok a t =>
    rw [h] at hx
    exact hx
  | error e t =>
    rw [h] at hx
    exact hhandle e t hx

/-- A computation that has returned is where it leads to. -/
theorem Leads.of_ok {a : α} {t : σ} (h : Leads x s P Q) (hx : x s = .ok a t) : P a t := by
  rw [Leads, hx] at h
  exact h

/-- What holds of every exception holds of one that has been raised. -/
theorem Leads.of_error {e : ε} {t : σ} (h : Leads x s P Q) (hx : x s = .error e t) : Q e t := by
  rw [Leads, hx] at h
  exact h

end Effects
end Vestrix
