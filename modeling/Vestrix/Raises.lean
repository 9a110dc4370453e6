/-
# Errors that can come out

`Raises P x`: if the computation `x` fails, it fails with an error that `P` holds of.  It goes
through a chain of steps step by step, as `bind_eq_ok` does for success, and where the first
steps of a chain cannot raise an error, the chain raises it when the others do.
-/

import Vestrix.Outcome

namespace Vestrix
namespace Outcome

variable {ε α β : Type}

/-- Every error of a computation satisfies `P`. -/
def Raises (P : ε → Prop) (x : Except ε α) : Prop := ∀ e, x = .error e → P e

variable {P Q : ε → Prop} {x : Except ε α} {f : α → Except ε β} {e : ε}

/-- An outcome that is a result raises nothing. -/
theorem Raises.of_ok {a : α} (h : x = .ok a) : Raises P x := by
  intro e he
  rw [h] at he
  cases he

/-- A result raises nothing. -/
theorem Raises.ok {a : α} : Raises P (Except.ok a : Except ε α) := .of_ok rfl

/-- An exception that is allowed may be raised. -/
theorem Raises.error (h : P e) : Raises P (Except.error e : Except ε α) := by
  intro e' he
  exact Except.error.inj he ▸ h

/-- `require` raises what it is given. -/
theorem Raises.require {p : Prop} [Decidable p] (h : P e) : Raises P (require p e) := by
  intro e' he
  exact (require_eq_error.1 he).2 ▸ h

/-- More exceptions may be allowed. -/
theorem Raises.mono (hPQ : ∀ e, P e → Q e) (h : Raises P x) : Raises Q x := fun e he => hPQ e (h e he)

/-- A computation that raises nothing has a result. -/
theorem raises_false_iff : Raises (fun _ => False) x ↔ ∃ a, x = .ok a := by
  constructor
  · intro h
    cases hx : x with
    | ok a => exact ⟨a, rfl⟩
    | error e => exact (h e hx).elim
  · rintro ⟨a, h⟩
    exact .of_ok h

/-- The errors of a step followed by others are those of the step and those of the others. -/
theorem Raises.bind (hx : Raises P x) (hf : ∀ a, x = .ok a → Raises P (f a)) : Raises P (x >>= f) := by
  intro e he
  rcases bind_eq_error.1 he with he | ⟨a, ha, he⟩
  · exact hx e he
  · exact hf a ha e he

/-- Checks made one after the other raise what each of them does. -/
theorem raises_checkAll {f : α → Except ε Unit} {xs : List α} (h : ∀ x ∈ xs, Raises P (f x)) :
    Raises P (checkAll f xs) := by
  induction xs with
  | nil => exact .ok
  | cons x xs ih =>
    rw [List.forall_mem_cons] at h
    rw [checkAll]
    cases hx : f x with
    | ok _ => exact ih h.2
    | error e => exact .error (h.1 e hx)

/-- Renamed exceptions are allowed just if the exceptions are, by their new names. -/
theorem raises_mapError_iff {ε' : Type} {Q : ε' → Prop} {g : ε → ε'} :
    Raises Q (x.mapError g) ↔ Raises (fun e => Q (g e)) x := by
  cases x with
  | ok a => exact ⟨fun _ => .ok, fun _ => .ok⟩
  | error e => exact ⟨fun h => .error (h _ rfl), fun h => .error (h e rfl)⟩

/-- An error that a step does not raise comes from the steps after it. -/
theorem Raises.bind_eq_error (hx : Raises P x) (he : ¬ P e) :
    (x >>= f) = .error e ↔ ∃ a, x = .ok a ∧ f a = .error e := by
  rw [Outcome.bind_eq_error]
  refine ⟨fun h => h.resolve_left fun h => he (hx e h), Or.inr⟩

/-- An error that a check does not raise comes from the steps after it, when the check has passed. -/
theorem Raises.check_bind_eq_error {y : Except ε Unit} {g : Unit → Except ε β} (hy : Raises P y)
    (he : ¬ P e) : (y >>= g) = .error e ↔ y = .ok () ∧ g () = .error e := by
  rw [hy.bind_eq_error he]
  constructor
  · rintro ⟨_, hok, hg⟩
    exact ⟨hok, hg⟩
  · rintro ⟨hok, hg⟩
    exact ⟨(), hok, hg⟩

/-- An error that the steps after it do not raise comes from the first step. -/
theorem Raises.bind_eq_error_left (hf : ∀ a, x = .ok a → Raises P (f a)) (he : ¬ P e) :
    (x >>= f) = .error e ↔ x = .error e := by
  rw [Outcome.bind_eq_error]
  refine ⟨fun h => h.resolve_right ?_, Or.inl⟩
  rintro ⟨a, ha, h⟩
  exact he (hf a ha e h)

/-- Where the steps after a first one raise nothing else, a chain raises what the first step does. -/
theorem Raises.bind_iff (hf : ∀ a, x = .ok a → Raises P (f a)) : Raises P (x >>= f) ↔ Raises P x :=
  ⟨fun h e he => h e (Outcome.bind_eq_error.2 (Or.inl he)), fun h => h.bind hf⟩

/-- After a demand whose exception is allowed, the rest matters where the demand is met. -/
theorem Raises.require_bind_iff {p : Prop} [Decidable p] {f : Unit → Except ε β} (h : P e) :
    Raises P (Outcome.require p e >>= f) ↔ (p → Raises P (f ())) := by
  by_cases hp : p
  · rw [require_true hp, ok_bind]
    exact ⟨fun hf _ => hf, fun hf => hf hp⟩
  · rw [require_false hp, error_bind]
    exact ⟨fun _ hp' => absurd hp' hp, fun _ => .error h⟩

/-- An error that a check does not raise comes from the steps after it. -/
theorem require_bind_error {p : Prop} [Decidable p] {e' : ε} {f : Unit → Except ε β}
    (h : (Outcome.require p e >>= f) = .error e') (he : e ≠ e') : p ∧ f () = .error e' := by
  rcases Outcome.bind_eq_error.1 h with h | ⟨_, hp, h⟩
  · exact absurd (require_eq_error.1 h).2 he
  · exact ⟨require_eq_ok.1 hp, h⟩

end Outcome
end Vestrix
