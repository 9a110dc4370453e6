/-
# Computations that fail

Both programs stop at the first thing they find wrong, so that every function of the
model which can fail is in `Except`.  A check is `require`, and a proof that a chain
of steps succeeded is taken apart with `bind_eq_ok`.  A Python generator that is read to
its end, or until the reader fails, is a `Generator`.
-/

import Mathlib.Tactic.SplitIfs
import Mathlib.Tactic.TypeStar

namespace Vestrix
namespace Outcome

variable {ε α β : Type*}

/-- Go on if `p` holds, else fail with `e`. -/
def require (p : Prop) [Decidable p] (e : ε) : Except ε Unit := if p then .ok () else .error e

/-- The value, or a failure where there is none. -/
def orError (e : ε) : Option α → Except ε α
  | some a => .ok a
  | none => .error e

/-- The same check of each element in turn. -/
def checkAll (f : α → Except ε Unit) : List α → Except ε Unit
  | [] => .ok ()
  | x :: xs =>
    match f x with
    | .ok _ => checkAll f xs
    | .error e => .error e

/-- The results of steps taken one after the other. -/
def sequence : List (Except ε α) → Except ε (List α)
  | [] => .ok []
  | .error e :: _ => .error e
  | .ok y :: xs => (sequence xs).map (y :: ·)

section

variable {p : Prop} [Decidable p] {e : ε}

/-- A demand that is met does nothing. -/
theorem require_true (h : p) : require p e = .ok () := if_pos h

/-- A demand that is not met raises its exception. -/
theorem require_false (h : ¬ p) : require p e = .error e := if_neg h

/-- `require` returns just if its demand is met. -/
@[simp] theorem require_eq_ok {u : Unit} : require p e = .ok u ↔ p := by
  unfold require
  split_ifs with h
  · exact ⟨fun _ => h, fun _ => rfl⟩
  · exact ⟨fun h' => (nomatch h'), fun h' => absurd h' h⟩

/-- `require` raises its own exception, just if its demand is not met. -/
@[simp] theorem require_eq_error {e' : ε} : require p e = .error e' ↔ ¬ p ∧ e = e' := by
  unfold require
  split_ifs with h
  · exact ⟨fun h' => (nomatch h'), fun h' => absurd h h'.1⟩
  · rw [Except.error.injEq]
    exact ⟨fun h' => ⟨h, h'⟩, fun h' => h'.2⟩

end

/-- `orError` returns the value that there is. -/
@[simp] theorem orError_eq_ok {e : ε} {o : Option α} {a : α} : orError e o = .ok a ↔ o = some a := by
  cases o with
  | none => exact ⟨fun h => (nomatch h), fun h => (nomatch h)⟩
  | some b => rw [orError, Except.ok.injEq, Option.some.injEq]

section

variable {ε α β : Type}

/-- A computation that is seen to succeed has a result. -/
theorem exists_of_isOk {x : Except ε α} (h : x.isOk = true) : ∃ a, x = .ok a := by
  cases x with
  | error e => cases h
  | ok a => exact ⟨a, rfl⟩

/-- After a result, the rest goes on with it. -/
@[simp] theorem ok_bind (a : α) (f : α → Except ε β) : (Except.ok a >>= f) = f a := rfl

/-- After an exception there is nothing more. -/
@[simp] theorem error_bind (e : ε) (f : α → Except ε β) : (Except.error e >>= f) = .error e := rfl

/-- A failure is no success, as what is false does not hold. -/
theorem error_eq_ok_iff {e : ε} {a : α} {p : Prop} (h : ¬ p) : (Except.error e : Except ε α) = .ok a ↔ p :=
  ⟨fun h' => (nomatch h'), fun hp => absurd hp h⟩

/-- A step followed by others succeeds when all do. -/
theorem bind_eq_ok {x : Except ε α} {f : α → Except ε β} {b : β} :
    (x >>= f) = .ok b ↔ ∃ a, x = .ok a ∧ f a = .ok b := by
  cases x with
  | error e => exact ⟨fun h => (nomatch h), fun ⟨_, h, _⟩ => (nomatch h)⟩
  | ok a =>
    refine ⟨fun h => ⟨a, rfl, h⟩, ?_⟩
    rintro ⟨a', h, hf⟩
    obtain rfl := Except.ok.inj h
    exact hf

/-- A sequence raises what its first part raises, or what the rest raises after it. -/
theorem bind_eq_error {x : Except ε α} {f : α → Except ε β} {e : ε} :
    (x >>= f) = .error e ↔ x = .error e ∨ ∃ a, x = .ok a ∧ f a = .error e := by
  cases x with
  | error e' =>
    rw [error_bind, Except.error.injEq, Except.error.injEq]
    refine ⟨Or.inl, ?_⟩
    rintro (h | ⟨a, h, -⟩)
    · exact h
    · cases h
  | ok a =>
    refine ⟨fun h => Or.inr ⟨a, rfl, h⟩, ?_⟩
    rintro (h | ⟨a', h, hf⟩)
    · cases h
    · obtain rfl := Except.ok.inj h
      exact hf

/-- Checks made one after the other all succeed when each does. -/
theorem checkAll_eq_ok {f : α → Except ε Unit} {xs : List α} {u : Unit} :
    checkAll f xs = .ok u ↔ ∀ x ∈ xs, f x = .ok () := by
  induction xs with
  | nil => exact ⟨fun _ _ h => absurd h List.not_mem_nil, fun _ => rfl⟩
  | cons x xs ih =>
    rw [checkAll, List.forall_mem_cons, ← ih]
    cases f x with
    | ok _ => exact ⟨fun h => ⟨rfl, h⟩, fun h => h.2⟩
    | error e => exact ⟨fun h => (nomatch h), fun h => (nomatch h.1)⟩

end

/-- A mapped outcome is a result just if the outcome is. -/
theorem map_eq_ok {f : α → β} {x : Except ε α} {b : β} :
    x.map f = .ok b ↔ ∃ a, x = .ok a ∧ f a = b := by
  cases x with
  | error e => exact ⟨fun h => (nomatch h), fun ⟨_, h, _⟩ => (nomatch h)⟩
  | ok a =>
    rw [Except.map, Except.ok.injEq]
    exact ⟨fun h => ⟨a, rfl, h⟩, fun ⟨_, h, h'⟩ => Except.ok.inj h ▸ h'⟩

/-- Renaming exceptions leaves the results. -/
theorem mapError_eq_ok {ε' : Type*} {f : ε → ε'} {x : Except ε α} {a : α} :
    x.mapError f = .ok a ↔ x = .ok a := by
  cases x with
  | error e => exact ⟨fun h => (nomatch h), fun h => (nomatch h)⟩
  | ok b => rw [Except.mapError, Except.ok.injEq, Except.ok.injEq]

/-- An error that has been translated is the translation of one. -/
theorem mapError_eq_error {ε' : Type*} {f : ε → ε'} {x : Except ε α} {e : ε'} :
    x.mapError f = .error e ↔ ∃ e', x = .error e' ∧ f e' = e := by
  cases x with
  | ok a => exact ⟨fun h => (nomatch h), fun ⟨_, h, _⟩ => (nomatch h)⟩
  | error e' =>
    rw [Except.mapError, Except.error.injEq]
    exact ⟨fun h => ⟨e', rfl, h⟩, fun ⟨_, h, h'⟩ => Except.error.inj h ▸ h'⟩

/-- Steps taken one after the other all succeed when each does. -/
theorem sequence_eq_ok {f : α → Except ε β} {g : α → β} {p : α → Prop} {xs : List α}
    (h : ∀ x ∈ xs, ∀ y, f x = .ok y ↔ p x ∧ g x = y) (ys : List β) :
    sequence (xs.map f) = .ok ys ↔ (∀ x ∈ xs, p x) ∧ xs.map g = ys := by
  induction xs generalizing ys with
  | nil =>
    rw [List.map_nil, sequence, Except.ok.injEq]
    exact ⟨fun h => ⟨fun _ hx => absurd hx List.not_mem_nil, h⟩, fun h => h.2⟩
  | cons x xs ih =>
    rw [List.forall_mem_cons] at h
    rw [List.forall_mem_cons, List.map_cons, List.map_cons]
    cases hx : f x with
    | error e =>
      refine ⟨fun h' => (nomatch h'), fun h' => ?_⟩
      rw [(h.1 (g x)).2 ⟨h'.1.1, rfl⟩] at hx
      cases hx
    | ok y =>
      obtain ⟨hp, rfl⟩ := (h.1 y).1 hx
      rw [sequence]
      simp only [map_eq_ok, ih h.2]
      constructor
      · rintro ⟨zs, ⟨hall, rfl⟩, rfl⟩
        exact ⟨⟨hp, hall⟩, rfl⟩
      · rintro ⟨⟨-, hall⟩, rfl⟩
        exact ⟨_, ⟨hall, rfl⟩, rfl⟩

section

variable {ε ε' α β : Type} {f : ε → ε'}

/-- Errors are renamed before or after a map. -/
theorem map_mapError (g : α → β) (x : Except ε α) : (x.mapError f).map g = (x.map g).mapError f := by
  cases x <;> rfl

/-- Errors are renamed in each step or in the whole. -/
theorem sequence_mapError (xs : List (Except ε α)) :
    sequence (xs.map (Except.mapError f)) = (sequence xs).mapError f := by
  induction xs with
  | nil => rfl
  | cons x xs ih =>
    cases x with
    | error e => rfl
    | ok y =>
      rw [List.map_cons, Except.mapError, sequence, sequence, ih]
      cases sequence xs <;> rfl

/-- Steps of which one fails, and none with another error. -/
theorem sequence_eq_error {e : ε} {xs : List (Except ε α)} (hmem : .error e ∈ xs)
    (h : ∀ x ∈ xs, (∃ a, x = .ok a) ∨ x = .error e) : sequence xs = .error e := by
  induction xs with
  | nil => exact absurd hmem List.not_mem_nil
  | cons x xs ih =>
    obtain ⟨hx, hxs⟩ := List.forall_mem_cons.1 h
    rcases hx with ⟨a, rfl⟩ | rfl
    · have htail : .error e ∈ xs := (List.mem_cons.1 hmem).resolve_left fun heq => by cases heq
      rw [sequence, ih htail hxs]
      rfl
    · rfl

end

/-! ### Generators -/

/-- What a generator does: it yields some values, and then returns or fails. -/
inductive Generator (ε α : Type) where
  | done
  | raise (e : ε)
  | yield (a : α) (rest : Generator ε α)

namespace Generator

variable {ε α β : Type}

/-- A loop over what a generator yields, which may itself fail. -/
def forEach (f : β → α → Except ε β) : β → Generator ε α → Except ε β
  | b, .done => .ok b
  | _, .raise e => .error e
  | b, .yield a rest => f b a >>= fun b => forEach f b rest

/-- The values that a generator yields, if it does not fail. -/
def toList : Generator ε α → Except ε (List α)
  | .done => .ok []
  | .raise e => .error e
  | .yield a rest => rest.toList.map (a :: ·)

/-- A loop succeeds when the generator does and each of its steps. -/
theorem forEach_eq_ok {f : β → α → Except ε β} {b c : β} {g : Generator ε α} :
    forEach f b g = .ok c ↔ ∃ as, g.toList = .ok as ∧ as.foldlM f b = .ok c := by
  induction g generalizing b with
  | done =>
    rw [forEach, toList]
    exact ⟨fun h => ⟨[], rfl, h⟩, fun ⟨as, has, h⟩ => by obtain rfl := Except.ok.inj has; exact h⟩
  | raise e => exact ⟨fun h => (nomatch h), fun ⟨as, has, _⟩ => (nomatch has)⟩
  | yield a rest ih =>
    rw [forEach, bind_eq_ok, toList]
    simp only [ih, map_eq_ok]
    constructor
    · rintro ⟨b', hb', as, has, h⟩
      exact ⟨a :: as, ⟨as, has, rfl⟩, by rw [List.foldlM_cons, hb']; exact h⟩
    · rintro ⟨_, ⟨as, has, rfl⟩, h⟩
      rw [List.foldlM_cons] at h
      obtain ⟨b', hb', h⟩ := bind_eq_ok.1 h
      exact ⟨b', hb', as, has, h⟩

end Generator

end Outcome
end Vestrix
