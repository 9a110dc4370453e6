/-
# Transition systems

A concurrent program is a state and what each of its steps does to it; a step that cannot
be taken in a state has no result.  A run is a list of steps, taken one after the other
in any order that the states allow, so that a statement about every run is one about
every interleaving.

What a step preserves, a run preserves.  `run_induction` is that, for an invariant that
may depend on a condition which each step of the run meets in the state it is taken in.
-/

import Mathlib.Data.List.Basic

namespace Vestrix
namespace Transition

variable {σ ι : Type*} (step : σ → ι → Option σ)

/-- The state that a list of steps leads to, if each of them can be taken. -/
def run : σ → List ι → Option σ
  | s, [] => some s
  | s, i :: is =>
    match step s i with
    | some t => run t is
    | none => none

/-- Each step meets a condition in the state that it is taken in. -/
def Meets (ok : σ → ι → Prop) : σ → List ι → Prop
  | _, [] => True
  | s, i :: is => ok s i ∧ ∀ t, step s i = some t → Meets ok t is

/-- A condition that can be decided of a step can be decided of a run. -/
instance decidableMeets (ok : σ → ι → Prop) [∀ s i, Decidable (ok s i)] :
    ∀ s is, Decidable (Meets step ok s is)
  | _, [] => inferInstanceAs (Decidable True)
  | s, i :: is =>
    match h : step s i with
    | none => decidable_of_iff (ok s i)
        ⟨fun hok => ⟨hok, fun _ ht => nomatch h.symm.trans ht⟩, And.left⟩
    | some t =>
      have := decidableMeets ok t is
      decidable_of_iff (ok s i ∧ Meets step ok t is)
        ⟨fun hok => ⟨hok.1, fun _ ht => Option.some.inj (h.symm.trans ht) ▸ hok.2⟩,
          fun hok => ⟨hok.1, hok.2 t h⟩⟩

variable {step} {s t u : σ} {i : ι} {is js : List ι}

/-- No steps lead from a state to itself only. -/
@[simp] theorem run_nil : run step s [] = some t ↔ s = t := by
  rw [run, Option.some.injEq]

/-- A run is its first step and the run of the others. -/
theorem run_cons : run step s (i :: is) = some u ↔ ∃ t, step s i = some t ∧ run step t is = some u := by
  rw [run]
  cases h : step s i with
  | none => exact ⟨fun h' => (nomatch h'), fun ⟨_, h', _⟩ => (nomatch h')⟩
  | some t =>
    refine ⟨fun h' => ⟨t, rfl, h'⟩, ?_⟩
    rintro ⟨t', ht, h'⟩
    rwa [Option.some.inj ht]

/-- A run is its first part and the run of the rest from there. -/
theorem run_append : run step s (is ++ js) = some u ↔
    ∃ t, run step s is = some t ∧ run step t js = some u := by
  induction is generalizing s with
  | nil =>
    rw [List.nil_append]
    exact ⟨fun h => ⟨s, rfl, h⟩, fun ⟨_, hs, h⟩ => Option.some.inj hs ▸ h⟩
  | cons i is ih =>
    simp only [List.cons_append, run_cons, ih]
    constructor
    · rintro ⟨t, ht, v, hv, h⟩
      exact ⟨v, ⟨t, ht, hv⟩, h⟩
    · rintro ⟨v, ⟨t, ht, hv⟩, h⟩
      exact ⟨t, ht, v, hv, h⟩

/-- **What each step preserves, a run preserves**, where each step meets the condition. -/
theorem run_induction {ok : σ → ι → Prop} {I : σ → Prop}
    (hstep : ∀ s i t, I s → ok s i → step s i = some t → I t)
    (hs : I s) (hok : Meets step ok s is) (h : run step s is = some t) : I t := by
  induction is generalizing s with
  | nil => exact run_nil.1 h ▸ hs
  | cons i is ih =>
    obtain ⟨u, hu, h⟩ := run_cons.1 h
    exact ih (hstep s i u hs hok.1 hu) (hok.2 u hu) h

/-- What each step preserves, every run preserves. -/
theorem run_invariant {I : σ → Prop} (hstep : ∀ s i t, I s → step s i = some t → I t)
    (hs : I s) (h : run step s is = some t) : I t := by
  induction is generalizing s with
  | nil => exact run_nil.1 h ▸ hs
  | cons i is ih =>
    obtain ⟨u, hu, h⟩ := run_cons.1 h
    exact ih (hstep s i u hs hu) h

/-- What all steps of a list meet in any state, a run meets. -/
theorem Meets.of_forall {ok : σ → ι → Prop} (h : ∀ i ∈ is, ∀ s, ok s i) : Meets step ok s is := by
  induction is generalizing s with
  | nil => trivial
  | cons i is ih =>
    obtain ⟨hi, his⟩ := List.forall_mem_cons.1 h
    exact ⟨hi s, fun t _ => ih his⟩

/-- A run that meets a condition meets a weaker one. -/
theorem Meets.imp {p q : σ → ι → Prop} (hpq : ∀ s i, p s i → q s i) (h : Meets step p s is) :
    Meets step q s is := by
  induction is generalizing s with
  | nil => trivial
  | cons i is ih => exact ⟨hpq s i h.1, fun t ht => ih (h.2 t ht)⟩

/-- A condition that follows from another one and from what that one preserves. -/
theorem Meets.of_invariant {p q : σ → ι → Prop} {I : σ → Prop}
    (hstep : ∀ s i t, I s → p s i → step s i = some t → I t) (hpq : ∀ s i, I s → p s i → q s i)
    (hs : I s) (h : Meets step p s is) : Meets step q s is := by
  induction is generalizing s with
  | nil => trivial
  | cons i is ih => exact ⟨hpq s i hs h.1, fun t ht => ih (hstep s i t hs h.1 ht) (h.2 t ht)⟩

/-- A run that meets two conditions meets both at each step. -/
theorem Meets.and {p q : σ → ι → Prop} (hp : Meets step p s is) (hq : Meets step q s is) :
    Meets step (fun s i => p s i ∧ q s i) s is := by
  induction is generalizing s with
  | nil => trivial
  | cons i is ih => exact ⟨⟨hp.1, hq.1⟩, fun t ht => ih (hp.2 t ht) (hq.2 t ht)⟩

/-- A run meets a condition just if its first part does, and the rest from where that ends. -/
theorem Meets.append {ok : σ → ι → Prop} : Meets step ok s (is ++ js) ↔
    Meets step ok s is ∧ ∀ t, run step s is = some t → Meets step ok t js := by
  induction is generalizing s with
  | nil =>
    refine ⟨fun h => ⟨trivial, fun t ht => run_nil.1 ht ▸ h⟩, fun h => h.2 s (run_nil.2 rfl)⟩
  | cons i is ih =>
    constructor
    · rintro ⟨hi, h⟩
      refine ⟨⟨hi, fun t ht => (ih.1 (h t ht)).1⟩, fun u hu => ?_⟩
      obtain ⟨t, ht, hu⟩ := run_cons.1 hu
      exact (ih.1 (h t ht)).2 u hu
    · rintro ⟨⟨hi, h⟩, hjs⟩
      exact ⟨hi, fun t ht => ih.2 ⟨h t ht, fun u hu => hjs u (run_cons.2 ⟨t, ht, hu⟩)⟩⟩

end Transition
end Vestrix
