/-
# Rounding a rational to a grid, ties to even

A grid is a strictly increasing sequence of rationals, and a grid point is known
by its index.  `RoundsTo g q b` says that rounding `q` to nearest gives the point
of index `b`, a tie between two neighbours going to the even index.  This is the
rounding of IEEE 754 once the numbers of a format are listed in increasing order:
the parity of the index is then the parity of the significand.

What rounds to one point is an interval (`RoundsTo.convex`), the point itself is
in it (`roundsTo_self`), and rounding is monotone (`RoundsTo.mono`), hence a
function (`RoundsTo.unique`).
-/

import Mathlib.Algebra.Order.Field.Rat
import Mathlib.Algebra.Ring.Parity
import Mathlib.Tactic.Linarith

namespace Vestrix
namespace Rounding

/-- The point halfway between the grid points of index `b` and `b + 1`. -/
def mid (g : ℕ → ℚ) (b : ℕ) : ℚ := (g b + g (b + 1)) / 2

/-- `q` rounds to the grid point of index `b`: it lies between the halfway points
on either side of it, on one of them only if `b` is even. -/
structure RoundsTo (g : ℕ → ℚ) (q : ℚ) (b : ℕ) : Prop where
  above : ∀ a, a + 1 = b → mid g a < q ∨ mid g a = q ∧ Even b
  below : q < mid g b ∨ q = mid g b ∧ Even b

variable {g : ℕ → ℚ}

/-- The middles of a grid are in order. -/
theorem mid_strictMono (hg : StrictMono g) : StrictMono (mid g) := by
  intro a b hab
  have h₁ := hg hab
  have h₂ := hg (Nat.succ_lt_succ hab)
  simp only [mid, Nat.succ_eq_add_one] at *
  linarith

/-- A point of a grid is below the middle behind it. -/
theorem lt_mid (hg : StrictMono g) (b : ℕ) : g b < mid g b := by
  have := hg (Nat.lt_succ_self b)
  simp only [mid, Nat.succ_eq_add_one] at *
  linarith

/-- The middle is below the next point. -/
theorem mid_lt (hg : StrictMono g) (b : ℕ) : mid g b < g (b + 1) := by
  have := hg (Nat.lt_succ_self b)
  simp only [mid, Nat.succ_eq_add_one] at *
  linarith

/-- A grid point rounds to itself. -/
theorem roundsTo_self (hg : StrictMono g) (b : ℕ) : RoundsTo g (g b) b where
  above a ha := by subst ha; exact Or.inl (mid_lt hg a)
  below := Or.inl (lt_mid hg b)

/-- What is rounded to a point is not below the middle before it. -/
theorem RoundsTo.mid_le {q : ℚ} {a : ℕ} (h : RoundsTo g q (a + 1)) : mid g a ≤ q := by
  rcases h.above a rfl with h | ⟨h, -⟩ <;> linarith

/-- What is rounded to a point is not above the middle behind it. -/
theorem RoundsTo.le_mid {q : ℚ} {b : ℕ} (h : RoundsTo g q b) : q ≤ mid g b := by
  rcases h.below with h | ⟨h, -⟩ <;> linarith

/-- **Rounding is monotone.**  If a smaller rational rounded to a larger index,
both would sit on one halfway point, between two neighbours of even index. -/
theorem RoundsTo.mono (hg : StrictMono g) {q r : ℚ} {a b : ℕ} (hqr : q ≤ r)
    (hq : RoundsTo g q a) (hr : RoundsTo g r b) : a ≤ b := by
  by_contra hab
  obtain ⟨c, rfl⟩ : ∃ c, a = c + 1 := ⟨a - 1, by omega⟩
  have hbc : mid g b ≤ mid g c := (mid_strictMono hg).monotone (by omega)
  have h₁ := hq.mid_le
  have h₂ := hr.le_mid
  have hc : mid g b = mid g c := by linarith
  have hcb : b = c := (mid_strictMono hg).injective hc
  subst hcb
  have ha : Even (b + 1) := by
    rcases hq.above b rfl with h | ⟨-, h⟩
    · linarith
    · exact h
  have hb : Even b := by
    rcases hr.below with h | ⟨-, h⟩
    · linarith
    · exact h
  exact Nat.not_even_iff_odd.2 hb.add_one ha

/-- **Rounding is a function.** -/
theorem RoundsTo.unique (hg : StrictMono g) {q : ℚ} {a b : ℕ} (ha : RoundsTo g q a)
    (hb : RoundsTo g q b) : a = b :=
  le_antisymm (ha.mono hg le_rfl hb) (hb.mono hg le_rfl ha)

/-- **What rounds to one grid point is an interval.** -/
theorem RoundsTo.convex {q r s : ℚ} {b : ℕ} (hq : RoundsTo g q b) (hs : RoundsTo g s b)
    (hqr : q ≤ r) (hrs : r ≤ s) : RoundsTo g r b where
  above a ha := by
    rcases hq.above a ha with h | ⟨h, he⟩
    · exact Or.inl (lt_of_lt_of_le h hqr)
    · rcases hqr.lt_or_eq with hlt | rfl
      · exact Or.inl (h ▸ hlt)
      · exact Or.inr ⟨h, he⟩
  below := by
    rcases hs.below with h | ⟨h, he⟩
    · exact Or.inl (lt_of_le_of_lt hrs h)
    · rcases hrs.lt_or_eq with hlt | rfl
      · exact Or.inl (h ▸ hlt)
      · exact Or.inr ⟨h, he⟩

/-- A rational nearer to a grid point than half the gap on either side rounds to it. -/
theorem roundsTo_of_near {q : ℚ} {b : ℕ} (hup : 2 * |q - g b| < g (b + 1) - g b)
    (hdown : ∀ a, a + 1 = b → 2 * |q - g b| < g b - g a) : RoundsTo g q b where
  above a ha := by
    have h := hdown a ha
    subst ha
    have := neg_abs_le (q - g (a + 1))
    refine Or.inl ?_
    simp only [mid]
    linarith
  below := by
    have := le_abs_self (q - g b)
    refine Or.inl ?_
    simp only [mid]
    linarith

end Rounding
end Vestrix
