/-
# Hash chains

A chain is a list of records in which each says its position and carries the digest of the
one before.  What a digest covers is the `content` of a record, and position and link are
part of it.  Records, digests and contents are of any type.

Two facts make such a list worth keeping.  A chain whose contents were all taken from a
given chain is a beginning of it (`Linked.isPrefix`).  And without collisions the last
digest determines all contents before it (`Linked.eq_of_tip`), by induction from the end.
-/

import Mathlib.Data.List.Infix

namespace Vestrix
namespace Record

/-- How the records of a chain say where they belong. -/
structure HashChain (R C D : Type) where
  content : R → C
  position : C → ℕ
  prev : C → D
  digest : C → D

namespace HashChain

variable {R C D : Type} (chain : HashChain R C D)

/-- The records are linked from a position and a digest on. -/
def Linked : ℕ → D → List R → Prop
  | _, _, [] => True
  | n, d, r :: rs =>
    chain.position (chain.content r) = n ∧ chain.prev (chain.content r) = d ∧
      Linked (n + 1) (chain.digest (chain.content r)) rs

/-- The digest of the last record, or the given one. -/
def tip (d : D) (rs : List R) : D := (rs.getLast?.map fun r => chain.digest (chain.content r)).getD d

variable {chain} {n m : ℕ} {d : D} {rs ss : List R} {r : R}

/-- The tip of an empty chain is the digest before it. -/
@[simp] theorem tip_nil : chain.tip d [] = d := rfl

/-- The tip is the digest of the last record's content. -/
@[simp] theorem tip_append_singleton : chain.tip d (rs ++ [r]) = chain.digest (chain.content r) := by
  rw [tip, List.getLast?_append, List.getLast?_singleton, Option.some_or]
  rfl

/-- After the first record the chain goes on from its digest. -/
theorem tip_cons : chain.tip d (r :: rs) = chain.tip (chain.digest (chain.content r)) rs := by
  rw [tip, tip, List.getLast?_cons]
  cases rs.getLast? <;> rfl

/-- A chain is extended by a record that names the next position and the last digest. -/
theorem linked_append_singleton : chain.Linked n d (rs ++ [r]) ↔
    chain.Linked n d rs ∧ chain.position (chain.content r) = n + rs.length ∧
      chain.prev (chain.content r) = chain.tip d rs := by
  induction rs generalizing n d with
  | nil => simp only [List.nil_append, Linked, and_true, List.length_nil, Nat.add_zero, true_and, tip_nil]
  | cons s rs ih =>
    rw [List.cons_append, Linked, Linked, ih, tip_cons, List.length_cons, and_assoc, and_assoc,
      Nat.add_right_comm, Nat.add_assoc n]

/-- A record of a chain says its position. -/
theorem Linked.position (h : chain.Linked n d rs) {i : ℕ} (hi : rs[i]? = some r) :
    chain.position (chain.content r) = n + i := by
  induction rs generalizing n d i with
  | nil => cases hi
  | cons s rs ih =>
    cases i with
    | zero =>
      obtain rfl := Option.some.inj hi
      exact h.1
    | succ i =>
      rw [ih h.2.2 hi]
      omega

/-- **A chain of known contents is a beginning of the chain they are from.** -/
theorem Linked.isPrefix {d' : D} (hs : chain.Linked n d ss) (hr : chain.Linked n d' rs)
    (hknown : ∀ s ∈ ss, ∃ r ∈ rs, chain.content s = chain.content r) :
    ss.map chain.content <+: rs.map chain.content := by
  have hat : ∀ (i : ℕ) (s : R), ss[i]? = some s → ∃ r, rs[i]? = some r ∧ chain.content s = chain.content r := by
    intro i s hi
    obtain ⟨r, hmem, hcontent⟩ := hknown s (List.mem_of_getElem? hi)
    obtain ⟨j, hj⟩ := List.mem_iff_getElem?.1 hmem
    -- the position that the content names is both
    have hij := hs.position hi
    rw [hcontent, hr.position hj] at hij
    obtain rfl : j = i := by omega
    exact ⟨r, hj, hcontent⟩
  rw [List.prefix_iff_getElem?]
  intro i hi
  rw [List.length_map] at hi
  obtain ⟨r, hr, hcontent⟩ := hat i ss[i] (List.getElem?_eq_getElem hi)
  rw [List.getElem?_map, hr, List.getElem_map, hcontent]
  rfl

/-- **The last digest determines the chain**, where no two contents in question have the
same digest. -/
theorem Linked.eq_of_tip {d' : D} (hr : chain.Linked n d rs) (hs : chain.Linked n d' ss)
    (hcollision : ∀ r ∈ rs, ∀ s ∈ ss, chain.digest (chain.content r) = chain.digest (chain.content s) →
      chain.content r = chain.content s)
    (hrs : rs ≠ []) (hss : ss ≠ []) (htip : chain.tip d rs = chain.tip d' ss) :
    rs.map chain.content = ss.map chain.content := by
  induction rs using List.reverseRecOn generalizing ss with
  | nil => exact absurd rfl hrs
  | append_singleton rs r ih =>
    induction ss using List.reverseRecOn with
    | nil => exact absurd rfl hss
    | append_singleton ss s _ =>
      rw [tip_append_singleton, tip_append_singleton] at htip
      have hcontent := hcollision r (List.mem_append_right _ (List.mem_singleton_self r)) s
        (List.mem_append_right _ (List.mem_singleton_self s)) htip
      obtain ⟨hr, hrpos, hrprev⟩ := linked_append_singleton.1 hr
      obtain ⟨hs, hspos, hsprev⟩ := linked_append_singleton.1 hs
      have hlen : rs.length = ss.length := by
        rw [hcontent, hspos] at hrpos
        omega
      rw [List.map_append, List.map_append, List.map_singleton, List.map_singleton, hcontent]
      congr 1
      by_cases hnil : rs = []
      · subst hnil
        rw [List.length_eq_zero_iff.1 hlen.symm]
      · have hnil' : ss ≠ [] := fun h => hnil (List.length_eq_zero_iff.1 (by rw [hlen, h]; rfl))
        refine ih hr hs (fun r hr s hs => ?_) hnil hnil' ?_
        · exact hcollision r (List.mem_append_left _ hr) s (List.mem_append_left _ hs)
        · rw [← hrprev, ← hsprev, hcontent]

end HashChain

end Record
end Vestrix
