/-
# Timestamp trees

A `Timestamp` of the client library is a tree: a node has attestations, and an operation for each
of its branches.  A node is named by its path from the root, which the operations spell.

A change of one node leaves the attestations of those that are not below it
(`attestations_node_modify`), and no node that is directly attested is below another
(`pairwise_directlyAttested`).
-/

import Vestrix.Text.CodePoint
import Mathlib.Data.List.Pairwise
import Mathlib.Data.List.Infix

namespace Vestrix
namespace Anchor
namespace Upgrade

open Text

/-! ### Trees -/

/-- What a node is attested by. -/
inductive Attestation where
  | pending (uri : Str)
  | bitcoin (height : ℕ)
  | unknown (tag payload : List UInt8)
deriving DecidableEq

/-- `isinstance(attestation, BitcoinBlockHeaderAttestation)`. -/
def Attestation.isBitcoin : Attestation → Bool
  | .bitcoin _ => true
  | _ => false

/-- A `Timestamp` less its message: the attestations of a node, and an operation with the node that
it leads to for each of its branches. -/
inductive Timestamp (O : Type) where
  | empty
  | attested (attestation : Attestation) (rest : Timestamp O)
  | branch (op : O) (child rest : Timestamp O)
deriving DecidableEq

namespace Timestamp

variable {O : Type}

/-- `attestations`. -/
def attestations : Timestamp O → List Attestation
  | .empty => []
  | .attested attestation rest => attestation :: rest.attestations
  | .branch _ _ rest => rest.attestations

/-- The keys of `ops`. -/
def keys : Timestamp O → List O
  | .empty => []
  | .attested _ rest => rest.keys
  | .branch op _ rest => op :: rest.keys

/-- A node has an attestation once and an operation once. -/
def Distinct : Timestamp O → Prop
  | .empty => True
  | .attested attestation rest => attestation ∉ rest.attestations ∧ rest.Distinct
  | .branch op child rest => op ∉ rest.keys ∧ child.Distinct ∧ rest.Distinct

/-- The paths of `_directly_attested_timestamps` of the children. -/
def descendants : Timestamp O → List (List O)
  | .empty => []
  | .attested _ rest => rest.descendants
  | .branch op child rest =>
    (if child.attestations = [] then child.descendants else [[]]).map (op :: ·) ++ rest.descendants

/-- `_directly_attested_timestamps`, as paths from the root. -/
def directlyAttested (t : Timestamp O) : List (List O) :=
  if t.attestations = [] then t.descendants else [[]]

variable [DecidableEq O]

/-- `ops[op]`, or an empty node. -/
def child (op : O) : Timestamp O → Timestamp O
  | .empty => .empty
  | .attested _ rest => rest.child op
  | .branch op' child rest => if op' = op then child else rest.child op

/-- The node at a path. -/
def node (t : Timestamp O) : List O → Timestamp O
  | [] => t
  | op :: path => (t.child op).node path

/-- A change of `ops[op]`. -/
def update (op : O) (f : Timestamp O → Timestamp O) : Timestamp O → Timestamp O
  | .empty => .branch op (f .empty) .empty
  | .attested attestation rest => .attested attestation (rest.update op f)
  | .branch op' child rest =>
    if op' = op then .branch op' (f child) rest else .branch op' child (rest.update op f)

/-- A change of the node at a path. -/
def modify (f : Timestamp O → Timestamp O) : List O → Timestamp O → Timestamp O
  | [], t => f t
  | op :: path, t => t.update op (modify f path)

/-- One more attestation. -/
def add (attestation : Attestation) (t : Timestamp O) : Timestamp O :=
  if attestation ∈ t.attestations then t else .attested attestation t

/-- The union of two trees, node by node. -/
def union (t : Timestamp O) : Timestamp O → Timestamp O
  | .empty => t
  | .attested attestation rest => (t.add attestation).union rest
  | .branch op child rest => (t.update op fun t => t.union child).union rest

end Timestamp

/-! ### Paths -/

namespace Timestamp

variable {O : Type} {t : Timestamp O} {path : List O}

/-- Below a branch are the paths of its child, behind the operation. -/
theorem descendants_branch (op : O) (child rest : Timestamp O) :
    (branch op child rest).descendants = child.directlyAttested.map (op :: ·) ++ rest.descendants := rfl

/-- The path of a descendant begins with an operation of the node. -/
theorem exists_of_mem_descendants (h : path ∈ t.descendants) : ∃ op ∈ t.keys, ∃ q, path = op :: q := by
  induction t with
  | empty => exact absurd h List.not_mem_nil
  | attested a rest ih => exact ih h
  | branch op child rest _ ih =>
    rw [descendants_branch, List.mem_append, List.mem_map] at h
    rcases h with ⟨q, -, rfl⟩ | h
    · exact ⟨op, List.mem_cons_self, q, rfl⟩
    · obtain ⟨op', hop, q, hq⟩ := ih h
      exact ⟨op', List.mem_cons_of_mem _ hop, q, hq⟩

/-- No node that is directly attested is below another. -/
theorem pairwise_descendants (ht : t.Distinct) : t.descendants.Pairwise fun p q => ¬ p <+: q := by
  induction t with
  | empty => exact List.Pairwise.nil
  | attested a rest ih => exact ih ht.2
  | branch op child rest ihc ih =>
    have hchild : child.directlyAttested.Pairwise fun p q => ¬ p <+: q := by
      rw [directlyAttested]
      split_ifs
      · exact ihc ht.2.1
      · exact List.pairwise_singleton _ _
    rw [descendants_branch, List.pairwise_append]
    refine ⟨List.pairwise_map.2 (hchild.imp ?_), ih ht.2.2, fun p hp q hq hpq => ?_⟩
    · intro p q hpq hop
      exact hpq (List.cons_prefix_cons.1 hop).2
    · obtain ⟨p, -, rfl⟩ := List.mem_map.1 hp
      obtain ⟨op', hop, q, rfl⟩ := exists_of_mem_descendants hq
      exact ht.1 ((List.cons_prefix_cons.1 hpq).1 ▸ hop)

/-- **No directly attested node is below another one.** -/
theorem pairwise_directlyAttested (ht : t.Distinct) :
    t.directlyAttested.Pairwise fun p q => ¬ p <+: q := by
  rw [directlyAttested]
  split_ifs
  · exact pairwise_descendants ht
  · exact List.pairwise_singleton _ _

/-- A tree stays well formed when an attestation is added. -/
theorem Distinct.add {attestation : Attestation} (ht : t.Distinct) : (t.add attestation).Distinct := by
  rw [Timestamp.add]
  split_ifs with h
  · exact ht
  · exact ⟨h, ht⟩

variable [DecidableEq O] {f : Timestamp O → Timestamp O}

/-- A change of a child leaves the attestations of the node. -/
@[simp] theorem attestations_update (op : O) : (t.update op f).attestations = t.attestations := by
  induction t with
  | empty => rfl
  | attested a rest ih => exact congrArg (a :: ·) ih
  | branch op' child rest _ ih =>
    rw [update]
    split_ifs
    · rfl
    · exact ih

/-- A change of a child leaves the other children. -/
theorem child_update (op op' : O) :
    (t.update op f).child op' = if op = op' then f (t.child op) else t.child op' := by
  induction t with
  | empty => rfl
  | attested a rest ih => exact ih
  | branch op'' child rest _ ih =>
    rw [update]
    by_cases h : op'' = op
    · subst h
      rw [if_pos rfl, Timestamp.child, Timestamp.child, Timestamp.child, if_pos rfl]
      split_ifs <;> rfl
    · rw [if_neg h, Timestamp.child, ih, Timestamp.child, Timestamp.child, if_neg h]
      split_ifs with h₁ h₂ <;> first | rfl | exact absurd (h₁.trans h₂.symm) h

/-- A change of a node leaves the attestations of those that are not below it. -/
theorem attestations_node_modify {p q : List O} (h : ¬ p <+: q) :
    ((t.modify f p).node q).attestations = (t.node q).attestations := by
  induction p generalizing t q with
  | nil => exact absurd List.nil_prefix h
  | cons op p ih =>
    cases q with
    | nil => exact attestations_update op
    | cons op' q =>
      rw [modify, node, node, child_update]
      split_ifs with hop
      · subst hop
        exact ih fun hpq => h (List.cons_prefix_cons.2 ⟨rfl, hpq⟩)
      · rfl

/-- A change of a child adds its operation at most. -/
theorem mem_keys_update {op op' : O} (h : op' ∈ (t.update op f).keys) : op' = op ∨ op' ∈ t.keys := by
  induction t with
  | empty => exact Or.inl (List.mem_singleton.1 h)
  | attested a rest ih => exact ih h
  | branch op'' child rest _ ih =>
    rw [update] at h
    split_ifs at h
    · exact Or.inr h
    · rcases List.mem_cons.1 h with rfl | h
      · exact Or.inr List.mem_cons_self
      · exact (ih h).imp_right (List.mem_cons_of_mem _)

/-- A tree stays well formed when a child is changed into one that is. -/
theorem Distinct.update {op : O} (ht : t.Distinct) (hf : ∀ t : Timestamp O, t.Distinct → (f t).Distinct) :
    (t.update op f).Distinct := by
  induction t with
  | empty => exact ⟨List.not_mem_nil, hf .empty trivial, trivial⟩
  | attested a rest ih =>
    refine ⟨?_, ih ht.2⟩
    rw [attestations_update]
    exact ht.1
  | branch op' child rest _ ih =>
    rw [Timestamp.update]
    split_ifs with hop
    · exact ⟨ht.1, hf child ht.2.1, ht.2.2⟩
    · refine ⟨fun h => ?_, ht.2.1, ih ht.2.2⟩
      exact (mem_keys_update h).elim hop ht.1

/-- A tree stays well formed when a node is changed into one that is. -/
theorem Distinct.modify (ht : t.Distinct) (hf : ∀ t : Timestamp O, t.Distinct → (f t).Distinct) :
    (t.modify f path).Distinct := by
  induction path generalizing t with
  | nil => exact hf t ht
  | cons op path ih => exact ht.update fun _ hchild => ih hchild

/-- A union has each attestation and each operation of a node once. -/
theorem Distinct.union (ht : t.Distinct) (u : Timestamp O) : (t.union u).Distinct := by
  induction u generalizing t with
  | empty => exact ht
  | attested a rest ih => exact ih ht.add
  | branch op child rest ihc ih => exact ih (ht.update fun _ hchild => ihc hchild)

end Timestamp

end Upgrade
end Anchor
end Vestrix
