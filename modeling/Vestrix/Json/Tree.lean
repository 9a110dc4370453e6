/-
# JSON values as trees

A JSON value over keys `σ` and atoms `α` is an atom, an array of values or an
object, a list of keyed values in some order.  What an atom is (a Python scalar,
a `serde_json` scalar) is left to each program.

Every recursive function on values here is a `fold`, so that its equations are
those of `fold`, and every proof by induction is by `Json.ind`.  `sorted` puts the
members of every object in key order: two values with distinct keys are the same
up to the order of members when their sorted forms are equal.
-/

import Mathlib.Data.List.Sort
import Mathlib.Order.Basic

namespace Vestrix

/-- A JSON value with keys in `σ` and atoms in `α`. -/
inductive Json (σ α : Type) where
  | atom (a : α)
  | array (xs : List (Json σ α))
  | object (ms : List (σ × Json σ α))

namespace Json

variable {σ α β γ : Type}

/-! ### Folding and induction -/

section Fold

variable (atom : α → β) (array : List β → β) (object : List (σ × β) → β)

mutual

/-- The value computed bottom up from what stands for atoms, arrays and objects. -/
def fold : Json σ α → β
  | .atom a => atom a
  | .array xs => array (foldElements xs)
  | .object ms => object (foldMembers ms)

/-- `fold` on the elements of an array. -/
def foldElements : List (Json σ α) → List β
  | [] => []
  | x :: xs => fold x :: foldElements xs

/-- `fold` on the members of an object. -/
def foldMembers : List (σ × Json σ α) → List (σ × β)
  | [] => []
  | (k, x) :: ms => (k, fold x) :: foldMembers ms

end

/-- The items are folded one by one. -/
theorem foldElements_eq_map (xs : List (Json σ α)) :
    foldElements atom array object xs = xs.map (fold atom array object) := by
  induction xs with
  | nil => rfl
  | cons x xs ih => rw [foldElements, ih, List.map_cons]

/-- The members are folded one by one, and keep their keys. -/
theorem foldMembers_eq_map (ms : List (σ × Json σ α)) :
    foldMembers atom array object ms = ms.map (Prod.map id (fold atom array object)) := by
  induction ms with
  | nil => rfl
  | cons m ms ih => rw [foldMembers, ih, List.map_cons]; rfl

/-- The fold of an atom. -/
@[simp] theorem fold_atom (a : α) : fold atom array object (.atom a) = atom a := by
  rw [fold]

/-- The fold of an array is made of those of its items. -/
@[simp] theorem fold_array (xs : List (Json σ α)) :
    fold atom array object (.array xs) = array (xs.map (fold atom array object)) := by
  rw [fold, foldElements_eq_map]

/-- The fold of an object is made of its keys and those of its members. -/
@[simp] theorem fold_object (ms : List (σ × Json σ α)) :
    fold atom array object (.object ms) =
      object (ms.map (Prod.map id (fold atom array object))) := by
  rw [fold, foldMembers_eq_map]

end Fold

/-- **Induction on values**: arrays and objects follow from their parts. -/
theorem ind {motive : Json σ α → Prop} (atom : ∀ a, motive (.atom a))
    (array : ∀ xs, (∀ x ∈ xs, motive x) → motive (.array xs))
    (object : ∀ ms, (∀ m ∈ ms, motive m.2) → motive (.object ms)) (v : Json σ α) : motive v := by
  refine @Json.rec σ α motive (fun xs => ∀ x ∈ xs, motive x) (fun ms => ∀ m ∈ ms, motive m.2)
    (fun m => motive m.2) atom array object ?_ ?_ ?_ ?_ ?_ v
  · exact fun x hx => absurd hx List.not_mem_nil
  · intro x xs hx hxs y hy
    rcases List.mem_cons.1 hy with rfl | hy
    exacts [hx, hxs y hy]
  · exact fun m hm => absurd hm List.not_mem_nil
  · intro m ms hm hms n hn
    rcases List.mem_cons.1 hn with rfl | hn
    exacts [hm, hms n hn]
  · exact fun _ _ hx => hx

/-! ### Nesting -/

/-- How many containers are nested in each other at most. -/
def depth : Json σ α → ℕ :=
  fold (fun _ => 0) (fun ds => ds.foldr max 0 + 1) fun ms => (ms.map Prod.snd).foldr max 0 + 1

/-- The greatest of some numbers is at most `n` just if all are. -/
theorem foldr_max_le {ds : List ℕ} {n : ℕ} : ds.foldr max 0 ≤ n ↔ ∀ d ∈ ds, d ≤ n := by
  induction ds with
  | nil => simp
  | cons d ds ih => simp [ih]

/-- An atom is not nested. -/
@[simp] theorem depth_atom (a : α) : depth (.atom a : Json σ α) = 0 := fold_atom ..

/-- An array is one level deeper than its deepest item. -/
theorem depth_array (xs : List (Json σ α)) :
    depth (.array xs) = (xs.map depth).foldr max 0 + 1 := fold_array ..

/-- An object is one level deeper than its deepest member. -/
theorem depth_object (ms : List (σ × Json σ α)) :
    depth (.object ms) = (ms.map fun m => depth m.2).foldr max 0 + 1 := by
  rw [depth, fold_object, List.map_map]
  rfl

/-- An array has at most `n + 1` levels just if its items have at most `n`. -/
theorem depth_array_le {xs : List (Json σ α)} {n : ℕ} :
    depth (.array xs) ≤ n + 1 ↔ ∀ x ∈ xs, depth x ≤ n := by
  rw [depth_array, Nat.add_le_add_iff_right, foldr_max_le, List.forall_mem_map]

/-- An object has at most `n + 1` levels just if its members have at most `n`. -/
theorem depth_object_le {ms : List (σ × Json σ α)} {n : ℕ} :
    depth (.object ms) ≤ n + 1 ↔ ∀ m ∈ ms, depth m.2 ≤ n := by
  rw [depth_object, Nat.add_le_add_iff_right, foldr_max_le, List.forall_mem_map]

/-! ### What holds of every part -/

/-- Every atom satisfies `P`, and the keys of every object satisfy `Q`. -/
inductive Forall (P : α → Prop) (Q : List σ → Prop) : Json σ α → Prop
  | atom {a : α} (ha : P a) : Forall P Q (.atom a)
  | array {xs : List (Json σ α)} (hxs : ∀ x ∈ xs, Forall P Q x) : Forall P Q (.array xs)
  | object {ms : List (σ × Json σ α)} (hkeys : Q (ms.map Prod.fst))
      (hms : ∀ m ∈ ms, Forall P Q m.2) : Forall P Q (.object ms)

section Forall

variable {P P' : α → Prop} {Q Q' : List σ → Prop} {v : Json σ α}

/-- What is said of all atoms is said of the atom. -/
@[simp] theorem forall_atom {a : α} : Forall P Q (.atom a : Json σ α) ↔ P a :=
  ⟨fun h => by cases h; assumption, .atom⟩

/-- What is said of an array is said of its items. -/
@[simp] theorem forall_array {xs : List (Json σ α)} :
    Forall P Q (.array xs) ↔ ∀ x ∈ xs, Forall P Q x :=
  ⟨fun h => by cases h; assumption, .array⟩

/-- What is said of an object is said of its keys and its members. -/
@[simp] theorem forall_object {ms : List (σ × Json σ α)} :
    Forall P Q (.object ms) ↔ Q (ms.map Prod.fst) ∧ ∀ m ∈ ms, Forall P Q m.2 :=
  ⟨fun h => by cases h; exact ⟨by assumption, by assumption⟩, fun h => .object h.1 h.2⟩

/-- Less may be said of a value. -/
theorem Forall.imp (hP : ∀ a, P a → P' a) (hQ : ∀ ks, Q ks → Q' ks) (h : Forall P Q v) :
    Forall P' Q' v := by
  induction v using ind with
  | atom a => exact .atom (hP a (forall_atom.1 h))
  | array xs ih => exact .array fun x hx => ih x hx (forall_array.1 h x hx)
  | object ms ih =>
    obtain ⟨hkeys, hms⟩ := forall_object.1 h
    exact .object (hQ _ hkeys) fun m hm => ih m hm (hms m hm)

/-- Two things are said of a value together. -/
theorem Forall.and (h : Forall P Q v) (h' : Forall P' Q' v) :
    Forall (fun a => P a ∧ P' a) (fun ks => Q ks ∧ Q' ks) v := by
  induction v using ind with
  | atom a => exact .atom ⟨forall_atom.1 h, forall_atom.1 h'⟩
  | array xs ih => exact .array fun x hx => ih x hx (forall_array.1 h x hx) (forall_array.1 h' x hx)
  | object ms ih =>
    obtain ⟨hkeys, hms⟩ := forall_object.1 h
    obtain ⟨hkeys', hms'⟩ := forall_object.1 h'
    exact .object ⟨hkeys, hkeys'⟩ fun m hm => ih m hm (hms m hm) (hms' m hm)

/-- `Forall` as a computation. -/
def check (p : α → Bool) (q : List σ → Bool) : Json σ α → Bool :=
  fold p (fun bs => bs.all id) fun ms => q (ms.map Prod.fst) && (ms.map Prod.snd).all id

/-- What can be computed of a value is what is said of it. -/
theorem check_eq_true {p : α → Bool} {q : List σ → Bool} :
    check p q v = true ↔ Forall (fun a => p a = true) (fun ks => q ks = true) v := by
  induction v using ind with
  | atom a => rw [check, fold_atom, forall_atom]
  | array xs ih =>
    rw [check, fold_array, ← check, List.all_map, List.all_eq_true, forall_array]
    exact forall₂_congr fun x hx => ih x hx
  | object ms ih =>
    rw [check, fold_object, ← check, Bool.and_eq_true, List.map_map, List.map_map, List.all_map,
      List.all_eq_true, forall_object]
    exact and_congr Iff.rfl (forall₂_congr fun m hm => ih m hm)

instance [DecidablePred P] [DecidablePred Q] : DecidablePred (Forall P Q : Json σ α → Prop) :=
  fun v => decidable_of_iff (check (fun a => decide (P a)) (fun ks => decide (Q ks)) v = true) (by
    simp only [check_eq_true, decide_eq_true_eq])

end Forall

/-- No object has two members with the same key. -/
abbrev DistinctKeys : Json σ α → Prop := Forall (fun _ => True) List.Nodup

/-! ### Other keys and atoms -/

section Map

variable {τ : Type}

/-- The value with other keys and atoms. -/
def map (f : σ → τ) (g : α → β) : Json σ α → Json τ β :=
  fold (fun a => .atom (g a)) .array fun ms => .object (ms.map (Prod.map f id))

variable (f : σ → τ) (g : α → β)

/-- The map of an atom. -/
@[simp] theorem map_atom (a : α) : map f g (.atom a) = .atom (g a) := fold_atom ..

/-- An array is mapped item by item. -/
@[simp] theorem map_array (xs : List (Json σ α)) :
    map f g (.array xs) = .array (xs.map (map f g)) := fold_array ..

/-- An object is mapped member by member. -/
@[simp] theorem map_object (ms : List (σ × Json σ α)) :
    map f g (.object ms) = .object (ms.map (Prod.map f (map f g))) := by
  rw [map, fold_object, List.map_map, Prod.map_comp_map]
  rfl

/-- Mapping keeps the levels. -/
theorem depth_map (v : Json σ α) : depth (map f g v) = depth v := by
  induction v using ind with
  | atom a => rfl
  | array xs ih =>
    rw [map_array, depth_array, depth_array, List.map_map]
    exact congrArg (fun ds => ds.foldr max 0 + 1) (List.map_congr_left ih)
  | object ms ih =>
    rw [map_object, depth_object, depth_object, List.map_map]
    exact congrArg (fun ds => ds.foldr max 0 + 1) (List.map_congr_left ih)

/-- The keys of mapped members are the mapped keys. -/
theorem keys_map (h : β → γ) (ms : List (σ × β)) :
    (ms.map (Prod.map f h)).map Prod.fst = (ms.map Prod.fst).map f := by
  rw [List.map_map, List.map_map]
  rfl

/-- What is said of a mapped value is said of the value. -/
theorem forall_map {P : β → Prop} {Q : List τ → Prop} {v : Json σ α}
    (h : Forall (fun a => P (g a)) (fun ks => Q (ks.map f)) v) : Forall P Q (map f g v) := by
  induction v using ind with
  | atom a => exact .atom ((forall_atom (P := fun a => P (g a))).1 h)
  | array xs ih =>
    rw [map_array, forall_array, List.forall_mem_map]
    exact fun x hx => ih x hx (forall_array.1 h x hx)
  | object ms ih =>
    obtain ⟨hkeys, hms⟩ := forall_object.1 h
    rw [map_object, forall_object, List.forall_mem_map, keys_map]
    exact ⟨hkeys, fun m hm => ih m hm (hms m hm)⟩

end Map

/-! ### Looking a key up -/

section Lookup

variable [DecidableEq σ] {τ : Type} [DecidableEq τ]

/-- The value of the first member with a key. -/
def lookup (ms : List (σ × β)) (key : σ) : Option β := (ms.find? fun m => m.1 = key).map Prod.snd

/-- What is found under a key is a member. -/
theorem mem_of_lookup {ms : List (σ × β)} {k : σ} {x : β} (h : lookup ms k = some x) :
    (k, x) ∈ ms := by
  obtain ⟨⟨k', x'⟩, hm, rfl⟩ := Option.map_eq_some_iff.1 h
  obtain rfl : k' = k := by simpa using List.find?_some hm
  exact List.mem_of_find?_eq_some hm

/-- Nothing is found just if the key is missing. -/
theorem lookup_eq_none {ms : List (σ × β)} {k : σ} : lookup ms k = none ↔ k ∉ ms.map Prod.fst := by
  rw [lookup, Option.map_eq_none_iff, List.find?_eq_none, List.mem_map]
  simp only [decide_eq_true_eq, Prod.exists, exists_and_right, exists_eq_right, not_exists, Prod.forall]
  constructor
  · intro h x hx
    exact h k x hx rfl
  · rintro h k' x hx rfl
    exact h x hx

/-- Something is found just if the key is there. -/
theorem lookup_isSome {ms : List (σ × β)} {k : σ} : (∃ x, lookup ms k = some x) ↔ k ∈ ms.map Prod.fst := by
  rw [← Option.isSome_iff_exists, Option.isSome_iff_ne_none, ne_eq, lookup_eq_none, not_not]

/-- Where keys are distinct, each member is found under its key. -/
theorem lookup_eq_some {ms : List (σ × β)} (hms : (ms.map Prod.fst).Nodup) {k : σ} {x : β} :
    lookup ms k = some x ↔ (k, x) ∈ ms := by
  refine ⟨mem_of_lookup, fun h => ?_⟩
  obtain ⟨y, hy⟩ := lookup_isSome.2 (List.mem_map.2 ⟨_, h, rfl⟩)
  have hxy := List.inj_on_of_nodup_map hms h (mem_of_lookup hy) rfl
  rw [hy, (Prod.mk.inj hxy).2]

/-- Where keys are distinct, their order does not matter. -/
theorem lookup_congr {ms ns : List (σ × β)} (hms : (ms.map Prod.fst).Nodup) (h : ms.Perm ns) (k : σ) :
    lookup ms k = lookup ns k := by
  have hns : (ns.map Prod.fst).Nodup := (h.map Prod.fst).nodup_iff.1 hms
  refine Option.ext fun x => ?_
  rw [lookup_eq_some hms, lookup_eq_some hns, h.mem_iff]

/-- Mapped members are found under mapped keys. -/
theorem lookup_map {f : σ → τ} (hf : Function.Injective f) (g : β → γ) (ms : List (σ × β)) (k : σ) :
    lookup (ms.map (Prod.map f g)) (f k) = (lookup ms k).map g := by
  rw [lookup, List.find?_map, lookup, Option.map_map, Option.map_map]
  simp only [Function.comp_def, Prod.map_fst, hf.eq_iff, Prod.map_snd]

/-- Of the members, those are found that are picked by their keys. -/
theorem lookup_filter {p : σ × β → Bool} {q : σ → Bool} (hpq : ∀ m, p m = q m.1)
    (ms : List (σ × β)) (k : σ) :
    lookup (ms.filter p) k = if q k then lookup ms k else none := by
  induction ms with
  | nil => exact (ite_self _).symm
  | cons m ms ih =>
    simp only [lookup] at ih ⊢
    rw [List.filter_cons, hpq]
    by_cases hm : m.1 = k
    · subst hm
      by_cases hq : q m.1 = true
      · rw [if_pos hq, if_pos hq]
        simp only [List.find?_cons, decide_true]
      · rw [if_neg hq, if_neg hq, ih, if_neg hq]
    · have hfind : ∀ ns : List (σ × β), (m :: ns).find? (fun n => n.1 = k) =
          ns.find? fun n => n.1 = k := fun ns => List.find?_cons_of_neg (by simpa using hm)
      rw [hfind]
      by_cases hq : q m.1 = true
      · rw [if_pos hq, hfind, ih]
      · rw [if_neg hq, ih]

/-- The first members are found before the others. -/
theorem lookup_append (ms ns : List (σ × β)) (k : σ) :
    lookup (ms ++ ns) k = (lookup ms k).or (lookup ns k) := by
  rw [lookup, List.find?_append, Option.map_or]
  rfl

end Lookup

/-! ### Objects in key order -/

section Sorted

variable [LinearOrder σ]

/-- Members in the order of their keys. -/
def sortMembers (ms : List (σ × β)) : List (σ × β) := ms.insertionSort fun m n => m.1 ≤ n.1

/-- Members whose keys increase. -/
def Increasing (ms : List (σ × β)) : Prop := ms.Pairwise fun m n => m.1 < n.1

/-- Sorting keeps the members. -/
theorem sortMembers_perm (ms : List (σ × β)) : (sortMembers ms).Perm ms :=
  List.perm_insertionSort _ ms

/-- The sorted members are the members. -/
theorem mem_sortMembers {ms : List (σ × β)} {m : σ × β} : m ∈ sortMembers ms ↔ m ∈ ms :=
  (sortMembers_perm ms).mem_iff

/-- Members with distinct keys are sorted by increasing keys. -/
theorem increasing_sortMembers {ms : List (σ × β)} (h : (ms.map Prod.fst).Nodup) :
    Increasing (sortMembers ms) := by
  have hle : (sortMembers ms).Pairwise fun m n => m.1 ≤ n.1 :=
    haveI : Std.Total fun m n : σ × β => m.1 ≤ n.1 := ⟨fun m n => le_total m.1 n.1⟩
    haveI : IsTrans (σ × β) fun m n => m.1 ≤ n.1 := ⟨fun _ _ _ => le_trans⟩
    List.pairwise_insertionSort _ ms
  have hne : (sortMembers ms).Pairwise fun m n => m.1 ≠ n.1 := by
    rw [← List.pairwise_map (f := Prod.fst)]
    exact ((sortMembers_perm ms).map Prod.fst).nodup_iff.2 h
  exact hle.imp₂ (fun _ _ => lt_of_le_of_ne) hne

/-- Members with increasing keys stay as they are. -/
theorem sortMembers_eq_self {ms : List (σ × β)} (h : Increasing ms) : sortMembers ms = ms :=
  List.Pairwise.insertionSort_eq (h.imp fun hlt => hlt.le)

/-- The order that members with distinct keys had before does not matter. -/
theorem sortMembers_eq_of_perm {ms ns : List (σ × β)} (hms : (ms.map Prod.fst).Nodup)
    (h : ms.Perm ns) : sortMembers ms = sortMembers ns := by
  have hns : (ns.map Prod.fst).Nodup := (h.map Prod.fst).nodup_iff.1 hms
  refine List.Perm.eq_of_pairwise (fun m n _ _ hm hn => absurd (lt_trans hm hn) (lt_irrefl _))
    (increasing_sortMembers hms) (increasing_sortMembers hns) ?_
  exact (sortMembers_perm ms).trans (h.trans (sortMembers_perm ns).symm)

/-- A map that keeps the order of keys may come before or after sorting. -/
theorem map_sortMembers {τ : Type} [LinearOrder τ] {f : σ → τ} (hf : StrictMono f) (g : β → γ)
    (ms : List (σ × β)) :
    (sortMembers ms).map (Prod.map f g) = sortMembers (ms.map (Prod.map f g)) :=
  List.map_insertionSort _ _ _ _ fun _ _ _ _ => hf.le_iff_le.symm

/-- The same value with the members of every object in key order. -/
def sorted : Json σ α → Json σ α := fold .atom .array fun ms => .object (sortMembers ms)

/-- An atom stays as it is. -/
@[simp] theorem sorted_atom (a : α) : sorted (.atom a : Json σ α) = .atom a := fold_atom ..

/-- The items of an array are sorted within. -/
@[simp] theorem sorted_array (xs : List (Json σ α)) :
    sorted (.array xs) = .array (xs.map sorted) := fold_array ..

/-- The members of an object are sorted within, and by their keys. -/
@[simp] theorem sorted_object (ms : List (σ × Json σ α)) :
    sorted (.object ms) = .object (sortMembers (ms.map (Prod.map id sorted))) := fold_object ..

/-- The keys of every object increase. -/
abbrev SortedKeys : Json σ α → Prop := Forall (fun _ => True) (List.Pairwise (· < ·))

/-- Distinct keys are in order after sorting. -/
theorem sortedKeys_sorted {v : Json σ α} (h : DistinctKeys v) : SortedKeys (sorted v) := by
  induction v using ind with
  | atom a => exact .atom trivial
  | array xs ih =>
    rw [sorted_array, SortedKeys, forall_array, List.forall_mem_map]
    exact fun x hx => ih x hx (forall_array.1 h x hx)
  | object ms ih =>
    obtain ⟨hkeys, hms⟩ := forall_object.1 h
    rw [sorted_object, SortedKeys, forall_object]
    refine ⟨List.pairwise_map.2 (increasing_sortMembers ?_), fun m hm => ?_⟩
    · rwa [keys_map, List.map_id]
    · obtain ⟨n, hn, rfl⟩ := List.mem_map.1 (mem_sortMembers.1 hm)
      exact ih n hn (hms n hn)

/-- Keys in order are distinct. -/
theorem SortedKeys.distinctKeys {v : Json σ α} (h : SortedKeys v) : DistinctKeys v :=
  h.imp (fun _ ha => ha) fun _ hks => hks.imp fun hlt => hlt.ne

/-- A value whose keys are in order stays as it is. -/
theorem sorted_eq_self {v : Json σ α} (h : SortedKeys v) : sorted v = v := by
  induction v using ind with
  | atom a => rfl
  | array xs ih =>
    rw [sorted_array, List.map_congr_left fun x hx => ih x hx (forall_array.1 h x hx), List.map_id']
  | object ms ih =>
    obtain ⟨hkeys, hms⟩ := forall_object.1 h
    have hself : ms.map (Prod.map id sorted) = ms := by
      conv_rhs => rw [← List.map_id ms]
      exact List.map_congr_left fun m hm => Prod.ext rfl (ih m hm (hms m hm))
    rw [sorted_object, hself, sortMembers_eq_self (List.pairwise_map.1 hkeys)]

/-- What does not depend on the order of keys is still so after sorting. -/
theorem forall_sorted {P : α → Prop} {Q : List σ → Prop} (hQ : ∀ {ks ks'}, ks.Perm ks' → Q ks → Q ks')
    {v : Json σ α} (h : Forall P Q v) : Forall P Q (sorted v) := by
  induction v using ind with
  | atom a => exact h
  | array xs ih =>
    rw [sorted_array, forall_array, List.forall_mem_map]
    exact fun x hx => ih x hx (forall_array.1 h x hx)
  | object ms ih =>
    obtain ⟨hkeys, hms⟩ := forall_object.1 h
    rw [sorted_object, forall_object]
    refine ⟨hQ ((sortMembers_perm _).map Prod.fst).symm ?_, fun m hm => ?_⟩
    · rwa [keys_map, List.map_id]
    · obtain ⟨n, hn, rfl⟩ := List.mem_map.1 (mem_sortMembers.1 hm)
      exact ih n hn (hms n hn)

/-- What does not depend on the order of keys was so before sorting. -/
theorem forall_of_sorted {P : α → Prop} {Q : List σ → Prop}
    (hQ : ∀ {ks ks'}, ks.Perm ks' → Q ks → Q ks') {v : Json σ α} (h : Forall P Q (sorted v)) :
    Forall P Q v := by
  induction v using ind with
  | atom a => exact h
  | array xs ih =>
    rw [sorted_array, forall_array, List.forall_mem_map] at h
    exact .array fun x hx => ih x hx (h x hx)
  | object ms ih =>
    rw [sorted_object, forall_object] at h
    refine .object (hQ ?_ h.1) fun m hm => ih m hm (h.2 _ (mem_sortMembers.2 (List.mem_map_of_mem hm)))
    exact ((sortMembers_perm _).map Prod.fst).trans (by rw [keys_map, List.map_id])

/-- Sorting keeps the levels. -/
theorem depth_sorted (v : Json σ α) : depth (sorted v) = depth v := by
  refine eq_of_forall_ge_iff fun n => ?_
  induction v using ind generalizing n with
  | atom a => rfl
  | array xs ih =>
    rw [sorted_array]
    cases n with
    | zero => simp only [depth_array, Nat.add_one_le_iff, Nat.not_lt_zero]
    | succ n =>
      simp only [depth_array_le, List.forall_mem_map]
      exact forall₂_congr fun x hx => ih x hx n
  | object ms ih =>
    rw [sorted_object]
    cases n with
    | zero => simp only [depth_object, Nat.add_one_le_iff, Nat.not_lt_zero]
    | succ n =>
      simp only [depth_object_le, mem_sortMembers, List.forall_mem_map]
      exact forall₂_congr fun m hm => ih m hm n

/-- **Sorting and mapping commute**, where the map keeps the order of keys. -/
theorem map_sorted {τ : Type} [LinearOrder τ] {f : σ → τ} (hf : StrictMono f) (g : α → β)
    (v : Json σ α) : map f g (sorted v) = sorted (map f g v) := by
  induction v using ind with
  | atom a => rfl
  | array xs ih =>
    simp only [sorted_array, map_array, List.map_map]
    exact congrArg _ (List.map_congr_left ih)
  | object ms ih =>
    simp only [sorted_object, map_object]
    rw [map_sortMembers hf, List.map_map, List.map_map]
    congr 2
    exact List.map_congr_left fun m hm => Prod.ext rfl (ih m hm)

/-- Sorting twice is sorting once. -/
theorem sorted_sorted {v : Json σ α} (h : DistinctKeys v) : sorted (sorted v) = sorted v :=
  sorted_eq_self (sortedKeys_sorted h)

/-- A sorted object has the sorted value under each key. -/
theorem lookup_sorted [DecidableEq σ] {ms ns : List (σ × Json σ α)} (hms : (ms.map Prod.fst).Nodup)
    (h : (object ms).sorted = .object ns) (k : σ) : lookup ns k = (lookup ms k).map sorted := by
  rw [sorted_object, object.injEq] at h
  have hkeys : ((ms.map (Prod.map id sorted)).map Prod.fst).Nodup := by rwa [keys_map, List.map_id]
  rw [← h, ← lookup_congr hkeys (sortMembers_perm _).symm]
  exact lookup_map Function.injective_id sorted ms k

/-- Some members of a sorted object are, up to their order, those of the object. -/
theorem sorted_filter {ms ns : List (σ × Json σ α)} (hms : (object ms).DistinctKeys)
    (h : (object ms).sorted = .object ns) (p : σ → Bool) :
    (object (ns.filter fun m => p m.1)).sorted = (object (ms.filter fun m => p m.1)).sorted := by
  obtain ⟨hkeys, hvalues⟩ := forall_object.1 hms
  rw [sorted_object, object.injEq] at h
  have hperm : (ns.filter fun m => p m.1).Perm
      ((ms.filter fun m => p m.1).map (Prod.map id sorted)) := by
    rw [← h]
    refine ((sortMembers_perm _).filter _).trans (List.Perm.of_eq ?_)
    rw [List.filter_map]
    rfl
  have htwice : ((ms.filter fun m => p m.1).map (Prod.map id sorted)).map (Prod.map id sorted) =
      (ms.filter fun m => p m.1).map (Prod.map id sorted) := by
    rw [List.map_map]
    exact List.map_congr_left fun m hm =>
      Prod.ext rfl (sorted_sorted (hvalues m (List.mem_of_mem_filter hm)))
  have hnodup : ((ms.filter fun m => p m.1).map Prod.fst).Nodup :=
    hkeys.sublist (List.filter_sublist.map Prod.fst)
  rw [sorted_object, sorted_object, ← htwice]
  refine congrArg object (sortMembers_eq_of_perm ?_ (hperm.map _))
  rw [keys_map, List.map_id, (hperm.map Prod.fst).nodup_iff, keys_map, List.map_id]
  exact hnodup

/-- A sorted object has the same keys. -/
theorem keys_sorted {ms ns : List (σ × Json σ α)} (h : (object ms).sorted = .object ns) :
    (ns.map Prod.fst).Perm (ms.map Prod.fst) := by
  rw [sorted_object, object.injEq] at h
  rw [← h]
  exact ((sortMembers_perm _).map Prod.fst).trans (by rw [keys_map, List.map_id])

end Sorted

end Json
end Vestrix
