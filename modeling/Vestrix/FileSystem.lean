/-
# Files and power losses

A directory entry names a file by number.  What is written to a file is seen at once by
everyone who reads it, and survives a power loss if the file has been synced since.  Changes of entries
are seen at once too; a power loss takes back some of the last ones that have not been made
permanent, in the order in which they were made.

Many programs publish a file by renaming another one, which they have written and synced under a
name that nobody reads.  To whoever reads the other names only (`seen`), such a disk is a
store that whole contents are put into (`Represents.read`), and every step of such a program
keeps it so, as does a power loss.
-/

import Mathlib.Data.List.Basic
import Mathlib.Logic.Function.Basic

namespace Vestrix
namespace FileSystem

/-- What a file has in it, and whether that survives a power loss. -/
structure Inode where
  content : List UInt8
  synced : Bool

/-- A change of directory entries. -/
inductive Operation (Path : Type) where
  | create (path : Path) (inode : ℕ)
  | rename (source target : Path) (inode : ℕ)
  | unlink (path : Path)

/-- The files, the entries that a power loss leaves, and the changes since then that it may take
back. -/
structure Disk (Path : Type) where
  inodes : ℕ → Inode
  count : ℕ
  stored : Path → Option ℕ
  journal : List (Operation Path)

variable {Path : Type} [DecidableEq Path]

/-- The entries after a change. -/
def Operation.apply (entries : Path → Option ℕ) : Operation Path → Path → Option ℕ
  | .create path inode => Function.update entries path (some inode)
  | .rename source target inode => Function.update (Function.update entries source none) target (some inode)
  | .unlink path => Function.update entries path none

namespace Disk

/-- The entries, as everyone sees them. -/
def entries (d : Disk Path) : Path → Option ℕ := d.journal.foldl Operation.apply d.stored

/-- What is read of a file. -/
def read (d : Disk Path) (path : Path) : Option (List UInt8) :=
  (d.entries path).map fun inode => (d.inodes inode).content

/-- One more change. -/
def log (operation : Operation Path) (d : Disk Path) : Disk Path :=
  { d with journal := d.journal ++ [operation] }

/-- A new file. -/
def create (path : Path) (d : Disk Path) : Disk Path :=
  { d with
    inodes := Function.update d.inodes d.count ⟨[], false⟩
    count := d.count + 1
    journal := d.journal ++ [.create path d.count] }

/-- What a file has in it from now on. -/
def write (inode : ℕ) (content : List UInt8) (d : Disk Path) : Disk Path :=
  { d with inodes := Function.update d.inodes inode ⟨content, false⟩ }

/-- `fsync`. -/
def sync (inode : ℕ) (d : Disk Path) : Disk Path :=
  { d with inodes := Function.update d.inodes inode ⟨(d.inodes inode).content, true⟩ }

/-- The disk after a power loss, which keeps the given number of changes; a file that was not synced has
anything in it. -/
def powerLoss (kept : ℕ) (found : ℕ → List UInt8) (d : Disk Path) : Disk Path where
  inodes inode := if (d.inodes inode).synced = true then d.inodes inode else ⟨found inode, true⟩
  count := d.count
  stored := (d.journal.take kept).foldl Operation.apply d.stored
  journal := []

/-- What a change puts at a path at once. -/
def put? (d : Disk Path) : Operation Path → Option (Path × List UInt8)
  | .rename _ target inode => some (target, (d.inodes inode).content)
  | _ => none

/-- What the changes put at paths. -/
def puts (d : Disk Path) : List (Path × List UInt8) := d.journal.filterMap d.put?

end Disk

/-! ### A store of whole contents -/

/-- A store: what a power loss leaves, and what has been put into it since. -/
structure Store (Path : Type) where
  stored : Path → Option (List UInt8)
  puts : List (Path × List UInt8)

/-- What can happen to a store. -/
inductive Action (Path : Type) where
  | put (path : Path) (content : List UInt8)
  | lose (kept : ℕ)

namespace Store

/-- One more content. -/
def insert (files : Path → Option (List UInt8)) (entry : Path × List UInt8) : Path → Option (List UInt8) :=
  Function.update files entry.1 (some entry.2)

/-- What is read of the store. -/
def read (s : Store Path) : Path → Option (List UInt8) := s.puts.foldl insert s.stored

/-- What a power loss leaves of the store. -/
def lose (kept : ℕ) (s : Store Path) : Store Path := ⟨(s.puts.take kept).foldl insert s.stored, []⟩

/-- What happens to a store. -/
def step (s : Store Path) : Action Path → Store Path
  | .put path content => { s with puts := s.puts ++ [(path, content)] }
  | .lose kept => s.lose kept

/-- Files that are there for good. -/
def initial (files : Path → Option (List UInt8)) : Store Path := ⟨files, []⟩

end Store

/-! ### Publishing -/

variable (seen : Path → Prop)

/-- A file that is, or was, at a path that is seen. -/
def Disk.Linked (d : Disk Path) (inode : ℕ) : Prop :=
  (∃ p, seen p ∧ d.stored p = some inode) ∨ ∃ p q, .rename p q inode ∈ d.journal

/-- The paths that are seen change by renames only, and name files that are synced. -/
structure Disk.Settled (d : Disk Path) : Prop where
  create : ∀ p inode, .create p inode ∈ d.journal → ¬ seen p
  rename : ∀ p q inode, .rename p q inode ∈ d.journal → ¬ seen p ∧ seen q
  unlink : ∀ p, .unlink p ∈ d.journal → ¬ seen p
  linked : ∀ inode, d.Linked seen inode → inode < d.count ∧ (d.inodes inode).synced = true

/-- A disk, to those who see some of the paths. -/
structure Represents (d : Disk Path) (s : Store Path) : Prop where
  settled : d.Settled seen
  stored : ∀ p, seen p → ((d.stored p).map fun inode => (d.inodes inode).content) = s.stored p
  puts : d.puts = s.puts

variable {seen : Path → Prop} {d : Disk Path} {s : Store Path} {path source target : Path} {inode : ℕ}
  {content : List UInt8}

section

omit [DecidableEq Path]

/-- A file that is written to has the new content, and is not on the disk yet. -/
theorem Disk.write_inodes_self : (d.write inode content).inodes inode = ⟨content, false⟩ :=
  Function.update_self ..

/-- Writing to a file leaves the others. -/
theorem Disk.write_inodes_of_ne {i : ℕ} (h : i ≠ inode) : (d.write inode content).inodes i = d.inodes i :=
  Function.update_of_ne h ..

/-- A file that is synchronized keeps its content, and is on the disk. -/
theorem Disk.sync_inodes_self : (d.sync inode).inodes inode = ⟨(d.inodes inode).content, true⟩ :=
  Function.update_self ..

/-- Synchronizing a file leaves the others. -/
theorem Disk.sync_inodes_of_ne {i : ℕ} (h : i ≠ inode) : (d.sync inode).inodes i = d.inodes i :=
  Function.update_of_ne h ..

/-- A new file has an inode of its own. -/
theorem Disk.create_inodes_of_ne {i : ℕ} (h : i ≠ d.count) : (d.create path).inodes i = d.inodes i :=
  Function.update_of_ne h ..

end

/-- A power loss leaves the files that have been synchronized. -/
theorem Disk.powerLoss_inodes_of_synced {kept : ℕ} {found : ℕ → List UInt8}
    (h : (d.inodes inode).synced = true) : (d.powerLoss kept found).inodes inode = d.inodes inode :=
  if_pos h

/-- An operation on the directory is the last one to be applied. -/
theorem Disk.entries_log (operation : Operation Path) :
    (d.log operation).entries = operation.apply d.entries := List.foldl_concat ..

/-- A new file is at its path, with the next inode. -/
theorem Disk.entries_create : (d.create path).entries = Function.update d.entries path (some d.count) :=
  List.foldl_concat ..

/-! ### What is read -/

/-- The entry of a path that is seen is an old one, or that of a rename. -/
theorem linked_of_foldl {l : List (Operation Path)} {entries : Path → Option ℕ}
    (hcreate : ∀ p i, .create p i ∈ l → ¬ seen p) (hrename : ∀ p q i, .rename p q i ∈ l → ¬ seen p)
    (hpath : seen path) (h : l.foldl Operation.apply entries path = some inode) :
    entries path = some inode ∨ ∃ p q, .rename p q inode ∈ l := by
  induction l generalizing entries with
  | nil => exact Or.inl h
  | cons operation l ih =>
    have hlater : (∃ p q, Operation.rename p q inode ∈ l) → ∃ p q, .rename p q inode ∈ operation :: l :=
      fun ⟨p, q, hmem⟩ => ⟨p, q, List.mem_cons_of_mem _ hmem⟩
    rcases ih (fun p i hmem => hcreate p i (List.mem_cons_of_mem _ hmem))
      (fun p q i hmem => hrename p q i (List.mem_cons_of_mem _ hmem)) h with hentry | hmem
    · cases operation with
      | create p i =>
        have hne : path ≠ p := fun heq => hcreate p i List.mem_cons_self (heq ▸ hpath)
        exact Or.inl ((Function.update_of_ne hne _ _).symm.trans hentry)
      | rename p q i =>
        have hne : path ≠ p := fun heq => hrename p q i List.mem_cons_self (heq ▸ hpath)
        by_cases hq : path = q
        · subst hq
          rw [Operation.apply, Function.update_self, Option.some.injEq] at hentry
          exact Or.inr ⟨p, path, hentry ▸ List.mem_cons_self⟩
        · rw [Operation.apply, Function.update_of_ne hq, Function.update_of_ne hne] at hentry
          exact Or.inl hentry
      | unlink p =>
        by_cases hp : path = p
        · rw [Operation.apply, hp, Function.update_self] at hentry
          cases hentry
        · exact Or.inl ((Function.update_of_ne hp _ _).symm.trans hentry)
    · exact Or.inr (hlater hmem)

/-- The changes of a disk, and what they put into a store. -/
theorem read_foldl {l : List (Operation Path)} {entries : Path → Option ℕ}
    {files : Path → Option (List UInt8)} (hcreate : ∀ p i, .create p i ∈ l → ¬ seen p)
    (hrename : ∀ p q i, .rename p q i ∈ l → ¬ seen p) (hunlink : ∀ p, .unlink p ∈ l → ¬ seen p)
    (hfiles : ∀ p, seen p → ((entries p).map fun i => (d.inodes i).content) = files p) :
    ∀ p, seen p → ((l.foldl Operation.apply entries p).map fun i => (d.inodes i).content) =
      (l.filterMap d.put?).foldl Store.insert files p := by
  induction l generalizing entries files with
  | nil => exact hfiles
  | cons operation l ih =>
    have hother : ∀ {p q : Path}, seen p → ¬ seen q → p ≠ q := fun hp hq heq => hq (heq ▸ hp)
    have hrest : ∀ files' : Path → Option (List UInt8),
        (∀ p, seen p → ((operation.apply entries p).map fun i => (d.inodes i).content) = files' p) →
        ∀ p, seen p → ((l.foldl Operation.apply (operation.apply entries) p).map fun i =>
          (d.inodes i).content) = (l.filterMap d.put?).foldl Store.insert files' p :=
      fun _ => ih (fun p i hmem => hcreate p i (List.mem_cons_of_mem _ hmem))
        (fun p q i hmem => hrename p q i (List.mem_cons_of_mem _ hmem))
        (fun p hmem => hunlink p (List.mem_cons_of_mem _ hmem))
    rw [List.foldl_cons]
    cases operation with
    | create q i =>
      refine hrest files fun p hp => ?_
      rw [Operation.apply, Function.update_of_ne (hother hp (hcreate q i List.mem_cons_self))]
      exact hfiles p hp
    | unlink q =>
      refine hrest files fun p hp => ?_
      rw [Operation.apply, Function.update_of_ne (hother hp (hunlink q List.mem_cons_self))]
      exact hfiles p hp
    | rename q r i =>
      refine hrest (Store.insert files (r, (d.inodes i).content)) fun p hp => ?_
      rw [Operation.apply, Store.insert]
      by_cases hr : p = r
      · rw [hr, Function.update_self, Function.update_self, Option.map_some]
      · rw [Function.update_of_ne hr, Function.update_of_ne hr,
          Function.update_of_ne (hother hp (hrename q r i List.mem_cons_self))]
        exact hfiles p hp

/-- **What is read of a disk is what is read of its store.** -/
theorem Represents.read (h : Represents seen d s) (hpath : seen path) : d.read path = s.read path := by
  rw [Store.read, ← h.puts]
  exact read_foldl h.settled.create (fun p q i hmem => (h.settled.rename p q i hmem).1) h.settled.unlink
    h.stored path hpath

/-! ### The steps -/

section

omit [DecidableEq Path]

/-- One more change links a file if it is a rename of it. -/
theorem Disk.linked_log {operation : Operation Path} : (d.log operation).Linked seen inode ↔
    d.Linked seen inode ∨ ∃ p q, operation = .rename p q inode := by
  have hmem : ∀ o : Operation Path, o ∈ (d.log operation).journal ↔ o ∈ d.journal ∨ operation = o :=
    fun o => by rw [Disk.log, List.mem_append, List.mem_singleton, eq_comm]
  simp only [Disk.Linked, hmem, exists_or, or_assoc]
  rfl

/-- What has no effect on the files that are linked leaves what is represented. -/
theorem Represents.of_inodes {d' : Disk Path} (h : Represents seen d s) (hcount : d.count ≤ d'.count)
    (hstored : d'.stored = d.stored) (hjournal : d'.journal = d.journal)
    (hinodes : ∀ i, d.Linked seen i → (d'.inodes i).content = (d.inodes i).content ∧
      (d'.inodes i).synced = true) : Represents seen d' s := by
  have hlinked : ∀ i, d'.Linked seen i ↔ d.Linked seen i := fun i => by
    rw [Disk.Linked, Disk.Linked, hstored, hjournal]
  refine ⟨⟨?_, ?_, ?_, fun i hi => ?_⟩, fun p hp => ?_, ?_⟩
  · rw [hjournal]; exact h.settled.create
  · rw [hjournal]; exact h.settled.rename
  · rw [hjournal]; exact h.settled.unlink
  · have hi' := (hlinked i).1 hi
    exact ⟨Nat.lt_of_lt_of_le (h.settled.linked i hi').1 hcount, (hinodes i hi').2⟩
  · rw [hstored, ← h.stored p hp]
    cases hentry : d.stored p with
    | none => rfl
    | some i => rw [Option.map_some, Option.map_some, (hinodes i (Or.inl ⟨p, hp, hentry⟩)).1]
  · rw [← h.puts, Disk.puts, Disk.puts, hjournal]
    refine List.filterMap_congr fun operation hmem => ?_
    cases operation with
    | create => rfl
    | unlink => rfl
    | rename p q i => rw [Disk.put?, Disk.put?, (hinodes i (Or.inr ⟨p, q, hmem⟩)).1]

/-- A reader does not see what is written to a file that is at no path of his. -/
theorem Represents.write (h : Represents seen d s) (hinode : ¬ d.Linked seen inode) :
    Represents seen (d.write inode content) s := by
  refine h.of_inodes (Nat.le_refl _) rfl rfl fun i hi => ?_
  have hne : i ≠ inode := fun heq => hinode (heq ▸ hi)
  rw [Disk.write_inodes_of_ne hne]
  exact ⟨rfl, (h.settled.linked i hi).2⟩

/-- A reader does not see that a file is synchronized. -/
theorem Represents.sync (h : Represents seen d s) : Represents seen (d.sync inode) s := by
  refine h.of_inodes (Nat.le_refl _) rfl rfl fun i hi => ?_
  by_cases hi' : i = inode
  · rw [hi', Disk.sync_inodes_self]
    exact ⟨rfl, rfl⟩
  · rw [Disk.sync_inodes_of_ne hi']
    exact ⟨rfl, (h.settled.linked i hi).2⟩

/-- A reader does not see an entry that is made or removed at a path of no interest to him. -/
theorem Represents.log (h : Represents seen d s) {operation : Operation Path}
    (hoperation : (∃ i, operation = .create path i) ∨ operation = .unlink path) (hpath : ¬ seen path) :
    Represents seen (d.log operation) s := by
  have hmem : ∀ {o : Operation Path}, o ∈ (d.log operation).journal → o ∈ d.journal ∨ o = operation :=
    fun ho => (List.mem_append.1 ho).imp_right List.mem_singleton.1
  have hrename : ∀ p q i, .rename p q i ∈ (d.log operation).journal → .rename p q i ∈ d.journal := by
    intro p q i ho
    refine (hmem ho).resolve_right ?_
    rintro rfl
    rcases hoperation with ⟨_, hoperation⟩ | hoperation <;> cases hoperation
  refine ⟨⟨fun p i ho => ?_, fun p q i ho => h.settled.rename p q i (hrename p q i ho), fun p ho => ?_,
    fun i hi => ?_⟩, h.stored, ?_⟩
  · rcases hmem ho with ho | rfl
    · exact h.settled.create p i ho
    · rcases hoperation with ⟨_, hoperation⟩ | hoperation <;> cases hoperation
      exact hpath
  · rcases hmem ho with ho | rfl
    · exact h.settled.unlink p ho
    · rcases hoperation with ⟨_, hoperation⟩ | hoperation <;> cases hoperation
      exact hpath
  · refine h.settled.linked i (hi.imp_right ?_)
    rintro ⟨p, q, ho⟩
    exact ⟨p, q, hrename p q i ho⟩
  · have hnone : d.put? operation = none := by
      rcases hoperation with ⟨_, rfl⟩ | rfl <;> rfl
    show (d.journal ++ [operation]).filterMap d.put? = s.puts
    rw [List.filterMap_append, List.filterMap_cons_none hnone, ← h.puts]
    exact List.append_nil _

/-- A reader does not see that a path is removed at which it does not look. -/
theorem Represents.unlink (h : Represents seen d s) (hpath : ¬ seen path) :
    Represents seen (d.log (.unlink path)) s := h.log (Or.inr rfl) hpath

/-- A reader does not see a new file at a path of no interest to him. -/
theorem Represents.create (h : Represents seen d s) (hpath : ¬ seen path) :
    Represents seen (d.create path) s := by
  refine (h.log (Or.inl ⟨d.count, rfl⟩) hpath).of_inodes (Nat.le_succ _) rfl rfl fun i hi => ?_
  have hlinked : d.Linked seen i := by
    refine hi.imp_right ?_
    rintro ⟨p, q, ho⟩
    refine ⟨p, q, (List.mem_append.1 ho).resolve_right fun ho => ?_⟩
    cases List.mem_singleton.1 ho
  have hi' := h.settled.linked i hlinked
  rw [Disk.create_inodes_of_ne (Nat.ne_of_lt hi'.1)]
  exact ⟨rfl, hi'.2⟩

end

/-- **A rename puts a whole content into the store.** -/
theorem Represents.rename (h : Represents seen d s) (hsource : ¬ seen source) (htarget : seen target)
    (hinode : inode < d.count) (hsynced : (d.inodes inode).synced = true) :
    Represents seen (d.log (.rename source target inode))
      (s.step (.put target (d.inodes inode).content)) := by
  have hmem : ∀ {o : Operation Path}, o ∈ (d.log (.rename source target inode)).journal →
      o ∈ d.journal ∨ o = .rename source target inode :=
    fun ho => (List.mem_append.1 ho).imp_right List.mem_singleton.1
  refine ⟨⟨fun p i ho => ?_, fun p q i ho => ?_, fun p ho => ?_, fun i hi => ?_⟩, h.stored, ?_⟩
  · rcases hmem ho with ho | ho
    · exact h.settled.create p i ho
    · cases ho
  · rcases hmem ho with ho | ho
    · exact h.settled.rename p q i ho
    · cases ho
      exact ⟨hsource, htarget⟩
  · rcases hmem ho with ho | ho
    · exact h.settled.unlink p ho
    · cases ho
  · rcases hi with hstored | ⟨p, q, ho⟩
    · exact h.settled.linked i (Or.inl hstored)
    · rcases hmem ho with ho | ho
      · exact h.settled.linked i (Or.inr ⟨p, q, ho⟩)
      · cases ho
        exact ⟨hinode, hsynced⟩
  · show (d.journal ++ [_]).filterMap d.put? = s.puts ++ [_]
    rw [List.filterMap_append, ← h.puts]
    rfl

/-- **A power loss takes back what was put last**, and leaves whole contents. -/
theorem Represents.powerLoss (h : Represents seen d s) (kept : ℕ) (found : ℕ → List UInt8) :
    ∃ n, Represents seen (d.powerLoss kept found) (s.step (.lose n)) := by
  have htake : ∀ {o : Operation Path}, o ∈ d.journal.take kept → o ∈ d.journal := fun ho =>
    List.mem_of_mem_take ho
  have hcontent : ∀ i, d.Linked seen i →
      ((d.powerLoss kept found).inodes i).content = (d.inodes i).content ∧
        ((d.powerLoss kept found).inodes i).synced = true := by
    intro i hi
    have hsynced := (h.settled.linked i hi).2
    rw [Disk.powerLoss_inodes_of_synced hsynced]
    exact ⟨rfl, hsynced⟩
  have hlinked : ∀ {p i}, seen p → (d.powerLoss kept found).stored p = some i → d.Linked seen i := by
    intro p i hp hentry
    refine (linked_of_foldl (fun p i ho => h.settled.create p i (htake ho))
      (fun p q i ho => (h.settled.rename p q i (htake ho)).1) hp hentry).imp
      (fun hstored => ⟨p, hp, hstored⟩) ?_
    rintro ⟨q, r, ho⟩
    exact ⟨q, r, htake ho⟩
  have hprefix : (d.journal.take kept).filterMap d.put? <+: s.puts := by
    rw [← h.puts]
    exact (List.take_prefix kept d.journal).filterMap d.put?
  refine ⟨((d.journal.take kept).filterMap d.put?).length, ⟨?_, ?_, ?_, fun i hi => ?_⟩, fun p hp => ?_, rfl⟩
  · exact fun _ _ ho => absurd ho List.not_mem_nil
  · exact fun _ _ _ ho => absurd ho List.not_mem_nil
  · exact fun _ ho => absurd ho List.not_mem_nil
  · rcases hi with ⟨p, hp, hentry⟩ | ⟨p, q, ho⟩
    · have hi := hlinked hp hentry
      exact ⟨(h.settled.linked i hi).1, (hcontent i hi).2⟩
    · cases ho
  · have hread := read_foldl (d := d) (fun p i ho => h.settled.create p i (htake ho))
      (fun p q i ho => (h.settled.rename p q i (htake ho)).1) (fun p ho => h.settled.unlink p (htake ho))
      h.stored p hp
    show _ = (s.puts.take _).foldl Store.insert s.stored p
    rw [← List.prefix_iff_eq_take.1 hprefix, ← hread]
    show ((d.powerLoss kept found).stored p).map _ = ((d.powerLoss kept found).stored p).map _
    cases hentry : (d.powerLoss kept found).stored p with
    | none => rfl
    | some i => rw [Option.map_some, Option.map_some, (hcontent i (hlinked hp hentry)).1]

omit [DecidableEq Path] in
/-- Files that are on the disk for good are the store at the beginning. -/
theorem represents_initial {files : Path → Option ℕ} {inodes : ℕ → Inode} {count : ℕ}
    (hfiles : ∀ p i, seen p → files p = some i → i < count ∧ (inodes i).synced = true) :
    Represents seen (⟨inodes, count, files, []⟩ : Disk Path)
      (.initial fun p => (files p).map fun i => (inodes i).content) := by
  refine ⟨⟨?_, ?_, ?_, fun i hi => ?_⟩, fun _ _ => rfl, rfl⟩
  · exact fun _ _ ho => absurd ho List.not_mem_nil
  · exact fun _ _ _ ho => absurd ho List.not_mem_nil
  · exact fun _ ho => absurd ho List.not_mem_nil
  · rcases hi with ⟨p, hp, hentry⟩ | ⟨p, q, ho⟩
    · exact hfiles p i hp hentry
    · cases ho

/-! ### What a store has in it -/

/-- A content of a store was there at first, or was put there. -/
theorem Store.mem_of_foldl {l : List (Path × List UInt8)} {files : Path → Option (List UInt8)}
    (h : l.foldl Store.insert files path = some content) : files path = some content ∨ (path, content) ∈ l := by
  induction l generalizing files with
  | nil => exact Or.inl h
  | cons entry l ih =>
    rcases ih h with hfile | hmem
    · by_cases hp : path = entry.1
      · subst hp
        rw [Store.insert, Function.update_self, Option.some.injEq] at hfile
        exact Or.inr (hfile ▸ List.mem_cons_self)
      · exact Or.inl ((Function.update_of_ne hp _ _).symm.trans hfile)
    · exact Or.inr (List.mem_cons_of_mem _ hmem)

end FileSystem
end Vestrix
