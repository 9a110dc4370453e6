/-
# Publishing a proof

`write_proof_atomic`: a proof is written to a new file with a name of its own, synced, and renamed to its
target.  Calls of several processes may overlap; each goes through the system calls one at a time,
any of which may raise, a process may be killed between two of them, and the power may
be lost.

What a reader finds at a target is then always what was there at first or a whole proof that a call
was given (`publish_refines`): the directory is a store that calls put whole proofs into, a call that
has returned has put its proof there once, and no call puts more than that.
-/

import Vestrix.Anchor.Lifecycle
import Vestrix.FileSystem
import Vestrix.Text.Digits

namespace Vestrix
namespace Anchor
namespace Publish

open Text Transition FileSystem

/-- A path: a directory, and a name in it. -/
structure FilePath where
  directory : Str
  name : Str
deriving DecidableEq

/-- The arguments of a call; a proof that is no `bytes` is none. -/
structure Call where
  target : FilePath
  proof : Option (List UInt8)
  replace : Bool
deriving DecidableEq

/-- The proof of a call. -/
def Call.content (call : Call) : List UInt8 := call.proof.getD []

/-- What a call raises; `other` is what one of its system calls has raised. -/
inductive PublishError where
  | valueError
  | fileExists
  | other
deriving DecidableEq

/-- The system call that is next, with the temporary path and the file behind its descriptor;
`abandon` is the end of the `with` statement after an exception. -/
inductive Stage where
  | mkdir
  | exists
  | mkstemp
  | fdopen (temporary : FilePath) (inode : ℕ)
  | write (temporary : FilePath) (inode : ℕ)
  | flush (temporary : FilePath) (inode : ℕ)
  | fsync (temporary : FilePath) (inode : ℕ)
  | close (temporary : FilePath) (inode : ℕ)
  | abandon (temporary : FilePath) (inode : ℕ)
  | replace (temporary : FilePath) (inode : ℕ)
  | unlink (temporary : FilePath) (raised : Option PublishError)
  | returned
  | raised (e : PublishError)
  | killed
deriving DecidableEq

/-- What comes of a system call: it returns, it raises, `mkstemp` has chosen a name, or so many bytes
have got to the file when a call returns or raises. -/
inductive Reply where
  | done
  | raised
  | chosen (random : Str)
  | stored (n : ℕ)
  | failed (n : ℕ)
deriving DecidableEq

/-- The path that `mkstemp` makes of the characters that it has chosen. -/
def temporaryPath (target : FilePath) (random : Str) : FilePath :=
  ⟨target.directory, lit "." ++ target.name ++ lit "." ++ random ++ lit ".tmp"⟩

/-- A system call of `write_proof_atomic`, and what is next. -/
def advance (d : Disk FilePath) (call : Call) : Stage → Reply → Option (Disk FilePath × Stage)
  | .mkdir, .done => some (d, if call.replace = true then .mkstemp else .exists)
  | .mkdir, .raised => some (d, .raised .other)
  | .exists, .done =>
    some (d, if d.entries call.target = none then .mkstemp else .raised .fileExists)
  | .exists, .raised => some (d, .raised .other)
  | .mkstemp, .chosen random =>
    if d.entries (temporaryPath call.target random) = none then
      some (d.create (temporaryPath call.target random),
        .fdopen (temporaryPath call.target random) d.count)
    else none
  | .mkstemp, .raised => some (d, .raised .other)
  | .fdopen temporary inode, .done => some (d, .write temporary inode)
  | .fdopen temporary _, .raised => some (d, .unlink temporary (some .other))
  | .write temporary inode, .stored n =>
    some (d.write inode (call.content.take n), .flush temporary inode)
  | .write temporary inode, .failed n =>
    some (d.write inode (call.content.take n), .abandon temporary inode)
  | .flush temporary inode, .done => some (d.write inode call.content, .fsync temporary inode)
  | .flush temporary inode, .failed n =>
    some (d.write inode (call.content.take n), .abandon temporary inode)
  | .fsync temporary inode, .done => some (d.sync inode, .close temporary inode)
  | .fsync temporary inode, .raised => some (d, .abandon temporary inode)
  | .close temporary inode, .done => some (d, .replace temporary inode)
  | .close temporary _, .raised => some (d, .unlink temporary (some .other))
  | .abandon temporary inode, .stored n =>
    some (d.write inode (call.content.take n), .unlink temporary (some .other))
  | .replace temporary _, .done =>
    match d.entries temporary with
    | some inode => some (d.log (.rename temporary call.target inode), .unlink temporary none)
    | none => some (d, .unlink temporary (some .other))
  | .replace temporary _, .raised => some (d, .unlink temporary (some .other))
  | .unlink temporary raised, .done =>
    some (if d.entries temporary = none then d else d.log (.unlink temporary),
      raised.elim .returned .raised)
  | .unlink _ _, .raised => some (d, .raised .other)
  | _, _ => none

/-- A call that is running or over. -/
structure Writer where
  call : Call
  stage : Stage
deriving DecidableEq

/-- The files, and the calls. -/
structure State where
  disk : Disk FilePath
  count : ℕ
  writers : ℕ → Writer

/-- What can happen next. -/
inductive Step where
  | begin (call : Call)
  | go (k : ℕ) (reply : Reply)
  | kill (k : ℕ)
  | powerLoss (kept : ℕ) (found : ℕ → List UInt8)

/-- Where a call is when its process is killed. -/
def Stage.stop : Stage → Stage
  | .returned => .returned
  | .raised e => .raised e
  | _ => .killed

/-- The check of the proof comes first. -/
def Call.first (call : Call) : Stage := if call.content = [] then .raised .valueError else .mkdir

/-- The calls, and what they share. -/
def system (s : State) : Step → Option State
  | .begin call =>
    some { s with
      count := s.count + 1
      writers := Function.update s.writers s.count ⟨call, call.first⟩ }
  | .go k reply =>
    if k < s.count then
      (advance s.disk (s.writers k).call (s.writers k).stage reply).map fun next =>
        { s with
          disk := next.1
          writers := Function.update s.writers k ⟨(s.writers k).call, next.2⟩ }
    else none
  | .kill k =>
    if k < s.count then
      some { s with
        writers := Function.update s.writers k ⟨(s.writers k).call, (s.writers k).stage.stop⟩ }
    else none
  | .powerLoss kept found =>
    some { s with
      disk := s.disk.powerLoss kept found
      writers := fun k => ⟨(s.writers k).call, (s.writers k).stage.stop⟩ }

/-- Files that were there before the first call. -/
structure Start where
  inodes : ℕ → List UInt8
  count : ℕ
  entries : FilePath → Option ℕ
  bounded : ∀ path inode, entries path = some inode → inode < count

/-- No call has begun. -/
def State.initial (start : Start) : State where
  disk := ⟨fun inode => ⟨start.inodes inode, true⟩, start.count, start.entries, []⟩
  count := 0
  writers := fun _ => ⟨⟨⟨[], []⟩, none, false⟩, .killed⟩

/-- The contents of the files that were there before. -/
def Start.files (start : Start) (path : FilePath) : Option (List UInt8) :=
  (start.entries path).map start.inodes

/-! ### Names -/

/-- A path with the name of a temporary file. -/
def IsTemporary (path : FilePath) : Prop := lit ".tmp" <:+ path.name

instance (path : FilePath) : Decidable (IsTemporary path) :=
  inferInstanceAs (Decidable (_ <:+ _))

/-- `mkstemp` makes temporary names. -/
theorem isTemporary_temporaryPath (target : FilePath) (random : Str) :
    IsTemporary (temporaryPath target random) := List.suffix_append _ _

/-- The temporary file that a call has not removed yet. -/
@[simp] def Stage.temporary? : Stage → Option FilePath
  | .fdopen temporary _ => some temporary
  | .write temporary _ => some temporary
  | .flush temporary _ => some temporary
  | .fsync temporary _ => some temporary
  | .close temporary _ => some temporary
  | .abandon temporary _ => some temporary
  | .replace temporary _ => some temporary
  | .unlink temporary _ => some temporary
  | _ => none

/-- The names are in order: targets have other names than temporary files, and `mkstemp` does not draw a
name that a running call still has to unlink.  Between a rename and the `unlink` after it the name
is free, and a call that drew it then would lose its file to that `unlink`. -/
def Orderly (s : State) : Step → Prop
  | .begin call => ¬ IsTemporary call.target
  | .go k (.chosen random) => ∀ j < s.count,
      (s.writers j).stage.temporary? ≠ some (temporaryPath (s.writers k).call.target random)
  | _ => True

/-! ### What is observed -/

/-- What the readers of the targets can tell of a step. -/
inductive Observation where
  | published (k : ℕ) (call : Call)
  | lost (kept : ℕ)
deriving DecidableEq

/-- What it does to the store. -/
def Observation.action : Observation → FileSystem.Action FilePath
  | .published _ call => .put call.target call.content
  | .lost kept => .lose kept

/-- The call that has put a proof in place. -/
def Observation.caller? : Observation → Option ℕ
  | .published k _ => some k
  | .lost _ => none

/-- The store after some observations. -/
def storeAfter (files : FilePath → Option (List UInt8)) (observations : List Observation) : Store FilePath :=
  (observations.map Observation.action).foldl Store.step (.initial files)

/-- How often a call has put its proof in place. -/
def published (k : ℕ) (observations : List Observation) : ℕ :=
  (observations.filter fun o => decide (o.caller? = some k)).length

/-! ### One call -/

/-- The temporary file that a call has made and not renamed yet. -/
@[simp] def Stage.file? : Stage → Option (FilePath × ℕ)
  | .fdopen temporary inode => some (temporary, inode)
  | .write temporary inode => some (temporary, inode)
  | .flush temporary inode => some (temporary, inode)
  | .fsync temporary inode => some (temporary, inode)
  | .close temporary inode => some (temporary, inode)
  | .abandon temporary inode => some (temporary, inode)
  | .replace temporary inode => some (temporary, inode)
  | _ => none

/-- The whole proof is in the file. -/
@[simp] def Stage.flushed : Stage → Bool
  | .fsync _ _ => true
  | .close _ _ => true
  | .replace _ _ => true
  | _ => false

/-- The file has been synced since. -/
@[simp] def Stage.synced : Stage → Bool
  | .close _ _ => true
  | .replace _ _ => true
  | _ => false

/-- The proof has been put in place, and no exception has come since. -/
@[simp] def Stage.hasPut : Stage → Bool
  | .unlink _ none => true
  | .returned => true
  | _ => false

/-- The call is still running. -/
@[simp] def Stage.live : Stage → Bool
  | .returned => false
  | .raised _ => false
  | .killed => false
  | _ => true

/-- A step that does nothing to the files. -/
structure Stage.Idles (stage stage' : Stage) : Prop where
  live : stage.live = true
  file : ∀ f, stage'.file? = some f → stage.file? = some f
  name : stage'.temporary? = stage.temporary?
  flushed : stage'.flushed = true → stage.flushed = true
  synced : stage'.synced = true → stage.synced = true
  hasPut : stage'.hasPut = false
  hadPut : stage'.live = true → stage.hasPut = false

/-- A step that writes to the temporary file. -/
structure Stage.Writes (stage stage' : Stage) (temporary : FilePath) (inode : ℕ) : Prop where
  live : stage.live = true
  file : stage.file? = some (temporary, inode)
  file' : ∀ f, stage'.file? = some f → f = (temporary, inode)
  name : stage.temporary? = some temporary
  name' : stage'.temporary? = some temporary
  synced : stage'.synced = false
  hasPut : stage'.hasPut = false
  hadPut : stage.hasPut = false

/-- Every way that a call goes on. -/
inductive Goes (d : Disk FilePath) (call : Call) (reply : Reply) : Stage → Disk FilePath → Stage → Prop where
  | idle {stage stage' : Stage} (hidles : stage.Idles stage') : Goes d call reply stage d stage'
  | create {random : Str} (hfree : d.entries (temporaryPath call.target random) = none) :
      Goes d call reply .mkstemp (d.create (temporaryPath call.target random))
        (.fdopen (temporaryPath call.target random) d.count)
  | write {stage stage' : Stage} (temporary : FilePath) (inode : ℕ) {content : List UInt8}
      (hwrites : stage.Writes stage' temporary inode)
      (hcontent : stage'.flushed = true → content = call.content) :
      Goes d call reply stage (d.write inode content) stage'
  | sync {temporary : FilePath} {inode : ℕ} :
      Goes d call reply (.fsync temporary inode) (d.sync inode) (.close temporary inode)
  | rename {temporary : FilePath} {inode inode' : ℕ} (hentry : d.entries temporary = some inode') :
      Goes d call reply (.replace temporary inode) (d.log (.rename temporary call.target inode'))
        (.unlink temporary none)
  | unlink {temporary : FilePath} {raised : Option PublishError} :
      Goes d call reply (.unlink temporary raised)
        (if d.entries temporary = none then d else d.log (.unlink temporary))
        (raised.elim .returned .raised)
  | leave {temporary : FilePath} {raised : Option PublishError} (hreply : reply = .raised) :
      Goes d call reply (.unlink temporary raised) d (.raised .other)

variable {d d' : Disk FilePath} {call : Call} {stage stage' : Stage} {reply : Reply}

/-- **A system call of a call either leaves the disk, or is one of the changes** that `Goes` lists. -/
theorem goes_of_advance (h : advance d call stage reply = some (d', stage')) :
    Goes d call reply stage d' stage' := by
  rw [advance.eq_def] at h
  split at h
  case h_3 | h_1 =>
    cases h
    split_ifs <;> exact .idle (by constructor <;> simp)
  case h_5 =>
    split_ifs at h with hfree
    cases h
    exact .create hfree
  case h_9 temporary inode _ | h_10 temporary inode _ | h_12 temporary inode _ | h_17 temporary inode _ =>
    cases h
    exact .write temporary inode (by constructor <;> simp) (by simp)
  case h_11 temporary inode =>
    cases h
    exact .write temporary inode (by constructor <;> simp) fun _ => rfl
  case h_13 =>
    cases h
    exact .sync
  case h_18 =>
    split at h
    · rename_i hentry
      cases h
      exact .rename hentry
    · cases h
      exact .idle (by constructor <;> simp)
  case h_20 =>
    cases h
    exact .unlink
  case h_21 =>
    cases h
    exact .leave rfl
  case h_22 => cases h
  all_goals
    cases h
    exact .idle (by constructor <;> simp)

/-! ### The invariant -/

/-- The paths that readers look at. -/
def Seen (path : FilePath) : Prop := ¬ IsTemporary path

/-- What is true of a call. -/
structure Writer.Inv (d : Disk FilePath) (w : Writer) : Prop where
  call : w.stage.live = true → Seen w.call.target ∧ w.call.content ≠ []
  name : ∀ t, w.stage.temporary? = some t → IsTemporary t
  file : ∀ t i, w.stage.file? = some (t, i) → d.entries t = some i ∧ i < d.count ∧ ¬ d.Linked Seen i
  flushed : ∀ t i, w.stage.file? = some (t, i) → w.stage.flushed = true →
    (d.inodes i).content = w.call.content
  synced : ∀ t i, w.stage.file? = some (t, i) → w.stage.synced = true → (d.inodes i).synced = true

/-- What is true of the calls and the files, after what has been observed. -/
structure Inv (files : FilePath → Option (List UInt8)) (s : State) (observations : List Observation) :
    Prop where
  represents : Represents Seen s.disk (storeAfter files observations)
  writer : ∀ k, (s.writers k).Inv s.disk
  inodes : ∀ j k t i t' i', j ≠ k → (s.writers j).stage.file? = some (t, i) →
    (s.writers k).stage.file? = some (t', i') → i ≠ i'
  names : ∀ j k t, j ≠ k → (s.writers j).stage.temporary? = some t →
    (s.writers k).stage.temporary? ≠ some t
  later : ∀ k, s.count ≤ k → (s.writers k).stage = .killed ∧ published k observations = 0
  puts : ∀ k, published k observations ≤ 1 ∧
    ((s.writers k).stage.hasPut = true → published k observations = 1) ∧
    ((s.writers k).stage.live = true → (s.writers k).stage.hasPut = false → published k observations = 0)
  calls : ∀ k call, .published k call ∈ observations →
    (s.writers k).call = call ∧ Seen call.target ∧ call.content ≠ []

variable {files : FilePath → Option (List UInt8)} {s t : State} {observations : List Observation}
  {k : ℕ} {w : Writer}

/-- The publications of a call are counted piece by piece. -/
theorem published_append (k : ℕ) (observations observations' : List Observation) :
    published k (observations ++ observations') = published k observations + published k observations' := by
  rw [published, List.filter_append, List.length_append]
  rfl

/-- The last observation is applied last. -/
theorem storeAfter_append (observations : List Observation) (o : Observation) :
    storeAfter files (observations ++ [o]) = (storeAfter files observations).step o.action := by
  rw [storeAfter, List.map_append, List.foldl_append]
  rfl

/-- What has been published was published by the call that it names. -/
theorem published_ne_zero {call : Call} (h : .published k call ∈ observations) :
    published k observations ≠ 0 := by
  have hmem : Observation.published k call ∈
      observations.filter fun o => decide (o.caller? = some k) :=
    List.mem_filter.2 ⟨h, decide_eq_true rfl⟩
  exact (List.length_pos_of_mem hmem).ne'

/-- What is true of a call stays so while its own temporary file is left alone. -/
theorem Writer.Inv.of_disk (h : w.Inv d) (hfile : ∀ t i, w.stage.file? = some (t, i) →
    d'.entries t = some i ∧ i < d'.count ∧ ¬ d'.Linked Seen i ∧ d'.inodes i = d.inodes i) : w.Inv d' where
  call := h.call
  name := h.name
  file t i hf := ⟨(hfile t i hf).1, (hfile t i hf).2.1, (hfile t i hf).2.2.1⟩
  flushed t i hf hstage := by
    rw [(hfile t i hf).2.2.2]
    exact h.flushed t i hf hstage
  synced t i hf hstage := by
    rw [(hfile t i hf).2.2.2]
    exact h.synced t i hf hstage

/-- Of a call without a temporary file there is only its target and its content to know. -/
theorem Writer.Inv.of_none (hcall : w.stage.live = true → Seen w.call.target ∧ w.call.content ≠ [])
    (hname : ∀ t, w.stage.temporary? = some t → IsTemporary t) (hfile : w.stage.file? = none) : w.Inv d := by
  have hnone : ∀ {t i}, w.stage.file? ≠ some (t, i) := fun h => by rw [hfile] at h; cases h
  exact ⟨hcall, hname, fun t i h => (hnone h).elim, fun t i h => (hnone h).elim, fun t i h => (hnone h).elim⟩

/-- At the beginning the store is what is in the directory. -/
theorem inv_initial (start : Start) : Inv start.files (.initial start) [] where
  represents := represents_initial fun p i _ h => ⟨start.bounded p i h, rfl⟩
  writer _ := .of_none (fun h => by cases h) (fun _ h => by cases h) rfl
  inodes _ _ _ _ _ _ _ h := by cases h
  names _ _ _ _ h := by cases h
  later _ _ := ⟨rfl, rfl⟩
  puts _ := ⟨Nat.zero_le _, fun h => (by cases h), fun _ _ => rfl⟩
  calls _ _ h := by cases h

/-- If one call goes on and the files of the others are left alone, then the invariant holds again. -/
theorem Inv.go {observations' : List Observation} (h : Inv files s observations) (hk : k < s.count)
    (hrepresents : Represents Seen d' (storeAfter files observations'))
    (hself : Writer.Inv d' ⟨(s.writers k).call, stage'⟩)
    (hothers : ∀ j, j ≠ k → ∀ t i, (s.writers j).stage.file? = some (t, i) →
      d'.entries t = some i ∧ i < d'.count ∧ ¬ d'.Linked Seen i ∧ d'.inodes i = s.disk.inodes i)
    (hinodes : ∀ j, j ≠ k → ∀ t i t' i', (s.writers j).stage.file? = some (t, i) →
      stage'.file? = some (t', i') → i ≠ i')
    (hnames : ∀ j, j ≠ k → ∀ t, (s.writers j).stage.temporary? = some t → stage'.temporary? ≠ some t)
    (hobservations : ∀ j, j ≠ k → published j observations' = published j observations)
    (hputs : published k observations' ≤ 1 ∧ (stage'.hasPut = true → published k observations' = 1) ∧
      (stage'.live = true → stage'.hasPut = false → published k observations' = 0))
    (hcalls : ∀ j call, .published j call ∈ observations' → .published j call ∈ observations ∨
      j = k ∧ (s.writers k).call = call ∧ Seen call.target ∧ call.content ≠ []) :
    Inv files ⟨d', s.count, Function.update s.writers k ⟨(s.writers k).call, stage'⟩⟩ observations' := by
  have hsame : ∀ {j}, j ≠ k →
      Function.update s.writers k ⟨(s.writers k).call, stage'⟩ j = s.writers j := fun hj =>
    Function.update_of_ne hj ..
  have hnew : Function.update s.writers k ⟨(s.writers k).call, stage'⟩ k = ⟨(s.writers k).call, stage'⟩ :=
    Function.update_self ..
  refine ⟨hrepresents, fun j => ?_, fun j l t i t' i' hjl hj hl => ?_, fun j l t hjl hj => ?_,
    fun j hj => ?_, fun j => ?_, fun j call hmem => ?_⟩
  · dsimp only
    by_cases hj : j = k
    · subst hj
      rw [hnew]
      exact hself
    · rw [hsame hj]
      exact (h.writer j).of_disk (hothers j hj)
  · dsimp only at hj hl
    by_cases hjk : j = k
    · subst hjk
      rw [hnew] at hj
      rw [hsame hjl.symm] at hl
      exact (hinodes l hjl.symm t' i' t i hl hj).symm
    · rw [hsame hjk] at hj
      by_cases hlk : l = k
      · subst hlk
        rw [hnew] at hl
        exact hinodes j hjl t i t' i' hj hl
      · rw [hsame hlk] at hl
        exact h.inodes j l t i t' i' hjl hj hl
  · dsimp only at hj ⊢
    by_cases hjk : j = k
    · subst hjk
      rw [hnew] at hj
      rw [hsame hjl.symm]
      exact fun hl => hnames l hjl.symm t hl hj
    · rw [hsame hjk] at hj
      by_cases hlk : l = k
      · subst hlk
        rw [hnew]
        exact hnames j hjl t hj
      · rw [hsame hlk]
        exact h.names j l t hjl hj
  · dsimp only at hj ⊢
    have hjk : j ≠ k := by omega
    rw [hsame hjk, hobservations j hjk]
    exact h.later j hj
  · dsimp only
    by_cases hj : j = k
    · subst hj
      rw [hnew]
      exact hputs
    · rw [hsame hj, hobservations j hj]
      exact h.puts j
  · dsimp only
    by_cases hj : j = k
    · subst hj
      rw [hnew]
      rcases hcalls j call hmem with hmem | ⟨-, hcall⟩
      · exact h.calls j call hmem
      · exact hcall
    · rw [hsame hj]
      rcases hcalls j call hmem with hmem | ⟨hjk, -⟩
      · exact h.calls j call hmem
      · exact absurd hjk hj

/-- What one call does to no file that another has made leaves the file as it is. -/
theorem Inv.others (h : Inv files s observations) {j : ℕ} {t : FilePath} {i : ℕ}
    (hj : (s.writers j).stage.file? = some (t, i)) :
    s.disk.entries t = some i ∧ i < s.disk.count ∧ ¬ s.disk.Linked Seen i ∧
      s.disk.inodes i = s.disk.inodes i :=
  have hfile := (h.writer j).file t i hj
  ⟨hfile.1, hfile.2.1, hfile.2.2, rfl⟩

/-- A call that has a temporary file open has still to remove it. -/
theorem Stage.temporary?_of_file? {t : FilePath} {i : ℕ} (h : stage.file? = some (t, i)) :
    stage.temporary? = some t := by
  cases stage <;> simp_all

/-- A step of a call that leaves the disk keeps the invariant. -/
theorem Inv.idle (h : Inv files s observations) (hk : k < s.count)
    (hidles : (s.writers k).stage.Idles stage') :
    Inv files ⟨s.disk, s.count, Function.update s.writers k ⟨(s.writers k).call, stage'⟩⟩
      observations := by
  have hwriter := h.writer k
  have hputs := h.puts k
  refine h.go hk h.represents ⟨fun _ => hwriter.call hidles.live,
    fun t ht => hwriter.name t (hidles.name ▸ ht), fun t i hf => hwriter.file t i (hidles.file _ hf),
    fun t i hf hs => hwriter.flushed t i (hidles.file _ hf) (hidles.flushed hs),
    fun t i hf hs => hwriter.synced t i (hidles.file _ hf) (hidles.synced hs)⟩
    (fun j _ t i hf => h.others hf)
    (fun j hj t i t' i' hf hf' => h.inodes j k t i t' i' hj hf (hidles.file _ hf'))
    (fun j hj t hf hf' => h.names j k t hj hf (hidles.name ▸ hf')) (fun _ _ => rfl)
    ⟨hputs.1, fun hput => ?_, fun hlive _ => hputs.2.2 hidles.live (hidles.hadPut hlive)⟩
    fun j call hmem => Or.inl hmem
  rw [hidles.hasPut] at hput
  cases hput

/-- A temporary file under a name that is free keeps the invariant. -/
theorem Inv.create (h : Inv files s observations) (hk : k < s.count) {temporary : FilePath}
    (hstage : (s.writers k).stage = .mkstemp) (hname : IsTemporary temporary)
    (hfree : s.disk.entries temporary = none)
    (hfresh : ∀ j, (s.writers j).stage.temporary? ≠ some temporary) :
    Inv files ⟨s.disk.create temporary, s.count,
      Function.update s.writers k ⟨(s.writers k).call, .fdopen temporary s.disk.count⟩⟩ observations := by
  have hwriter := h.writer k
  have hputs := h.puts k
  rw [hstage] at hputs
  have hunlinked : ∀ i, (s.disk.create temporary).Linked Seen i → s.disk.Linked Seen i := by
    intro i hi
    refine (Disk.linked_log.1 hi).resolve_right ?_
    rintro ⟨p, q, heq⟩
    cases heq
  refine h.go hk (h.represents.create (not_not_intro hname))
    ⟨fun _ => hwriter.call (by rw [hstage]; rfl), fun t ht => ?_, fun t i hf => ?_,
      fun _ _ _ hs => (by cases hs), fun _ _ _ hs => (by cases hs)⟩
    (fun j hj t i hf => ?_) (fun j hj t i t' i' hf hf' => ?_) (fun j hj t hf hf' => ?_) (fun _ _ => rfl)
    ⟨hputs.1, fun hput => (by cases hput), fun _ _ => hputs.2.2 rfl rfl⟩ fun j call hmem => Or.inl hmem
  · cases ht
    exact hname
  · cases hf
    refine ⟨by rw [Disk.entries_create, Function.update_self], Nat.lt_succ_self _, fun hi => ?_⟩
    exact absurd (h.represents.settled.linked _ (hunlinked _ hi)).1 (lt_irrefl _)
  · have hfile := (h.writer j).file t i hf
    have hne : t ≠ temporary := by
      rintro rfl
      rw [hfree] at hfile
      cases hfile.1
    refine ⟨by rw [Disk.entries_create, Function.update_of_ne hne, hfile.1],
      Nat.lt_succ_of_lt hfile.2.1, fun hi => hfile.2.2 (hunlinked _ hi), ?_⟩
    exact Disk.create_inodes_of_ne hfile.2.1.ne
  · cases hf'
    exact ((h.writer j).file t i hf).2.1.ne
  · cases hf'
    exact hfresh j hf

/-- Writing to a call's own temporary file keeps the invariant: no other call has its inode, and no
reader its name. -/
theorem Inv.write (h : Inv files s observations) (hk : k < s.count) {temporary : FilePath} {inode : ℕ}
    {content : List UInt8} (hwrites : (s.writers k).stage.Writes stage' temporary inode)
    (hcontent : stage'.flushed = true → content = (s.writers k).call.content) :
    Inv files ⟨s.disk.write inode content, s.count,
      Function.update s.writers k ⟨(s.writers k).call, stage'⟩⟩ observations := by
  have hwriter := h.writer k
  have hputs := h.puts k
  have hown := hwriter.file temporary inode hwrites.file
  refine h.go hk (h.represents.write hown.2.2)
    ⟨fun _ => hwriter.call hwrites.live, fun t ht => ?_, fun t i hf => ?_, fun t i hf hs => ?_,
      fun t i hf hs => ?_⟩
    (fun j hj t i hf => ?_) (fun j hj t i t' i' hf hf' => ?_) (fun j hj t hf hf' => ?_) (fun _ _ => rfl)
    ⟨hputs.1, fun hput => ?_, fun _ _ => hputs.2.2 hwrites.live hwrites.hadPut⟩
    fun j call hmem => Or.inl hmem
  · exact hwriter.name t (hwrites.name.trans (hwrites.name'.symm.trans ht))
  · cases hwrites.file' _ hf
    exact hown
  · cases hwrites.file' _ hf
    rw [Disk.write_inodes_self]
    exact hcontent hs
  · rw [hwrites.synced] at hs
    cases hs
  · have hfile := (h.writer j).file t i hf
    exact ⟨hfile.1, hfile.2.1, hfile.2.2,
      Disk.write_inodes_of_ne (h.inodes j k t i _ _ hj hf hwrites.file)⟩
  · cases hwrites.file' _ hf'
    exact h.inodes j k t i _ _ hj hf hwrites.file
  · exact h.names j k t hj hf (hwrites.name.trans (hwrites.name'.symm.trans hf'))
  · rw [hwrites.hasPut] at hput
    cases hput

/-- `fsync` keeps the invariant: readers do not see it. -/
theorem Inv.sync (h : Inv files s observations) (hk : k < s.count) {temporary : FilePath} {inode : ℕ}
    (hstage : (s.writers k).stage = .fsync temporary inode) :
    Inv files ⟨s.disk.sync inode, s.count,
      Function.update s.writers k ⟨(s.writers k).call, .close temporary inode⟩⟩ observations := by
  have hwriter := h.writer k
  have hputs := h.puts k
  have hfile : (s.writers k).stage.file? = some (temporary, inode) := by rw [hstage]; rfl
  have hown := hwriter.file temporary inode hfile
  have hflushed := hwriter.flushed temporary inode hfile (by rw [hstage]; rfl)
  refine h.go hk h.represents.sync
    ⟨fun _ => hwriter.call (by rw [hstage]; rfl), fun t ht => ?_, fun t i hf => ?_, fun t i hf _ => ?_,
      fun t i hf _ => ?_⟩
    (fun j hj t i hf => ?_) (fun j hj t i t' i' hf hf' => ?_) (fun j hj t hf hf' => ?_) (fun _ _ => rfl)
    ⟨hputs.1, fun hput => (by cases hput), fun _ _ => hputs.2.2 (by rw [hstage]; rfl) (by rw [hstage]; rfl)⟩
    fun j call hmem => Or.inl hmem
  · cases ht
    exact hwriter.name _ (by rw [hstage]; rfl)
  · cases hf
    exact hown
  · cases hf
    rw [Disk.sync_inodes_self]
    exact hflushed
  · cases hf
    rw [Disk.sync_inodes_self]
  · have hother := (h.writer j).file t i hf
    exact ⟨hother.1, hother.2.1, hother.2.2, Disk.sync_inodes_of_ne (h.inodes j k t i _ _ hj hf hfile)⟩
  · cases hf'
    exact h.inodes j k t i _ _ hj hf hfile
  · cases hf'
    exact h.names j k _ hj hf (by rw [hstage]; rfl)

/-- **The rename puts the whole proof of the call in place.** -/
theorem Inv.rename (h : Inv files s observations) (hk : k < s.count) {temporary : FilePath}
    {inode inode' : ℕ} (hstage : (s.writers k).stage = .replace temporary inode)
    (hentry : s.disk.entries temporary = some inode') :
    Inv files ⟨s.disk.log (.rename temporary (s.writers k).call.target inode'), s.count,
      Function.update s.writers k ⟨(s.writers k).call, .unlink temporary none⟩⟩
      (observations ++ [.published k (s.writers k).call]) := by
  have hwriter := h.writer k
  have hputs := h.puts k
  have hfile : (s.writers k).stage.file? = some (temporary, inode) := by rw [hstage]; rfl
  have hname : (s.writers k).stage.temporary? = some temporary := by rw [hstage]; rfl
  have hown := hwriter.file temporary inode hfile
  obtain rfl : inode = inode' := Option.some.inj (hown.1.symm.trans hentry)
  have hcall := hwriter.call (by rw [hstage]; rfl)
  have htemporary := hwriter.name temporary hname
  have hcontent := hwriter.flushed temporary inode hfile (by rw [hstage]; rfl)
  have hsynced := hwriter.synced temporary inode hfile (by rw [hstage]; rfl)
  have hnone : published k observations = 0 := hputs.2.2 (by rw [hstage]; rfl) (by rw [hstage]; rfl)
  have hone : published k (observations ++ [.published k (s.writers k).call]) = 1 := by
    rw [published_append, hnone]
    simp [published, Observation.caller?]
  refine h.go hk ?_
    (.of_none (fun _ => hcall) (fun t ht => by cases ht; exact htemporary) rfl)
    (fun j hj t i hf => ?_) (fun _ _ _ _ _ _ _ hf' => by cases hf') (fun j hj t hf hf' => ?_)
    (fun j hj => ?_) ⟨hone.le, fun _ => hone, fun _ hput => by cases hput⟩ fun j call hmem => ?_
  · rw [storeAfter_append, Observation.action, ← hcontent]
    exact h.represents.rename (not_not_intro htemporary) hcall.1 hown.2.1 hsynced
  · have hother := (h.writer j).file t i hf
    have hne : t ≠ temporary := by
      rintro rfl
      exact h.names j k t hj (Stage.temporary?_of_file? hf) hname
    have htarget : t ≠ (s.writers k).call.target := by
      rintro rfl
      exact hcall.1 ((h.writer j).name _ (Stage.temporary?_of_file? hf))
    refine ⟨?_, hother.2.1, fun hi => ?_, rfl⟩
    · rw [Disk.entries_log, Operation.apply, Function.update_of_ne htarget, Function.update_of_ne hne,
        hother.1]
    · rcases Disk.linked_log.1 hi with hi | ⟨p, q, heq⟩
      · exact hother.2.2 hi
      · cases heq
        exact h.inodes j k t _ _ _ hj hf hfile rfl
  · cases hf'
    exact h.names j k _ hj hf hname
  · rw [published_append]
    have hne : ¬ k = j := fun heq => hj heq.symm
    simp [published, Observation.caller?, hne]
  · rcases List.mem_append.1 hmem with hmem | hmem
    · exact Or.inl hmem
    · cases List.mem_singleton.1 hmem
      exact Or.inr ⟨rfl, rfl, hcall⟩

/-- Removing a temporary name keeps the invariant: no reader looks at it. -/
theorem Inv.unlink (h : Inv files s observations) (hk : k < s.count) {temporary : FilePath}
    {raised : Option PublishError} (hstage : (s.writers k).stage = .unlink temporary raised) :
    Inv files ⟨if s.disk.entries temporary = none then s.disk else s.disk.log (.unlink temporary), s.count,
      Function.update s.writers k ⟨(s.writers k).call, raised.elim .returned .raised⟩⟩ observations := by
  have hwriter := h.writer k
  have hputs := h.puts k
  rw [hstage] at hputs
  have hname : (s.writers k).stage.temporary? = some temporary := by rw [hstage]; rfl
  have htemporary := hwriter.name temporary hname
  have hfinal : (raised.elim Stage.returned Stage.raised).file? = none ∧
      (raised.elim Stage.returned Stage.raised).temporary? = none ∧
      (raised.elim Stage.returned Stage.raised).live = false := by
    cases raised <;> exact ⟨rfl, rfl, rfl⟩
  refine h.go hk ?_
    (.of_none (fun hlive => by rw [hfinal.2.2] at hlive; cases hlive)
      (fun t ht => by rw [hfinal.2.1] at ht; cases ht) hfinal.1)
    (fun j hj t i hf => ?_) (fun _ _ _ _ _ _ _ hf' => by rw [hfinal.1] at hf'; cases hf')
    (fun _ _ _ _ hf' => by rw [hfinal.2.1] at hf'; cases hf') (fun _ _ => rfl)
    ⟨hputs.1, fun hput => hputs.2.1 ?_, fun hlive => by rw [hfinal.2.2] at hlive; cases hlive⟩
    fun j call hmem => Or.inl hmem
  · split_ifs
    · exact h.represents
    · exact h.represents.unlink (not_not_intro htemporary)
  · have hother := (h.writer j).file t i hf
    split_ifs
    · exact ⟨hother.1, hother.2.1, hother.2.2, rfl⟩
    · have hne : t ≠ temporary := by
        rintro rfl
        exact h.names j k t hj (Stage.temporary?_of_file? hf) hname
      refine ⟨by rw [Disk.entries_log, Operation.apply, Function.update_of_ne hne, hother.1], hother.2.1,
        fun hi => hother.2.2 ((Disk.linked_log.1 hi).resolve_right ?_), rfl⟩
      rintro ⟨p, q, heq⟩
      cases heq
  · cases raised with
    | none => rfl
    | some e => cases hput

/-- A call is over, and what it has done to the files stays. -/
theorem Inv.stop (h : Inv files s observations) (hk : k < s.count) (hfile : stage'.file? = none)
    (hname : stage'.temporary? = none) (hlive : stage'.live = false)
    (hput : stage'.hasPut = true → (s.writers k).stage.hasPut = true) :
    Inv files ⟨s.disk, s.count, Function.update s.writers k ⟨(s.writers k).call, stage'⟩⟩
      observations := by
  have hputs := h.puts k
  refine h.go hk h.represents
    (.of_none (fun h' => ?_) (fun t ht => ?_) hfile) (fun j _ t i hf => h.others hf)
    (fun _ _ _ _ _ _ _ hf' => ?_) (fun _ _ _ _ hf' => ?_) (fun _ _ => rfl)
    ⟨hputs.1, fun h' => hputs.2.1 (hput h'), fun h' => ?_⟩ fun j call hmem => Or.inl hmem
  · rw [hlive] at h'
    cases h'
  · rw [hname] at ht
    cases ht
  · rw [hfile] at hf'
    cases hf'
  · rw [hname] at hf'
    cases hf'
  · rw [hlive] at h'
    cases h'

/-- **Each system call keeps the invariant**, and publishes at most the proof of its own call. -/
theorem Inv.goes (h : Inv files s observations) (hk : k < s.count)
    (hfresh : ∀ random, (s.writers k).stage = .mkstemp →
      stage'.temporary? = some (temporaryPath (s.writers k).call.target random) →
      ∀ j, (s.writers j).stage.temporary? ≠ some (temporaryPath (s.writers k).call.target random))
    (hgoes : Goes s.disk (s.writers k).call reply (s.writers k).stage d' stage') :
    ∃ observations', Inv files
        ⟨d', s.count, Function.update s.writers k ⟨(s.writers k).call, stage'⟩⟩ observations' ∧
      (observations' = observations ∨
        observations' = observations ++ [.published k (s.writers k).call]) := by
  generalize hstage : (s.writers k).stage = stage at hgoes
  cases hgoes with
  | idle hidles => exact ⟨_, h.idle hk (hstage ▸ hidles), Or.inl rfl⟩
  | create hfree =>
    exact ⟨_, h.create hk hstage (isTemporary_temporaryPath _ _) hfree (hfresh _ hstage rfl), Or.inl rfl⟩
  | write temporary inode hwrites hcontent => exact ⟨_, h.write hk (hstage ▸ hwrites) hcontent, Or.inl rfl⟩
  | sync => exact ⟨_, h.sync hk hstage, Or.inl rfl⟩
  | rename hentry => exact ⟨_, h.rename hk hstage hentry, Or.inr rfl⟩
  | unlink => exact ⟨_, h.unlink hk hstage, Or.inl rfl⟩
  | leave hreply => exact ⟨_, h.stop hk rfl rfl rfl fun hput => (by cases hput), Or.inl rfl⟩

/-- A call that is killed is not running. -/
@[simp] theorem Stage.stop_live (stage : Stage) : stage.stop.live = false := by cases stage <;> rfl

/-- A call that is killed has no file open. -/
@[simp] theorem Stage.stop_file? (stage : Stage) : stage.stop.file? = none := by cases stage <;> rfl

/-- A call that is killed will not remove its file. -/
@[simp] theorem Stage.stop_temporary? (stage : Stage) : stage.stop.temporary? = none := by
  cases stage <;> rfl

/-- A call that is stopped had put its proof before, if it has. -/
theorem Stage.hasPut_of_stop (h : stage.stop.hasPut = true) : stage.hasPut = true := by
  cases stage <;> first | exact h | cases h

/-- **A power loss keeps the invariant**: the store loses its last publications, and all calls end. -/
theorem Inv.powerLoss (h : Inv files s observations) (kept : ℕ) (found : ℕ → List UInt8) :
    ∃ n, Inv files ⟨s.disk.powerLoss kept found, s.count,
      fun k => ⟨(s.writers k).call, (s.writers k).stage.stop⟩⟩ (observations ++ [.lost n]) := by
  obtain ⟨n, hrepresents⟩ := h.represents.powerLoss kept found
  have hsame : ∀ k, published k (observations ++ [.lost n]) = published k observations := fun k =>
    published_append k _ _
  refine ⟨n, ?_, fun k => .of_none ?_ ?_ (Stage.stop_file? _), fun j k t i t' i' _ hj => ?_,
    fun j k t _ hj => ?_, fun k hk => ?_, fun k => ?_, fun k call hmem => ?_⟩
  · rw [storeAfter_append]
    exact hrepresents
  · intro hlive
    rw [Stage.stop_live] at hlive
    cases hlive
  · intro t ht
    rw [Stage.stop_temporary?] at ht
    cases ht
  · rw [Stage.stop_file?] at hj
    cases hj
  · rw [Stage.stop_temporary?] at hj
    cases hj
  · rw [hsame]
    exact ⟨congrArg Stage.stop (h.later k hk).1, (h.later k hk).2⟩
  · rw [hsame]
    refine ⟨(h.puts k).1, fun hput => (h.puts k).2.1 (Stage.hasPut_of_stop hput), fun hlive => ?_⟩
    rw [Stage.stop_live] at hlive
    cases hlive
  · refine h.calls k call ((List.mem_append.1 hmem).resolve_right fun hlost => ?_)
    cases List.mem_singleton.1 hlost

/-- A new call with a target that readers look at keeps the invariant. -/
theorem Inv.begin (h : Inv files s observations) (hcall : Seen call.target) :
    Inv files ⟨s.disk, s.count + 1, Function.update s.writers s.count ⟨call, call.first⟩⟩ observations := by
  have hlater := h.later s.count le_rfl
  have hfirst : call.first.file? = none ∧ call.first.temporary? = none ∧ call.first.hasPut = false := by
    rw [Call.first]
    split_ifs <;> exact ⟨rfl, rfl, rfl⟩
  have hnew : Function.update s.writers s.count ⟨call, call.first⟩ s.count = ⟨call, call.first⟩ :=
    Function.update_self ..
  have hold : ∀ {k}, k ≠ s.count →
      Function.update s.writers s.count ⟨call, call.first⟩ k = s.writers k :=
    fun hk => Function.update_of_ne hk ..
  refine ⟨h.represents, fun k => ?_, fun j k t i t' i' hne hj hk => ?_, fun j k t hne hj => ?_,
    fun k hk => ?_, fun k => ?_, fun k call' hmem => ?_⟩ <;> dsimp only at *
  · by_cases hk : k = s.count
    · rw [hk, hnew]
      refine .of_none (fun hlive => ⟨hcall, fun hnil => ?_⟩) (fun t ht => ?_) hfirst.1
      · dsimp only at hlive
        rw [Call.first, if_pos hnil] at hlive
        cases hlive
      · dsimp only at ht
        rw [hfirst.2.1] at ht
        cases ht
    · rw [hold hk]
      exact h.writer k
  · have hj' : j ≠ s.count := by
      rintro rfl
      rw [hnew, hfirst.1] at hj
      cases hj
    have hk' : k ≠ s.count := by
      rintro rfl
      rw [hnew, hfirst.1] at hk
      cases hk
    rw [hold hj'] at hj
    rw [hold hk'] at hk
    exact h.inodes j k t i t' i' hne hj hk
  · have hj' : j ≠ s.count := by
      rintro rfl
      rw [hnew, hfirst.2.1] at hj
      cases hj
    rw [hold hj'] at hj
    by_cases hk : k = s.count
    · rw [hk, hnew, hfirst.2.1]
      exact fun hk => by cases hk
    · rw [hold hk]
      exact h.names j k t hne hj
  · rw [hold (by omega)]
    exact h.later k (by omega)
  · by_cases hk : k = s.count
    · rw [hk, hnew, hlater.2, hfirst.2.2]
      exact ⟨Nat.zero_le _, fun hput => (by cases hput), fun _ _ => rfl⟩
    · rw [hold hk]
      exact h.puts k
  · have hk : k ≠ s.count := by
      rintro rfl
      exact published_ne_zero hmem hlater.2
    rw [hold hk]
    exact h.calls k call' hmem

/-- What a step adds to what has been observed. -/
def Step.Adds (s : State) : Step → List Observation → Prop
  | .go k _, added => added = [] ∨ added = [.published k (s.writers k).call]
  | .powerLoss _ _, added => ∃ n, added = [.lost n]
  | _, added => added = []

/-- **Every step keeps the invariant**, with the observations that it adds. -/
theorem inv_step {step : Step} (h : Inv files s observations) (hok : Orderly s step)
    (ht : system s step = some t) :
    ∃ added, Inv files t (observations ++ added) ∧ step.Adds s added := by
  cases step with
  | begin call =>
    cases ht
    exact ⟨[], (List.append_nil observations).symm ▸ h.begin hok, rfl⟩
  | go k reply =>
    rw [system] at ht
    split_ifs at ht with hk
    obtain ⟨⟨d', stage'⟩, hadvance, rfl⟩ := Option.map_eq_some_iff.1 ht
    have hfresh : ∀ random, (s.writers k).stage = .mkstemp →
        stage'.temporary? = some (temporaryPath (s.writers k).call.target random) →
        ∀ j, (s.writers j).stage.temporary? ≠ some (temporaryPath (s.writers k).call.target random) := by
      intro random hstage hname j
      by_cases hj : j < s.count
      · rw [hstage, advance.eq_def] at hadvance
        cases reply with
        | chosen random' =>
          dsimp only at hadvance
          split_ifs at hadvance
          cases hadvance
          rw [← Option.some.inj hname]
          exact hok j hj
        | raised =>
          cases hadvance
          cases hname
        | _ => cases hadvance
      · rw [(h.later j (Nat.le_of_not_lt hj)).1]
        exact fun hj => by cases hj
    obtain ⟨observations', hinv, heq | heq⟩ := h.goes hk hfresh (goes_of_advance hadvance)
    · exact ⟨[], (List.append_nil observations).symm ▸ heq ▸ hinv, Or.inl rfl⟩
    · exact ⟨_, heq ▸ hinv, Or.inr rfl⟩
  | kill k =>
    rw [system] at ht
    split_ifs at ht with hk
    cases ht
    exact ⟨[], (List.append_nil observations).symm ▸ h.stop hk (Stage.stop_file? _)
      (Stage.stop_temporary? _) (Stage.stop_live _) Stage.hasPut_of_stop, rfl⟩
  | powerLoss kept found =>
    cases ht
    obtain ⟨n, hn⟩ := h.powerLoss kept found
    exact ⟨_, hn, n, rfl⟩

/-- **Every run keeps the invariant.** -/
theorem inv_run {start : Start} {steps : List Step} (hok : Meets system Orderly (.initial start) steps)
    (hrun : run system (.initial start) steps = some t) : ∃ observations, Inv start.files t observations :=
  run_induction (I := fun s => ∃ observations, Inv start.files s observations)
    (fun _ _ _ ⟨_, hs⟩ hi hu => (inv_step hs hi hu).elim fun _ h => ⟨_, h.1⟩) ⟨_, inv_initial start⟩ hok
    hrun

/-- What is read of the store was there before or was published. -/
theorem mem_of_storeAfter {path : FilePath} {content : List UInt8}
    (h : (storeAfter files observations).read path = some content) : files path = some content ∨
      ∃ k call, .published k call ∈ observations ∧ call.target = path ∧ call.content = content := by
  suffices hall : ∀ entry : FilePath × List UInt8,
      (storeAfter files observations).stored entry.1 = some entry.2 ∨
        entry ∈ (storeAfter files observations).puts → files entry.1 = some entry.2 ∨
          ∃ k call, .published k call ∈ observations ∧ call.target = entry.1 ∧ call.content = entry.2 from
    hall (path, content) (Store.mem_of_foldl h)
  clear h
  induction observations using List.reverseRecOn with
  | nil =>
    rintro entry (hstored | hmem)
    · exact Or.inl hstored
    · cases hmem
  | append_singleton observations o ih =>
    have hlater : ∀ entry : FilePath × List UInt8,
        (files entry.1 = some entry.2 ∨ ∃ k call, .published k call ∈ observations ∧
          call.target = entry.1 ∧ call.content = entry.2) →
        files entry.1 = some entry.2 ∨ ∃ k call, .published k call ∈ observations ++ [o] ∧
          call.target = entry.1 ∧ call.content = entry.2 := fun entry h =>
      h.imp_right fun ⟨k, call, hmem, hcall⟩ => ⟨k, call, List.mem_append_left _ hmem, hcall⟩
    intro entry
    rw [storeAfter_append]
    cases o with
    | published k call =>
      rintro (hstored | hmem)
      · exact hlater entry (ih entry (Or.inl hstored))
      · rcases List.mem_append.1 hmem with hmem | hmem
        · exact hlater entry (ih entry (Or.inr hmem))
        · obtain rfl := List.mem_singleton.1 hmem
          exact Or.inr ⟨k, call, List.mem_append_right _ (List.mem_singleton_self _), rfl, rfl⟩
    | lost n =>
      rintro (hstored | hmem)
      · refine hlater entry (ih entry ?_)
        exact (Store.mem_of_foldl hstored).imp_right List.mem_of_mem_take
      · cases hmem

/-- **Every run publishes whole proofs.**  To its readers the directory of the proofs is a store that whole
proofs are put into, at once, and that a power loss may set back to what it was before; a call puts its
proof there at most once, and a call that has returned just once.  So a reader finds what
was there at first or a proof that a call was given, now and after the power is lost. -/
theorem publish_refines (start : Start) {t : State} {steps : List Step}
    (hrun : run system (.initial start) steps = some t)
    (hok : Meets system Orderly (.initial start) steps) :
    ∃ observations,
      (∀ path, ¬ IsTemporary path →
        t.disk.read path = (storeAfter start.files observations).read path) ∧
      (∀ k call, .published k call ∈ observations → (t.writers k).call = call ∧ call.content ≠ []) ∧
      (∀ k, published k observations ≤ 1 ∧
        ((t.writers k).stage = .returned → published k observations = 1)) ∧
      ∀ path content, ¬ IsTemporary path → (t.disk.read path = some content ∨
          ∃ kept found, (t.disk.powerLoss kept found).read path = some content) →
        start.files path = some content ∨
          ∃ k call, .published k call ∈ observations ∧ call.target = path ∧ call.content = content := by
  obtain ⟨observations, h⟩ := inv_run hok hrun
  refine ⟨observations, fun path hpath => h.represents.read hpath, fun k call hmem => ?_, fun k => ?_,
    fun path content hpath hread => ?_⟩
  · obtain ⟨hcall, -, hcontent⟩ := h.calls k call hmem
    exact ⟨hcall, hcontent⟩
  · exact ⟨(h.puts k).1, fun hstage => (h.puts k).2.1 (by rw [hstage]; rfl)⟩
  · rcases hread with hread | ⟨kept, found, hread⟩
    · exact mem_of_storeAfter ((h.represents.read hpath).symm.trans hread)
    · obtain ⟨n, hlost⟩ := h.powerLoss kept found
      refine (mem_of_storeAfter ((hlost.represents.read hpath).symm.trans hread)).imp_right ?_
      rintro ⟨k, call, hmem, hcall⟩
      refine ⟨k, call, (List.mem_append.1 hmem).resolve_right fun hmem => ?_, hcall⟩
      cases List.mem_singleton.1 hmem

/-- No files. -/
def noFiles : Start := ⟨fun _ => [], 0, fun _ => none, fun _ _ h => by cases h⟩

/-- The target of the calls below. -/
def sampleTarget : FilePath := ⟨lit "/anchors", lit "0-aa.ots"⟩

/-- A call that returns, and one that has written a part of another proof when the power is lost. -/
def sampleSteps : List Step :=
  [.begin ⟨sampleTarget, some [1, 2], false⟩, .go 0 .done, .go 0 .done, .go 0 (.chosen (lit "x")),
    .begin ⟨sampleTarget, some [3, 4], true⟩, .go 1 .done, .go 1 (.chosen (lit "y")), .go 0 .done,
    .go 0 (.stored 1), .go 1 .done, .go 0 .done, .go 0 .done, .go 0 .done, .go 0 .done, .go 1 (.stored 1),
    .go 0 .done, .powerLoss 3 fun _ => [9]]

instance decidableOrderly (s : State) : ∀ step, Decidable (Orderly s step)
  | .begin call => inferInstanceAs (Decidable (¬ IsTemporary call.target))
  | .go k (.chosen random) => inferInstanceAs (Decidable (∀ j < s.count,
      (s.writers j).stage.temporary? ≠ some (temporaryPath (s.writers k).call.target random)))
  | .go _ .done => inferInstanceAs (Decidable True)
  | .go _ .raised => inferInstanceAs (Decidable True)
  | .go _ (.stored _) => inferInstanceAs (Decidable True)
  | .go _ (.failed _) => inferInstanceAs (Decidable True)
  | .kill _ => inferInstanceAs (Decidable True)
  | .powerLoss _ _ => inferInstanceAs (Decidable True)

/-- What is read after that is the proof of the first call. -/
theorem publish_refines_sample : ∃ t k call, run system (.initial noFiles) sampleSteps = some t ∧
    t.disk.read sampleTarget = some [1, 2] ∧ call.target = sampleTarget ∧ (t.writers k).call = call ∧
      call.content = [1, 2] := by
  have hresult : (run system (.initial noFiles) sampleSteps).any
      (fun t => t.disk.read sampleTarget = some [1, 2]) = true := by decide +kernel
  obtain ⟨t, ht, hread⟩ := (Option.any_eq_true _ _).1 hresult
  have hok : Meets system Orderly (.initial noFiles) sampleSteps := by decide +kernel
  have hpath : ¬ IsTemporary sampleTarget := by decide
  obtain ⟨observations, -, hcalls, -, hwhole⟩ := publish_refines noFiles ht hok
  obtain h | ⟨k, call, hmem, htarget, hcontent⟩ :=
    hwhole sampleTarget [1, 2] hpath (Or.inl (of_decide_eq_true hread))
  · cases h
  · exact ⟨t, k, call, ht, of_decide_eq_true hread, htarget, (hcalls k call hmem).1, hcontent⟩

/-! ### Temporary files -/

/-- Nothing is killed, and the temporary files can be removed. -/
def Tidy (s : State) : Step → Prop
  | .kill _ => False
  | .powerLoss _ _ => False
  | .go k .raised => ∀ temporary raised, (s.writers k).stage ≠ .unlink temporary raised
  | _ => True

/-- A temporary file was there before, or is that of a call. -/
def Swept (start : Start) (s : State) : Prop :=
  ∀ path, IsTemporary path → s.disk.entries path ≠ none →
    start.entries path ≠ none ∨ ∃ k, (s.writers k).stage.temporary? = some path

variable {start : Start}

/-- At the beginning every temporary file was there before. -/
theorem swept_initial (start : Start) : Swept start (.initial start) := fun _ _ h => Or.inl h

/-- A call that goes on accounts for what temporary files there are. -/
theorem Swept.go (h : Swept start s)
    (hgoes : ∀ path, IsTemporary path → d'.entries path ≠ none →
      (s.disk.entries path ≠ none ∧ (s.writers k).stage.temporary? ≠ some path) ∨
        stage'.temporary? = some path) :
    Swept start ⟨d', s.count, Function.update s.writers k ⟨(s.writers k).call, stage'⟩⟩ := by
  intro path hpath hentry
  rcases hgoes path hpath hentry with ⟨hbefore, hname⟩ | hname
  · refine (h path hpath hbefore).imp_right ?_
    rintro ⟨j, hj⟩
    have hjk : j ≠ k := fun heq => hname (heq ▸ hj)
    refine ⟨j, ?_⟩
    dsimp only
    rw [Function.update_of_ne hjk]
    exact hj
  · refine Or.inr ⟨k, ?_⟩
    dsimp only
    rw [Function.update_self]
    exact hname

/-- A call that keeps its temporary name, with the directory as it was, leaves nothing behind. -/
theorem Swept.same (h : Swept start s) (hentries : d'.entries = s.disk.entries)
    (hname : stage'.temporary? = (s.writers k).stage.temporary?) :
    Swept start ⟨d', s.count, Function.update s.writers k ⟨(s.writers k).call, stage'⟩⟩ := by
  refine h.go fun path _ hentry => ?_
  rw [hentries] at hentry
  rw [hname]
  exact (em _).symm.imp_left fun hne => ⟨hentry, hne⟩

/-- A call that goes on leaves no temporary file behind, if it can be removed. -/
theorem Swept.goes (h : Swept start s) (hinv : Inv files s observations)
    (htidy : ∀ temporary raised, (s.writers k).stage = .unlink temporary raised → reply ≠ .raised)
    (hgoes : Goes s.disk (s.writers k).call reply (s.writers k).stage d' stage') :
    Swept start ⟨d', s.count, Function.update s.writers k ⟨(s.writers k).call, stage'⟩⟩ := by
  have hcall := (hinv.writer k).call
  generalize hstage : (s.writers k).stage = stage at hgoes hcall
  have hname : ∀ {path temporary}, stage.temporary? = some temporary → path ≠ temporary →
      (s.writers k).stage.temporary? ≠ some path := by
    intro path temporary htemporary hne heq
    rw [hstage, htemporary] at heq
    exact hne (Option.some.inj heq).symm
  cases hgoes with
  | idle hidles => exact h.same rfl (hstage ▸ hidles.name)
  | @create random hfree =>
    refine h.go fun path _ hentry => ?_
    by_cases hpath : path = temporaryPath (s.writers k).call.target random
    · exact Or.inr (congrArg some hpath.symm)
    · rw [Disk.entries_create, Function.update_of_ne hpath] at hentry
      exact Or.inl ⟨hentry, fun heq => by rw [hstage] at heq; cases heq⟩
  | write temporary inode hwrites => exact h.same rfl (hwrites.name'.trans (hstage ▸ hwrites.name.symm))
  | sync => exact h.same rfl (by rw [hstage]; rfl)
  | @rename temporary inode inode' hentry =>
    refine h.go fun path hpath hafter => Or.inl ?_
    have htarget : path ≠ (s.writers k).call.target := by
      rintro rfl
      exact (hcall rfl).1 hpath
    rw [Disk.entries_log, Operation.apply, Function.update_of_ne htarget] at hafter
    by_cases hne : path = temporary
    · rw [hne, Function.update_self] at hafter
      exact absurd rfl hafter
    · rw [Function.update_of_ne hne] at hafter
      exact ⟨hafter, hname rfl hne⟩
  | @unlink temporary raised =>
    refine h.go fun path _ hafter => Or.inl ?_
    have hne : path ≠ temporary := by
      rintro rfl
      split_ifs at hafter with hfree
      · exact hafter hfree
      · rw [Disk.entries_log, Operation.apply, Function.update_self] at hafter
        exact hafter rfl
    refine ⟨?_, hname rfl hne⟩
    split_ifs at hafter
    · exact hafter
    · rwa [Disk.entries_log, Operation.apply, Function.update_of_ne hne] at hafter
  | leave hreply => exact absurd hreply (htidy _ _ hstage)

/-- No step leaves a temporary file behind where nothing is killed and the files can be removed. -/
theorem swept_step {step : Step} (h : Swept start s) (hinv : Inv files s observations)
    (hok : Tidy s step) (ht : system s step = some t) : Swept start t := by
  cases step with
  | begin call =>
    cases ht
    intro path hpath hentry
    refine (h path hpath hentry).imp_right ?_
    rintro ⟨k, hk⟩
    have hne : k ≠ s.count := by
      rintro rfl
      rw [(hinv.later s.count le_rfl).1] at hk
      cases hk
    refine ⟨k, ?_⟩
    dsimp only
    rw [Function.update_of_ne hne]
    exact hk
  | go k reply =>
    rw [system] at ht
    split_ifs at ht with hk
    obtain ⟨⟨d', stage'⟩, hadvance, rfl⟩ := Option.map_eq_some_iff.1 ht
    refine h.goes hinv (fun temporary raised hstage hreply => ?_) (goes_of_advance hadvance)
    subst hreply
    exact hok temporary raised hstage
  | kill k => exact hok.elim
  | powerLoss kept found => exact hok.elim

/-- **No temporary file is left behind** by a call that is over, however it ended, in a run in which nothing is
killed and the temporary files can be removed. -/
theorem no_temporary_left (start : Start) {t : State} {steps : List Step}
    (hrun : run system (.initial start) steps = some t)
    (hok : Meets system (fun s i => Orderly s i ∧ Tidy s i) (.initial start) steps) (path : FilePath)
    (hpath : IsTemporary path) (hentry : t.disk.entries path ≠ none) :
    start.entries path ≠ none ∨
      ∃ k, (t.writers k).stage.live = true ∧ (t.writers k).stage.temporary? = some path := by
  have hswept : Swept start t ∧ ∃ observations, Inv start.files t observations :=
    run_induction (I := fun s => Swept start s ∧ ∃ observations, Inv start.files s observations)
      (fun s i u hs hi hu => by
        obtain ⟨hs, observations, hinv⟩ := hs
        exact ⟨swept_step hs hinv hi.2 hu, (inv_step hinv hi.1 hu).elim fun _ h => ⟨_, h.1⟩⟩)
      ⟨swept_initial start, _, inv_initial start⟩ hok hrun
  refine (hswept.1 path hpath hentry).imp_right ?_
  rintro ⟨k, hk⟩
  refine ⟨k, ?_, hk⟩
  cases hstage : (t.writers k).stage <;> first | rfl | (rw [hstage] at hk; cases hk)

instance decidableTidy (s : State) : ∀ step, Decidable (Tidy s step)
  | .begin _ => inferInstanceAs (Decidable True)
  | .go k .raised =>
    decidable_of_iff ((s.writers k).stage.temporary? = none ∨ (s.writers k).stage.file? ≠ none) (by
      rw [Tidy]
      cases (s.writers k).stage <;> simp)
  | .go _ .done => inferInstanceAs (Decidable True)
  | .go _ (.chosen _) => inferInstanceAs (Decidable True)
  | .go _ (.stored _) => inferInstanceAs (Decidable True)
  | .go _ (.failed _) => inferInstanceAs (Decidable True)
  | .kill _ => inferInstanceAs (Decidable False)
  | .powerLoss _ _ => inferInstanceAs (Decidable False)

/-- A call whose `fsync` raises. -/
def raisingSteps : List Step :=
  [.begin ⟨sampleTarget, some [1, 2], false⟩, .go 0 .done, .go 0 .done, .go 0 (.chosen (lit "x")),
    .go 0 .done, .go 0 (.stored 1), .go 0 .done, .go 0 .raised, .go 0 (.stored 2), .go 0 .done]

/-- A call whose write raises is over, and its temporary file is gone. -/
theorem no_temporary_left_raising : ∃ t, run system (.initial noFiles) raisingSteps = some t ∧
    (t.writers 0).stage = .raised .other ∧ t.disk.entries (temporaryPath sampleTarget (lit "x")) = none := by
  have hresult : (run system (.initial noFiles) raisingSteps).any
      (fun t => t.count = 1 ∧ (t.writers 0).stage = .raised .other) = true := by
    decide +kernel
  obtain ⟨t, ht, hstage⟩ := (Option.any_eq_true _ _).1 hresult
  obtain ⟨hcount, hstage⟩ := of_decide_eq_true hstage
  have hok : Meets system (fun s i => Orderly s i ∧ Tidy s i) (.initial noFiles) raisingSteps := by
    decide +kernel
  refine ⟨t, ht, hstage, by_contra fun hentry => ?_⟩
  rcases no_temporary_left noFiles ht hok _ (isTemporary_temporaryPath _ _) hentry with h | ⟨k, hlive, -⟩
  · exact h rfl
  · obtain ⟨_, hinv⟩ := inv_run (Meets.imp (fun _ _ hi => hi.1) hok) ht
    rcases Nat.eq_zero_or_pos k with rfl | hk
    · rw [hstage] at hlive
      cases hlive
    · rw [(hinv.later k (hcount ▸ hk)).1] at hlive
      cases hlive

/-! ### The proofs of the worker -/

/-- The file of a proof: `f"{sequence}-{tip_hash}.ots"`. -/
def proofFile (path : ProofPath) : FilePath :=
  ⟨path.directory, ofChars path.name⟩

/-- Two proofs have two files. -/
theorem proofFile_injective : Function.Injective proofFile := by
  rintro ⟨directory, sequence, tipHash⟩ ⟨directory', sequence', tipHash'⟩ h
  obtain ⟨rfl, hname⟩ := FilePath.mk.inj h
  have hchars := List.append_cancel_right (ofChars_injective hname)
  have hspan : ∀ (n : ℕ) (bytes : List UInt8),
      spanDigits (ofChars (numeral n ++ '-' :: hex bytes)) = (numeral n, ofChars ('-' :: hex bytes)) :=
    fun n bytes => by
      rw [ofChars_append]
      exact spanDigits_append (allDigits_numeral n) (.cons (by decide) _)
  have heq := (hspan sequence tipHash).symm.trans ((congrArg (spanDigits ∘ ofChars) hchars).trans
    (hspan sequence' tipHash'))
  obtain ⟨hsequence, htip⟩ := Prod.mk.inj heq
  rw [numeral_injective hsequence, hex_injective (List.cons.inj (ofChars_injective htip)).2]

/-- A proof never has the name of a temporary file. -/
theorem seen_proofFile (path : ProofPath) : Seen (proofFile path) := by
  rintro ⟨name, hname⟩
  have hlast := congrArg List.getLast? hname
  rw [proofFile, ProofPath.name, ofChars_append, List.getLast?_append_of_ne_nil _ (by decide),
    List.getLast?_append_of_ne_nil _ (by decide)] at hlast
  revert hlast
  decide

/-- The file that the worker puts in place at once is what a call publishes. -/
theorem files_apply_put {shared : Shared} {path : ProofPath} (hcall : call.target = proofFile path)
    (h : ∀ p, shared.files p = (storeAfter files observations).read (proofFile p)) (p : ProofPath) :
    (shared.apply (.put path call.content call.replace)).files p =
      (storeAfter files (observations ++ [.published k call])).read (proofFile p) := by
  rw [storeAfter_append]
  show Function.update shared.files path (some call.content) p =
    ((storeAfter files observations).puts ++ [(call.target, call.content)]).foldl Store.insert _ _
  rw [List.foldl_concat, Store.insert, hcall]
  by_cases hp : p = path
  · rw [hp, Function.update_self, Function.update_self]
  · rw [Function.update_of_ne hp, Function.update_of_ne (proofFile_injective.ne hp), h]
    rfl

/-- A step of the calls of workers, while the power stays on. -/
def ByWorkers (s : State) : Step → Prop
  | .begin _ => True
  | .go k _ => ∃ path, (s.writers k).call.target = proofFile path
  | .kill _ => True
  | .powerLoss _ _ => False

/-- **A worker's rename is one call of `write_proof_atomic`.**  While calls of workers go on, raise or are
killed, the proofs on the disk are what they were at first, with some of those calls' proofs put in
place, each at once as `Effect.put` does. -/
theorem worker_files (start : Start) {t : State} {steps : List Step} (shared : Shared)
    (hstart : ∀ path, shared.files path = start.files (proofFile path))
    (hrun : run system (.initial start) steps = some t)
    (hok : Meets system (fun s i => Orderly s i ∧ ByWorkers s i) (.initial start) steps) :
    ∃ puts : List (ProofPath × List UInt8 × Bool), ∀ path, t.disk.read (proofFile path) =
      (puts.foldl (fun s put => s.apply (.put put.1 put.2.1 put.2.2)) shared).files path := by
  suffices h : ∃ observations, Inv start.files t observations ∧
      ∃ puts : List (ProofPath × List UInt8 × Bool), ∀ path,
        (puts.foldl (fun s put => s.apply (.put put.1 put.2.1 put.2.2)) shared).files path =
          (storeAfter start.files observations).read (proofFile path) by
    obtain ⟨observations, hinv, puts, hputs⟩ := h
    exact ⟨puts, fun path => (hinv.represents.read (seen_proofFile path)).trans (hputs path).symm⟩
  refine run_induction (I := fun s => ∃ observations, Inv start.files s observations ∧
    ∃ puts : List (ProofPath × List UInt8 × Bool), ∀ path,
      (puts.foldl (fun s put => s.apply (.put put.1 put.2.1 put.2.2)) shared).files path =
        (storeAfter start.files observations).read (proofFile path))
    (fun s step u ⟨observations, hinv, puts, hputs⟩ hi hu => ?_)
    ⟨[], inv_initial start, [], hstart⟩ hok hrun
  obtain ⟨added, hinv', hadds⟩ := inv_step hinv hi.1 hu
  refine ⟨_, hinv', ?_⟩
  have hsame : added = [] → ∃ puts : List (ProofPath × List UInt8 × Bool), ∀ path,
      (puts.foldl (fun s put => s.apply (.put put.1 put.2.1 put.2.2)) shared).files path =
        (storeAfter start.files (observations ++ added)).read (proofFile path) := by
    rintro rfl
    rw [List.append_nil]
    exact ⟨puts, hputs⟩
  cases step with
  | begin call => exact hsame hadds
  | kill k => exact hsame hadds
  | powerLoss kept found => exact hi.2.elim
  | go k reply =>
    rcases hadds with hnone | rfl
    · exact hsame hnone
    · obtain ⟨path, htarget⟩ := hi.2
      refine ⟨puts ++ [(path, (s.writers k).call.content, (s.writers k).call.replace)], fun p => ?_⟩
      rw [List.foldl_append]
      exact files_apply_put htarget hputs p

end Publish
end Anchor
end Vestrix
