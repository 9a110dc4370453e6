/-
# Creating a key pair

`keys.py`: `generate_and_save_keypair` makes two files, each opened so that there must be none
before, and removes the first one when the second cannot be saved.  Any step may fail, and files of
other processes may appear before any step.

The roll-back covers one of the two files, and only failures of the second: a step that fails on an
open file leaves that file behind.  So a call that raises leaves nothing of its own exactly where
no such step fails and the roll-back, if it is needed, works (`keypair_all_or_nothing`).
-/

import Vestrix.Effects
import Mathlib.Logic.Function.Basic

namespace Vestrix
namespace Forensics
namespace Keys

open Effects

/-- The key that a step is about. -/
inductive Key where
  | privateKey
  | publicKey
deriving DecidableEq

/-- The steps of saving a key that may fail: making the directory, with all that comes before
the file is opened, and what is done with the file. -/
inductive Point where
  | makeDirectory
  | openFile
  | fdopen
  | write
  | flush
  | fsync
  | close
deriving DecidableEq

/-- What the functions raise. -/
inductive KeyError where
  | fileExists
  | osError
  | valueError
deriving DecidableEq

/-- The files: those of others, and those that the call has created. -/
structure Disk (Path : Type) where
  others : Path → Option (List UInt8)
  own : Path → Option (List UInt8)

/-- What a call meets: the steps that fail, the files of others that appear before a step, and what a
file has in it while a step on it is under way. -/
structure Environment (Path : Type) where
  fails : Key → Point → Bool
  unlinkFails : Bool
  appears : Key → Point → List (Path × List UInt8)
  stored : Key → Point → List UInt8

variable {Path : Type} [DecidableEq Path]

namespace Disk

/-- `path.exists()`. -/
def has (d : Disk Path) (path : Path) : Bool := (d.others path).isSome || (d.own path).isSome

/-- Others create files, where there are none. -/
def appear (new : List (Path × List UInt8)) (d : Disk Path) : Disk Path :=
  { d with
    others := fun path =>
      if d.has path = true then d.others path
      else (new.find? fun file => decide (file.1 = path)).map Prod.snd }

/-- The file that the call has created at a path, with its content. -/
def put (path : Path) (content : List UInt8) (d : Disk Path) : Disk Path :=
  { d with own := Function.update d.own path (some content) }

/-- No file is at a path any more. -/
def unlink (path : Path) (d : Disk Path) : Disk Path :=
  ⟨Function.update d.others path none, Function.update d.own path none⟩

end Disk

/-- What the functions do to the files. -/
abbrev Action (Path α : Type) := EStateM KeyError (Disk Path) α

section

variable (env : Environment Path)

/-- A step, which may fail. -/
def attempt (key : Key) (point : Point) : Action Path Unit := do
  modify (Disk.appear (env.appears key point))
  if env.fails key point = true then throw .osError

/-- `os.open(path, O_WRONLY | O_CREAT | O_EXCL)` and `open("xb")`. -/
def openExclusive (key : Key) (path : Path) : Action Path Unit := do
  attempt env key .openFile
  let d ← get
  if d.has path = true then throw .fileExists
  modify (Disk.put path [])

/-- The body of the `with` statements, and their end. -/
def writeAndSync (key : Key) (path : Path) (data : List UInt8) : Action Path Unit := do
  modify (Disk.put path (env.stored key .write))
  attempt env key .write
  modify (Disk.put path (env.stored key .flush))
  attempt env key .flush
  modify (Disk.put path data)
  attempt env key .fsync
  attempt env key .close

/-- `_write_secret_exclusive`. -/
def writeSecretExclusive (path : Path) (data : List UInt8) : Action Path Unit := do
  openExclusive env .privateKey path
  attempt env .privateKey .fdopen
  writeAndSync env .privateKey path data

/-- `save_private_key`, for a key that is encoded as given. -/
def savePrivateKey (target : Path) (password : Option (List UInt8)) (encoded : List UInt8) :
    Action Path Unit := do
  attempt env .privateKey .makeDirectory
  if password = some [] then throw .valueError
  writeSecretExclusive env target encoded

/-- `save_public_key`. -/
def savePublicKey (target : Path) (encoded : List UInt8) : Action Path Unit := do
  attempt env .publicKey .makeDirectory
  openExclusive env .publicKey target
  writeAndSync env .publicKey target encoded

/-- `path.unlink(missing_ok=True)`. -/
def unlink (path : Path) : Action Path Unit := do
  if env.unlinkFails = true then throw .osError
  modify (Disk.unlink path)

variable (privateTarget publicTarget : Path) (password : Option (List UInt8))
  (privateBytes publicBytes : List UInt8)

/-- `generate_and_save_keypair`. -/
def generateAndSaveKeypair : Action Path Unit := do
  let d ← get
  if d.has privateTarget = true ∨ d.has publicTarget = true then throw .fileExists
  savePrivateKey env privateTarget password privateBytes
  tryCatch (savePublicKey env publicTarget publicBytes) fun e => do
    unlink env privateTarget
    throw e

/-! ### All or nothing -/

/-- A call that raises leaves no file that it has created, and one that returns leaves both complete. -/
def AllOrNothing : EStateM.Result KeyError (Disk Path) Unit → Prop
  | .ok _ d => d.own privateTarget = some privateBytes ∧ d.own publicTarget = some publicBytes
  | .error _ d => d.own privateTarget = none ∧ d.own publicTarget = none

/-- A file of another process appears at a path before one of the steps. -/
def Appears (path : Path) (steps : List (Key × Point)) : Prop :=
  ∃ s ∈ steps, ∃ file ∈ env.appears s.1 s.2, file.1 = path

/-- The steps up to the one that creates a key's file. -/
def opening (key : Key) : List (Key × Point) := [(key, .makeDirectory), (key, .openFile)]

/-- The steps on a key's file, once it is created. -/
def onFile : Key → List (Key × Point)
  | .privateKey => (.privateKey, .fdopen) :: [.write, .flush, .fsync, .close].map (Prod.mk .privateKey)
  | .publicKey => [.write, .flush, .fsync, .close].map (Prod.mk .publicKey)

/-- None of the steps fails. -/
def Passes (steps : List (Key × Point)) : Prop := ∀ s ∈ steps, env.fails s.1 s.2 = false

instance (steps : List (Key × Point)) : Decidable (Passes env steps) :=
  inferInstanceAs (Decidable (∀ s ∈ steps, _))

/-- The private key's file is created. -/
def OpensPrivate : Prop :=
  Passes env (opening .privateKey) ∧ password ≠ some [] ∧ ¬ Appears env privateTarget (opening .privateKey)

/-- The public key's file is created, after the private key's. -/
def OpensPublic : Prop :=
  Passes env (opening .publicKey) ∧ publicTarget ≠ privateTarget ∧
    ¬ Appears env publicTarget (opening .privateKey ++ onFile .privateKey ++ opening .publicKey)

/-- A step fails on a key's file once it is created, or the roll-back does. -/
def Stranded : Prop :=
  OpensPrivate env privateTarget password ∧
    (¬ Passes env (onFile .privateKey) ∨
      (OpensPublic env privateTarget publicTarget ∧ ¬ Passes env (onFile .publicKey)) ∨
      (¬ OpensPublic env privateTarget publicTarget ∧ env.unlinkFails = true))

end

/-! ### One step -/

section

variable {env : Environment Path} {q : Path → Prop} {d t u : Disk Path} {key : Key} {point : Point}
  {path target : Path} {steps steps' : List (Key × Point)} {data : List UInt8}

/-- What happens in some steps at the paths that `q` leaves out of account not: the call creates no file,
and others create those that appear. -/
structure Goes (env : Environment Path) (q : Path → Prop) (d t : Disk Path) (steps : List (Key × Point)) :
    Prop where
  own : ∀ p, ¬ q p → t.own p = d.own p
  others : ∀ p, ¬ q p → d.own p = none → (t.others p = none ↔ d.others p = none ∧ ¬ Appears env p steps)

omit [DecidableEq Path] in
/-- Nothing appears where nothing is called. -/
theorem appears_nil : ¬ Appears env path [] := by
  rintro ⟨s, hs, -⟩
  cases hs

omit [DecidableEq Path] in
/-- What appears during two parts appears during one of them. -/
theorem appears_append :
    Appears env path (steps ++ steps') ↔ Appears env path steps ∨ Appears env path steps' := by
  simp only [Appears, List.mem_append, or_and_right, exists_or]

omit [DecidableEq Path] in
/-- The calls of one part go on with those of another. -/
theorem Goes.trans (h : Goes env q d t steps) (h' : Goes env q t u steps') :
    Goes env q d u (steps ++ steps') where
  own p hp := (h'.own p hp).trans (h.own p hp)
  others p hp hd := by
    rw [h'.others p hp ((h.own p hp).trans hd), h.others p hp hd, appears_append, not_or, and_assoc]

/-- What the call does to a file that is left out of account. -/
theorem Goes.put {content : List UInt8} (h : q path) : Goes env q d (d.put path content) [] where
  own p hp := Function.update_of_ne (fun heq => hp (by rw [heq]; exact h)) _ _
  others p _ _ := by
    rw [and_iff_left appears_nil]
    rfl

/-- At one point of the calls the others may make files. -/
theorem Goes.appear : Goes env q d (d.appear (env.appears key point)) [(key, point)] where
  own _ _ := rfl
  others p _ hd := by
    have hfind : ((env.appears key point).find? fun file => decide (file.1 = p)).map Prod.snd = none ↔
        ¬ Appears env p [(key, point)] := by
      rw [Option.map_eq_none_iff, List.find?_eq_none, Appears]
      simp only [List.mem_singleton, exists_eq_left, not_exists, not_and, decide_eq_true_eq]
    change (if d.has p = true then d.others p else _) = none ↔ _
    rw [Disk.has, hd]
    cases hothers : d.others p with
    | none =>
      rw [if_neg (by decide), hfind]
      exact ⟨fun h => ⟨rfl, h⟩, And.right⟩
    | some content =>
      rw [if_pos (show ((some content).isSome || (none : Option (List UInt8)).isSome) = true from rfl)]
      exact ⟨fun h => (nomatch h), fun h => (nomatch h.1)⟩

/-- A call fails just where the environment makes it fail, and leaves the own files. -/
theorem attempt_leads : Leads (attempt env key point) d
    (fun _ t => env.fails key point = false ∧ t.own = d.own ∧ Goes env q d t [(key, point)])
    fun _ t => env.fails key point = true ∧ t.own = d.own := by
  rw [attempt]
  refine Leads.bind (P := fun _ t => t = d.appear (env.appears key point)) (.modify rfl) ?_
  rintro ⟨⟩ _ rfl
  by_cases h : env.fails key point = true
  · rw [if_pos h]
    exact .throw ⟨h, rfl⟩
  · rw [if_neg h]
    exact .pure ⟨Bool.not_eq_true _ ▸ h, rfl, .appear⟩

omit [DecidableEq Path] in
/-- Fewer files may be said to stay. -/
theorem Goes.mono {q' : Path → Prop} (h : Goes env q d t steps) (hq : ∀ p, q p → q' p) :
    Goes env q' d t steps where
  own p hp := h.own p fun hqp => hp (hq p hqp)
  others p hp := h.others p fun hqp => hp (hq p hqp)

omit [DecidableEq Path] in
/-- A condition under which there is an exception, and what comes after it. -/
theorem leads_throwIf {c : Prop} [Decidable c] {e : KeyError} {P : PUnit → Disk Path → Prop}
    {Q : KeyError → Disk Path → Prop} {rest : PUnit → Action Path PUnit} (hthrow : c → Q e d)
    (hrest : ¬ c → Leads (rest ⟨⟩) d P Q) :
    Leads (if c then (throw e : Action Path PUnit) >>= rest else rest ⟨⟩) d P Q := by
  by_cases h : c
  · rw [if_pos h]
    exact .bind (P := fun _ _ => False) (.throw (hthrow h)) fun _ _ hfalse => hfalse.elim
  · rw [if_neg h]
    exact hrest h

/-- A file is created where there is none. -/
theorem openExclusive_leads (hq : ¬ q path) (hown : d.own path = none) : Leads (openExclusive env key path) d
    (fun _ t => env.fails key .openFile = false ∧ d.others path = none ∧
      ¬ Appears env path [(key, .openFile)] ∧
      t.own = Function.update d.own path (some []) ∧
        Goes env (fun p => q p ∨ p = path) d t [(key, .openFile)])
    fun _ t => (env.fails key .openFile = true ∨
      ¬ (d.others path = none ∧ ¬ Appears env path [(key, .openFile)])) ∧
      t.own = d.own := by
  rw [openExclusive]
  refine (attempt_leads (q := q)).bind_of_imp (fun _ _ h => ⟨Or.inl h.1, h.2⟩) ?_
  rintro ⟨⟩ t ⟨hpass, hsame, hgoes⟩
  have hothers := hgoes.others path hq hown
  have hhas : t.has path = true ↔ ¬ (d.others path = none ∧ ¬ Appears env path [(key, .openFile)]) := by
    rw [← hothers, Disk.has, hsame, hown, Option.isSome_none, Bool.or_false, Option.isSome_iff_ne_none]
  have hput : Goes env (fun p => q p ∨ p = path) t (t.put path []) [] := .put (Or.inr rfl)
  have hall := (hgoes.mono fun p hp => Or.inl hp).trans hput
  refine Leads.bind (P := fun d' t' => d' = t ∧ t' = t) (.get ⟨rfl, rfl⟩) ?_
  rintro _ _ ⟨rfl, rfl⟩
  refine leads_throwIf (fun h => ⟨Or.inr (hhas.1 h), hsame⟩) fun h => ?_
  obtain ⟨hfree, hnot⟩ := not_not.1 (mt hhas.2 h)
  exact .modify ⟨hpass, hfree, hnot, by rw [Disk.put, hsame], hall⟩

omit [DecidableEq Path] in
/-- Calls do not pass where one of them fails. -/
theorem not_passes (hmem : (key, point) ∈ steps) (hfail : env.fails key point = true) :
    ¬ Passes env steps := by
  intro hpasses
  rw [hpasses (key, point) hmem] at hfail
  cases hfail

omit [DecidableEq Path] in
/-- A file is opened if its directory is made and `open` succeeds. -/
theorem passes_opening : Passes env (opening key) ↔
    env.fails key .makeDirectory = false ∧ env.fails key .openFile = false := by
  simp only [Passes, opening, List.mem_cons, List.not_mem_nil, or_false, forall_eq_or_imp, forall_eq]

omit [DecidableEq Path] in
/-- What appears while a file is opened does so at one of two calls. -/
theorem appears_opening : Appears env path (opening key) ↔
    Appears env path [(key, .makeDirectory)] ∨ Appears env path [(key, .openFile)] := by
  rw [← appears_append, opening, List.singleton_append]

/-- A file that cannot be opened, or is there, is not one that can be created. -/
theorem not_free {fails : Bool} {free : Prop} (h : fails = true ∨ ¬ free) : ¬ (fails = false ∧ free) := by
  rintro ⟨rfl, hfree⟩
  rcases h with hfail | htaken
  · cases hfail
  · exact htaken hfree

/-- A file that has been created gets its whole content, or some of it where a call fails. -/
theorem writeAndSync_leads : Leads (writeAndSync env key path data) d
    (fun _ t => Passes env ([.write, .flush, .fsync, .close].map (Prod.mk key)) ∧
      t.own = Function.update d.own path (some data) ∧
        Goes env (· = path) d t ([.write, .flush, .fsync, .close].map (Prod.mk key)))
    fun _ t => ¬ Passes env ([.write, .flush, .fsync, .close].map (Prod.mk key)) ∧
      ∃ content, t.own = Function.update d.own path (some content) := by
  have hput : ∀ {d : Disk Path} {content}, Goes env (· = path) d (d.put path content) [] := Goes.put rfl
  have hfails : ∀ {point}, point ∈ [Point.write, .flush, .fsync, .close] → env.fails key point = true →
      ¬ Passes env ([.write, .flush, .fsync, .close].map (Prod.mk key)) :=
    fun hpoint => not_passes (List.mem_map_of_mem hpoint)
  rw [writeAndSync]
  refine Leads.bind (P := fun _ t => t = d.put path (env.stored key .write)) (.modify rfl) ?_
  rintro ⟨⟩ _ rfl
  refine (attempt_leads (q := (· = path))).bind_of_imp
    (fun _ _ h => ⟨hfails (by decide) h.1, _, h.2⟩) ?_
  rintro ⟨⟩ t₁ ⟨hwrite, hown₁, hgoes₁⟩
  refine Leads.bind (P := fun _ t => t = t₁.put path (env.stored key .flush)) (.modify rfl) ?_
  rintro ⟨⟩ _ rfl
  have hown₂ : ∀ content, (t₁.put path content).own = Function.update d.own path (some content) :=
    fun content => by
    rw [Disk.put, hown₁, Disk.put, Function.update_idem]
  refine (attempt_leads (q := (· = path))).bind_of_imp
    (fun _ _ h => ⟨hfails (by decide) h.1, _, h.2.trans (hown₂ _)⟩) ?_
  rintro ⟨⟩ t₂ ⟨hflush, hown₂', hgoes₂⟩
  refine Leads.bind (P := fun _ t => t = t₂.put path data) (.modify rfl) ?_
  rintro ⟨⟩ _ rfl
  have hown₃ : (t₂.put path data).own = Function.update d.own path (some data) := by
    rw [Disk.put, hown₂', hown₂, Function.update_idem]
  refine (attempt_leads (q := (· = path))).bind_of_imp
    (fun _ _ h => ⟨hfails (by decide) h.1, _, h.2.trans hown₃⟩) ?_
  rintro ⟨⟩ t₃ ⟨hfsync, hown₄, hgoes₃⟩
  refine (attempt_leads (q := (· = path))).mono ?_ fun _ _ h =>
    ⟨hfails (by decide) h.1, _, h.2.trans (hown₄.trans hown₃)⟩
  rintro ⟨⟩ t₄ ⟨hclose, hown₅, hgoes₄⟩
  refine ⟨?_, hown₅.trans (hown₄.trans hown₃), ?_⟩
  · rintro s hs
    obtain ⟨point, hpoint, rfl⟩ := List.mem_map.1 hs
    simp only [List.mem_cons, List.not_mem_nil, or_false] at hpoint
    rcases hpoint with rfl | rfl | rfl | rfl
    exacts [hwrite, hflush, hfsync, hclose]
  · exact hput.trans (hgoes₁.trans (hput.trans (hgoes₂.trans (hput.trans (hgoes₃.trans hgoes₄)))))

/-! ### Saving one key -/

omit [DecidableEq Path] in
/-- Calls pass if the first one does and the others do. -/
theorem passes_cons {s : Key × Point} :
    Passes env (s :: steps) ↔ env.fails s.1 s.2 = false ∧ Passes env steps := List.forall_mem_cons

/-- `save_private_key` writes the whole key, or raises: before it has opened the file, or with some
of it written. -/
theorem savePrivateKey_leads {password : Option (List UInt8)} (hown : d.own target = none)
    (hothers : d.others target = none) : Leads (savePrivateKey env target password data) d
    (fun _ t => OpensPrivate env target password ∧ Passes env (onFile .privateKey) ∧
      t.own = Function.update d.own target (some data) ∧
        Goes env (· = target) d t (opening .privateKey ++ onFile .privateKey))
    fun _ t => (¬ OpensPrivate env target password ∧ t.own = d.own) ∨
      (OpensPrivate env target password ∧ ¬ Passes env (onFile .privateKey) ∧
        ∃ content, t.own = Function.update d.own target (some content)) := by
  rw [savePrivateKey]
  refine (attempt_leads (q := fun _ => False)).bind_of_imp
    (fun _ _ h => Or.inl ⟨fun hopens => not_passes List.mem_cons_self h.1 hopens.1, h.2⟩) ?_
  rintro ⟨⟩ t₁ ⟨hdirectory, hown₁, hgoes₁⟩
  refine leads_throwIf (fun h => Or.inl ⟨fun hopens => hopens.2.1 h, hown₁⟩) fun hpassword => ?_
  have hothers₁ := hgoes₁.others target not_false hown
  rw [hothers, eq_self, true_and] at hothers₁
  have hopens : OpensPrivate env target password ↔ env.fails .privateKey .openFile = false ∧
      t₁.others target = none ∧ ¬ Appears env target [(.privateKey, .openFile)] := by
    rw [OpensPrivate, passes_opening, appears_opening, not_or, hothers₁]
    exact ⟨fun h => ⟨h.1.2, h.2.2⟩, fun h => ⟨⟨hdirectory, h.1⟩, hpassword, h.2⟩⟩
  rw [writeSecretExclusive]
  refine (openExclusive_leads (q := fun _ => False) not_false (by rw [hown₁, hown])).bind_of_imp
    (fun _ _ h => Or.inl ⟨hopens.not.2 (not_free h.1), h.2.trans hown₁⟩) ?_
  rintro ⟨⟩ t₂ ⟨hopen, hfree, hnot, hown₂, hgoes₂⟩
  have hopened := hopens.2 ⟨hopen, hfree, hnot⟩
  have hcreated : ∀ {t : Disk Path}, t.own = t₂.own →
      t.own = Function.update d.own target (some []) := fun h => by rw [h, hown₂, hown₁]
  refine (attempt_leads (q := (· = target))).bind_of_imp
    (fun _ _ h => Or.inr ⟨hopened, not_passes List.mem_cons_self h.1, _, hcreated h.2⟩) ?_
  rintro ⟨⟩ t₃ ⟨hfdopen, hown₃, hgoes₃⟩
  refine writeAndSync_leads.mono ?_ ?_
  · rintro ⟨⟩ t₄ ⟨hpasses, hown₄, hgoes₄⟩
    refine ⟨hopened, passes_cons.2 ⟨hfdopen, hpasses⟩, ?_, ?_⟩
    · rw [hown₄, hcreated hown₃, Function.update_idem]
    · exact (hgoes₁.mono fun _ h => h.elim).trans ((hgoes₂.mono fun p h => h.resolve_left id).trans
        (hgoes₃.trans hgoes₄))
  · rintro e t₄ ⟨hfails, content, hown₄⟩
    refine Or.inr ⟨hopened, fun hpasses => hfails (passes_cons.1 hpasses).2, content, ?_⟩
    rw [hown₄, hcreated hown₃, Function.update_idem]

/-- The public key's file is created, as far as the steps of saving it decide. -/
def Opens (env : Environment Path) (target : Path) (d : Disk Path) : Prop :=
  Passes env (opening .publicKey) ∧ d.others target = none ∧ ¬ Appears env target (opening .publicKey)

/-- `save_public_key` writes the whole key, or raises: before it has opened the file, or with some
of it written. -/
theorem savePublicKey_leads (hown : d.own target = none) : Leads (savePublicKey env target data) d
    (fun _ t => Opens env target d ∧ Passes env (onFile .publicKey) ∧
      t.own = Function.update d.own target (some data))
    fun _ t => (¬ Opens env target d ∧ t.own = d.own) ∨
      (Opens env target d ∧ ¬ Passes env (onFile .publicKey) ∧
        ∃ content, t.own = Function.update d.own target (some content)) := by
  rw [savePublicKey]
  refine (attempt_leads (q := fun _ => False)).bind_of_imp
    (fun _ _ h => Or.inl ⟨fun hopens => not_passes List.mem_cons_self h.1 hopens.1, h.2⟩) ?_
  rintro ⟨⟩ t₁ ⟨hdirectory, hown₁, hgoes₁⟩
  have hopens : Opens env target d ↔ env.fails .publicKey .openFile = false ∧
      t₁.others target = none ∧ ¬ Appears env target [(.publicKey, .openFile)] := by
    rw [Opens, passes_opening, appears_opening, not_or, hgoes₁.others target not_false hown]
    exact ⟨fun h => ⟨h.1.2, ⟨h.2.1, h.2.2.1⟩, h.2.2.2⟩,
      fun h => ⟨⟨hdirectory, h.1⟩, h.2.1.1, h.2.1.2, h.2.2⟩⟩
  refine (openExclusive_leads (q := fun _ => False) not_false (by rw [hown₁, hown])).bind_of_imp
    (fun _ _ h => Or.inl ⟨hopens.not.2 (not_free h.1), h.2.trans hown₁⟩) ?_
  rintro ⟨⟩ t₂ ⟨hopen, hfree, hnot, hown₂, -⟩
  have hopened := hopens.2 ⟨hopen, hfree, hnot⟩
  refine writeAndSync_leads.mono ?_ ?_
  · rintro ⟨⟩ t₃ ⟨hpasses, hown₃, -⟩
    exact ⟨hopened, hpasses, by rw [hown₃, hown₂, hown₁, Function.update_idem]⟩
  · rintro e t₃ ⟨hfails, content, hown₃⟩
    exact Or.inr ⟨hopened, hfails, content, by rw [hown₃, hown₂, hown₁, Function.update_idem]⟩

/-! ### The call -/

variable {privateTarget publicTarget : Path} {password : Option (List UInt8)}
  {privateBytes publicBytes : List UInt8}

/-- The public key cannot be saved where the call has just saved the private one. -/
theorem savePublicKey_leads_taken (hown : d.own target ≠ none) : Leads (savePublicKey env target data) d
    (fun _ _ => False) fun _ t => t.own = d.own := by
  rw [savePublicKey]
  refine (attempt_leads (q := fun _ => False)).bind_of_imp (fun _ _ h => h.2) ?_
  rintro ⟨⟩ t₁ ⟨-, hown₁, -⟩
  refine Leads.bind (P := fun _ _ => False) ?_ fun _ _ h => h.elim
  rw [openExclusive]
  refine (attempt_leads (q := fun _ => False)).bind_of_imp (fun _ _ h => h.2.trans hown₁) ?_
  rintro ⟨⟩ t₂ ⟨-, hown₂, -⟩
  refine Leads.bind (P := fun d' t' => d' = t₂ ∧ t' = t₂) (.get ⟨rfl, rfl⟩) ?_
  rintro _ _ ⟨rfl, rfl⟩
  refine leads_throwIf (fun _ => hown₂.trans hown₁) fun h => (h ?_).elim
  rw [Disk.has, hown₂, hown₁, Option.isSome_iff_ne_none.2 hown, Bool.or_true]

/-- What the second file comes to, and what there is of the first one then. -/
theorem savePublicKey_after (hprivate : d.own privateTarget ≠ none)
    (hother : publicTarget ≠ privateTarget → d.own publicTarget = none)
    (hfree : publicTarget ≠ privateTarget →
      (d.others publicTarget = none ↔ ¬ Appears env publicTarget (opening .privateKey ++ onFile .privateKey))) :
    Leads (savePublicKey env publicTarget publicBytes) d
      (fun _ t => OpensPublic env privateTarget publicTarget ∧ Passes env (onFile .publicKey) ∧
        publicTarget ≠ privateTarget ∧ t.own = Function.update d.own publicTarget (some publicBytes))
      fun _ t => (¬ OpensPublic env privateTarget publicTarget ∧ t.own = d.own) ∨
        (OpensPublic env privateTarget publicTarget ∧ ¬ Passes env (onFile .publicKey) ∧
          ∃ content, t.own = Function.update d.own publicTarget (some content)) := by
  by_cases heq : publicTarget = privateTarget
  · exact (savePublicKey_leads_taken (by rwa [heq])).mono (fun _ _ h => h.elim)
      fun _ _ h => Or.inl ⟨fun hopens => hopens.2.1 heq, h⟩
  · have hopens : Opens env publicTarget d ↔ OpensPublic env privateTarget publicTarget := by
      have hsplit : Appears env publicTarget (opening .privateKey ++ onFile .privateKey ++ opening .publicKey) ↔
          Appears env publicTarget (opening .privateKey ++ onFile .privateKey) ∨
            Appears env publicTarget (opening .publicKey) := appears_append
      rw [Opens, OpensPublic, hfree heq, hsplit, not_or]
      exact ⟨fun h => ⟨h.1, heq, h.2⟩, fun h => ⟨h.1, h.2.2⟩⟩
    rw [← hopens]
    exact (savePublicKey_leads (hother heq)).mono (fun _ _ h => ⟨h.1, h.2.1, heq, h.2.2⟩) fun _ _ h => h

/-- The roll-back, after the private key's file alone has been created. -/
theorem rollback_leads {e : KeyError} : Leads (do unlink env privateTarget; throw e : Action Path Unit) d
    (fun _ _ => False) fun _ t =>
      (env.unlinkFails = true ∧ t.own = d.own) ∨
        (env.unlinkFails = false ∧ t.own = Function.update d.own privateTarget none) := by
  refine Leads.bind (P := fun _ t => env.unlinkFails = false ∧ t = d.unlink privateTarget) ?_ ?_
  · rw [unlink]
    by_cases h : env.unlinkFails = true
    · rw [if_pos h]
      exact .bind (P := fun _ _ => False) (.throw (Or.inl ⟨h, rfl⟩)) fun _ _ hfalse => hfalse.elim
    · rw [if_neg h]
      exact .modify ⟨Bool.not_eq_true _ ▸ h, rfl⟩
  · rintro ⟨⟩ _ ⟨h, rfl⟩
    exact .throw (Or.inr ⟨h, rfl⟩)

/-- `generate_and_save_keypair` leaves both keys or none, just where it is not stranded on one that
it has created. -/
theorem keypair_leads (hown : d.own = fun _ => none) (hprivate : d.others privateTarget = none)
    (hpublic : d.others publicTarget = none) :
    Leads (generateAndSaveKeypair env privateTarget publicTarget password privateBytes publicBytes) d
      (fun _ t => AllOrNothing privateTarget publicTarget privateBytes publicBytes (.ok ⟨⟩ t) ∧
        ¬ Stranded env privateTarget publicTarget password)
      fun e t => AllOrNothing privateTarget publicTarget privateBytes publicBytes (.error e t) ↔
        ¬ Stranded env privateTarget publicTarget password := by
  have hnone : ∀ path, d.own path = none := fun path => by rw [hown]
  rw [generateAndSaveKeypair]
  refine Leads.bind (P := fun d' t => d' = d ∧ t = d) (.get ⟨rfl, rfl⟩) ?_
  rintro _ _ ⟨rfl, rfl⟩
  refine leads_throwIf (fun h => ?_) fun _ => ?_
  · rw [Disk.has, Disk.has, hprivate, hpublic, hnone, hnone] at h
    rcases h with h | h <;> cases h
  refine (savePrivateKey_leads (hnone _) hprivate).bind_of_imp ?_ ?_
  · -- the private key is not saved
    rintro e t (⟨hopens, hsame⟩ | ⟨hopens, hfails, content, hleft⟩)
    · exact ⟨fun _ hstranded => hopens hstranded.1, fun _ => ⟨by rw [hsame, hnone], by rw [hsame, hnone]⟩⟩
    · refine ⟨fun h => ?_, fun h => absurd ⟨hopens, Or.inl hfails⟩ h⟩
      rw [AllOrNothing, hleft, Function.update_self] at h
      cases h.1
  rintro ⟨⟩ t ⟨hopens, hpasses, hsaved, hgoes⟩
  have hstranded : Stranded env privateTarget publicTarget password ↔
      (OpensPublic env privateTarget publicTarget ∧ ¬ Passes env (onFile .publicKey)) ∨
        (¬ OpensPublic env privateTarget publicTarget ∧ env.unlinkFails = true) := by
    rw [Stranded, and_iff_right hopens, or_iff_right (not_not_intro hpasses)]
  have hfirst : t.own privateTarget = some privateBytes := by rw [hsaved, Function.update_self]
  have hsecond : publicTarget ≠ privateTarget → t.own publicTarget = none := fun hne => by
    rw [hsaved, Function.update_of_ne hne, hnone]
  have hfree : publicTarget ≠ privateTarget →
      (t.others publicTarget = none ↔ ¬ Appears env publicTarget (opening .privateKey ++ onFile .privateKey)) :=
    fun hne => by rw [hgoes.others publicTarget hne (hnone _), hpublic, eq_self, true_and]
  refine Leads.tryCatch ((savePublicKey_after (by rw [hfirst]; exact Option.some_ne_none _) hsecond hfree).mono
    ?_ fun _ _ h => h) ?_
  · rintro ⟨⟩ u ⟨hopened, hwritten, hne, hboth⟩
    refine ⟨⟨?_, by rw [hboth, Function.update_self]⟩, ?_⟩
    · rw [hboth, Function.update_of_ne hne.symm, hfirst]
    · rw [hstranded]
      rintro (h | h)
      · exact h.2 hwritten
      · exact h.1 hopened
  · rintro e u hfailed
    refine rollback_leads.mono (fun _ _ h => h.elim) fun _ v hrolled => ?_
    rw [hstranded]
    rcases hfailed with ⟨hopened, hsame⟩ | ⟨hopened, hfails, content, hleft⟩
    · -- the public key's file is not created
      rw [hsame] at hrolled
      rcases hrolled with ⟨hunlink, hv⟩ | ⟨hunlink, hv⟩
      · refine ⟨fun h => ?_, fun h => absurd (Or.inr ⟨hopened, hunlink⟩) h⟩
        rw [AllOrNothing, hv, hfirst] at h
        cases h.1
      · refine ⟨?_, fun _ => ⟨by rw [hv, Function.update_self], ?_⟩⟩
        · rintro - (h | h)
          · exact hopened h.1
          · rw [hunlink] at h
            cases h.2
        · by_cases hne : publicTarget = privateTarget
          · rw [hv, hne, Function.update_self]
          · rw [hv, Function.update_of_ne hne, hsecond hne]
    · -- it is created and not complete
      refine ⟨fun h => ?_, fun h => absurd (Or.inl ⟨hopened, hfails⟩) h⟩
      have hkept : v.own publicTarget = some content := by
        rcases hrolled with ⟨-, hv⟩ | ⟨-, hv⟩
        · rw [hv, hleft, Function.update_self]
        · rw [hv, Function.update_of_ne hopened.2.1, hleft, Function.update_self]
      rw [AllOrNothing, hkept] at h
      cases h.2

/-- **A key pair is created all or nothing** where neither file is there before, exactly when no step fails
on a file that the call has created and the roll-back, where it is needed, works. -/
theorem keypair_all_or_nothing (env : Environment Path) (privateTarget publicTarget : Path)
    (password : Option (List UInt8)) (privateBytes publicBytes : List UInt8) (d : Disk Path)
    (hown : d.own = fun _ => none) (hprivate : d.others privateTarget = none)
    (hpublic : d.others publicTarget = none) :
    AllOrNothing privateTarget publicTarget privateBytes publicBytes (generateAndSaveKeypair env privateTarget
      publicTarget password privateBytes publicBytes d) ↔
    ¬ Stranded env privateTarget publicTarget password := by
  have hleads := @keypair_leads _ _ env d _ _ password privateBytes publicBytes hown hprivate hpublic
  cases hresult : generateAndSaveKeypair env privateTarget publicTarget password privateBytes publicBytes d with
  | ok u t => exact ⟨fun _ => (hleads.of_ok hresult).2, fun _ => (hleads.of_ok hresult).1⟩
  | error e t => exact hleads.of_error hresult

end

/-- One step fails, and nobody else creates a file. -/
def failing (key : Key) (point : Point) : Environment String :=
  ⟨fun k p => decide (k = key ∧ p = point), false, fun _ _ => [], fun _ _ => []⟩

/-- No files. -/
def Disk.empty : Disk String := ⟨fun _ => none, fun _ => none⟩

/-- Opening the public key fails in the sample, and the private key is removed. -/
theorem keypair_all_or_nothing_sample :
    AllOrNothing "logger.pem" "logger.pub" [1] [2] (generateAndSaveKeypair (failing .publicKey .openFile)
      "logger.pem" "logger.pub" none [1] [2] .empty) := by
  refine (keypair_all_or_nothing _ _ _ _ _ _ _ rfl rfl rfl).2 ?_
  rintro ⟨-, h | ⟨h, -⟩ | ⟨-, h⟩⟩
  · exact h (by decide)
  · exact absurd (h.1 (.publicKey, .openFile) (by decide)) (by decide)
  · cases h

/-- A private key of which nothing is written, and a public key that is not flushed, stay. -/
theorem keypair_left_behind :
    ¬ AllOrNothing "logger.pem" "logger.pub" [1] [2] (generateAndSaveKeypair (failing .privateKey .write)
      "logger.pem" "logger.pub" none [1] [2] .empty) ∧
    ¬ AllOrNothing "logger.pem" "logger.pub" [1] [2] (generateAndSaveKeypair (failing .publicKey .flush)
      "logger.pem" "logger.pub" none [1] [2] .empty) := by
  constructor
  · rintro ⟨h, -⟩
    cases h
  · rintro ⟨-, h⟩
    cases h

end Keys
end Forensics
end Vestrix
