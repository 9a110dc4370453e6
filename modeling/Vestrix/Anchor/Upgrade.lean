/-
# Upgrading a proof at the calendars

`OpenTimestampsBackend.upgrade` with its default upgrader: each calendar of the whitelist that
has a pending attestation at the top of the proof's tree is asked for more, and what it returns
is merged into the tree while the loops go on.  The failures are gathered, and one of them makes
the call fail when all calendars have been asked.

A proof is a tree of operations with attestations at its nodes.  The client library is a
parameter: reading and writing a proof, what an operation does to a message, the merge of two
trees and what a calendar answers.  Of the merge, only that it is a union is used.

What the calendars answered is in the proof that is returned (`calendar_progress`), unless one of
them has failed, when no proof is returned.
-/

import Vestrix.Outcome
import Vestrix.Anchor.TimestampTree

namespace Vestrix
namespace Anchor
namespace Upgrade

open Text Outcome

/-! ### The client library -/

/-- A `DetachedTimestampFile`. -/
structure Detached (O : Type) where
  sha256 : Bool
  digest : List UInt8
  timestamp : Timestamp O
deriving DecidableEq

/-- What comes of `get_timestamp`. -/
inductive Answer (O : Type) where
  | timestamp (upgraded : Timestamp O)
  | notFound
  | raised (message : Str)
  | systemExit
  | interrupt

/-- The calendar has answered. -/
def Answer.Answered {O : Type} : Answer O → Prop
  | .timestamp _ => True
  | .notFound => True
  | _ => False

/-- What `upgrade` raises. -/
inductive UpgradeError where
  | integrity
  | transient (message : Str)
  | interrupt
deriving DecidableEq

/-- The client library and the calendars. -/
structure Client (O : Type) where
  /-- An operation's result. -/
  apply : O → List UInt8 → List UInt8
  /-- `Timestamp.merge`. -/
  merge : Timestamp O → Timestamp O → Timestamp O
  /-- `DetachedTimestampFile.deserialize`, up to the end of the input. -/
  deserialize : List UInt8 → Option { detached : Detached O // detached.timestamp.Distinct }
  /-- `DetachedTimestampFile.serialize`. -/
  serialize : Detached O → List UInt8
  /-- `DEFAULT_CALENDAR_WHITELIST`. -/
  whitelisted : Str → Bool
  /-- `RemoteCalendar(uri).get_timestamp`. -/
  getTimestamp : Str → List UInt8 → Answer O

/-- What the loops of `_upgrade_with_client_defaults` change. -/
structure Progress (O : Type) where
  timestamp : Timestamp O
  changed : Bool
  failures : List Str

/-! ### The upgrade -/

/-- `"; ".join`. -/
def join : List Str → Str
  | [] => []
  | [text] => text
  | text :: texts => text ++ lit "; " ++ join texts

namespace Client

variable {O : Type} (client : Client O)

/-- `all_attestations`, of a tree on a message. -/
def allAttestations (msg : List UInt8) : Timestamp O → List (List UInt8 × Attestation)
  | .empty => []
  | .attested attestation rest => (msg, attestation) :: allAttestations msg rest
  | .branch op child rest => allAttestations (client.apply op msg) child ++ allAttestations msg rest

/-- The message of the node at a path. -/
def message (msg : List UInt8) : List O → List UInt8
  | [] => msg
  | op :: path => message (client.apply op msg) path

/-- `_validated_detached`. -/
def validatedDetached (proof digest : List UInt8) :
    Except UpgradeError { detached : Detached O // detached.timestamp.Distinct } := do
  require (proof ≠ []) .integrity
  require (digest.length = 32) .integrity
  let detached ← orError .integrity (client.deserialize proof)
  require (detached.val.sha256 = true) .integrity
  require (detached.val.digest = digest) .integrity
  return detached

/-- `inspect_proof`: whether a proof of the digest has a Bitcoin attestation. -/
def inspectProof (proof digest : List UInt8) : Except UpgradeError Bool := do
  let detached ← client.validatedDetached proof digest
  return (client.allAttestations digest detached.val.timestamp).any fun x => x.2.isBitcoin

variable [DecidableEq O]

/-- One calendar is asked about one node. -/
def ask (root : List UInt8) (path : List O) (s : Progress O) (uri : Str) :
    Except UpgradeError (Progress O) :=
  match client.getTimestamp uri (client.message root path) with
  | .timestamp upgraded =>
    let timestamp := s.timestamp.modify (client.merge · upgraded) path
    let before := client.allAttestations root s.timestamp
    let after := client.allAttestations root timestamp
    -- the attestations are compared as sets
    .ok { s with
      timestamp := timestamp
      changed := s.changed || !decide (after ⊆ before ∧ before ⊆ after) }
  | .notFound => .ok s
  | .raised message => .ok { s with failures := s.failures ++ [uri ++ lit ": " ++ message] }
  | .systemExit => .error (.transient (lit "OpenTimestamps upgrade failed"))
  | .interrupt => .error .interrupt

/-- The loop over the attestations of a node. -/
def askNode (root : List UInt8) (path : List O) :
    Progress O → List Attestation → Except UpgradeError (Progress O)
  | s, [] => .ok s
  | s, .pending uri :: rest =>
    if client.whitelisted uri = true then client.ask root path s uri >>= fun s => askNode root path s rest
    else askNode root path s rest
  | s, _ :: rest => askNode root path s rest

/-- The loop over the nodes. -/
def askNodes (root : List UInt8) : Progress O → List (List O) → Except UpgradeError (Progress O)
  | s, [] => .ok s
  | s, path :: rest =>
    -- the attestations that the node has when its turn comes
    client.askNode root path s (s.timestamp.node path).attestations >>= fun s => askNodes root s rest

/-- `_upgrade_with_client_defaults`. -/
def upgradeWithClientDefaults (root : List UInt8) (timestamp : Timestamp O) :
    Except UpgradeError (Bool × Timestamp O) := do
  let s ← client.askNodes root ⟨timestamp, false, []⟩ timestamp.directlyAttested
  require (s.failures = []) (.transient (join s.failures))
  return (s.changed, s.timestamp)

/-- `OpenTimestampsBackend.upgrade`. -/
def upgrade (proof digest : List UInt8) : Except UpgradeError (Option (List UInt8)) := do
  let detached ← client.validatedDetached proof digest
  let (changed, timestamp) ← client.upgradeWithClientDefaults digest detached.val.timestamp
  return if changed = true then some (client.serialize { detached.val with timestamp := timestamp })
    else none

end Client

namespace Client

variable {O : Type} {client : Client O}

/-! ### All attestations -/

/-- `merge` keeps a tree well formed, and unites the attestations on any message. -/
structure MergeUnion (client : Client O) : Prop where
  distinct : ∀ t u : Timestamp O, t.Distinct → (client.merge t u).Distinct
  attestations : ∀ (t u : Timestamp O) msg x, x ∈ client.allAttestations msg (client.merge t u) ↔
    x ∈ client.allAttestations msg t ∨ x ∈ client.allAttestations msg u

variable {msg root : List UInt8} {x : List UInt8 × Attestation} {s s' : Progress O}
  {t : Timestamp O} {path : List O} {asked : List (List O × Str)} {query : List O × Str}

/-- An empty tree has no attestation. -/
@[simp] theorem mem_allAttestations_empty : x ∉ client.allAttestations msg .empty := List.not_mem_nil

/-- An attestation of a node is one of the message of the node. -/
@[simp] theorem mem_allAttestations_attested (a : Attestation) (rest : Timestamp O) :
    x ∈ client.allAttestations msg (.attested a rest) ↔
      x = (msg, a) ∨ x ∈ client.allAttestations msg rest := List.mem_cons

/-- A child is attested for the message that the operation makes of the node's. -/
@[simp] theorem mem_allAttestations_branch (op : O) (child rest : Timestamp O) :
    x ∈ client.allAttestations msg (.branch op child rest) ↔
      x ∈ client.allAttestations (client.apply op msg) child ∨ x ∈ client.allAttestations msg rest :=
  List.mem_append

/-- A node's own attestations are among those of its tree. -/
theorem mem_allAttestations_of_mem {a : Attestation} {t : Timestamp O} (h : a ∈ t.attestations) :
    (msg, a) ∈ client.allAttestations msg t := by
  induction t with
  | empty => exact absurd h List.not_mem_nil
  | attested b rest ih =>
    rw [mem_allAttestations_attested]
    rcases List.mem_cons.1 h with rfl | h
    · exact Or.inl rfl
    · exact Or.inr (ih h)
  | branch op child rest _ ih => exact (mem_allAttestations_branch op child rest).2 (Or.inr (ih h))

/-- An attestation that is added is one of the message of the node. -/
theorem mem_allAttestations_add (a : Attestation) (t : Timestamp O) :
    x ∈ client.allAttestations msg (t.add a) ↔ x ∈ client.allAttestations msg t ∨ x = (msg, a) := by
  rw [Timestamp.add]
  split_ifs with ha
  · refine ⟨Or.inl, ?_⟩
    rintro (h | rfl)
    · exact h
    · exact mem_allAttestations_of_mem ha
  · rw [mem_allAttestations_attested, or_comm]

/-! ### What the calendars answer -/

/-- The calendars that are asked about a node with the given attestations. -/
def calendars (client : Client O) (attestations : List Attestation) : List Str :=
  attestations.filterMap fun
    | .pending uri => if client.whitelisted uri = true then some uri else none
    | _ => none

/-- What the calendar of a query answers. -/
def answer (client : Client O) (root : List UInt8) (query : List O × Str) : Answer O :=
  client.getTimestamp query.2 (client.message root query.1)

/-- An attestation that one of the queries returned. -/
def Returned (client : Client O) (root : List UInt8) (asked : List (List O × Str))
    (x : List UInt8 × Attestation) : Prop :=
  ∃ query ∈ asked, ∃ upgraded, client.answer root query = .timestamp upgraded ∧
    x ∈ client.allAttestations (client.message root query.1) upgraded

/-- What the loops have come to after some of the queries. -/
structure Asked (client : Client O) (root : List UInt8) (t : Timestamp O)
    (asked : List (List O × Str)) (s : Progress O) : Prop where
  distinct : s.timestamp.Distinct
  attestations : ∀ x, x ∈ client.allAttestations root s.timestamp ↔
    x ∈ client.allAttestations root t ∨ client.Returned root asked x
  changed : s.changed = true ↔
    ∃ x ∈ client.allAttestations root s.timestamp, x ∉ client.allAttestations root t
  failures : s.failures = [] ↔ ∀ query ∈ asked, (client.answer root query).Answered

/-- One more query returns what it returns, besides what the others have. -/
theorem returned_append :
    client.Returned root (asked ++ [query]) x ↔ client.Returned root asked x ∨
      ∃ upgraded, client.answer root query = .timestamp upgraded ∧
        x ∈ client.allAttestations (client.message root query.1) upgraded := by
  simp only [Returned, List.mem_append, List.mem_singleton, or_and_right, exists_or, exists_eq_left]

/-- Before the first query the tree is as it was. -/
theorem Asked.nil (client : Client O) (root : List UInt8) (ht : t.Distinct) :
    client.Asked root t [] ⟨t, false, []⟩ where
  distinct := ht
  attestations x := by simp [Returned]
  changed := by simp
  failures := by simp

/-- A query that returns no tree changes no attestation. -/
theorem Asked.nothing (hs : client.Asked root t asked s)
    (hanswer : ∀ upgraded, client.answer root query ≠ .timestamp upgraded)
    {failures : List Str} (hfailures : failures = [] ↔
      s.failures = [] ∧ (client.answer root query).Answered) :
    client.Asked root t (asked ++ [query]) { s with failures := failures } where
  distinct := hs.distinct
  attestations x := by
    rw [hs.attestations, returned_append]
    refine or_congr_right (or_iff_left ?_).symm
    rintro ⟨upgraded, h, -⟩
    exact hanswer upgraded h
  changed := hs.changed
  failures := by
    rw [List.forall_mem_append, ← hs.failures, List.forall_mem_singleton]
    exact hfailures

/-! ### Changes of a tree -/

variable [DecidableEq O]

/-- A change that adds attestations to a child adds them to the tree. -/
theorem mem_allAttestations_update {f : Timestamp O → Timestamp O} {op : O} {p : Prop}
    (hf : ∀ t, x ∈ client.allAttestations (client.apply op msg) (f t) ↔
      x ∈ client.allAttestations (client.apply op msg) t ∨ p) (t : Timestamp O) :
    x ∈ client.allAttestations msg (t.update op f) ↔ x ∈ client.allAttestations msg t ∨ p := by
  induction t with
  | empty => simp [Timestamp.update, hf]
  | attested a rest ih =>
    rw [Timestamp.update, mem_allAttestations_attested, ih, mem_allAttestations_attested, or_assoc]
  | branch op' child rest _ ih =>
    rw [Timestamp.update]
    split_ifs with hop
    · subst hop
      rw [mem_allAttestations_branch, mem_allAttestations_branch, hf]
      exact or_right_comm
    · rw [mem_allAttestations_branch, mem_allAttestations_branch, ih, or_assoc]

/-- A change that adds attestations to a node adds them to the tree. -/
theorem mem_allAttestations_modify {f : Timestamp O → Timestamp O} {p : Prop}
    (hf : ∀ t, x ∈ client.allAttestations (client.message root path) (f t) ↔
      x ∈ client.allAttestations (client.message root path) t ∨ p) (t : Timestamp O) :
    x ∈ client.allAttestations root (t.modify f path) ↔ x ∈ client.allAttestations root t ∨ p := by
  induction path generalizing root t with
  | nil => exact hf t
  | cons op path ih => exact mem_allAttestations_update (fun t => ih hf t) t

/-- The attestations of a union are those of both trees. -/
theorem mem_allAttestations_union
    (t u : Timestamp O) : x ∈ client.allAttestations msg (t.union u) ↔
      x ∈ client.allAttestations msg t ∨ x ∈ client.allAttestations msg u := by
  induction u generalizing t msg with
  | empty => simp [Timestamp.union]
  | attested a rest ih =>
    rw [Timestamp.union, ih, mem_allAttestations_add, mem_allAttestations_attested, or_assoc]
  | branch op child rest ihc ih =>
    rw [Timestamp.union, ih, mem_allAttestations_update fun t => ihc t, mem_allAttestations_branch,
      or_assoc]

/-! ### The loops -/

/-- The nodes and the calendars that are asked about them. -/
def queries (client : Client O) (t : Timestamp O) : List (List O × Str) :=
  t.directlyAttested.flatMap fun path =>
    (client.calendars (t.node path).attestations).map fun uri => (path, uri)

/-- One query. -/
def askQuery (client : Client O) (root : List UInt8) (s : Progress O) (query : List O × Str) :
    Except UpgradeError (Progress O) :=
  client.ask root query.1 s query.2

/-- The loop over the attestations of a node is one over the calendars that they name. -/
theorem askNode_eq (as : List Attestation) (s : Progress O) :
    client.askNode root path s as =
      ((client.calendars as).map fun uri => (path, uri)).foldlM (client.askQuery root) s := by
  induction as generalizing s with
  | nil => rfl
  | cons a as ih =>
    cases a with
    | pending uri =>
      rw [askNode, calendars, List.filterMap_cons]
      dsimp only
      split_ifs with h
      · simp only [ih]
        rfl
      · exact ih s
    | bitcoin height => exact ih s
    | unknown tag payload => exact ih s

/-- A query leaves the attestations of the nodes that are not below the one it is about. -/
theorem ask_attestations {uri : Str} {q : List O} (hpq : ¬ path <+: q)
    (h : client.ask root path s uri = .ok s') :
    (s'.timestamp.node q).attestations = (s.timestamp.node q).attestations := by
  rw [ask] at h
  cases hanswer : client.getTimestamp uri (client.message root path) with
  | timestamp upgraded =>
    rw [hanswer] at h
    rw [← Except.ok.inj h]
    exact Timestamp.attestations_node_modify hpq
  | notFound =>
    rw [hanswer] at h
    rw [← Except.ok.inj h]
  | raised message =>
    rw [hanswer] at h
    rw [← Except.ok.inj h]
  | systemExit =>
    rw [hanswer] at h
    cases h
  | interrupt =>
    rw [hanswer] at h
    cases h

/-- Queries about a node leave the attestations of the nodes that are not below it. -/
theorem foldlM_attestations {uris : List Str} {q : List O} (hpq : ¬ path <+: q)
    (h : (uris.map fun uri => (path, uri)).foldlM (client.askQuery root) s = .ok s') :
    (s'.timestamp.node q).attestations = (s.timestamp.node q).attestations := by
  induction uris generalizing s with
  | nil => rw [← Except.ok.inj h]
  | cons uri uris ih =>
    rw [List.map_cons, List.foldlM_cons, bind_eq_ok] at h
    obtain ⟨s₁, h₁, h⟩ := h
    exact (ih h).trans (ask_attestations hpq h₁)

/-- The loops ask what the tree had at their beginning, for what one query merges is below its own
node only. -/
theorem askNodes_eq {paths : List (List O)} (hpaths : paths.Pairwise fun p q => ¬ p <+: q)
    (hs : ∀ path ∈ paths, (s.timestamp.node path).attestations = (t.node path).attestations) :
    client.askNodes root s paths = (paths.flatMap fun path =>
      (client.calendars (t.node path).attestations).map fun uri => (path, uri)).foldlM
        (client.askQuery root) s := by
  induction paths generalizing s with
  | nil => rfl
  | cons path paths ih =>
    obtain ⟨hpath, hpaths⟩ := List.pairwise_cons.1 hpaths
    obtain ⟨ht, hs⟩ := List.forall_mem_cons.1 hs
    rw [askNodes, askNode_eq, ht, List.flatMap_cons, List.foldlM_append]
    cases h : ((client.calendars (t.node path).attestations).map fun uri => (path, uri)).foldlM
        (client.askQuery root) s with
    | error e => rfl
    | ok s₁ =>
      -- the nodes that are left are not below this one
      rw [ok_bind, ok_bind]
      exact ih hpaths fun q hq => (foldlM_attestations (hpath q hq) h).trans (hs q hq)

/-- Whether a tree has changed in all, if it has only grown. -/
theorem changed_iff {α : Type} [DecidableEq α] {old before after : List α} {changed : Bool}
    (hold : old ⊆ before) (hbefore : before ⊆ after) (h : changed = true ↔ ∃ x ∈ before, x ∉ old) :
    (changed || !decide (after ⊆ before ∧ before ⊆ after)) = true ↔ ∃ x ∈ after, x ∉ old := by
  rw [Bool.or_eq_true, h, Bool.not_eq_true', decide_eq_false_iff_not, and_iff_left hbefore]
  constructor
  · rintro (⟨x, hx, hnew⟩ | hafter)
    · exact ⟨x, hbefore hx, hnew⟩
    · obtain ⟨x, hx, hnew⟩ := not_forall₂.1 hafter
      exact ⟨x, hx, fun hx => hnew (hold hx)⟩
  · rintro ⟨x, hx, hnew⟩
    by_cases hafter : after ⊆ before
    · exact Or.inl ⟨x, hafter hx, hnew⟩
    · exact Or.inr hafter

/-- A query that returns a tree adds the attestations of that tree. -/
theorem Asked.merge (hmerge : client.MergeUnion) (hs : client.Asked root t asked s)
    {upgraded : Timestamp O} (hanswer : client.answer root query = .timestamp upgraded)
    (h : client.askQuery root s query = .ok s') : client.Asked root t (asked ++ [query]) s' := by
  have hget : client.getTimestamp query.2 (client.message root query.1) = .timestamp upgraded := hanswer
  rw [askQuery, ask, hget] at h
  obtain rfl := Except.ok.inj h
  have hafter : ∀ x, x ∈ client.allAttestations root
      (s.timestamp.modify (client.merge · upgraded) query.1) ↔
        x ∈ client.allAttestations root s.timestamp ∨
          x ∈ client.allAttestations (client.message root query.1) upgraded := fun x =>
    mem_allAttestations_modify (fun t => hmerge.attestations t upgraded _ x) s.timestamp
  refine ⟨hs.distinct.modify fun t ht => hmerge.distinct t upgraded ht, fun x => ?_, ?_, ?_⟩
  · rw [hafter, hs.attestations, returned_append, or_assoc, hanswer]
    simp
  · exact changed_iff (fun x hx => (hs.attestations x).2 (Or.inl hx))
      (fun x hx => (hafter x).2 (Or.inl hx)) hs.changed
  · rw [List.forall_mem_append, ← hs.failures, List.forall_mem_singleton, hanswer]
    exact (and_iff_left trivial).symm

/-- After one more query, the attestations are the old ones and what the query has returned. -/
theorem Asked.ask (hmerge : client.MergeUnion) (hs : client.Asked root t asked s)
    (h : client.askQuery root s query = .ok s') : client.Asked root t (asked ++ [query]) s' := by
  cases hanswer : client.answer root query with
  | timestamp upgraded => exact hs.merge hmerge hanswer h
  | notFound =>
    have hget : client.getTimestamp query.2 (client.message root query.1) = .notFound := hanswer
    rw [askQuery, Client.ask, hget] at h
    obtain rfl := Except.ok.inj h
    refine hs.nothing (fun upgraded h => ?_) ?_
    · cases hanswer.symm.trans h
    · rw [hanswer]
      exact (and_iff_left trivial).symm
  | raised message =>
    have hget : client.getTimestamp query.2 (client.message root query.1) = .raised message := hanswer
    rw [askQuery, Client.ask, hget] at h
    obtain rfl := Except.ok.inj h
    refine hs.nothing (fun upgraded h => ?_) ?_
    · cases hanswer.symm.trans h
    · rw [hanswer]
      simp [Answer.Answered]
  | systemExit =>
    have hget : client.getTimestamp query.2 (client.message root query.1) = .systemExit := hanswer
    rw [askQuery, Client.ask, hget] at h
    cases h
  | interrupt =>
    have hget : client.getTimestamp query.2 (client.message root query.1) = .interrupt := hanswer
    rw [askQuery, Client.ask, hget] at h
    cases h

/-- After all queries, the attestations are the old ones and what the queries have returned. -/
theorem Asked.foldlM (hmerge : client.MergeUnion) {queries : List (List O × Str)}
    (hs : client.Asked root t asked s) (h : queries.foldlM (client.askQuery root) s = .ok s') :
    client.Asked root t (asked ++ queries) s' := by
  induction queries generalizing asked s with
  | nil =>
    rw [← Except.ok.inj h, List.append_nil]
    exact hs
  | cons query queries ih =>
    rw [List.foldlM_cons, bind_eq_ok] at h
    obtain ⟨s₁, h₁, h⟩ := h
    rw [List.append_cons]
    exact ih (hs.ask hmerge h₁) h

/-- A calendar that answers does not end the loops. -/
theorem exists_askQuery (h : (client.answer root query).Answered) :
    ∃ s', client.askQuery root s query = .ok s' := by
  rw [askQuery, Client.ask]
  rw [answer] at h
  cases hget : client.getTimestamp query.2 (client.message root query.1) with
  | timestamp upgraded => exact ⟨_, rfl⟩
  | notFound => exact ⟨_, rfl⟩
  | raised message => exact absurd h (hget ▸ id)
  | systemExit => exact absurd h (hget ▸ id)
  | interrupt => exact absurd h (hget ▸ id)

/-- If every calendar answers, then the loops come to an end. -/
theorem exists_foldlM {queries : List (List O × Str)}
    (h : ∀ query ∈ queries, (client.answer root query).Answered) :
    ∃ s', queries.foldlM (client.askQuery root) s = .ok s' := by
  induction queries generalizing s with
  | nil => exact ⟨s, rfl⟩
  | cons query queries ih =>
    obtain ⟨hquery, hqueries⟩ := List.forall_mem_cons.1 h
    obtain ⟨s₁, h₁⟩ := exists_askQuery (s := s) hquery
    rw [List.foldlM_cons, h₁]
    exact ih hqueries

/-- The proof is not what the loops complain about. -/
theorem askQuery_ne_integrity : client.askQuery root s query ≠ .error .integrity := by
  rw [askQuery, Client.ask]
  intro h
  cases hget : client.getTimestamp query.2 (client.message root query.1) <;>
    (rw [hget] at h; cases h)

/-- No loop complains about the proof. -/
theorem foldlM_ne_integrity {queries : List (List O × Str)} :
    queries.foldlM (client.askQuery root) s ≠ .error .integrity := by
  induction queries generalizing s with
  | nil =>
    intro h
    cases h
  | cons query queries ih =>
    rw [List.foldlM_cons, Ne, bind_eq_error]
    rintro (h | ⟨s₁, -, h⟩)
    · exact askQuery_ne_integrity h
    · exact ih h

/-! ### The upgrade of a proof -/

/-- The loops over a tree are one loop over the queries that it names at the beginning. -/
theorem askNodes_directlyAttested (ht : t.Distinct) :
    client.askNodes root ⟨t, false, []⟩ t.directlyAttested =
      (client.queries t).foldlM (client.askQuery root) ⟨t, false, []⟩ :=
  askNodes_eq (Timestamp.pairwise_directlyAttested ht) fun _ _ => rfl

/-- If a calendar has returned an attestation that is not in the proof, then `upgrade` returns a
proof that has just the attestations of the old one and all that the calendars returned. -/
def Progresses (client : Client O) (proof digest : List UInt8) (detached : Detached O) : Prop :=
  (∃ x, client.Returned digest (client.queries detached.timestamp) x ∧
    x ∉ client.allAttestations digest detached.timestamp) →
  ∃ t : Timestamp O, t.Distinct ∧
    client.upgrade proof digest = .ok (some (client.serialize { detached with timestamp := t })) ∧
    ∀ x, x ∈ client.allAttestations digest t ↔
      x ∈ client.allAttestations digest detached.timestamp ∨
        client.Returned digest (client.queries detached.timestamp) x

section

/-- An attestation of a proof file: its tag, and its payload behind the length.  The heights have three bytes. -/
def attestationBytes : Attestation → List UInt8
  | .pending uri => [0x83, 0xDF, 0xE3, 0x0D, 0x2E, 0xF9, 0x0C, 0x8E] ++
      [UInt8.ofNat (uri.length + 1), UInt8.ofNat uri.length] ++ uri.map fun c => UInt8.ofNat c.ord
  | .bitcoin height => [0x05, 0x88, 0x96, 0x0D, 0x73, 0xD7, 0x19, 0x01] ++
      [3, UInt8.ofNat (height % 128 + 128), UInt8.ofNat (height / 128 % 128 + 128), UInt8.ofNat (height / 16384)]
  | .unknown tag payload => tag ++ UInt8.ofNat payload.length :: payload

/-- The attestations of a node, with the mark of a fork before all but the last. -/
def forks : List Attestation → List UInt8
  | [] => []
  | [a] => 0x00 :: attestationBytes a
  | a :: as => [0xFF, 0x00] ++ attestationBytes a ++ forks as

/-- The file of a proof without operations; attestations are sorted by their tags. -/
def proofBytes (digest : List UInt8) (attestations : List Attestation) : List UInt8 :=
  [0x00, 0x4F, 0x70, 0x65, 0x6E, 0x54, 0x69, 0x6D, 0x65, 0x73, 0x74, 0x61, 0x6D, 0x70, 0x73, 0x00,
    0x00, 0x50, 0x72, 0x6F, 0x6F, 0x66, 0x00, 0xBF, 0x89, 0xE2, 0xE8, 0x84, 0xE8, 0x92, 0x94] ++
  [1, 0x08] ++ digest ++
  forks (attestations.filter (·.isBitcoin) ++ attestations.filter (!·.isBitcoin))

/-- The digest of the sample. -/
def twoDigest : List UInt8 := List.replicate 32 0

/-- Two of the default calendars. -/
def calendarA : Str := lit "https://a.pool.opentimestamps.org"

def calendarB : Str := lit "https://b.pool.opentimestamps.org"

/-- A proof with two pending attestations. -/
def twoPending : { detached : Detached Unit // detached.timestamp.Distinct } :=
  ⟨⟨true, twoDigest, .attested (.pending calendarA) (.attested (.pending calendarB) .empty)⟩,
    by decide, List.not_mem_nil, trivial⟩

def twoPendingProof : List UInt8 := proofBytes twoDigest [.pending calendarA, .pending calendarB]

/-- A client whose calendar `a` returns a Bitcoin attestation, and whose calendar `b` gives the
answer. -/
def twoCalendars (answer : Answer Unit) : Client Unit where
  apply _ msg := msg
  merge := Timestamp.union
  deserialize proof := if proof = twoPendingProof then some twoPending else none
  serialize detached := proofBytes detached.digest detached.timestamp.attestations
  whitelisted uri := decide (uri = calendarA ∨ uri = calendarB)
  getTimestamp uri _ := if uri = calendarA then .timestamp (.attested (.bitcoin 358391) .empty) else answer

/-- The client of the sample unites attestations. -/
theorem twoCalendars_mergeUnion (answer : Answer Unit) : (twoCalendars answer).MergeUnion :=
  ⟨fun _ u ht => ht.union u, fun t u _ _ => mem_allAttestations_union t u⟩

/-- Both calendars of the sample are asked about the root. -/
theorem twoCalendars_queries (answer : Answer Unit) :
    (twoCalendars answer).queries twoPending.val.timestamp = [([], calendarA), ([], calendarB)] := by rfl

/-- What calendar `a` returns is new. -/
theorem twoCalendars_new (answer : Answer Unit) : ∃ x,
    (twoCalendars answer).Returned twoDigest ((twoCalendars answer).queries twoPending.val.timestamp) x ∧
    x ∉ (twoCalendars answer).allAttestations twoDigest twoPending.val.timestamp := by
  rw [twoCalendars_queries]
  refine ⟨(twoDigest, .bitcoin 358391),
    ⟨([], calendarA), List.mem_cons_self, .attested (.bitcoin 358391) .empty, rfl, ?_⟩, ?_⟩
  · exact List.mem_cons_self
  · simp [twoPending]

/-- One calendar that is down takes what another has returned. -/
theorem progress_discarded : ¬ (twoCalendars (.raised (lit "timed out"))).Progresses twoPendingProof twoDigest
    twoPending.val := by
  intro h
  obtain ⟨t, -, ht, -⟩ := h (twoCalendars_new _)
  have hfails : (twoCalendars (.raised (lit "timed out"))).upgrade twoPendingProof twoDigest =
      .error (.transient (calendarB ++ lit ": timed out")) := by decide +kernel
  cases hfails.symm.trans ht

end

/-- **Calendar progress is kept when no calendar fails.**  For every proof of the digest, whatever
its tree: if all the calendars that are asked answer, with a tree to merge or with none, and one of
them returns an attestation that is not in the proof, then `upgrade` returns a proof with all
attestations of the old one and of the answers.  If a calendar raises anything else, `upgrade` fails
and returns no proof, whatever the others have returned. -/
theorem calendar_progress (hmerge : client.MergeUnion) {proof digest : List UInt8}
    {detached : { detached : Detached O // detached.timestamp.Distinct }}
    (h : client.validatedDetached proof digest = .ok detached) :
    ((∀ query ∈ client.queries detached.val.timestamp, (client.answer digest query).Answered) →
      client.Progresses proof digest detached.val) ∧
    ((∃ query ∈ client.queries detached.val.timestamp, ¬ (client.answer digest query).Answered) →
      ∃ e, client.upgrade proof digest = .error e ∧ e ≠ .integrity) := by
  have hasked {s : Progress O} (hs : (client.queries detached.val.timestamp).foldlM
      (client.askQuery digest) ⟨detached.val.timestamp, false, []⟩ = .ok s) :=
    (Asked.nil client digest detached.property).foldlM hmerge hs
  rw [Progresses, upgrade, h, ok_bind, upgradeWithClientDefaults,
    askNodes_directlyAttested detached.property]
  constructor
  · rintro hanswered ⟨x, hreturned, hnew⟩
    obtain ⟨s, hs⟩ := exists_foldlM hanswered (s := ⟨detached.val.timestamp, false, []⟩)
    have hdone := hasked hs
    rw [List.nil_append] at hdone
    have hchanged : s.changed = true :=
      hdone.changed.2 ⟨x, (hdone.attestations x).2 (Or.inr hreturned), hnew⟩
    refine ⟨s.timestamp, hdone.distinct, ?_, hdone.attestations⟩
    rw [hs, ok_bind, require_true (hdone.failures.2 hanswered), hchanged]
    rfl
  · rintro ⟨query, hquery, hfails⟩
    cases hs : (client.queries detached.val.timestamp).foldlM
        (client.askQuery digest) ⟨detached.val.timestamp, false, []⟩ with
    | error e =>
      refine ⟨e, rfl, ?_⟩
      rintro rfl
      exact foldlM_ne_integrity hs
    | ok s =>
      have hdone := hasked hs
      rw [List.nil_append] at hdone
      rw [ok_bind, require_false fun hnone => hfails (hdone.failures.1 hnone query hquery)]
      refine ⟨_, rfl, fun hintegrity => ?_⟩
      cases hintegrity

/-- The proof with what calendar `a` has returned, while calendar `b` has nothing. -/
theorem calendar_progress_sample : ∃ t : Timestamp Unit, t.Distinct ∧
    (twoCalendars .notFound).upgrade twoPendingProof twoDigest =
      .ok (some (proofBytes twoDigest t.attestations)) ∧
    proofBytes twoDigest t.attestations =
      proofBytes twoDigest [.bitcoin 358391, .pending calendarA, .pending calendarB] ∧
    ∀ x, x ∈ (twoCalendars .notFound).allAttestations twoDigest t ↔
      x ∈ (twoCalendars .notFound).allAttestations twoDigest twoPending.val.timestamp ∨
        (twoCalendars .notFound).Returned twoDigest
          ((twoCalendars .notFound).queries twoPending.val.timestamp) x := by
  have hvalid : (twoCalendars .notFound).validatedDetached twoPendingProof twoDigest = .ok twoPending := by
    decide +kernel
  have hanswered : ∀ query ∈ (twoCalendars .notFound).queries twoPending.val.timestamp,
      ((twoCalendars .notFound).answer twoDigest query).Answered := by
    rw [twoCalendars_queries, List.forall_mem_cons, List.forall_mem_singleton]
    exact ⟨trivial, trivial⟩
  obtain ⟨t, ht, hupgrade, hall⟩ :=
    (calendar_progress (twoCalendars_mergeUnion .notFound) hvalid).1 hanswered (twoCalendars_new .notFound)
  have hbytes : (twoCalendars .notFound).upgrade twoPendingProof twoDigest = .ok (some
      (proofBytes twoDigest [.bitcoin 358391, .pending calendarA, .pending calendarB])) := by decide +kernel
  exact ⟨t, ht, hupgrade, Option.some.inj (Except.ok.inj (hupgrade.symm.trans hbytes)), hall⟩

/-- **A new Bitcoin attestation of a calendar is what `inspect_proof` finds**, if what is serialized can
be read back. -/
theorem upgrade_inspectProof {proof digest : List UInt8} {detached : Detached O}
    (h : client.Progresses proof digest detached) {msg : List UInt8} {height : ℕ}
    (hreturned : client.Returned digest (client.queries detached.timestamp) (msg, .bitcoin height))
    (hnew : (msg, .bitcoin height) ∉ client.allAttestations digest detached.timestamp)
    (hread : ∀ (t : Timestamp O) (ht : t.Distinct), client.validatedDetached
      (client.serialize { detached with timestamp := t }) digest = .ok ⟨{ detached with timestamp := t }, ht⟩) :
    ∃ upgraded, client.upgrade proof digest = .ok (some upgraded) ∧
      client.inspectProof upgraded digest = .ok true := by
  obtain ⟨t, ht, hupgrade, hall⟩ := h ⟨_, hreturned, hnew⟩
  refine ⟨_, hupgrade, ?_⟩
  rw [inspectProof, hread t ht, ok_bind]
  exact congrArg _ (List.any_eq_true.2 ⟨_, (hall _).2 (Or.inr hreturned), rfl⟩)

end Client

end Upgrade
end Anchor
end Vestrix
