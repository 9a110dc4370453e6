/-
# Stamping a digest

`OpenTimestampsBackend.stamp`: the digest gets a nonce, and what is submitted is the hash of both, the
commitment.  The tree of the proof is that of the commitment below two operations (`wrap`), and stays so
however often the proof is upgraded: an upgrade of the whole is one of the part below the commitment
(`upgradeWithClientDefaults_wrap`).

So the calendars see nothing but the commitment.  What they are asked, from the submission to the last
upgrade, is the same for any two digests and nonces with one commitment (`stamp_blind`).
-/

import Vestrix.Anchor.Upgrade
import Vestrix.Verifier.ProofTree

namespace Vestrix
namespace Anchor
namespace Stamp

open Text Outcome Upgrade

/-! ### Stamping -/

/-- What comes of the submitter: what it has merged into the node of the commitment, or an exception. -/
inductive Submission (O : Type) where
  | merged (timestamp : Timestamp O)
  | configuration
  | transient (message : Str)
  | systemExit
  | raised (message : Str)
  | interrupt

/-- What `stamp` raises. -/
inductive StampError where
  | value
  | configuration
  | transient (message : Str)
  | interrupt
deriving DecidableEq

/-- The client library with the two operations that `stamp` makes. -/
structure Library (O : Type) extends Client O where
  /-- `OpAppend`. -/
  append : List UInt8 → O
  /-- `OpSHA256`. -/
  sha256 : O

namespace Library

variable {O : Type} (library : Library O)

/-- The message that is submitted. -/
def commitment (digest nonce : List UInt8) : List UInt8 :=
  library.apply library.sha256 (library.apply (library.append nonce) digest)

/-- The tree of a proof, from that of its commitment. -/
def wrap (nonce : List UInt8) (timestamp : Timestamp O) : Timestamp O :=
  .branch (library.append nonce) (.branch library.sha256 timestamp .empty) .empty

/-- `OpenTimestampsBackend.stamp`, with what `nonce_factory` returns. -/
def stamp (submitter : List UInt8 → Submission O) (digest nonce : List UInt8) :
    Except StampError (List UInt8) := do
  require (digest.length = 32) .value
  require (nonce.length = 16) .value
  match submitter (library.commitment digest nonce) with
  | .merged timestamp => .ok (library.serialize ⟨true, digest, library.wrap nonce timestamp⟩)
  | .configuration => .error .configuration
  | .transient message => .error (.transient message)
  | .systemExit => .error (.transient (lit "OpenTimestamps calendar quorum failed"))
  | .raised message => .error (.transient (lit "OpenTimestamps submission failed: " ++ message))
  | .interrupt => .error .interrupt

/-- `_submit_with_client_defaults`, with the quorum of the client, its calendars, and what
`create_timestamp` comes to. -/
def submitWithClientDefaults (m : ℤ) (calendarUrls : List Str)
    (createTimestamp : List Str → List UInt8 → Submission O) (commitment : List UInt8) : Submission O :=
  if 0 < m ∧ m ≤ calendarUrls.length then
    match createTimestamp calendarUrls commitment with
    | .systemExit => .transient (lit "OpenTimestamps calendar quorum failed")
    | .raised message => .transient (lit "OpenTimestamps client unavailable: " ++ message)
    | submission => submission
  else .configuration

/-- The library, with what the calendars answer. -/
def asking (getTimestamp : Str → List UInt8 → Answer O) : Library O :=
  { library with getTimestamp := getTimestamp }

section

variable [DecidableEq O]

/-- What the calendars are asked in an upgrade, unless one of them ends it. -/
def questions (root : List UInt8) (t : Timestamp O) : List (Str × List UInt8) :=
  (library.queries t).map fun query => (query.2, library.message root query.1)

/-- The tree of a proof after an upgrade, which leaves the proof where it fails or finds nothing. -/
def upgraded (root : List UInt8) (answers : Str → List UInt8 → Answer O) (t : Timestamp O) : Timestamp O :=
  match (library.asking answers).upgradeWithClientDefaults root t with
  | .ok (true, t) => t
  | _ => t

/-- The tree of a proof after upgrades one after another. -/
def lifetime (root : List UInt8) (upgrades : List (Str → List UInt8 → Answer O)) (t : Timestamp O) :
    Timestamp O :=
  upgrades.foldl (fun t answers => library.upgraded root answers t) t

/-- What the calendars are asked in upgrades one after another. -/
def conversation (root : List UInt8) :
    List (Str → List UInt8 → Answer O) → Timestamp O → List (List (Str × List UInt8))
  | [], _ => []
  | answers :: upgrades, t =>
    library.questions root t :: conversation root upgrades (library.upgraded root answers t)

end

variable {library} {submitter : List UInt8 → Submission O} {digest nonce proof : List UInt8} {t : Timestamp O}
  {path : List O}

/-- **`stamp` returns the tree that the submitter has merged**, below the nonce and the hash, for a
digest of 32 and a nonce of 16 bytes. -/
theorem stamp_eq_ok : library.stamp submitter digest nonce = .ok proof ↔
    digest.length = 32 ∧ nonce.length = 16 ∧ ∃ t, submitter (library.commitment digest nonce) = .merged t ∧
      library.serialize ⟨true, digest, library.wrap nonce t⟩ = proof := by
  simp only [stamp, bind_eq_ok, require_eq_ok, exists_const]
  refine and_congr_right fun _ => and_congr_right fun _ => ?_
  cases submitter (library.commitment digest nonce) with
  | merged t =>
    refine ⟨fun h => ⟨t, rfl, Except.ok.inj h⟩, ?_⟩
    rintro ⟨t, ht, rfl⟩
    cases ht
    rfl
  | configuration | transient message | systemExit | raised message | interrupt =>
    exact ⟨fun h => (by cases h), fun ⟨_, h, _⟩ => by cases h⟩

/-! ### The tree below the commitment -/

/-- The path of a node of the commitment's tree, in the whole tree. -/
def below (library : Library O) (nonce : List UInt8) (path : List O) : List O :=
  library.append nonce :: library.sha256 :: path

/-- Below a node with one operation and no attestation are the attested nodes of its child. -/
theorem directlyAttested_branch (op : O) (child : Timestamp O) :
    (Timestamp.branch op child .empty).directlyAttested = child.directlyAttested.map (op :: ·) :=
  (Timestamp.descendants_branch op child .empty).trans (List.append_nil _)

/-- The directly attested nodes of the whole are those of the part. -/
theorem directlyAttested_wrap :
    (library.wrap nonce t).directlyAttested = t.directlyAttested.map (library.below nonce) := by
  rw [wrap, directlyAttested_branch, directlyAttested_branch, List.map_map]
  rfl

/-- A node of the part has the same message in the whole. -/
@[simp] theorem message_below : library.message digest (library.below nonce path) =
    library.message (library.commitment digest nonce) path := rfl

/-- The attestations of the whole are those of the part. -/
@[simp] theorem allAttestations_wrap : library.allAttestations digest (library.wrap nonce t) =
    library.allAttestations (library.commitment digest nonce) t := by
  simp only [wrap, Client.allAttestations, List.append_nil, commitment]

variable [DecidableEq O]

/-- The nodes of the part are found behind the two operations. -/
@[simp] theorem node_wrap : (library.wrap nonce t).node (library.below nonce path) = t.node path := by
  simp only [wrap, below, Timestamp.node, Timestamp.child, if_true]

/-- A change of a node of the part is one of the whole. -/
@[simp] theorem modify_wrap (f : Timestamp O → Timestamp O) :
    (library.wrap nonce t).modify f (library.below nonce path) = library.wrap nonce (t.modify f path) := by
  simp only [wrap, below, Timestamp.modify, Timestamp.update, if_true]

/-- What has come of the loops in the whole tree, from what has in the part. -/
def wrapProgress (library : Library O) (nonce : List UInt8) (s : Progress O) : Progress O :=
  { s with timestamp := library.wrap nonce s.timestamp }

/-- **A query in the whole is one in the part.** -/
theorem ask_wrap (s : Progress O) (uri : Str) :
    library.ask digest (library.below nonce path) (library.wrapProgress nonce s) uri =
      (library.ask (library.commitment digest nonce) path s uri).map (library.wrapProgress nonce) := by
  rw [Client.ask, Client.ask, message_below]
  cases library.getTimestamp uri (library.message (library.commitment digest nonce) path) with
  | timestamp upgraded =>
    simp only [wrapProgress, modify_wrap, allAttestations_wrap]
    rfl
  | notFound | raised message | systemExit | interrupt => rfl

/-- The calendars of a node are asked about the same message in the whole and in the part. -/
theorem askNode_wrap (s : Progress O) (as : List Attestation) :
    library.askNode digest (library.below nonce path) (library.wrapProgress nonce s) as =
      (library.askNode (library.commitment digest nonce) path s as).map (library.wrapProgress nonce) := by
  induction as generalizing s with
  | nil => rfl
  | cons a as ih =>
    cases a with
    | pending uri =>
      rw [Client.askNode, Client.askNode]
      split_ifs with h
      · rw [ask_wrap]
        cases library.ask (library.commitment digest nonce) path s uri with
        | error e => rfl
        | ok s => exact ih s
      · exact ih s
    | bitcoin height | unknown tag payload => exact ih s

/-- The nodes of the whole are asked about as those of the part are. -/
theorem askNodes_wrap (s : Progress O) (paths : List (List O)) :
    library.askNodes digest (library.wrapProgress nonce s) (paths.map (library.below nonce)) =
      (library.askNodes (library.commitment digest nonce) s paths).map (library.wrapProgress nonce) := by
  induction paths generalizing s with
  | nil => rfl
  | cons path paths ih =>
    rw [List.map_cons, Client.askNodes, Client.askNodes]
    have hnode : ((library.wrapProgress nonce s).timestamp.node (library.below nonce path)) =
        s.timestamp.node path := node_wrap
    rw [hnode, askNode_wrap]
    cases library.askNode (library.commitment digest nonce) path s (s.timestamp.node path).attestations with
    | error e => rfl
    | ok s => exact ih s

/-- **An upgrade of the whole is one of the part below the commitment.** -/
theorem upgradeWithClientDefaults_wrap :
    library.upgradeWithClientDefaults digest (library.wrap nonce t) =
      (library.upgradeWithClientDefaults (library.commitment digest nonce) t).map
        fun r => (r.1, library.wrap nonce r.2) := by
  have h : library.askNodes digest ⟨library.wrap nonce t, false, []⟩
      (t.directlyAttested.map (library.below nonce)) =
        (library.askNodes (library.commitment digest nonce) ⟨t, false, []⟩ t.directlyAttested).map
          (library.wrapProgress nonce) := askNodes_wrap ⟨t, false, []⟩ _
  rw [Client.upgradeWithClientDefaults, Client.upgradeWithClientDefaults, directlyAttested_wrap, h]
  cases library.askNodes (library.commitment digest nonce) ⟨t, false, []⟩ t.directlyAttested with
  | error e => rfl
  | ok s =>
    rw [Except.map, ok_bind, ok_bind]
    by_cases hfailures : s.failures = []
    · rw [require_true hfailures, require_true (p := (library.wrapProgress nonce s).failures = []) hfailures]
      rfl
    · rw [require_false hfailures,
        require_false (p := (library.wrapProgress nonce s).failures = []) hfailures]
      rfl

/-- The tree after an upgrade of the whole is that of the part, below the two operations. -/
theorem upgraded_wrap (answers : Str → List UInt8 → Answer O) :
    library.upgraded digest answers (library.wrap nonce t) =
      library.wrap nonce (library.upgraded (library.commitment digest nonce) answers t) := by
  have h : (library.asking answers).upgradeWithClientDefaults digest (library.wrap nonce t) =
      ((library.asking answers).upgradeWithClientDefaults (library.commitment digest nonce) t).map
        fun r => (r.1, library.wrap nonce r.2) :=
    upgradeWithClientDefaults_wrap
  rw [upgraded, upgraded, h]
  cases (library.asking answers).upgradeWithClientDefaults (library.commitment digest nonce) t with
  | error e => rfl
  | ok r =>
    obtain ⟨changed, t'⟩ := r
    cases changed <;> rfl

/-- So is the tree after any number of upgrades. -/
theorem lifetime_wrap (upgrades : List (Str → List UInt8 → Answer O)) :
    library.lifetime digest upgrades (library.wrap nonce t) =
      library.wrap nonce (library.lifetime (library.commitment digest nonce) upgrades t) := by
  induction upgrades generalizing t with
  | nil => rfl
  | cons answers upgrades ih =>
    rw [lifetime, List.foldl_cons, upgraded_wrap, ← lifetime, ih]
    rfl

/-- The whole tree is asked about as the part is. -/
theorem questions_wrap : library.questions digest (library.wrap nonce t) =
    library.questions (library.commitment digest nonce) t := by
  rw [questions, questions, Client.queries, Client.queries, directlyAttested_wrap, List.flatMap_map]
  simp only [List.map_flatMap, List.map_map, Function.comp_def, node_wrap, message_below]

/-- In all upgrades of the whole the calendars are asked what they are asked for the part. -/
theorem conversation_wrap (upgrades : List (Str → List UInt8 → Answer O)) :
    library.conversation digest upgrades (library.wrap nonce t) =
      library.conversation (library.commitment digest nonce) upgrades t := by
  induction upgrades generalizing t with
  | nil => rfl
  | cons answers upgrades ih => rw [conversation, conversation, questions_wrap, upgraded_wrap, ih]

/-- **`upgraded` is what `upgrade` makes of the tree of a proof**, so that what is shown of a lifetime of upgrades
is about the calls of `upgrade` on the files that it returns: it returns the new tree, or the tree stays. -/
theorem upgrade_eq_upgraded {detached : { detached : Detached O // detached.timestamp.Distinct }}
    (h : library.validatedDetached proof digest = .ok detached) (answers : Str → List UInt8 → Answer O) :
    (∀ proof', (library.asking answers).upgrade proof digest = .ok (some proof') →
      proof' = library.serialize { detached.val with
        timestamp := library.upgraded digest answers detached.val.timestamp }) ∧
    ((∀ proof', (library.asking answers).upgrade proof digest ≠ .ok (some proof')) →
      library.upgraded digest answers detached.val.timestamp = detached.val.timestamp) := by
  have hread : (library.asking answers).validatedDetached proof digest = .ok detached := h
  rw [upgraded, Client.upgrade, hread, ok_bind]
  cases (library.asking answers).upgradeWithClientDefaults digest detached.val.timestamp with
  | error e => exact ⟨fun _ h => (by cases h), fun _ => rfl⟩
  | ok r =>
    obtain ⟨changed, t⟩ := r
    cases changed with
    | false => exact ⟨fun _ h => (by cases h), fun _ => rfl⟩
    | true => exact ⟨fun _ h => (Option.some.inj (Except.ok.inj h)).symm, fun h => absurd rfl (h _)⟩

omit [DecidableEq O] in
/-- An attestation of a tree is one of the message of a node. -/
theorem message_of_mem_allAttestations {msg : List UInt8} {x : List UInt8 × Attestation}
    (h : x ∈ library.allAttestations msg t) : ∃ path, x.1 = library.message msg path := by
  induction t generalizing msg with
  | empty => cases h
  | attested a rest ih =>
    rcases List.mem_cons.1 h with rfl | h
    · exact ⟨[], rfl⟩
    · exact ih h
  | branch op child rest ihchild ihrest =>
    rcases List.mem_append.1 h with h | h
    · obtain ⟨path, hpath⟩ := ihchild h
      exact ⟨op :: path, hpath⟩
    · exact ihrest h

/-- A calendar is asked about the message of a node. -/
theorem message_of_mem_conversation {root : List UInt8} {upgrades : List (Str → List UInt8 → Answer O)}
    {asked : List (Str × List UInt8)} (h : asked ∈ library.conversation root upgrades t)
    {q : Str × List UInt8} (hq : q ∈ asked) : ∃ path, q.2 = library.message root path := by
  induction upgrades generalizing t with
  | nil => cases h
  | cons answers upgrades ih =>
    rcases List.mem_cons.1 h with rfl | h
    · obtain ⟨query, -, rfl⟩ := List.mem_map.1 hq
      exact ⟨query.1, rfl⟩
    · exact ih h

/-- **The calendars see the commitment only.**  A proof that is stamped has the tree of its commitment, below
the nonce and the hash; however often it is upgraded, with whatever answers, it keeps that form, and the
calendars are asked what they would be asked about the commitment alone: neither the digest nor the nonce
makes a difference to them, and what they attest is derived from the commitment. -/
theorem stamp_blind (h : library.stamp submitter digest nonce = .ok proof) :
    ∃ t, submitter (library.commitment digest nonce) = .merged t ∧
      proof = library.serialize ⟨true, digest, library.wrap nonce t⟩ ∧
      ∀ upgrades, library.conversation digest upgrades (library.wrap nonce t) =
          library.conversation (library.commitment digest nonce) upgrades t ∧
        (∀ asked ∈ library.conversation digest upgrades (library.wrap nonce t), ∀ q ∈ asked,
          ∃ path, q.2 = library.message (library.commitment digest nonce) path) ∧
        library.lifetime digest upgrades (library.wrap nonce t) =
          library.wrap nonce (library.lifetime (library.commitment digest nonce) upgrades t) ∧
        ∀ x ∈ library.allAttestations digest (library.lifetime digest upgrades (library.wrap nonce t)),
          ∃ path, x.1 = library.message (library.commitment digest nonce) path := by
  obtain ⟨-, -, t, hsubmitted, rfl⟩ := stamp_eq_ok.1 h
  refine ⟨t, hsubmitted, rfl, fun upgrades => ?_⟩
  refine ⟨conversation_wrap upgrades, fun asked hasked q hq => ?_, lifetime_wrap upgrades, fun x hx => ?_⟩
  · rw [conversation_wrap] at hasked
    exact message_of_mem_conversation hasked hq
  · rw [lifetime_wrap, allAttestations_wrap] at hx
    exact message_of_mem_allAttestations hx

section

/-- A library whose operations are those of proofs, but for a hash that is zero. -/
def sampleLibrary : Library Verifier.Operation where
  apply op msg := op.apply Verifier.zeroDigest msg
  merge := Timestamp.union
  deserialize _ := none
  serialize detached := Verifier.magic ++ 1 :: 8 :: detached.digest
  whitelisted uri := decide (uri = lit "a")
  getTimestamp _ _ := .notFound
  append := .append
  sha256 := .sha256

/-- A calendar that has the attestation of a block. -/
def sampleAnswers (_ : Str) (_ : List UInt8) : Answer Verifier.Operation :=
  .timestamp (.attested (.bitcoin 358391) .empty)

/-- A submission to two calendars, of which one is in the whitelist, and two upgrades. -/
theorem stamp_blind_sample :
    sampleLibrary.conversation (List.replicate 32 7) [sampleAnswers, sampleAnswers]
        (sampleLibrary.wrap (List.replicate 16 9)
          (.attested (.pending (lit "a")) (.attested (.pending (lit "b")) .empty))) =
      [[(lit "a", List.replicate 32 0)], [(lit "a", List.replicate 32 0)]] := by
  have hstamp : sampleLibrary.stamp
      (fun _ => .merged (.attested (.pending (lit "a")) (.attested (.pending (lit "b")) .empty)))
      (List.replicate 32 7) (List.replicate 16 9) =
        .ok (Verifier.magic ++ 1 :: 8 :: List.replicate 32 7) := by decide +kernel
  obtain ⟨t, ht, -, hblind⟩ := stamp_blind hstamp
  cases ht
  rw [(hblind [sampleAnswers, sampleAnswers]).1]
  decide +kernel

end

end Library

end Stamp
end Anchor
end Vestrix
