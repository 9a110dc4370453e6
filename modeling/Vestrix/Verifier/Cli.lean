/-
# The command line

`main.rs`: what `vestrix-verify` prints and how it ends.  `clap` is left out, so that a command is what it
returns, and a file is its bytes or cannot be read.  `VerifyingKey::from_bytes` is a parameter, and so is the
RPC client of an endpoint.

The exit status says that a chain is valid just where the key file spells one key and `verify_reader` accepts
the chain under it (`chain_command`), and every other end is a failure without output (`main_ends`).  The line
that is printed tells the report (`chainMessage_injective`, `anchorMessage_injective`).
-/

import Vestrix.Raises
import Vestrix.Text.Spelling
import Vestrix.Verifier.Anchor
import Vestrix.Verifier.Faults

namespace Vestrix
namespace Verifier
namespace Cli

open Text Rounding Json Outcome Record

/-- `Command`. -/
inductive Command where
  | chain (chain pubkey : List Char)
  | anchor (chain otsProof rpcUrl : List Char) (rpcCookie : Option (List Char))
deriving DecidableEq

/-- `Auth` of the RPC client. -/
inductive Auth where
  | cookieFile (path : List Char)
  | userPass (user password : List Char)
deriving DecidableEq

/-- What the program finds where it runs. -/
structure Host where
  /-- `fs::read`. -/
  read : List Char → Option (List UInt8)
  /-- `std::env::var`. -/
  var : List Char → Option (List Char)
  /-- `Client::new_with_auth`. -/
  newWithAuth : List Char → Auth → Option Node

/-- The texts that `run` fails with. -/
inductive Failure where
  | cannotReadKey
  | keyNotText
  | invalidKey (cause : Reason)
  | noPoint
  | cannotOpenChain
  | chain (cause : ChainError)
  | rpcConfiguration
  | cannotReadTip
  | cannotReadProof
  | anchor (cause : AnchorError)
deriving DecidableEq

/-- How the process ends. -/
structure Exit where
  status : ℕ
  stdout : List Char
deriving DecidableEq

/-! ### The messages -/

/-- The tip in the message of `Command::Chain`. -/
def tipText : Option ChainTip → List Char
  | none => "none (empty chain)".toList
  | some tip => "seq ".toList ++ numeral tip.seq ++ ", ".toList ++ tip.recordHash

/-- The message of `Command::Chain`. -/
def chainMessage (report : VerificationReport) : List Char :=
  "chain valid: ".toList ++ numeral report.records ++ " record(s); tip ".toList ++ tipText report.tip

/-- `BlockHash::to_string`: the bytes in reverse. -/
def blockHashText (hash : List UInt8) : List Char := hex hash.reverse

/-- The message of `Command::Anchor`. -/
def anchorMessage (report : AnchorReport) : List Char :=
  "anchor valid: chain tip seq ".toList ++ numeral report.seq ++ "; Bitcoin block ".toList ++
    blockHashText report.blockHash ++ " at height ".toList ++ numeral report.height ++ "; ".toList ++
    numeral report.confirmations ++ " confirmations".toList

/-! ### The program -/

/-- `read_public_key`, of the bytes of the file. -/
def readPublicKey (bytes : List UInt8) : Except Failure (List UInt8) :=
  if bytes.length = 32 then .ok bytes
  else do
    let text ← orError .keyNotText (fromUtf8 bytes)
    let text := if text.getLast? = some '\n' then text.dropLast else text
    (decodeHexArray 32 "public key".toList text).mapError .invalidKey

/-- The credentials in `rpc_client`. -/
def rpcAuth (host : Host) : Option (List Char) → Except Failure Auth
  | some path => .ok (.cookieFile path)
  | none => do
    let user ← orError .rpcConfiguration (host.var "VESTRIX_BITCOIN_RPC_USER".toList)
    let password ← orError .rpcConfiguration (host.var "VESTRIX_BITCOIN_RPC_PASSWORD".toList)
    return .userPass user password

/-- `rpc_client`. -/
def rpcClient (host : Host) (url : List Char) (cookie : Option (List Char)) : Except Failure Node := do
  let auth ← rpcAuth host cookie
  orError .rpcConfiguration (host.newWithAuth url auth)

section

variable (sha256 : Sha256) (fromBytes : List UInt8 → Option (List UInt8 → List UInt8 → Bool))
  (readFloat : FloatReader) (host : Host)

/-- `verify_path`. -/
def verifyPath (chain : List Char) (publicKey : List UInt8) : Except Failure VerificationReport := do
  let key ← orError .noPoint (fromBytes publicKey)
  let file ← orError .cannotOpenChain (host.read chain)
  (verifyReader sha256 key readFloat file).mapError .chain

/-- `verify_anchor`, of files that may not be there. -/
def verifyAnchorPath (chain otsProof : List Char) (node : Node) : Except Failure AnchorReport := do
  let file ← orError .cannotReadTip (host.read chain)
  let tip ← (readTipWithoutAuthentication readFloat file).mapError (.anchor ∘ .tip)
  let tipBytes ← (decodeHexArray 32 "record_hash".toList tip.recordHash).mapError (.anchor ∘ .tipHash)
  let proof ← orError .cannotReadProof (host.read otsProof)
  let attestations ← (inspectProof sha256 proof tipBytes).mapError (.anchor ∘ .proof)
  let tipHeight ← node.getBlockCount.mapError (.anchor ∘ .getBlockCount)
  (verifyAttestations node tip.seq tipHeight none attestations.zipIdx).mapError .anchor

/-- `run`. -/
def run : Command → Except Failure (List Char)
  | .chain chain pubkey => do
    let publicKey ← orError .cannotReadKey (host.read pubkey) >>= readPublicKey
    let report ← verifyPath sha256 fromBytes readFloat host chain publicKey
    return chainMessage report
  | .anchor chain otsProof rpcUrl rpcCookie => do
    let client ← rpcClient host rpcUrl rpcCookie
    let report ← verifyAnchorPath sha256 readFloat host chain otsProof client
    return anchorMessage report

/-- `main`, which ends with another status where `run` panics. -/
def main (command : Command) : Exit :=
  match run sha256 fromBytes readFloat host command with
  | .ok message => ⟨0, message ++ ['\n']⟩
  | .error (.anchor .panic) => ⟨101, []⟩
  | .error _ => ⟨1, []⟩

end

/-! ### The key file -/

/-- A key file spells a key: its bytes, or their digits on a line. -/
inductive SpellsKey (key : List UInt8) : List UInt8 → Prop
  | raw : SpellsKey key key
  | digits : SpellsKey key (utf8 (hex key))
  | line : SpellsKey key (utf8 (hex key ++ ['\n']))

/-- Hexadecimal digits are ASCII. -/
theorem ascii_of_isHex {n : ℕ} {t : List Char} (h : IsHex n t) : ∀ c ∈ t, c.toNat < 0x80 :=
  fun c hc => toNat_lt_of_isLowerHex (h.2 c hc)

/-- A key in hexadecimal has two bytes for each of its own. -/
theorem length_utf8_hex (key : List UInt8) : (utf8 (hex key)).length = 2 * key.length := by
  rw [utf8_ascii (ascii_of_isHex (isHex_hex rfl)), List.length_map, length_hex]

/-- **A key file is read as the key that it spells.** -/
theorem readPublicKey_eq_ok {bytes key : List UInt8} :
    readPublicKey bytes = .ok key ↔ key.length = 32 ∧ SpellsKey key bytes := by
  constructor
  · intro h
    rw [readPublicKey] at h
    split_ifs at h with hraw
    · obtain rfl := Except.ok.inj h
      exact ⟨hraw, .raw⟩
    · obtain ⟨text, htext, h⟩ := bind_eq_ok.1 h
      obtain ⟨hhex, hkey⟩ := decodeHexArray_eq_ok.1 (mapError_eq_ok.1 h)
      have hspelled := hex_of_fromHex hhex.2 hkey
      have hlen : key.length = 32 := by
        have hdigits := hhex.1
        rw [← hspelled, length_hex] at hdigits
        omega
      refine ⟨hlen, ?_⟩
      rw [orError_eq_ok] at htext
      split_ifs at hspelled with hlast
      · obtain ⟨front, rfl⟩ := List.getLast?_eq_some_iff.1 hlast
        rw [List.dropLast_concat] at hspelled
        subst hspelled
        rw [← utf8_of_fromUtf8 htext (List.forall_mem_append.2
          ⟨ascii_of_isHex (isHex_hex rfl), List.forall_mem_singleton.2 (by decide)⟩)]
        exact .line
      · subst hspelled
        rw [← utf8_of_fromUtf8 htext (ascii_of_isHex (isHex_hex rfl))]
        exact .digits
  · rintro ⟨hlen, hspells⟩
    have hhex : decodeHexArray 32 "public key".toList (hex key) = .ok key :=
      decodeHexArray_eq_ok.2 ⟨isHex_hex hlen, fromHex_hex key⟩
    cases hspells with
    | raw => exact if_pos hlen
    | digits =>
      have hlast : (hex key).getLast? ≠ some '\n' := fun h =>
        absurd (isLowerHex_of_mem_hex (List.mem_of_getLast? h)) (by decide)
      rw [readPublicKey, if_neg (by rw [length_utf8_hex]; omega), fromUtf8_utf8, orError, ok_bind]
      dsimp only
      rw [if_neg hlast, hhex]
      rfl
    | line =>
      rw [readPublicKey, if_neg (by rw [utf8_append, List.length_append, length_utf8_hex]; omega),
        fromUtf8_utf8, orError, ok_bind]
      dsimp only
      rw [if_pos List.getLast?_concat, List.dropLast_concat, hhex]
      rfl

/-! ### What the messages tell -/

/-- A run of characters and what comes after a separator can be told apart. -/
theorem run_inj {p : Char → Bool} {xs ys separator s t : List Char} (hxs : ∀ c ∈ xs, p c = true)
    (hys : ∀ c ∈ ys, p c = true) (hseparator : separator.head?.map p = some false)
    (h : xs ++ (separator ++ s) = ys ++ (separator ++ t)) : xs = ys ∧ s = t := by
  obtain ⟨c, hc, hpc⟩ := Option.map_eq_some_iff.1 hseparator
  obtain ⟨rest, rfl⟩ := List.head?_eq_some_iff.1 hc
  have hrun := congrArg (List.takeWhile p) h
  rw [List.cons_append, List.cons_append, takeWhile_append_cons hxs hpc,
    takeWhile_append_cons hys hpc] at hrun
  subst hrun
  exact ⟨rfl, List.append_cancel_left (List.append_cancel_left h)⟩

/-- A numeral is read up to what follows it, where this does not begin with a digit. -/
theorem numeral_run_inj {m n : ℕ} {separator s t : List Char}
    (hseparator : separator.head?.map Char.isDigit = some false)
    (h : numeral m ++ (separator ++ s) = numeral n ++ (separator ++ t)) : m = n ∧ s = t := by
  obtain ⟨hnumeral, hrest⟩ := run_inj (allDigits_numeral m) (allDigits_numeral n) hseparator h
  exact ⟨numeral_injective hnumeral, hrest⟩

/-- The text of a tip has its number and its digest. -/
theorem tipText_some (tip : ChainTip) :
    tipText (some tip) = "seq ".toList ++ (numeral tip.seq ++ (", ".toList ++ tip.recordHash)) := by
  -- an equation of the definition would evaluate the literals
  unfold tipText
  simp only [List.append_assoc]

/-- The text of a tip begins with `s`. -/
theorem head?_tipText_some (tip : ChainTip) : (tipText (some tip)).head? = some 's' := by
  rw [tipText_some, List.head?_append, show "seq ".toList.head? = some 's' by decide, Option.some_or]

/-- The text for no tip begins with `n`. -/
theorem head?_tipText_none : (tipText none).head? = some 'n' := by decide

/-- The tip is read from its text. -/
theorem tipText_injective : Function.Injective tipText := fun a b h => by
  have hhead := congrArg List.head? h
  cases a with
  | none =>
    cases b with
    | none => rfl
    | some t =>
      rw [head?_tipText_none, head?_tipText_some] at hhead
      cases hhead
  | some s =>
    cases b with
    | none =>
      rw [head?_tipText_none, head?_tipText_some] at hhead
      cases hhead
    | some t =>
      rw [tipText_some, tipText_some] at h
      obtain ⟨hseq, hhash⟩ := numeral_run_inj (by decide) (List.append_cancel_left h)
      exact congrArg some (congrArg₂ ChainTip.mk hseq hhash)

/-- The line of a chain has its number of records and its tip. -/
theorem chainMessage_eq (report : VerificationReport) : chainMessage report =
    "chain valid: ".toList ++
      (numeral report.records ++ (" record(s); tip ".toList ++ tipText report.tip)) := by
  unfold chainMessage
  simp only [List.append_assoc]

/-- **The message of `Command::Chain` tells the report.** -/
theorem chainMessage_injective : Function.Injective chainMessage := fun a b h => by
  rw [chainMessage_eq, chainMessage_eq] at h
  obtain ⟨hrecords, htip⟩ := numeral_run_inj (by decide) (List.append_cancel_left h)
  exact congrArg₂ VerificationReport.mk hrecords (tipText_injective htip)

/-- A block hash is written in lower-case hexadecimal. -/
theorem isLowerHex_of_mem_blockHashText {hash : List UInt8} : ∀ c ∈ blockHashText hash, isLowerHex c = true :=
  fun _ hc => isLowerHex_of_mem_hex hc

/-- The line of an anchor has the tip, the block, its height and the confirmations. -/
theorem anchorMessage_eq (report : AnchorReport) : anchorMessage report =
    "anchor valid: chain tip seq ".toList ++ (numeral report.seq ++ ("; Bitcoin block ".toList ++
      (blockHashText report.blockHash ++ (" at height ".toList ++ (numeral report.height ++
        ("; ".toList ++ (numeral report.confirmations ++ " confirmations".toList))))))) := by
  unfold anchorMessage
  simp only [List.append_assoc]

/-- **The message of `Command::Anchor` tells the report.** -/
theorem anchorMessage_injective : Function.Injective anchorMessage := fun a b h => by
  rw [anchorMessage_eq, anchorMessage_eq] at h
  obtain ⟨hseq, h₁⟩ := numeral_run_inj (by decide) (List.append_cancel_left h)
  obtain ⟨hhash, h₂⟩ := run_inj isLowerHex_of_mem_blockHashText isLowerHex_of_mem_blockHashText (by decide) h₁
  obtain ⟨hheight, h₃⟩ := numeral_run_inj (by decide) h₂
  have hconfirmations := numeral_injective (List.append_cancel_right h₃)
  have hblock := List.reverse_injective (hex_injective hhash)
  cases a
  cases b
  rw [AnchorReport.mk.injEq]
  exact ⟨hseq, hheight, hblock, hconfirmations⟩

/-! ### Running it -/

section

variable {sha256 : Sha256} {fromBytes : List UInt8 → Option (List UInt8 → List UInt8 → Bool)}
  {readFloat : FloatReader} {host : Host} {printed : List Char}

/-- The exit status is 0 just if the command succeeds, and then its message is printed. -/
theorem main_eq_zero {command : Command} :
    main sha256 fromBytes readFloat host command = ⟨0, printed⟩ ↔ ∃ message,
      run sha256 fromBytes readFloat host command = .ok message ∧ printed = message ++ ['\n'] := by
  rw [main]
  split
  · rename_i message hrun
    rw [hrun, Exit.mk.injEq]
    constructor
    · rintro ⟨-, rfl⟩
      exact ⟨message, rfl, rfl⟩
    · rintro ⟨message', hmessage, rfl⟩
      exact ⟨rfl, by rw [Except.ok.inj hmessage]⟩
  all_goals
    rename_i hrun
    constructor
    · intro h
      cases h
    · rintro ⟨message, hmessage, -⟩
      rw [hmessage] at hrun
      cases hrun

/-- `chain` succeeds just if the key can be read and the verifier accepts the file. -/
theorem run_chain_eq_ok {chain pubkey message : List Char} :
    run sha256 fromBytes readFloat host (.chain chain pubkey) = .ok message ↔
      ∃ keyFile key verifyStrict file report, host.read pubkey = some keyFile ∧
        (key.length = 32 ∧ SpellsKey key keyFile) ∧ fromBytes key = some verifyStrict ∧
        host.read chain = some file ∧ verifyReader sha256 verifyStrict readFloat file = .ok report ∧
        message = chainMessage report := by
  simp only [run, verifyPath, bind_eq_ok, orError_eq_ok, mapError_eq_ok, readPublicKey_eq_ok]
  constructor
  · rintro ⟨key, ⟨keyFile, hread, hkey⟩, report, ⟨verifyStrict, hpoint, file, hfile, hreport⟩, h⟩
    exact ⟨keyFile, key, verifyStrict, file, report, hread, hkey, hpoint, hfile, hreport,
      (Except.ok.inj h).symm⟩
  · rintro ⟨keyFile, key, verifyStrict, file, report, hread, hkey, hpoint, hfile, hreport, rfl⟩
    exact ⟨key, ⟨keyFile, hread, hkey⟩, report, ⟨verifyStrict, hpoint, file, hfile, hreport⟩, rfl⟩

/-- `anchor` succeeds just if the files can be read, and the proof is valid for the node. -/
theorem run_anchor_eq_ok {chain otsProof rpcUrl message : List Char} {rpcCookie : Option (List Char)} :
    run sha256 fromBytes readFloat host (.anchor chain otsProof rpcUrl rpcCookie) = .ok message ↔
      ∃ client file proof report, rpcClient host rpcUrl rpcCookie = .ok client ∧
        host.read chain = some file ∧ host.read otsProof = some proof ∧
        verifyAnchor sha256 readFloat file proof client = .ok report ∧ message = anchorMessage report := by
  simp only [run, verifyAnchorPath, verifyAnchor_eq_ok, bind_eq_ok, orError_eq_ok, mapError_eq_ok]
  constructor
  · rintro ⟨client, hclient, report,
      ⟨file, hfile, tip, htip, digest, hdigest, proof, hproof, as, has, tipHeight, hcount, hreport⟩, h⟩
    exact ⟨client, file, proof, report, hclient, hfile, hproof,
      ⟨tip, digest, as, tipHeight, htip, hdigest, has, hcount, hreport⟩, (Except.ok.inj h).symm⟩
  · rintro ⟨client, file, proof, report, hclient, hfile, hproof,
      ⟨tip, digest, as, tipHeight, htip, hdigest, has, hcount, hreport⟩, rfl⟩
    exact ⟨client, hclient, report,
      ⟨file, hfile, tip, htip, digest, hdigest, proof, hproof, as, has, tipHeight, hcount, hreport⟩, rfl⟩

/-- **When the program says that a chain is valid.**  The key file spells one key. -/
theorem chain_command {chain pubkey : List Char} :
    main sha256 fromBytes readFloat host (.chain chain pubkey) = ⟨0, printed⟩ ↔
      ∃ keyFile key verifyStrict file report, host.read pubkey = some keyFile ∧
        (∀ key', key'.length = 32 ∧ SpellsKey key' keyFile ↔ key' = key) ∧
        fromBytes key = some verifyStrict ∧ host.read chain = some file ∧
        verifyReader sha256 verifyStrict readFloat file = .ok report ∧
        printed = chainMessage report ++ ['\n'] := by
  rw [main_eq_zero]
  constructor
  · rintro ⟨message, hrun, rfl⟩
    obtain ⟨keyFile, key, verifyStrict, file, report, hread, hkey, hpoint, hfile, hreport, rfl⟩ :=
      run_chain_eq_ok.1 hrun
    refine ⟨keyFile, key, verifyStrict, file, report, hread, fun key' => ⟨fun hkey' => ?_, ?_⟩, hpoint, hfile,
      hreport, rfl⟩
    · exact Except.ok.inj ((readPublicKey_eq_ok.2 hkey').symm.trans (readPublicKey_eq_ok.2 hkey))
    · rintro rfl
      exact hkey
  · rintro ⟨keyFile, key, verifyStrict, file, report, hread, hkey, hpoint, hfile, hreport, rfl⟩
    exact ⟨_, run_chain_eq_ok.2
      ⟨keyFile, key, verifyStrict, file, report, hread, (hkey key).2 rfl, hpoint, hfile, hreport, rfl⟩, rfl⟩

/-! ### How it ends -/

/-- The tip of a report is the last one of the records, and the one that is read from the end. -/
theorem readTip_of_tip {verifyStrict : List UInt8 → List UInt8 → Bool} {file : List UInt8}
    {report : VerificationReport} {tip : ChainTip}
    (h : verifyReader sha256 verifyStrict readFloat file = .ok report) (htip : report.tip = some tip) :
    readTipWithoutAuthentication readFloat file = .ok tip ∧
      report.records = tip.seq + 1 ∧ ∃ recordBytes, tip.recordHash = sha256.hexdigest recordBytes := by
  have hne : file ≠ [] := by
    rintro rfl
    obtain rfl := Except.ok.inj h
    cases htip
  obtain ⟨object, line, _, _, recordHash, recordBytes, hlast, hline, hvalid, hsome⟩ := verifyReader_tip h hne
  obtain rfl := Option.some.inj (htip.symm.trans hsome)
  have hlines := List.length_pos_iff.2 (physicalLines_ne_nil hne)
  refine ⟨readTip_eq_ok.2 ⟨object, line, hlast, hline, asU64_of_integerField hvalid.seq_eq,
    hvalid.recordHash_eq⟩, ?_, recordBytes, hvalid.hash_eq.symm⟩
  rw [verifyReader_records h]
  exact (Nat.sub_add_cancel hlines).symm

/-- A numeral has no line feed. -/
theorem newline_not_mem_numeral (n : ℕ) : '\n' ∉ numeral n :=
  fun h => absurd (allDigits_numeral n _ h) (by decide)

/-- The message of `Command::Chain` is one line. -/
theorem newline_not_mem_chainMessage {report : VerificationReport}
    (h : ∀ tip ∈ report.tip, IsHex 64 tip.recordHash) : '\n' ∉ chainMessage report := by
  rw [chainMessage_eq]
  simp only [List.mem_append, not_or]
  refine ⟨by decide, newline_not_mem_numeral _, by decide, ?_⟩
  cases htip : report.tip with
  | none => decide
  | some tip =>
    rw [tipText_some]
    simp only [List.mem_append, not_or]
    exact ⟨by decide, newline_not_mem_numeral _, by decide,
      fun hhash => absurd ((h tip htip).2 _ hhash) (by decide)⟩

/-- The message of `Command::Anchor` is one line. -/
theorem newline_not_mem_anchorMessage (report : AnchorReport) : '\n' ∉ anchorMessage report := by
  rw [anchorMessage_eq]
  simp only [List.mem_append, not_or]
  exact ⟨by decide, newline_not_mem_numeral _, by decide,
    fun hhash => absurd (isLowerHex_of_mem_blockHashText _ hhash) (by decide), by decide,
    newline_not_mem_numeral _, by decide, newline_not_mem_numeral _, by decide⟩

/-- A round of the loop does not panic. -/
theorem checkAttestation_ne_panic (node : Node) (seq tipHeight : ℕ) (a : Placed) :
    checkAttestation node seq tipHeight a ≠ .error .panic ∧
      checkAttestation node seq tipHeight a ≠ .ok (.error .panic) := by
  rw [checkAttestation]
  split_ifs with habove
  · exact ⟨fun h => (by cases h), fun h => (by cases h)⟩
  · cases node.getBlockHash a.2 a.1.height with
    | error failure => exact ⟨fun h => (by cases h), fun h => (by cases h)⟩
    | ok hash =>
      rw [Except.mapError, ok_bind]
      cases node.getBlockHeader a.2 hash with
      | error failure => exact ⟨fun h => (by cases h), fun h => (by cases h)⟩
      | ok header =>
        rw [Except.mapError, ok_bind]
        refine ⟨fun h => (by cases h), fun h => ?_⟩
        have hchecks := Except.ok.inj h
        simp only [bind_eq_error, require_eq_error] at hchecks
        rcases hchecks with ⟨-, h⟩ | ⟨_, -, ⟨-, h⟩ | ⟨_, -, ⟨-, h⟩ | ⟨_, -, h⟩⟩⟩ <;> cases h

/-- The loop panics only where there is nothing to go over. -/
theorem verifyAttestations_ne_panic {node : Node} {seq tipHeight : ℕ} {last : Option AnchorError}
    {as : List Placed} (hlast : last ≠ some .panic) (has : as ≠ [] ∨ last ≠ none) :
    verifyAttestations node seq tipHeight last as ≠ .error .panic := by
  induction as generalizing last with
  | nil =>
    intro h
    cases last with
    | none => exact has.elim (fun h => h rfl) fun h => h rfl
    | some e => exact hlast (congrArg some (Except.error.inj h))
  | cons a as ih =>
    obtain ⟨hends, hgoes⟩ := checkAttestation_ne_panic node seq tipHeight a
    rw [verifyAttestations]
    split
    · rename_i e hcheck
      intro h
      obtain rfl := Except.error.inj h
      exact hends hcheck
    · rename_i e hcheck
      -- the failure of this round is remembered
      refine ih (fun h => ?_) (Or.inr (Option.some_ne_none e))
      obtain rfl := Option.some.inj h
      exact hgoes hcheck
    · intro h
      cases h

/-- `orError` raises what it is given. -/
theorem raises_orError {ε α : Type} {P : ε → Prop} {e : ε} {o : Option α} (h : P e) :
    Raises P (orError e o) := by
  cases o with
  | none => exact .error h
  | some a => exact .ok

/-- A failure that is not a panic. -/
def Reported (failure : Failure) : Prop := failure ≠ .anchor .panic

/-- Reading the key raises errors that are reported. -/
theorem raises_readPublicKey {bytes : List UInt8} : Raises Reported (readPublicKey bytes) := by
  rw [readPublicKey]
  split_ifs
  · exact .ok
  · exact (raises_orError Failure.noConfusion).bind fun _ _ =>
      raises_mapError_iff.2 fun _ _ => Failure.noConfusion

/-- Making the client raises errors that are reported. -/
theorem raises_rpcClient {url : List Char} {cookie : Option (List Char)} :
    Raises Reported (rpcClient host url cookie) := by
  have hmissing : Reported .rpcConfiguration := Failure.noConfusion
  refine Raises.bind ?_ fun _ _ => raises_orError hmissing
  cases cookie with
  | none => exact (raises_orError hmissing).bind fun _ _ => (raises_orError hmissing).bind fun _ _ => .ok
  | some path => exact .ok

/-- Verifying a chain raises errors that are reported. -/
theorem raises_verifyPath {chain : List Char} {publicKey : List UInt8} :
    Raises Reported (verifyPath sha256 fromBytes readFloat host chain publicKey) :=
  (raises_orError Failure.noConfusion).bind fun _ _ => (raises_orError Failure.noConfusion).bind fun _ _ =>
    raises_mapError_iff.2 fun _ _ => Failure.noConfusion

/-- A proof that is inspected has an attestation, so that there is a failure to return. -/
theorem raises_verifyAnchorPath {chain otsProof : List Char} {node : Node} :
    Raises Reported (verifyAnchorPath sha256 readFloat host chain otsProof node) := by
  have hother : ∀ {e : AnchorError}, e ≠ .panic → Reported (.anchor e) := fun he h =>
    he (Failure.anchor.inj h)
  refine (raises_orError Failure.noConfusion).bind fun file _ => ?_
  refine (raises_mapError_iff.2 fun _ _ => hother AnchorError.noConfusion).bind fun tip _ => ?_
  refine (raises_mapError_iff.2 fun _ _ => hother AnchorError.noConfusion).bind fun tipBytes _ => ?_
  refine (raises_orError Failure.noConfusion).bind fun proof _ => ?_
  refine (raises_mapError_iff.2 fun _ _ => hother AnchorError.noConfusion).bind fun attestations has => ?_
  refine (raises_mapError_iff.2 fun _ _ => hother AnchorError.noConfusion).bind fun tipHeight _ => ?_
  have hne : attestations.zipIdx ≠ [] := fun hnil =>
    inspectProof_ne_nil (mapError_eq_ok.1 has) (List.zipIdx_eq_nil_iff.1 hnil)
  refine raises_mapError_iff.2 fun e he => hother ?_
  rintro rfl
  exact verifyAttestations_ne_panic (Option.some_ne_none _).symm (Or.inl hne) he

/-- Every command raises errors that are reported. -/
theorem raises_run (command : Command) : Raises Reported (run sha256 fromBytes readFloat host command) := by
  cases command with
  | chain chain pubkey =>
    refine Raises.bind ?_ fun _ _ => raises_verifyPath.bind fun _ _ => .ok
    exact (raises_orError Failure.noConfusion).bind fun _ _ => raises_readPublicKey
  | anchor chain otsProof rpcUrl rpcCookie =>
    exact raises_rpcClient.bind fun _ _ => raises_verifyAnchorPath.bind fun _ _ => .ok

/-- A message is one line. -/
theorem newline_not_mem_of_run {command : Command} {message : List Char}
    (h : run sha256 fromBytes readFloat host command = .ok message) : '\n' ∉ message := by
  cases command with
  | chain chain pubkey =>
    obtain ⟨_, _, _, _, report, -, -, -, -, hreport, rfl⟩ := run_chain_eq_ok.1 h
    refine newline_not_mem_chainMessage fun tip htip => ?_
    obtain ⟨-, -, recordBytes, hhash⟩ := readTip_of_tip hreport htip
    rw [hhash]
    exact sha256.isHex_hexdigest recordBytes
  | anchor chain otsProof rpcUrl rpcCookie =>
    obtain ⟨_, -, hrest⟩ := bind_eq_ok.1 h
    obtain ⟨report, -, hmessage⟩ := bind_eq_ok.1 hrest
    rw [← Except.ok.inj hmessage]
    exact newline_not_mem_anchorMessage report

/-- **The program does not panic**, and what it prints is one line or nothing. -/
theorem main_ends (command : Command) :
    main sha256 fromBytes readFloat host command = ⟨1, []⟩ ∨ ∃ line, '\n' ∉ line ∧
      main sha256 fromBytes readFloat host command = ⟨0, line ++ ['\n']⟩ := by
  cases hrun : run sha256 fromBytes readFloat host command with
  | ok message => exact Or.inr ⟨message, newline_not_mem_of_run hrun, main_eq_zero.2 ⟨message, hrun, rfl⟩⟩
  | error failure =>
    have hreported := raises_run command failure hrun
    left
    rw [main, hrun]
    split
    · rename_i h
      cases h
    · rename_i h
      exact absurd (Except.error.inj h) hreported
    · rfl

end

end Cli
end Verifier
end Vestrix
