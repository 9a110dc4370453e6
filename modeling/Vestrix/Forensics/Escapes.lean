/-
# Errors that escape

`iter_validated_records` turns three kinds of exceptions of `json.loads` and
`validate_stored_record` into a `StoreError`, and `verify_chain` and `log_event` turn that
into their own.  Two exceptions are of none of these kinds: the plain `ValueError` of an
integer with too many digits and the `OverflowError` of an integer `confidence` that does not
fit a float.

No other step of the walk raises anything else (`raises_checkLine_iff`), so that both functions
report every file but those where they get to such a line (`reported_iff`).
-/

import Vestrix.Forensics.Writers
import Vestrix.Forensics.Checks

namespace Vestrix
namespace Forensics

open Text Rounding Json Outcome Python Record

/-- Exceptions that include `StoreError`, but none that the walk does not catch. -/
structure Reports (P : Exc → Prop) : Prop where
  storeError : ∀ lineNumber reason, P (.storeError lineNumber reason)
  valueError : ¬ P .valueError
  overflowError : ¬ P .overflowError

/-- A line that `iter_validated_records` fails on with another exception than `StoreError`. -/
def Escapes (physicalLine : List UInt8) : Prop :=
  ∃ line, physicalLine = line ++ [lineFeed] ∧ (loads line = .error .intDigits ∨
    ∃ record shape n, loads line = .ok (.object record) ∧ Overflows record shape n)

/-! ### Lines -/

section Lines

variable {sha256 : Sha256} {n : ℕ} {x : Expected} {P : Exc → Prop}

/-- A line that `json.loads` or `validate_stored_record` fails on with another exception than
those that are caught. -/
theorem raises_parseRecord_iff (hP : Reports P) {line : List UInt8} : Raises P (parseRecord n line) ↔
    ¬ (loads line = .error .intDigits ∨
      ∃ record shape n, loads line = .ok (.object record) ∧ Overflows record shape n) := by
  rw [parseRecord]
  cases hloads : loads line with
  | error e =>
    cases e with
    | jsonDecode =>
      refine ⟨fun _ => ?_, fun _ => .error (hP.storeError _ _)⟩
      rintro (h | ⟨_, _, _, h, -⟩) <;> cases h
    | unicodeDecode =>
      refine ⟨fun _ => ?_, fun _ => .error (hP.storeError _ _)⟩
      rintro (h | ⟨_, _, _, h, -⟩) <;> cases h
    | intDigits =>
      exact ⟨fun h => absurd (h _ rfl) hP.valueError, fun h => absurd (Or.inl rfl) h⟩
  | ok parsed =>
    dsimp only
    constructor
    · rintro h (hdigits | ⟨record, shape, n, hparsed, hoverflow⟩)
      · cases hdigits
      · obtain rfl := Except.ok.inj hparsed
        rw [validateStoredRecord_overflow.2 ⟨record, shape, n, rfl, hoverflow⟩] at h
        exact hP.overflowError (h _ rfl)
    · intro h e he
      cases hvalidate : validateStoredRecord parsed with
      | ok r => rw [hvalidate] at he; cases he
      | error e' =>
        rw [hvalidate] at he
        obtain rfl := Except.error.inj he
        rcases raises_validateStoredRecord _ hvalidate with ⟨f, rfl⟩ | rfl
        · exact hP.storeError _ _
        · obtain ⟨record, shape, n, rfl, hoverflow⟩ := validateStoredRecord_overflow.1 hvalidate
          exact absurd (Or.inr ⟨record, shape, n, rfl, hoverflow⟩) h

/-- **A line is reported, or escapes.** -/
theorem raises_checkLine_iff (hP : Reports P) {physicalLine : List UInt8} :
    Raises P (checkLine sha256 n x physicalLine) ↔ ¬ Escapes physicalLine := by
  have hparse : Raises P (checkLine sha256 n x physicalLine) ↔
      (physicalLine.getLast? = some lineFeed → physicalLine.dropLast ≠ [] →
        Raises P (parseRecord n physicalLine.dropLast)) := by
    rw [checkLine, Raises.require_bind_iff (hP.storeError _ _)]
    refine imp_congr_right fun _ => ?_
    rw [Raises.require_bind_iff (hP.storeError _ _)]
    refine imp_congr_right fun _ => Raises.bind_iff fun record hrecord => ?_
    -- nothing after the two calls that are caught raises another exception
    obtain ⟨hloads, shape, hshape⟩ := parseRecord_eq_ok.1 hrecord
    have hwritable := writable_of_permitted
      (permitted_of_conforms (forall_object.1 (loads_distinctKeys hloads)).1 hshape)
    obtain ⟨canonical, hcanonical⟩ := exists_canonicalJsonBytes hwritable
    obtain ⟨unsigned, hunsigned⟩ := exists_canonicalJsonBytes (writable_unsignedOf hwritable)
    obtain ⟨seq, hseq⟩ : ∃ seq, fetchInt record (lit "seq") = .ok seq := by
      obtain ⟨v, hv, seq, hint, -⟩ := (conforms_record.1 hshape).2 ("seq".toList, .counter) (by decide)
      exact ⟨seq, fetchInt_eq_ok.2 (hv.trans (congrArg _ (eq_int hint)))⟩
    obtain ⟨prevHash, hprevHash⟩ : ∃ s, fetchStr record (lit "prev_hash") = .ok s := by
      obtain ⟨v, hv, s, hstr, -⟩ := (conforms_record.1 hshape).2 ("prev_hash".toList, .hex 64) (by decide)
      exact ⟨_, fetchStr_eq_ok.2 (hv.trans (congrArg _ (eq_str hstr)))⟩
    obtain ⟨recordHash, hrecordHash⟩ : ∃ s, fetchStr record (lit "record_hash") = .ok s := by
      obtain ⟨v, hv, s, hstr, -⟩ := (conforms_record.1 hshape).2 ("record_hash".toList, .hex 64) (by decide)
      exact ⟨_, fetchStr_eq_ok.2 (hv.trans (congrArg _ (eq_str hstr)))⟩
    refine Raises.bind (.require (hP.storeError _ _)) fun _ _ => ?_
    refine Raises.bind (.of_ok hcanonical) fun _ _ => ?_
    refine Raises.bind (.require (hP.storeError _ _)) fun _ _ => ?_
    refine Raises.bind (.of_ok hseq) fun _ _ => ?_
    refine Raises.bind (.require (hP.storeError _ _)) fun _ _ => ?_
    refine Raises.bind (.of_ok hprevHash) fun _ _ => ?_
    refine Raises.bind (.require (hP.storeError _ _)) fun _ _ => ?_
    refine Raises.bind (.of_ok (hashUnsignedRecord_eq_ok.2 ⟨hunsigned, rfl⟩)) fun _ _ => ?_
    refine Raises.bind (.of_ok hrecordHash) fun _ _ => ?_
    exact Raises.bind (.require (hP.storeError _ _)) fun _ _ => .ok
  rw [hparse]
  simp only [raises_parseRecord_iff hP]
  constructor
  · rintro h ⟨line, rfl, hline⟩
    rw [List.dropLast_concat, List.getLast?_concat] at h
    refine h rfl ?_ hline
    rintro rfl
    rcases hline with hline | ⟨_, _, _, hline, -⟩ <;> cases hline
  · intro h hlast _ hline
    exact h ⟨_, (List.dropLast_append_getLast? _ hlast).symm, hline⟩

/-- An even number of lower-case hexadecimal digits are bytes. -/
theorem exists_fromHex {k : ℕ} {t : List Char} (hlen : t.length = 2 * k)
    (h : ∀ c ∈ t, isLowerHex c = true) : ∃ bytes, fromHex t = some bytes := by
  have hdigit : ∀ c, isLowerHex c = true → ∃ d, hexValue? (.scalar c) = some d := by
    intro c hc
    rw [isLowerHex, Bool.or_eq_true, Bool.and_eq_true, decide_eq_true_eq, decide_eq_true_eq] at hc
    rw [hexValue?]
    split_ifs with hdecimal hlower
    · exact ⟨_, rfl⟩
    · exact ⟨_, rfl⟩
    · exact absurd (hc.resolve_left hdecimal) hlower
    · exact absurd (hc.resolve_left hdecimal) hlower
  induction k generalizing t with
  | zero =>
    obtain rfl := List.length_eq_zero_iff.1 hlen
    exact ⟨[], rfl⟩
  | succ k ih =>
    rcases t with _ | ⟨a, _ | ⟨b, t⟩⟩
    · rw [List.length_nil] at hlen
      omega
    · rw [List.length_singleton] at hlen
      omega
    · rw [List.forall_mem_cons, List.forall_mem_cons] at h
      rw [List.length_cons, List.length_cons] at hlen
      obtain ⟨bytes, hbytes⟩ := ih (t := t) (by omega) h.2.2
      obtain ⟨x, hx⟩ := hdigit a h.1
      obtain ⟨y, hy⟩ := hdigit b h.2.1
      exact ⟨_, by rw [fromHex, hx, hy, hbytes]⟩

end Lines

/-! ### Walks -/

section Walks

variable {sha256 : Sha256} {verify : List UInt8 → List UInt8 → Bool} {n : ℕ} {x x' y : Expected}
  {P : Exc → Prop} {line : List UInt8} {lines : List (List UInt8)} {entries : List Entry} {entry : Entry}

/-- **Where a loop over the walk fails.**  If the body of the loop raises only what `P` allows, the
loop does unless it gets to a line that the walk raises something else for. -/
theorem raises_forEach_iff {β : Type} {f : β → Entry → Except Exc β}
    (hf : ∀ {n x l entry x'} b, checkLine sha256 n x l = .ok (entry, x') → Raises P (f b entry)) {b : β} :
    Raises P ((iterFrom sha256 n x lines).forEach f b) ↔
      ∀ before l after entries y c, lines = before ++ l :: after → Reads sha256 n x before entries y →
        entries.foldlM f b = .ok c → Raises P (checkLine sha256 (n + before.length) y l) := by
  induction lines generalizing n x b with
  | nil =>
    refine ⟨fun _ before l after _ _ _ h => ?_, fun _ => .ok⟩
    exact absurd h.symm (List.append_ne_nil_of_right_ne_nil _ (List.cons_ne_nil _ _))
  | cons line lines ih =>
    rw [iterFrom]
    cases hline : checkLine sha256 n x line with
    | error e =>
      dsimp only
      rw [Generator.forEach]
      constructor
      · intro h before l after entries y c hlines hreads _
        cases hreads with
        | nil =>
          obtain ⟨rfl, rfl⟩ := List.cons.inj hlines
          rw [List.length_nil, Nat.add_zero, hline]
          exact .error (h e rfl)
        | cons head tail =>
          obtain ⟨rfl, -⟩ := List.cons.inj hlines
          rw [hline] at head
          cases head
      · intro h
        have hfirst := h [] line lines [] x b rfl .nil rfl
        rw [List.length_nil, Nat.add_zero, hline] at hfirst
        exact .error (hfirst e rfl)
    | ok r =>
      obtain ⟨entry, x'⟩ := r
      dsimp only
      rw [Generator.forEach]
      have hrest : Raises P (f b entry >>= fun b => (iterFrom sha256 (n + 1) x' lines).forEach f b) ↔
          ∀ b', f b entry = .ok b' → Raises P ((iterFrom sha256 (n + 1) x' lines).forEach f b') := by
        refine ⟨fun h b' hb' => ?_, fun h => (hf b hline).bind h⟩
        rwa [hb', ok_bind] at h
      rw [hrest]
      simp only [ih]
      constructor
      · intro h before l after entries y c hlines hreads hfold
        cases hreads with
        | nil =>
          obtain ⟨rfl, rfl⟩ := List.cons.inj hlines
          rw [List.length_nil, Nat.add_zero, hline]
          exact .ok
        | cons head tail =>
          obtain ⟨rfl, htail⟩ := List.cons.inj hlines
          obtain ⟨rfl, rfl⟩ := Prod.mk.inj (Except.ok.inj (hline.symm.trans head))
          rw [List.foldlM_cons] at hfold
          obtain ⟨b', hb', hfold⟩ := bind_eq_ok.1 hfold
          rw [List.length_cons, Nat.add_comm _ 1, ← Nat.add_assoc]
          exact h b' hb' _ l after _ y c htail tail hfold
      · intro h b' hb' before l after entries y c hlines hreads hfold
        have hback := h (line :: before) l after (entry :: entries) y c (hlines ▸ rfl)
          (.cons hline hreads) (by rw [List.foldlM_cons, hb']; exact hfold)
        rwa [List.length_cons, Nat.add_comm _ 1, ← Nat.add_assoc] at hback

/-- The walk over a file gets to a line, and each entry before it passes a check. -/
def Reaches (sha256 : Sha256) (passes : Entry → Prop) (bytes line : List UInt8) : Prop :=
  ∃ before after entries y, physicalLines bytes = before ++ line :: after ∧
    Reads sha256 1 .first before entries y ∧ ∀ e ∈ entries, passes e

/-- `ChainVerificationError`. -/
def IsChainVerificationError (e : Exc) : Prop := ∃ lineNumber reason, e = .chainVerification lineNumber reason

/-- `AppendError`. -/
def IsAppendError (e : Exc) : Prop := ∃ reason, e = .appendError reason

/-- The signature of an entry is one of hexadecimal digits, so that only `verify` may refuse it. -/
theorem raises_verifyStep (h : checkLine sha256 n x line = .ok (entry, x')) (result : VerificationResult) :
    Raises IsChainVerificationError (verifyStep verify result entry) := by
  obtain ⟨record, _, signedBytes, recordHash, -, -, hvalid, -, rfl, -⟩ := checkLine_eq_ok.1 h
  obtain ⟨shape, hshape⟩ := hvalid.conforms
  obtain ⟨v, hv, t, ht, hlen, hhex⟩ := (conforms_record.1 hshape).2 ("signature".toList, .hex 128) (by decide)
  obtain ⟨bytes, hbytes⟩ := exists_fromHex (k := 64) hlen hhex
  have hsignature : fetchStr record (lit "signature") = .ok (ofChars t) :=
    fetchStr_eq_ok.2 (hv.trans (congrArg _ (eq_str ht)))
  have hdecoded : orError Exc.valueError ((scalars? (ofChars t)).bind fromHex) = .ok bytes := by
    rw [scalars?_ofChars, Option.bind_some, hbytes]
    rfl
  rw [verifyStep, hsignature, ok_bind, hdecoded, ok_bind]
  refine Raises.bind (.require ⟨_, _, rfl⟩) fun _ _ => ?_
  exact Raises.bind (.of_ok (fetchStr_eq_ok.2 hvalid.recordHash_eq)) fun _ _ => .ok

/-- **`verify_chain` reports all that is wrong** just if no line that it comes to escapes. -/
theorem raises_verifyChain_iff {bytes : List UInt8} :
    Raises IsChainVerificationError (verifyChain sha256 verify (some bytes)) ↔
      ∀ l, Reaches sha256 (Signed verify) bytes l → ¬ Escapes l := by
  have hreports : Reports fun e => IsChainVerificationError e ∨ ∃ m r, e = .storeError m r := by
    refine ⟨fun m r => Or.inr ⟨m, r, rfl⟩, ?_, ?_⟩
    · rintro (⟨_, _, h⟩ | ⟨_, _, h⟩) <;> cases h
    · rintro (⟨_, _, h⟩ | ⟨_, _, h⟩) <;> cases h
  have hloop : Raises IsChainVerificationError (verifyChain sha256 verify (some bytes)) ↔
      Raises (fun e => IsChainVerificationError e ∨ ∃ m r, e = .storeError m r)
        ((iterFrom sha256 1 .first (physicalLines bytes)).forEach (verifyStep verify) ⟨0, none⟩) := by
    rw [verifyChain, iterValidatedRecords]
    split
    · rename_i m r herror
      rw [herror]
      exact ⟨fun _ => .error (Or.inr ⟨_, _, rfl⟩), fun _ => .error ⟨_, _, rfl⟩⟩
    · rename_i e hne herror
      rw [herror]
      refine ⟨fun h => .error (Or.inl (h _ rfl)), fun h => .error ?_⟩
      rcases h _ rfl with h | ⟨m, r, rfl⟩
      · exact h
      · exact absurd rfl (hne m r)
    · rename_i r hr
      rw [hr]
      exact ⟨fun _ => .ok, fun _ => .ok⟩
  rw [hloop, raises_forEach_iff fun result h => (raises_verifyStep h result).mono fun _ => Or.inl]
  simp only [raises_checkLine_iff hreports]
  constructor
  · rintro h l ⟨before, after, entries, y, hlines, hreads, hsigned⟩
    exact h before l after entries y _ hlines hreads (hreads.foldlM_verifyStep.2 ⟨hsigned, rfl⟩)
  · intro h before l after entries y c hlines hreads hfold
    exact h l ⟨before, after, entries, y, hlines, hreads, (hreads.foldlM_verifyStep.1 hfold).1⟩

/-- The next number after any lines is at most `2 ^ 63`. -/
theorem Reads.seq_le (h : Reads sha256 n x lines entries y) (hx : x.seq ≤ 2 ^ 63) : y.seq ≤ 2 ^ 63 := by
  induction h with
  | nil => exact hx
  | cons head tail ih =>
    obtain ⟨record, _, _, _, -, -, hvalid, -, -, rfl⟩ := checkLine_eq_ok.1 head
    obtain ⟨shape, hshape⟩ := hvalid.conforms
    obtain ⟨v, hv, k, hk, -, hlt⟩ := (conforms_record.1 hshape).2 ("seq".toList, .counter) (by decide)
    obtain rfl := Option.some.inj (hv.symm.trans hvalid.seq_eq)
    obtain rfl := Option.some.inj hk
    exact ih (by exact_mod_cast hlt)

/-- A dictionary with canonical bytes still has some with a number, or with a text without
surrogates, behind it. -/
theorem writable_append {d items : Dict}
    (h : Json.Forall Writable (fun ks => ∀ k ∈ ks, (scalars? k).isSome = true) (.object d))
    (hitems : ∀ m ∈ items, (scalars? m.1).isSome = true ∧
      Json.Forall Writable (fun ks => ∀ k ∈ ks, (scalars? k).isSome = true) m.2) :
    Json.Forall Writable (fun ks => ∀ k ∈ ks, (scalars? k).isSome = true) (.object (d ++ items)) := by
  obtain ⟨hkeys, hms⟩ := forall_object.1 h
  refine .object ?_ fun m hm => ?_
  · rw [List.map_append, List.forall_mem_append]
    exact ⟨hkeys, List.forall_mem_map.2 fun m hm => (hitems m hm).1⟩
  · rcases List.mem_append.1 hm with hm | hm
    · exact hms m hm
    · exact (hitems m hm).2

/-- The record that `log_event` makes has canonical bytes. -/
theorem writable_chainItems {event : Dict} {recordHash : Str} {signature : List UInt8}
    (h : Json.Forall Writable (fun ks => ∀ k ∈ ks, (scalars? k).isSome = true) (.object event))
    (hseq : y.seq ≤ 2 ^ 63) (hprev : Holds (.hex 64) (.atom (.str y.prevHash)))
    (hhash : Holds (.hex 64) (.atom (.str recordHash))) :
    Json.Forall Writable (fun ks => ∀ k ∈ ks, (scalars? k).isSome = true)
      (.object (event ++ chainItems y.seq y.prevHash recordHash signature)) := by
  have hscalars : ∀ {s : Str}, Holds (.hex 64) (.atom (.str s)) → (scalars? s).isSome = true := by
    rintro s ⟨t, ht, -⟩
    exact Option.isSome_iff_exists.2 ⟨t, ht⟩
  have hnumber : Writable (.int y.seq) := by
    refine (Nat.length_toDigits_le_iff (by decide) (by decide)).2 ?_
    exact lt_of_le_of_lt (show _ ≤ 2 ^ 63 from hseq)
      (lt_of_lt_of_le (show 2 ^ 63 < 10 ^ 19 by norm_num) (Nat.pow_le_pow_right (by decide) (by decide)))
  refine writable_append h ?_
  simp only [chainItems, List.forall_mem_cons, List.not_mem_nil, false_imp_iff, implies_true, and_true]
  refine ⟨⟨rfl, .atom hnumber⟩, ⟨rfl, .atom (hscalars hprev)⟩, ⟨rfl, .atom (hscalars hhash)⟩, rfl, .atom ?_⟩
  exact Option.isSome_iff_exists.2 ⟨_, scalars?_ofChars _⟩

/-- The checks of `chain_tip` raise a `StoreError` only. -/
theorem raises_tipStep {required : Option ℕ} (h : checkLine sha256 n x line = .ok (entry, x'))
    (tip : ℤ × Str) : Raises (fun e => ∃ m r, e = .storeError m r) (tipStep required tip entry) := by
  obtain ⟨record, _, _, recordHash, -, -, hvalid, -, rfl, -⟩ := checkLine_eq_ok.1 h
  rw [tipStep]
  refine Raises.bind (.require ⟨_, _, rfl⟩) fun _ _ => ?_
  refine Raises.bind (.of_ok (fetchInt_eq_ok.2 hvalid.seq_eq)) fun _ _ => ?_
  exact Raises.bind (.of_ok (fetchStr_eq_ok.2 hvalid.recordHash_eq)) fun _ _ => .ok

/-- When `chain_tip` raises nothing but what is reported. -/
theorem raises_chainTip_iff (hP : Reports P) {bytes : List UInt8} {version : ℕ} :
    Raises P (chainTip sha256 (some bytes) (some version)) ↔
      ∀ l, Reaches sha256 (fun e => recordFormatVersion e.record = version) bytes l → ¬ Escapes l := by
  have hbody : ∀ {n x l entry x'} tip, checkLine sha256 n x l = .ok (entry, x') →
      Raises P (tipStep (some version) tip entry) := fun tip h => by
    refine (raises_tipStep h tip).mono ?_
    rintro _ ⟨m, r, rfl⟩
    exact hP.storeError m r
  rw [chainTip, iterValidatedRecords, raises_forEach_iff hbody]
  simp only [raises_checkLine_iff hP]
  constructor
  · rintro h l ⟨before, after, entries, y, hlines, hreads, hversion⟩
    refine h before l after entries y _ hlines hreads (hreads.foldlM_tipStep.2 ⟨rfl, fun e he v hv => ?_⟩)
    rw [hversion e he]
    exact Option.some.inj hv
  · intro h before l after entries y c hlines hreads hfold
    refine h l ⟨before, after, entries, y, hlines, hreads, fun e he => ?_⟩
    exact (hreads.foldlM_tipStep.1 hfold).2 e he version rfl

/-- **`log_event` reports all that is wrong** just if no line that it comes to escapes. -/
theorem raises_logEvent_iff {bytes : List UInt8} {signer : Signer} {write : WriteResult} {event : Event}
    {e : Dict} (hevent : validateEvent (.object event.1) = .ok e)
    (hsigner : ∀ m, ∃ signature, signer m = .bytes signature ∧ signature.length = 64) :
    Raises IsAppendError (logEvent sha256 signer write (.object event.1) (some bytes)).1 ↔
      ∀ l, Reaches sha256 (fun e => recordFormatVersion e.record = recordFormatVersion event.1) bytes l →
        ¬ Escapes l := by
  obtain ⟨rfl, shape, hshape⟩ := validateEvent_eq_ok.1 hevent
  have hprepare : Raises IsAppendError (prepare sha256 signer (.object event.1) (some bytes)) ↔
      Raises IsAppendError ((chainTip sha256 (some bytes) (some (recordFormatVersion event.1))).mapError
        refuseChain) := by
    rw [prepare, hevent, ok_bind]
    refine Raises.bind_iff ?_
    rintro ⟨seq, previousHash⟩ htip
    -- the record that comes next can be hashed, signed and written
    obtain ⟨entries, y, hreads, hplace, -⟩ := chainTip_eq_ok.1 (mapError_eq_ok.1 htip)
    obtain ⟨rfl, rfl⟩ := Prod.mk.inj hplace
    have hgenesis : Holds (.hex 64) (.atom (.str genesisPrevHash)) :=
      ⟨genesis, scalars?_ofChars _, isHex_genesis⟩
    have hwritable := writable_of_permitted (permitted_of_conforms (forall_object.1 event.2).1 hshape)
    have hnext : ∀ recordHash signature, Holds (.hex 64) (.atom (.str recordHash)) →
        Json.Forall Writable (fun ks => ∀ k ∈ ks, (scalars? k).isSome = true)
          (.object (event.1 ++ chainItems y.seq y.prevHash recordHash signature)) :=
      fun recordHash signature hhash => writable_chainItems hwritable
        (hreads.seq_le (Nat.zero_le _)) (hreads.holds_prevHash hgenesis) hhash
    obtain ⟨recordBytes, hbytes⟩ : ∃ recordBytes, canonicalJsonBytes
        (.object (unsignedOf (unsignedRecord event.1 y.seq y.prevHash))) = .ok recordBytes := by
      have hunsigned : unsignedOf (event.1 ++ chainItems y.seq y.prevHash genesisPrevHash []) = _ :=
        unsignedOf_append hshape.unmanaged
      refine exists_canonicalJsonBytes ?_
      rw [unsignedOf_unsignedRecord hshape.unmanaged, ← hunsigned]
      exact writable_unsignedOf (hnext _ _ hgenesis)
    obtain ⟨signature, hsignature, hlength⟩ := hsigner recordBytes
    obtain ⟨encoded, hencoded⟩ := exists_canonicalJsonBytes
      (hnext (ofChars (sha256.hexdigest recordBytes)) signature (holds_hexdigest recordBytes))
    dsimp only
    rw [hashUnsignedRecord_eq_ok.2 ⟨hbytes, rfl⟩, ok_bind]
    dsimp only
    rw [signBytes_eq_ok.2 ⟨hsignature, hlength⟩, ok_bind, signedRecord_eq hshape.unmanaged, hencoded]
    exact .ok
  have hlog : Raises IsAppendError (logEvent sha256 signer write (.object event.1) (some bytes)).1 ↔
      Raises IsAppendError (prepare sha256 signer (.object event.1) (some bytes)) := by
    rw [logEvent]
    cases prepare sha256 signer (.object event.1) (some bytes) with
    | error e => exact ⟨fun h => .error (h e rfl), fun h => .error (h e rfl)⟩
    | ok r =>
      refine ⟨fun _ => .ok, fun _ => ?_⟩
      dsimp only
      split_ifs
      · exact .ok
      · exact .error ⟨_, rfl⟩
  have hreports : Reports fun e => IsAppendError (refuseChain e) := by
    refine ⟨fun m r => ⟨_, rfl⟩, ?_, ?_⟩
    · rintro ⟨_, h⟩
      cases h
    · rintro ⟨_, h⟩
      cases h
  rw [hlog, hprepare, raises_mapError_iff, raises_chainTip_iff hreports]

/-- **Which stores are reported.**  Every store is, for `verify_chain` and for `log_event`, but those
where they get to a line that escapes: after lines that are accepted, with signatures that
verify or with the version of the event. -/
theorem reported_iff (sha256 : Sha256) (verify : List UInt8 → List UInt8 → Bool) (bytes : List UInt8)
    (signer : Signer) (write : WriteResult) (event : Event) :
    (Raises IsChainVerificationError (verifyChain sha256 verify (some bytes)) ↔
      ∀ l, Reaches sha256 (Signed verify) bytes l → ¬ Escapes l) ∧
    ((∃ e, validateEvent (.object event.1) = .ok e) →
      (∀ m, ∃ signature, signer m = .bytes signature ∧ signature.length = 64) →
      (Raises IsAppendError (logEvent sha256 signer write (.object event.1) (some bytes)).1 ↔
        ∀ l, Reaches sha256 (fun e => recordFormatVersion e.record = recordFormatVersion event.1) bytes l →
          ¬ Escapes l)) := by
  refine ⟨raises_verifyChain_iff, ?_⟩
  rintro ⟨_, hevent⟩ hsigner
  exact raises_logEvent_iff hevent hsigner

end Walks

/-- A signer that always works. -/
def workingSigner : Signer := fun _ => .bytes sampleSignature

/-- The line of the sample's record. -/
def recordLine : List UInt8 := (logEvent sampleSha256 sampleSigner .done (.object sampleEvent) none).2.getD []

/-- A line that is not JSON. -/
def malformedLine : List UInt8 := utf8 "x\n".toList

/-- An accepted record with a malformed line behind it is reported by both. -/
theorem reported_iff_malformed :
    (∃ n r, verifyChain sampleSha256 sampleVerified (some (recordLine ++ malformedLine)) =
      .error (.chainVerification n r)) ∧
    ∃ r, (logEvent sampleSha256 workingSigner .done (.object linkedEvent)
      (some (recordLine ++ malformedLine))).1 = .error (.appendError r) := by
  -- one evaluation, since every part reads the record
  have hlines : physicalLines (recordLine ++ malformedLine) = [recordLine, malformedLine] ∧
      (checkLine sampleSha256 1 .first recordLine).isOk = true ∧
      (verifyChain sampleSha256 sampleVerified (some (recordLine ++ malformedLine))).isOk = false ∧
      (logEvent sampleSha256 workingSigner .done (.object linkedEvent)
        (some (recordLine ++ malformedLine))).1.isOk = false ∧
      (validateEvent (.object linkedEvent)).isOk = true := by decide +kernel
  obtain ⟨hlines, hrecord, hverify, hlog, hevent⟩ := hlines
  have hmalformed : loads malformedLine.dropLast = .error .jsonDecode := rfl
  have hescapes : ∀ l ∈ [recordLine, malformedLine], ¬ Escapes l := by
    have hreports : Reports fun e => ∃ n r, e = .storeError n r :=
      ⟨fun n r => ⟨n, r, rfl⟩, fun ⟨_, _, h⟩ => (by cases h), fun ⟨_, _, h⟩ => (by cases h)⟩
    rw [List.forall_mem_cons, List.forall_mem_singleton, ← raises_checkLine_iff hreports]
    constructor
    · obtain ⟨c, hc⟩ := exists_of_isOk hrecord
      rw [hc]
      exact .ok
    · rintro ⟨line, hline, hescapes⟩
      rw [hline, List.dropLast_concat] at hmalformed
      rw [hmalformed] at hescapes
      obtain h | ⟨_, _, _, h, -⟩ := hescapes <;> cases h
  have hreached : ∀ passes l, Reaches sampleSha256 passes (recordLine ++ malformedLine) l → ¬ Escapes l := by
    rintro passes l ⟨before, after, _, _, hsplit, -⟩
    rw [hlines] at hsplit
    exact hescapes l (hsplit ▸ List.mem_append_right _ (List.mem_cons_self ..))
  have hreported := reported_iff sampleSha256 sampleVerified (recordLine ++ malformedLine) workingSigner .done
    ⟨linkedEvent, distinctKeys_linkedEvent⟩
  have hverified := hreported.1.2 fun l => hreached _ l
  have hlogged := (hreported.2 (exists_of_isOk hevent) fun m => ⟨sampleSignature, rfl, rfl⟩).2
    fun l => hreached _ l
  constructor
  · cases h : verifyChain sampleSha256 sampleVerified (some (recordLine ++ malformedLine)) with
    | ok result => rw [h] at hverify; cases hverify
    | error e =>
      obtain ⟨n, r, rfl⟩ := hverified e h
      exact ⟨n, r, rfl⟩
  · cases h : (logEvent sampleSha256 workingSigner .done (.object linkedEvent)
        (some (recordLine ++ malformedLine))).1 with
    | ok record => rw [h] at hlog; cases hlog
    | error e =>
      obtain ⟨r, rfl⟩ := hlogged e h
      exact ⟨r, rfl⟩

/-- The line of a record with a confidence of `10^309`. -/
def overflowLine : List UInt8 :=
  utf8 ("\x7b\"class\":\"empty\",\"confidence\":1".toList ++ List.replicate 309 '0' ++
    ",\"features_hash\":\"".toList ++ genesis ++ "\",\"model_config_hash\":\"".toList ++ genesis ++
    "\",\"model_id\":\"m\",\"node_id\":\"node-1\",\"prev_hash\":\"".toList ++ genesis ++
    "\",\"raw_csi_hash\":\"".toList ++ genesis ++ "\",\"record_hash\":\"".toList ++ genesis ++
    "\",\"seq\":0,\"signature\":\"".toList ++ genesis ++ genesis ++
    "\",\"top_shap\":null,\"ts_utc\":\"2026-07-01T12:00:00Z\"\x7d\n".toList)

/-- **Not every store is reported.**  The confidence of this record is too large to be converted. -/
theorem overflow_not_reported : ¬ ∀ (sha256 : Sha256) (verify : List UInt8 → List UInt8 → Bool)
    (bytes : List UInt8), Raises IsChainVerificationError (verifyChain sha256 verify (some bytes)) := by
  intro h
  have hoverflow : verifyChain sampleSha256 (fun _ _ => true) (some overflowLine) = .error .overflowError := by
    decide +kernel
  obtain ⟨_, _, hreported⟩ := h sampleSha256 (fun _ _ => true) overflowLine _ hoverflow
  cases hreported

end Forensics
end Vestrix
