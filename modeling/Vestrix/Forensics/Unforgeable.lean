/-
# What the holder of the file can do

Whoever may write to the file but cannot sign is held to the records that were signed:
every file that `verify_chain` accepts is a beginning of the chain that `log_event` wrote,
except for the signatures (`unforgeable`).
-/

import Vestrix.Forensics.Records

namespace Vestrix
namespace Forensics

open Text Rounding Json Outcome Python Record Transition

variable {sha256 : Sha256} {verify : List UInt8 → List UInt8 → Bool} {n : ℕ} {x y : Expected}
  {lines : List (List UInt8)} {entries : List Entry} {result : VerificationResult}

/-- The signature of a record verifies. -/
def Signed (verify : List UInt8 → List UInt8 → Bool) (entry : Entry) : Prop :=
  ∃ signature bytes, entry.record.get? (lit "signature") = some (.atom (.str signature)) ∧
    (scalars? signature).bind fromHex = some bytes ∧ verify bytes entry.signedBytes = true

/-- An entry is verified just if its signature is the one of its hash's bytes, and counted then. -/
theorem verifyStep_eq_ok {entry : Entry} {r : VerificationResult} :
    verifyStep verify result entry = .ok r ↔ Signed verify entry ∧
      ∃ recordHash, entry.record.get? (lit "record_hash") = some (.atom (.str recordHash)) ∧
        r = ⟨result.recordsVerified + 1, some recordHash⟩ := by
  simp only [verifyStep, bind_eq_ok, fetchStr_eq_ok, orError_eq_ok, require_eq_ok, exists_const, Signed]
  constructor
  · rintro ⟨signature, hsignature, bytes, hbytes, hverify, recordHash, hhash, hr⟩
    exact ⟨⟨signature, bytes, hsignature, hbytes, hverify⟩, recordHash, hhash, (Except.ok.inj hr).symm⟩
  · rintro ⟨⟨signature, bytes, hsignature, hbytes, hverify⟩, recordHash, hhash, rfl⟩
    exact ⟨signature, hsignature, bytes, hbytes, hverify, recordHash, hhash, rfl⟩

/-- What `verify_chain` carries along is the number of records and the digest of the last. -/
theorem Reads.foldlM_verifyStep (h : Reads sha256 n x lines entries y) {count : ℕ} {tip : Option Str} :
    entries.foldlM (verifyStep verify) ⟨count, tip⟩ = .ok result ↔
      (∀ e ∈ entries, Signed verify e) ∧
        result = ⟨count + entries.length, if entries = [] then tip else some y.prevHash⟩ := by
  induction h generalizing count tip with
  | nil =>
    rw [List.foldlM_nil]
    exact ⟨fun h => ⟨fun e he => absurd he List.not_mem_nil, (Except.ok.inj h).symm⟩,
      fun h => congrArg Except.ok h.2.symm⟩
  | @cons n x x' y line lines entry entries head tail ih =>
    obtain ⟨record, _, _, recordHash, -, -, hvalid, -, rfl, rfl⟩ := checkLine_eq_ok.1 head
    -- the digest of the last record is what the walk expects of a next one
    have htip : (if entries = [] then some recordHash else some y.prevHash) = some y.prevHash := by
      split_ifs with hnil
      · subst hnil
        cases tail
        rfl
      · rfl
    rw [List.foldlM_cons, bind_eq_ok, List.forall_mem_cons, if_neg (List.cons_ne_nil _ _)]
    simp only [verifyStep_eq_ok]
    constructor
    · rintro ⟨r, ⟨hsigned, hash, hhash, rfl⟩, hrest⟩
      obtain rfl := Atom.str.inj (Json.atom.inj (Option.some.inj (hvalid.recordHash_eq.symm.trans hhash)))
      obtain ⟨hall, rfl⟩ := ih.1 hrest
      refine ⟨⟨hsigned, hall⟩, ?_⟩
      rw [htip, List.length_cons, Nat.add_assoc, Nat.add_comm 1]
    · rintro ⟨⟨hsigned, hall⟩, rfl⟩
      refine ⟨_, ⟨hsigned, recordHash, hvalid.recordHash_eq, rfl⟩, ih.2 ⟨hall, ?_⟩⟩
      rw [htip, List.length_cons, Nat.add_assoc, Nat.add_comm 1]

/-- **`verify_chain` accepts a file just if all its lines are read** and every signature verifies. -/
theorem verifyChain_eq_ok {file : List UInt8} :
    verifyChain sha256 verify (some file) = .ok result ↔ ∃ entries y,
      Reads sha256 1 .first (physicalLines file) entries y ∧ (∀ e ∈ entries, Signed verify e) ∧
        result = ⟨entries.length, if entries = [] then none else some y.prevHash⟩ := by
  have hforEach : verifyChain sha256 verify (some file) = .ok result ↔
      (iterValidatedRecords sha256 (some file)).forEach (verifyStep verify) ⟨0, none⟩ = .ok result := by
    rw [verifyChain]
    split
    · rename_i e herror
      rw [herror]
      exact ⟨fun h => (nomatch h), fun h => (nomatch h)⟩
    · rename_i e _ herror
      rw [herror]
    · rename_i r hr
      rw [hr]
  rw [hforEach, Generator.forEach_eq_ok]
  simp only [iterValidatedRecords_toList]
  constructor
  · rintro ⟨entries, ⟨y, hreads⟩, hfold⟩
    obtain ⟨hall, rfl⟩ := hreads.foldlM_verifyStep.1 hfold
    exact ⟨entries, y, hreads, hall, by rw [Nat.zero_add]⟩
  · rintro ⟨entries, y, hreads, hall, rfl⟩
    exact ⟨entries, ⟨y, hreads⟩, hreads.foldlM_verifyStep.2 ⟨hall, by rw [Nat.zero_add]⟩⟩

/-- **A file without new signatures is a beginning of the chain that was signed.**  If all that
verifies under a key are signed bytes of the records that `log_event` returned, every file
that `verify_chain` accepts has the first of these records, except for signatures. -/
theorem unforgeable {store store' : Store} {calls : List (Signer × Event)} {records : List Dict}
    {file : List UInt8} (hempty : store.getD [] = [])
    (hwritten : run (call sha256) (store, []) calls = some (store', records))
    (hsigned : ∀ signature message, verify signature message = true → ∃ r ∈ records, message = recordBytes r)
    (haccepted : verifyChain sha256 verify (some file) = .ok result) :
    ∃ entries, (iterValidatedRecords sha256 (some file)).toList = .ok entries ∧
      result.recordsVerified = entries.length ∧ entries.length ≤ records.length ∧
      ∀ (i : ℕ) (e : Entry) (r : Dict), entries[i]? = some e → records[i]? = some r →
        AgreeExceptSignature e.record r := by
  have hrecording : Recording sha256 store' records :=
    run_recording (s := (store, [])) (Recording.nil hempty) hwritten
  obtain ⟨entries, y, hreads, hall, rfl⟩ := verifyChain_eq_ok.1 haccepted
  obtain ⟨hlinked, hentries⟩ := hreads.linked
  have hprefix : (entries.map Entry.record).map (hashChain sha256).content <+:
      records.map (hashChain sha256).content := by
    refine hlinked.isPrefix hrecording.linked (List.forall_mem_map.2 fun e he => ?_)
    obtain ⟨_, _, -, -, hverify⟩ := hall e he
    obtain ⟨r, hr, hbytes⟩ := hsigned _ _ hverify
    obtain ⟨hrecorded, hsignedBytes⟩ := hentries e he
    rw [hsignedBytes] at hbytes
    exact ⟨r, hr, hrecorded.content_injective (hrecording.recorded r hr) hbytes⟩
  have hlength := hprefix.length_le
  rw [List.length_map, List.length_map, List.length_map] at hlength
  refine ⟨entries, iterValidatedRecords_toList.2 ⟨y, hreads⟩, rfl, hlength, fun i e r he hr => ?_⟩
  have hat := List.prefix_iff_getElem?.1 hprefix i (by
    rw [List.length_map, List.length_map]
    exact (List.getElem?_eq_some_iff.1 he).1)
  rw [List.getElem?_map, hr, Option.map_some, Option.some.injEq, List.getElem_map, List.getElem_map,
    (List.getElem?_eq_some_iff.1 he).2] at hat
  exact (hentries e (List.mem_of_getElem? he)).1.agree (hrecording.recorded r (List.mem_of_getElem? hr))
    hat.symm

/-- The calls with the two events of the sample. -/
def sampleCalls : List (Signer × Event) :=
  [(sampleSigner, ⟨sampleEvent, distinctKeys_sampleEvent⟩), (sampleSigner, ⟨linkedEvent, distinctKeys_linkedEvent⟩)]

/-- The file of two linked records has both, and the file that ends behind the first line has that record. -/
theorem unforgeable_sample : ∃ store' records,
    run (call sampleSha256) (none, []) sampleCalls = some (store', records) ∧
    records.map recordBytes = [sampleBytes, linkedBytes] ∧
    ∀ n ∈ [1, 2], ∃ entries,
      (iterValidatedRecords sampleSha256 (some (store'.lines.take n).flatten)).toList = .ok entries ∧
      entries.length = n ∧
      ∀ (i : ℕ) (e : Entry) (r : Dict), entries[i]? = some e → records[i]? = some r →
        AgreeExceptSignature e.record r := by
  have hrun : (run (call sampleSha256) (none, []) sampleCalls).any (fun s =>
      decide (s.2.map recordBytes = [sampleBytes, linkedBytes] ∧ ∀ n ∈ [1, 2],
        (verifyChain sampleSha256 sampleVerified (some (s.1.lines.take n).flatten)).toOption.map
          VerificationResult.recordsVerified = some n)) = true := by decide +kernel
  obtain ⟨⟨store', records⟩, hwritten, hresult⟩ := (Option.any_eq_true _ _).1 hrun
  obtain ⟨hbytes, haccepted⟩ := of_decide_eq_true hresult
  have hsigned : ∀ signature message, sampleVerified signature message = true →
      ∃ r ∈ records, message = recordBytes r := by
    intro signature message hverify
    have hmem : message ∈ records.map recordBytes := by
      rw [hbytes, List.mem_cons, List.mem_singleton]
      exact (of_decide_eq_true hverify).imp And.right And.right
    obtain ⟨r, hr, heq⟩ := List.mem_map.1 hmem
    exact ⟨r, hr, heq.symm⟩
  refine ⟨store', records, hwritten, hbytes, fun n hn => ?_⟩
  have hcount := haccepted n hn
  cases hresult : verifyChain sampleSha256 sampleVerified (some (store'.lines.take n).flatten) with
  | error e => rw [hresult] at hcount; cases hcount
  | ok result =>
    obtain ⟨entries, hentries, hlength, -, hagree⟩ := unforgeable rfl hwritten hsigned hresult
    rw [hresult] at hcount
    exact ⟨entries, hentries, hlength ▸ Option.some.inj hcount, hagree⟩

end Forensics
end Vestrix
