/-
# A store that grows

A run of `log_event` calls that return, each on the store that the one before left.  What
was read of a store is read again after any number of calls, with a record more for each
(`run_reads`), and the last line of a store is the record that its tip is about
(`Reads.last`).
-/

import Vestrix.Forensics.Logger
import Vestrix.Transition

namespace Vestrix
namespace Forensics

open Text Rounding Json Outcome Python Record Transition

/-- An event as a dictionary of Python: no key occurs twice in it. -/
abbrev Event := { event : Dict // (Json.object event).DistinctKeys }

section

variable (sha256 : Sha256)

/-- A call of `log_event` that returns. -/
def append (store : Store) (call : Signer × Event) : Option Store :=
  match logEvent sha256 call.1 .done (.object call.2.1) store with
  | (.ok _, store) => some store
  | (.error _, _) => none

/-- `snapshot_tip`. -/
def snapshotTip (store : Store) : Except Exc (ℤ × Str) :=
  match store with
  | none => .error .fileNotFound
  | some bytes => do
    let (nextSequence, tipHash) ← chainTip sha256 (some bytes) none
    require (nextSequence ≠ 0) .valueError
    return (nextSequence - 1, tipHash)

end

variable {sha256 : Sha256} {store store' : Store} {x y : Expected} {entries : List Entry}

/-- A call that has returned has stored its record. -/
theorem append_eq_some {call : Signer × Event} (h : append sha256 store call = some store') :
    ∃ record, logEvent sha256 call.1 .done (.object call.2.1) store = (.ok record, store') := by
  rw [append] at h
  split at h
  · rename_i record store₁ hlog
    obtain rfl := Option.some.inj h
    exact ⟨record, hlog⟩
  · cases h

/-- A call that returns adds a record to what is read. -/
theorem append_reads {call : Signer × Event} (h : append sha256 store call = some store')
    (hseq : store.lines.length < 2 ^ 63) (hx : Reads sha256 1 .first store.lines entries x) :
    ∃ entry y, Reads sha256 1 .first store'.lines (entries ++ [entry]) y := by
  obtain ⟨record, hlog⟩ := append_eq_some h
  obtain ⟨event, x', signedBytes, recordHash, encoded, hevent, hnext, -, hlines⟩ :=
    logEvent_reads call.2.2 hlog
  obtain rfl := Json.object.inj hevent
  obtain ⟨entries', hx'⟩ := hnext.reads
  obtain ⟨rfl, rfl⟩ := hx.unique hx'
  have hx'seq : x.seq < 2 ^ 63 := by
    rw [hx.seq_eq]
    simpa only [Expected.first, Nat.zero_add] using hseq
  obtain ⟨record', he⟩ : ∃ record', (object record).sorted = .object record' := ⟨_, sorted_object record⟩
  rw [hlines hx'seq]
  exact ⟨_, _, hx.append (.cons (hnext.checkLine call.2.2 hx'seq he _) .nil)⟩

/-- A call that has returned has only added to the file. -/
theorem append_bytes {call : Signer × Event} (h : append sha256 store call = some store') :
    ∃ line, store'.getD [] = store.getD [] ++ line := by
  obtain ⟨record, hlog⟩ := append_eq_some h
  obtain ⟨_, _, _, _, encoded, -, -, rfl, -⟩ := logEvent_reads call.2.2 hlog
  exact ⟨_, rfl⟩

/-- A store only grows. -/
theorem run_bytes {calls : List (Signer × Event)} (h : run (append sha256) store calls = some store') :
    ∃ lines, store'.getD [] = store.getD [] ++ lines := by
  induction calls generalizing store with
  | nil =>
    obtain rfl := run_nil.1 h
    exact ⟨[], (List.append_nil _).symm⟩
  | cons call calls ih =>
    obtain ⟨t, ht, h⟩ := run_cons.1 h
    obtain ⟨line, hline⟩ := append_bytes ht
    obtain ⟨lines, hlines⟩ := ih h
    exact ⟨line ++ lines, by rw [hlines, hline, List.append_assoc]⟩

/-- **A run of calls adds a record for each** to what is read; a file has less than `2^63`
bytes. -/
theorem run_reads {calls : List (Signer × Event)} (h : run (append sha256) store calls = some store')
    (hsize : (store'.getD []).length < 2 ^ 63) (hx : Reads sha256 1 .first store.lines entries x) :
    ∃ more y, Reads sha256 1 .first store'.lines (entries ++ more) y ∧ more.length = calls.length := by
  induction calls generalizing store entries x with
  | nil =>
    obtain rfl := run_nil.1 h
    exact ⟨[], x, by rwa [List.append_nil], rfl⟩
  | cons call calls ih =>
    obtain ⟨lines, hlines⟩ := run_bytes h
    obtain ⟨t, ht, h⟩ := run_cons.1 h
    have hseq : store.lines.length < 2 ^ 63 := by
      have hle := length_physicalLines_le (store.getD [])
      rw [hlines, List.length_append] at hsize
      exact lt_of_le_of_lt hle (by omega)
    obtain ⟨entry, y, hy⟩ := append_reads ht hseq hx
    obtain ⟨more, z, hz, hlen⟩ := ih h hy
    exact ⟨entry :: more, z, by rwa [List.append_assoc, List.singleton_append] at hz,
      congrArg (· + 1) hlen⟩

/-- **The last line of a store** is the last record, which its tip is about. -/
theorem Reads.last {n : ℕ} {x : Expected} {lines : List (List UInt8)}
    (h : Reads sha256 n x lines entries y) (hne : lines ≠ []) :
    ∃ entry line seq prevHash, entries.getLast? = some entry ∧
      lines.getLast? = some (line ++ [lineFeed]) ∧ IsLine entry.record line ∧
      Valid sha256 entry.record seq prevHash y.prevHash entry.signedBytes ∧ y.seq = seq + 1 := by
  induction h with
  | nil => exact absurd rfl hne
  | @cons n x x' y line lines entry entries head tail ih =>
    by_cases hnil : lines = []
    · subst hnil
      cases tail
      obtain ⟨record, line, signedBytes, recordHash, rfl, hline, hvalid, -, rfl, rfl⟩ := checkLine_eq_ok.1 head
      exact ⟨_, line, x.seq, x.prevHash, rfl, rfl, hline, hvalid, rfl⟩
    · obtain ⟨entry', line', seq, prevHash, hentry, hlast, hrest⟩ := ih hnil
      refine ⟨entry', line', seq, prevHash, ?_, ?_, hrest⟩
      · rw [List.getLast?_cons, hentry]
        rfl
      · rw [List.getLast?_cons, hlast]
        rfl

/-- Every entry comes from a line. -/
theorem Reads.entry {n : ℕ} {x : Expected} {lines : List (List UInt8)}
    (h : Reads sha256 n x lines entries y) {entry : Entry} (hentry : entry ∈ entries) :
    ∃ line seq prevHash recordHash, IsLine entry.record line ∧
      Valid sha256 entry.record seq prevHash recordHash entry.signedBytes := by
  induction h with
  | nil => exact absurd hentry List.not_mem_nil
  | cons head tail ih =>
    rcases List.mem_cons.1 hentry with rfl | hentry
    · obtain ⟨record, line, signedBytes, recordHash, -, hline, hvalid, -, rfl, -⟩ := checkLine_eq_ok.1 head
      exact ⟨line, _, _, recordHash, hline, hvalid⟩
    · exact ih hentry

/-- SHA-256 does not collide on the signed bytes of a store. -/
def NoCollision (sha256 : Sha256) (store : Store) : Prop :=
  ∀ entries y, Reads sha256 1 .first store.lines entries y → ∀ e ∈ entries, ∀ e' ∈ entries,
    sha256.digest e.signedBytes = sha256.digest e'.signedBytes → e.signedBytes = e'.signedBytes

/-- `snapshot_tip` returns the last record of a store that is valid and not empty. -/
theorem snapshotTip_eq_ok {seq : ℤ} {tipHash : Str} :
    snapshotTip sha256 store = .ok (seq, tipHash) → ∃ entries y,
      Reads sha256 1 .first store.lines entries y ∧ y.seq ≠ 0 ∧ seq = y.seq - 1 ∧ tipHash = y.prevHash := by
  intro h
  cases store with
  | none => cases h
  | some bytes =>
    obtain ⟨⟨next, hash⟩, htip, h⟩ := bind_eq_ok.1 h
    obtain ⟨_, hne, h⟩ := bind_eq_ok.1 h
    obtain ⟨entries, y, hreads, hplace, -⟩ := chainTip_eq_ok.1 htip
    obtain ⟨rfl, rfl⟩ := Prod.mk.inj hplace
    obtain ⟨rfl, rfl⟩ := Prod.mk.inj (Except.ok.inj h)
    exact ⟨entries, y, hreads, by exact_mod_cast require_eq_ok.1 hne, rfl, rfl⟩

end Forensics
end Vestrix
