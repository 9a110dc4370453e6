/-
# The first fault of a chain

`verify_reader` stops at the first line that it refuses, and the error names that line by the
number of lines before it (`verifyLines_eq_error`).  A file so has a longest accepted prefix of
whole lines, the file is accepted when this prefix is all of it, and otherwise the error's
`seq` is the number of lines of the prefix (`first_fault`).
-/

import Vestrix.Verifier.Acceptance

namespace Vestrix
namespace Verifier

open Text Rounding Json Outcome Record

/-- A file of whole lines: nothing follows its last line feed. -/
def Terminated (file : List UInt8) : Prop := ∀ b ∈ file.getLast?, b = lineFeed

section

variable (sha256 : Sha256) (verifyStrict : List UInt8 → List UInt8 → Bool) (readFloat : FloatReader)

/-- A file that `verify_reader` accepts. -/
def Accepted (file : List UInt8) : Prop :=
  ∃ report, verifyReader sha256 verifyStrict readFloat file = .ok report

/-- The longest accepted prefix of whole lines. -/
structure LongestAccepted (front file : List UInt8) : Prop where
  isPrefix : front <+: file
  terminated : Terminated front
  accepted : Accepted sha256 verifyStrict readFloat front
  longest : ∀ other, other <+: file → Terminated other →
    Accepted sha256 verifyStrict readFloat other → other.length ≤ front.length

end

variable {sha256 : Sha256} {verifyStrict : List UInt8 → List UInt8 → Bool} {readFloat : FloatReader}
  {p q : Progress} {file : List UInt8}

/-! ### Lines -/

/-- Each line that is accepted raises the number by one. -/
theorem verifyLines_seq {ls : List (List UInt8)}
    (h : verifyLines sha256 verifyStrict readFloat p ls = .ok q) :
    q.expectedSeq = p.expectedSeq + ls.length := by
  induction ls generalizing p with
  | nil =>
    obtain rfl := Except.ok.inj h
    rfl
  | cons l ls ih =>
    rw [verifyLines] at h
    cases hl : verifyLine sha256 verifyStrict readFloat p l with
    | error e => rw [hl] at h; cases h
    | ok r =>
      rw [hl] at h
      obtain ⟨_, _, _, _, _, -, -, -, -, -, rfl⟩ := verifyLine_eq_ok.1 hl
      rw [ih h, List.length_cons, Nat.add_right_comm, Nat.add_assoc]

/-- **A refusal is about the first line that is refused.** -/
theorem verifyLines_eq_error {ls : List (List UInt8)} {e : ChainError}
    (h : verifyLines sha256 verifyStrict readFloat p ls = .error e) :
    ∃ before l after r, ls = before ++ l :: after ∧
      verifyLines sha256 verifyStrict readFloat p before = .ok r ∧
      verifyLine sha256 verifyStrict readFloat r l = .error e.reason ∧ e.seq = r.expectedSeq := by
  induction ls generalizing p with
  | nil => cases h
  | cons l ls ih =>
    rw [verifyLines] at h
    cases hl : verifyLine sha256 verifyStrict readFloat p l with
    | error reason =>
      rw [hl] at h
      obtain rfl := Except.error.inj h
      exact ⟨[], l, ls, p, rfl, rfl, hl, rfl⟩
    | ok r =>
      rw [hl] at h
      obtain ⟨before, l', after, r', rfl, hbefore, hl', hseq⟩ := ih h
      refine ⟨l :: before, l', after, r', rfl, ?_, hl', hseq⟩
      rw [verifyLines, hl]
      exact hbefore

/-- The first lines of accepted lines are accepted. -/
theorem verifyLines_front {ls ms : List (List UInt8)} (hfront : ls <+: ms)
    (h : verifyLines sha256 verifyStrict readFloat p ms = .ok q) :
    ∃ r, verifyLines sha256 verifyStrict readFloat p ls = .ok r := by
  obtain ⟨ns, rfl⟩ := hfront
  rw [verifyLines_append, bind_eq_ok] at h
  obtain ⟨r, hr, -⟩ := h
  exact ⟨r, hr⟩

/-- The last line that is accepted holds the record of the tip. -/
theorem verifyLines_getLast? {ls : List (List UInt8)} {l : List UInt8}
    (h : verifyLines sha256 verifyStrict readFloat p ls = .ok q) (hl : ls.getLast? = some l) :
    ∃ object line version prevHash recordHash recordBytes, l = line ++ [lineFeed] ∧
      IsLine readFloat object line ∧
      Valid sha256 verifyStrict object version (p.expectedSeq + ls.length - 1) prevHash recordHash
        recordBytes ∧
      q.tip = some ⟨p.expectedSeq + ls.length - 1, recordHash⟩ := by
  obtain ⟨init, rfl⟩ := List.getLast?_eq_some_iff.1 hl
  rw [verifyLines_append, bind_eq_ok] at h
  obtain ⟨r, hr, hq⟩ := h
  obtain ⟨object, line, version, recordHash, recordBytes, rfl, hline, hvalid, -, -, rfl⟩ :=
    verifyLine_eq_ok.1 (verifyLines_singleton.1 hq)
  have hseq : r.expectedSeq = p.expectedSeq + (init ++ [line ++ [lineFeed]]).length - 1 := by
    rw [verifyLines_seq hr, List.length_append, List.length_singleton]
    rfl
  rw [← hseq]
  exact ⟨object, line, version, _, recordHash, recordBytes, rfl, hline, hvalid, rfl⟩

/-! ### Files -/

/-- The lines of a prefix of whole lines are the first lines of the file. -/
theorem physicalLines_front {accepted : List UInt8} (h : accepted <+: file) (hterminated : Terminated accepted) :
    physicalLines accepted <+: physicalLines file := by
  obtain ⟨rest, rfl⟩ := h
  exact ⟨physicalLines rest,
    (physicalLines_append_of_terminated (terminated_of_getLast? hterminated) rest).symm⟩

/-- An accepted file ends with a line feed. -/
theorem Accepted.terminated (h : Accepted sha256 verifyStrict readFloat file) : Terminated file := by
  obtain ⟨report, hreport⟩ := h
  obtain ⟨q, hq, -⟩ := verifyReader_eq_ok.1 hreport
  intro b hb
  have hlines := terminated_of_verifyLines hq
  obtain ⟨front, rfl⟩ := List.getLast?_eq_some_iff.1 hb
  have hne : physicalLines (front ++ [b]) ≠ [] :=
    physicalLines_ne_nil (List.append_ne_nil_of_right_ne_nil _ (List.cons_ne_nil _ _))
  obtain ⟨init, l, hsplit⟩ := (List.eq_nil_or_concat' _).resolve_left hne
  have hl := hlines l (by rw [hsplit]; exact List.mem_append_right _ (List.mem_singleton_self l))
  have hflatten := flatten_physicalLines (front ++ [b])
  obtain ⟨line, rfl⟩ := List.getLast?_eq_some_iff.1 hl
  rw [hsplit, List.flatten_append, List.flatten_singleton, ← List.append_assoc] at hflatten
  exact (List.cons.inj (List.append_inj' hflatten rfl).2).1.symm

/-- The accepted prefixes of an accepted file are those of whole lines. -/
theorem Accepted.of_front (h : Accepted sha256 verifyStrict readFloat file) {front : List UInt8}
    (hfront : front <+: file) :
    Accepted sha256 verifyStrict readFloat front ↔ Terminated front := by
  refine ⟨Accepted.terminated, fun hterminated => ?_⟩
  obtain ⟨report, hreport⟩ := h
  obtain ⟨q, hq, -⟩ := verifyReader_eq_ok.1 hreport
  obtain ⟨r, hr⟩ := verifyLines_front (physicalLines_front hfront hterminated) hq
  exact ⟨⟨r.expectedSeq, r.tip⟩, verifyReader_eq_ok.2 ⟨r, hr, rfl⟩⟩

/-- A file of whole lines that is a prefix of another, and is as long, is it. -/
theorem LongestAccepted.unique {accepted accepted' : List UInt8}
    (h : LongestAccepted sha256 verifyStrict readFloat accepted file)
    (h' : LongestAccepted sha256 verifyStrict readFloat accepted' file) : accepted = accepted' := by
  have hle := h.longest _ h'.isPrefix h'.terminated h'.accepted
  have hle' := h'.longest _ h.isPrefix h.terminated h.accepted
  exact (List.prefix_of_prefix_length_le h.isPrefix h'.isPrefix hle').eq_of_length (le_antisymm hle' hle)

/-- An accepted file is its own longest accepted prefix. -/
theorem Accepted.longest (h : Accepted sha256 verifyStrict readFloat file) :
    LongestAccepted sha256 verifyStrict readFloat file file :=
  ⟨List.prefix_rfl, h.terminated, h, fun _ hother _ _ => hother.length_le⟩

/-- **The lines before the first fault** are the longest accepted prefix. -/
theorem longest_of_error {e : ChainError} (h : verifyReader sha256 verifyStrict readFloat file = .error e) :
    ∃ accepted, LongestAccepted sha256 verifyStrict readFloat accepted file ∧ accepted ≠ file ∧
      e.seq = (physicalLines accepted).length := by
  have hlines : verifyLines sha256 verifyStrict readFloat .start (physicalLines file) = .error e := by
    rw [verifyReader] at h
    cases hq : verifyLines sha256 verifyStrict readFloat .start (physicalLines file) with
    | error e' =>
      rw [hq] at h
      exact congrArg Except.error
        (Except.error.inj (show (.error e' : Except _ VerificationReport) = .error e from h))
    | ok q => rw [hq] at h; cases h
  obtain ⟨before, l, after, r, hsplit, hr, hl, hseq⟩ := verifyLines_eq_error hlines
  obtain ⟨accepted, rest, rfl, haccepted, hrest⟩ :=
    exists_of_physicalLines_eq_append hsplit (terminated_of_verifyLines hr)
  have hok : Accepted sha256 verifyStrict readFloat accepted :=
    ⟨⟨r.expectedSeq, r.tip⟩, verifyReader_eq_ok.2 ⟨r, haccepted ▸ hr, rfl⟩⟩
  refine ⟨accepted, ⟨⟨rest, rfl⟩, hok.terminated, hok, fun other hother hterminated hother' => ?_⟩, ?_, ?_⟩
  · -- a longer prefix would have the line that is refused
    by_contra hlt
    have hlonger := List.prefix_of_prefix_length_le ⟨rest, rfl⟩ hother (Nat.le_of_not_le hlt)
    have hfront := physicalLines_front hlonger hok.terminated
    have hwhole := physicalLines_front hother hterminated
    rw [haccepted] at hfront
    rw [hsplit] at hwhole
    obtain ⟨ns, hns⟩ := hfront
    rw [← hns, List.prefix_append_right_inj] at hwhole
    cases ns with
    | nil =>
      have hflatten := congrArg List.flatten (hns.symm.trans (List.append_nil before))
      rw [← haccepted, flatten_physicalLines, flatten_physicalLines] at hflatten
      exact hlt (by rw [hflatten])
    | cons m ns =>
      obtain ⟨rfl, -⟩ := List.cons_prefix_cons.1 hwhole
      obtain ⟨report, hreport⟩ := hother'
      obtain ⟨q, hq, -⟩ := verifyReader_eq_ok.1 hreport
      rw [← hns, verifyLines_append, hr, ok_bind, verifyLines, hl] at hq
      cases hq
  · intro heq
    have hnil : rest = [] := List.append_cancel_left (heq.symm.trans (List.append_nil _).symm)
    rw [hnil] at hrest
    cases hrest
  · rw [hseq, verifyLines_seq hr, haccepted]
    exact Nat.zero_add _

/-- **The tip of an accepted file** is about its last line. -/
theorem verifyReader_tip {report : VerificationReport}
    (h : verifyReader sha256 verifyStrict readFloat file = .ok report) (hne : file ≠ []) :
    ∃ object line version prevHash recordHash recordBytes,
      (physicalLines file).getLast? = some (line ++ [lineFeed]) ∧ IsLine readFloat object line ∧
      Valid sha256 verifyStrict object version (report.records - 1) prevHash recordHash recordBytes ∧
      report.tip = some ⟨report.records - 1, recordHash⟩ := by
  obtain ⟨q, hq, rfl⟩ := verifyReader_eq_ok.1 h
  obtain ⟨init, l, hsplit⟩ := (List.eq_nil_or_concat' _).resolve_left (physicalLines_ne_nil hne)
  have hl : (physicalLines file).getLast? = some l := by
    rw [hsplit, List.getLast?_concat]
  obtain ⟨object, line, version, prevHash, recordHash, recordBytes, rfl, hline, hvalid, htip⟩ :=
    verifyLines_getLast? hq hl
  rw [← verifyLines_seq hq] at hvalid htip
  exact ⟨object, line, version, prevHash, recordHash, recordBytes, hl, hline, hvalid, htip⟩

/-- An accepted file has a record for each line. -/
theorem verifyReader_records {report : VerificationReport}
    (h : verifyReader sha256 verifyStrict readFloat file = .ok report) :
    report.records = (physicalLines file).length := by
  obtain ⟨q, hq, rfl⟩ := verifyReader_eq_ok.1 h
  exact (verifyLines_seq hq).trans (Nat.zero_add _)

/-- **The first fault is what is reported.**  A file has one longest accepted prefix of whole
lines.  The file is accepted when this is all of it, with a record for each line and the
last one as the tip, and otherwise the error's `seq` is the number of its lines.  The
accepted prefixes of an accepted file are those of whole lines. -/
theorem first_fault (sha256 : Sha256) (verifyStrict : List UInt8 → List UInt8 → Bool)
    (readFloat : FloatReader) (file : List UInt8) :
    ∃ accepted, LongestAccepted sha256 verifyStrict readFloat accepted file ∧
      (∀ other, LongestAccepted sha256 verifyStrict readFloat other file → other = accepted) ∧
      ((∃ report, verifyReader sha256 verifyStrict readFloat file = .ok report) ↔ accepted = file) ∧
      (∀ report, verifyReader sha256 verifyStrict readFloat file = .ok report →
        report.records = (physicalLines accepted).length ∧ (file = [] → report.tip = none) ∧
        (file ≠ [] → ∃ object line recordHash,
          (physicalLines file).getLast? = some (line ++ [lineFeed]) ∧ IsLine readFloat object line ∧
          integerField object "seq".toList = .ok (report.records - 1) ∧
          stringField object "record_hash".toList = .ok recordHash ∧
          report.tip = some ⟨report.records - 1, recordHash⟩)) ∧
      (∀ e, verifyReader sha256 verifyStrict readFloat file = .error e →
        e.seq = (physicalLines accepted).length) ∧
      (Accepted sha256 verifyStrict readFloat file → ∀ front, front <+: file →
        (Accepted sha256 verifyStrict readFloat front ↔ front = [] ∨ front.getLast? = some lineFeed)) := by
  have hfronts : Accepted sha256 verifyStrict readFloat file → ∀ front, front <+: file →
      (Accepted sha256 verifyStrict readFloat front ↔ front = [] ∨ front.getLast? = some lineFeed) := by
    intro h front hfront
    rw [h.of_front hfront, Terminated]
    cases hlast : front.getLast? with
    | none => simp only [List.getLast?_eq_none_iff.1 hlast, Option.mem_def, reduceCtorEq, false_imp_iff,
        implies_true, true_or]
    | some b =>
      have hne : front ≠ [] := by
        rintro rfl
        cases hlast
      simp only [Option.mem_def, Option.some.injEq, forall_eq', hne, false_or]
  cases h : verifyReader sha256 verifyStrict readFloat file with
  | error e =>
    obtain ⟨accepted, haccepted, hne, hseq⟩ := longest_of_error h
    refine ⟨accepted, haccepted, fun other hother => hother.unique haccepted, ?_, fun report hreport => ?_,
      fun e' he => ?_, hfronts⟩
    · refine ⟨?_, fun heq => absurd heq hne⟩
      rintro ⟨report, hreport⟩
      cases hreport
    · cases hreport
    · obtain rfl := Except.error.inj he
      exact hseq
  | ok report =>
    have haccepted : Accepted sha256 verifyStrict readFloat file := ⟨report, h⟩
    refine ⟨file, haccepted.longest, fun other hother => hother.unique haccepted.longest,
      ⟨fun _ => rfl, fun _ => ⟨report, rfl⟩⟩, fun report' hreport => ?_, fun e he => ?_, hfronts⟩
    · obtain rfl := Except.ok.inj hreport
      refine ⟨verifyReader_records h, ?_, fun hne => ?_⟩
      · rintro rfl
        obtain rfl := Except.ok.inj h
        rfl
      · obtain ⟨object, line, version, prevHash, recordHash, recordBytes, hl, hline, hvalid, htip⟩ :=
          verifyReader_tip h hne
        exact ⟨object, line, recordHash, hl, hline, hvalid.seq_eq, hvalid.recordHash_eq, htip⟩
    · cases he

end Verifier
end Vestrix
