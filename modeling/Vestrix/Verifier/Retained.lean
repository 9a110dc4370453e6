/-
# What a retained tip stands for

Whoever keeps the digest of a tip can compare it with the tip of a file that is accepted
later, under whatever key.  The records of an accepted file form a hash chain
(`verifyLines_linked`), so that the digest determines all of them except for their
signatures (`tip_binds_history`).
-/

import Vestrix.Record.HashChain
import Vestrix.Verifier.Acceptance

namespace Vestrix
namespace Verifier

open Text Rounding Json Outcome Record

/-- The object on a physical line, as `verify_reader` reads it. -/
def storedObject (readFloat : FloatReader) (physicalLine : List UInt8) : Option Object :=
  (fromUtf8 physicalLine.dropLast).bind fun stored => (parse readFloat stored).toOption.bind asObject

/-- The records of a file. -/
def records (readFloat : FloatReader) (file : List UInt8) : List Object :=
  (physicalLines file).filterMap (storedObject readFloat)

/-- What is signed of a record, without its `record_hash` and its `signature`. -/
def unsignedBytes (unsigned : Object) : List UInt8 := (serialize (.object unsigned)).toOption.getD []

/-- The records of the verifier as a hash chain. -/
def hashChain (sha256 : Sha256) : HashChain Object Object (List Char) where
  content := unsignedOf
  position o := (integerField o "seq".toList).toOption.getD 0
  prev o := (stringField o "prev_hash".toList).toOption.getD []
  digest o := sha256.hexdigest (unsignedBytes o)

/-- Two records have the same fields, except perhaps for their signatures. -/
def AgreeExceptSignature (o o' : Object) : Prop :=
  ∀ key, key ≠ "signature".toList → lookup o key = lookup o' key

variable {sha256 : Sha256} {verifyStrict verifyStrict' : List UInt8 → List UInt8 → Bool}
  {readFloat : FloatReader} {object object' : Object} {p q : Progress}

/-- The object of a line is read back from it. -/
theorem storedObject_of_isLine {line : List UInt8} (h : IsLine readFloat object line) :
    storedObject readFloat (line ++ [lineFeed]) = some object := by
  obtain ⟨stored, hstored, hparse⟩ := h.parse
  rw [storedObject, List.dropLast_concat, hstored, Option.bind_some, hparse]
  rfl

/-! ### One record -/

/-- An object as it stands in an accepted file. -/
structure Recorded (sha256 : Sha256) (object : Object) : Prop where
  permitted : Permitted (.object object)
  keys : (Json.object object).SortedKeys
  recordHash : stringField object "record_hash".toList = .ok (sha256.hexdigest (unsignedBytes (unsignedOf object)))

/-- The other fields of a record are those of the unsigned one. -/
theorem lookup_unsignedOf {key : List Char}
    (h : key ∉ ["record_hash".toList, "signature".toList]) :
    lookup (unsignedOf object) key = lookup object key := by
  rw [unsignedOf, lookup_filter (q := fun k => decide (k ∉ ["record_hash".toList, "signature".toList]))
    fun _ => rfl, if_pos (decide_eq_true h)]

/-- Without hash and signature, a record is permitted and has its keys in order. -/
theorem Recorded.unsigned (h : Recorded sha256 object) :
    Permitted (.object (unsignedOf object)) ∧ (Json.object (unsignedOf object)).SortedKeys := by
  obtain ⟨-, hvalues⟩ := forall_object.1 h.permitted
  obtain ⟨hkeys, hsorted⟩ := forall_object.1 h.keys
  refine ⟨.object trivial fun m hm => hvalues m (List.mem_of_mem_filter hm), .object ?_ fun m hm =>
    hsorted m (List.mem_of_mem_filter hm)⟩
  exact hkeys.sublist (List.filter_sublist.map Prod.fst)

/-- **The signed bytes determine the fields that are signed.** -/
theorem Recorded.unsigned_injective (h : Recorded sha256 object) (h' : Recorded sha256 object')
    (hbytes : unsignedBytes (unsignedOf object) = unsignedBytes (unsignedOf object')) :
    unsignedOf object = unsignedOf object' := by
  obtain ⟨hpermitted, hkeys⟩ := h.unsigned
  obtain ⟨hpermitted', hkeys'⟩ := h'.unsigned
  have hencodable : Encodable (.object (unsignedOf object)) := ⟨hpermitted, hkeys.distinctKeys⟩
  have hencodable' : Encodable (.object (unsignedOf object')) := ⟨hpermitted', hkeys'.distinctKeys⟩
  rw [unsignedBytes, unsignedBytes, hencodable.serialize, hencodable'.serialize] at hbytes
  have hsorted := hencodable.text_injective hencodable' (utf8_injective hbytes)
  rw [sorted_eq_self hkeys, sorted_eq_self hkeys'] at hsorted
  exact Json.object.inj hsorted

/-- Records that sign the same differ in their signatures at most. -/
theorem Recorded.agree (h : Recorded sha256 object) (h' : Recorded sha256 object')
    (hunsigned : unsignedOf object = unsignedOf object') : AgreeExceptSignature object object' := by
  intro key hkey
  by_cases hhash : key = "record_hash".toList
  · subst hhash
    have hfield := h.recordHash
    rw [hunsigned] at hfield
    obtain ⟨v, hv, ht⟩ := stringField_eq_ok.1 hfield
    obtain ⟨v', hv', ht'⟩ := stringField_eq_ok.1 h'.recordHash
    rw [hv, hv', asStr_eq_some.1 ht, asStr_eq_some.1 ht']
  · have hnotMem : key ∉ ["record_hash".toList, "signature".toList] := by
      rw [List.mem_cons, List.mem_singleton, not_or]
      exact ⟨hhash, hkey⟩
    rw [← lookup_unsignedOf hnotMem, hunsigned, lookup_unsignedOf hnotMem]

/-! ### A file -/

/-- An accepted line holds the record that comes next. -/
theorem verifyLine_recorded {line : List UInt8}
    (h : verifyLine sha256 verifyStrict readFloat p line = .ok q) :
    ∃ object, storedObject readFloat line = some object ∧ Recorded sha256 object ∧
      (hashChain sha256).position (unsignedOf object) = p.expectedSeq ∧
      (hashChain sha256).prev (unsignedOf object) = p.expectedPrev ∧
      q.expectedSeq = p.expectedSeq + 1 ∧
      q.expectedPrev = (hashChain sha256).digest (unsignedOf object) ∧
      q.tip = some ⟨p.expectedSeq, q.expectedPrev⟩ := by
  obtain ⟨object, line, version, recordHash, recordBytes, rfl, hline, hvalid, -, -, rfl⟩ :=
    verifyLine_eq_ok.1 h
  obtain ⟨stored, -, hparse⟩ := hline.parse
  obtain ⟨hpermitted, hkeys⟩ := parse_wellFormed hparse
  have hbytes : unsignedBytes (unsignedOf object) = recordBytes := by
    rw [unsignedBytes, hvalid.recordBytes_eq]
    rfl
  have hhash : recordHash = sha256.hexdigest (unsignedBytes (unsignedOf object)) := by
    rw [hbytes, hvalid.hash_eq]
  have hseq := hvalid.seq_eq
  have hprev := hvalid.prevHash_eq
  rw [integerField, ← lookup_unsignedOf (by decide)] at hseq
  rw [stringField, ← lookup_unsignedOf (by decide)] at hprev
  refine ⟨object, storedObject_of_isLine hline, ⟨hpermitted, hkeys, hhash ▸ hvalid.recordHash_eq⟩, ?_, ?_,
    rfl, hhash, rfl⟩
  · show (integerField (unsignedOf object) "seq".toList).toOption.getD 0 = p.expectedSeq
    rw [integerField, hseq]
    rfl
  · show (stringField (unsignedOf object) "prev_hash".toList).toOption.getD [] = p.expectedPrev
    rw [stringField, hprev]
    rfl

/-- **The records of accepted lines are linked**, one for each line. -/
theorem verifyLines_linked {ls : List (List UInt8)}
    (h : verifyLines sha256 verifyStrict readFloat p ls = .ok q) :
    (hashChain sha256).Linked p.expectedSeq p.expectedPrev (ls.filterMap (storedObject readFloat)) ∧
      (hashChain sha256).tip p.expectedPrev (ls.filterMap (storedObject readFloat)) = q.expectedPrev ∧
      q.expectedSeq = p.expectedSeq + (ls.filterMap (storedObject readFloat)).length ∧
      ∀ o ∈ ls.filterMap (storedObject readFloat), Recorded sha256 o := by
  induction ls generalizing p with
  | nil =>
    obtain rfl := Except.ok.inj h
    exact ⟨trivial, rfl, rfl, fun o ho => absurd ho List.not_mem_nil⟩
  | cons l ls ih =>
    rw [verifyLines] at h
    cases hl : verifyLine sha256 verifyStrict readFloat p l with
    | error e => rw [hl] at h; cases h
    | ok r =>
      rw [hl] at h
      obtain ⟨o, ho, hrecorded, hposition, hprev, hseq, hdigest, -⟩ := verifyLine_recorded hl
      obtain ⟨hlinked, htip, hlen, hall⟩ := ih h
      rw [List.filterMap_cons_some ho]
      refine ⟨⟨hposition, hprev, ?_⟩, ?_, ?_, List.forall_mem_cons.2 ⟨hrecorded, hall⟩⟩
      · rw [← hseq, ← show r.expectedPrev = (hashChain sha256).digest ((hashChain sha256).content o) from hdigest]
        exact hlinked
      · rw [HashChain.tip_cons, ← show r.expectedPrev = (hashChain sha256).digest
          ((hashChain sha256).content o) from hdigest, htip]
      · rw [hlen, hseq, List.length_cons]
        omega

/-- The tip is that of the last record. -/
theorem verifyLines_tip {ls : List (List UInt8)}
    (h : verifyLines sha256 verifyStrict readFloat p ls = .ok q)
    (hp : ∀ t ∈ p.tip, t.seq + 1 = p.expectedSeq ∧ t.recordHash = p.expectedPrev) :
    ∀ t ∈ q.tip, t.seq + 1 = q.expectedSeq ∧ t.recordHash = q.expectedPrev := by
  induction ls generalizing p with
  | nil =>
    obtain rfl := Except.ok.inj h
    exact hp
  | cons l ls ih =>
    rw [verifyLines] at h
    cases hl : verifyLine sha256 verifyStrict readFloat p l with
    | error e => rw [hl] at h; cases h
    | ok r =>
      rw [hl] at h
      obtain ⟨o, -, -, -, -, hseq, -, htip⟩ := verifyLine_recorded hl
      refine ih h fun t ht => ?_
      rw [htip] at ht
      obtain rfl := Option.some.inj ht
      exact ⟨hseq.symm, rfl⟩

/-- **What is known of an accepted file**, whose tip is given. -/
theorem verifyReader_linked {file : List UInt8} {report : VerificationReport} {tip : ChainTip}
    (h : verifyReader sha256 verifyStrict readFloat file = .ok report) (htip : report.tip = some tip) :
    (hashChain sha256).Linked 0 genesis (records readFloat file) ∧
      (hashChain sha256).tip genesis (records readFloat file) = tip.recordHash ∧
      report.records = (records readFloat file).length ∧ records readFloat file ≠ [] ∧
      ∀ o ∈ records readFloat file, Recorded sha256 o := by
  obtain ⟨q, hq, rfl⟩ := verifyReader_eq_ok.1 h
  obtain ⟨hlinked, hdigest, hlen, hall⟩ := verifyLines_linked hq
  obtain ⟨hseq, hhash⟩ := verifyLines_tip hq (fun t ht => nomatch ht) tip htip
  have hrecords : q.expectedSeq = (records readFloat file).length := hlen.trans (Nat.zero_add _)
  refine ⟨hlinked, hdigest.trans hhash.symm, hrecords, fun hnil => ?_, hall⟩
  rw [hnil, ← hseq] at hrecords
  cases hrecords

/-- **A retained tip binds the history.**  Two accepted files with the same `record_hash` at
their tips have the same records, except for the signatures; the keys do not matter. -/
theorem tip_binds_history {file file' : List UInt8} {report report' : VerificationReport}
    {tip tip' : ChainTip} (h : verifyReader sha256 verifyStrict readFloat file = .ok report)
    (h' : verifyReader sha256 verifyStrict' readFloat file' = .ok report')
    (htip : report.tip = some tip) (htip' : report'.tip = some tip')
    (hhash : tip.recordHash = tip'.recordHash)
    (hcollision : ∀ o ∈ records readFloat file, ∀ o' ∈ records readFloat file',
      sha256.digest (unsignedBytes (unsignedOf o)) = sha256.digest (unsignedBytes (unsignedOf o')) →
        unsignedBytes (unsignedOf o) = unsignedBytes (unsignedOf o')) :
    report.records = report'.records ∧ report.records = (records readFloat file).length ∧
      List.Forall₂ AgreeExceptSignature (records readFloat file) (records readFloat file') := by
  obtain ⟨hlinked, hdigest, hlen, hne, hall⟩ := verifyReader_linked h htip
  obtain ⟨hlinked', hdigest', hlen', hne', hall'⟩ := verifyReader_linked h' htip'
  have hcontent : (records readFloat file).map unsignedOf = (records readFloat file').map unsignedOf := by
    refine hlinked.eq_of_tip hlinked' (fun o ho o' ho' heq => ?_) hne hne'
      (by rw [hdigest, hdigest', hhash])
    exact (hall o ho).unsigned_injective (hall' o' ho') (hcollision o ho o' ho' (hex_injective heq))
  have hlength : (records readFloat file).length = (records readFloat file').length := by
    rw [← List.length_map unsignedOf, hcontent, List.length_map]
  refine ⟨by rw [hlen, hlen', hlength], hlen, List.forall₂_iff_get.2 ⟨hlength, fun i hi hi' => ?_⟩⟩
  have hunsigned : unsignedOf (records readFloat file)[i] = unsignedOf (records readFloat file')[i] := by
    have heq := congrArg (fun l => l[i]?) hcontent
    rwa [List.getElem?_map, List.getElem?_map, List.getElem?_eq_getElem hi, List.getElem?_eq_getElem hi',
      Option.map_some, Option.map_some, Option.some.injEq] at heq
  exact (hall _ (List.getElem_mem hi)).agree (hall' _ (List.getElem_mem hi')) hunsigned

/-- The fields of a record up to its number. -/
def retainedFields (previousHash : List Char) : List Char :=
  "\x7b\"class\":\"empty\",\"confidence\":1,\"features_hash\":\"".toList ++ List.replicate 64 'b' ++
    "\",\"model_config_hash\":\"".toList ++ List.replicate 64 'c' ++
    "\",\"model_id\":\"m\",\"node_id\":\"node-1\",\"prev_hash\":\"".toList ++ previousHash ++
    "\",\"raw_csi_hash\":\"".toList ++ List.replicate 64 'a' ++ "\",".toList

/-- What is signed of a record; the number is also the second of its timestamp. -/
def retainedBytes (previousHash : List Char) (number : Char) : List UInt8 :=
  utf8 (retainedFields previousHash ++ "\"seq\":".toList ++ [number] ++
    ",\"top_shap\":[],\"ts_utc\":\"2026-07-01T12:00:0".toList ++ [number] ++ "Z\"\x7d".toList)

/-- The SHA-256 hash of the first record. -/
def retainedHash : List UInt8 :=
  [0x89, 0xf7, 0x4a, 0xf1, 0xab, 0x87, 0x77, 0x6c, 0xaf, 0xe6, 0xc0, 0xd0, 0xc8, 0xe4, 0x6b, 0x3b,
   0x34, 0x81, 0xb2, 0xe8, 0x43, 0x49, 0xd1, 0xf4, 0x12, 0x31, 0x46, 0x31, 0x6b, 0x16, 0xf9, 0xc4]

/-- What is signed of the second record. -/
def retainedTip : List UInt8 := retainedBytes (hex retainedHash) '1'

/-- SHA-256 on two linked records. -/
def retainedSha256 : Sha256 where
  digest m :=
    if m = retainedBytes genesis '0' then
      retainedHash
    else if m = retainedTip then
      [0xc8, 0x63, 0x6b, 0x0e, 0x9b, 0x2e, 0xb0, 0xb0, 0x15, 0x52, 0x4e, 0xf8, 0xc5, 0xc9, 0xc5, 0x77,
       0xa2, 0xfd, 0xe0, 0xc6, 0xbc, 0x21, 0x7e, 0x2d, 0x93, 0x1a, 0x7c, 0xe0, 0x6b, 0x86, 0x5f, 0xdc]
    else List.replicate 32 0
  length_digest m := by split_ifs <;> rfl

/-- Ed25519 signatures of the two records under two keys. -/
def retainedSignature : Bool → Char → List UInt8
  | false, '0' =>
    [0xa2, 0xe7, 0x0a, 0xbd, 0x06, 0x20, 0x19, 0x2c, 0xc4, 0xdf, 0x04, 0x02, 0x44, 0x3f, 0x71, 0x66,
     0x25, 0x15, 0x24, 0xce, 0x75, 0x26, 0x0a, 0xa4, 0x6b, 0x02, 0x4d, 0x91, 0x12, 0x22, 0xbb, 0x01,
     0xf0, 0x9f, 0x7e, 0xe3, 0xeb, 0x4e, 0xf6, 0x4b, 0xd3, 0x66, 0x3f, 0x7c, 0xc0, 0x35, 0xe9, 0xca,
     0xa4, 0xe7, 0x72, 0x5f, 0xc7, 0x32, 0x7b, 0x5f, 0x32, 0xf5, 0xde, 0x7f, 0x9b, 0x02, 0x63, 0x0f]
  | false, _ =>
    [0xb6, 0x44, 0x21, 0xb7, 0xb0, 0xec, 0x95, 0x72, 0xb6, 0xc8, 0xdc, 0x6f, 0xdc, 0xe9, 0x47, 0xda,
     0xc9, 0x61, 0x86, 0x40, 0x80, 0x36, 0xe6, 0xe2, 0xde, 0x87, 0x6b, 0x6e, 0xb4, 0xc8, 0xdf, 0x7c,
     0x7d, 0xfb, 0x7d, 0x49, 0x63, 0xf3, 0xc2, 0x18, 0x83, 0xe5, 0xc7, 0xac, 0xfe, 0xbd, 0xbe, 0xc8,
     0x2a, 0x1f, 0x06, 0x80, 0x95, 0xab, 0x5f, 0xcb, 0x90, 0x24, 0x48, 0x1b, 0x1d, 0xf0, 0xbe, 0x02]
  | true, '0' =>
    [0x80, 0x5c, 0x36, 0x9e, 0x60, 0x8e, 0xab, 0x8f, 0xae, 0x84, 0x5e, 0x0c, 0x16, 0x86, 0x46, 0x8b,
     0x38, 0xd9, 0xc9, 0xeb, 0xf8, 0x07, 0x9e, 0x20, 0x7a, 0xee, 0x02, 0xdf, 0xe7, 0xe1, 0xd6, 0x9f,
     0xea, 0x62, 0x80, 0x89, 0x22, 0xfc, 0x40, 0x9e, 0xa2, 0xb5, 0x75, 0x6d, 0x38, 0x14, 0x54, 0xa3,
     0x94, 0x5b, 0xf6, 0x1e, 0x22, 0x00, 0x3a, 0xa7, 0x2d, 0x40, 0xeb, 0xb7, 0x57, 0x34, 0x38, 0x08]
  | true, _ =>
    [0xa5, 0xbf, 0xa7, 0x88, 0x79, 0x14, 0x7d, 0x32, 0x06, 0x20, 0xa3, 0xfa, 0xee, 0xc9, 0x71, 0x66,
     0x39, 0x54, 0x25, 0x8a, 0x23, 0x2d, 0x2c, 0x35, 0xed, 0x85, 0xe0, 0x4e, 0xc1, 0x6a, 0x7b, 0xaa,
     0x71, 0x2c, 0x6b, 0x3a, 0x3e, 0xa6, 0x6d, 0x33, 0x8c, 0x0a, 0x58, 0x0b, 0x9f, 0x25, 0x36, 0x2e,
     0x17, 0xf7, 0xe7, 0xa4, 0xe7, 0x2f, 0xce, 0x67, 0x3e, 0xf2, 0xad, 0x3f, 0x26, 0x21, 0xb4, 0x01]

/-- The verification of these signatures under the two keys. -/
def retainedVerify (key : Bool) (signature message : List UInt8) : Bool :=
  decide (signature = retainedSignature key '0' ∧ message = retainedBytes genesis '0' ∨
    signature = retainedSignature key '1' ∧ message = retainedTip)

/-- The line of a record with one of the signatures. -/
def retainedLine (key : Bool) (previousHash : List Char) (number : Char) : List UInt8 :=
  utf8 (retainedFields previousHash ++ "\"record_hash\":\"".toList ++
    retainedSha256.hexdigest (retainedBytes previousHash number) ++ "\",\"seq\":".toList ++ [number] ++
    ",\"signature\":\"".toList ++ hex (retainedSignature key number) ++
    "\",\"top_shap\":[],\"ts_utc\":\"2026-07-01T12:00:0".toList ++ [number] ++ "Z\"\x7d\n".toList)

/-- The file of the two records with the signatures of one key. -/
def retainedFile (key : Bool) : List UInt8 :=
  retainedLine key genesis '0' ++ retainedLine key (hex retainedHash) '1'

/-- Both files are accepted, and have the same two records. -/
theorem verifyReader_retained : ∀ key,
    verifyReader retainedSha256 (retainedVerify key) nearestFloat (retainedFile key) =
      .ok ⟨2, some ⟨1, retainedSha256.hexdigest retainedTip⟩⟩ ∧
    (records nearestFloat (retainedFile key)).map (fun o => unsignedBytes (unsignedOf o)) =
      [retainedBytes genesis '0', retainedTip] := by
  decide +kernel

/-- The records of the two files do not collide. -/
theorem retained_injective {key key' : Bool} {o o' : Object} (ho : o ∈ records nearestFloat (retainedFile key))
    (ho' : o' ∈ records nearestFloat (retainedFile key'))
    (heq : retainedSha256.digest (unsignedBytes (unsignedOf o)) =
      retainedSha256.digest (unsignedBytes (unsignedOf o'))) :
    unsignedBytes (unsignedOf o) = unsignedBytes (unsignedOf o') := by
  have hdistinct : retainedSha256.digest (retainedBytes genesis '0') ≠ retainedSha256.digest retainedTip := by
    decide +kernel
  have hmem : unsignedBytes (unsignedOf o) ∈ _ := (verifyReader_retained key).2 ▸ List.mem_map_of_mem ho
  have hmem' : unsignedBytes (unsignedOf o') ∈ _ := (verifyReader_retained key').2 ▸ List.mem_map_of_mem ho'
  rw [List.mem_cons, List.mem_singleton] at hmem hmem'
  obtain ho | ho := hmem <;> obtain ho' | ho' := hmem' <;> rw [ho, ho'] at heq ⊢
  · exact absurd heq hdistinct
  · exact absurd heq.symm hdistinct

/-- Two files of two linked records agree whoever has signed them. -/
theorem tip_binds_history_sample : (records nearestFloat (retainedFile false)).length = 2 ∧
    List.Forall₂ AgreeExceptSignature (records nearestFloat (retainedFile false))
      (records nearestFloat (retainedFile true)) := by
  have hlength := congrArg List.length (verifyReader_retained false).2
  rw [List.length_map] at hlength
  exact ⟨hlength, (tip_binds_history (verifyReader_retained false).1 (verifyReader_retained true).1 rfl rfl rfl
    fun _ ho _ ho' => retained_injective ho ho').2.2⟩

end Verifier
end Vestrix
