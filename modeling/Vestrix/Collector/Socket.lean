/-
# Reading a line from a socket

`_read_json_line` of `server.py` with the calls of `recv` that it makes.  A call asks for some bytes and
gets as many of them as `recv` likes, one at least until the peer has closed the connection.

How the bytes are split does not matter (`readJsonLine_determined`): while the loop runs, what it has
kept is the start of the stream, without a line feed, and never more than it may be.  So a
handler comes to the same event for every splitting (`readEvent_received`).
-/

import Vestrix.Collector.Ingest

namespace Vestrix
namespace Collector

open Text Outcome Ingest

/-- A connection that is read from: the bytes that are still to come, and `recv`, which returns the
first of them, no more than it is asked for, and none only when there are none. -/
structure Socket (σ : Type) where
  pending : σ → List UInt8
  recv : ℕ → σ → List UInt8 × σ
  recv_append : ∀ n s, (recv n s).1 ++ pending (recv n s).2 = pending s
  recv_length : ∀ n s, (recv n s).1.length ≤ n
  recv_nil : ∀ n s, 0 < n → (recv n s).1 = [] → pending s = []

/-- What `_read_json_line` raises. -/
inductive ReadError where
  | payloadRead (reason : Reason)
  | unicodeDecode
deriving DecidableEq

/-- `chunk.find(b"\n")`. -/
def newlineIndex? (chunk : List UInt8) : Option ℕ := chunk.findIdx? (· == lineFeed)

namespace Socket

variable {σ : Type} (socket : Socket σ)

/-- Each chunk that is received is taken from what is still to come. -/
theorem pending_length_lt {n : ℕ} {s : σ} (h : (socket.recv n s).1 ≠ []) :
    (socket.pending (socket.recv n s).2).length < (socket.pending s).length := by
  have hpos := List.length_pos_iff.2 h
  rw [← socket.recv_append n s, List.length_append]
  omega

/-- The loop of `_read_json_line`: the payload, with what `recv` has returned, and the socket. -/
def readPayload (limit : ℕ) (payload : List UInt8) (s : σ) :
    Except Reason (List UInt8) × List (List UInt8) × σ :=
  if payload.length ≤ limit then
    let chunk := (socket.recv (min 4096 (limit + 1 - payload.length)) s).1
    let s := (socket.recv (min 4096 (limit + 1 - payload.length)) s).2
    if chunk = [] then (.error .payloadMissingNewline, [chunk], s)
    else
      match newlineIndex? chunk with
      | some newlineIndex => (.ok (payload ++ chunk.take newlineIndex), [chunk], s)
      | none =>
        let (result, chunks, s) := readPayload limit (payload ++ chunk) s
        (result, chunk :: chunks, s)
  else (.ok payload, [], s)
termination_by (socket.pending s).length
decreasing_by exact socket.pending_length_lt ‹_›

/-- `_read_json_line`, and the socket after it. -/
def readJsonLine (limit : ℕ) (s : σ) : Except ReadError (List Char) × σ :=
  let (payload, _, s) := socket.readPayload limit [] s
  ((payload >>= checkLine limit).mapError .payloadRead >>= fun payload =>
    orError .unicodeDecode (fromUtf8 payload), s)

end Socket

/-- What a stream has for a payload: what comes before the first line feed, if this is among the
first bytes, and else as many bytes as are read of it. -/
def framed (limit : ℕ) (stream : List UInt8) : Except Reason (List UInt8) :=
  match newlineIndex? (stream.take (limit + 1)) with
  | some i => .ok (stream.take i)
  | none => if limit + 1 ≤ stream.length then .ok (stream.take (limit + 1)) else .error .payloadMissingNewline

/-- What a stream has for a line. -/
def lineOf (limit : ℕ) (stream : List UInt8) : Except ReadError (List Char) :=
  match newlineIndex? (stream.take (limit + 1)) with
  | some i =>
    if i = 0 then .error (.payloadRead .emptyPayload)
    else orError .unicodeDecode (fromUtf8 (stream.take i))
  | none =>
    if limit + 1 ≤ stream.length then .error (.payloadRead .payloadTooLarge)
    else .error (.payloadRead .payloadMissingNewline)

/-! ### One call -/

/-- Behind bytes without a line feed, the first one is found that much later. -/
theorem newlineIndex?_append {front : List UInt8} (h : newlineIndex? front = none) (back : List UInt8) :
    newlineIndex? (front ++ back) = (newlineIndex? back).map (· + front.length) := by
  rw [newlineIndex?, List.findIdx?_append, ← newlineIndex?, ← newlineIndex?, h, Option.none_or]

/-- The first line feed of a chunk is one of the chunk's bytes. -/
theorem newlineIndex?_lt {chunk : List UInt8} {i : ℕ} (h : newlineIndex? chunk = some i) :
    i < chunk.length := (List.findIdx?_eq_some_iff_getElem.1 h).1

/-- A line feed that comes first in some bytes comes first in what begins with them. -/
theorem newlineIndex?_append_of_some {front : List UInt8} {i : ℕ} (h : newlineIndex? front = some i)
    (back : List UInt8) : newlineIndex? (front ++ back) = some i := by
  rw [newlineIndex?, List.findIdx?_append, ← newlineIndex?, h, Option.some_or]

section

variable {limit : ℕ} {payload chunk rest : List UInt8}

/-- A stream of which all has been read without a line feed. -/
theorem framed_ended (hpayload : newlineIndex? payload = none) (hle : payload.length ≤ limit) :
    framed limit payload = .error .payloadMissingNewline := by
  rw [framed, List.take_of_length_le (by omega), hpayload]
  exact if_neg (by omega)

/-- A chunk with a line feed within the limit ends the payload before that line feed. -/
theorem framed_newline (hpayload : newlineIndex? payload = none) {i : ℕ} (hi : newlineIndex? chunk = some i)
    (hle : (payload ++ chunk).length ≤ limit + 1) :
    framed limit (payload ++ (chunk ++ rest)) = .ok (payload ++ chunk.take i) := by
  have hlt := newlineIndex?_lt hi
  have hindex : newlineIndex? ((payload ++ (chunk ++ rest)).take (limit + 1)) = some (i + payload.length) := by
    rw [← List.append_assoc, List.take_append, List.take_of_length_le hle]
    refine newlineIndex?_append_of_some ?_ _
    rw [newlineIndex?_append hpayload, hi]
    rfl
  rw [framed, hindex]
  dsimp only
  rw [Nat.add_comm i, List.take_length_add_append, List.take_append_of_le_length hlt.le]

/-- As much has been read as there may be, without a line feed. -/
theorem framed_full (hpayload : newlineIndex? payload = none) (hlength : payload.length = limit + 1) :
    framed limit (payload ++ rest) = .ok payload := by
  have htake : (payload ++ rest).take (limit + 1) = payload := by rw [← hlength, List.take_left]
  rw [framed, htake, hpayload]
  refine if_pos ?_
  rw [List.length_append]
  omega

end

namespace Socket

variable {σ : Type} {socket : Socket σ} {limit : ℕ}

/-- **The loop**: after what it has kept of a stream, it comes to what the stream has for a payload, and
reads no more bytes than the limit and one. -/
theorem readPayload_spec {payload : List UInt8} {s : σ} (hpayload : newlineIndex? payload = none)
    (hle : payload.length ≤ limit + 1) :
    (socket.readPayload limit payload s).1 = framed limit (payload ++ socket.pending s) ∧
      ∃ consumed, payload.length + consumed.length ≤ limit + 1 ∧
        socket.pending s = consumed ++ socket.pending (socket.readPayload limit payload s).2.2 := by
  induction hn : (socket.pending s).length using Nat.strong_induction_on generalizing payload s with
  | _ n ih =>
    rw [readPayload]
    split_ifs with hmore
    · have happend := socket.recv_append (min 4096 (limit + 1 - payload.length)) s
      have hlength := socket.recv_length (min 4096 (limit + 1 - payload.length)) s
      have hnil := socket.recv_nil (min 4096 (limit + 1 - payload.length)) s (by omega)
      have hlt := socket.pending_length_lt (n := min 4096 (limit + 1 - payload.length)) (s := s)
      generalize socket.recv (min 4096 (limit + 1 - payload.length)) s = r at happend hlength hnil hlt ⊢
      obtain ⟨chunk, s'⟩ := r
      dsimp only at happend hlength hnil hlt ⊢
      split_ifs with hchunk
      · -- the peer has closed the connection
        have hend := hnil hchunk
        rw [hend, List.append_nil, framed_ended hpayload hmore]
        rw [hchunk, hend] at happend
        exact ⟨rfl, [], by rw [List.length_nil]; omega, happend.symm⟩
      · have hfits : (payload ++ chunk).length ≤ limit + 1 := by
          rw [List.length_append]
          omega
        cases hindex : newlineIndex? chunk with
        | some i =>
          dsimp only
          rw [← happend, framed_newline hpayload hindex hfits]
          rw [List.length_append] at hfits
          exact ⟨rfl, chunk, hfits, rfl⟩
        | none =>
          have hkept : newlineIndex? (payload ++ chunk) = none := by
            rw [newlineIndex?_append hpayload, hindex]
            rfl
          obtain ⟨hresult, consumed, hconsumed, hrest⟩ := ih _ (hn ▸ hlt hchunk) hkept hfits rfl
          dsimp only
          rw [hresult, ← happend, List.append_assoc]
          refine ⟨rfl, chunk ++ consumed, ?_, by rw [List.append_assoc, ← hrest]⟩
          rw [List.length_append] at hconsumed ⊢
          omega
    · rw [framed_full hpayload (by omega)]
      exact ⟨rfl, [], hle, rfl⟩

/-- The check of a frame's line, and its decoding, is what a stream has for a line. -/
theorem checkLine_framed {stream : List UInt8} :
    (((framed limit stream >>= checkLine limit).mapError ReadError.payloadRead) >>= fun payload =>
      orError .unicodeDecode (fromUtf8 payload)) = lineOf limit stream := by
  rw [framed, lineOf]
  cases hindex : newlineIndex? (stream.take (limit + 1)) with
  | some i =>
    have hlt := newlineIndex?_lt hindex
    rw [List.length_take] at hlt
    have hlength : (stream.take i).length = i := List.length_take_of_le (by omega)
    dsimp only
    rw [ok_bind, checkLine, require_true (by omega), ok_bind]
    split_ifs with hi
    · rw [hi]
      rfl
    · have hne : stream.take i ≠ [] := fun h => hi (by rw [← hlength, h, List.length_nil])
      rw [require_true hne]
      rfl
  | none =>
    dsimp only
    split_ifs with hlong
    · rw [ok_bind, checkLine, require_false (by rw [List.length_take_of_le hlong]; omega)]
      rfl
    · rfl

/-- **Reading a frame does not depend on how the stream is split**, and takes no more of it than the
limit and one byte. -/
theorem readJsonLine_determined (socket : Socket σ) (limit : ℕ) (s : σ) :
    (socket.readJsonLine limit s).1 = lineOf limit (socket.pending s) ∧
      ∃ consumed, consumed.length ≤ limit + 1 ∧
        socket.pending s = consumed ++ socket.pending (socket.readJsonLine limit s).2 := by
  have hnone : newlineIndex? [] = none := rfl
  obtain ⟨hresult, consumed, hconsumed, hrest⟩ :=
    socket.readPayload_spec (s := s) hnone (Nat.zero_le (limit + 1))
  rw [List.length_nil, Nat.zero_add] at hconsumed
  rw [List.nil_append] at hresult
  refine ⟨?_, consumed, hconsumed, hrest⟩
  rw [readJsonLine, ← checkLine_framed, ← hresult]

/-! ### What a handler sees -/

/-- What `recv` returns to `_read_json_line`. -/
def received (socket : Socket σ) (limit : ℕ) (s : σ) : List (List UInt8) :=
  (socket.readPayload limit [] s).2.1

/-- What is kept of a chunk is what comes before its first line feed. -/
theorem take_newlineIndex {chunk : List UInt8} {i : ℕ} (h : newlineIndex? chunk = some i) :
    chunk.take i = chunk.takeWhile (· ≠ lineFeed) := by
  rw [List.takeWhile_eq_take_findIdx_not]
  have hi := (List.findIdx?_eq_some_iff_findIdx_eq.1 h).2
  rw [← hi]
  congr 2
  funext b
  rw [decide_not, Bool.not_not]
  rfl

/-- A chunk has no line feed just if none is found. -/
theorem newlineIndex?_eq_none {chunk : List UInt8} : newlineIndex? chunk = none ↔ lineFeed ∉ chunk := by
  rw [newlineIndex?, List.findIdx?_eq_none_iff]
  constructor
  · intro h hmem
    have := h _ hmem
    simp at this
  · rintro h b hb
    exact beq_eq_false_iff_ne.2 fun heq => h (heq ▸ hb)

/-- The handler's view of a call: the chunks that it is given lead to the same payload. -/
theorem readJsonLine_chunks {payload : List UInt8} {s : σ} (hle : payload.length ≤ limit) :
    Ingest.readJsonLine limit payload (socket.readPayload limit payload s).2.1 =
      (socket.readPayload limit payload s).1 >>= checkLine limit := by
  induction hn : (socket.pending s).length using Nat.strong_induction_on generalizing payload s with
  | _ n ih =>
    rw [readPayload, if_pos hle]
    have hlt := socket.pending_length_lt (n := min 4096 (limit + 1 - payload.length)) (s := s)
    generalize socket.recv (min 4096 (limit + 1 - payload.length)) s = r at hlt ⊢
    obtain ⟨chunk, s'⟩ := r
    dsimp only at hlt ⊢
    split_ifs with hchunk
    · rw [Ingest.readJsonLine, if_pos hchunk]
      rfl
    · cases hindex : newlineIndex? chunk with
      | some i =>
        have hmem : lineFeed ∈ chunk := by
          by_contra hnot
          rw [newlineIndex?_eq_none.2 hnot] at hindex
          cases hindex
        dsimp only
        rw [Ingest.readJsonLine, if_neg hchunk, if_pos hmem, take_newlineIndex hindex]
        rfl
      | none =>
        dsimp only
        rw [Ingest.readJsonLine, if_neg hchunk, if_neg (newlineIndex?_eq_none.1 hindex)]
        split_ifs with hmore
        · exact ih _ (hn ▸ hlt hchunk) hmore rfl
        · rw [readPayload, if_neg hmore]
          rfl

/-- **A handler comes to the same event for every splitting of a stream.** -/
theorem readEvent_received {τ : Type} {socket' : Socket τ} {s : σ} {t : τ}
    (h : socket.pending s = socket'.pending t) :
    readEvent limit (socket.received limit s) = readEvent limit (socket'.received limit t) := by
  have hstream : ∀ {υ : Type} (socket : Socket υ) (s : υ),
      Ingest.readJsonLine limit [] (socket.received limit s) =
        framed limit (socket.pending s) >>= checkLine limit := fun socket s => by
    rw [received, readJsonLine_chunks (Nat.zero_le limit),
      (readPayload_spec rfl (Nat.zero_le _)).1, List.nil_append]
  rw [readEvent, readEvent, hstream, hstream, h]

end Socket

/-- A peer's bytes, split where the sizes say. -/
def scripted : Socket (List UInt8 × List ℕ) where
  pending s := s.1
  recv n s := (s.1.take (min n (max 1 (s.2.headD 1))), s.1.drop (min n (max 1 (s.2.headD 1))), s.2.tail)
  recv_append n s := List.take_append_drop _ _
  recv_length n s := (List.length_take_le _ _).trans (Nat.min_le_left _ _)
  recv_nil n s hn h := by
    rw [List.take_eq_nil_iff] at h
    exact h.resolve_left (by omega)

/-- One stream in two splittings. -/
example : (scripted.readJsonLine 3 ([0x7b, 0x7d, 0x0a, 0x20], [1, 1, 1])).1 =
    (scripted.readJsonLine 3 ([0x7b, 0x7d, 0x0a, 0x20], [4])).1 := by
  simp [Socket.readJsonLine, Socket.readPayload, scripted, newlineIndex?, lineFeed, List.findIdx?_cons]

end Collector
end Vestrix
