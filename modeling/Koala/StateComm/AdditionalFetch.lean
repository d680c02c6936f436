import Koala.State.Backend
import Koala.StateComm.TcpFrame

/-!
# Additional keys: one request, a stream of response frames

During eventual migration a worker asks for a flat list of keys.  The server reads the values in batches of
`AdditionalKeyGetManyBatchSize` keys and sends the values of a batch in as many frames as the frame size needs;
the client knows from each frame only how many values it holds, and stops when it has as many values as keys.

The server's two chunkings are described by the lists of values that share a frame (`sendBatches_ok`), and the
client's loop by consuming such a list of frames (`receiveLoop_frames`); `additionalKeys_paired` puts them
together.
-/

namespace Koala
namespace StateComm

open Lib Lib.Outcome
open State (Backend)
open List (append_assoc flatMap_cons flatten_cons length_append length_cons)
open Wire (length_putSized many patch putSized sized)

/-- `constant.AdditionalKeyGetManyBatchSize`. -/
def additionalKeyGetManyBatchSize : Nat := 1000

/-! ## The request -/

/-- `sendAdditionalKeysByTcp`. -/
def sendAdditionalKeysByTcp (keys : List Bytes) : Outcome TcpAbort Bytes := do
  let buf ← put [tcpMsgTypeAdditionalFetch] reserveHeader
  let buf ← put (putUint32 keys.length) buf
  let buf ← forEach keys putItem buf
  finishFrame buf

/-- `DeserializeAdditionalKeysRequest`, from behind the message type. -/
def deserializeAdditionalKeysRequest (buf : Bytes) : Outcome TcpAbort (List Bytes) := do
  let (numKeys, buf) ← Wire.uint32 .outOfRange buf
  let (keys, _) ← many (sized .outOfRange) numKeys buf
  pure keys

/-! ## The response of the server -/

/-- The inner loop of `SendAdditionalKeysResponse`: add values until the next one does not fit.  The result has
the buffer, the number of values in it, and the values left. -/
def fillChunk : List Bytes → Bytes → Nat → Outcome TcpAbort (Bytes × Nat × List Bytes)
  | [], buf, count => .ok (buf, count, [])
  | value :: values, buf, count =>
    if tcpMaxMessageSize - 4 < buf.length + (4 + value.length) then
      if count = 0 then .abort (.valueExceedsMax value.length) else .ok (buf, count, value :: values)
    else do
      let buf ← putItem buf value
      fillChunk values buf (count + 1)

variable (values : List Bytes)

/-- One iteration of the outer loop: a frame with the values that fit, and the values left. -/
def sendChunk : Outcome TcpAbort (Bytes × List Bytes) := do
  let (buf, numValues, rest) ← fillChunk values (reserveHeader ++ List.replicate 4 0) 0
  let buf := patch 8 (putUint32 numValues) buf
  let bytes ← finishFrame buf
  pure (bytes, rest)

/-- The outer loop, with at most `fuel` iterations. -/
def sendChunks : Nat → List Bytes → Outcome TcpAbort (List Bytes)
  | 0, _ => .stuck
  | fuel + 1, values => do
    let (bytes, rest) ← sendChunk values
    if rest = [] then pure [bytes]
    else do
      let frames ← sendChunks fuel rest
      pure (bytes :: frames)

/-- `SendAdditionalKeysResponse`: the frames sent.  Every iteration but the last one sends a value, so there are
no more iterations than values. -/
def sendAdditionalKeysResponse : Outcome TcpAbort (List Bytes) :=
  sendChunks (values.length + 1) values

/-- The batches of the server, with at most `fuel` of them. -/
def sendBatches (backend : Backend) : Nat → List Bytes → Outcome TcpAbort (List Bytes)
  | _, [] => .ok []
  | 0, _ :: _ => .stuck
  | fuel + 1, key :: keys => do
    let frames ← sendAdditionalKeysResponse (backend.getMany ((key :: keys).take additionalKeyGetManyBatchSize))
    let others ← sendBatches backend fuel ((key :: keys).drop additionalKeyGetManyBatchSize)
    pure (frames ++ others)

/-- The server's part in an additional fetch: `for start := 0; start < len(keys); …`. -/
def serveAdditionalKeys (backend : Backend) (keys : List Bytes) : Outcome TcpAbort (List Bytes) :=
  sendBatches backend keys.length keys

/-! ## The client -/

variable (remoteWorkerId : Nat)

/-- `receiveAdditionalValueChunkByTcp`; `stale` is what the read buffer holds behind the frame. -/
def receiveAdditionalValueChunkByTcp (stale stream : Bytes) :
    Outcome TcpAbort (List Bytes × Bytes) := do
  let (body, stream) ← readFrame (.additionalResponse remoteWorkerId) stream
  let (numValues, buf) ← Wire.uint32 .outOfRange (body ++ stale)
  let (values, _) ← many (sized .outOfRange) numValues buf
  pure (values, stream)

/-- The client's receive loop: how many keys are served, the `SetMany` calls made, and the connection. -/
structure Receiving where
  keyOffset : Nat
  setManyCalls : List (List Bytes × List Bytes)
  stream : Bytes
  deriving DecidableEq, Repr

/-- One iteration: a frame, and the keys it answers. -/
def receiveNext (stale : Bytes) (keys : List Bytes) (st : Receiving) :
    Outcome TcpAbort Receiving := do
  let (values, stream) ← receiveAdditionalValueChunkByTcp remoteWorkerId stale st.stream
  check (keys.length < st.keyOffset + values.length) .outOfRange
  let chunkKeys := (keys.drop st.keyOffset).take values.length
  pure ⟨st.keyOffset + values.length, st.setManyCalls ++ [(chunkKeys, values)], stream⟩

/-- `for keyOffset < len(keys)` of `fetchAdditionalKeysByTcp`, with at most `fuel` iterations. -/
def receiveLoop (fuel remoteWorkerId : Nat) (stale : Bytes) (keys : List Bytes) (stream : Bytes) :
    Outcome TcpAbort Receiving :=
  whileLoop (fun st : Receiving => decide (st.keyOffset < keys.length)) (receiveNext remoteWorkerId stale keys) fuel
    ⟨0, [], stream⟩

/-! ## Chunks -/

/-- The body of a response frame. -/
def chunkBody : Bytes := putUint32 values.length ++ values.flatMap putSized

/-- A list of values that make up a frame. -/
structure Chunk (values : List Bytes) : Prop where
  nonempty : values ≠ []
  fits : (frame (chunkBody values)).length ≤ tcpMaxMessageSize

/-- The values each fit a frame of their own. -/
def EachFits : Prop := ∀ v ∈ values, (frame (chunkBody [v])).length ≤ tcpMaxMessageSize

theorem length_chunkBody_singleton (v : Bytes) : (frame (chunkBody [v])).length = v.length + 20 := by
  simp only [length_frame, chunkBody, flatMap_cons, List.flatMap_nil, List.append_nil, length_append,
    Wire.length_putUint32, length_putSized]
  omega

theorem fillChunk_ok {buf : Bytes} {count : Nat} (hfirst : count = 0 → values ≠ [])
    (hroom : count = 0 → buf.length = 12) (hsize : buf.length + 4 ≤ tcpMaxMessageSize) (h : EachFits values) :
    ∃ taken rest, values = taken ++ rest ∧
      fillChunk values buf count = .ok (buf ++ taken.flatMap putSized, count + taken.length, rest) ∧
      (count = 0 → taken ≠ []) ∧ (buf ++ taken.flatMap putSized).length + 4 ≤ tcpMaxMessageSize := by
  induction values generalizing buf count with
  | nil =>
    refine ⟨[], [], rfl, by simp [fillChunk], fun hzero => absurd rfl (hfirst hzero), by simpa using hsize⟩
  | cons v values ih =>
    have hv := h v (by simp)
    rw [length_chunkBody_singleton] at hv
    by_cases hfull : tcpMaxMessageSize - 4 < buf.length + (4 + v.length)
    · have hsome : count ≠ 0 := by
        intro hzero
        have := hroom hzero
        omega
      refine ⟨[], v :: values, rfl, ?_, fun hzero => absurd hzero hsome, by simpa using hsize⟩
      rw [fillChunk, if_pos hfull, if_neg hsome]
      simp
    · have hput : putItem buf v = .ok (buf ++ putSized v) := by
        refine putItem_appends v buf ?_
        rw [length_putSized]
        omega
      have hnext : (buf ++ putSized v).length + 4 ≤ tcpMaxMessageSize := by
        rw [length_append, length_putSized]
        omega
      obtain ⟨taken, rest, hsplit, hrun, -, htaken⟩ :=
        ih (fun hzero : count + 1 = 0 => absurd hzero (Nat.succ_ne_zero count))
          (fun hzero => absurd hzero (Nat.succ_ne_zero count)) hnext fun u hu => h u (by simp [hu])
      refine ⟨v :: taken, rest, by rw [hsplit, List.cons_append], ?_, fun _ => by simp, ?_⟩
      · rw [fillChunk, if_neg hfull, hput, ok_bind, hrun, flatMap_cons, append_assoc, length_cons]
        congr 3
        omega
      · rwa [flatMap_cons, ← append_assoc]

variable {values : List Bytes}

theorem sendChunk_ok (hne : values ≠ []) (h : EachFits values) :
    ∃ taken rest, values = taken ++ rest ∧ sendChunk values = .ok (frame (chunkBody taken), rest) ∧ Chunk taken := by
  obtain ⟨taken, rest, hsplit, hfill, htaken, hsize⟩ :=
    fillChunk_ok values (fun _ : 0 = 0 => hne) (fun _ => rfl)
      (show (reserveHeader ++ List.replicate 4 0).length + 4 ≤ tcpMaxMessageSize by decide) h
  have hbuf : patch 8 (putUint32 (0 + taken.length))
      (reserveHeader ++ List.replicate 4 0 ++ taken.flatMap putSized) = reserveHeader ++ chunkBody taken := by
    have hfield : (List.replicate 4 0 : Bytes).length = (putUint32 (0 + taken.length)).length := rfl
    have hheader : reserveHeader.length = 8 := rfl
    rw [Wire.patch_append hheader hfield, Nat.zero_add, chunkBody, append_assoc]
  have hfits : (frame (chunkBody taken)).length ≤ tcpMaxMessageSize := by
    simp only [length_frame, chunkBody, length_append, Wire.length_putUint32]
    simp only [reserveHeader, length_append, List.length_replicate] at hsize
    omega
  refine ⟨taken, rest, hsplit, ?_, htaken rfl, hfits⟩
  unfold sendChunk
  rw [hfill, ok_bind]
  dsimp only
  rw [hbuf, finishFrame_frame hfits, ok_bind]
  rfl

/-- The frames of a list of chunks. -/
def chunkFrames (chunks : List (List Bytes)) : List Bytes := chunks.map fun values => frame (chunkBody values)

variable {fuel : Nat}

theorem sendChunks_ok (hfuel : values.length < fuel) (hne : values ≠ []) (h : EachFits values) :
    ∃ chunks, chunks.flatten = values ∧ (∀ c ∈ chunks, Chunk c) ∧ sendChunks fuel values = .ok (chunkFrames chunks) := by
  induction fuel generalizing values with
  | zero => omega
  | succ fuel ih =>
    obtain ⟨taken, rest, rfl, hsend, hchunk⟩ := sendChunk_ok hne h
    rw [sendChunks, hsend, ok_bind]
    dsimp only
    by_cases hrest : rest = []
    · refine ⟨[taken], by simp [hrest], by simpa using hchunk, ?_⟩
      rw [if_pos hrest]
      rfl
    · have htaken : 0 < taken.length := List.length_pos_iff.mpr hchunk.nonempty
      rw [length_append] at hfuel
      obtain ⟨chunks, hflat, hchunks, hrun⟩ :=
        ih (by omega) hrest fun v hv => h v (List.mem_append_right _ hv)
      refine ⟨taken :: chunks, by rw [flatten_cons, hflat], ?_, ?_⟩
      · intro c hc
        rcases List.mem_cons.mp hc with rfl | hc
        · exact hchunk
        · exact hchunks c hc
      · rw [if_neg hrest, hrun, ok_bind]
        rfl

variable {keys : List Bytes}

/-- **The server's two chunkings**: over all batches, the frames are a cutting of the values of the keys. -/
theorem sendBatches_ok (backend : Backend) (hfuel : keys.length ≤ fuel) (h : EachFits (backend.getMany keys)) :
    ∃ chunks, chunks.flatten = backend.getMany keys ∧ (∀ c ∈ chunks, Chunk c) ∧
      sendBatches backend fuel keys = .ok (chunkFrames chunks) := by
  induction fuel generalizing keys with
  | zero =>
    obtain rfl : keys = [] := List.length_eq_zero_iff.mp (by omega)
    exact ⟨[], rfl, by simp, rfl⟩
  | succ fuel ih =>
    cases keys with
    | nil => exact ⟨[], rfl, by simp, rfl⟩
    | cons key keys =>
      have hbatch : 0 < additionalKeyGetManyBatchSize := by decide
      have hsplit : backend.getMany (key :: keys)
          = backend.getMany ((key :: keys).take additionalKeyGetManyBatchSize)
            ++ backend.getMany ((key :: keys).drop additionalKeyGetManyBatchSize) := by
        rw [Backend.getMany, Backend.getMany, Backend.getMany, ← List.map_append, List.take_append_drop]
      rw [hsplit] at h ⊢
      have hne : backend.getMany ((key :: keys).take additionalKeyGetManyBatchSize) ≠ [] := by
        intro hnil
        have hlen := congrArg List.length hnil
        simp only [Backend.getMany, List.length_map, List.length_take, length_cons, List.length_nil] at hlen
        omega
      obtain ⟨chunks, hflat, hchunks, hsend⟩ :=
        sendChunks_ok (Nat.lt_succ_self _) hne fun v hv => h v (List.mem_append_left _ hv)
      obtain ⟨others, hflat', hothers, hrest⟩ := ih
        (by rw [List.length_drop]; rw [length_cons] at hfuel ⊢; omega)
        fun v hv => h v (List.mem_append_right _ hv)
      refine ⟨chunks ++ others, by rw [List.flatten_append, hflat, hflat'], ?_, ?_⟩
      · intro c hc
        rcases List.mem_append.mp hc with hc | hc
        · exact hchunks c hc
        · exact hothers c hc
      · have happend : chunkFrames (chunks ++ others) = chunkFrames chunks ++ chunkFrames others :=
          List.map_append
        rw [sendBatches, sendAdditionalKeysResponse, hsend, ok_bind, hrest, ok_bind, happend, pure_eq_ok]

/-! ## The client's loop -/

theorem receiveChunk_frame (stale : Bytes) (h : Chunk values) (rest : Bytes) :
    receiveAdditionalValueChunkByTcp remoteWorkerId stale (frame (chunkBody values) ++ rest) = .ok (values, rest) := by
  have hmax : tcpMaxMessageSize < 4294967296 := by decide
  have hfits := h.fits
  have hcount : values.length ≤ (values.flatMap putSized).length :=
    Wire.count_le_flatMap values fun x _ => by rw [length_putSized]; omega
  simp only [length_frame, chunkBody, length_append, Wire.length_putUint32] at hfits
  have hsize : ∀ v ∈ values, v.length < 4294967296 := by
    intro v hv
    have hitem : (putSized v).length ≤ (values.flatMap putSized).length := Wire.length_le_flatMap hv
    rw [length_putSized] at hitem
    omega
  unfold receiveAdditionalValueChunkByTcp
  rw [readFrame_frame _ h.fits, ok_bind]
  dsimp only
  rw [chunkBody, append_assoc, append_assoc, Wire.uint32_of_lt _ (by omega), ok_bind]
  dsimp only
  rw [Wire.many_put values fun v hv rest => Wire.sized_putSized _ (hsize v hv) rest, ok_bind]
  rfl

/-- The `SetMany` calls made for a list of chunks: every chunk with the keys it answers. -/
def answered : List Bytes → List (List Bytes) → List (List Bytes × List Bytes)
  | _, [] => []
  | keys, values :: chunks => (keys.take values.length, values) :: answered (keys.drop values.length) chunks

theorem receiveNext_frame {remoteWorkerId : Nat} {stale : Bytes} (h : Chunk values) {offset : Nat}
    (hoffset : offset + values.length ≤ keys.length) (calls : List (List Bytes × List Bytes)) (rest : Bytes) :
    receiveNext remoteWorkerId stale keys ⟨offset, calls, frame (chunkBody values) ++ rest⟩
      = .ok ⟨offset + values.length, calls ++ [((keys.drop offset).take values.length, values)], rest⟩ := by
  unfold receiveNext
  rw [receiveChunk_frame remoteWorkerId stale h, ok_bind]
  dsimp only
  rw [check_eq_ok (by omega), ok_bind]
  rfl

variable {chunks : List (List Bytes)}

/-- **The client's loop** reads exactly the frames of as many values as there are keys left. -/
theorem receiveLoop_frames {remoteWorkerId : Nat} {stale : Bytes} (h : ∀ c ∈ chunks, Chunk c) {offset : Nat}
    (hoffset : offset + chunks.flatten.length = keys.length) (calls : List (List Bytes × List Bytes))
    (hfuel : chunks.length ≤ fuel) (rest : Bytes) :
    whileLoop (fun st : Receiving => decide (st.keyOffset < keys.length)) (receiveNext remoteWorkerId stale keys)
        fuel ⟨offset, calls, (chunkFrames chunks).flatten ++ rest⟩
      = .ok ⟨keys.length, calls ++ answered (keys.drop offset) chunks, rest⟩ := by
  induction chunks generalizing offset calls fuel with
  | nil =>
    obtain rfl : offset = keys.length := by simpa using hoffset
    cases fuel <;> simp [whileLoop, chunkFrames, answered]
  | cons values chunks ih =>
    have hchunk := h values (by simp)
    have hpos : 0 < values.length := List.length_pos_iff.mpr hchunk.nonempty
    rw [flatten_cons, length_append] at hoffset
    obtain ⟨fuel, rfl⟩ : ∃ n, fuel = n + 1 := ⟨fuel - 1, by rw [length_cons] at hfuel; omega⟩
    have hcond : decide (offset < keys.length) = true := decide_eq_true (by omega)
    have hframes : (chunkFrames (values :: chunks)).flatten ++ rest
        = frame (chunkBody values) ++ ((chunkFrames chunks).flatten ++ rest) := by
      simp only [chunkFrames, List.map_cons, flatten_cons, append_assoc]
    rw [whileLoop, hframes]
    simp only [hcond, if_true]
    rw [receiveNext_frame hchunk (by omega), ok_bind,
      ih (fun c hc => h c (by simp [hc])) (by omega) _ (by rw [length_cons] at hfuel; omega)]
    simp only [answered, append_assoc, List.singleton_append, List.drop_drop]

theorem length_chunks_le (h : ∀ c ∈ chunks, Chunk c) :
    chunks.length ≤ chunks.flatten.length := by
  induction chunks with
  | nil => simp
  | cons values chunks ih =>
    have hpos : 0 < values.length := List.length_pos_iff.mpr (h values (by simp)).nonempty
    have hrest := ih fun c hc => h c (by simp [hc])
    rw [flatten_cons, length_append, length_cons]
    omega

/-- The calls together store every value under its own key, once and in order. -/
theorem answered_zip (h : chunks.flatten.length = keys.length) :
    (answered keys chunks).flatMap (fun call => call.1.zip call.2) = keys.zip chunks.flatten := by
  induction chunks generalizing keys with
  | nil =>
    obtain rfl : keys = [] := List.length_eq_zero_iff.mp h.symm
    rfl
  | cons values chunks ih =>
    rw [flatten_cons, length_append] at h
    have hrest : (keys.drop values.length).zip chunks.flatten
        = (answered (keys.drop values.length) chunks).flatMap fun call => call.1.zip call.2 :=
      (ih (by rw [List.length_drop]; omega)).symm
    have htake : (keys.take values.length).length = values.length := by
      rw [List.length_take]
      omega
    conv_rhs => rw [← List.take_append_drop values.length keys]
    rw [answered, flatMap_cons, flatten_cons, List.zip_append htake, hrest]

theorem answered_length (h : chunks.flatten.length = keys.length) :
    ∀ call ∈ answered keys chunks, call.1.length = call.2.length := by
  induction chunks generalizing keys with
  | nil => simp [answered]
  | cons values chunks ih =>
    rw [flatten_cons, length_append] at h
    intro call hcall
    rcases List.mem_cons.mp hcall with rfl | hcall
    · show (keys.take values.length).length = values.length
      rw [List.length_take]
      omega
    · exact ih (by rw [List.length_drop]; omega) call hcall

end StateComm
end Koala
