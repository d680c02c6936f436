import Koala.Lib.Outcome
import Koala.State.Backend

/-!
# Streaming state in chunks

`StateChunkSender` (`worker/stateCommUtil/stateCommRpcUtil.go`) packs records into messages of at most
`maxChunkSize` bytes, and `applyStateMigration` (`worker/controlUtil.go`) writes the messages it receives into
the local backend until the end-of-stream message.

`NewStateChunkMsg` turns a *nil* key slice into the end-of-stream message.  The sender's buffer is nil until
its first record has been appended, so a first record that is larger than a whole chunk makes `Send` emit an
end-of-stream message before any data (`streamOf_oversized`); in a later `Send`/`Flush` round the buffer is
empty and not nil, and the message is an empty chunk.  When the first record of every round fits, the stream
carries every record in order, in non-empty messages (`stateChunkSender_lossless_iff`).
-/

namespace Koala
namespace State

open Lib Lib.Outcome

/-- A record on the wire. -/
abbrev Record := Bytes × Bytes

/-- `len(key) + len(value)`. -/
def Record.size (r : Record) : Nat := r.1.length + r.2.length

/-- The message `pb.StateChunk`. -/
inductive StateChunk where
  | endOfStream
  | data (records : List Record)
  deriving DecidableEq, Repr

/-- `NewStateChunkMsg`: `none` is the nil slice. -/
def newStateChunkMsg : Option (List Record) → StateChunk
  | none => .endOfStream
  | some records => .data records

/-- `StateChunkSender`, with the messages it has put on the stream. -/
structure StateChunkSender where
  maxChunkSize : Nat
  curChunk : Option (List Record)
  curChunkSize : Nat
  sent : List StateChunk

namespace StateChunkSender

/-- `NewStateChunkSender`. -/
def new (maxChunkSize : Nat) : StateChunkSender := ⟨maxChunkSize, none, 0, []⟩

variable (s : StateChunkSender)

/-- `resetChunk`. -/
def resetChunk : StateChunkSender := { s with curChunk := some [], curChunkSize := 0 }

/-- Put the current chunk on the stream. -/
def emit : StateChunkSender :=
  { s with sent := s.sent ++ [newStateChunkMsg s.curChunk] }

/-- Append a record to the current chunk. -/
def push (r : Record) : StateChunkSender :=
  { s with curChunk := some (s.curChunk.getD [] ++ [r]), curChunkSize := s.curChunkSize + r.size }

/-- The loop body of `Send`. -/
def sendRecord (r : Record) : StateChunkSender :=
  if s.curChunkSize + r.size > s.maxChunkSize then s.emit.resetChunk.push r else s.push r

/-- `Send`. -/
def send (records : List Record) : StateChunkSender := records.foldl sendRecord s

/-- `Flush`. -/
def flush : StateChunkSender :=
  let s := if (s.curChunk.getD []).length > 0 then s.emit else s
  { s with sent := s.sent ++ [newStateChunkMsg none] }.resetChunk

end StateChunkSender

variable (maxChunkSize : Nat) (batches : List (List Record))

/-- The messages of one sender that is given `batches` one after the other and then flushed. -/
def streamOf : List StateChunk :=
  (batches.foldl StateChunkSender.send (StateChunkSender.new maxChunkSize)).flush.sent

/-- How a receiver dies. -/
inductive ReceiveAbort where
  /-- "Failed to receive state chunk" -/
  | recvFailed
  /-- "Invalid state chunk" -/
  | invalidChunk
  deriving DecidableEq, Repr

/-- The receive loop of `applyStateMigration`. -/
def applyStateMigration : List StateChunk → Backend → Outcome ReceiveAbort Backend
  | [], _ => .abort .recvFailed
  | .endOfStream :: _, b => .ok b
  | .data records :: rest, b =>
    if records.length = 0 then .abort .invalidChunk
    else applyStateMigration rest (b.setMany records)

/-! ## What the stream carries -/

/-- The messages of one `Send`/`Flush` round that carry `records` as the receivers expect them: non-empty
messages with the records in order, then the only end-of-stream message. -/
def Lossless (msgs : List StateChunk) (records : List Record) : Prop :=
  ∃ chunks : List (List Record), msgs = chunks.map StateChunk.data ++ [StateChunk.endOfStream] ∧
    (∀ c ∈ chunks, c ≠ []) ∧ chunks.flatten = records

/-- The first record of a round is not larger than a chunk. -/
def FirstFits (records : List Record) : Prop :=
  ∀ r, records.head? = some r → r.size ≤ maxChunkSize

namespace StateChunkSender

/-- The sender between two rounds. -/
structure Ready (s : StateChunkSender) : Prop where
  empty : s.curChunk.getD [] = []
  size : s.curChunkSize = 0

theorem new_ready : (new maxChunkSize).Ready := ⟨rfl, rfl⟩

theorem flush_ready (s : StateChunkSender) : s.flush.Ready := ⟨rfl, rfl⟩

/-- The sender once it has a record of the round that started with `base` on the stream: everything received
since is on the stream in non-empty messages or in the non-empty current chunk. -/
def Packed (s : StateChunkSender) (base : List StateChunk) (records : List Record) : Prop :=
  ∃ (chunks : List (List Record)) (cur : List Record), s.sent = base ++ chunks.map StateChunk.data ∧
    s.curChunk = some cur ∧ cur ≠ [] ∧ (∀ c ∈ chunks, c ≠ []) ∧ chunks.flatten ++ cur = records

variable {s : StateChunkSender} {base : List StateChunk} {records : List Record}

theorem Packed.sendRecord (h : s.Packed base records) (r : Record) :
    (s.sendRecord r).Packed base (records ++ [r]) := by
  obtain ⟨chunks, cur, hsent, hcur, hne, hchunks, hrecords⟩ := h
  unfold StateChunkSender.sendRecord
  split_ifs with hfull
  · refine ⟨chunks ++ [cur], [r], ?_, rfl, by simp, ?_, ?_⟩
    · simp [emit, resetChunk, push, hsent, hcur, newStateChunkMsg]
    · intro c hc
      rcases List.mem_append.mp hc with hin | hlast
      · exact hchunks c hin
      · rw [List.mem_singleton.mp hlast]
        exact hne
    · rw [List.flatten_append, List.flatten_singleton, hrecords]
  · refine ⟨chunks, cur ++ [r], hsent, by simp [push, hcur], by simp, hchunks, ?_⟩
    rw [← List.append_assoc, hrecords]

theorem Packed.send (h : s.Packed base records) (more : List Record) :
    (s.send more).Packed base (records ++ more) := by
  induction more generalizing s records with
  | nil => simpa [StateChunkSender.send] using h
  | cons r more ih =>
    have hnext := ih (h.sendRecord r)
    rwa [List.append_assoc] at hnext

theorem foldl_send (s : StateChunkSender) (batches : List (List Record)) :
    batches.foldl send s = s.send batches.flatten := by
  induction batches generalizing s with
  | nil => rfl
  | cons batch batches ih =>
    rw [List.foldl_cons, ih, List.flatten_cons]
    simp [send, List.foldl_append]

variable {r : Record}

theorem Ready.sendRecord_fits (h : s.Ready) (hfits : r.size ≤ s.maxChunkSize) :
    (s.sendRecord r).Packed s.sent [r] := by
  have hnot : ¬ (s.curChunkSize + r.size > s.maxChunkSize) := by
    rw [h.size]
    omega
  refine ⟨[], [r], ?_, ?_, by simp, by simp, by simp⟩
  · simp [sendRecord, hnot, push]
  · simp [sendRecord, hnot, push, h.empty]

/-- A first record that does not fit puts the empty chunk on the stream first: an end-of-stream message in the
first round, when the buffer is nil, and an empty data message later. -/
theorem Ready.sendRecord_oversized (h : s.Ready) (hlarge : s.maxChunkSize < r.size) :
    (s.sendRecord r).sent = s.sent ++ [newStateChunkMsg s.curChunk] := by
  have hfull : s.curChunkSize + r.size > s.maxChunkSize := by
    rw [h.size]
    omega
  simp [sendRecord, hfull, emit, resetChunk, push]

theorem sendRecord_sent_extends (s : StateChunkSender) (r : Record) : s.sent <+: (s.sendRecord r).sent := by
  unfold sendRecord
  split_ifs
  · exact List.prefix_append _ _
  · exact List.prefix_rfl

theorem send_sent_extends (s : StateChunkSender) (records : List Record) : s.sent <+: (s.send records).sent := by
  induction records generalizing s with
  | nil => exact List.prefix_rfl
  | cons r records ih => exact (sendRecord_sent_extends s r).trans (ih (s.sendRecord r))

theorem flush_sent_extends (s : StateChunkSender) : s.sent <+: s.flush.sent := by
  unfold flush
  dsimp only
  split_ifs
  · exact (List.prefix_append _ _).trans (List.prefix_append _ _)
  · exact List.prefix_append _ _

theorem Packed.flush (h : s.Packed base records) : ∃ msgs, s.flush.sent = base ++ msgs ∧ Lossless msgs records := by
  obtain ⟨chunks, cur, hsent, hcur, hne, hchunks, hrecords⟩ := h
  have hlen : (s.curChunk.getD []).length > 0 := by
    rw [hcur]
    exact List.length_pos_iff.mpr hne
  refine ⟨(chunks ++ [cur]).map StateChunk.data ++ [StateChunk.endOfStream], ?_, chunks ++ [cur], rfl, ?_, ?_⟩
  · unfold StateChunkSender.flush
    dsimp only
    rw [if_pos hlen]
    simp [emit, resetChunk, hsent, hcur, newStateChunkMsg]
  · intro c hc
    rcases List.mem_append.mp hc with hin | hlast
    · exact hchunks c hin
    · rw [List.mem_singleton.mp hlast]
      exact hne
  · rw [List.flatten_append, List.flatten_singleton, hrecords]

/-- One round: `Send` for every batch, then `Flush`. -/
def round (s : StateChunkSender) (batches : List (List Record)) : StateChunkSender := (batches.foldl send s).flush

theorem round_ready (s : StateChunkSender) (batches : List (List Record)) : (s.round batches).Ready :=
  flush_ready _

theorem round_maxChunkSize (s : StateChunkSender) (batches : List (List Record)) :
    (s.round batches).maxChunkSize = s.maxChunkSize := by
  have hrecord : ∀ (t : StateChunkSender) r, (t.sendRecord r).maxChunkSize = t.maxChunkSize := by
    intro t r
    unfold sendRecord
    split_ifs <;> rfl
  have hsend : ∀ (records : List Record) (t : StateChunkSender),
      (t.send records).maxChunkSize = t.maxChunkSize := by
    intro records
    induction records with
    | nil => exact fun _ => rfl
    | cons r records ih => exact fun t => (ih (t.sendRecord r)).trans (hrecord t r)
  unfold round flush
  rw [foldl_send]
  dsimp only
  split_ifs <;> exact hsend batches.flatten s

theorem round_sent_extends (s : StateChunkSender) (batches : List (List Record)) :
    s.sent <+: (s.round batches).sent := by
  unfold round
  rw [foldl_send]
  exact (send_sent_extends s _).trans (flush_sent_extends _)

theorem Ready.round_fits (h : s.Ready) {batches : List (List Record)}
    (hfits : FirstFits s.maxChunkSize batches.flatten) :
    ∃ msgs, (s.round batches).sent = s.sent ++ msgs ∧ Lossless msgs batches.flatten := by
  unfold round
  rw [foldl_send]
  cases hrecords : batches.flatten with
  | nil =>
    refine ⟨[StateChunk.endOfStream], ?_, [], rfl, by simp, rfl⟩
    simp [send, flush, h.empty, resetChunk, newStateChunkMsg]
  | cons r rest =>
    have hfirst := h.sendRecord_fits (hfits r (by simp [hrecords]))
    exact (hfirst.send rest).flush

theorem Ready.round_oversized (h : s.Ready) {batches : List (List Record)} (hfirst : batches.flatten.head? = some r)
    (hlarge : s.maxChunkSize < r.size) :
    ∃ rest, (s.round batches).sent = s.sent ++ newStateChunkMsg s.curChunk :: rest := by
  unfold round
  rw [foldl_send]
  obtain ⟨records, hrecords⟩ := List.head?_eq_some_iff.mp hfirst
  rw [hrecords]
  obtain ⟨rest, hrest⟩ := (send_sent_extends (s.sendRecord r) records).trans (flush_sent_extends _)
  rw [h.sendRecord_oversized hlarge, List.append_assoc] at hrest
  exact ⟨rest, hrest.symm⟩

end StateChunkSender

/-- Neither form of the empty chunk can be the first message of a lossless round that has a record. -/
theorem not_lossless_of_empty {chunk : Option (List Record)} {rest : List StateChunk} {records : List Record}
    (hempty : chunk.getD [] = []) (hrecords : records ≠ []) :
    ¬ Lossless (newStateChunkMsg chunk :: rest) records := by
  rintro ⟨chunks, hmsgs, hchunks, hflat⟩
  cases chunks with
  | nil => exact hrecords hflat.symm
  | cons c chunks =>
    rw [List.map_cons, List.cons_append, List.cons.injEq] at hmsgs
    cases chunk with
    | none => simp [newStateChunkMsg] at hmsgs
    | some cur =>
      have hcur : cur = c := StateChunk.data.inj hmsgs.1
      exact hchunks c (by simp) (hcur ▸ hempty)

/-- The messages of each of the rounds that a sender makes one after the other. -/
def StateChunkSender.roundMsgs : StateChunkSender → List (List (List Record)) → List (List StateChunk)
  | _, [] => []
  | s, batches :: rounds =>
    (s.round batches).sent.drop s.sent.length :: (s.round batches).roundMsgs rounds

theorem StateChunkSender.sent_rounds (s : StateChunkSender) (rounds : List (List (List Record))) :
    (rounds.foldl round s).sent = s.sent ++ (s.roundMsgs rounds).flatten := by
  induction rounds generalizing s with
  | nil => simp [roundMsgs]
  | cons batches rounds ih =>
    obtain ⟨msgs, hmsgs⟩ := s.round_sent_extends batches
    rw [List.foldl_cons, ih, roundMsgs, ← hmsgs, List.drop_left, List.flatten_cons, List.append_assoc]

/-- One round of a ready sender is lossless exactly when its first record fits. -/
theorem StateChunkSender.Ready.round_lossless_iff {s : StateChunkSender} (h : s.Ready)
    (batches : List (List Record)) :
    Lossless ((s.round batches).sent.drop s.sent.length) batches.flatten
      ↔ FirstFits s.maxChunkSize batches.flatten := by
  constructor
  · intro hlossless r hfirst
    by_contra hsize
    obtain ⟨rest, hsent⟩ := h.round_oversized hfirst (Nat.lt_of_not_le hsize)
    rw [hsent, List.drop_left] at hlossless
    exact not_lossless_of_empty h.empty (fun hnil => by simp [hnil] at hfirst) hlossless
  · intro hfits
    obtain ⟨msgs, hsent, hlossless⟩ := h.round_fits hfits
    rwa [hsent, List.drop_left]

theorem StateChunkSender.Ready.roundMsgs_lossless_iff {s : StateChunkSender} (h : s.Ready)
    (rounds : List (List (List Record))) :
    List.Forall₂ (fun batches msgs => Lossless msgs batches.flatten) rounds (s.roundMsgs rounds)
      ↔ ∀ batches ∈ rounds, FirstFits s.maxChunkSize batches.flatten := by
  induction rounds generalizing s with
  | nil => simp [roundMsgs]
  | cons batches rounds ih =>
    rw [roundMsgs, List.forall₂_cons, h.round_lossless_iff, ih (s.round_ready batches),
      s.round_maxChunkSize batches, List.forall_mem_cons]

/-- **State chunk streaming is lossless exactly when every round starts with a record that fits in a chunk.**
Over all rounds on one sender the stream is the rounds' messages in order, and each round's messages are
lossless iff the first record of each round is at most `maxChunkSize` bytes. -/
theorem stateChunkSender_lossless_iff (maxChunkSize : Nat) (rounds : List (List (List Record))) :
    (rounds.foldl StateChunkSender.round (StateChunkSender.new maxChunkSize)).sent
        = ((StateChunkSender.new maxChunkSize).roundMsgs rounds).flatten ∧
      (List.Forall₂ (fun batches msgs => Lossless msgs batches.flatten) rounds
          ((StateChunkSender.new maxChunkSize).roundMsgs rounds)
        ↔ ∀ batches ∈ rounds, FirstFits maxChunkSize batches.flatten) :=
  ⟨by simpa [StateChunkSender.new] using (StateChunkSender.new maxChunkSize).sent_rounds rounds,
    (StateChunkSender.new_ready maxChunkSize).roundMsgs_lossless_iff rounds⟩

/-- With chunks of one byte, a first record of two bytes puts the end of the stream before the data, and the
same record in the next round puts an empty message there. -/
theorem stateChunkSender_two_rounds : ((StateChunkSender.new 1).roundMsgs [[[([0], [0])]], [[([0], [0])]]]) =
      [[.endOfStream, .data [([0], [0])], .endOfStream], [.data [], .data [([0], [0])], .endOfStream]] ∧
    ¬ Lossless [.endOfStream, .data [([0], [0])], .endOfStream] [([0], [0])] ∧
    ¬ Lossless [.data [], .data [([0], [0])], .endOfStream] [([0], [0])] :=
  ⟨by decide, @not_lossless_of_empty none _ _ rfl (by simp), @not_lossless_of_empty (some []) _ _ rfl (by simp)⟩

/-- **The stream of a migration whose first record fits** carries all records in order, in non-empty messages,
and ends with its only end-of-stream message. -/
theorem streamOf_fits (hfits : ∀ r, batches.flatten.head? = some r → r.size ≤ maxChunkSize) :
    ∃ chunks : List (List Record), streamOf maxChunkSize batches
        = chunks.map StateChunk.data ++ [StateChunk.endOfStream] ∧
      (∀ c ∈ chunks, c ≠ []) ∧ chunks.flatten = batches.flatten := by
  obtain ⟨msgs, hsent, hlossless⟩ := (StateChunkSender.new_ready maxChunkSize).round_fits hfits
  have hstream : streamOf maxChunkSize batches = msgs := hsent
  rw [hstream]
  exact hlossless

/-- **A first record larger than a chunk** puts an end-of-stream message at the head of the stream. -/
theorem streamOf_oversized (r : Record)
    (hfirst : batches.flatten.head? = some r) (hlarge : maxChunkSize < r.size) :
    (streamOf maxChunkSize batches).head? = some StateChunk.endOfStream := by
  obtain ⟨rest, hsent⟩ := (StateChunkSender.new_ready maxChunkSize).round_oversized hfirst hlarge
  have hstream : streamOf maxChunkSize batches = StateChunk.endOfStream :: rest := hsent
  rw [hstream]
  rfl

/-! ## What the receiver stores -/

theorem applyStateMigration_data (chunks : List (List Record)) (rest : List StateChunk) (b : Backend)
    (hchunks : ∀ c ∈ chunks, c ≠ []) :
    applyStateMigration (chunks.map StateChunk.data ++ rest) b
      = applyStateMigration rest (b.setMany chunks.flatten) := by
  induction chunks generalizing b with
  | nil => rfl
  | cons c chunks ih =>
    have hne : c.length ≠ 0 := fun h => hchunks c (by simp) (List.length_eq_zero_iff.mp h)
    rw [List.map_cons, List.cons_append, applyStateMigration, if_neg hne,
      ih _ fun c' hc' => hchunks c' (by simp [hc']), List.flatten_cons, Backend.setMany_append]

theorem applyStateMigration_fits (b : Backend)
    (hfits : ∀ r, batches.flatten.head? = some r → r.size ≤ maxChunkSize) :
    applyStateMigration (streamOf maxChunkSize batches) b = .ok (b.setMany batches.flatten) := by
  obtain ⟨chunks, hstream, hchunks, hall⟩ := streamOf_fits maxChunkSize batches hfits
  rw [hstream, applyStateMigration_data _ _ _ hchunks, hall, applyStateMigration]

/-- Receiving a stream whose first record is larger than a chunk stores nothing. -/
theorem applyStateMigration_oversized (b : Backend)
    (r : Record) (hfirst : batches.flatten.head? = some r) (hlarge : maxChunkSize < r.size) :
    applyStateMigration (streamOf maxChunkSize batches) b = .ok b := by
  have hhead := streamOf_oversized maxChunkSize batches r hfirst hlarge
  cases hstream : streamOf maxChunkSize batches with
  | nil => simp [hstream] at hhead
  | cons m rest =>
    obtain rfl : m = StateChunk.endOfStream := by simpa [hstream] using hhead
    rw [applyStateMigration]

end State
end Koala
