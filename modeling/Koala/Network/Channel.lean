import Koala.Network.TupleCodec

/-!
# The data channel between two tasks

`Downstream.ConsumeOutputBuffer` (`internal/network/downstream.go`) writes work units to a TCP connection and
`Upstream.SupplyInputBuffer` (`internal/network/upstream.go`) reads them back into an input buffer.  The stream is
a byte list here; the end of the list is the closed connection.

The reader decodes into pre-allocated batches and out of a buffer that still holds the bytes of earlier work
units, so both are parameters of the reader (`Scratch`), one pair for each work unit.
-/

namespace Koala
namespace Network

open Lib Lib.Outcome

/-! ## Work units -/

/-- `buffer.Batch`, without the times that only metrics read. -/
@[ext] structure Batch (types : List FieldType) where
  totalNumBytes : Nat
  totalNumRecords : Nat
  records : List (Tuple types)

/-- `AddRecord`. -/
def Batch.addRecord {types : List FieldType} (b : Batch types) (record : Tuple types) (recordSize : Nat) :
    Batch types :=
  ⟨b.totalNumBytes + recordSize, b.totalNumRecords + 1, b.records ++ [record]⟩

/-- `buffer.WorkUnit`.  A migrating key map is read when the peer connection is set up. -/
inductive WorkUnit (types : List FieldType) where
  | batch (b : Batch types)
  | drainBarrier
  | watermark (timestamp : Int64)
  | inflightBarrier
  | terminationSignal (isPeer : Bool)
  | fastForwardMetadata (serializedMetadata : Bytes)
  | migratingKeyMap (serializedKeyMap : Bytes)

/-- `buffer.WorkUnitType`, as it stands on the wire. -/
def batchWorkUnit : UInt16 := 1
def drainBarrierWorkUnit : UInt16 := 2
def watermarkWorkUnit : UInt16 := 3
def inflightBarrierWorkUnit : UInt16 := 5
def fastForwardMetadataWorkUnit : UInt16 := 7

section

variable (mus : MusCodecs) {types : List FieldType} (records : List (Tuple types))

/-- A batch of records, as the collectors build it. -/
def Batch.ofRecords : Batch types :=
  records.foldl (fun b r => b.addRecord r (size mus r)) ⟨0, 0, []⟩

/-- `SerializeToFastForwardMetadata`, from the serialized data on. -/
def serializeToFastForwardMetadata (payload : Bytes) : WorkUnit types :=
  .fastForwardMetadata (mus.rawUint16.marshal fastForwardMetadataWorkUnit
    ++ mus.rawUint32.marshal (UInt32.ofNat payload.length) ++ payload)

/-! ## The writer -/

/-- How the network routines die. -/
inductive ChannelAbort where
  /-- the encoded batch does not fit into the pre-allocated buffer -/
  | outputBufferOverflow
  /-- the announced batch does not fit into the pre-allocated buffer -/
  | inputBufferOverflow
  /-- "Error tcp reading: %v" -/
  | tcpReading
  /-- "Error decoding WorkUnit type: %v", "Error decoding batch metadata: %v" -/
  | decodingHeader
  /-- "Error decoding batch data: %v" -/
  | decodingBatch
  /-- "Unsupported WorkUnit type: %d" -/
  | unsupportedWorkUnit (workUnitType : UInt16)
  deriving DecidableEq, Repr

variable (batchSize : Nat) (consumeTime : Int64)

/-- The bytes of one work unit; `none` closes the connection.  `consumeTime` is the clock. -/
def writeWorkUnit : WorkUnit types → Outcome ChannelAbort (Option Bytes)
  | .batch b =>
    let encoded := b.records.flatMap (encode mus)
    if encoded.length ≤ batchSize then
      .ok (some (mus.rawUint16.marshal batchWorkUnit ++ mus.rawUint32.marshal (UInt32.ofNat b.totalNumBytes)
        ++ mus.rawUint32.marshal (UInt32.ofNat b.totalNumRecords) ++ mus.rawInt64.marshal consumeTime ++ encoded))
    else .abort .outputBufferOverflow
  | .drainBarrier => .ok (some (mus.rawUint16.marshal drainBarrierWorkUnit))
  | .watermark timestamp =>
    .ok (some (mus.rawUint16.marshal watermarkWorkUnit ++ mus.rawInt64.marshal timestamp))
  | .inflightBarrier => .ok (some (mus.rawUint16.marshal inflightBarrierWorkUnit))
  | .terminationSignal _ => .ok none
  | .fastForwardMetadata serialized => .ok (some serialized)
  | .migratingKeyMap serialized => .ok (some serialized)

/-- `ConsumeOutputBuffer`: everything written until the connection is closed or the output buffer is empty. -/
def consumeOutputBuffer (batchSize : Nat) : List (WorkUnit types × Int64) → Outcome ChannelAbort Bytes
  | [] => .ok []
  | (unit, consumeTime) :: rest => do
    match ← writeWorkUnit mus batchSize consumeTime unit with
    | some bytes => do
      let more ← consumeOutputBuffer batchSize rest
      .ok (bytes ++ more)
    | none => .ok []

/-! ## The reader -/

/-- What the reader finds in memory: the slots of the batch from the pool and the bytes behind the data. -/
structure Scratch (types : List FieldType) where
  slots : Nat → Tuple types
  stale : Bytes

/-- `ReadAll` of `n` bytes. -/
def readAll (n : Nat) (stream : Bytes) : Outcome ChannelAbort (Bytes × Bytes) :=
  if n ≤ stream.length then .ok (stream.take n, stream.drop n) else .abort .tcpReading

/-- Read a header field. -/
def readHeader {α : Type} {width : Nat} (c : FixedCodec α width) (stream : Bytes) :
    Outcome ChannelAbort (α × Bytes) := do
  let (bytes, rest) ← readAll width stream
  match c.unmarshal bytes with
  | some (a, _) => .ok (a, rest)
  | none => .abort .decodingHeader

/-- The loop that decodes `n` records into the slots from `i` on. -/
def decodeRecords (slots : Nat → Tuple types) : Nat → Nat → Bytes → Outcome ChannelAbort (List (Tuple types))
  | _, 0, _ => .ok []
  | i, n + 1, buf =>
    match decode mus (slots i) buf with
    | some (t, used) => do
      let rest ← decodeRecords slots (i + 1) n (buf.drop used)
      .ok (t :: rest)
    | none => .abort .decodingBatch

variable (scratch : Scratch types) (stream : Bytes)

/-- The batch branch of the reader. -/
def readBatch : Outcome ChannelAbort (WorkUnit types × Bytes) := do
  let (numBytes, stream) ← readHeader mus.rawUint32 stream
  let (numRecords, stream) ← readHeader mus.rawUint32 stream
  let (_, stream) ← readHeader mus.rawInt64 stream
  if numBytes.toNat ≤ batchSize then do
    let (data, stream) ← readAll numBytes.toNat stream
    let records ← decodeRecords mus scratch.slots 0 numRecords.toNat (data ++ scratch.stale)
    .ok (.batch ⟨numBytes.toNat, numRecords.toNat, records⟩, stream)
  else .abort .inputBufferOverflow

/-- The fast-forward branch of the reader. -/
def readFastForwardMetadata : Outcome ChannelAbort (WorkUnit types × Bytes) := do
  let (metadataSize, stream) ← readHeader mus.rawUint32 stream
  let (metadata, stream) ← readAll metadataSize.toNat stream
  .ok (.fastForwardMetadata metadata, stream)

/-- One iteration of `SupplyInputBuffer`; `none` is the end of the connection. -/
def readWorkUnit : Outcome ChannelAbort (Option (WorkUnit types × Bytes)) :=
  if stream.length < 2 then .ok none
  else do
    let (workUnitType, stream) ← readHeader mus.rawUint16 stream
    if workUnitType = batchWorkUnit then do
      let result ← readBatch mus batchSize scratch stream
      .ok (some result)
    else if workUnitType = drainBarrierWorkUnit then .ok (some (.drainBarrier, stream))
    else if workUnitType = watermarkWorkUnit then do
      let (timestamp, stream) ← readHeader mus.rawInt64 stream
      .ok (some (.watermark timestamp, stream))
    else if workUnitType = inflightBarrierWorkUnit then .ok (some (.inflightBarrier, stream))
    else if workUnitType = fastForwardMetadataWorkUnit then do
      let result ← readFastForwardMetadata mus stream
      .ok (some result)
    else .abort (.unsupportedWorkUnit workUnitType)

/-- `SupplyInputBuffer`: the work units put into the input buffer until the connection is closed.  Each work
unit has at least two bytes, so the length of the stream bounds the iterations. -/
def supplyInputBuffer (batchSize : Nat) (isPeer : Bool) :
    Nat → (Nat → Scratch types) → Bytes → Outcome ChannelAbort (List (WorkUnit types))
  | 0, _, _ => .stuck
  | fuel + 1, scratch, stream => do
    match ← readWorkUnit mus batchSize (scratch 0) stream with
    | some (unit, rest) => do
      let more ← supplyInputBuffer batchSize isPeer fuel (fun i => scratch (i + 1)) rest
      .ok (unit :: more)
    | none => .ok [.terminationSignal isPeer]

/-! ## Messages -/

/-- What a task sends over a data channel. -/
inductive Message (types : List FieldType) where
  | batch (records : List (Tuple types))
  | drainBarrier
  | watermark (timestamp : Int64)
  | inflightBarrier
  | metadata (payload : Bytes)

namespace Message

/-- The work unit in the output buffer. -/
def sent : Message types → WorkUnit types
  | .batch records => .batch (Batch.ofRecords mus records)
  | .drainBarrier => .drainBarrier
  | .watermark timestamp => .watermark timestamp
  | .inflightBarrier => .inflightBarrier
  | .metadata payload => serializeToFastForwardMetadata mus payload

/-- The work unit that should arrive in the input buffer. -/
def expected : Message types → WorkUnit types
  | .batch records => .batch (Batch.ofRecords mus records)
  | .drainBarrier => .drainBarrier
  | .watermark timestamp => .watermark timestamp
  | .inflightBarrier => .inflightBarrier
  | .metadata payload => .fastForwardMetadata payload

/-- The message survives the channel: a batch fits into the buffers and its size into four bytes, and no field
of its records has a defined type; metadata has a size that fits into four bytes. -/
def Transmissible : Message types → Prop
  | .batch records => (records.map (size mus)).sum ≤ batchSize ∧ (records.map (size mus)).sum < 2 ^ 32 ∧
      (records ≠ [] → ∀ t ∈ types, t.isDefined = false)
  | .metadata payload => payload.length < 2 ^ 32
  | _ => True

/-- The bytes of a message. -/
def wire : Message types → Bytes
  | .batch records =>
    mus.rawUint16.marshal batchWorkUnit
      ++ (mus.rawUint32.marshal (UInt32.ofNat (records.map (size mus)).sum)
      ++ (mus.rawUint32.marshal (UInt32.ofNat records.length)
      ++ (mus.rawInt64.marshal consumeTime ++ records.flatMap (encode mus))))
  | .drainBarrier => mus.rawUint16.marshal drainBarrierWorkUnit
  | .watermark timestamp => mus.rawUint16.marshal watermarkWorkUnit ++ mus.rawInt64.marshal timestamp
  | .inflightBarrier => mus.rawUint16.marshal inflightBarrierWorkUnit
  | .metadata payload =>
    mus.rawUint16.marshal fastForwardMetadataWorkUnit
      ++ (mus.rawUint32.marshal (UInt32.ofNat payload.length) ++ payload)

end Message

/-- Messages go through the channel, which is then closed. -/
def transmit (isPeer : Bool) (scratch : Nat → Scratch types)
    (messages : List (Message types × Int64)) : Outcome ChannelAbort (List (WorkUnit types)) := do
  let stream ← consumeOutputBuffer mus batchSize
    (messages.map (fun m => (m.1.sent mus, m.2)) ++ [(.terminationSignal false, 0)])
  supplyInputBuffer mus batchSize isPeer (stream.length + 1) scratch stream

/-! ## Batches -/

theorem Batch.foldl_addRecord (b : Batch types) :
    records.foldl (fun b r => b.addRecord r (size mus r)) b =
      ⟨b.totalNumBytes + (records.map (size mus)).sum, b.totalNumRecords + records.length, b.records ++ records⟩ := by
  induction records generalizing b with
  | nil => simp
  | cons _ _ ih =>
    rw [List.foldl_cons, ih]
    simp only [Batch.addRecord, List.map_cons, List.sum_cons, List.length_cons, List.append_assoc,
      List.singleton_append, Batch.mk.injEq, and_true]
    omega

theorem Batch.ofRecords_eq :
    Batch.ofRecords mus records = ⟨(records.map (size mus)).sum, records.length, records⟩ := by
  rw [Batch.ofRecords, Batch.foldl_addRecord]
  simp

theorem flatMap_encode_length :
    (records.flatMap (encode mus)).length = (records.map (size mus)).sum := by
  induction records with
  | nil => rfl
  | cons _ _ ih => simp [ih, encode_length]

theorem length_le_sum_size : records.length ≤ (records.map (size mus)).sum := by
  induction records with
  | nil => simp
  | cons r =>
    have hpos := encode_pos mus r
    rw [encode_length] at hpos
    simp only [List.length_cons, List.map_cons, List.sum_cons]
    omega

/-- The records that decoding into the slots from `i` on gives. -/
def receivedRecords (slots : Nat → Tuple types) : Nat → List (Tuple types) → List (Tuple types)
  | _, [] => []
  | i, r :: records => received (slots i) r :: receivedRecords slots (i + 1) records

theorem decodeRecords_encode (slots : Nat → Tuple types) (i : Nat) (records : List (Tuple types)) (rest : Bytes) :
    decodeRecords mus slots i records.length (records.flatMap (encode mus) ++ rest)
      = .ok (receivedRecords slots i records) := by
  induction records generalizing i with
  | nil => rfl
  | cons _ _ ih =>
    simp only [List.length_cons, decodeRecords, List.flatMap_cons, List.append_assoc, decode_encode,
      List.drop_left, ih, receivedRecords]
    rfl

theorem receivedRecords_predeclared (hpre : ∀ t ∈ types, t.isDefined = false) (slots : Nat → Tuple types) (i : Nat)
    (records : List (Tuple types)) : receivedRecords slots i records = records := by
  induction records generalizing i with
  | nil => rfl
  | cons r _ ih => rw [receivedRecords, ih, (received_eq_iff r).mpr hpre]

/-! ## One message -/

theorem readAll_append {n : Nat} {bytes : Bytes} (hlen : bytes.length = n) (rest : Bytes) :
    readAll n (bytes ++ rest) = .ok (bytes, rest) := by
  rw [readAll, if_pos (by rw [List.length_append]; omega), List.take_left' hlen, List.drop_left' hlen]

theorem readHeader_marshal {α : Type} {width : Nat} (c : FixedCodec α width) (a : α) (rest : Bytes) :
    readHeader c (c.marshal a ++ rest) = .ok (a, rest) := by
  have hread := c.unmarshal_marshal a []
  rw [List.append_nil] at hread
  simp only [readHeader, readAll_append (c.marshal_length a), ok_bind, hread]

theorem two_le_length (mus : MusCodecs) (workUnitType : UInt16) (rest : Bytes) :
    ¬ (mus.rawUint16.marshal workUnitType ++ rest).length < 2 := by
  rw [List.length_append, mus.rawUint16.marshal_length]
  omega

theorem readBatch_wire (records : List (Tuple types)) (rest : Bytes) :
    readBatch mus batchSize scratch
        (mus.rawUint32.marshal (UInt32.ofNat (records.map (size mus)).sum)
          ++ (mus.rawUint32.marshal (UInt32.ofNat records.length)
          ++ (mus.rawInt64.marshal consumeTime ++ (records.flatMap (encode mus) ++ rest)))) =
      if (UInt32.ofNat (records.map (size mus)).sum).toNat ≤ batchSize then do
        let (data, stream) ← readAll (UInt32.ofNat (records.map (size mus)).sum).toNat
          (records.flatMap (encode mus) ++ rest)
        let decoded ← decodeRecords mus scratch.slots 0 (UInt32.ofNat records.length).toNat (data ++ scratch.stale)
        .ok (.batch ⟨(UInt32.ofNat (records.map (size mus)).sum).toNat, (UInt32.ofNat records.length).toNat,
          decoded⟩, stream)
      else .abort .inputBufferOverflow := by
  simp only [readBatch, readHeader_marshal, ok_bind]

theorem readWorkUnit_batch (rest : Bytes) :
    readWorkUnit mus batchSize scratch (mus.rawUint16.marshal batchWorkUnit ++ rest) =
      readBatch mus batchSize scratch rest >>= fun result => .ok (some result) := by
  simp only [readWorkUnit, if_neg (two_le_length mus batchWorkUnit rest), readHeader_marshal, ok_bind, if_true]

theorem readWorkUnit_metadata (payload rest : Bytes) :
    readWorkUnit mus batchSize scratch (mus.rawUint16.marshal fastForwardMetadataWorkUnit
        ++ (mus.rawUint32.marshal (UInt32.ofNat payload.length) ++ rest)) =
      readAll (UInt32.ofNat payload.length).toNat rest >>= fun p => .ok (some (.fastForwardMetadata p.1, p.2)) := by
  have hbatch : fastForwardMetadataWorkUnit ≠ batchWorkUnit := by decide
  have hdrain : fastForwardMetadataWorkUnit ≠ drainBarrierWorkUnit := by decide
  have hwatermark : fastForwardMetadataWorkUnit ≠ watermarkWorkUnit := by decide
  have hinflight : fastForwardMetadataWorkUnit ≠ inflightBarrierWorkUnit := by decide
  simp only [readWorkUnit, if_neg (two_le_length mus fastForwardMetadataWorkUnit _), readHeader_marshal, ok_bind,
    if_neg hbatch, if_neg hdrain, if_neg hwatermark, if_neg hinflight, if_true, readFastForwardMetadata]
  cases readAll (UInt32.ofNat payload.length).toNat rest <;> rfl

variable {batchSize : Nat} {m : Message types}

theorem Message.Transmissible.read (h : m.Transmissible mus batchSize) (scratch : Scratch types) (consumeTime : Int64)
    (rest : Bytes) :
    readWorkUnit mus batchSize scratch (m.wire mus consumeTime ++ rest)
      = .ok (some (m.expected mus, rest)) := by
  cases m with
  | batch records =>
    obtain ⟨hfits, hwidth, hpre⟩ := h
    have hcount := length_le_sum_size mus records
    have hbytes := UInt32.toNat_ofNat_of_lt' hwidth
    have hrecords := UInt32.toNat_ofNat_of_lt' (Nat.lt_of_le_of_lt hcount hwidth)
    have hreceived : receivedRecords scratch.slots 0 records = records := by
      cases records with
      | nil => rfl
      | cons r records => exact receivedRecords_predeclared (hpre (by simp)) _ _ _
    simp only [wire, List.append_assoc, readWorkUnit_batch, readBatch_wire, hbytes, hrecords, if_pos hfits,
      readAll_append (flatMap_encode_length mus records), ok_bind, decodeRecords_encode, hreceived, expected,
      Batch.ofRecords_eq]
  | drainBarrier =>
    have hbatch : drainBarrierWorkUnit ≠ batchWorkUnit := by decide
    simp only [wire, readWorkUnit, if_neg (two_le_length mus drainBarrierWorkUnit rest), readHeader_marshal,
      ok_bind, if_neg hbatch, if_true, expected]
  | watermark =>
    have hbatch : watermarkWorkUnit ≠ batchWorkUnit := by decide
    have hdrain : watermarkWorkUnit ≠ drainBarrierWorkUnit := by decide
    simp only [wire, List.append_assoc, readWorkUnit, if_neg (two_le_length mus watermarkWorkUnit _),
      readHeader_marshal, ok_bind, if_neg hbatch, if_neg hdrain, if_true, expected]
  | inflightBarrier =>
    have hbatch : inflightBarrierWorkUnit ≠ batchWorkUnit := by decide
    have hdrain : inflightBarrierWorkUnit ≠ drainBarrierWorkUnit := by decide
    have hwatermark : inflightBarrierWorkUnit ≠ watermarkWorkUnit := by decide
    simp only [wire, readWorkUnit, if_neg (two_le_length mus inflightBarrierWorkUnit rest), readHeader_marshal,
      ok_bind, if_neg hbatch, if_neg hdrain, if_neg hwatermark, if_true, expected]
  | metadata =>
    have hlen := UInt32.toNat_ofNat_of_lt' h
    simp only [wire, List.append_assoc, readWorkUnit_metadata, hlen, readAll_append rfl, ok_bind, expected]

theorem toNat_ofNat_eq_self {n : Nat} (h : (UInt32.ofNat n).toNat = n) : n < 2 ^ 32 := by
  have hlt := (UInt32.ofNat n).toNat_lt
  rwa [h] at hlt

/-- A message that is read back whatever the reader finds in memory survives. -/
theorem Message.transmissible_of_read {consumeTime : Int64} {rest : Bytes}
    (hfits : ∀ records, m = .batch records → (records.map (size mus)).sum ≤ batchSize)
    (h : ∀ scratch, ∃ rest', readWorkUnit mus batchSize scratch (m.wire mus consumeTime ++ rest) = .ok (some (m.expected mus, rest'))) :
    m.Transmissible mus batchSize := by
  cases m with
  | batch records =>
    have hread : ∀ scratch : Scratch types,
        (UInt32.ofNat (records.map (size mus)).sum).toNat = (records.map (size mus)).sum ∧
        receivedRecords scratch.slots 0 records = records := by
      intro scratch
      obtain ⟨rest', hread⟩ := h scratch
      simp only [wire, List.append_assoc, readWorkUnit_batch, readBatch_wire, expected, Batch.ofRecords_eq] at hread
      obtain ⟨result, hbatch, hresult⟩ := bind_eq_ok.mp hread
      split_ifs at hbatch with hbuffer
      obtain ⟨⟨data, stream⟩, hdata, hbatch⟩ := bind_eq_ok.mp hbatch
      obtain ⟨decoded, hdecoded, hbatch⟩ := bind_eq_ok.mp hbatch
      cases hbatch
      simp only [ok.injEq, Option.some.injEq, Prod.mk.injEq, WorkUnit.batch.injEq, Batch.mk.injEq] at hresult
      obtain ⟨⟨hbytes, hcount, rfl⟩, -⟩ := hresult
      refine ⟨hbytes, ?_⟩
      rw [hbytes, readAll_append (flatMap_encode_length mus _)] at hdata
      cases hdata
      rw [hcount, decodeRecords_encode] at hdecoded
      exact ok.inj hdecoded
    refine ⟨hfits records rfl, toNat_ofNat_eq_self (hread ⟨fun _ => ⟨newFields types, 0⟩, []⟩).1, fun hne => ?_⟩
    obtain ⟨r, records, rfl⟩ := List.exists_cons_of_ne_nil hne
    refine (received_eq_iff r).mp fun target => ?_
    exact (List.cons.inj (hread ⟨fun _ => target, []⟩).2).1
  | metadata =>
    obtain ⟨rest', hread⟩ := h ⟨fun _ => ⟨newFields types, 0⟩, []⟩
    simp only [wire, List.append_assoc, readWorkUnit_metadata, expected] at hread
    obtain ⟨⟨data, stream⟩, hdata, hread⟩ := bind_eq_ok.mp hread
    simp only [ok.injEq, Option.some.injEq, Prod.mk.injEq, WorkUnit.fastForwardMetadata.injEq] at hread
    obtain ⟨rfl, -⟩ := hread
    unfold readAll at hdata
    split_ifs at hdata with henough
    have htake := (Prod.mk.inj (ok.inj hdata)).1
    refine toNat_ofNat_eq_self ?_
    have hlen := congrArg List.length htake
    rwa [List.length_take, Nat.min_eq_left henough] at hlen
  | drainBarrier | watermark | inflightBarrier => trivial

/-! ## A whole channel -/

/-- A batch is within the configured size. -/
def Message.Fits (batchSize : Nat) (m : Message types) : Prop :=
  ∀ records, m = .batch records → (records.map (size mus)).sum ≤ batchSize

theorem Message.Transmissible.fits (h : m.Transmissible mus batchSize) :
    m.Fits mus batchSize := by
  rintro records rfl
  exact h.1

theorem writeWorkUnit_sent (h : m.Fits mus batchSize) (consumeTime : Int64) :
    writeWorkUnit mus batchSize consumeTime (m.sent mus) = .ok (some (m.wire mus consumeTime)) := by
  cases m with
  | batch records =>
    have hfits := h records rfl
    rw [← flatMap_encode_length] at hfits
    simp only [Message.sent, Batch.ofRecords_eq, writeWorkUnit, if_pos hfits, Message.wire, List.append_assoc]
  | metadata =>
    simp only [Message.sent, serializeToFastForwardMetadata, writeWorkUnit, Message.wire, List.append_assoc]
  | drainBarrier | watermark | inflightBarrier => rfl

theorem fits_of_writeWorkUnit {consumeTime : Int64} {bytes : Option Bytes}
    (h : writeWorkUnit mus batchSize consumeTime (m.sent mus) = .ok bytes) : m.Fits mus batchSize := by
  rintro records rfl
  simp only [Message.sent, Batch.ofRecords_eq, writeWorkUnit] at h
  split_ifs at h with hfits
  rwa [flatMap_encode_length] at hfits

/-- The bytes of all messages, one after the other. -/
def wireAll (messages : List (Message types × Int64)) : Bytes := messages.flatMap fun m => m.1.wire mus m.2

theorem consumeOutputBuffer_eq_ok {messages : List (Message types × Int64)} {stream : Bytes} :
    consumeOutputBuffer mus batchSize
        (messages.map (fun m => (m.1.sent mus, m.2)) ++ [(.terminationSignal false, 0)]) = .ok stream ↔
      (∀ m ∈ messages, m.1.Fits mus batchSize) ∧ stream = wireAll mus messages := by
  induction messages generalizing stream with
  | nil =>
    simp only [List.map_nil, List.nil_append, consumeOutputBuffer, writeWorkUnit, ok_bind, ok.injEq, wireAll,
      List.flatMap_nil, List.not_mem_nil, false_imp_iff, implies_true, true_and]
    exact eq_comm
  | cons _ _ ih =>
    simp only [List.map_cons, List.cons_append, consumeOutputBuffer, List.forall_mem_cons]
    constructor
    · intro h
      obtain ⟨bytes, hwrite, h⟩ := bind_eq_ok.mp h
      have hfits := fits_of_writeWorkUnit mus hwrite
      rw [writeWorkUnit_sent mus hfits, ok.injEq] at hwrite
      subst hwrite
      obtain ⟨more, hmore, h⟩ := bind_eq_ok.mp h
      obtain ⟨hall, rfl⟩ := ih.mp hmore
      exact ⟨⟨hfits, hall⟩, (ok.inj h).symm⟩
    · rintro ⟨⟨hfits, hall⟩, rfl⟩
      rw [writeWorkUnit_sent mus hfits, ok_bind]
      exact bind_eq_ok.mpr ⟨_, ih.mpr ⟨hall, rfl⟩, rfl⟩

theorem Message.wire_length (m : Message types) (consumeTime : Int64) : 2 ≤ (m.wire mus consumeTime).length := by
  cases m <;> simp only [wire, List.length_append, mus.rawUint16.marshal_length] <;> omega

theorem Message.expected_ne_termination (m : Message types) (isPeer : Bool) :
    m.expected mus ≠ .terminationSignal isPeer := by
  cases m <;> exact fun h => by cases h

/-- The reader gives back all messages, whatever it finds in memory, exactly if each of them survives. -/
theorem supplyInputBuffer_iff (isPeer : Bool) (messages : List (Message types × Int64))
    (hfits : ∀ m ∈ messages, m.1.Fits mus batchSize) (fuel : Nat) (hfuel : (wireAll mus messages).length < fuel) :
    (∀ scratch, supplyInputBuffer mus batchSize isPeer fuel scratch (wireAll mus messages)
        = .ok (messages.map (fun m => m.1.expected mus) ++ [.terminationSignal isPeer])) ↔
      ∀ m ∈ messages, m.1.Transmissible mus batchSize := by
  induction messages generalizing fuel with
  | nil =>
    obtain ⟨fuel, rfl⟩ := Nat.exists_eq_add_one_of_ne_zero (Nat.ne_zero_of_lt hfuel)
    exact iff_of_true (fun _ => rfl) (by simp)
  | cons m messages ih =>
    obtain ⟨fuel, rfl⟩ := Nat.exists_eq_add_one_of_ne_zero (Nat.ne_zero_of_lt hfuel)
    obtain ⟨hhead, htail⟩ := List.forall_mem_cons.mp hfits
    have hwire : wireAll mus (m :: messages) = m.1.wire mus m.2 ++ wireAll mus messages := rfl
    have hlen := m.1.wire_length mus m.2
    rw [hwire, List.length_append] at hfuel
    have hih := ih htail fuel (by omega)
    rw [List.forall_mem_cons, ← hih, hwire]
    constructor
    · intro h
      have hread : ∀ scratch, ∃ rest', readWorkUnit mus batchSize scratch
          (m.1.wire mus m.2 ++ wireAll mus messages) = .ok (some (m.1.expected mus, rest')) := by
        intro scratch
        obtain ⟨result, hresult, hrest⟩ := bind_eq_ok.mp (h fun _ => scratch)
        cases result with
        | none =>
          have hunit := (List.cons.inj (ok.inj hrest)).1
          exact absurd hunit.symm (m.1.expected_ne_termination mus isPeer)
        | some result =>
          obtain ⟨more, -, hcons⟩ := bind_eq_ok.mp hrest
          have hunit : result.1 = m.1.expected mus := (List.cons.inj (ok.inj hcons)).1
          exact ⟨result.2, by rw [hresult, ← hunit]⟩
      have hm := m.1.transmissible_of_read mus hhead hread
      refine ⟨hm, fun scratch => ?_⟩
      -- the first work unit is read into some memory, the rest into `scratch`
      have hwhole := h fun i => i.casesOn (scratch 0) scratch
      rw [supplyInputBuffer, hm.read mus, ok_bind] at hwhole
      obtain ⟨more, hmore, hcons⟩ := bind_eq_ok.mp hwhole
      exact hmore.trans (congrArg ok (List.cons.inj (ok.inj hcons)).2)
    · rintro ⟨hm, hrest⟩ scratch
      rw [supplyInputBuffer, hm.read mus, ok_bind]
      exact bind_eq_ok.mpr ⟨_, hrest fun i => scratch (i + 1), rfl⟩

/-- **Tuples and channels round-trip exactly without defined field types.**  The encoder writes as many bytes as
the sizer says.  Decoding gives back every tuple, from its bytes followed by anything and into any tuple, using
exactly its bytes, if and only if all fields have predeclared types.  And a sequence of messages arrives
unchanged, whatever the reader finds in memory, if and only if each batch fits into the buffers and into the
four bytes of its size and has no record with a field of a defined type, and each metadata fits into the four
bytes of its size. -/
theorem channel_roundTrip_iff (mus : MusCodecs) (types : List FieldType) :
    (∀ t : Tuple types, (encode mus t).length = size mus t) ∧ ((∀ (target t : Tuple types) (rest : Bytes),
        decode mus target (encode mus t ++ rest) = some (t, (encode mus t).length)) ↔
      ∀ ty ∈ types, ty.isDefined = false) ∧
    ∀ (batchSize : Nat) (isPeer : Bool) (messages : List (Message types × Int64)),
      (∀ scratch, transmit mus batchSize isPeer scratch messages
        = .ok (messages.map (fun m => m.1.expected mus) ++ [.terminationSignal isPeer])) ↔
      ∀ m ∈ messages, m.1.Transmissible mus batchSize := by
  refine ⟨encode_length mus, ?_, fun batchSize isPeer messages => ?_⟩
  · constructor
    · intro h
      refine (received_eq_iff ⟨newFields types, 0⟩).mp fun target => ?_
      have hdecode := h target ⟨newFields types, 0⟩ []
      rw [decode_encode] at hdecode
      exact (Prod.mk.inj (Option.some.inj hdecode)).1
    · intro hpre target t rest
      rw [decode_encode, (received_eq_iff t).mpr hpre]
  · constructor
    · intro h
      obtain ⟨stream, hwrite, -⟩ := bind_eq_ok.mp (h fun _ => ⟨fun _ => ⟨newFields types, 0⟩, []⟩)
      obtain ⟨hfits, rfl⟩ := (consumeOutputBuffer_eq_ok mus).mp hwrite
      refine (supplyInputBuffer_iff mus isPeer messages hfits _ (Nat.lt_succ_self _)).mp fun scratch => ?_
      have hread := h scratch
      rwa [transmit, hwrite, ok_bind] at hread
    · intro hall scratch
      have hfits := fun m hm => (hall m hm).fits mus
      rw [transmit, (consumeOutputBuffer_eq_ok mus).mpr ⟨hfits, rfl⟩, ok_bind]
      exact (supplyInputBuffer_iff mus isPeer messages hfits _ (Nat.lt_succ_self _)).mpr hall scratch

end

/-- Varints for the numbers, strings behind their length, little-endian numbers for the framing. -/
def varintCodecs : MusCodecs where
  int := Codec.varint.retract (fun v => v.toBitVec.toNat) (fun n => ⟨⟨BitVec.ofNat 64 n⟩⟩) (by simp)
  int8 := Codec.varint.retract (fun v => v.toBitVec.toNat) (fun n => ⟨⟨BitVec.ofNat 8 n⟩⟩) (by simp)
  int16 := Codec.varint.retract (fun v => v.toBitVec.toNat) (fun n => ⟨⟨BitVec.ofNat 16 n⟩⟩) (by simp)
  int32 := Codec.varint.retract (fun v => v.toBitVec.toNat) (fun n => ⟨⟨BitVec.ofNat 32 n⟩⟩) (by simp)
  int64 := Codec.varint.retract (fun v => v.toBitVec.toNat) (fun n => ⟨⟨BitVec.ofNat 64 n⟩⟩) (by simp)
  uint := Codec.varint.retract UInt64.toNat UInt64.ofNat (by simp)
  uint8 := Codec.varint.retract UInt8.toNat UInt8.ofNat (by simp)
  uint16 := Codec.varint.retract UInt16.toNat UInt16.ofNat (by simp)
  uint32 := Codec.varint.retract UInt32.toNat UInt32.ofNat (by simp)
  uint64 := Codec.varint.retract UInt64.toNat UInt64.ofNat (by simp)
  float32 := Codec.varint.retract UInt32.toNat UInt32.ofNat (by simp)
  float64 := Codec.varint.retract UInt64.toNat UInt64.ofNat (by simp)
  string := Codec.varint.counted
  rawUint16 := FixedCodec.littleEndian 1 UInt16.toNat UInt16.ofNat (fun v => v.toNat_lt) (by simp)
  rawUint32 := FixedCodec.littleEndian 3 UInt32.toNat UInt32.ofNat (fun v => v.toNat_lt) (by simp)
  rawInt64 := FixedCodec.littleEndian 7 (fun v => v.toBitVec.toNat) (fun n => ⟨⟨BitVec.ofNat 64 n⟩⟩)
    (fun v => v.toBitVec.isLt) (by simp)

/-- A tuple with one field of a defined type, such as `type UserID int64`, and the value 1. -/
def userTuple : Tuple [⟨.int64, true⟩] := ⟨((1 : Int64), ()), 0⟩

/-- The tuple that `New` gives for it. -/
def freshUserTuple : Tuple [⟨.int64, true⟩] := ⟨newFields _, 0⟩

/-- The field comes out as the zero of the tuple that it is decoded into. -/
theorem channel_definedType :
    decode varintCodecs freshUserTuple (encode varintCodecs userTuple)
      = some (freshUserTuple, (encode varintCodecs userTuple).length) ∧ freshUserTuple ≠ userTuple := by
  refine ⟨?_, fun h => ?_⟩
  · have hdecode := decode_encode varintCodecs freshUserTuple userTuple []
    rwa [List.append_nil] at hdecode
  · have hfields : freshUserTuple.fields = userTuple.fields := congrArg Tuple.fields h
    exact Kind.one_ne_zero .int64 (congrArg Prod.fst hfields).symm

end Network
end Koala
