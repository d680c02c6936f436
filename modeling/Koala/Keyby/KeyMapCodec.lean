import Koala.Keyby.KeyLookupTable
import Koala.Lib.Codec
import Koala.Lib.Wire
import Mathlib.Data.List.Perm.Basic

/-!
# The bytes of a migrating key map

`KeyLookupTable` describes a handover by the key maps that travel.  Here are the messages themselves
(`internal/keyby/keyLookupTableV2.go`, `InitNewUpstream` of `internal/supplier/supplier.go`): a header with two
reserved fields, and for every bucket a reserved length, the six bytes all its keys start with, and the rest of
every key with its location.  A message is built in a buffer of fixed size, the length fields are filled in
afterwards, and the receiver cuts the message into buckets and decodes them in goroutines, in any order.

`serializeMigratingKeyMaps_bytes` says that the bytes carry exactly the key maps of the abstract handover, and
`roundTrip` that the receiver restores them.
-/

namespace Koala
namespace Keyby
namespace KeyMapCodec

open Lib Lib.Outcome
open Partition (WorkerID BucketID)
open List (append_assoc length_append mem_map mem_range)
open KeyLookupTableV2 (deserialize)
open Wire (bigEndian length_putUint32 many patch putSized recv sized take)

/-- `MaxKeyMapSize`. -/
def maxKeyMapSize : Nat := 20 * 1024 * 1024

/-- `MigratingKeyMapWorkUnit`. -/
def migratingKeyMapWorkUnit : Nat := 8

/-- The ways the codec kills the process: Go's bounds checks, and the `log.Fatalf` calls of both sides. -/
inductive CodecAbort where
  | outOfRange
  | table (e : TableAbort)
  | sizeExceeded (offset : Nat)
  | unexpectedWorkUnit (workUnitType : Nat)
  | invalidLength (workUnitLen : Nat)
  deriving DecidableEq, Repr

/-- The text each abort logs. -/
def CodecAbort.message : CodecAbort → String
  | outOfRange => "runtime error: slice bounds out of range"
  | table e => e.message
  | sizeExceeded offset => s!"Serialized key map size exceeds the max allowed size: {offset} bytes\n"
  | unexpectedWorkUnit t =>
    s!"Expected MigratingKeyMap work unit at the beginning of primary peer channel, but got {t}\n"
  | invalidLength n => s!"Invalid migratingKeyMap work unit length: {n}"

/-! ## The writer -/

/-- `SerializedKepMap`: the bytes up to `offset`, and the number of buckets. -/
structure SerializedKepMap where
  numBuckets : Nat
  data : Bytes
  deriving DecidableEq, Repr

/-- `NewSerializedKeyMap`: the type of the work unit and room for two fields. -/
def newSerializedKeyMap : SerializedKepMap where
  numBuckets := 0
  data := FixedCodec.digits 2 migratingKeyMapWorkUnit ++ List.replicate 4 0 ++ List.replicate 4 0

/-- Write into the buffer of a message. -/
def write (bytes data : Bytes) : Outcome CodecAbort Bytes := Wire.put maxKeyMapSize .outOfRange bytes data

/-- One iteration over the entries of a bucket; the second component is `totalBucketLenInBytes`. -/
def addKey (st : Bytes × Nat) (entry : Bytes × WorkerID) : Outcome CodecAbort (Bytes × Nat) := do
  check (entry.1.length < 6) .outOfRange
  let data ← write (putUint16 (entry.1.length - 6)) st.1
  let data ← write (entry.1.drop 6) data
  let data ← write (putUint16 entry.2) data
  pure (data, st.2 + (entry.1.length - 6))

/-- The operator id field: the start of the first key visited, zeros for an empty bucket. -/
def operatorField (entries : List (Bytes × WorkerID)) : Outcome CodecAbort Bytes :=
  match entries with
  | [] => .ok [0, 0]
  | (key, _) :: _ => if key.length < 2 then .abort .outOfRange else .ok (key.take 2)

/-- `AddBucket`.  The map is visited twice, once for the operator id and once for the entries; the two visits
need not agree on an order. -/
def addBucket (first second : VisitOrder Bytes WorkerID) (bucketId : BucketID) (keyMap : KeyMap Bytes)
    (skm : SerializedKepMap) : Outcome CodecAbort SerializedKepMap := do
  let numKeys := keyMap.entries.length
  let bucketLengthOffset := skm.data.length
  let data := skm.data ++ List.replicate 4 0
  let operatorID ← operatorField (first.visit keyMap)
  let data ← write operatorID data
  let data ← write (putUint32 bucketId) data
  let data ← write (putUint32 numKeys) data
  let (data, total) ← forEach (second.visit keyMap) addKey (data, 2 + 4 + 4 + numKeys * (2 + 2))
  let data := patch bucketLengthOffset (putUint32 total) data
  check (maxKeyMapSize < data.length) (.sizeExceeded data.length)
  pure ⟨skm.numBuckets + 1, data⟩

/-- `Done`: fill in the total length and the number of buckets. -/
def SerializedKepMap.done (skm : SerializedKepMap) : Bytes :=
  patch 6 (putUint32 skm.numBuckets) (patch 2 (putUint32 (skm.data.length - 6)) skm.data)

/-- The messages under construction, by destination (`SerializedKeyMapFactory`). -/
abbrev Factory : Type := GoMap WorkerID SerializedKepMap

/-- One iteration of `SerializeMigratingKeyMaps`, with `SerializeBucket` of the factory. -/
def serializeBucket (first second : VisitOrder Bytes WorkerID) (localWorker : WorkerID) (routing : PartitionTable)
    (st : KeyLookupTableV2 Bytes × Factory) (b : BucketID) :
    Outcome CodecAbort (KeyLookupTableV2 Bytes × Factory) :=
  if st.1.Leaves localWorker routing b then
    match (st.1 b).map with
    | none => .abort (.table (.nilOnSerialize b))
    | some keyMap => do
      let skm ← addBucket first second b keyMap ((st.2.get (routing b)).getD newSerializedKeyMap)
      pure (Function.update st.1 b ⟨routing b, none⟩, st.2.set (routing b) skm)
  else .ok st

/-- `SerializeMigratingKeyMaps`: the table that is left and the finished message of every destination. -/
def serializeMigratingKeyMaps (first second : VisitOrder Bytes WorkerID) (numBuckets : Nat)
    (localWorker : WorkerID) (routing : PartitionTable) (table : KeyLookupTableV2 Bytes) :
    Outcome CodecAbort (KeyLookupTableV2 Bytes × GoMap WorkerID Bytes) := do
  let (table, factory) ←
    forEach (List.range numBuckets) (serializeBucket first second localWorker routing) (table, ∅)
  pure (table, factory.mapValues SerializedKepMap.done)

/-! ## The reader -/

/-- One entry of a bucket: the rest of the key behind its length, and the location. -/
def readKey (start buf : Bytes) : Outcome CodecAbort ((Bytes × WorkerID) × Bytes) := do
  let (keyLen, buf) ← Wire.uint16 .outOfRange buf
  let (key, buf) ← take .outOfRange keyLen buf
  let (owner, buf) ← Wire.uint16 .outOfRange buf
  pure ((start ++ key, owner), buf)

/-- The bucket already has keys at the receiver. -/
def HoldsKeys (table : KeyLookupTableV2 Bytes) (b : BucketID) : Prop :=
  ∃ m, (table b).map = some m ∧ m.entries.length ≠ 0

instance (table : KeyLookupTableV2 Bytes) (b : BucketID) : Decidable (HoldsKeys table b) :=
  match hmap : (table b).map with
  | none => isFalse (by rintro ⟨m, hm, -⟩; rw [hmap] at hm; cases hm)
  | some m =>
    if h : m.entries.length ≠ 0 then isTrue ⟨m, hmap, h⟩
    else isFalse (by rintro ⟨m', hm', hne⟩; rw [hmap] at hm'; cases hm'; exact h hne)

/-- The goroutine that decodes one bucket. -/
def deserializeBucket (localWorker : WorkerID) (table : KeyLookupTableV2 Bytes) (data : Bytes) :
    Outcome CodecAbort (KeyLookupTableV2 Bytes) := do
  let (start, buf) ← take .outOfRange 6 data
  let bucketID := bigEndian (start.drop 2)
  let (numKeys, buf) ← Wire.uint32 .outOfRange buf
  check (HoldsKeys table bucketID) (.table (.nonEmptyOnReceive bucketID))
  let (entries, _) ← many (readKey start) numKeys buf
  pure (Function.update table bucketID ⟨localWorker, some (entries.foldl (fun m e => m.set e.1 e.2) ∅)⟩)

variable (schedule : List Bytes → List Bytes) (localWorker : WorkerID)

/-- `DeserializeMigratingKeyMaps`: cut the message into buckets and decode them; `schedule` is the order in which
the goroutines get to run. -/
def deserializeMigratingKeyMaps (buf : Bytes)
    (table : KeyLookupTableV2 Bytes) : Outcome CodecAbort (KeyLookupTableV2 Bytes) := do
  let (numBuckets, buf) ← Wire.uint32 .outOfRange buf
  let (buckets, _) ← many (sized .outOfRange) numBuckets buf
  forEach (schedule buckets) (deserializeBucket localWorker) table

/-- The part of `InitNewUpstream` that receives a key map: the table afterwards and what is left on the
connection. -/
def initNewUpstream (stream : Bytes)
    (table : KeyLookupTableV2 Bytes) : Outcome CodecAbort (KeyLookupTableV2 Bytes × Bytes) := do
  let (unit, stream) ← recv 2 stream
  let workUnitType := FixedCodec.ofDigits unit
  check (workUnitType ≠ migratingKeyMapWorkUnit) (.unexpectedWorkUnit workUnitType)
  let (length, stream) ← recv 4 stream
  let workUnitLen := bigEndian length
  check (workUnitLen ≤ 4) (.invalidLength workUnitLen)
  let (buf, stream) ← recv workUnitLen stream
  let table ← deserializeMigratingKeyMaps schedule localWorker buf table
  pure (table, stream)

/-! ## What the writer leaves in the buffer -/

/-- The bytes of one entry. -/
def keyBytes (entry : Bytes × WorkerID) : Bytes :=
  putUint16 (entry.1.length - 6) ++ entry.1.drop 6 ++ putUint16 entry.2

/-- The bytes of one bucket, without its length. -/
def bucketBytes (operatorID : Bytes) (b : BucketID) (entries : List (Bytes × WorkerID)) : Bytes :=
  operatorID ++ putUint32 b ++ putUint32 entries.length ++ entries.flatMap keyBytes

/-- What follows the length field of a message. -/
def payload (buckets : List Bytes) : Bytes := putUint32 buckets.length ++ buckets.flatMap putSized

/-- The message of a list of buckets. -/
def message (buckets : List Bytes) : Bytes :=
  FixedCodec.digits 2 migratingKeyMapWorkUnit ++ putUint32 (payload buckets).length ++ payload buckets

theorem write_eq_ok {bytes data data' : Bytes} :
    write bytes data = .ok data' ↔ data.length + bytes.length ≤ maxKeyMapSize ∧ data' = data ++ bytes :=
  Wire.put_eq_ok

variable {entries : List (Bytes × WorkerID)}

/-- Writing the entries of a bucket appends their bytes and adds up what the length field still lacks. -/
theorem addKey_loop {data data' : Bytes} {total total' : Nat}
    (h : forEach entries addKey (data, total) = .ok (data', total')) :
    data' = data ++ entries.flatMap keyBytes ∧
      total' + 4 * entries.length = total + (entries.flatMap keyBytes).length := by
  refine forEach_partial (fun done (st : Bytes × Nat) => st.1 = data ++ done.flatMap keyBytes ∧
    st.2 + 4 * done.length = total + (done.flatMap keyBytes).length) (by simp) ?_ h
  rintro done ⟨key, owner⟩ rest ⟨d, n⟩ ⟨d', n'⟩ hsplit ⟨hd, hn⟩ hstep
  simp only at hd hn
  obtain ⟨hkey, hstep⟩ := check_bind_eq_ok.mp hstep
  obtain ⟨d₁, h₁, hstep⟩ := bind_eq_ok.mp hstep
  obtain ⟨d₂, h₂, hstep⟩ := bind_eq_ok.mp hstep
  obtain ⟨d₃, h₃, hstep⟩ := bind_eq_ok.mp hstep
  obtain ⟨-, rfl⟩ := write_eq_ok.mp h₁
  obtain ⟨-, rfl⟩ := write_eq_ok.mp h₂
  obtain ⟨-, rfl⟩ := write_eq_ok.mp h₃
  cases hstep
  simp only [List.flatMap_append, List.flatMap_singleton, length_append, List.length_singleton]
  constructor
  · simp only [hd, keyBytes, append_assoc]
  · simp only [keyBytes, length_append, List.length_drop, Wire.length_putUint16]
    omega

theorem operatorField_length {op : Bytes} (h : operatorField entries = .ok op) : op.length = 2 := by
  unfold operatorField at h
  cases entries with
  | nil =>
    cases h
    rfl
  | cons e rest =>
    dsimp only at h
    split_ifs at h with hlen
    cases h
    rw [List.length_take]
    omega

/-- **One bucket**: the bytes of the bucket behind their number. -/
theorem addBucket_eq {first second : VisitOrder Bytes WorkerID} {b : BucketID} {keyMap : KeyMap Bytes}
    {skm skm' : SerializedKepMap} (h : addBucket first second b keyMap skm = .ok skm') :
    ∃ op, operatorField (first.visit keyMap) = .ok op ∧ skm'.numBuckets = skm.numBuckets + 1 ∧
      skm'.data = skm.data ++ putSized (bucketBytes op b (second.visit keyMap)) ∧
      skm'.data.length ≤ maxKeyMapSize := by
  obtain ⟨op, hop, h⟩ := bind_eq_ok.mp h
  obtain ⟨d₁, h₁, h⟩ := bind_eq_ok.mp h
  obtain ⟨d₂, h₂, h⟩ := bind_eq_ok.mp h
  obtain ⟨d₃, h₃, h⟩ := bind_eq_ok.mp h
  obtain ⟨⟨d₄, total⟩, h₄, h⟩ := bind_eq_ok.mp h
  obtain ⟨hsize, h⟩ := check_bind_eq_ok.mp h
  obtain ⟨-, rfl⟩ := write_eq_ok.mp h₁
  obtain ⟨-, rfl⟩ := write_eq_ok.mp h₂
  obtain ⟨-, rfl⟩ := write_eq_ok.mp h₃
  obtain ⟨rfl, htotal⟩ := addKey_loop h₄
  have hnum := second.length_visit keyMap
  have hoplen := operatorField_length hop
  have hbody : total = (bucketBytes op b (second.visit keyMap)).length := by
    simp only [bucketBytes, length_append, length_putUint32, hoplen, hnum]
    omega
  have hdata : skm.data ++ List.replicate 4 0 ++ op ++ putUint32 b ++ putUint32 keyMap.entries.length
      ++ (second.visit keyMap).flatMap keyBytes
      = skm.data ++ List.replicate 4 0 ++ bucketBytes op b (second.visit keyMap) := by
    simp only [bucketBytes, hnum, append_assoc]
  have hpatch : patch skm.data.length (putUint32 total)
      (skm.data ++ List.replicate 4 0 ++ op ++ putUint32 b ++ putUint32 keyMap.entries.length
        ++ (second.visit keyMap).flatMap keyBytes)
      = skm.data ++ putSized (bucketBytes op b (second.visit keyMap)) := by
    rw [hdata, Wire.patch_append rfl (by simp), putSized, hbody, append_assoc]
  cases h
  dsimp only at hsize ⊢
  rw [hpatch] at hsize ⊢
  exact ⟨op, hop, rfl, rfl, Nat.not_lt.mp hsize⟩

/-- The message under construction after the given buckets. -/
structure Built (skm : SerializedKepMap) (buckets : List Bytes) : Prop where
  numBuckets : skm.numBuckets = buckets.length
  data : skm.data = newSerializedKeyMap.data ++ buckets.flatMap putSized

theorem Built.new : Built newSerializedKeyMap [] := ⟨rfl, by simp⟩

theorem newSerializedKeyMap_length : newSerializedKeyMap.data.length = 10 := rfl

/-- `Done` turns what was built into the message. -/
theorem Built.done_eq {skm : SerializedKepMap} {buckets : List Bytes} (h : Built skm buckets) :
    skm.done = message buckets := by
  have hlen : skm.data.length - 6 = (payload buckets).length := by
    rw [h.data, length_append, newSerializedKeyMap_length, payload, length_append, length_putUint32]
    omega
  have hfirst : patch 2 (putUint32 (skm.data.length - 6)) skm.data
      = FixedCodec.digits 2 migratingKeyMapWorkUnit ++ putUint32 (payload buckets).length
        ++ (List.replicate 4 0 ++ buckets.flatMap putSized) := by
    rw [hlen, h.data]
    simp only [newSerializedKeyMap, append_assoc]
    rw [← append_assoc, Wire.patch_append (FixedCodec.digits_length 2 _) (by simp), append_assoc]
  unfold SerializedKepMap.done
  rw [hfirst, ← append_assoc, Wire.patch_append (by simp [FixedCodec.digits_length]) (by simp), h.numBuckets,
    message, payload, append_assoc]

/-! ## The messages of a handover -/

section Handover

variable (first second : VisitOrder Bytes WorkerID)

/-- The operator id field of a bucket, as `operatorField` has it when it returns. -/
def operatorOf (keyMap : KeyMap Bytes) : Bytes :=
  match first.visit keyMap with
  | [] => [0, 0]
  | (key, _) :: _ => key.take 2

variable {keyMap : KeyMap Bytes} {op : Bytes}

theorem operatorField_eq (h : operatorField (first.visit keyMap) = .ok op) : op = operatorOf first keyMap := by
  unfold operatorField at h
  unfold operatorOf
  cases hvisit : first.visit keyMap with
  | nil =>
    rw [hvisit] at h
    exact (Outcome.ok.inj h).symm
  | cons e rest =>
    rw [hvisit] at h
    dsimp only at h ⊢
    split_ifs at h
    exact (Outcome.ok.inj h).symm

/-- The bytes one travelling key map becomes. -/
def entryBytes (e : BucketID × KeyMap Bytes) : Bytes :=
  bucketBytes (operatorOf first e.2) e.1 (second.visit e.2)

/-- The messages under construction carry the key maps of the abstract handover. -/
structure Carries (factory : Factory) (out : KeyLookupTableV2.Outgoing Bytes) : Prop where
  get_none : ∀ dst, factory.get dst = none ↔ out.get dst = none
  built : ∀ dst skm, factory.get dst = some skm →
    Built skm ((out.to dst).map (entryBytes first second)) ∧ skm.data.length ≤ maxKeyMapSize

variable {first second}

theorem Carries.empty : Carries first second ∅ ∅ := ⟨fun _ => by simp, fun _ _ h => by simp at h⟩

variable {out : KeyLookupTableV2.Outgoing Bytes} {factory : Factory}

theorem Carries.builtOrNew (h : Carries first second factory out) (dst : WorkerID) :
    Built ((factory.get dst).getD newSerializedKeyMap) ((out.to dst).map (entryBytes first second)) := by
  cases hget : factory.get dst with
  | none =>
    have hout : out.to dst = [] := by
      rw [KeyLookupTableV2.Outgoing.to, (h.get_none dst).mp hget, Option.getD_none]
    rw [hout]
    exact Built.new
  | some skm => exact (h.built dst skm hget).1

variable {b : BucketID}

theorem Carries.add (h : Carries first second factory out) {dst : WorkerID} {skm : SerializedKepMap}
    (hadd : addBucket first second b keyMap ((factory.get dst).getD newSerializedKeyMap) = .ok skm) :
    Carries first second (factory.set dst skm) (out.set dst (out.to dst ++ [(b, keyMap)])) := by
  obtain ⟨op, hop, hnum, hdata, hsize⟩ := addBucket_eq hadd
  have hbefore := h.builtOrNew dst
  refine ⟨fun dst' => ?_, fun dst' skm' hget => ?_⟩
  · rw [GoMap.get_set, GoMap.get_set]
    split_ifs
    · simp
    · exact h.get_none dst'
  · rw [GoMap.get_set] at hget
    rw [KeyLookupTableV2.Outgoing.to_set]
    split_ifs at hget ⊢ with hdst
    · cases hget
      refine ⟨⟨?_, ?_⟩, hsize⟩
      · rw [hnum, hbefore.numBuckets, List.map_append, length_append]
        rfl
      · rw [hdata, hbefore.data, List.map_append, List.flatMap_append, append_assoc, operatorField_eq first hop]
        simp [entryBytes]
    · exact h.built dst' skm' hget

variable (first second) in
/-- The writer and the abstract handover have come equally far. -/
def SameHandover (s : KeyLookupTableV2 Bytes × Factory)
    (s' : KeyLookupTableV2 Bytes × KeyLookupTableV2.Outgoing Bytes) : Prop :=
  s.1 = s'.1 ∧ Carries first second s.2 s'.2

variable {localWorker : WorkerID} {routing : PartitionTable}

theorem SameHandover.step {s r : KeyLookupTableV2 Bytes × Factory}
    {s' : KeyLookupTableV2 Bytes × KeyLookupTableV2.Outgoing Bytes} (h : SameHandover first second s s')
    (hstep : serializeBucket first second localWorker routing s b = .ok r) :
    ∃ r', KeyLookupTableV2.serializeBucket localWorker routing s' b = .ok r' ∧ SameHandover first second r r' := by
  obtain ⟨t, factory⟩ := s
  obtain ⟨t', out⟩ := s'
  obtain ⟨hsame, hcarries⟩ := h
  simp only at hsame hcarries
  subst hsame
  unfold serializeBucket at hstep
  unfold KeyLookupTableV2.serializeBucket
  simp only at hstep ⊢
  split_ifs at hstep ⊢ with hleave
  · cases hmap : (t b).map with
    | none =>
      rw [hmap] at hstep
      cases hstep
    | some keyMap =>
      rw [hmap] at hstep
      obtain ⟨skm, hadd, hpure⟩ := bind_eq_ok.mp hstep
      cases hpure
      exact ⟨_, rfl, rfl, hcarries.add hadd⟩
  · cases hstep
    exact ⟨_, rfl, rfl, hcarries⟩

variable {table table' : KeyLookupTableV2 Bytes}

/-- **The messages carry the handover.**  When the bytes are written without an abort, the abstract handover
returns with the same table, and every message is the message of the key maps bound for its destination. -/
theorem serializeMigratingKeyMaps_bytes {numBuckets : Nat} {messages : GoMap WorkerID Bytes}
    (h : serializeMigratingKeyMaps first second numBuckets localWorker routing table = .ok (table', messages)) :
    ∃ out, table.serializeMigratingKeyMaps numBuckets localWorker routing = .ok (table', out) ∧
      ∀ dst, (messages.get dst = none ↔ out.get dst = none) ∧
        ∀ msg, messages.get dst = some msg →
          msg = message ((out.to dst).map (entryBytes first second)) ∧ msg.length ≤ maxKeyMapSize := by
  obtain ⟨⟨t, factory⟩, hloop, hdone⟩ := bind_eq_ok.mp h
  cases hdone
  have hstart : SameHandover first second (table, ∅) (table, ∅) := ⟨rfl, Carries.empty⟩
  have hmatch : ∀ s s' b r, SameHandover first second s s' →
      serializeBucket first second localWorker routing s b = .ok r →
      ∃ r', KeyLookupTableV2.serializeBucket localWorker routing s' b = .ok r' ∧ SameHandover first second r r' :=
    fun _ _ _ _ hrel hstep => hrel.step hstep
  obtain ⟨⟨t', out⟩, habstract, hsame, hcarries⟩ :=
    forEach_simulation (SameHandover first second) hmatch hstart hloop
  simp only at hsame hcarries
  subst hsame
  refine ⟨out, habstract, fun dst => ⟨?_, fun msg hmsg => ?_⟩⟩
  · rw [GoMap.get_mapValues, Option.map_eq_none_iff, hcarries.get_none]
  · rw [GoMap.get_mapValues, Option.map_eq_some_iff] at hmsg
    obtain ⟨skm, hskm, rfl⟩ := hmsg
    obtain ⟨hbuilt, hsize⟩ := hcarries.built dst skm hskm
    refine ⟨hbuilt.done_eq, ?_⟩
    have hlen : skm.done.length = skm.data.length := by
      rw [hbuilt.done_eq, hbuilt.data]
      simp only [message, payload, length_append, FixedCodec.digits_length, length_putUint32,
        newSerializedKeyMap_length]
      omega
    rw [hlen]
    exact hsize

/-! ## Reading a message -/

/-- A key map the format is made for: every key starts with the operator id and its bucket id, what follows fits
the length field, and locations are 16-bit worker ids. -/
structure Codable (op : Bytes) (b : BucketID) (keyMap : KeyMap Bytes) : Prop where
  operator : op.length = 2
  bucket : b < 4294967296
  key : ∀ k w, keyMap.get k = some w →
    ∃ tail, k = op ++ putUint32 b ++ tail ∧ tail.length ≤ 65535 ∧ w < 65536

theorem readKey_keyBytes {start tail : Bytes} (hstart : start.length = 6) (htail : tail.length ≤ 65535)
    {owner : WorkerID} (howner : owner < 65536) (rest : Bytes) :
    readKey start (keyBytes (start ++ tail, owner) ++ rest) = .ok ((start ++ tail, owner), rest) := by
  have hlen : (start ++ tail).length - 6 = tail.length := by
    rw [length_append, hstart]
    omega
  have hdrop : (start ++ tail).drop 6 = tail := List.drop_left' hstart
  unfold readKey keyBytes
  simp only [hlen, hdrop, append_assoc]
  rw [Wire.uint16_of_lt _ (by omega), ok_bind]
  dsimp only
  rw [Wire.take_append _ rfl, ok_bind]
  dsimp only
  rw [Wire.uint16_of_lt _ howner, ok_bind]
  rfl

/-- What the receiver's map of a bucket is made of. -/
def restored (second : VisitOrder Bytes WorkerID) (keyMap : KeyMap Bytes) : KeyMap Bytes :=
  (second.visit keyMap).foldl (fun m e => m.set e.1 e.2) ∅

theorem restored_get (keyMap : KeyMap Bytes) (k : Bytes) : (restored second keyMap).get k = keyMap.get k :=
  second.get_copy keyMap k

variable (first second) in
/-- The entries of a codable map can be read back with the six bytes the writer put in front. -/
theorem many_readKey (h : Codable op b keyMap) (rest : Bytes) :
    many (readKey (operatorOf first keyMap ++ putUint32 b)) (second.visit keyMap).length
      ((second.visit keyMap).flatMap keyBytes ++ rest) = .ok (second.visit keyMap, rest) := by
  refine Wire.many_put _ ?_ rest
  rintro ⟨k, w⟩ hmem rest
  obtain ⟨tail, rfl, htail, hw⟩ := h.key k w ((second.mem_visit keyMap k w).mp hmem)
  -- the map is not empty, so the first visit met a key, which starts with the operator id too
  have hop : operatorOf first keyMap = op := by
    unfold operatorOf
    cases hvisit : first.visit keyMap with
    | nil =>
      have hlen := (first.length_visit keyMap).trans (second.length_visit keyMap).symm
      rw [hvisit] at hlen
      rw [List.length_eq_zero_iff.mp hlen.symm] at hmem
      simp at hmem
    | cons e others =>
      obtain ⟨k', w'⟩ := e
      obtain ⟨tail', rfl, -⟩ := h.key k' w' ((first.mem_visit keyMap k' w').mp (by rw [hvisit]; simp))
      dsimp only
      rw [append_assoc, List.take_left' h.operator]
  rw [hop]
  exact readKey_keyBytes (by simp [h.operator]) htail hw rest

theorem bigEndian_bucket {start : Bytes} (hstart : start.length = 2) (hb : b < 4294967296) :
    bigEndian ((start ++ putUint32 b).drop 2) = b := by
  rw [List.drop_left' hstart, Wire.bigEndian_putUint32, Nat.mod_eq_of_lt hb]

variable (first) in
theorem operatorOf_length (h : Codable op b keyMap) : (operatorOf first keyMap).length = 2 := by
  unfold operatorOf
  cases hvisit : first.visit keyMap with
  | nil => rfl
  | cons e others =>
    obtain ⟨k, w⟩ := e
    obtain ⟨tail, rfl, -⟩ := h.key k w ((first.mem_visit keyMap k w).mp (by rw [hvisit]; simp))
    dsimp only
    rw [append_assoc, List.take_left' h.operator, h.operator]

/-- **One bucket is restored**, provided the receiver has no keys for it. -/
theorem deserializeBucket_entryBytes (h : Codable op b keyMap)
    (hsize : (entryBytes first second (b, keyMap)).length < 4294967296) (localWorker : WorkerID)
    (hfree : ¬ HoldsKeys table b) :
    deserializeBucket localWorker table (entryBytes first second (b, keyMap))
      = .ok (Function.update table b ⟨localWorker, some (restored second keyMap)⟩) := by
  have hstart := operatorOf_length first h
  have hcount : (second.visit keyMap).length < 4294967296 := by
    have hkeys : (second.visit keyMap).length ≤ ((second.visit keyMap).flatMap keyBytes).length := by
      refine Wire.count_le_flatMap _ fun e _ => ?_
      simp only [keyBytes, length_append, Wire.length_putUint16]
      omega
    simp only [entryBytes, bucketBytes, length_append] at hsize
    omega
  have hread := many_readKey first second h []
  rw [List.append_nil] at hread
  unfold deserializeBucket entryBytes bucketBytes
  rw [append_assoc, Wire.take_append _ (by simp [hstart]), ok_bind]
  dsimp only
  rw [bigEndian_bucket hstart h.bucket, Wire.uint32_of_lt _ hcount, ok_bind]
  dsimp only
  rw [check_eq_ok hfree, ok_bind, hread, ok_bind]
  rfl

/-- A travelling key map the receiver can read. -/
def Readable (first second : VisitOrder Bytes WorkerID) (op : Bytes) (e : BucketID × KeyMap Bytes) : Prop :=
  Codable op e.1 e.2 ∧ (entryBytes first second e).length < 4294967296

theorem HoldsKeys.of_abort (h : HoldsKeys table b) (localWorker : WorkerID) (keyMap : KeyMap Bytes)
    (rest : MigratingKeyMap Bytes) :
    KeyLookupTableV2.deserializeMigratingKeyMaps localWorker ((b, keyMap) :: rest) table
      = .abort (.nonEmptyOnReceive b) := by
  obtain ⟨m, hmap, hne⟩ := h
  rw [KeyLookupTableV2.deserializeMigratingKeyMaps, forEach_cons]
  dsimp only
  rw [hmap]
  dsimp only
  rw [if_pos hne]
  rfl

theorem deserializeMigratingKeyMaps_cons (h : ¬ HoldsKeys table b) (localWorker : WorkerID) (keyMap : KeyMap Bytes)
    (rest : MigratingKeyMap Bytes) :
    KeyLookupTableV2.deserializeMigratingKeyMaps localWorker ((b, keyMap) :: rest) table
      = KeyLookupTableV2.deserializeMigratingKeyMaps localWorker rest
          (Function.update table b ⟨localWorker, some keyMap⟩) := by
  rw [KeyLookupTableV2.deserializeMigratingKeyMaps, forEach_cons]
  dsimp only
  cases hmap : (table b).map with
  | none => rfl
  | some m =>
    dsimp only
    rw [if_neg fun hne => h ⟨m, hmap, hne⟩]
    rfl

/-- **The goroutines** install what the abstract receiver installs. -/
theorem deserializeBuckets_ok {entries : List (BucketID × KeyMap Bytes)}
    (h : ∀ e ∈ entries, Readable first second op e)
    (hrun : KeyLookupTableV2.deserializeMigratingKeyMaps localWorker (entries.map fun e => (e.1, restored second e.2)) table = .ok table') :
    forEach (entries.map (entryBytes first second)) (deserializeBucket localWorker) table = .ok table' := by
  induction entries generalizing table with
  | nil =>
    obtain rfl : table = table' := Outcome.ok.inj hrun
    rfl
  | cons e rest ih =>
    obtain ⟨b, keyMap⟩ := e
    obtain ⟨hcodable, hsize⟩ := h (b, keyMap) (by simp)
    rw [List.map_cons] at hrun ⊢
    by_cases hfree : HoldsKeys table b
    · rw [hfree.of_abort] at hrun
      cases hrun
    · rw [deserializeMigratingKeyMaps_cons hfree] at hrun
      rw [forEach_cons, deserializeBucket_entryBytes hcodable hsize localWorker hfree, ok_bind]
      exact ih (fun e he => h e (by simp [he])) hrun

variable {buckets : List Bytes}

theorem deserializeMigratingKeyMaps_payload (hcount : buckets.length < 4294967296)
    (hsize : ∀ x ∈ buckets, x.length < 4294967296) (schedule : List Bytes → List Bytes) (localWorker : WorkerID)
    (table : KeyLookupTableV2 Bytes) :
    deserializeMigratingKeyMaps schedule localWorker (payload buckets) table
      = forEach (schedule buckets) (deserializeBucket localWorker) table := by
  have hread : many (sized .outOfRange) buckets.length (buckets.flatMap putSized)
      = (.ok (buckets, []) : Outcome CodecAbort _) := by
    have hmany := Wire.many_put buckets
      (fun x hx rest => Wire.sized_putSized CodecAbort.outOfRange (hsize x hx) rest) []
    rwa [List.append_nil] at hmany
  unfold deserializeMigratingKeyMaps payload
  rw [Wire.uint32_of_lt _ hcount, ok_bind]
  dsimp only
  rw [hread, ok_bind]

/-- `InitNewUpstream` reads exactly one message off the connection. -/
theorem initNewUpstream_message (hne : buckets ≠ []) (hlen : (payload buckets).length < 4294967296)
    (schedule : List Bytes → List Bytes) (localWorker : WorkerID) (rest : Bytes) (table : KeyLookupTableV2 Bytes) :
    initNewUpstream schedule localWorker (message buckets ++ rest) table
      = (do
          let table ← deserializeMigratingKeyMaps schedule localWorker (payload buckets) table
          pure (table, rest)) := by
  have hlong : ¬ (payload buckets).length ≤ 4 := by
    obtain ⟨x, xs, rfl⟩ := List.exists_cons_of_ne_nil hne
    simp only [payload, List.flatMap_cons, length_append, length_putUint32, Wire.length_putSized]
    omega
  have htype : ¬ FixedCodec.ofDigits (FixedCodec.digits 2 migratingKeyMapWorkUnit) ≠ migratingKeyMapWorkUnit :=
    not_not.mpr (FixedCodec.ofDigits_digits 2 _ (by decide))
  have hfield : bigEndian (putUint32 (payload buckets).length) = (payload buckets).length := by
    rw [Wire.bigEndian_putUint32, Nat.mod_eq_of_lt hlen]
  unfold initNewUpstream message
  simp only [append_assoc]
  rw [Wire.recv_append (FixedCodec.digits_length 2 _), ok_bind]
  dsimp only
  rw [check_eq_ok htype, ok_bind, Wire.recv_append (length_putUint32 _), ok_bind]
  dsimp only
  rw [hfield, check_eq_ok hlong, ok_bind, Wire.recv_append rfl, ok_bind]

/-- The sender gives bucket `b` to `dst`. -/
def Bound (numBuckets : Nat) (localWorker : WorkerID) (routing : PartitionTable) (table : KeyLookupTableV2 Bytes)
    (dst : WorkerID) (b : BucketID) : Prop :=
  b < numBuckets ∧ table.Leaves localWorker routing b ∧ routing b = dst

/-- A message whose length fields say what follows them: the total length, and in front of every bucket the
length of that bucket. -/
def WellSized (msg : Bytes) : Prop :=
  ∃ buckets, msg = message buckets ∧
    bigEndian (putUint32 (payload buckets).length) = (payload buckets).length ∧
    ∀ x ∈ buckets, bigEndian (putUint32 x.length) = x.length

/-- What a receiver `dst` gets out of a message: exactly the sender's key maps of the buckets bound for it, and
no other bucket changes. -/
structure Received (numBuckets : Nat) (localWorker : WorkerID) (routing : PartitionTable)
    (sender : KeyLookupTableV2 Bytes) (dst : WorkerID) (receiver receiver' : KeyLookupTableV2 Bytes) : Prop where
  bound : ∀ b, Bound numBuckets localWorker routing sender dst b →
    ∃ keyMap keyMap', (sender b).map = some keyMap ∧ receiver' b = ⟨dst, some keyMap'⟩ ∧
      ∀ k, keyMap'.get k = keyMap.get k
  other : ∀ b, ¬ Bound numBuckets localWorker routing sender dst b → receiver' b = receiver b

theorem mem_putSized_length {x : Bytes} (hx : x ∈ buckets) :
    x.length ≤ (payload buckets).length := by
  have hle : (putSized x).length ≤ (buckets.flatMap putSized).length := Wire.length_le_flatMap hx
  rw [Wire.length_putSized] at hle
  rw [payload, length_append]
  omega

theorem length_le_payload (buckets : List Bytes) : buckets.length ≤ (payload buckets).length := by
  have hle : buckets.length ≤ (buckets.flatMap putSized).length :=
    Wire.count_le_flatMap buckets fun x _ => by rw [Wire.length_putSized]; omega
  rw [payload, length_append]
  omega

theorem exists_perm_map {α β : Type} {f : α → β} {l : List α} {l' : List β} (h : l'.Perm (l.map f)) :
    ∃ l'' : List α, l''.Perm l ∧ l' = l''.map f := by
  have himage : List.Forall₂ (fun y x => y = f x) (l.map f) l := by
    rw [List.forall₂_map_left_iff]
    exact List.forall₂_same.mpr fun _ _ => rfl
  obtain ⟨l'', hl'', hperm⟩ := List.perm_comp_forall₂ h himage
  refine ⟨l'', hperm, ?_⟩
  clear h himage hperm
  induction hl'' with
  | nil => rfl
  | cons hy _ ih => rw [hy, ih, List.map_cons]

section Messages

variable {op : Bytes} {numBuckets : Nat} {localWorker : WorkerID} {routing : PartitionTable}
  {table table' : KeyLookupTableV2 Bytes} {out : KeyLookupTableV2.Outgoing Bytes}

theorem bound_iff (h : table.Serialized (List.range numBuckets) localWorker routing table' out) (dst : WorkerID)
    (b : BucketID) : Bound numBuckets localWorker routing table dst b ↔ b ∈ (out.to dst).map Prod.fst := by
  rw [mem_map]
  constructor
  · rintro ⟨hb, hleave, hdst⟩
    obtain ⟨m, hm⟩ := Option.isSome_iff_exists.mp (h.map_isSome b (mem_range.mpr hb) hleave)
    exact ⟨(b, m), (h.mem_to dst b m).mpr ⟨mem_range.mpr hb, hleave, hdst, hm⟩, rfl⟩
  · rintro ⟨⟨b', m⟩, hmem, rfl⟩
    obtain ⟨hb, hleave, hdst, -⟩ := (h.mem_to dst b' m).mp hmem
    exact ⟨mem_range.mp hb, hleave, hdst⟩

theorem exists_bound_iff (h : table.Serialized (List.range numBuckets) localWorker routing table' out)
    (dst : WorkerID) : (∃ b, Bound numBuckets localWorker routing table dst b) ↔ (out.get dst).isSome := by
  have hto : out.to dst ≠ [] ↔ (out.get dst).isSome := by
    rw [KeyLookupTableV2.Outgoing.to]
    cases hout : out.get dst with
    | none => simp
    | some entries =>
      have hne := h.nonempty dst
      rw [hout] at hne
      simpa using hne
  rw [← hto]
  constructor
  · rintro ⟨b, hb⟩ hnil
    have hmem := (bound_iff h dst b).mp hb
    rw [hnil] at hmem
    simp at hmem
  · intro hne
    obtain ⟨e, he⟩ := List.exists_mem_of_ne_nil _ hne
    exact ⟨e.1, (bound_iff h dst e.1).mpr (List.mem_map_of_mem he)⟩

/-- **A receiver restores its message**, whatever the order of its goroutines. -/
theorem receive (h : table.Serialized (List.range numBuckets) localWorker routing table' out) {dst : WorkerID}
    (hreadable : ∀ e ∈ out.to dst, Readable first second op e) {buckets : List Bytes}
    (hbuckets : buckets.Perm ((out.to dst).map (entryBytes first second))) {receiver : KeyLookupTableV2 Bytes}
    (hfree : ∀ b, Bound numBuckets localWorker routing table dst b → ¬ HoldsKeys receiver b) :
    ∃ receiver', forEach buckets (deserializeBucket dst) receiver = .ok receiver' ∧
      Received numBuckets localWorker routing table dst receiver receiver' := by
  obtain ⟨entries, hperm, rfl⟩ := exists_perm_map hbuckets
  have hfst : (entries.map fun e => (e.1, restored second e.2)).map Prod.fst = entries.map Prod.fst := by
    rw [List.map_map]
    rfl
  have hnodup : ((entries.map fun e => (e.1, restored second e.2)).map Prod.fst).Nodup := by
    rw [hfst, (hperm.map Prod.fst).nodup_iff]
    exact h.nodup dst
  have hmem : ∀ b, b ∈ (entries.map fun e => (e.1, restored second e.2)).map Prod.fst ↔
      Bound numBuckets localWorker routing table dst b := by
    intro b
    rw [hfst, (hperm.map Prod.fst).mem_iff, bound_iff h]
  have hempty : ∀ b ∈ (entries.map fun e => (e.1, restored second e.2)).map Prod.fst, ∀ m,
      (receiver b).map = some m → m.entries = [] := by
    intro b hb m hm
    by_contra hkeysAt
    exact hfree b ((hmem b).mp hb) ⟨m, hm, fun hlen => hkeysAt (List.length_eq_zero_iff.mp hlen)⟩
  obtain ⟨receiver', hinstall⟩ : ∃ receiver', KeyLookupTableV2.deserializeMigratingKeyMaps dst
      (entries.map fun e => (e.1, restored second e.2)) receiver = .ok receiver' :=
    KeyLookupTableV2.deserializeMigratingKeyMaps_total hnodup hempty
  obtain ⟨hinstalled, hothers⟩ := KeyLookupTableV2.deserializeMigratingKeyMaps_spec hnodup hinstall
  refine ⟨receiver', deserializeBuckets_ok (fun e he => hreadable e (hperm.mem_iff.mp he)) hinstall,
    fun b hb => ?_, fun b hb => hothers b fun hin => hb ((hmem b).mp hin)⟩
  obtain ⟨e, he, rfl⟩ := mem_map.mp ((hmem b).mpr hb)
  obtain ⟨⟨b, m⟩, hin, rfl⟩ := mem_map.mp he
  obtain ⟨-, -, -, hm⟩ := (h.mem_to dst b m).mp (hperm.mem_iff.mp hin)
  exact ⟨m, restored second m, hm, hinstalled b _ he, restored_get m⟩

end Messages

/-- **Round trip of the key-map codec.**  Whenever serialization returns, a destination gets a message exactly if
a bucket is bound for it; the length fields of the message are right; and a receiver without keys for these
buckets, whatever else is on the connection and in whatever order its goroutines run, reads exactly the message
and ends with the sender's key maps in exactly the buckets bound for it. -/
theorem roundTrip {op : Bytes} {numBuckets : Nat} {localWorker : WorkerID} {routing : PartitionTable}
    {table table' : KeyLookupTableV2 Bytes} {messages : GoMap WorkerID Bytes}
    (hkeys : ∀ b < numBuckets, ∀ keyMap, (table b).map = some keyMap → Codable op b keyMap)
    (h : serializeMigratingKeyMaps first second numBuckets localWorker routing table = .ok (table', messages))
    (dst : WorkerID) : ((messages.get dst).isSome ↔ ∃ b, Bound numBuckets localWorker routing table dst b) ∧
      ∀ msg, messages.get dst = some msg → WellSized msg ∧
        ∀ schedule : List Bytes → List Bytes, (∀ l, (schedule l).Perm l) → ∀ receiver : KeyLookupTableV2 Bytes,
          (∀ b, Bound numBuckets localWorker routing table dst b → ¬ HoldsKeys receiver b) → ∀ rest,
          ∃ receiver', initNewUpstream schedule dst (msg ++ rest) receiver = .ok (receiver', rest) ∧
            Received numBuckets localWorker routing table dst receiver receiver' := by
  obtain ⟨out, habstract, hmessages⟩ := serializeMigratingKeyMaps_bytes h
  obtain ⟨hnone, hmsg⟩ := hmessages dst
  have hspec := KeyLookupTableV2.serializeMigratingKeyMaps_spec habstract
  have hsome : (messages.get dst).isSome ↔ ∃ b, Bound numBuckets localWorker routing table dst b := by
    rw [exists_bound_iff hspec, ← Option.ne_none_iff_isSome, ← Option.ne_none_iff_isSome, ne_eq, hnone]
  refine ⟨hsome, fun msg hget => ?_⟩
  obtain ⟨rfl, hsize⟩ := hmsg msg hget
  -- a message is at most 20 MB long, so every length fits its field
  have hpayload : (payload ((out.to dst).map (entryBytes first second))).length < 4294967296 := by
    simp only [message, length_append] at hsize
    have hmax : maxKeyMapSize < 4294967296 := by decide
    omega
  have hentry : ∀ x ∈ (out.to dst).map (entryBytes first second), x.length < 4294967296 :=
    fun x hx => (mem_putSized_length hx).trans_lt hpayload
  have hcount := (length_le_payload ((out.to dst).map (entryBytes first second))).trans_lt hpayload
  refine ⟨⟨_, rfl, ?_, fun x hx => ?_⟩, fun schedule hschedule receiver hfree rest => ?_⟩
  · rw [Wire.bigEndian_putUint32, Nat.mod_eq_of_lt hpayload]
  · rw [Wire.bigEndian_putUint32, Nat.mod_eq_of_lt (hentry x hx)]
  · have hne : (out.to dst).map (entryBytes first second) ≠ [] := by
      obtain ⟨b, hb⟩ := hsome.mp (by rw [hget]; rfl)
      obtain ⟨e, he, -⟩ := mem_map.mp ((bound_iff hspec dst b).mp hb)
      exact List.ne_nil_of_mem (List.mem_map_of_mem he)
    have hreadable : ∀ e ∈ out.to dst, Readable first second op e := by
      rintro ⟨b, m⟩ he
      obtain ⟨hb, -, -, hm⟩ := (hspec.mem_to dst b m).mp he
      exact ⟨hkeys b (mem_range.mp hb) m hm, hentry _ (List.mem_map_of_mem he)⟩
    obtain ⟨receiver', hrun, hreceived⟩ :=
      receive hspec hreadable (hschedule ((out.to dst).map (entryBytes first second))) hfree
    refine ⟨receiver', ?_, hreceived⟩
    rw [initNewUpstream_message hne hpayload, deserializeMigratingKeyMaps_payload hcount hentry, hrun]
    rfl

/-- One bucket with one key, moved from worker 0 to a worker with an empty table. -/
def sampleTable : KeyLookupTableV2 Bytes :=
  Function.update (deserialize (fun _ => 0) 0) 0
    ⟨0, some ((∅ : KeyMap Bytes).set [0, 7, 0, 0, 0, 0, 42] 0)⟩

theorem roundTrip_sample :
    ∃ table' messages msg, serializeMigratingKeyMaps (VisitOrder.asListed _ _) (VisitOrder.asListed _ _) 1 0
        (fun _ => 1) sampleTable = .ok (table', messages) ∧ messages.get 1 = some msg ∧
      ∃ receiver', initNewUpstream id 1 msg (deserialize (fun _ => 0) 1) = .ok (receiver', []) ∧
        Received 1 0 (fun _ => 1) sampleTable 1 (deserialize (fun _ => 0) 1) receiver' := by
  obtain ⟨⟨table', messages⟩, hrun⟩ : ∃ r, serializeMigratingKeyMaps (VisitOrder.asListed _ _)
      (VisitOrder.asListed _ _) 1 0 (fun _ => 1) sampleTable = .ok r := ⟨_, rfl⟩
  have hkeys : ∀ b < 1, ∀ keyMap, (sampleTable b).map = some keyMap → Codable [0, 7] b keyMap := by
    intro b hb keyMap hmap
    obtain rfl : b = 0 := Nat.lt_one_iff.mp hb
    obtain rfl : keyMap = (∅ : KeyMap Bytes).set [0, 7, 0, 0, 0, 0, 42] 0 := (Option.some.inj hmap).symm
    refine ⟨rfl, by decide, fun k w hget => ?_⟩
    rw [GoMap.get_set] at hget
    split_ifs at hget with hk
    · cases hget
      exact ⟨[42], hk, by decide, by decide⟩
    · simp at hget
  have hround := roundTrip hkeys hrun 1
  have hsome : (messages.get 1).isSome := hround.1.mpr ⟨0, by decide, by decide, rfl⟩
  obtain ⟨msg, hmsg⟩ := Option.isSome_iff_exists.mp hsome
  have hfree : ∀ b, ¬ HoldsKeys (deserialize (fun _ => 0) 1) b := by
    rintro b ⟨m, hm, -⟩
    simp [deserialize] at hm
  obtain ⟨receiver', hread, hreceived⟩ :=
    (hround.2 msg hmsg).2 id List.Perm.refl (deserialize (fun _ => 0) 1) (fun b _ => hfree b) []
  rw [List.append_nil] at hread
  exact ⟨table', messages, msg, hrun, hmsg, receiver', hread, hreceived⟩

end Handover

end KeyMapCodec
end Keyby
end Koala
