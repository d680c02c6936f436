import Koala.Collector.KeybyCollector
import Koala.Keyby.TableDistribution
import Koala.Network.TupleCodec
import Koala.State.StateKey

/-!
# From a key to its bucket

The key of a record is serialized and hashed in five places: `encodeSimpleKey` and `encodeWindowKey` write it behind
the prefix of a state key, `GetBucketIdx` and `GetOwnerWorkerUponReconfig` into a buffer of its own, and so does `Emit`
of the keyby collector.  The buffers are sized before they are written, so which bytes are hashed depends on the
sizers; `encodeSimpleKey_eq` and `encodeWindowKey_eq` say what the buffers hold in the end.
-/

namespace Koala
namespace StateClient

open Lib Network State
open Partition (WorkerID BucketID)

/-! ## Buffers -/

/-- `make([]byte, size)`. -/
def makeBytes (size : Nat) : Bytes := List.replicate size 0

/-- Writing at an offset; Go panics if the bytes do not fit. -/
def write (buf : Bytes) (offset : Nat) (data : Bytes) : Option Bytes :=
  if offset + data.length ≤ buf.length then some (buf.take offset ++ (data ++ buf.drop (offset + data.length))) else none

theorem write_append (front old back data : Bytes) (hlen : data.length = old.length) :
    write (front ++ (old ++ back)) front.length data = some (front ++ (data ++ back)) := by
  rw [write, if_pos (by simp [hlen]), List.take_left, hlen, ← List.length_append, ← List.append_assoc front old,
    List.drop_left]

def keyPrefixSize : Nat := 8

def bucketIDOffset : Nat := 2

def stateIDOffset : Nat := 6

def keyOffset : Nat := keyPrefixSize

/-- What a `StateClient` encodes keys with, after `Setup`. -/
structure KeyClient where
  operatorID : UInt16
  kind : Kind
  mus : MusCodecs
  keyHashFunc : Bytes → UInt64
  numBuckets : Nat
  numBuckets_pos : 0 < numBuckets
  numBuckets_le : numBuckets ≤ maxSupportedBuckets

namespace KeyClient

variable (sc : KeyClient)

abbrev Key : Type := sc.kind.Val

variable (key : sc.Key)

/-- `keyEncoder`, on the buffer from an offset on: the buffer afterwards and the number of bytes written. -/
def keyEncoder (buf : Bytes) (offset : Nat) : Option (Bytes × Nat) :=
  let data := encodeFuncFromKind sc.mus sc.kind key
  (write buf offset data).map (·, data.length)

def keySizer : Nat := tupleSizeFuncFromKind sc.mus sc.kind key

def encodeStateID (buf : Bytes) (stateID : UInt16) : Option Bytes := write buf stateIDOffset (putUint16 stateID.toNat)

def encodeKeyPrefix (buf key : Bytes) (stateID : UInt16) : Option (Bytes × BucketID) := do
  let buf ← write buf 0 (putUint16 sc.operatorID.toNat)
  let bucketIdx := (sc.keyHashFunc key).toNat % sc.numBuckets
  let buf ← write buf bucketIDOffset (putUint32 bucketIdx)
  let buf ← encodeStateID buf stateID
  some (buf, bucketIdx)

def encodeSimpleKey (stateID : UInt16) : Option (Bytes × BucketID) := do
  let buf := makeBytes (keyPrefixSize + sc.keySizer key)
  let (buf, _) ← sc.keyEncoder key buf keyOffset
  sc.encodeKeyPrefix buf (buf.drop keyOffset) stateID

def encodeWindowKey (windowStartTime : Int64) (stateID : UInt16) : Option (Bytes × BucketID) := do
  let buf := makeBytes (keyPrefixSize + sc.keySizer key + sc.mus.int64.size windowStartTime)
  let (buf, offset) ← sc.keyEncoder key buf keyOffset
  let windowStartTimeOffset := keyOffset + offset
  let buf ← write buf windowStartTimeOffset (sc.mus.int64.marshal windowStartTime)
  sc.encodeKeyPrefix buf ((buf.take windowStartTimeOffset).drop keyOffset) stateID

/-- Serializing a key into a buffer of its own. -/
def serializeKey : Option Bytes :=
  (sc.keyEncoder key (makeBytes (sc.keySizer key)) 0).map Prod.fst

def getBucketIdx : Option BucketID := do
  let serializedKey ← sc.serializeKey key
  some ((sc.keyHashFunc serializedKey).toNat % sc.numBuckets)

/-- The bucket that `KeyToWorkerID` looks up in a routing table of some length. -/
def routingBucket (length : Nat) (key : sc.Key) : Option BucketID := do
  let serializedKey ← sc.serializeKey key
  if length = 0 then none else some ((sc.keyHashFunc serializedKey).toNat % length)

/-- `KeyToWorkerID`, after the key has been serialized. -/
def keyToWorkerID (buckets : List UInt16) (key : sc.Key) : Option UInt16 := do
  let bucketIdx ← sc.routingBucket buckets.length key
  buckets[bucketIdx]?

def getOwnerWorkerUponReconfig (routingTable : List UInt16) (key : sc.Key) : Option UInt16 :=
  sc.keyToWorkerID routingTable key

/-- The worker that `Emit` sends a record with the key to. -/
def downstreamWorkerId (routingTable : List UInt16) (key : sc.Key) : Option UInt16 :=
  sc.keyToWorkerID routingTable key

/-! ## What the buffers hold -/

/-- The bytes of a key. -/
def bytes : Bytes := encodeFuncFromKind sc.mus sc.kind key

/-- The bucket of a key. -/
def bucketOf : BucketID := (sc.keyHashFunc (sc.bytes key)).toNat % sc.numBuckets

/-- The layout of the operator's state keys. -/
def space : KeySpace where
  operatorID := sc.operatorID.toNat
  numBuckets := sc.numBuckets
  hash := fun key => (sc.keyHashFunc key).toNat
  numBuckets_pos := sc.numBuckets_pos
  numBuckets_le := sc.numBuckets_le

theorem bucketOf_lt : sc.bucketOf key < sc.numBuckets := Nat.mod_lt _ sc.numBuckets_pos

variable {sc} {key : sc.Key} {stateID : UInt16}

/-- The first eight bytes become the prefix, and the hashed bytes decide the bucket. -/
theorem encodeKeyPrefix_eq (tail : Bytes) :
    sc.encodeKeyPrefix (makeBytes keyPrefixSize ++ tail) (sc.bytes key) stateID
      = some (putUint16 sc.operatorID.toNat ++ (putUint32 (sc.bucketOf key) ++ (putUint16 stateID.toNat ++ tail)),
          sc.bucketOf key) := by
  have hoperator : write (makeBytes keyPrefixSize ++ tail) 0 (putUint16 sc.operatorID.toNat)
      = some (putUint16 sc.operatorID.toNat ++ (makeBytes 6 ++ tail)) :=
    write_append [] (makeBytes 2) (makeBytes 6 ++ tail) _ rfl
  have hbucket : write (putUint16 sc.operatorID.toNat ++ (makeBytes 6 ++ tail)) bucketIDOffset
      (putUint32 (sc.bucketOf key))
      = some (putUint16 sc.operatorID.toNat ++ (putUint32 (sc.bucketOf key) ++ (makeBytes 2 ++ tail))) :=
    write_append (putUint16 _) (makeBytes 4) (makeBytes 2 ++ tail) _ rfl
  have hstate : encodeStateID
      (putUint16 sc.operatorID.toNat ++ (putUint32 (sc.bucketOf key) ++ (makeBytes 2 ++ tail))) stateID = _ :=
    write_append (putUint16 sc.operatorID.toNat ++ putUint32 (sc.bucketOf key)) (makeBytes 2) tail _ rfl
  have hidx : (sc.keyHashFunc (sc.bytes key)).toNat % sc.numBuckets = sc.bucketOf key := rfl
  simp only [encodeKeyPrefix, Option.bind_eq_bind, hoperator, Option.bind_some, hidx, hbucket, hstate,
    List.append_assoc]

theorem keyEncoder_eq (key : sc.Key) (front back : Bytes) :
    sc.keyEncoder key (front ++ (makeBytes (sc.keySizer key) ++ back)) front.length
      = some (front ++ (sc.bytes key ++ back), (sc.bytes key).length) := by
  have hlen : (sc.bytes key).length = (makeBytes (sc.keySizer key)).length := by
    rw [makeBytes, List.length_replicate, keySizer, encodeFunc_length]
    rfl
  exact congrArg (Option.map _) (write_append front _ back _ hlen)

theorem makeBytes_add (m n : Nat) : makeBytes (m + n) = makeBytes m ++ makeBytes n := List.replicate_add ..

theorem drop_makeBytes (tail : Bytes) : (makeBytes keyPrefixSize ++ tail).drop keyOffset = tail := rfl

/-- **A simple state key**: the prefix with the key's bucket, then the key. -/
theorem encodeSimpleKey_eq : sc.encodeSimpleKey key stateID
    = some (sc.space.encode ⟨stateID.toNat, sc.bytes key, []⟩, sc.bucketOf key) := by
  have hkey : sc.keyEncoder key (makeBytes (keyPrefixSize + sc.keySizer key)) keyOffset
      = some (makeBytes keyPrefixSize ++ sc.bytes key, (sc.bytes key).length) := by
    have henc := keyEncoder_eq key (makeBytes keyPrefixSize) []
    rw [List.append_nil, List.append_nil, ← makeBytes_add] at henc
    exact henc
  simp only [encodeSimpleKey, hkey, Option.bind_eq_bind, Option.bind_some, drop_makeBytes, encodeKeyPrefix_eq,
    KeySpace.encode, List.append_nil]
  rfl

/-- **A window state key**: the window start follows the key and does not take part in the bucket. -/
theorem encodeWindowKey_eq {windowStartTime : Int64} : sc.encodeWindowKey key windowStartTime stateID
    = some (sc.space.encode ⟨stateID.toNat, sc.bytes key, sc.mus.int64.marshal windowStartTime⟩, sc.bucketOf key) := by
  have hkey : sc.keyEncoder key
      (makeBytes (keyPrefixSize + sc.keySizer key + sc.mus.int64.size windowStartTime)) keyOffset
      = some (makeBytes keyPrefixSize ++ (sc.bytes key ++ makeBytes (sc.mus.int64.size windowStartTime)),
          (sc.bytes key).length) := by
    rw [makeBytes_add, makeBytes_add, List.append_assoc]
    exact keyEncoder_eq key (makeBytes keyPrefixSize) _
  have hstart := write_append (makeBytes keyPrefixSize ++ sc.bytes key)
    (makeBytes (sc.mus.int64.size windowStartTime)) [] (sc.mus.int64.marshal windowStartTime)
    (by rw [makeBytes, List.length_replicate, Codec.size_eq])
  simp only [List.append_nil, List.append_assoc, List.length_append] at hstart
  -- what is hashed ends where the window start begins
  have hhashed : ((makeBytes keyPrefixSize ++ (sc.bytes key ++ sc.mus.int64.marshal windowStartTime)).take
      (keyOffset + (sc.bytes key).length)).drop keyOffset = sc.bytes key := by
    rw [List.drop_take, drop_makeBytes, Nat.add_sub_cancel_left, List.take_left]
  have hoffset : (makeBytes keyPrefixSize).length = keyOffset := rfl
  rw [hoffset] at hstart
  simp only [encodeWindowKey, hkey, hstart, hhashed, Option.bind_eq_bind, Option.bind_some, encodeKeyPrefix_eq]
  rfl

theorem serializeKey_eq : sc.serializeKey key = some (sc.bytes key) := by
  have hkey : sc.keyEncoder key (makeBytes (sc.keySizer key)) 0
      = some (sc.bytes key, (sc.bytes key).length) := by
    have henc := keyEncoder_eq key [] []
    rw [List.append_nil, List.append_nil] at henc
    exact henc
  rw [serializeKey, hkey, Option.map_some]

theorem getBucketIdx_eq : sc.getBucketIdx key = some (sc.bucketOf key) := by
  rw [getBucketIdx, serializeKey_eq]
  rfl

theorem keyToWorkerID_eq {buckets : List UInt16} (hlen : buckets.length = sc.numBuckets) :
    sc.keyToWorkerID buckets key = buckets[sc.bucketOf key]? := by
  have hpos := sc.numBuckets_pos
  rw [keyToWorkerID, routingBucket, serializeKey_eq, hlen]
  simp [bucketOf, hpos.ne']

/-- The collector of a task whose records carry keys of the operator, with a routing table of some length. -/
def collectorConfig {R : Type} (sc : KeyClient) (getKey : R → sc.Key) (length : Nat) (batchSize : Nat)
    (getSize : R → Nat) (lazyProtocol : Bool) : Collector.Config R where
  batchSize := batchSize
  getSize := getSize
  bucketOf := fun r => (sc.routingBucket length (getKey r)).getD 0
  lazyProtocol := lazyProtocol

/-- `Emit` puts a record into the pending batch of the owner of its bucket. -/
theorem emit_pending {R : Type} {cfg : Collector.Config R} {c c' : Collector.KeybyCollector R} {r : R}
    (h : c.emit cfg r = .ok c') :
    ∃ batch, c'.curBatches.get (c.routingTable (cfg.bucketOf r)) = some batch ∧ batch.records.getLast? = some r := by
  unfold Collector.KeybyCollector.emit at h
  cases hdown : c.downstreams.get (c.routingTable (cfg.bucketOf r)) with
  | none => simp [hdown] at h
  | some ch =>
    cases hbatch : c.curBatches.get (c.routingTable (cfg.bucketOf r)) with
    | none => simp [hdown, hbatch] at h
    | some targetBatch =>
      simp only [hdown, hbatch] at h
      split_ifs at h with hfull htoo
      · cases h
        exact ⟨_, GoMap.get_set_self .., by simp [Collector.Batch.addRecord]⟩
      · cases h
        exact ⟨_, GoMap.get_set_self .., by simp [Collector.Batch.addRecord]⟩

/-- **One bucket for a key.**  The state client stores simple and window state of a key under the bucket that
`GetBucketIdx` computes for its metadata.  With the tables that the workers build from the coordinator's assignment,
the fast-forward lookup and the collector find the worker whose own tables say that it owns this bucket, and `Emit`
hands the record to that worker. -/
theorem bucket_agreement (sc : KeyClient) (key : sc.Key) : ∃ bucket < sc.numBuckets,
    (∀ stateID, ∃ buf, sc.encodeSimpleKey key stateID = some (buf, bucket) ∧
      (buf.drop bucketIDOffset).take 4 = putUint32 bucket) ∧
    (∀ windowStartTime stateID, ∃ buf, sc.encodeWindowKey key windowStartTime stateID = some (buf, bucket) ∧
      (buf.drop bucketIDOffset).take 4 = putUint32 bucket) ∧
    sc.getBucketIdx key = some bucket ∧
    ∀ owners : List UInt16, owners.length = sc.numBuckets → ∃ ranges routing lookup w,
      Keyby.PartitionTable.serialize owners = .ok ranges ∧
      Keyby.PartitionTable.deserialize sc.numBuckets ranges = .ok routing ∧
      Keyby.KeyLookupTable.deserialize sc.numBuckets ranges = .ok lookup ∧
      sc.getOwnerWorkerUponReconfig routing key = some w ∧ sc.downstreamWorkerId routing key = some w ∧
      lookup[bucket]? = some ⟨w⟩ ∧
      (∀ K : Type, ∃ table : List (Keyby.BucketV2 K),
        Keyby.KeyLookupTableV2.deserializeRanges sc.numBuckets w ranges = .ok table ∧
        table[bucket]? = some ⟨w.toNat, some ∅⟩) ∧
      ∀ (R : Type) (getKey : R → sc.Key) (batchSize : Nat) (getSize : R → Nat) (lazyProtocol : Bool)
        (c c' : Collector.KeybyCollector R) (r : R), getKey r = key →
        c.routingTable = (fun b => (routing.getD b 0).toNat) →
        c.emit (sc.collectorConfig getKey routing.length batchSize getSize lazyProtocol) r = .ok c' →
        ∃ batch, c'.curBatches.get w.toNat = some batch ∧ batch.records.getLast? = some r := by
  refine ⟨sc.bucketOf key, sc.bucketOf_lt key, fun stateID => ⟨_, encodeSimpleKey_eq, rfl⟩,
    fun windowStartTime stateID => ⟨_, encodeWindowKey_eq, rfl⟩, getBucketIdx_eq, fun owners hlen => ?_⟩
  have hlt : sc.bucketOf key < owners.length := hlen ▸ sc.bucketOf_lt key
  have hne : owners ≠ [] := List.ne_nil_of_length_pos (Nat.lt_of_le_of_lt (Nat.zero_le _) hlt)
  obtain ⟨ranges, hserialize, hranges⟩ := Keyby.serializeOwners_ok hne
  have howner := List.getElem?_eq_getElem hlt
  rw [← hlen]
  refine ⟨ranges, owners, _, owners[sc.bucketOf key], hserialize, Keyby.PartitionTable.deserialize_ok hranges,
    Keyby.KeyLookupTable.deserialize_ok hranges, (keyToWorkerID_eq hlen).trans howner,
    (keyToWorkerID_eq hlen).trans howner, by simp [howner], fun K => ?_, ?_⟩
  · exact ⟨_, Keyby.KeyLookupTableV2.deserializeRanges_ok hranges _, by simp [howner]⟩
  · intro R getKey batchSize getSize lazyProtocol c c' r hkey htable hemit
    have hpending := emit_pending hemit
    have hbucket : (sc.collectorConfig getKey owners.length batchSize getSize lazyProtocol).bucketOf r
        = sc.bucketOf key := by
      have hpos := sc.numBuckets_pos
      simp [collectorConfig, routingBucket, hkey, serializeKey_eq, hlen, hpos.ne', bucketOf]
    rw [hbucket, htable] at hpending
    simpa [List.getD, howner] using hpending

end KeyClient

end StateClient
end Koala
