import Koala.Lib.ByteOrder

/-!
# State keys

The layout of a key in the state store (`api/stateClient/stateClientUtils.go`):

`| operator id (2 bytes) | bucket id (4 bytes) | state id (2 bytes) | key | window start, for window state |`

The bucket is the hash of the user key modulo the number of buckets; the window start does not take part.
-/

namespace Koala
namespace State

open Lib

/-- The largest number of buckets a deployment may have (`MaxSupportedBuckets`): one value of the 32-bit
field is reserved for the upper end of a range scan. -/
def maxSupportedBuckets : Nat := 4294967295

/-- What fixes the encoding of an operator's keys: its id, the number of buckets, and the key hash. -/
structure KeySpace where
  operatorID : Nat
  numBuckets : Nat
  hash : Bytes → Nat
  numBuckets_pos : 0 < numBuckets
  numBuckets_le : numBuckets ≤ maxSupportedBuckets

/-- The parts of a state key that vary within one operator. -/
structure StateKey where
  stateID : Nat
  key : Bytes
  /-- encoded window start time; empty for simple state -/
  windowStart : Bytes
  deriving DecidableEq, Repr

namespace KeySpace

variable (ks : KeySpace) (k : StateKey)

/-- The bucket of a key. -/
def bucketOf : Nat := ks.hash k.key % ks.numBuckets

/-- `encodeSimpleKey` / `encodeWindowKey`. -/
def encode : Bytes :=
  putUint16 ks.operatorID ++ (putUint32 (ks.bucketOf k) ++ (putUint16 k.stateID ++ (k.key ++ k.windowStart)))

/-- The start of a bucket in the key order: operator id and bucket id. -/
def bucketBound (bucket : Nat) : Bytes := putUint16 ks.operatorID ++ putUint32 bucket

theorem bucketOf_lt : ks.bucketOf k < ks.numBuckets := Nat.mod_lt _ ks.numBuckets_pos

/-- A stored key lies below the start of bucket `b` exactly when its bucket does. -/
theorem encode_lt_bucketBound {b : Nat} (hb : b ≤ ks.numBuckets) :
    ks.encode k < ks.bucketBound b ↔ ks.bucketOf k < b := by
  have hlt := ks.bucketOf_lt k
  have hmax := ks.numBuckets_le
  unfold maxSupportedBuckets at hmax
  rw [encode, bucketBound, append_lt_append_iff]
  exact putUint32_lt_iff (by omega) (by omega) _

theorem bucketBound_le {a b : Nat} (hab : a ≤ b) (hb : b ≤ ks.numBuckets) :
    ks.bucketBound a ≤ ks.bucketBound b := by
  have hmax := ks.numBuckets_le
  unfold maxSupportedBuckets at hmax
  rw [← List.not_lt, bucketBound, bucketBound, append_lt_append_iff]
  have hiff := putUint32_lt_iff (a := b) (b := a) (by omega) (by omega) []
  rw [List.append_nil] at hiff
  rw [hiff]
  omega

/-- The key range of a bucket, as `ReadLocalBucketRange` scans it. -/
def InBucket (b : Nat) (k : Bytes) : Prop := ks.bucketBound b ≤ k ∧ k < ks.bucketBound (b + 1)

theorem inBucket_encode {b : Nat} (hb : b < ks.numBuckets) :
    ks.InBucket b (ks.encode k) ↔ ks.bucketOf k = b := by
  rw [InBucket, ← List.not_lt, ks.encode_lt_bucketBound k (by omega), ks.encode_lt_bucketBound k (by omega)]
  omega

theorem encode_bucket_eq {k k' : StateKey} (h : ks.encode k = ks.encode k') :
    ks.bucketOf k = ks.bucketOf k' := by
  have hlt := ks.bucketOf_lt k
  have hlt' := ks.bucketOf_lt k'
  have hmax := ks.numBuckets_le
  unfold maxSupportedBuckets at hmax
  unfold encode at h
  have htail := List.append_cancel_left h
  have hbucket := (List.append_inj htail rfl).1
  exact putUint32_injective (by omega) (by omega) hbucket

end KeySpace

end State
end Koala
