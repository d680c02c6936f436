import Koala.StateClient.KeyEncoding
import Koala.StopRestart.Pull

/-!
# State keys apart, and bucket scans

The keys of an operator are told apart by what follows the bucket: the state id has a fixed width, and the user key is
self-delimiting, so the window start behind it can be read off too.  A scan of a range of buckets is a scan of byte
strings; the operator id and the bucket stand first, with fixed width, and the upper bound leaves room for the increment.
-/

namespace Koala
namespace StateClient

open Lib Network State StopRestart
open Partition (BucketID)

namespace KeyClient

variable {sc : KeyClient}

/-- `serializeMultiStateKeys`: the template once for every state id, with the id overwritten. -/
def serializeMultiStateKeys (serializedKeyTemplate : Bytes) (stateIDs : List UInt16)
    (serializedKeys : GoMap UInt16 (List Bytes)) : Option (GoMap UInt16 (List Bytes)) :=
  stateIDs.foldlM (fun serializedKeys stateID => do
    let serializedKeyCopy ← encodeStateID serializedKeyTemplate stateID
    some (serializedKeys.set stateID ((serializedKeys.get stateID).getD [] ++ [serializedKeyCopy]))) serializedKeys

theorem encodeStateID_encode (ks : KeySpace) (k : StateKey) (stateID : UInt16) :
    encodeStateID (ks.encode k) stateID = some (ks.encode { k with stateID := stateID.toNat }) := by
  have hwrite := write_append (putUint16 ks.operatorID ++ putUint32 (ks.bucketOf k)) (putUint16 k.stateID)
    (k.key ++ k.windowStart) (putUint16 stateID.toNat) rfl
  simp only [List.append_assoc] at hwrite
  exact hwrite

/-- Each requested state gets the key it would have been encoded with, once for every request. -/
theorem serializeMultiStateKeys_eq (ks : KeySpace) (k : StateKey) (stateIDs : List UInt16)
    (serializedKeys : GoMap UInt16 (List Bytes)) :
    ∃ result, serializeMultiStateKeys (ks.encode k) stateIDs serializedKeys = some result ∧
      ∀ id, (result.get id).getD [] = (serializedKeys.get id).getD [] ++
        List.replicate (stateIDs.count id) (ks.encode { k with stateID := id.toNat }) := by
  induction stateIDs generalizing serializedKeys with
  | nil => exact ⟨serializedKeys, rfl, fun id => (List.append_nil _).symm⟩
  | cons x stateIDs ih =>
    obtain ⟨result, hresult, hget⟩ := ih (serializedKeys.set x ((serializedKeys.get x).getD [] ++
      [ks.encode { k with stateID := x.toNat }]))
    refine ⟨result, ?_, fun id => ?_⟩
    · rw [serializeMultiStateKeys, List.foldlM_cons, encodeStateID_encode]
      exact hresult
    · rw [hget id, GoMap.get_set]
      by_cases hid : id = x
      · subst hid
        simp [List.replicate_succ]
      · simp [hid, Ne.symm hid]

theorem bytes_append_inj {key key' : sc.Key} {rest rest' : Bytes}
    (h : sc.bytes key ++ rest = sc.bytes key' ++ rest') : key = key' ∧ rest = rest' := by
  have hread := decodeFunc_encodeFunc sc.mus sc.kind key rest
  change decodeFuncFromKind sc.mus sc.kind (sc.bytes key ++ rest) = _ at hread
  rw [h, bytes, decodeFunc_encodeFunc] at hread
  obtain rfl : key' = key := congrArg Prod.fst (Option.some.inj hread)
  exact ⟨rfl, List.append_cancel_left h⟩

theorem encode_inj {key key' : sc.Key} {stateID stateID' : UInt16} {start start' : Bytes}
    (h : sc.space.encode ⟨stateID.toNat, sc.bytes key, start⟩ = sc.space.encode ⟨stateID'.toNat, sc.bytes key', start'⟩) :
    stateID = stateID' ∧ key = key' ∧ start = start' := by
  obtain ⟨hstate, htail⟩ := List.append_inj (List.append_inj (List.append_cancel_left h) rfl).2 rfl
  have hid := congrArg getUint16 hstate
  rw [← List.append_nil (putUint16 _), getUint16_putUint16 stateID.toNat_lt, ← List.append_nil (putUint16 _),
    getUint16_putUint16 stateID'.toNat_lt] at hid
  exact ⟨UInt16.toNat_inj.mp hid, bytes_append_inj htail⟩

theorem fields_encode (k : StateKey) : getUint16 (sc.space.encode k) = sc.operatorID.toNat ∧
    getUint32 ((sc.space.encode k).drop bucketIDOffset) = sc.space.bucketOf k := by
  have hlt := sc.space.bucketOf_lt k
  have hmax := sc.space.numBuckets_le
  unfold maxSupportedBuckets at hmax
  exact ⟨getUint16_putUint16 sc.operatorID.toNat_lt _, getUint32_putUint32 (by omega) _⟩

/-- **A scan** finds the keys with the operator's id and a bucket of the range. -/
theorem mem_readLocalBucketRange {b : Backend} {l u : Nat} (hl : l ≤ u) (hu : u < sc.numBuckets) {k v : Bytes}
    (hk : keyPrefixSize ≤ k.length) : (k, v) ∈ readLocalBucketRange sc.space b ⟨l, u⟩ ↔
      b.get k = some v ∧ getUint16 k = sc.operatorID.toNat ∧ l ≤ getUint32 (k.drop bucketIDOffset) ∧
        getUint32 (k.drop bucketIDOffset) ≤ u := by
  have hmax := sc.numBuckets_le
  unfold maxSupportedBuckets at hmax
  have hlength : 6 ≤ k.length := Nat.le_trans (by decide) hk
  have hbelow : ∀ n ≤ sc.numBuckets, k < sc.space.bucketBound n ↔ getUint16 k < sc.operatorID.toNat ∨
      getUint16 k = sc.operatorID.toNat ∧ getUint32 (k.drop bucketIDOffset) < n := fun n hn =>
    lt_putUint16_putUint32_iff hlength sc.operatorID.toNat_lt (by omega)
  rw [readLocalBucketRange, Backend.mem_rangeQuery, ← List.not_lt]
  refine and_congr_right fun _ => ?_
  rw [hbelow l (by omega), hbelow (u + 1) hu]
  omega

/-- How a state client derives the keys of its other states from that of the first one. -/
def DerivesKeys (encodeWith : UInt16 → Option (Bytes × BucketID)) : Prop :=
  ∀ stateID template bucket, encodeWith stateID = some (template, bucket) → ∀ stateIDs serializedKeys,
    ∃ result, serializeMultiStateKeys template stateIDs serializedKeys = some result ∧
      ∀ id, ∃ copy, encodeWith id = some (copy, bucket) ∧
        copy.take stateIDOffset = template.take stateIDOffset ∧ copy.drop keyOffset = template.drop keyOffset ∧
        (result.get id).getD [] = (serializedKeys.get id).getD [] ++ List.replicate (stateIDs.count id) copy

theorem derivesKeys (key : sc.Key) (start : Bytes) (encodeWith : UInt16 → Option (Bytes × BucketID))
    (h : ∀ id, encodeWith id = some (sc.space.encode ⟨id.toNat, sc.bytes key, start⟩, sc.bucketOf key)) :
    DerivesKeys encodeWith := by
  intro stateID template bucket htemplate stateIDs serializedKeys
  rw [h] at htemplate
  cases htemplate
  obtain ⟨result, hresult, hget⟩ := serializeMultiStateKeys_eq sc.space ⟨stateID.toNat, sc.bytes key, start⟩ stateIDs
    serializedKeys
  exact ⟨result, hresult, fun id => ⟨_, h id, rfl, rfl, hget id⟩⟩

/-- **State keys and their scans.**  Keys of different states, user keys or windows of an operator are different; the
keys of the other states are those of the first one up to the state id; a key names its operator and its bucket; and a
scan of a range of buckets returns, in key order and each once, the stored pairs of the operator in these buckets. -/
theorem stateKeys_scanned (sc : KeyClient) :
    (∀ key stateID key' stateID' buf b b', sc.encodeSimpleKey key stateID = some (buf, b) →
      sc.encodeSimpleKey key' stateID' = some (buf, b') → stateID = stateID' ∧ key = key') ∧
    (∀ key start stateID key' start' stateID' buf b b', sc.encodeWindowKey key start stateID = some (buf, b) →
      sc.encodeWindowKey key' start' stateID' = some (buf, b') → stateID = stateID' ∧ key = key' ∧ start = start') ∧
    (∀ key, DerivesKeys (sc.encodeSimpleKey key) ∧ ∀ start, DerivesKeys (sc.encodeWindowKey key start)) ∧
    (∀ key stateID buf bucket, (sc.encodeSimpleKey key stateID = some (buf, bucket) ∨
        ∃ start, sc.encodeWindowKey key start stateID = some (buf, bucket)) →
      keyPrefixSize ≤ buf.length ∧ getUint16 buf = sc.operatorID.toNat ∧
        getUint32 (buf.drop bucketIDOffset) = bucket) ∧
    ∀ (b : Backend) (l u : Nat), l ≤ u → u < sc.numBuckets →
      (∀ k v, b.get k = some v → keyPrefixSize ≤ k.length) →
      (∀ k v, (k, v) ∈ readLocalBucketRange sc.space b ⟨l, u⟩ ↔ b.get k = some v ∧
        getUint16 k = sc.operatorID.toNat ∧ l ≤ getUint32 (k.drop bucketIDOffset) ∧
        getUint32 (k.drop bucketIDOffset) ≤ u) ∧
      ((readLocalBucketRange sc.space b ⟨l, u⟩).map Prod.fst).Nodup ∧
      (readLocalBucketRange sc.space b ⟨l, u⟩).Pairwise fun p q => p.1 ≤ q.1 := by
  refine ⟨?_, ?_, fun key => ⟨?_, fun start => ?_⟩, ?_, fun b l u hl hu hstored => ⟨fun k v => ?_, ?_, ?_⟩⟩
  · intro key stateID key' stateID' buf b b' h h'
    rw [encodeSimpleKey_eq, Option.some.injEq, Prod.mk.injEq] at h h'
    obtain ⟨hstate, hkey, -⟩ := encode_inj (h.1.trans h'.1.symm)
    exact ⟨hstate, hkey⟩
  · intro key start stateID key' start' stateID' buf b b' h h'
    rw [encodeWindowKey_eq, Option.some.injEq, Prod.mk.injEq] at h h'
    obtain ⟨hstate, hkey, hstart⟩ := encode_inj (h.1.trans h'.1.symm)
    exact ⟨hstate, hkey, sc.mus.int64.marshal_injective hstart⟩
  · exact derivesKeys key [] _ fun id => encodeSimpleKey_eq
  · exact derivesKeys key _ _ fun id => encodeWindowKey_eq
  · intro key stateID buf bucket h
    obtain ⟨start, hbuf⟩ : ∃ start, (sc.space.encode ⟨stateID.toNat, sc.bytes key, start⟩, sc.bucketOf key)
        = (buf, bucket) := by
      rcases h with h | ⟨start, h⟩
      · exact ⟨_, Option.some.inj (encodeSimpleKey_eq.symm.trans h)⟩
      · exact ⟨_, Option.some.inj (encodeWindowKey_eq.symm.trans h)⟩
    cases hbuf
    exact ⟨Nat.le_add_left _ _, fields_encode _⟩
  · constructor
    · intro hmem
      have hget : b.get k = some v := ((Backend.mem_rangeQuery ..).mp hmem).1
      exact (mem_readLocalBucketRange hl hu (hstored k v hget)).mp hmem
    · exact fun h => (mem_readLocalBucketRange hl hu (hstored k v h.1)).mpr h
  · exact Backend.rangeQuery_keys_nodup _ _ _
  · exact Backend.rangeQuery_sorted _ _ _

end KeyClient

end StateClient
end Koala
