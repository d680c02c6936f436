import Koala.Keyby.KeyLookupTable
import Mathlib.Data.List.Chain

/-!
# Distributing the partition

The coordinator sends an assignment of buckets to workers as ranges: `Serialize` merges consecutive buckets with the
same owner.  A worker expands the ranges in three ways, into the routing table of its collector
(`PartitionTable.deserialize`), into its state lookup table (`KeyLookupTable.deserialize`), and under the by-key
protocol into the table with the key maps (`KeyLookupTableV2.deserializeRanges`).

Both tables of the coordinator are serialized by the same loop over the owners, and all three expansions write the
pairs of bucket and owner that `expand` lists, so the round trips follow from `serializeOwners_ok`.
-/

namespace Koala
namespace Keyby

open Lib Lib.Outcome
open Partition (WorkerID BucketID)

/-- `pb.BucketRange`. -/
structure OwnerRange where
  workerId : UInt32
  lowerBucketIdx : Nat
  upperBucketIdx : Nat
  deriving DecidableEq, Repr

inductive DistributionAbort where
  /-- Go's bounds checks. -/
  | indexOutOfRange
  /-- "Deserialized bucket length is not equal to NumBuckets\n" -/
  | bucketLength
  deriving DecidableEq, Repr

/-- `partition.Bucket`. -/
structure Bucket where
  workerID : UInt16
  deriving DecidableEq, Repr

/-! ## Serializing -/

/-- The local variables of `Serialize`. -/
structure Serializing where
  bucketRanges : List OwnerRange
  lastOwner : UInt16
  bucketRange : OwnerRange

/-- One round of the loop of `Serialize`. -/
def Serializing.visit (st : Serializing) (e : UInt16 × Nat) : Serializing :=
  if e.1 = st.lastOwner then { st with bucketRange := { st.bucketRange with upperBucketIdx := e.2 } }
  else ⟨st.bucketRanges ++ [st.bucketRange], e.1, ⟨e.1.toUInt32, e.2, e.2⟩⟩

/-- The ranges with the one that is still open. -/
def Serializing.ranges (st : Serializing) : List OwnerRange := st.bucketRanges ++ [st.bucketRange]

/-- `Serialize`, on the owners of the buckets. -/
def serializeOwners : List UInt16 → Outcome DistributionAbort (List OwnerRange)
  | [] => .abort .indexOutOfRange
  | first :: rest =>
    .ok ((first :: rest).zipIdx.foldl Serializing.visit ⟨[], first, ⟨first.toUInt32, 0, 0⟩⟩).ranges

/-- `PartitionTable.Serialize`. -/
def PartitionTable.serialize (buckets : List UInt16) : Outcome DistributionAbort (List OwnerRange) :=
  serializeOwners buckets

/-- `KeyLookupTable.Serialize`. -/
def KeyLookupTable.serialize (buckets : List Bucket) : Outcome DistributionAbort (List OwnerRange) :=
  serializeOwners (buckets.map Bucket.workerID)

/-! ## Deserializing -/

/-- The indices of the loops over a range. -/
def OwnerRange.indices (r : OwnerRange) : List BucketID :=
  List.range' r.lowerBucketIdx (r.upperBucketIdx + 1 - r.lowerBucketIdx)

/-- `buckets[i] = v`. -/
def store {α : Type} (buckets : List α) (i : BucketID) (v : α) : Outcome DistributionAbort (List α) := do
  check (buckets.length ≤ i) .indexOutOfRange
  pure (buckets.set i v)

/-- `DeserializePartitionTable`. -/
def PartitionTable.deserialize (numBuckets : Nat) (bucketRanges : List OwnerRange) :
    Outcome DistributionAbort (List UInt16) := do
  let buckets ← forEach bucketRanges (fun buckets r =>
    forEach r.indices (fun buckets i => store buckets i r.workerId.toUInt16) buckets) (List.replicate numBuckets 0)
  check (buckets.length ≠ numBuckets) .bucketLength
  pure buckets

/-- `DeserializeKeyLookupTable`. -/
def KeyLookupTable.deserialize (numBuckets : Nat) (bucketRanges : List OwnerRange) :
    Outcome DistributionAbort (List Bucket) := do
  let buckets ← forEach bucketRanges (fun buckets r =>
    forEach r.indices (fun buckets _ => .ok (buckets ++ [⟨r.workerId.toUInt16⟩])) buckets) []
  check (buckets.length ≠ numBuckets) .bucketLength
  pure buckets

/-- `DeserializeKeyLookupTableV2`. -/
def KeyLookupTableV2.deserializeRanges {K : Type} (numBuckets : Nat) (localWorkerId : UInt16)
    (bucketRanges : List OwnerRange) : Outcome DistributionAbort (List (BucketV2 K)) := do
  let buckets ← forEach bucketRanges (fun buckets r =>
    forEach r.indices (fun buckets i =>
      let workerId := r.workerId.toUInt16
      store buckets i ⟨workerId.toNat, if workerId = localWorkerId then some ∅ else none⟩) buckets)
    (List.replicate numBuckets ⟨0, none⟩)
  check (buckets.length ≠ numBuckets) .bucketLength
  pure buckets

/-! ## The ranges of an assignment -/

/-- The buckets that ranges list, with their owners. -/
def expand (ranges : List OwnerRange) : List (BucketID × UInt32) :=
  ranges.flatMap fun r => r.indices.map fun i => (i, r.workerId)

/-- The next range begins where the one before ends, and has another owner. -/
def Adjacent (r next : OwnerRange) : Prop := next.lowerBucketIdx = r.upperBucketIdx + 1 ∧ r.workerId ≠ next.workerId

/-- The loop has come to the bucket `next`. -/
structure Serializing.At (st : Serializing) (next : BucketID) : Prop where
  owner : st.bucketRange.workerId = st.lastOwner.toUInt32
  upper : st.bucketRange.upperBucketIdx + 1 = next
  le : ∀ r ∈ st.ranges, r.lowerBucketIdx ≤ r.upperBucketIdx
  chain : st.ranges.IsChain Adjacent

theorem expand_append (rs rs' : List OwnerRange) : expand (rs ++ rs') = expand rs ++ expand rs' :=
  List.flatMap_append

theorem toUInt32_inj {w w' : UInt16} (h : w.toUInt32 = w'.toUInt32) : w = w' := by
  have hnat := congrArg UInt32.toNat h
  rw [UInt16.toNat_toUInt32, UInt16.toNat_toUInt32] at hnat
  exact UInt16.toNat_inj.mp hnat

theorem expand_grow {r : OwnerRange} (hle : r.lowerBucketIdx ≤ r.upperBucketIdx) :
    expand [{ r with upperBucketIdx := r.upperBucketIdx + 1 }]
      = expand [r] ++ [(r.upperBucketIdx + 1, r.workerId)] := by
  have hcount : r.upperBucketIdx + 1 + 1 - r.lowerBucketIdx = (r.upperBucketIdx + 1 - r.lowerBucketIdx) + 1 := by omega
  have hlast : r.lowerBucketIdx + (r.upperBucketIdx + 1 - r.lowerBucketIdx) = r.upperBucketIdx + 1 := by omega
  simp only [expand, OwnerRange.indices, List.flatMap_cons, List.flatMap_nil, List.append_nil]
  rw [hcount, List.range'_concat, Nat.one_mul, hlast, List.map_append]
  rfl

/-- **One round** lists one more bucket. -/
theorem Serializing.At.visit {st : Serializing} {next : BucketID} (h : st.At next) (w : UInt16) :
    (st.visit (w, next)).At (next + 1) ∧
      expand (st.visit (w, next)).ranges = expand st.ranges ++ [(next, w.toUInt32)] := by
  have hlast : st.bucketRange.lowerBucketIdx ≤ st.bucketRange.upperBucketIdx :=
    h.le _ (List.mem_append_right _ (List.mem_singleton.mpr rfl))
  have hbefore : ∀ r ∈ st.bucketRanges, r.lowerBucketIdx ≤ r.upperBucketIdx := fun r hr =>
    h.le r (List.mem_append_left _ hr)
  obtain ⟨hclosed, -, hopen⟩ := List.isChain_append.mp h.chain
  by_cases hw : w = st.lastOwner
  · -- the open range grows
    have hvisit : st.visit (w, next) = { st with bucketRange := { st.bucketRange with upperBucketIdx := next } } :=
      if_pos hw
    rw [hvisit]
    refine ⟨⟨h.owner, rfl, fun r hr => ?_, ?_⟩, ?_⟩
    · rcases List.mem_append.mp hr with hr | hr
      · exact hbefore r hr
      · rw [List.mem_singleton.mp hr]
        have hupper := h.upper
        show st.bucketRange.lowerBucketIdx ≤ next
        omega
    · refine List.isChain_append.mpr ⟨hclosed, List.isChain_singleton _, fun r hr r' hr' => ?_⟩
      obtain rfl := Option.some.inj hr'
      exact hopen r hr st.bucketRange rfl
    · simp only [Serializing.ranges, expand_append, List.append_assoc]
      rw [← h.upper, expand_grow hlast, h.owner, hw]
  · -- the open range is closed and the next one has only this bucket
    have hvisit : st.visit (w, next) = ⟨st.ranges, w, ⟨w.toUInt32, next, next⟩⟩ := if_neg hw
    rw [hvisit]
    refine ⟨⟨rfl, rfl, fun r hr => ?_, ?_⟩, ?_⟩
    · rcases List.mem_append.mp hr with hr | hr
      · exact h.le r hr
      · rw [List.mem_singleton.mp hr]
    · refine List.isChain_append.mpr ⟨h.chain, List.isChain_singleton _, fun r hr r' hr' => ?_⟩
      obtain rfl := Option.some.inj hr'
      have hr : st.bucketRange = r := by
        rw [Serializing.ranges, List.getLast?_concat] at hr
        exact Option.some.inj hr
      subst hr
      refine ⟨h.upper.symm, fun heq => hw ?_⟩
      rw [h.owner] at heq
      exact (toUInt32_inj heq).symm
    · show expand (st.ranges ++ [⟨w.toUInt32, next, next⟩]) = _
      rw [expand_append]
      simp [expand, OwnerRange.indices]

theorem Serializing.At.visits {st : Serializing} {next : BucketID} (h : st.At next) (owners : List UInt16) :
    ((owners.zipIdx next).foldl Serializing.visit st).At (next + owners.length) ∧
      expand ((owners.zipIdx next).foldl Serializing.visit st).ranges
        = expand st.ranges ++ (owners.zipIdx next).map fun e => (e.2, e.1.toUInt32) := by
  induction owners generalizing st next with
  | nil => exact ⟨h, (List.append_nil _).symm⟩
  | cons w owners ih =>
    obtain ⟨hnext, hexpand⟩ := h.visit w
    obtain ⟨hend, hexpand'⟩ := ih hnext
    rw [List.zipIdx_cons, List.foldl_cons, List.map_cons, List.length_cons]
    refine ⟨?_, ?_⟩
    · rw [Nat.add_comm owners.length 1, ← Nat.add_assoc]
      exact hend
    · rw [hexpand', hexpand, List.append_assoc]
      rfl

/-- The ranges of an assignment list its buckets in order, from the first to the last, and two neighbours have
different owners. -/
structure RangesFor (owners : List UInt16) (ranges : List OwnerRange) : Prop where
  le : ∀ r ∈ ranges, r.lowerBucketIdx ≤ r.upperBucketIdx
  adjacent : ranges.IsChain Adjacent
  covers : ranges.flatMap OwnerRange.indices = List.range owners.length
  expand_eq : expand ranges = owners.zipIdx.map fun e => (e.2, e.1.toUInt32)

variable {owners : List UInt16}

/-- **Serializing** an assignment. -/
theorem serializeOwners_ok (hne : owners ≠ []) :
    ∃ ranges, serializeOwners owners = .ok ranges ∧ RangesFor owners ranges := by
  obtain ⟨first, rest, rfl⟩ := List.exists_cons_of_ne_nil hne
  -- the first round leaves the variables as they are
  have hstart : Serializing.At ⟨[], first, ⟨first.toUInt32, 0, 0⟩⟩ 1 :=
    ⟨rfl, rfl, fun r hr => by rw [List.mem_singleton.mp hr], List.isChain_singleton _⟩
  have hfirst : Serializing.visit ⟨[], first, ⟨first.toUInt32, 0, 0⟩⟩ (first, 0)
      = ⟨[], first, ⟨first.toUInt32, 0, 0⟩⟩ := if_pos rfl
  obtain ⟨hend, hexpand⟩ := hstart.visits rest
  refine ⟨_, rfl, ?_⟩
  rw [List.zipIdx_cons, List.foldl_cons, hfirst, Nat.zero_add]
  have hall : expand (((rest.zipIdx 1).foldl Serializing.visit ⟨[], first, ⟨first.toUInt32, 0, 0⟩⟩)).ranges
      = (first :: rest).zipIdx.map fun e => (e.2, e.1.toUInt32) := by
    rw [hexpand]
    rfl
  refine ⟨hend.le, hend.chain, ?_, hall⟩
  -- the buckets are the first components of what is listed
  have hfst := congrArg (List.map Prod.fst) hall
  rw [expand, List.map_flatMap, List.map_map] at hfst
  have hrange : (first :: rest).zipIdx.map (Prod.fst ∘ fun e => (e.2, e.1.toUInt32))
      = List.range (first :: rest).length := by
    rw [List.range_eq_range', ← List.zipIdx_map_snd]
    rfl
  rw [← hrange, ← hfst]
  simp only [List.map_map]
  congr 1
  funext r
  exact (List.map_id _).symm

/-! ## The expansions -/

section

variable {α : Type} {owners : List UInt16} {ranges : List OwnerRange}

theorem forEach_expand (body : List α → BucketID × UInt32 → Outcome DistributionAbort (List α)) (s : List α) :
    forEach ranges (fun s r => forEach r.indices (fun s i => body s (i, r.workerId)) s) s
      = forEach (expand ranges) body s := by
  rw [expand, forEach_flatMap]
  simp only [forEach_map]

theorem forEach_store (f : UInt32 → α) (zero : α) (owners : List UInt16) (done : List α) :
    forEach (owners.zipIdx done.length) (fun buckets e => store buckets e.2 (f e.1.toUInt32))
      (done ++ List.replicate owners.length zero) = .ok (done ++ owners.map fun w => f w.toUInt32) := by
  induction owners generalizing done with
  | nil => rfl
  | cons w owners ih =>
    have hstore : store (done ++ List.replicate (w :: owners).length zero) done.length (f w.toUInt32)
        = .ok (done ++ [f w.toUInt32] ++ List.replicate owners.length zero) := by
      unfold store
      rw [check_eq_ok (by simp), ok_bind, List.set_append_right _ _ le_rfl, Nat.sub_self, List.length_cons,
        List.replicate_succ, List.set_cons_zero, List.append_assoc]
      rfl
    rw [List.zipIdx_cons, forEach_cons, hstore, ok_bind]
    have hrest := ih (done ++ [f w.toUInt32])
    rw [List.length_append, List.length_singleton] at hrest
    rw [hrest, List.map_cons, List.append_assoc]
    rfl

theorem RangesFor.forEach_store (h : RangesFor owners ranges) (f : UInt32 → α) (zero : α) :
    forEach ranges (fun buckets r => forEach r.indices (fun buckets i => store buckets i (f r.workerId)) buckets)
      (List.replicate owners.length zero) = .ok (owners.map fun w => f w.toUInt32) := by
  rw [forEach_expand fun buckets e => store buckets e.1 (f e.2), h.expand_eq, forEach_map]
  exact Keyby.forEach_store f zero owners []

theorem RangesFor.forEach_append (h : RangesFor owners ranges) (f : UInt32 → α) :
    forEach ranges (fun buckets r => forEach r.indices (fun buckets _ =>
      (.ok (buckets ++ [f r.workerId]) : Outcome DistributionAbort (List α))) buckets) []
      = .ok (owners.map fun w => f w.toUInt32) := by
  rw [forEach_expand fun buckets e => .ok (buckets ++ [f e.2]), h.expand_eq, forEach_map,
    forEach_eq_foldl (g := fun buckets (e : UInt16 × Nat) => buckets ++ [f e.1.toUInt32]) fun _ _ _ => rfl]
  have hfold : ∀ (es : List (UInt16 × Nat)) (done : List α),
      es.foldl (fun buckets e => buckets ++ [f e.1.toUInt32]) done = done ++ es.map fun e => f e.1.toUInt32 := by
    intro es
    induction es with
    | nil => exact fun done => (List.append_nil done).symm
    | cons e es ih =>
      intro done
      rw [List.foldl_cons, ih, List.map_cons, List.append_assoc]
      rfl
  rw [hfold, List.nil_append]
  conv_rhs => rw [← List.zipIdx_map_fst 0 owners, List.map_map]
  rfl

end

variable {ranges : List OwnerRange}

section

variable (h : RangesFor owners ranges)
include h

theorem PartitionTable.deserialize_ok : PartitionTable.deserialize owners.length ranges = .ok owners := by
  unfold PartitionTable.deserialize
  rw [h.forEach_store UInt32.toUInt16 0, ok_bind]
  simp [check]

theorem KeyLookupTable.deserialize_ok :
    KeyLookupTable.deserialize owners.length ranges = .ok (owners.map Bucket.mk) := by
  unfold KeyLookupTable.deserialize
  rw [h.forEach_append fun workerId => (⟨workerId.toUInt16⟩ : Bucket), ok_bind]
  simp [check]

theorem KeyLookupTableV2.deserializeRanges_ok {K : Type} (localWorkerId : UInt16) :
    KeyLookupTableV2.deserializeRanges (K := K) owners.length localWorkerId ranges
      = .ok (owners.map fun w => ⟨w.toNat, if w = localWorkerId then some ∅ else none⟩) := by
  unfold KeyLookupTableV2.deserializeRanges
  rw [h.forEach_store (fun workerId => (⟨workerId.toUInt16.toNat,
    if workerId.toUInt16 = localWorkerId then some ∅ else none⟩ : BucketV2 K)) ⟨0, none⟩, ok_bind]
  simp [check]

/-- The expanded table is the one that a freshly deployed task is modelled with. -/
theorem KeyLookupTableV2.getElem?_deserializeRanges {K : Type} (localWorkerId : UInt16) :
    ∃ table, KeyLookupTableV2.deserializeRanges (K := K) owners.length localWorkerId ranges = .ok table ∧
      ∀ b, b < owners.length → table[b]? = some
        (KeyLookupTableV2.deserialize (fun b => (owners.getD b 0).toNat) localWorkerId.toNat b) := by
  refine ⟨_, KeyLookupTableV2.deserializeRanges_ok h localWorkerId, fun b hb => ?_⟩
  simp [KeyLookupTableV2.deserialize, List.getElem?_eq_getElem hb, UInt16.toNat_inj]

end

/-- **The tables that the workers build** from the ranges all give each bucket the owner that the coordinator gave it,
and the key maps are those of the buckets that the worker owns. -/
theorem tables_agree (K : Type) (owners : List UInt16) (hne : owners ≠ []) :
    ∃ ranges, PartitionTable.serialize owners = .ok ranges ∧
      KeyLookupTable.serialize (owners.map Bucket.mk) = .ok ranges ∧
      (∀ r ∈ ranges, r.lowerBucketIdx ≤ r.upperBucketIdx) ∧ ranges.IsChain Adjacent ∧
      ranges.flatMap OwnerRange.indices = List.range owners.length ∧
      PartitionTable.deserialize owners.length ranges = .ok owners ∧
      KeyLookupTable.deserialize owners.length ranges = .ok (owners.map Bucket.mk) ∧
      ∀ localWorkerId, ∃ table : List (BucketV2 K),
        KeyLookupTableV2.deserializeRanges owners.length localWorkerId ranges = .ok table ∧
        table.map BucketV2.workerID = owners.map UInt16.toNat ∧
        ∀ bucket ∈ table, bucket.map ≠ none ↔ bucket.workerID = localWorkerId.toNat := by
  obtain ⟨ranges, hserialize, hranges⟩ := serializeOwners_ok hne
  have hlookup : KeyLookupTable.serialize (owners.map Bucket.mk) = .ok ranges := by
    rw [KeyLookupTable.serialize, List.map_map]
    exact (congrArg serializeOwners (List.map_id owners)).trans hserialize
  refine ⟨ranges, hserialize, hlookup, hranges.le, hranges.adjacent, hranges.covers,
    PartitionTable.deserialize_ok hranges, KeyLookupTable.deserialize_ok hranges, fun localWorkerId => ?_⟩
  refine ⟨_, KeyLookupTableV2.deserializeRanges_ok hranges localWorkerId, by rw [List.map_map]; rfl, ?_⟩
  intro bucket hbucket
  obtain ⟨w, -, rfl⟩ := List.mem_map.mp hbucket
  simp [UInt16.toNat_inj]

theorem tables_agree_three : ([7, 7, 2] : List UInt16) ≠ [] ∧ ∃ ranges,
    PartitionTable.serialize [7, 7, 2] = .ok ranges ∧ ranges.flatMap OwnerRange.indices = List.range 3 := by
  refine ⟨nofun, ?_⟩
  obtain ⟨ranges, hserialize, -, -, -, hcovers, -⟩ := tables_agree Nat [7, 7, 2] nofun
  exact ⟨ranges, hserialize, hcovers⟩

end Keyby
end Koala
