import Koala.Partition.MigrationPlan
import Koala.State.ChunkStream

/-!
# Pulling buckets from another worker

One `requestMigration` of the stop-and-restart protocol: the destination asks a source for bucket ranges, the
source scans its backend range by range and streams the records in chunks (`PullStatePartition`), and the
destination stores what it receives.  `requestMigration_get` says what the destination's backend holds
afterwards, for every key: the source's records on top of what the destination had, provided the first record of
the stream fits into a chunk; and only what it had otherwise.
-/

namespace Koala
namespace StopRestart

open Lib Lib.Outcome State Partition

variable (ks : KeySpace)

/-- `ReadLocalBucketRange`. -/
def readLocalBucketRange (b : Backend) (r : BucketRange) : List Record :=
  b.rangeQuery (ks.bucketBound r.lowerBucketIdx) (ks.bucketBound (r.upperBucketIdx + 1))

/-- `PullStatePartition`: the messages the source puts on the stream. -/
def pullStatePartition (maxChunkSize : Nat) (b : Backend) (ranges : List BucketRange) :
    List StateChunk :=
  streamOf maxChunkSize (ranges.map (readLocalBucketRange ks b))

/-- `requestMigration`, for an embedded backend: pull from `src` and store into `dst`. -/
def requestMigration (maxChunkSize : Nat) (src dst : Backend) (ranges : List BucketRange) :
    Outcome ReceiveAbort Backend :=
  applyStateMigration (pullStatePartition ks maxChunkSize src ranges) dst

/-- A backend that holds state keys of the operator only. -/
def WellKeyed (b : Backend) : Prop := ∀ k v, b.get k = some v → ∃ sk, k = ks.encode sk

/-- All records a source reads for a list of ranges. -/
def pulled (b : Backend) (ranges : List BucketRange) : List Record :=
  (ranges.map (readLocalBucketRange ks b)).flatten

section

variable {ks : KeySpace} {buckets : List Nat} {ranges : List BucketRange} {b : Backend}

theorem exists_encode_of_mem_pulled (hkeyed : WellKeyed ks b) {p : Record} (hp : p ∈ pulled ks b ranges) :
    ∃ sk, p.1 = ks.encode sk := by
  obtain ⟨k, v⟩ := p
  obtain ⟨l, hl, hin⟩ := List.mem_flatten.mp hp
  obtain ⟨r, -, rfl⟩ := List.mem_map.mp hl
  rw [readLocalBucketRange, Backend.mem_rangeQuery] at hin
  exact hkeyed k v hin.1

theorem pulled_lt_of_apart {r r' : BucketRange} (hup : r'.upperBucketIdx < ks.numBuckets)
    (hle : r'.lowerBucketIdx ≤ r'.upperBucketIdx) (hapart : r.upperBucketIdx < r'.lowerBucketIdx)
    {p q : Record} (hp : p ∈ readLocalBucketRange ks b r) (hq : q ∈ readLocalBucketRange ks b r') :
    p.1 < q.1 := by
  obtain ⟨k, v⟩ := p
  obtain ⟨k', v'⟩ := q
  rw [readLocalBucketRange, Backend.mem_rangeQuery] at hp hq
  have hbound : ks.bucketBound (r.upperBucketIdx + 1) ≤ ks.bucketBound r'.lowerBucketIdx :=
    ks.bucketBound_le (by omega) (by omega)
  have hge : ks.bucketBound (r.upperBucketIdx + 1) ≤ k' := List.le_trans hbound hq.2.1
  by_contra hnot
  exact hge (List.lt_of_le_of_lt (List.not_lt.mp hnot) hp.2.2)

/-- The record a stream starts with fits into a chunk; vacuous for an empty stream. -/
def FirstFits (ks : KeySpace) (maxChunkSize : Nat) (b : Backend) (ranges : List BucketRange) : Prop :=
  ∀ r, (pulled ks b ranges).head? = some r → r.size ≤ maxChunkSize

instance (maxChunkSize : Nat) : Decidable (FirstFits ks maxChunkSize b ranges) :=
  match h : (pulled ks b ranges).head? with
  | none => isTrue fun r hr => by rw [h] at hr; simp at hr
  | some first =>
    if hle : first.size ≤ maxChunkSize then
      isTrue fun r hr => by rw [h] at hr; cases hr; exact hle
    else isFalse fun hall => hle (hall first h)

variable (hranges : RangesOf buckets ranges) (hlt : ∀ i ∈ buckets, i < ks.numBuckets)
include hranges hlt

theorem RangesOf_upper_lt {r : BucketRange} (hr : r ∈ ranges) : r.upperBucketIdx < ks.numBuckets :=
  hlt _ ((hranges.covered_iff _).mp ⟨r, hr, hranges.le r hr, Nat.le_refl _⟩)

/-- A state key lies in the scanned part of the key order exactly when its bucket is listed. -/
theorem encode_mem_ranges (sk : StateKey) : (∃ r ∈ ranges, ks.bucketBound r.lowerBucketIdx ≤ ks.encode sk ∧
    ks.encode sk < ks.bucketBound (r.upperBucketIdx + 1)) ↔ ks.bucketOf sk ∈ buckets := by
  rw [← hranges.covered_iff]
  refine exists_congr fun r => and_congr_right fun hr => ?_
  have hup := RangesOf_upper_lt hranges hlt hr
  have hle := hranges.le r hr
  rw [← List.not_lt, ks.encode_lt_bucketBound sk (by omega), ks.encode_lt_bucketBound sk (by omega)]
  omega

theorem mem_pulled (sk : StateKey) (v : Bytes) : (ks.encode sk, v) ∈ pulled ks b ranges ↔ b.get (ks.encode sk) =
    some v ∧ ks.bucketOf sk ∈ buckets := by
  rw [← encode_mem_ranges hranges hlt sk, pulled, List.mem_flatten]
  constructor
  · rintro ⟨l, hl, hmem⟩
    obtain ⟨r, hr, rfl⟩ := List.mem_map.mp hl
    rw [readLocalBucketRange, Backend.mem_rangeQuery] at hmem
    exact ⟨hmem.1, r, hr, hmem.2⟩
  · rintro ⟨hget, r, hr, hin⟩
    refine ⟨_, List.mem_map_of_mem hr, ?_⟩
    rw [readLocalBucketRange, Backend.mem_rangeQuery]
    exact ⟨hget, hin⟩

theorem pulled_sorted : (pulled ks b ranges).Pairwise fun p q => p.1 < q.1 := by
  rw [pulled, List.pairwise_flatten]
  refine ⟨?_, ?_⟩
  · intro l hl
    obtain ⟨r, -, rfl⟩ := List.mem_map.mp hl
    have hsorted := Backend.rangeQuery_sorted b (ks.bucketBound r.lowerBucketIdx)
      (ks.bucketBound (r.upperBucketIdx + 1))
    have hnodup := Backend.rangeQuery_keys_nodup b (ks.bucketBound r.lowerBucketIdx)
      (ks.bucketBound (r.upperBucketIdx + 1))
    rw [List.Nodup, List.pairwise_map] at hnodup
    refine (hsorted.and hnodup).imp fun {p q} hpq => ?_
    by_contra hnot
    exact hpq.2 (List.le_antisymm hpq.1 (List.not_lt.mp hnot))
  · rw [List.pairwise_map]
    refine hranges.apart.imp_of_mem fun {r r'} hr hr' hapart p hp q hq => ?_
    exact pulled_lt_of_apart (RangesOf_upper_lt hranges hlt hr') (hranges.le r' hr') hapart hp hq

theorem pulled_keys_nodup : ((pulled ks b ranges).map Prod.fst).Nodup := by
  rw [List.Nodup, List.pairwise_map]
  refine (pulled_sorted hranges hlt).imp fun {p q} hpq heq => ?_
  rw [heq] at hpq
  exact List.lt_irrefl _ hpq

/-- **What one pull stores.** -/
theorem requestMigration_get (maxChunkSize : Nat) {dst : Backend} (hkeyed : WellKeyed ks b) (hkeyedDst :
    WellKeyed ks dst) : ∃ dst', requestMigration ks maxChunkSize b dst ranges = .ok dst' ∧ WellKeyed ks dst' ∧ ∀
    sk, dst'.get (ks.encode sk) = if FirstFits ks maxChunkSize b ranges ∧ ks.bucketOf sk ∈ buckets then (b.get
    (ks.encode sk)).or (dst.get (ks.encode sk)) else dst.get (ks.encode sk) := by
  unfold requestMigration pullStatePartition
  by_cases hfits : FirstFits ks maxChunkSize b ranges
  · have hnodup := pulled_keys_nodup (b := b) hranges hlt
    refine ⟨_, applyStateMigration_fits maxChunkSize _ dst hfits, ?_, ?_⟩
    · intro k v hget
      rcases Backend.get_setMany dst _ hnodup k with ⟨u, hmem, -⟩ | ⟨-, hsame⟩
      · exact exists_encode_of_mem_pulled hkeyed hmem
      · rw [pulled] at hsame
        rw [hsame] at hget
        exact hkeyedDst k v hget
    · intro sk
      rw [if_congr (and_iff_right hfits) rfl rfl]
      rcases Backend.get_setMany dst _ hnodup (ks.encode sk) with ⟨u, hmem, hread⟩ | ⟨hnot, hsame⟩
      · obtain ⟨hget, hin⟩ := (mem_pulled hranges hlt sk u).mp hmem
        rw [pulled] at hread
        rw [hread, if_pos hin, hget, Option.some_or]
      · rw [pulled] at hsame
        rw [hsame]
        split_ifs with hin
        · have hnone : b.get (ks.encode sk) = none := by
            cases hget : b.get (ks.encode sk) with
            | none => rfl
            | some u =>
              have hmem := (mem_pulled (b := b) hranges hlt sk u).mpr ⟨hget, hin⟩
              exact absurd (List.mem_map_of_mem (f := Prod.fst) hmem) hnot
          rw [hnone, Option.none_or]
        · rfl
  · obtain ⟨r, hr⟩ := not_forall.mp hfits
    obtain ⟨hfirst, hlarge⟩ := Classical.not_imp.mp hr
    refine ⟨dst, applyStateMigration_oversized maxChunkSize _ dst r hfirst (by omega), hkeyedDst, ?_⟩
    intro sk
    rw [if_neg fun h => hfits h.1]

theorem pulled_congr {b' : Backend} (hkeyed : WellKeyed ks b) (hkeyed' : WellKeyed ks b') (hsame : ∀ sk,
    ks.bucketOf sk ∈ buckets → b.get (ks.encode sk) = b'.get (ks.encode sk)) : pulled ks b ranges = pulled ks b'
    ranges := by
  unfold pulled
  congr 1
  refine List.map_congr_left fun r hr => Backend.rangeQuery_congr fun k hlow hup => ?_
  have hin : ∀ sk, k = ks.encode sk → ks.bucketOf sk ∈ buckets := by
    rintro sk rfl
    exact (encode_mem_ranges hranges hlt sk).mp ⟨r, hr, hlow, hup⟩
  cases hget : b.get k with
  | some v =>
    obtain ⟨sk, rfl⟩ := hkeyed k v hget
    rw [← hget, hsame sk (hin sk rfl)]
  | none =>
    cases hget' : b'.get k with
    | none => rfl
    | some v =>
      obtain ⟨sk, rfl⟩ := hkeyed' k v hget'
      rw [← hget', ← hsame sk (hin sk rfl), hget]

/-- The first record of a stream is the stored record with the smallest key in the listed buckets. -/
theorem firstFits_iff {maxChunkSize : Nat} (hkeyed : WellKeyed ks b) : FirstFits ks maxChunkSize b ranges ↔ ∀ sk
    v, b.get (ks.encode sk) = some v → ks.bucketOf sk ∈ buckets → (∀ sk' v', b.get (ks.encode sk') = some v' →
    ks.bucketOf sk' ∈ buckets → ks.encode sk ≤ ks.encode sk') → Record.size (ks.encode sk, v) ≤ maxChunkSize := by
  have hsorted := pulled_sorted (b := b) hranges hlt
  constructor
  · intro hfits sk v hget hin hleast
    have hmem := (mem_pulled hranges hlt sk v).mpr ⟨hget, hin⟩
    cases hlist : pulled ks b ranges with
    | nil => rw [hlist] at hmem; simp at hmem
    | cons first rest =>
      have hfirst := hfits first (by rw [hlist]; rfl)
      rw [hlist] at hmem hsorted
      rcases List.mem_cons.mp hmem with rfl | hrest
      · exact hfirst
      · -- the head is a stored record with a smaller key than the least one
        exfalso
        have hless := (List.pairwise_cons.mp hsorted).1 _ hrest
        have hhead : first ∈ pulled ks b ranges := by rw [hlist]; simp
        obtain ⟨k, u⟩ := first
        obtain ⟨sk', rfl⟩ := exists_encode_of_mem_pulled hkeyed hhead
        obtain ⟨hget', hin'⟩ := (mem_pulled hranges hlt sk' u).mp hhead
        exact hleast sk' u hget' hin' hless
  · intro hleast r hr
    cases hlist : pulled ks b ranges with
    | nil => rw [hlist] at hr; simp at hr
    | cons first rest =>
      obtain rfl : first = r := by rw [hlist] at hr; simpa using hr
      rw [hlist] at hsorted
      have hhead : first ∈ pulled ks b ranges := by rw [hlist]; simp
      obtain ⟨k, u⟩ := first
      obtain ⟨sk, rfl⟩ := exists_encode_of_mem_pulled hkeyed hhead
      obtain ⟨hget, hin⟩ := (mem_pulled hranges hlt sk u).mp hhead
      refine hleast sk u hget hin ?_
      intro sk' v' hget' hin'
      have hmem' := (mem_pulled hranges hlt sk' v').mpr ⟨hget', hin'⟩
      rw [hlist] at hmem'
      rcases List.mem_cons.mp hmem' with heq | hrest
      · rw [(Prod.mk.inj heq).1]
        exact List.le_refl _
      · exact List.le_of_lt ((List.pairwise_cons.mp hsorted).1 _ hrest)

end

end StopRestart
end Koala
