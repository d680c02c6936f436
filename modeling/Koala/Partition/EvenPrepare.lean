import Koala.Lib.Counting
import Koala.Partition.EvenPolicy
import Mathlib.Data.Nat.ModEq

/-!
# Preparing an even repartition

What the policy computes before it moves a bucket: the shares per position, the grouping of the old buckets by
owner, and the desired counts.  The fact everything later rests on is `share_antitone`: at a fixed position
the share can only shrink when the number of workers grows, so a worker that keeps its position never has to
receive on a scale-up and never has to give on a scale-down.
-/

namespace Koala
namespace Partition

open Lib Lib.Outcome

/-! ## Shares -/

/-- The first `r` of `n` positions. -/
private theorem sum_range_lt (n r : Nat) : ((List.range n).map fun i => if i < r then 1 else 0).sum = min r n := by
  induction n with
  | zero => simp
  | succ n ih =>
    rw [List.range_succ, List.map_append, List.sum_append, ih]
    simp only [List.map_cons, List.map_nil, List.sum_cons, List.sum_nil]
    split_ifs <;> omega

theorem share_sum (numBuckets n : Nat) (hn : 0 < n) : ((List.range n).map (share numBuckets n)).sum = numBuckets := by
  have hmod : numBuckets % n < n := Nat.mod_lt _ hn
  have hsplit : (List.range n).map (share numBuckets n)
      = (List.range n).map fun i => numBuckets / n + if i < numBuckets % n then 1 else 0 := rfl
  have hbase : ((List.range n).map fun _ => numBuckets / n).sum = n * (numBuckets / n) := by
    simp
  have hdiv := Nat.div_add_mod numBuckets n
  rw [hsplit, List.sum_map_add, hbase, sum_range_lt]
  omega

/-- **Monotonicity.**  With more workers, the share at a given position does not grow. -/
theorem share_antitone (numBuckets n n' i : Nat) (hn : 0 < n) (hle : n ≤ n') :
    share numBuckets n' i ≤ share numBuckets n i := by
  have hquot : numBuckets / n' ≤ numBuckets / n := Nat.div_le_div_left hle hn
  have hdiv := Nat.div_add_mod numBuckets n
  have hdiv' := Nat.div_add_mod numBuckets n'
  unfold share
  rcases Nat.lt_or_eq_of_le hquot with hlt | heq
  · split_ifs <;> omega
  · -- equal quotients: the larger divisor leaves the smaller remainder
    have hmul : n * (numBuckets / n) ≤ n' * (numBuckets / n) := Nat.mul_le_mul_right _ hle
    rw [heq] at hdiv'
    rw [heq]
    split_ifs <;> omega

theorem share_pos (numBuckets n i : Nat) (hn : 0 < n) (hle : n ≤ numBuckets) :
    0 < share numBuckets n i := by
  have hquot : 0 < numBuckets / n := Nat.div_pos hle hn
  unfold share
  omega

/-! ## Balanced assignments -/

/-- The assignment the policy maintains: all buckets are assigned, and the worker at each position of the
list owns exactly its share. -/
structure Balanced (numBuckets : Nat) (workers buckets : List WorkerID) : Prop where
  nodup : workers.Nodup
  nonempty : 0 < workers.length
  enough : workers.length ≤ numBuckets
  length_eq : buckets.length = numBuckets
  count_eq : ∀ i w, workers[i]? = some w → buckets.count w = share numBuckets workers.length i

theorem sum_by_position (workers : List WorkerID) (f : WorkerID → Nat) (g : Nat → Nat)
    (hfg : ∀ i w, workers[i]? = some w → f w = g i) :
    (workers.map f).sum = ((List.range workers.length).map g).sum := by
  congr 1
  refine List.ext_getElem (by simp) fun i hi hi' => ?_
  simp only [List.getElem_map, List.getElem_range]
  exact hfg i _ (List.getElem?_eq_getElem (by simpa using hi))

namespace Balanced

variable {numBuckets : Nat} {workers buckets : List WorkerID}

section

variable (h : Balanced numBuckets workers buckets)
include h

theorem sum_count_eq : (workers.map fun w => buckets.count w).sum = numBuckets := by
  rw [sum_by_position workers _ _ h.count_eq]
  exact share_sum numBuckets workers.length h.nonempty

theorem owner_mem : ∀ w ∈ buckets, w ∈ workers := by
  refine mem_of_sum_count workers h.nodup buckets ?_
  rw [h.sum_count_eq, h.length_eq]

theorem mem_buckets {w : WorkerID} (hw : w ∈ workers) : w ∈ buckets := by
  obtain ⟨i, hi⟩ := List.mem_iff_getElem?.mp hw
  have hpos := share_pos numBuckets workers.length i h.nonempty h.enough
  rw [← h.count_eq i w hi] at hpos
  exact List.count_pos_iff.mp hpos

theorem mem_iff (w : WorkerID) : w ∈ buckets ↔ w ∈ workers :=
  ⟨h.owner_mem w, h.mem_buckets⟩

end

end Balanced

/-! ## `GenerateBucketsV2` -/

private theorem count_runs (share : Nat → Nat) (w : WorkerID) (workers : List WorkerID) (k : Nat)
    (hnodup : workers.Nodup) (i : Nat) (hi : workers[i]? = some w) :
    ((workers.zipIdx k).flatMap fun (v, j) => List.replicate (share j) v).count w = share (k + i) := by
  induction workers generalizing k i with
  | nil => simp at hi
  | cons v rest ih =>
    obtain ⟨hnot, hrest⟩ := List.nodup_cons.mp hnodup
    rw [List.zipIdx_cons, List.flatMap_cons, List.count_append, List.count_replicate]
    cases i with
    | zero =>
      obtain rfl : v = w := by simpa using hi
      have hzero : ((rest.zipIdx (k + 1)).flatMap fun (u, j) => List.replicate (share j) u).count v
          = 0 := by
        refine List.count_eq_zero.mpr fun hmem => hnot ?_
        obtain ⟨⟨u, j⟩, huj, hrep⟩ := List.mem_flatMap.mp hmem
        obtain rfl : v = u := (List.mem_replicate.mp hrep).2
        exact List.fst_mem_of_mem_zipIdx huj
      rw [hzero]
      simp
    | succ i =>
      have hw : rest[i]? = some w := by simpa using hi
      have hne : v ≠ w := fun hvw => hnot (hvw ▸ List.mem_of_getElem? hw)
      rw [ih (k + 1) hrest i hw]
      simp only [beq_iff_eq, hne, if_false, Nat.zero_add]
      congr 1
      omega

private theorem length_runs (share : Nat → Nat) (workers : List WorkerID) (k : Nat) :
    ((workers.zipIdx k).flatMap fun (v, j) => List.replicate (share j) v).length
      = ((List.range' k workers.length).map share).sum := by
  induction workers generalizing k with
  | nil => rfl
  | cons v rest ih =>
    rw [List.zipIdx_cons, List.flatMap_cons, List.length_append, ih]
    simp [List.range'_succ]

/-- **The initial assignment.**  A duplicate-free, non-empty worker list no longer than the number of buckets
gets a balanced assignment. -/
theorem generateBucketsV2_balanced (numBuckets : Nat) (workers : List WorkerID) (hnodup : workers.Nodup)
    (hpos : 0 < workers.length) (hle : workers.length ≤ numBuckets) :
    ∃ buckets, generateBucketsV2 numBuckets workers = .ok buckets ∧
      Balanced numBuckets workers buckets := by
  refine ⟨workers.zipIdx.flatMap fun (w, i) => List.replicate (share numBuckets workers.length i) w,
    ?_, hnodup, hpos, hle, ?_, ?_⟩
  · rw [generateBucketsV2, check_eq_ok (by omega), ok_bind, check_eq_ok (by omega), ok_bind, pure_eq_ok]
  · rw [length_runs, ← List.range_eq_range']
    exact share_sum numBuckets workers.length hpos
  · intro i w hi
    rw [count_runs _ w workers 0 hnodup i hi, Nat.zero_add]

/-! ## Validation -/

/-- On a duplicate-free list the set is built, with exactly the listed workers. -/
theorem buildUpdatedWorkerSet_ok (updatedWorkers : List WorkerID) (hnodup : updatedWorkers.Nodup) :
    ∃ set, buildUpdatedWorkerSet updatedWorkers = .ok set ∧
      (∀ w, (set.get w).isSome ↔ w ∈ updatedWorkers) := by
  refine forEach_total
    (fun done (set : GoMap WorkerID Unit) => ∀ w, (set.get w).isSome ↔ w ∈ done) (by simp) ?_
  intro done w rest set hsplit hset
  have hnot := notMem_done hnodup hsplit
  refine ⟨set.set w (), ?_, ?_⟩
  · rw [check_eq_ok (fun h => hnot ((hset w).mp h)), ok_bind, pure_eq_ok]
  · intro v
    rw [GoMap.get_set]
    by_cases hv : v = w
    · simp [hv]
    · simp [hv, hset v]

/-- The keys of a map are the members of any duplicate-free list with the same members. -/
theorem keys_perm {V : Type} (m : GoMap WorkerID V) (l : List WorkerID) (hnodup : l.Nodup)
    (hmem : ∀ w, (m.get w).isSome ↔ w ∈ l) : m.keys.Perm l := by
  refine (List.perm_ext_iff_of_nodup (AList.keys_nodup m) hnodup).mpr fun w => ?_
  rw [GoMap.mem_keys_iff, hmem]

/-- The grouping the scan has built after the buckets `seen`. -/
structure ExistingWorkers.Spec (info : ExistingWorkers) (seen : List WorkerID) : Prop where
  nodup : info.existingWorkerList.Nodup
  mem_list : ∀ w, w ∈ info.existingWorkerList ↔ w ∈ seen
  get_eq : ∀ w, info.bucketsByExistingWorker.get w
    = if w ∈ seen then some (positionsOf w seen) else none

theorem ExistingWorkers.Spec.visit {info : ExistingWorkers} {seen : List WorkerID}
    (h : info.Spec seen) (w : WorkerID) : (info.visit (w, seen.length)).Spec (seen ++ [w]) := by
  have hget := h.get_eq w
  refine ⟨?_, ?_, ?_⟩
  · simp only [ExistingWorkers.visit, hget]
    by_cases hw : w ∈ seen
    · simpa [hw] using h.nodup
    · have hnot : w ∉ info.existingWorkerList := fun hmem => hw ((h.mem_list w).mp hmem)
      have hconcat : (info.existingWorkerList ++ [w]).Nodup :=
        h.nodup.append (List.nodup_singleton w) (by simpa using hnot)
      simpa [hw] using hconcat
  · intro v
    simp only [ExistingWorkers.visit, hget]
    by_cases hw : w ∈ seen
    · simp only [hw, if_true, Option.isSome_some, h.mem_list, List.mem_append, List.mem_singleton]
      exact ⟨Or.inl, fun hv => hv.elim id (fun hvw => hvw ▸ hw)⟩
    · simp [hw, h.mem_list]
  · intro v
    simp only [ExistingWorkers.visit, GoMap.get_set, positionsOf_concat]
    by_cases hv : v = w
    · subst hv
      by_cases hmem : v ∈ seen
      · simp [h.get_eq, hmem]
      · have hempty : positionsOf v seen = [] := by
          rw [← List.length_eq_zero_iff, length_positionsOf, List.count_eq_zero]
          exact hmem
        simp [h.get_eq, hmem, hempty]
    · simp [hv, Ne.symm hv, h.get_eq]

/-- **The scan over the old buckets** lists every owner once and gives it exactly its bucket positions. -/
theorem collectExisting_spec (oldBuckets : List WorkerID) : (collectExisting oldBuckets).Spec oldBuckets := by
  induction oldBuckets using List.reverseRecOn with
  | nil => exact ⟨List.nodup_nil, by simp [collectExisting], by simp [collectExisting]⟩
  | append_singleton seen w ih =>
    have hstep : collectExisting (seen ++ [w]) = (collectExisting seen).visit (w, seen.length) := by
      simp [collectExisting, List.zipIdx_append, List.foldl_append]
    rw [hstep]
    exact ih.visit w

/-- The desired count of the worker at position `i` is its share. -/
theorem getDesiredCountsPerWorker_ok (numBuckets : Nat) (updatedWorkers : List WorkerID)
    (hnodup : updatedWorkers.Nodup) (hpos : 0 < updatedWorkers.length) :
    ∃ desired, getDesiredCountsPerWorker numBuckets updatedWorkers = .ok desired ∧
      ∀ i w, updatedWorkers[i]? = some w →
        desired.get w = some (share numBuckets updatedWorkers.length i) := by
  refine ⟨_, by rw [getDesiredCountsPerWorker, check_eq_ok (by omega), ok_bind, pure_eq_ok], ?_⟩
  intro i w hi
  have hkeys : (updatedWorkers.zipIdx.map Prod.fst).Nodup := by
    rw [List.zipIdx_map_fst]
    exact hnodup
  exact GoMap.get_foldl_set Prod.fst (fun p => share numBuckets updatedWorkers.length p.2)
    updatedWorkers.zipIdx hkeys ∅ (w, i) (List.mem_zipIdx_iff_getElem?.mpr hi)

end Partition
end Koala
