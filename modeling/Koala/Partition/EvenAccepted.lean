import Koala.Partition.EvenCorrect

/-!
# `RePartitionV2` on an arbitrary old assignment

The old assignment need not be balanced: whatever it is, a call of `RePartitionV2` either aborts in one of its
checks or returns, and what it returns is the exact difference of the two assignments
(`rePartitionV2_exact`).  The checks before the donor loops are what makes the loops end: a new worker is served
only when the pools still hold what it wants, and a scale-down is refused unless donation and need agree.
-/

namespace Koala
namespace Partition

open Lib Lib.Outcome

variable {old donors recipients : List WorkerID} {kept : WorkerID → Nat}

variable {st : Transfer}

theorem Transfer.Inv.available_le (h : st.Inv old donors recipients kept) (hnodup : donors.Nodup) :
    st.available donors ≤ old.length := by
  have hcount : ∀ d ∈ donors, (st.pool d).length ≤ st.newBuckets.count d := by
    intro d hd
    have hsum := h.count_donor d hd
    omega
  calc st.available donors ≤ (donors.map fun d => st.newBuckets.count d).sum :=
        List.sum_le_sum hcount
    _ ≤ st.newBuckets.length := by
        rw [sum_count donors hnodup]
        exact List.countP_le_length
    _ = old.length := h.length_eq

/-! ## The parts of a call -/

theorem donors_length_le (hnodup : donors.Nodup) (hsub : ∀ d ∈ donors, d ∈ old) : donors.length ≤ old.length :=
  (List.subperm_of_subset hnodup hsub).length_le

variable {fuel : Nat}

theorem serveNewWorker_settles {desired : GoMap WorkerID Nat} (h : st.Inv old donors recipients kept)
    (hnodup : donors.Nodup) (hsub : ∀ d ∈ donors, d ∈ old) (hdisj : ∀ r ∈ recipients, r ∉ donors)
    (hfuel : old.length * old.length ≤ fuel) (htotal : st.available donors = total) :
    Settles (fun p => p.1.Inv old donors recipients kept)
      (forEach recipients (serveNewWorker fuel desired donors) (st, (total : Int))) := by
  refine Settles.imp (Settles.forEach (fun _ (p : Transfer × Int) =>
    p.1.Inv old donors recipients kept ∧ p.2 = (p.1.available donors : Int)) ⟨h, by rw [htotal]⟩ ?_)
    fun p hp => hp.1
  rintro done w rest ⟨st, left⟩ hsplit ⟨hst, hleft⟩
  have hw : w ∈ recipients := by rw [hsplit]; simp
  simp only at hst hleft
  simp only [serveNewWorker]
  cases desired.get w with
  | none => exact .abort _
  | some need =>
    refine .check fun hpos => .check fun henough => ?_
    have hneed : need ≤ st.available donors := by omega
    have hbudget : need * donors.length ≤ fuel :=
      (Nat.mul_le_mul (hneed.trans (hst.available_le hnodup)) (donors_length_le hnodup hsub)).trans hfuel
    obtain ⟨st', hfill, hst', hserved⟩ := Transfer.fill_ok hst hnodup hw (hdisj w hw) hneed hbudget
    rw [hfill, ok_bind]
    refine .ok ⟨hst', ?_⟩
    have hlower := hserved.available_eq
    simp only
    omega

/-- Serving the remaining workers: when the pools hold what they need in all, all are served. -/
theorem serveRemaining_ok (h : st.Inv old donors recipients kept) (hnodup : donors.Nodup)
    (hsub : ∀ d ∈ donors, d ∈ old) (hdisj : ∀ r ∈ recipients, r ∉ donors) (hfuel : old.length * old.length ≤ fuel)
    {need : WorkerID → Nat} (htotal : st.available donors = (recipients.map need).sum) :
    ∃ st', forEach recipients (fun st w => Transfer.fill fuel donors w (need w) st) st = .ok st' ∧
      st'.Inv old donors recipients kept := by
  have hloop : ∃ st', forEach recipients (fun st w => Transfer.fill fuel donors w (need w) st) st = .ok st' ∧
      st'.Inv old donors recipients kept ∧
        st'.available donors + (recipients.map need).sum = (recipients.map need).sum := by
    refine forEach_total (fun done (st : Transfer) => st.Inv old donors recipients kept ∧
      st.available donors + (done.map need).sum = (recipients.map need).sum) ⟨h, by simpa using htotal⟩ ?_
    rintro done w rest st hsplit ⟨hst, havail⟩
    have hw : w ∈ recipients := by rw [hsplit]; simp
    have hsum : (recipients.map need).sum = (done.map need).sum + (need w + (rest.map need).sum) := by
      rw [hsplit, List.map_append, List.sum_append, List.map_cons, List.sum_cons]
    have hneed : need w ≤ st.available donors := by omega
    have hbudget : need w * donors.length ≤ fuel :=
      (Nat.mul_le_mul (hneed.trans (hst.available_le hnodup)) (donors_length_le hnodup hsub)).trans hfuel
    obtain ⟨st', hfill, hst', hserved⟩ := Transfer.fill_ok hst hnodup hw (hdisj w hw) hneed hbudget
    refine ⟨st', hfill, hst', ?_⟩
    have hlower := hserved.available_eq
    rw [List.map_append, List.sum_append, List.map_singleton, List.sum_singleton]
    omega
  obtain ⟨st', hrun, hst', -⟩ := hloop
  exact ⟨st', hrun, hst'⟩

/-- Validation hands over the scan of the old assignment and the set of the listed workers. -/
theorem validateAndPrepareRepartition_settles (numBuckets : Nat) (updated old : List WorkerID) :
    Settles (fun r => r.2 = collectExisting old ∧ ∀ w, (r.1.get w).isSome ↔ w ∈ updated)
      (validateAndPrepareRepartition numBuckets updated old) := by
  have hset : Settles (fun set => ∀ w, (set.get w).isSome ↔ w ∈ updated) (buildUpdatedWorkerSet updated) := by
    refine Settles.forEach (fun done (set : GoMap WorkerID Unit) => ∀ w, (set.get w).isSome ↔ w ∈ done)
      (by simp) ?_
    intro done w rest set hsplit hset
    refine .check fun hnew => .ok fun v => ?_
    rw [GoMap.get_set]
    by_cases hv : v = w
    · simp [hv]
    · simp [hv, hset v]
  have hchecks : ∀ (ws : List WorkerID) (bad : WorkerID → Prop) [DecidablePred bad] (e : WorkerID → PolicyAbort),
      Settles (fun _ => True) (forEach ws (fun (_ : Unit) w => check (bad w) (e w)) ()) := by
    intro ws bad _ e
    refine Settles.forEach (fun _ (_ : Unit) => True) trivial fun done w rest s hsplit _ => ?_
    unfold Outcome.check
    split_ifs
    · exact .abort _
    · exact .ok trivial
  unfold validateAndPrepareRepartition
  refine .check fun _ => .check fun _ => hset.bind fun set hmem => .check fun _ => ?_
  split_ifs
  · exact (hchecks _ _ _).bind fun _ _ => .ok ⟨rfl, hmem⟩
  · exact (hchecks _ _ _).bind fun _ _ => .ok ⟨rfl, hmem⟩

/-! ## Both directions -/

variable (updated : List WorkerID)

theorem repartitionScaleUp_settles (desired : GoMap WorkerID Nat) (old : List WorkerID)
    (hfuel : old.length * old.length ≤ fuel) :
    Settles (fun st => st.newBuckets.length = old.length ∧
        ExactChanges old st.newBuckets st.bucketOwnerChanges.sorted)
      (repartitionScaleUp fuel updated desired (collectExisting old) old) := by
  have hspec := collectExisting_spec old
  unfold repartitionScaleUp
  refine .check fun hnew => (offerExcess_settles desired old).bind ?_
  rintro ⟨donorBuckets, total⟩ hoffered
  refine .check fun hpositive => ?_
  simp only at hoffered hpositive
  have hpos : 0 < (collectExisting old).existingWorkerList.length := by
    rcases Nat.eq_zero_or_pos (collectExisting old).existingWorkerList.length with hzero | hpos
    · refine absurd ?_ hpositive
      rw [hoffered.total_eq, List.length_eq_zero_iff.mp hzero]
      rfl
    · exact hpos
  refine (serveNewWorker_settles (hoffered.start hpos fun _ => List.drop_sublist _ _) hspec.nodup (fun d hd => (hspec.mem_list d).mp hd) ?_
    hfuel (hoffered.available old)).bind ?_
  · intro r hr hmem
    have hnone := (List.mem_filter.mp hr).2
    rw [hspec.get_eq, if_pos ((hspec.mem_list r).mp hmem)] at hnone
    simp at hnone
  · rintro ⟨st, left⟩ hst
    exact .ok ⟨hst.length_eq, hst.exactChanges⟩

theorem repartitionScaleDown_settles {set : GoMap WorkerID Unit}
    (hset : ∀ w, (set.get w).isSome ↔ w ∈ updated) (desired : GoMap WorkerID Nat) (old : List WorkerID)
    (hfuel : old.length * old.length ≤ fuel) :
    Settles (fun st => st.newBuckets.length = old.length ∧
        ExactChanges old st.newBuckets st.bucketOwnerChanges.sorted)
      (repartitionScaleDown fuel updated set desired (collectExisting old) old) := by
  have hspec := collectExisting_spec old
  have hnodup := hspec.nodup.filter fun w => (set.get w).isNone
  have hsub : ∀ d ∈ (collectExisting old).existingWorkerList.filter fun w => (set.get w).isNone, d ∈ old :=
    fun d hd => (hspec.mem_list d).mp (List.mem_filter.mp hd).1
  unfold repartitionScaleDown
  refine .check fun hremoved => (offerAll_settles _ old).bind ?_
  rintro ⟨donorBuckets, total⟩ hoffered
  refine (computeNeed_settles desired old updated).bind ?_
  rintro ⟨needs, totalNeed⟩ ⟨hneeds, htotalNeed⟩
  refine .check fun hagree => ?_
  simp only at hoffered hneeds htotalNeed hagree
  have hsame : (updated.map fun w => (needs.get w).getD 0).sum = total := by
    rw [List.map_congr_left hneeds, ← htotalNeed]
    exact not_not.mp hagree
  have hdisj : ∀ r ∈ updated, r ∉ (collectExisting old).existingWorkerList.filter fun w => (set.get w).isNone := by
    intro r hr hmem
    have hnone := (List.mem_filter.mp hmem).2
    have hsome := (hset r).mpr hr
    rw [Option.isNone_iff_eq_none] at hnone
    rw [hnone] at hsome
    simp at hsome
  have havail := (hoffered.available old).trans hsame.symm
  obtain ⟨st, hrun, hst⟩ :=
    serveRemaining_ok (hoffered.start (Nat.pos_of_ne_zero hremoved) fun _ => List.Sublist.refl _) hnodup hsub hdisj hfuel havail
  rw [hrun]
  exact .ok ⟨hst.length_eq, hst.exactChanges⟩

/-- **The even policy reports the exact difference.**  From any assignment of its buckets and for any worker
list, `RePartitionV2` aborts in one of its checks or returns an assignment of all buckets together with exactly
the changes from the old one. -/
theorem rePartitionV2_exact {numBuckets : Nat} {old : List WorkerID}
    (hlen : old.length = numBuckets) (hfuel : numBuckets * numBuckets ≤ fuel) :
    Settles (fun r => r.1.length = numBuckets ∧ ExactChanges old r.1 r.2)
      (rePartitionV2 fuel numBuckets updated old) := by
  subst hlen
  unfold rePartitionV2
  refine (validateAndPrepareRepartition_settles old.length updated old).bind ?_
  rintro ⟨set, info⟩ ⟨hinfo, hset⟩
  simp only at hinfo hset
  subst hinfo
  have hdesired : Settles (fun _ => True) (getDesiredCountsPerWorker old.length updated) :=
    .check fun _ => .ok trivial
  refine hdesired.bind fun desired _ => ?_
  simp only [copy_buckets]
  split_ifs
  · exact (repartitionScaleUp_settles updated _ old hfuel).bind fun st hst => .ok hst
  · exact (repartitionScaleDown_settles updated hset _ old hfuel).bind fun st hst => .ok hst

end Partition
end Koala
