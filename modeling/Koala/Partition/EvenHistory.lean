import Koala.Partition.EvenCorrect

/-!
# The even policy over a history of rescales

A deployment starts from `GenerateBucketsV2` and is then rescaled any number of times.  The worker lists are
those `prepareReconfiguration` (`coordinator/apiServiceUtil.go`) produces: a scale-up appends freshly allocated
workers, a scale-down drops the last ones.  `evenPolicy_history` is the policy's contract over every such
history: no call aborts or loops, the shares are exact, buckets leave only the workers that must give, and no
assignment with the same shares moves fewer buckets.
-/

namespace Koala
namespace Partition

open Lib Lib.Outcome

/-! ## The worker lists of a rescale -/

/-- The rescale requests the coordinator refuses by killing itself. -/
inductive RescaleAbort where
  | invalidTarget (targetPara : Int)
  | targetEqualsCurrent (targetPara : Int)
  deriving DecidableEq, Repr

/-- `prepareReconfiguration`, on worker ids: the updated, new and removed workers.  `allocated` is the answer
of `AllocateRandomWorkers`, which is asked only on a scale-up. -/
def prepareReconfiguration (curWorkerList : List WorkerID) (targetPara : Int) (allocated : List WorkerID) :
    Outcome RescaleAbort (List WorkerID × List WorkerID × List WorkerID) := do
  check (targetPara ≤ 0) (.invalidTarget targetPara)
  check (targetPara = curWorkerList.length) (.targetEqualsCurrent targetPara)
  if targetPara > curWorkerList.length then
    pure (curWorkerList ++ allocated, allocated, [])
  else
    pure (curWorkerList.take targetPara.toNat, [], curWorkerList.drop targetPara.toNat)

/-- The list changes of a rescale, with the workers that may lose buckets and those that may win some. -/
inductive WorkerListStep : (workers updated losers winners : List WorkerID) → Prop
  | append (workers fresh : List WorkerID) (hfresh : fresh ≠ []) (hnodup : (workers ++ fresh).Nodup) :
      WorkerListStep workers (workers ++ fresh) workers fresh
  | drop (kept dropped : List WorkerID) (hkept : kept ≠ []) (hdropped : dropped ≠ []) :
      WorkerListStep (kept ++ dropped) kept dropped kept

variable {updated new : List WorkerID}

/-- The coordinator's lists are steps of this kind, when the worker manager allocates as many workers as
asked for, all distinct and none of them in use. -/
theorem prepareReconfiguration_step {cur allocated updated new removed : List WorkerID} {targetPara : Int}
    (hnodup : (cur ++ allocated).Nodup) (halloc : (allocated.length : Int) = targetPara - cur.length ∨
      targetPara < cur.length) (h : prepareReconfiguration cur targetPara allocated = .ok (updated, new, removed)) :
    ∃ losers winners, WorkerListStep cur updated losers winners := by
  unfold prepareReconfiguration at h
  obtain ⟨hpos, h⟩ := check_bind_eq_ok.mp h
  obtain ⟨hne, h⟩ := check_bind_eq_ok.mp h
  split_ifs at h with hup
  · cases h
    refine ⟨cur, allocated, WorkerListStep.append cur allocated ?_ hnodup⟩
    rintro rfl
    simp only [List.length_nil] at halloc
    omega
  · cases h
    have hstep := WorkerListStep.drop (cur.take targetPara.toNat) (cur.drop targetPara.toNat) ?_ ?_
    · rw [List.take_append_drop] at hstep
      exact ⟨_, _, hstep⟩
    · rw [← List.length_pos_iff, List.length_take]
      omega
    · rw [← List.length_pos_iff, List.length_drop]
      omega

/-! ## The budget of the donor loops does not matter -/

variable {fuel fuel' : Nat} {donors : List WorkerID}

theorem Transfer.fill_mono (hle : fuel ≤ fuel') {recipient : WorkerID} {need : Nat}
    {st r : Transfer} (h : Transfer.fill fuel donors recipient need st = .ok r) :
    Transfer.fill fuel' donors recipient need st = .ok r := by
  obtain ⟨s, hloop, hret⟩ := bind_eq_ok.mp h
  exact bind_eq_ok.mpr ⟨s, whileLoop_mono hle hloop, hret⟩

variable {w : WorkerID}

theorem serveNewWorker_mono (hle : fuel ≤ fuel') {desired : GoMap WorkerID Nat}
    {p r : Transfer × Int} (h : serveNewWorker fuel desired donors p w = .ok r) :
    serveNewWorker fuel' desired donors p w = .ok r := by
  unfold serveNewWorker at h ⊢
  cases hget : desired.get w with
  | none => simp [hget] at h
  | some need =>
    simp only [hget] at h ⊢
    obtain ⟨u, hzero, h⟩ := bind_eq_ok.mp h
    obtain ⟨v, hless, h⟩ := bind_eq_ok.mp h
    obtain ⟨st, hfill, hret⟩ := bind_eq_ok.mp h
    rw [hzero, ok_bind, hless, ok_bind, Transfer.fill_mono hle hfill, ok_bind, hret]

variable {numBuckets : Nat}

theorem rePartitionV2_mono (hle : fuel ≤ fuel') {updatedWorkers old : List WorkerID}
    {r : List WorkerID × OwnerChanges} (h : rePartitionV2 fuel numBuckets updatedWorkers old = .ok r) :
    rePartitionV2 fuel' numBuckets updatedWorkers old = .ok r := by
  unfold rePartitionV2 at h ⊢
  obtain ⟨⟨set, info⟩, hvalid, h⟩ := bind_eq_ok.mp h
  obtain ⟨desired, hdesired, h⟩ := bind_eq_ok.mp h
  simp only [hvalid, ok_bind, hdesired] at h ⊢
  split_ifs at h ⊢ with hup
  · obtain ⟨st, hst, hret⟩ := bind_eq_ok.mp h
    refine bind_eq_ok.mpr ⟨st, ?_, hret⟩
    unfold repartitionScaleUp at hst ⊢
    dsimp only at hst ⊢
    obtain ⟨u, hnew, hst⟩ := bind_eq_ok.mp hst
    obtain ⟨p, hdonate, hst⟩ := bind_eq_ok.mp hst
    obtain ⟨v, hsome, hst⟩ := bind_eq_ok.mp hst
    obtain ⟨q, hserve, hst⟩ := bind_eq_ok.mp hst
    rw [hnew, ok_bind, hdonate, ok_bind, hsome, ok_bind]
    exact bind_eq_ok.mpr ⟨q, forEach_mono (fun _ _ _ => serveNewWorker_mono hle) hserve, hst⟩
  · obtain ⟨st, hst, hret⟩ := bind_eq_ok.mp h
    refine bind_eq_ok.mpr ⟨st, ?_, hret⟩
    unfold repartitionScaleDown at hst ⊢
    dsimp only at hst ⊢
    obtain ⟨u, hremoved, hst⟩ := bind_eq_ok.mp hst
    obtain ⟨p, hdonate, hst⟩ := bind_eq_ok.mp hst
    obtain ⟨q, hneeds, hst⟩ := bind_eq_ok.mp hst
    obtain ⟨v, hagree, hst⟩ := bind_eq_ok.mp hst
    rw [hremoved, ok_bind, hdonate, ok_bind, hneeds, ok_bind, hagree, ok_bind]
    exact forEach_mono (fun _ _ _ => Transfer.fill_mono hle) hst

/-! ## Histories -/

/-- The worker lists and assignments a deployment can go through. -/
inductive History (numBuckets : Nat) : (workers buckets : List WorkerID) → Prop
  | deploy {workers buckets : List WorkerID} (hnodup : workers.Nodup)
      (hgenerate : generateBucketsV2 numBuckets workers = .ok buckets) : History numBuckets workers buckets
  | rescale {workers buckets updated losers winners new : List WorkerID} {changes : OwnerChanges} {fuel : Nat}
      (hist : History numBuckets workers buckets) (hstep : WorkerListStep workers updated losers winners)
      (hle : updated.length ≤ numBuckets)
      (hcall : rePartitionV2 fuel numBuckets updated buckets = .ok (new, changes)) :
      History numBuckets updated new

variable {workers losers winners buckets : List WorkerID}

/-- One rescale from a balanced assignment: the call returns, whatever the budget beyond `numBuckets` rounds. -/
theorem Balanced.rescale (h : Balanced numBuckets workers buckets)
    (hstep : WorkerListStep workers updated losers winners) (hle : updated.length ≤ numBuckets) :
    ∃ new changes, (∀ fuel, numBuckets * numBuckets ≤ fuel →
        rePartitionV2 fuel numBuckets updated buckets = .ok (new, changes)) ∧
      Repartitioned numBuckets updated losers winners buckets new changes := by
  obtain ⟨new, changes, hcall, hres⟩ : ∃ new changes,
      rePartitionV2 (numBuckets * numBuckets) numBuckets updated buckets = .ok (new, changes) ∧
      Repartitioned numBuckets updated losers winners buckets new changes := by
    cases hstep with
    | append _ _ hfresh hnodup => exact rePartitionV2_scaleUp h hfresh hnodup hle le_rfl
    | drop _ _ hkept hdropped => exact rePartitionV2_scaleDown h hkept hdropped le_rfl
  exact ⟨new, changes, fun fuel hfuel => rePartitionV2_mono hfuel hcall, hres⟩

theorem History.balanced (h : History numBuckets workers buckets) :
    Balanced numBuckets workers buckets := by
  induction h with
  | @deploy workers buckets hnodup hgenerate =>
    have hfits : 0 < workers.length ∧ workers.length ≤ numBuckets := by
      unfold generateBucketsV2 at hgenerate
      obtain ⟨hzero, hgenerate⟩ := check_bind_eq_ok.mp hgenerate
      obtain ⟨hfew, -⟩ := check_bind_eq_ok.mp hgenerate
      omega
    obtain ⟨buckets', hrun, hbalanced⟩ :=
      generateBucketsV2_balanced numBuckets workers hnodup hfits.1 hfits.2
    rw [hgenerate] at hrun
    cases hrun
    exact hbalanced
  | @rescale workers buckets updated losers winners new changes fuel hist hstep hle hcall ih =>
    obtain ⟨new', changes', hreturns, hres⟩ := ih.rescale hstep hle
    have hbig := hreturns (max fuel (numBuckets * numBuckets)) (le_max_right _ _)
    rw [rePartitionV2_mono (le_max_left _ _) hcall] at hbig
    cases hbig
    exact hres.balanced

/-! ## Fewest moves -/

section

variable (hstep : WorkerListStep workers updated losers winners)
include hstep

/-- The losers of a step own in any balanced assignment over the updated list what they own in any other. -/
theorem WorkerListStep.count_losers {alt : List WorkerID}
    (hworkers : workers.Nodup) (hnew : Balanced numBuckets updated new) (halt : Balanced numBuckets updated alt)
    (hw : w ∈ losers) : alt.count w = new.count w := by
  cases hstep with
  | append _ _ hfresh hnodup =>
    obtain ⟨i, hi⟩ := List.mem_iff_getElem?.mp (List.mem_append_left winners hw)
    rw [hnew.count_eq i w hi, halt.count_eq i w hi]
  | drop _ _ hkept hdropped =>
    have hgone : w ∉ updated := fun hmem => (List.nodup_append.mp hworkers).2.2 w hmem w hw rfl
    rw [List.count_eq_zero.mpr fun hmem => hgone (hnew.owner_mem w hmem),
      List.count_eq_zero.mpr fun hmem => hgone (halt.owner_mem w hmem)]

theorem WorkerListStep.winner_not_loser (hworkers : workers.Nodup) (hw : w ∈ winners) : w ∉ losers := by
  cases hstep with
  | append _ _ hfresh hnodup =>
    exact fun hmem => (List.nodup_append.mp hnodup).2.2 w hmem w hw rfl
  | drop _ _ hkept hdropped =>
    exact fun hmem => (List.nodup_append.mp hworkers).2.2 w hw w hmem rfl

theorem WorkerListStep.losers_nodup (hworkers : workers.Nodup) : losers.Nodup := by
  cases hstep with
  | append _ _ hfresh hnodup => exact hworkers
  | drop _ _ hkept hdropped => exact (List.nodup_append.mp hworkers).2.1

end

theorem Repartitioned.movedCount_le {old alt : List WorkerID} {changes : OwnerChanges}
    (h : Repartitioned numBuckets updated losers winners old new changes)
    (hstep : WorkerListStep workers updated losers winners) (hworkers : Balanced numBuckets workers old)
    (halt : Balanced numBuckets updated alt) : movedCount old new ≤ movedCount old alt := by
  refine movedCount_le_of_count_eq losers (hstep.losers_nodup hworkers.nodup) old new alt
    (hworkers.length_eq.trans h.balanced.length_eq.symm) (hworkers.length_eq.trans halt.length_eq.symm) ?_ ?_
  · rintro ⟨d, r⟩ hp hne
    obtain ⟨b, hb⟩ := List.mem_iff_getElem?.mp hp
    obtain ⟨hold, hnew⟩ := List.getElem?_zip_eq_some.mp hb
    obtain ⟨d', hd', r', hr', hold', hnew'⟩ := h.moved b (by rw [hold, hnew]; simpa using hne)
    rw [hold] at hold'
    rw [hnew] at hnew'
    obtain rfl := Option.some.inj hold'
    obtain rfl := Option.some.inj hnew'
    exact ⟨hd', hstep.winner_not_loser hworkers.nodup hr'⟩
  · intro w hw
    exact hstep.count_losers hworkers.nodup h.balanced halt hw

/-- **The even policy over every history of rescales.**  Every admissible first list gets an assignment; at
every point of a history the worker at position `i` owns exactly `N / n` buckets, plus one if `i < N % n`; and
every further rescale that keeps at most one worker per bucket returns (for every large enough iteration
budget, so its donor loops terminate) with exact shares again, moving buckets only from the losing to the
winning side of the step, and no more of them than any assignment with these shares must move. -/
theorem evenPolicy_history (numBuckets : Nat) :
    (∀ workers : List WorkerID, workers.Nodup → workers ≠ [] → workers.length ≤ numBuckets →
      ∃ buckets, generateBucketsV2 numBuckets workers = .ok buckets) ∧
    ∀ workers buckets, History numBuckets workers buckets →
      (∀ i w, workers[i]? = some w → buckets.count w
        = numBuckets / workers.length + if i < numBuckets % workers.length then 1 else 0) ∧
      ∀ updated losers winners, WorkerListStep workers updated losers winners →
        updated.length ≤ numBuckets →
        ∃ new changes,
          (∀ fuel, numBuckets * numBuckets ≤ fuel →
            rePartitionV2 fuel numBuckets updated buckets = .ok (new, changes)) ∧
          (∀ i w, updated[i]? = some w → new.count w
            = numBuckets / updated.length + if i < numBuckets % updated.length then 1 else 0) ∧
          (∀ b : BucketID, buckets[b]? ≠ new[b]? →
            ∃ d ∈ losers, ∃ r ∈ winners, buckets[b]? = some d ∧ new[b]? = some r) ∧
          ∀ alt : List WorkerID, alt.length = numBuckets →
            (∀ i w, updated[i]? = some w → alt.count w
              = numBuckets / updated.length + if i < numBuckets % updated.length then 1 else 0) →
            movedCount buckets new ≤ movedCount buckets alt := by
  refine ⟨?_, ?_⟩
  · intro workers hnodup hne hle
    obtain ⟨buckets, hrun, -⟩ :=
      generateBucketsV2_balanced numBuckets workers hnodup (List.length_pos_iff.mpr hne) hle
    exact ⟨buckets, hrun⟩
  · intro workers buckets hist
    have hbalanced := hist.balanced
    refine ⟨hbalanced.count_eq, ?_⟩
    intro updated losers winners hstep hle
    obtain ⟨new, changes, hreturns, hres⟩ := hbalanced.rescale hstep hle
    refine ⟨new, changes, hreturns, hres.balanced.count_eq, hres.moved, ?_⟩
    intro alt hlen hshares
    refine hres.movedCount_le hstep hbalanced ⟨hres.balanced.nodup, hres.balanced.nonempty, hle, hlen, hshares⟩

/-- A deployment of one worker over three buckets, scaled up by a second one. -/
theorem evenPolicy_history_one_to_two :
    ∃ new changes,
      (∀ fuel, 9 ≤ fuel → rePartitionV2 fuel 3 [7, 8] [7, 7, 7] = .ok (new, changes)) ∧
        new.count 7 = 2 ∧ new.count 8 = 1 ∧
        (∀ b : BucketID, [7, 7, 7][b]? ≠ new[b]? → ∃ d ∈ [7], ∃ r ∈ [8], [7, 7, 7][b]? = some d ∧ new[b]? = some r) ∧
        movedCount [7, 7, 7] new ≤ movedCount [7, 7, 7] [8, 7, 7] := by
  have hdeploy : History 3 [7] [7, 7, 7] := History.deploy (by decide) (by rfl)
  obtain ⟨-, hhist⟩ := evenPolicy_history 3
  obtain ⟨-, hnext⟩ := hhist [7] [7, 7, 7] hdeploy
  obtain ⟨new, changes, hrun, hcount, hmoved, hmin⟩ :=
    hnext [7, 8] [7] [8] (WorkerListStep.append [7] [8] (by decide) (by decide)) (by decide)
  refine ⟨new, changes, hrun, hcount 0 7 (by rfl), hcount 1 8 (by rfl), hmoved, hmin [8, 7, 7] (by rfl) ?_⟩
  intro i w hi
  match i, hi with
  | 0, hi => cases hi; decide
  | 1, hi => cases hi; decide

end Partition
end Koala
