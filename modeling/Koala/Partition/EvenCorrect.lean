import Koala.Partition.EvenTransfer

/-!
# `RePartitionV2` keeps the assignment balanced

From a balanced assignment, appending fresh workers or dropping a suffix of the worker list leads to a call of
`RePartitionV2` that returns, with the assignment balanced over the new list (`rePartitionV2_scaleUp`,
`rePartitionV2_scaleDown`).  Each direction computes its donor lists, checks that donation and need agree, and
then serves the recipients one after the other with the donor loop.
-/

namespace Koala
namespace Partition

open Lib Lib.Outcome
open List (map_append map_congr_left map_cons mem_append sum_append sum_cons)

/-- The outcome of a repartition: the new assignment is balanced over the new list, a bucket moves only from
a worker in `losers` to one in `winners`, and the recorded changes are exactly the moves, sorted. -/
structure Repartitioned (numBuckets : Nat) (updatedWorkers losers winners old new : List WorkerID)
    (changes : OwnerChanges) : Prop where
  balanced : Balanced numBuckets updatedWorkers new
  moved : ∀ b : BucketID, old[b]? ≠ new[b]? →
    ∃ d ∈ losers, ∃ r ∈ winners, old[b]? = some d ∧ new[b]? = some r
  exact : ExactChanges old new changes

variable {old donors recipients : List WorkerID} {kept : WorkerID → Nat} {st : Transfer}

theorem Transfer.Inv.exactChanges (h : st.Inv old donors recipients kept) :
    ExactChanges old st.newBuckets st.bucketOwnerChanges.sorted := by
  refine ⟨?_, ?_, h.changes_noEmpty.sorted⟩
  · intro src dst b
    rw [OwnerChanges.moved_sorted, List.mem_insertionSort]
    exact h.changes_iff src dst b
  · intro src dst
    rw [OwnerChanges.moved_sorted]
    have hperm := List.perm_insertionSort (· ≤ ·) (st.bucketOwnerChanges.moved src dst)
    have hnodup := hperm.nodup_iff.mpr (h.changes_nodup src dst)
    have hsorted := List.pairwise_insertionSort (· ≤ ·) (st.bucketOwnerChanges.moved src dst)
    exact (hsorted.and hnodup).imp fun hab => Nat.lt_of_le_of_ne hab.1 hab.2

variable {numBuckets : Nat}

theorem Transfer.Inv.repartitioned {updatedWorkers : List WorkerID} (h : st.Inv old donors recipients kept)
    (hbalanced : Balanced numBuckets updatedWorkers st.newBuckets) {losers : List WorkerID}
    (hdonors : ∀ d ∈ donors, d ∈ losers) :
    Repartitioned numBuckets updatedWorkers losers recipients old st.newBuckets
      st.bucketOwnerChanges.sorted where
  balanced := hbalanced
  moved := by
    intro b hb
    obtain ⟨d, hd, r, hr, hpair⟩ := h.moved b hb
    exact ⟨d, hdonors d hd, r, hr, hpair⟩
  exact := h.exactChanges

/-- When nothing is left to give, every donor keeps exactly what it was not asked for. -/
theorem Transfer.Inv.count_of_available_zero (h : st.Inv old donors recipients kept) (hzero : st.available donors = 0)
    {d : WorkerID} (hd : d ∈ donors) : st.newBuckets.count d = kept d := by
  have hempty : (st.pool d).length = 0 := by
    have hle : (st.pool d).length ≤ st.available donors :=
      List.le_sum_of_mem (List.mem_map_of_mem (f := fun d => (st.pool d).length) hd)
    omega
  rw [h.count_donor d hd, hempty, Nat.add_zero]

theorem copy_buckets (old : List WorkerID) :
    old.take old.length ++ List.replicate (old.length - old.length) 0 = old := by
  simp

/-! ## Desired counts as a function -/

/-- Desired counts over a list: every listed worker wants a positive number of buckets, in all as many as
there are. -/
structure Wanted (numBuckets : Nat) (workers : List WorkerID) (desired : GoMap WorkerID Nat)
    (want : WorkerID → Nat) : Prop where
  get_eq : ∀ w ∈ workers, desired.get w = some (want w)
  share_eq : ∀ i w, workers[i]? = some w → want w = share numBuckets workers.length i
  pos : ∀ w ∈ workers, 0 < want w
  sum_eq : (workers.map want).sum = numBuckets

theorem getDesiredCountsPerWorker_wanted (numBuckets : Nat) (workers : List WorkerID)
    (hnodup : workers.Nodup) (hpos : 0 < workers.length) (hle : workers.length ≤ numBuckets) :
    ∃ desired want, getDesiredCountsPerWorker numBuckets workers = .ok desired ∧
      Wanted numBuckets workers desired want := by
  obtain ⟨desired, hrun, hdesired⟩ := getDesiredCountsPerWorker_ok numBuckets workers hnodup hpos
  have hshare : ∀ i w, workers[i]? = some w →
      (desired.get w).getD 0 = share numBuckets workers.length i := by
    intro i w hi
    rw [hdesired i w hi, Option.getD_some]
  refine ⟨desired, fun w => (desired.get w).getD 0, hrun, ?_, hshare, ?_, ?_⟩
  · intro w hw
    obtain ⟨i, hi⟩ := List.mem_iff_getElem?.mp hw
    rw [hdesired i w hi, Option.getD_some]
  · intro w hw
    obtain ⟨i, hi⟩ := List.mem_iff_getElem?.mp hw
    rw [hshare i w hi]
    exact share_pos numBuckets workers.length i hpos hle
  · rw [sum_by_position workers _ _ hshare]
    exact share_sum numBuckets workers.length hpos

variable {workers : List WorkerID} {desired : GoMap WorkerID Nat} {want : WorkerID → Nat}

/-- Counts that meet the wishes of every listed worker make the assignment balanced. -/
theorem Wanted.balanced {new : List WorkerID} (h : Wanted numBuckets workers desired want) (hnodup : workers.Nodup)
    (hpos : 0 < workers.length) (hle : workers.length ≤ numBuckets) (hlen : new.length = numBuckets)
    (hcount : ∀ w ∈ workers, new.count w = want w) : Balanced numBuckets workers new where
  nodup := hnodup
  nonempty := hpos
  enough := hle
  length_eq := hlen
  count_eq := by
    intro i w hi
    rw [hcount w (List.mem_of_getElem? hi), h.share_eq i w hi]

/-! ## What validation hands over -/

/-- The facts about the old assignment that both directions start from. -/
structure Prepared (workers old : List WorkerID) (info : ExistingWorkers) : Prop where
  get_eq : ∀ w, info.bucketsByExistingWorker.get w
    = if w ∈ workers then some (positionsOf w old) else none
  keys_perm : info.bucketsByExistingWorker.keys.Perm workers
  list_perm : info.existingWorkerList.Perm workers

theorem Balanced.prepared (h : Balanced numBuckets workers old) : Prepared workers old (collectExisting old) := by
  have hspec := collectExisting_spec old
  have hget : ∀ w, (collectExisting old).bucketsByExistingWorker.get w
      = if w ∈ workers then some (positionsOf w old) else none := by
    intro w
    rw [hspec.get_eq]
    simp only [h.mem_iff]
  refine ⟨hget, keys_perm _ workers h.nodup fun w => ?_, ?_⟩
  · rw [hget]
    split_ifs with hw <;> simp [hw]
  · refine (List.perm_ext_iff_of_nodup hspec.nodup h.nodup).mpr fun w => ?_
    rw [hspec.mem_list, h.mem_iff]

variable {updated : List WorkerID}

/-- Validation accepts a proper extension or a proper restriction of the existing worker list. -/
theorem validateAndPrepareRepartition_ok (h : Balanced numBuckets workers old) (hnodup : updated.Nodup)
    (hpos : 0 < updated.length) (hle : updated.length ≤ numBuckets)
    (hstep : (workers.length < updated.length ∧ ∀ w ∈ workers, w ∈ updated) ∨ (updated.length < workers.length ∧ ∀ w ∈ updated, w ∈ workers)) :
    ∃ set, validateAndPrepareRepartition numBuckets updated old = .ok (set, collectExisting old) ∧
      (∀ w, (set.get w).isSome ↔ w ∈ updated) ∧ set.keys.length = updated.length := by
  obtain ⟨set, hset, hmem⟩ := buildUpdatedWorkerSet_ok updated hnodup
  have hprep := h.prepared
  have hsetPerm := keys_perm set updated hnodup hmem
  have hsetLen : set.keys.length = updated.length := hsetPerm.length_eq
  have hkeysLen := hprep.keys_perm.length_eq
  refine ⟨set, ?_, hmem, hsetLen⟩
  rw [validateAndPrepareRepartition, check_eq_ok (by omega), ok_bind, check_eq_ok (by omega), ok_bind, hset, ok_bind]
  simp only [hsetLen, hkeysLen]
  rcases hstep with ⟨hlt, hsub⟩ | ⟨hlt, hsub⟩
  · rw [check_eq_ok (by omega), ok_bind, if_pos hlt, forEach_check, ok_bind, pure_eq_ok]
    intro w hw hnone
    have hin := hsub w (hprep.keys_perm.mem_iff.mp hw)
    rw [← hmem, Option.isNone_iff_eq_none.mp hnone] at hin
    simp at hin
  · rw [check_eq_ok (by omega), ok_bind, if_neg (by omega), forEach_check, ok_bind, pure_eq_ok]
    intro w hw hnone
    have hin := hsub w (hsetPerm.mem_iff.mp hw)
    rw [hprep.get_eq, if_pos hin] at hnone
    simp at hnone

variable {w : WorkerID}

/-- Positions do not change when workers are appended, so the shares say that no listed worker gains by it. -/
theorem share_append_le {added : List WorkerID} {few many : WorkerID → Nat} (hpos : 0 < workers.length)
    (hfew : ∀ i w, workers[i]? = some w → few w = share numBuckets workers.length i)
    (hmany : ∀ i w, (workers ++ added)[i]? = some w → many w = share numBuckets (workers ++ added).length i) (hw : w ∈ workers) : many w ≤ few w := by
  obtain ⟨i, hi⟩ := List.mem_iff_getElem?.mp hw
  have hi' : (workers ++ added)[i]? = some w := by
    rw [List.getElem?_append_left (List.getElem?_eq_some_iff.mp hi).1, hi]
  rw [hfew i w hi, hmany i w hi']
  exact share_antitone numBuckets workers.length _ i hpos (by rw [List.length_append]; omega)

theorem sum_map_eq_sub_add {few many : WorkerID → Nat} (hle : ∀ w ∈ workers, few w ≤ many w) :
    (workers.map many).sum = (workers.map fun w => many w - few w).sum + (workers.map few).sum := by
  rw [← List.sum_map_add]
  congr 1
  refine map_congr_left fun w hw => ?_
  have := hle w hw
  omega

/-! ## Serving the recipients -/

/-- The state of the outer loop after the recipients in `done` got what they need. -/
structure ServeInv (old donors recipients : List WorkerID) (kept need : WorkerID → Nat)
    (done : List WorkerID) (st : Transfer) : Prop where
  inv : st.Inv old donors recipients kept
  available_eq : st.available donors + (done.map need).sum = (recipients.map need).sum
  count_done : ∀ w ∈ done, st.newBuckets.count w = old.count w + need w
  count_todo : ∀ w, w ∉ donors → w ∉ done → st.newBuckets.count w = old.count w

variable {fuel : Nat} {need : WorkerID → Nat}

theorem ServeInv.step {done rest : List WorkerID}
    (h : ServeInv old donors recipients kept need done st) (hdonors : donors.Nodup) (hrecipients : recipients.Nodup)
    (hdisj : ∀ r ∈ recipients, r ∉ donors) (hsplit : recipients = done ++ w :: rest)
    (hfuel : (recipients.map need).sum * donors.length ≤ fuel) :
    need w ≤ st.available donors ∧
      ∃ st', Transfer.fill fuel donors w (need w) st = .ok st' ∧
        ServeInv old donors recipients kept need (done ++ [w]) st' := by
  have hw : w ∈ recipients := by rw [hsplit]; simp
  have hwd := notMem_done hrecipients hsplit
  have hsum : (recipients.map need).sum = (done.map need).sum + (need w + (rest.map need).sum) := by
    rw [hsplit, map_append, sum_append, map_cons, sum_cons]
  have havail := h.available_eq
  have hneed : need w ≤ st.available donors := by omega
  have hbudget : need w * donors.length ≤ fuel :=
    (Nat.mul_le_mul_right _ (by omega)).trans hfuel
  obtain ⟨st', hrun, hinv', hserved⟩ := Transfer.fill_ok h.inv hdonors hw (hdisj w hw) hneed hbudget
  refine ⟨hneed, st', hrun, hinv', ?_, ?_, ?_⟩
  · have hleft := hserved.available_eq
    rw [map_append, sum_append, map_cons, List.map_nil, sum_cons, List.sum_nil]
    omega
  · intro v hv
    rcases mem_append.mp hv with hvd | hvw
    · have hvr : v ∈ recipients := by rw [hsplit]; simp [hvd]
      have hne : v ≠ w := fun heq => hwd (heq ▸ hvd)
      rw [hserved.count_other v (hdisj v hvr) hne, h.count_done v hvd]
    · rw [List.mem_singleton.mp hvw, hserved.count_recipient, h.count_todo w (hdisj w hw) hwd]
  · intro v hv hvd
    simp only [mem_append, List.mem_singleton, not_or] at hvd
    rw [hserved.count_other v hv hvd.2, h.count_todo v hv hvd.1]

/-- When all recipients are served, the donors keep exactly what they were not asked for. -/
theorem ServeInv.count_donor (h : ServeInv old donors recipients kept need recipients st)
    {d : WorkerID} (hd : d ∈ donors) : st.newBuckets.count d = kept d := by
  have havail := h.available_eq
  exact h.inv.count_of_available_zero (by omega) hd

/-! ## The donor lists -/

/-- What the donors offer before any bucket moves. -/
structure Offered (offer : WorkerID → List BucketID) (donors : List WorkerID)
    (donorBuckets : GoMap WorkerID (List BucketID)) (total : Nat) : Prop where
  pool : ∀ d, (donorBuckets.get d).getD [] = if d ∈ donors then offer d else []
  total_eq : total = (donors.map fun d => (offer d).length).sum

/-- What a donor is not asked for. -/
def Offered.keptBy (old : List WorkerID) (offer : WorkerID → List BucketID) (d : WorkerID) : Nat :=
  old.count d - (offer d).length

variable {offer : WorkerID → List BucketID} {donorBuckets : GoMap WorkerID (List BucketID)} {total : Nat}

theorem Offered.nil (offer : WorkerID → List BucketID) : Offered offer [] ∅ 0 := ⟨by simp, rfl⟩

section

variable (h : Offered offer donors donorBuckets total)
include h

theorem Offered.skip (hnone : offer w = []) : Offered offer (donors ++ [w]) donorBuckets total := by
  refine ⟨fun d => ?_, by simp [h.total_eq, hnone]⟩
  rw [h.pool d]
  by_cases hd : d = w
  · simp [hd, hnone]
  · simp [hd]

theorem Offered.add (w : WorkerID) :
    Offered offer (donors ++ [w]) (donorBuckets.set w (offer w)) (total + (offer w).length) := by
  refine ⟨fun d => ?_, by simp [h.total_eq]⟩
  rw [GoMap.get_set]
  by_cases hd : d = w
  · simp [hd]
  · simp [hd, h.pool d]

theorem Offered.perm {donors' : List WorkerID} (hperm : donors.Perm donors') :
    Offered offer donors' donorBuckets total :=
  ⟨fun d => by simpa only [hperm.mem_iff] using h.pool d, h.total_eq.trans (hperm.map _).sum_eq⟩

theorem Offered.start (hpos : 0 < donors.length) (hoffer : ∀ d, (offer d).Sublist (positionsOf d old)) :
    Transfer.Inv old donors recipients (keptBy old offer) ⟨donorBuckets, 0, old, ∅⟩ := by
  have hpool : ∀ d, ((donorBuckets.get d).getD []).Sublist (positionsOf d old) := fun d => by
    rw [h.pool d]
    split_ifs
    · exact hoffer d
    · exact List.nil_sublist _
  refine ⟨hpos, rfl, fun d => (positionsOf_nodup d old).sublist (hpool d), fun d b hb => ?_, fun d hd => ?_,
    fun b hb => absurd rfl hb, fun src dst b => ?_, fun _ _ => List.nodup_nil, fun src dests hsrc => ?_⟩
  · have hat := mem_positionsOf.mp ((hpool d).subset hb)
    exact ⟨hat, hat⟩
  · have hle := (hoffer d).length_le
    rw [length_positionsOf] at hle
    rw [Transfer.pool, h.pool d, if_pos hd, keptBy]
    exact (Nat.sub_add_cancel hle).symm
  · refine iff_of_false List.not_mem_nil ?_
    rintro ⟨hsrc, hdst, hne⟩
    rw [hsrc] at hdst
    exact hne (Option.some.inj hdst)
  · simp at hsrc

theorem Offered.available (old : List WorkerID) : Transfer.available donors ⟨donorBuckets, 0, old, ∅⟩ = total := by
  rw [h.total_eq, Transfer.available]
  congr 1
  refine map_congr_left fun d hd => ?_
  rw [Transfer.pool, h.pool d, if_pos hd]

theorem Offered.serve (hpos : 0 < donors.length)
    (hoffer : ∀ d, (offer d).Sublist (positionsOf d old)) (hneed : total = (recipients.map need).sum) :
    ServeInv old donors recipients (keptBy old offer) need [] ⟨donorBuckets, 0, old, ∅⟩ :=
  ⟨h.start hpos hoffer, by rw [h.available]; simpa using hneed, nofun, fun _ _ _ => rfl⟩

end

theorem collectExisting_keys_perm (old : List WorkerID) :
    (collectExisting old).bucketsByExistingWorker.keys.Perm (collectExisting old).existingWorkerList := by
  have hspec := collectExisting_spec old
  refine keys_perm _ _ hspec.nodup fun w => ?_
  rw [hspec.get_eq, hspec.mem_list]
  split_ifs with hw <;> simp [hw]

theorem collectExisting_getD (old : List WorkerID) (w : WorkerID) :
    ((collectExisting old).bucketsByExistingWorker.get w).getD [] = positionsOf w old := by
  rw [(collectExisting_spec old).get_eq]
  split_ifs with hw
  · rfl
  · symm
    rw [Option.getD_none, ← List.length_eq_zero_iff, length_positionsOf, List.count_eq_zero]
    exact hw

/-- What a worker sheds in a scale-up. -/
def excess (desired : GoMap WorkerID Nat) (old : List WorkerID) (d : WorkerID) : List BucketID :=
  (positionsOf d old).drop ((desired.get d).getD 0)

theorem offerExcess_settles (desired : GoMap WorkerID Nat) (old : List WorkerID) :
    Settles (fun p => Offered (excess desired old) (collectExisting old).existingWorkerList p.1 p.2)
      (forEach (collectExisting old).bucketsByExistingWorker.keys
        (offerExcess desired (collectExisting old).bucketsByExistingWorker) (∅, 0)) := by
  refine Settles.imp (Settles.forEach (fun done (p : GoMap WorkerID (List BucketID) × Nat) =>
    Offered (excess desired old) done p.1 p.2) (Offered.nil _) ?_) fun p hp => hp.perm (collectExisting_keys_perm old)
  rintro done w rest ⟨m, total⟩ - hoffered
  simp only [offerExcess, collectExisting_getD]
  cases hdesired : desired.get w with
  | none => exact .abort _
  | some want =>
    have hexcess : excess desired old w = (positionsOf w old).drop want := by
      rw [excess, hdesired, Option.getD_some]
    refine .check fun hle => ?_
    split_ifs with hzero
    · exact .ok (hoffered.skip (hexcess.trans (List.drop_eq_nil_of_le (by omega))))
    · have hnext := hoffered.add w
      rw [hexcess, List.length_drop] at hnext
      rw [Nat.sub_sub_self (Nat.not_lt.mp hle)]
      exact .ok hnext

theorem offerAll_settles (removed old : List WorkerID) :
    Settles (fun p => Offered (fun d => positionsOf d old) removed p.1 p.2)
      (forEach removed (offerAll (collectExisting old).bucketsByExistingWorker) (∅, 0)) := by
  refine Settles.forEach (fun done (p : GoMap WorkerID (List BucketID) × Nat) =>
    Offered (fun d => positionsOf d old) done p.1 p.2) (Offered.nil _) ?_
  rintro done w rest ⟨m, total⟩ - hoffered
  have hget := collectExisting_getD old w
  simp only [offerAll]
  cases hbuckets : (collectExisting old).bucketsByExistingWorker.get w with
  | none => exact .abort _
  | some buckets =>
    rw [hbuckets, Option.getD_some] at hget
    exact .ok (hget ▸ hoffered.add w)

/-! ## Scale-up -/

theorem serveNewWorker_loop (h : ServeInv old donors recipients kept want [] st) (hdonors : donors.Nodup)
    (hrecipients : recipients.Nodup) (hdisj : ∀ r ∈ recipients, r ∉ donors)
    (hdesired : ∀ r ∈ recipients, desired.get r = some (want r)) (hpos : ∀ r ∈ recipients, 0 < want r)
    (hfuel : (recipients.map want).sum * donors.length ≤ fuel) :
    ∃ st' left, forEach recipients (serveNewWorker fuel desired donors) (st, (st.available donors : Int))
        = .ok (st', left) ∧ ServeInv old donors recipients kept want recipients st' := by
  obtain ⟨⟨st', left⟩, hrun, hserve, -⟩ :
      ∃ p, forEach recipients (serveNewWorker fuel desired donors) (st, (st.available donors : Int))
          = .ok p ∧ ServeInv old donors recipients kept want recipients p.1 ∧
        p.2 = (p.1.available donors : Int) := by
    refine forEach_total (fun done (p : Transfer × Int) =>
      ServeInv old donors recipients kept want done p.1 ∧ p.2 = (p.1.available donors : Int)) ⟨h, rfl⟩ ?_
    rintro done w rest ⟨s, left⟩ hsplit ⟨hs, hleft⟩
    simp only at hs hleft
    have hw : w ∈ recipients := by rw [hsplit]; simp
    have hwpos := hpos w hw
    obtain ⟨hneed, s', hfill, hs'⟩ := hs.step hdonors hrecipients hdisj hsplit hfuel
    refine ⟨(s', left - want w), ?_, hs', ?_⟩
    · simp only [serveNewWorker, hdesired w hw]
      rw [check_eq_ok (by omega), ok_bind, check_eq_ok (by omega), ok_bind, hfill, ok_bind, pure_eq_ok]
    · have hbefore := hs.available_eq
      have hafter := hs'.available_eq
      rw [map_append, sum_append, map_cons, List.map_nil, sum_cons, List.sum_nil] at hafter
      simp only
      omega
  exact ⟨st', left, hrun, hserve⟩

/-- **Scale-up.**  Appending fresh workers to a balanced list: the call returns, and only buckets of the old
workers move, to the fresh ones. -/
theorem rePartitionV2_scaleUp {fresh : List WorkerID} (h : Balanced numBuckets workers old) (hfresh : fresh ≠ [])
    (hnodup : (workers ++ fresh).Nodup) (hle : (workers ++ fresh).length ≤ numBuckets)
    (hfuel : numBuckets * numBuckets ≤ fuel) :
    ∃ new changes, rePartitionV2 fuel numBuckets (workers ++ fresh) old = .ok (new, changes) ∧
      Repartitioned numBuckets (workers ++ fresh) workers fresh old new changes := by
  obtain ⟨-, hfreshNodup, hdisj⟩ := List.nodup_append.mp hnodup
  have hfreshLen : 0 < fresh.length := List.length_pos_iff.mpr hfresh
  have hlenApp : (workers ++ fresh).length = workers.length + fresh.length := List.length_append
  have hpos : 0 < (workers ++ fresh).length := by omega
  have hprep := h.prepared
  have hnotOld : ∀ w ∈ fresh, w ∉ workers := fun w hw hmem => hdisj w hmem w hw rfl
  obtain ⟨set, hvalid, -, hsetLen⟩ := validateAndPrepareRepartition_ok h hnodup hpos hle
    (Or.inl ⟨by omega, fun w hw => List.mem_append_left _ hw⟩)
  obtain ⟨desired, want, hdesired, hwant⟩ :=
    getDesiredCountsPerWorker_wanted numBuckets (workers ++ fresh) hnodup hpos hle
  have hshrink : ∀ w ∈ workers, want w ≤ old.count w := fun w hw =>
    share_append_le h.nonempty h.count_eq hwant.share_eq hw
  have hget : ∀ w ∈ workers, desired.get w = some (want w) := fun w hw => hwant.get_eq w (List.mem_append_left _ hw)
  obtain ⟨⟨donorBuckets, total⟩, hdonate, hoffered⟩ := (offerExcess_settles desired old).forEach_ok fun w hw p => by
    have hw' := hprep.keys_perm.mem_iff.mp hw
    have hle' := hshrink w hw'
    simp only [offerExcess, collectExisting_getD, hget w hw', length_positionsOf]
    rw [check_eq_ok (by omega), ok_bind]
    split_ifs <;> exact ⟨_, rfl⟩
  dsimp only at hoffered
  have hexcess : ∀ w ∈ workers, (excess desired old w).length = old.count w - want w := fun w hw => by
    rw [excess, hget w hw, Option.getD_some, List.length_drop, length_positionsOf]
  -- what the old workers shed is what the fresh ones want
  have hbalance : total = (fresh.map want).sum := by
    rw [hoffered.total_eq, (hprep.list_perm.map _).sum_eq, map_congr_left hexcess]
    have hsplit := sum_map_eq_sub_add hshrink
    have hall := hwant.sum_eq
    have hown := h.sum_count_eq
    rw [map_append, sum_append] at hall
    omega
  have hwantPos : 0 < (fresh.map want).sum := by
    obtain ⟨w, hw⟩ := List.exists_mem_of_ne_nil fresh hfresh
    have hone := hwant.pos w (List.mem_append_right _ hw)
    have hsum : want w ≤ (fresh.map want).sum := List.le_sum_of_mem (List.mem_map_of_mem hw)
    omega
  have hwantLe : (fresh.map want).sum ≤ numBuckets := by
    have hall := hwant.sum_eq
    rw [map_append, sum_append] at hall
    omega
  have hnew : (workers ++ fresh).filter
      (fun w => ((collectExisting old).bucketsByExistingWorker.get w).isNone) = fresh := by
    simp only [hprep.get_eq]
    rw [List.filter_append, List.filter_eq_nil_iff.mpr, List.filter_eq_self.mpr, List.nil_append]
    · intro w hw
      simp [hnotOld w hw]
    · intro w hw
      simp [hw]
  have hdonorsNodup : (collectExisting old).existingWorkerList.Nodup :=
    hprep.list_perm.nodup_iff.mpr h.nodup
  have hdonorsLen := hprep.list_perm.length_eq
  have hdisjDonors : ∀ r ∈ fresh, r ∉ (collectExisting old).existingWorkerList :=
    fun r hr hmem => hnotOld r hr (hprep.list_perm.mem_iff.mp hmem)
  have hbudget : (fresh.map want).sum * (collectExisting old).existingWorkerList.length ≤ fuel :=
    (Nat.mul_le_mul hwantLe (by rw [hdonorsLen]; exact h.enough)).trans hfuel
  have hserve := hoffered.serve (hdonorsLen ▸ h.nonempty) (fun _ => List.drop_sublist _ _) hbalance
  obtain ⟨st, left, hrun, hst⟩ := serveNewWorker_loop hserve hdonorsNodup hfreshNodup hdisjDonors
    (fun r hr => hwant.get_eq r (List.mem_append_right _ hr))
    (fun r hr => hwant.pos r (List.mem_append_right _ hr)) hbudget
  rw [hoffered.available] at hrun
  have hbalanced : Balanced numBuckets (workers ++ fresh) st.newBuckets := by
    refine hwant.balanced hnodup hpos hle (hst.inv.length_eq.trans h.length_eq) fun w hw => ?_
    rcases mem_append.mp hw with hold | hfr
    · have hle' := hshrink w hold
      rw [hst.count_donor (hprep.list_perm.mem_iff.mpr hold), Offered.keptBy, hexcess w hold]
      omega
    · have hzero : old.count w = 0 :=
        List.count_eq_zero.mpr fun hmem => hnotOld w hfr (h.owner_mem w hmem)
      rw [hst.count_done w hfr, hzero, Nat.zero_add]
  refine ⟨st.newBuckets, st.bucketOwnerChanges.sorted, ?_,
    hst.inv.repartitioned hbalanced fun d hd => hprep.list_perm.mem_iff.mp hd⟩
  rw [← h.length_eq] at hvalid hdesired ⊢
  rw [rePartitionV2, hvalid, ok_bind]
  simp only [hdesired, ok_bind, hsetLen, hdonorsLen, copy_buckets]
  rw [if_pos (by omega), repartitionScaleUp, hnew, check_eq_ok (by omega), ok_bind, hdonate, ok_bind]
  dsimp only
  rw [check_eq_ok (by omega), ok_bind, hrun]
  rfl

/-! ## Scale-down -/

/-- What a remaining worker needs, read off the desired counts. -/
def needOf (desired : GoMap WorkerID Nat) (old : List WorkerID) (w : WorkerID) : Nat :=
  (desired.get w).getD 0 - old.count w

theorem computeNeed_settles (desired : GoMap WorkerID Nat) (old updated : List WorkerID) :
    Settles (fun p => (∀ w ∈ updated, (p.1.get w).getD 0 = needOf desired old w) ∧
        p.2 = (updated.map (needOf desired old)).sum)
      (forEach updated (computeNeed desired (collectExisting old).bucketsByExistingWorker) (∅, 0)) := by
  refine Settles.imp (Settles.forEach (fun done (p : GoMap WorkerID Nat × Nat) =>
    (∀ w, (p.1.get w).getD 0 = if w ∈ done then needOf desired old w else 0) ∧
      p.2 = (done.map (needOf desired old)).sum) ⟨by simp, rfl⟩ ?_) ?_
  · rintro done w rest ⟨m, total⟩ hsplit ⟨hneeds, htotal⟩
    simp only at hneeds htotal
    simp only [computeNeed, collectExisting_getD, length_positionsOf]
    cases hdesired : desired.get w with
    | none => exact .abort _
    | some want =>
      have hneed : needOf desired old w = want - old.count w := by rw [needOf, hdesired, Option.getD_some]
      refine .check fun hle => ?_
      have hsum : ((done ++ [w]).map (needOf desired old)).sum = total + (want - old.count w) := by
        rw [map_append, sum_append, ← htotal, List.map_singleton, List.sum_singleton, hneed]
      split_ifs with hzero
      · refine .ok ⟨fun v => ?_, by rw [hsum, hzero, Nat.add_zero]⟩
        rw [hneeds v]
        by_cases hv : v = w
        · simp [hv, hneed, hzero]
        · simp [hv]
      · refine .ok ⟨fun v => ?_, hsum.symm⟩
        simp only [GoMap.get_set]
        by_cases hv : v = w
        · simp [hv, hneed]
        · simp [hv, hneeds v]
  · rintro p ⟨hneeds, htotal⟩
    refine ⟨fun w hw => ?_, htotal⟩
    rw [hneeds w, if_pos hw]
/-- **Scale-down.**  Dropping a non-empty proper suffix of a balanced list: the call returns, and only buckets
of the dropped workers move, to the remaining ones. -/
theorem rePartitionV2_scaleDown {dropped : List WorkerID} (h : Balanced numBuckets (updated ++ dropped) old)
    (hupdated : updated ≠ []) (hdropped : dropped ≠ []) (hfuel : numBuckets * numBuckets ≤ fuel) :
    ∃ new changes, rePartitionV2 fuel numBuckets updated old = .ok (new, changes) ∧
      Repartitioned numBuckets updated dropped updated old new changes := by
  obtain ⟨hnodup, hdroppedNodup, hdisj⟩ := List.nodup_append.mp h.nodup
  have hpos : 0 < updated.length := List.length_pos_iff.mpr hupdated
  have hdroppedLen : 0 < dropped.length := List.length_pos_iff.mpr hdropped
  have hlenApp : (updated ++ dropped).length = updated.length + dropped.length := List.length_append
  have henough := h.enough
  have hle : updated.length ≤ numBuckets := by omega
  have hprep := h.prepared
  obtain ⟨set, hvalid, hset, hsetLen⟩ := validateAndPrepareRepartition_ok h hnodup hpos hle
    (Or.inr ⟨by omega, fun w hw => List.mem_append_left _ hw⟩)
  obtain ⟨desired, want, hdesired, hwant⟩ :=
    getDesiredCountsPerWorker_wanted numBuckets updated hnodup hpos hle
  have hgrow : ∀ w ∈ updated, old.count w ≤ want w := fun w hw =>
    share_append_le hpos hwant.share_eq h.count_eq hw
  -- the donors are the dropped workers, in the order of their first bucket
  obtain ⟨removed, hremovedEq⟩ : ∃ removed, (collectExisting old).existingWorkerList.filter
      (fun w => (set.get w).isNone) = removed := ⟨_, rfl⟩
  have hremoved : removed.Perm dropped := by
    have hnodupList := hprep.list_perm.nodup_iff.mpr h.nodup
    refine (List.perm_ext_iff_of_nodup (hremovedEq ▸ hnodupList.filter _) hdroppedNodup).mpr fun w => ?_
    have hnone : (set.get w).isNone = true ↔ w ∉ updated := by
      rw [← hset w]
      cases set.get w <;> simp
    rw [← hremovedEq, List.mem_filter, hprep.list_perm.mem_iff, hnone, mem_append]
    constructor
    · rintro ⟨hup | hdr, hnot⟩
      · exact absurd hup hnot
      · exact hdr
    · exact fun hdr => ⟨Or.inr hdr, fun hup => hdisj w hup w hdr rfl⟩
  have hremovedLen := hremoved.length_eq
  obtain ⟨⟨donorBuckets, total⟩, hdonate, hoffered⟩ := (offerAll_settles removed old).forEach_ok fun w hw p => by
    have hw' : w ∈ updated ++ dropped := List.mem_append_right _ (hremoved.mem_iff.mp hw)
    simp only [offerAll, hprep.get_eq, if_pos hw']
    exact ⟨_, rfl⟩
  obtain ⟨⟨needs, totalNeed⟩, hneedsRun, hneeds, htotalNeed⟩ :=
    (computeNeed_settles desired old updated).forEach_ok fun w hw p => by
      have hle' := hgrow w hw
      simp only [computeNeed, collectExisting_getD, hwant.get_eq w hw, length_positionsOf]
      rw [check_eq_ok (by omega), ok_bind]
      split_ifs <;> exact ⟨_, rfl⟩
  have hneed : ∀ w ∈ updated, needOf desired old w = want w - old.count w := fun w hw => by
    rw [needOf, hwant.get_eq w hw, Option.getD_some]
  dsimp only at hoffered hneeds htotalNeed
  -- what the dropped workers own is what the others need
  have hown := h.sum_count_eq
  rw [map_append, sum_append, ← (hremoved.map _).sum_eq] at hown
  have htotal : total = (removed.map fun w => old.count w).sum := by
    rw [hoffered.total_eq]
    simp only [length_positionsOf]
  have hbalance : total = (updated.map (needOf desired old)).sum := by
    have hsplit := sum_map_eq_sub_add hgrow
    have hall := hwant.sum_eq
    rw [map_congr_left hneed]
    omega
  have hdisjDonors : ∀ r ∈ updated, r ∉ removed :=
    fun r hr hmem => hdisj r hr r (hremoved.mem_iff.mp hmem) rfl
  have hbudget : (updated.map (needOf desired old)).sum * removed.length ≤ fuel :=
    (Nat.mul_le_mul (by omega) (by omega)).trans hfuel
  obtain ⟨st, hrun, hst⟩ : ∃ st, forEach updated
      (fun st w => Transfer.fill fuel removed w ((needs.get w).getD 0) st) ⟨donorBuckets, 0, old, ∅⟩ = .ok st ∧ _ := by
    refine forEach_total (ServeInv old removed updated (Offered.keptBy old fun d => positionsOf d old) (needOf desired old))
      (hoffered.serve (by omega) (fun _ => List.Sublist.refl _) hbalance) ?_
    intro done w rest st hsplit hst
    have hw : w ∈ updated := by rw [hsplit]; simp
    rw [hneeds w hw]
    exact (hst.step (hremoved.nodup_iff.mpr hdroppedNodup) hnodup hdisjDonors hsplit hbudget).2
  have hbalanced : Balanced numBuckets updated st.newBuckets := by
    refine hwant.balanced hnodup hpos hle (hst.inv.length_eq.trans h.length_eq) fun w hw => ?_
    have := hgrow w hw
    rw [hst.count_done w hw, hneed w hw]
    omega
  refine ⟨st.newBuckets, st.bucketOwnerChanges.sorted, ?_,
    hst.inv.repartitioned hbalanced fun d hd => hremoved.mem_iff.mp hd⟩
  rw [← h.length_eq] at hvalid hdesired ⊢
  rw [rePartitionV2, hvalid, ok_bind]
  simp only [hdesired, ok_bind, hsetLen, hprep.list_perm.length_eq, copy_buckets]
  rw [if_neg (by omega), repartitionScaleDown, hremovedEq, check_eq_ok (by omega), ok_bind, hdonate, ok_bind]
  simp only [hneedsRun, ok_bind]
  rw [check_eq_ok (by omega), ok_bind, hrun, ok_bind, pure_eq_ok]

end Partition
end Koala
