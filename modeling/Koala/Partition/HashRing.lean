import Koala.Partition.Policies

/-!
# Minimal movement of the hash policies

Because a worker has the same tokens in every list it is on, two assignments can differ at a bucket only where one of
the two owners is missing from the other list (`Owns.agree`).  That is the minimal movement of consistent hashing.
-/

namespace Koala
namespace Partition

open Lib Lib.Outcome

/-- One of the sorts, by insertion. -/
def TokenSort.insertion : TokenSort where
  sort l := l.insertionSort fun a b => b.less a = false
  perm l := l.perm_insertionSort _
  sorted l := by
    have htotal : Std.Total (fun a b : Token => b.less a = false) := ⟨fun a b => by
      simp only [Token.less_eq_false]
      rcases lt_trichotomy a.bucketIdx b.bucketIdx with hlt | heq | hgt
      · exact .inl (.inl hlt)
      · exact (UInt64.le_total a.hashValue b.hashValue).imp (fun hle => .inr ⟨heq, hle⟩) fun hle => .inr ⟨heq.symm, hle⟩
      · exact .inr (.inl hgt)⟩
    have htrans : IsTrans Token (fun a b : Token => b.less a = false) := ⟨fun a b c hab hbc => by
      rw [Token.less_eq_false] at *
      rcases hab with hab | ⟨hab, hle⟩ <;> rcases hbc with hbc | ⟨hbc, hle'⟩
      · exact .inl (by omega)
      · exact .inl (by omega)
      · exact .inl (by omega)
      · exact .inr ⟨by omega, UInt64.le_trans hle hle'⟩⟩
    exact l.pairwise_insertionSort _

/-! ## The two policies -/

/-- The versions of the hash policy. -/
inductive HashPolicy where
  | v1 (hp : HashPartitionPolicy)
  | v2 (hp : HashPartitionPolicyV2)

namespace HashPolicy

def policy : HashPolicy → Policy
  | v1 hp => .hash hp
  | v2 hp => .hashV2 hp

def tokens : HashPolicy → List WorkerID → List Token
  | v1 hp => hp.tokens
  | v2 hp => hp.tokens

def tokenSort : HashPolicy → TokenSort
  | v1 hp => hp.tokenSort
  | v2 hp => hp.tokenSort

/-- No two of the workers have a token with the same hash value. -/
def CollisionFree (h : HashPolicy) (workers : List WorkerID) : Prop :=
  ∀ t ∈ h.tokens workers, ∀ u ∈ h.tokens workers, t.hashValue = u.hashValue → t.workerID = u.workerID

theorem generateBucketsV2_eq (h : HashPolicy) (workers : List WorkerID) :
    h.policy.generateBucketsV2 workers
      = generateFromTokens h.policy.numBuckets id 0 (fun ws => h.tokenSort.sort (h.tokens ws)) workers := by
  cases h <;> rfl

theorem generateBuckets_eq (h : HashPolicy) (workers : List WorkerID) :
    h.policy.generateBuckets workers
      = generateFromTokens h.policy.numBuckets some none (fun ws => h.tokenSort.sort (h.tokens ws)) workers := by
  cases h <;> rfl

theorem mem_tokens (h : HashPolicy) {workers : List WorkerID} {t : Token} :
    t ∈ h.tokens workers ↔ t.workerID ∈ workers ∧ t ∈ h.tokens [t.workerID] := by
  have hflat : ∀ f : WorkerID → List Token, (∀ w, ∀ u ∈ f w, u.workerID = w) →
      (t ∈ workers.flatMap f ↔ t.workerID ∈ workers ∧ t ∈ [t.workerID].flatMap f) := by
    intro f hf
    rw [List.flatMap_singleton, List.mem_flatMap]
    refine ⟨?_, fun ⟨hw, ht⟩ => ⟨t.workerID, hw, ht⟩⟩
    rintro ⟨w, hw, ht⟩
    rw [hf w t ht]
    exact ⟨hw, ht⟩
  cases h with
  | v1 | v2 =>
    refine hflat _ fun w u hu => ?_
    obtain ⟨_, -, rfl⟩ := List.mem_map.mp hu
    rfl

theorem tokens_ne_nil (h : HashPolicy) {workers : List WorkerID} (hne : workers ≠ []) : h.tokens workers ≠ [] := by
  cases h with
  | v1 hp | v2 hp => exact hp.tokens_ne_nil hne

/-- An assignment of all buckets to workers of the list, each to the worker of the token that owns it. -/
structure Assigns (h : HashPolicy) (workers buckets : List WorkerID) : Prop where
  length_eq : buckets.length = h.policy.numBuckets
  owner : ∀ i < h.policy.numBuckets, ∃ t, Owns (h.tokens workers) i t ∧ t.workerID ∈ workers
  owns : ∀ i < h.policy.numBuckets, ∀ t, Owns (h.tokens workers) i t → buckets[i]? = some t.workerID

section

variable {h : HashPolicy} {workers : List WorkerID}

theorem generateFromTokens_owns {α : Type} (bucket : WorkerID → α) (empty : α) (hne : workers ≠ [])
    (hle : workers.length ≤ h.policy.numBuckets) (hfree : h.CollisionFree workers) :
    ∃ buckets, generateFromTokens h.policy.numBuckets bucket empty (fun ws => h.tokenSort.sort (h.tokens ws)) workers
        = .ok buckets ∧ buckets.length = h.policy.numBuckets ∧
      (∀ i < h.policy.numBuckets, ∃ t, Owns (h.tokens workers) i t) ∧
      ∀ i < h.policy.numBuckets, ∀ t, Owns (h.tokens workers) i t → buckets[i]? = some (bucket t.workerID) := by
  obtain ⟨buckets, hplace, hlength, howns⟩ := placeTokens_owns bucket empty h.policy.numBuckets
    (h.tokenSort.ne_nil (h.tokens_ne_nil hne)) (h.tokenSort.sorted (h.tokens workers))
  refine ⟨buckets, ?_, hlength, fun i hi => ?_, fun i hi t ht => ?_⟩
  · unfold generateFromTokens
    rw [check_eq_ok (fun hzero => hne (List.length_eq_zero_iff.mp hzero)), ok_bind, check_eq_ok (by omega), ok_bind]
    exact hplace
  · obtain ⟨t, ht, -⟩ := howns i hi
    exact ⟨t, ht.of_perm (h.tokenSort.perm _)⟩
  · -- the token is not the only one that owns the bucket, but all that do have one worker
    obtain ⟨u, hu, hbucket⟩ := howns i hi
    have hu' := hu.of_perm (h.tokenSort.perm _)
    rw [hbucket, hfree t ht.1 u hu'.1 (ht.agree hu' ht.1 hu'.1)]

theorem generateBucketsV2_assigns (hne : workers ≠ []) (hle : workers.length ≤ h.policy.numBuckets)
    (hfree : h.CollisionFree workers) :
    ∃ buckets, h.policy.generateBucketsV2 workers = .ok buckets ∧ h.Assigns workers buckets := by
  obtain ⟨buckets, hrun, hlength, howner, howns⟩ := generateFromTokens_owns id 0 hne hle hfree
  refine ⟨buckets, by rw [generateBucketsV2_eq, hrun], hlength, fun i hi => ?_, howns⟩
  obtain ⟨t, ht⟩ := howner i hi
  exact ⟨t, ht, (h.mem_tokens.mp ht.1).1⟩

theorem Assigns.get {buckets : List WorkerID} (ha : h.Assigns workers buckets) {i : Nat} {w : WorkerID}
    (hget : buckets[i]? = some w) : ∃ t, Owns (h.tokens workers) i t ∧ t.workerID = w ∧ w ∈ workers := by
  have hi : i < h.policy.numBuckets := by
    rw [← ha.length_eq]
    exact (List.getElem?_eq_some_iff.mp hget).1
  obtain ⟨t, ht, hmem⟩ := ha.owner i hi
  have hw : t.workerID = w := Option.some.inj ((ha.owns i hi t ht).symm.trans hget)
  exact ⟨t, ht, hw, hw ▸ hmem⟩

theorem Assigns.unique {workers' buckets buckets' : List WorkerID} (ha : h.Assigns workers buckets)
    (ha' : h.Assigns workers' buckets') (hsame : ∀ w, w ∈ workers ↔ w ∈ workers') : buckets = buckets' := by
  have htokens : ∀ t, t ∈ h.tokens workers ↔ t ∈ h.tokens workers' := by
    intro t
    have hin : ∀ ws, t ∈ h.tokens ws ↔ t.workerID ∈ ws ∧ t ∈ h.tokens [t.workerID] := fun ws => h.mem_tokens
    rw [hin workers, hin workers', hsame]
  refine List.ext_getElem? fun i => ?_
  by_cases hi : i < h.policy.numBuckets
  · obtain ⟨t, ht, -⟩ := ha.owner i hi
    have ht' : Owns (h.tokens workers') i t := by
      unfold Owns at ht ⊢
      simpa only [htokens] using ht
    rw [ha.owns i hi t ht, ha'.owns i hi t ht']
  · rw [List.getElem?_eq_none (by rw [ha.length_eq]; omega), List.getElem?_eq_none (by rw [ha'.length_eq]; omega)]

/-- Where two assignments differ, one of the two owners is not in the other list. -/
theorem Assigns.moved {workers' buckets buckets' : List WorkerID} (ha : h.Assigns workers buckets)
    (ha' : h.Assigns workers' buckets') (hfree : h.CollisionFree workers) {i : Nat} {w w' : WorkerID}
    (hget : buckets[i]? = some w) (hget' : buckets'[i]? = some w') (hold : w ∈ workers') (hnew : w' ∈ workers) :
    w = w' := by
  obtain ⟨t, ht, rfl, hmem⟩ := ha.get hget
  obtain ⟨t', ht', rfl, hmem'⟩ := ha'.get hget'
  have htin : t ∈ h.tokens workers' := h.mem_tokens.mpr ⟨hold, (h.mem_tokens.mp ht.1).2⟩
  have htin' : t' ∈ h.tokens workers := h.mem_tokens.mpr ⟨hnew, (h.mem_tokens.mp ht'.1).2⟩
  exact hfree t ht.1 t' htin' (ht.agree ht' htin htin')

theorem rePartitionV2_assigns {updated buckets : List WorkerID} (hlength : buckets.length = h.policy.numBuckets)
    (hne : updated ≠ []) (hle : updated.length ≤ h.policy.numBuckets) (hfree : h.CollisionFree updated) (fuel : Nat) :
    ∃ new changes, h.policy.rePartitionV2 fuel updated buckets = .ok (new, changes) ∧ h.Assigns updated new := by
  obtain ⟨new, hrun, hassigns⟩ := generateBucketsV2_assigns hne hle hfree
  refine ⟨new, computeBucketOwnerChanges buckets new, ?_, hassigns⟩
  have hcompare : h.policy.rePartitionV2 fuel updated buckets = (do
      check (updated.length = 0) .newWorkerListInvalid
      check (buckets.length ≠ h.policy.numBuckets) .existingBucketListInvalid
      let newBuckets ← h.policy.generateBucketsV2 updated
      pure (newBuckets, computeBucketOwnerChanges buckets newBuckets)) := by
    cases h <;> rfl
  rw [hcompare, check_eq_ok (fun hzero => hne (List.length_eq_zero_iff.mp hzero)), ok_bind,
    check_eq_ok (not_not.mpr hlength), ok_bind, hrun, ok_bind, pure_eq_ok]

theorem CollisionFree.mono {updated : List WorkerID} (hfree : h.CollisionFree workers) (hsub : updated ⊆ workers) :
    h.CollisionFree updated := by
  intro t ht u hu
  have hin : ∀ v ∈ h.tokens updated, v ∈ h.tokens workers := fun v hv =>
    h.mem_tokens.mpr ⟨hsub (h.mem_tokens.mp hv).1, (h.mem_tokens.mp hv).2⟩
  exact hfree t (hin t ht) u (hin u hu)

end

/-- **Both hash policies** give each bucket to the worker of the token that owns it, whatever the order of the list.
Workers that are added only take buckets over, and workers that are removed only give theirs up. -/
theorem buckets_move_minimally (h : HashPolicy) (workers : List WorkerID) (hne : workers ≠ [])
    (hle : workers.length ≤ h.policy.numBuckets) (hfree : h.CollisionFree workers) :
    ∃ buckets, h.policy.generateBucketsV2 workers = .ok buckets ∧
      h.policy.generateBuckets workers = .ok (buckets.map some) ∧ h.Assigns workers buckets ∧
      (∀ workers', workers'.Perm workers → h.policy.generateBucketsV2 workers' = .ok buckets) ∧
      (∀ fuel updated, workers ⊆ updated → updated.length ≤ h.policy.numBuckets → h.CollisionFree updated →
        ∃ new changes, h.policy.rePartitionV2 fuel updated buckets = .ok (new, changes) ∧ h.Assigns updated new ∧
          ∀ (i : Nat) w w', buckets[i]? = some w → new[i]? = some w' → w ≠ w' → w' ∈ updated ∧ w' ∉ workers) ∧
      (∀ fuel updated, updated ≠ [] → updated ⊆ workers → updated.length ≤ h.policy.numBuckets →
        ∃ new changes, h.policy.rePartitionV2 fuel updated buckets = .ok (new, changes) ∧ h.Assigns updated new ∧
          ∀ (i : Nat) w w', buckets[i]? = some w → new[i]? = some w' → w ≠ w' → w ∈ workers ∧ w ∉ updated) := by
  obtain ⟨buckets, hrun, hassigns⟩ := generateBucketsV2_assigns hne hle hfree
  refine ⟨buckets, hrun, ?_, hassigns, ?_, ?_, ?_⟩
  · obtain ⟨pointers, hpointers, hlength, -, howns⟩ := generateFromTokens_owns some none hne hle hfree
    rw [generateBuckets_eq, hpointers]
    refine congrArg ok (List.ext_getElem? fun i => ?_)
    by_cases hi : i < h.policy.numBuckets
    · obtain ⟨t, ht, -⟩ := hassigns.owner i hi
      rw [howns i hi t ht, List.getElem?_map, hassigns.owns i hi t ht]
      rfl
    · rw [List.getElem?_eq_none (by omega), List.getElem?_eq_none (by
        rw [List.length_map, hassigns.length_eq]
        omega)]
  · intro workers' hperm
    have hne' : workers' ≠ [] := fun hnil => hne (List.nil_perm.mp (hnil ▸ hperm))
    obtain ⟨buckets', hrun', hassigns'⟩ := generateBucketsV2_assigns (h := h) hne' (hperm.length_eq ▸ hle)
      (hfree.mono hperm.subset)
    rw [hrun', hassigns.unique hassigns' fun w => hperm.mem_iff.symm]
  · intro fuel updated hsub hle' hfree'
    have hne' : updated ≠ [] := fun hnil => hne (List.subset_nil.mp (hnil ▸ hsub))
    obtain ⟨new, changes, hrun', hassigns'⟩ := rePartitionV2_assigns hassigns.length_eq hne' hle' hfree' fuel
    refine ⟨new, changes, hrun', hassigns', fun i w w' hget hget' hne => ?_⟩
    obtain ⟨-, -, -, hmem⟩ := hassigns.get hget
    obtain ⟨-, -, -, hmem'⟩ := hassigns'.get hget'
    exact ⟨hmem', fun hold => hne (hassigns.moved hassigns' hfree hget hget' (hsub hmem) hold)⟩
  · intro fuel updated hne' hsub hle'
    obtain ⟨new, changes, hrun', hassigns'⟩ := rePartitionV2_assigns hassigns.length_eq hne' hle' (hfree.mono hsub) fuel
    refine ⟨new, changes, hrun', hassigns', fun i w w' hget hget' hne => ?_⟩
    obtain ⟨-, -, -, hmem⟩ := hassigns.get hget
    obtain ⟨-, -, -, hmem'⟩ := hassigns'.get hget'
    exact ⟨hmem, fun hkept => hne (hassigns.moved hassigns' hfree hget hget' hkept (hsub hmem'))⟩

/-- Four buckets, one token for each worker, hashed to its first byte. -/
def firstByte : HashPolicy :=
  .v1 ⟨4, [fun bytes => (bytes.headD 0).toUInt64], by decide, TokenSort.insertion⟩

theorem buckets_move_minimally_firstByte :
    firstByte.policy.generateBucketsV2 [1, 2] = .ok [2, 2, 1, 2] ∧
      ∃ new changes, firstByte.policy.rePartitionV2 0 [1, 2, 3] [2, 2, 1, 2] = .ok (new, changes) ∧
        ∀ (i : Nat) w w', [2, 2, 1, 2][i]? = some w → new[i]? = some w' → w ≠ w' → w' ∈ [1, 2, 3] ∧ w' ∉ [1, 2] := by
  have hrun : firstByte.policy.generateBucketsV2 [1, 2] = .ok [2, 2, 1, 2] := by decide +kernel
  have hfree : firstByte.CollisionFree [1, 2, 3] := by
    unfold CollisionFree
    decide +kernel
  obtain ⟨buckets, hrun', -, -, -, hadd, -⟩ := buckets_move_minimally firstByte [1, 2] (by decide) (by decide)
    (hfree.mono (by decide))
  obtain rfl := ok.inj (hrun.symm.trans hrun')
  obtain ⟨new, changes, hnew, -, hmoved⟩ := hadd 0 [1, 2, 3] (by decide) (by decide) hfree
  exact ⟨hrun, new, changes, hnew, hmoved⟩

end HashPolicy

end Partition
end Koala
