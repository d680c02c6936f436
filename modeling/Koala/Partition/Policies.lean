import Koala.Partition.EvenAccepted
import Koala.Partition.MigrationPlan
import Koala.Partition.TokenRing

/-!
# The partition policies

Besides the even policy there are three more (`internal/keyby/partition`): the uniform policy, which lays out
consecutive runs of buckets afresh, and two hash policies, which place tokens of every worker on the ring of
buckets and give a token the buckets up to the next one.  Each exists for the two bucket representations of the
source, a slice of pointers (`GenerateBuckets`, `RePartition`) and a slice of values (`GenerateBucketsV2`,
`RePartitionV2`); here the first is a list of options and the second a list of owners.

`Policy.rePartition_reportsDifference` says for all of them that a call which passes its checks returns the exact
difference of the two assignments, and that the migration plan made from it asks for exactly these buckets in as
few ranges as possible.
-/

namespace Koala
namespace Partition

open Lib Lib.Outcome

/-! ## The policies -/

/-- `HashPartitionPolicy`; the constructor refuses an empty list of hash functions. -/
structure HashPartitionPolicy where
  numBuckets : Nat
  hashFuncs : List HashFunc
  nonempty : hashFuncs ≠ []
  tokenSort : TokenSort

/-- The tokens of all workers, one for every hash function. -/
def HashPartitionPolicy.tokens (hp : HashPartitionPolicy) (workers : List WorkerID) : List Token :=
  workers.flatMap fun workerID => hp.hashFuncs.map fun hashFunc =>
    let hashValue := hashFunc (Codec.varintEncode workerID)
    ⟨hashValue, hashValue.toNat % hp.numBuckets, workerID⟩

/-- `HashPartitionPolicyV2`; the constructor refuses a token number that is not positive. -/
structure HashPartitionPolicyV2 where
  numBuckets : Nat
  hashFunc : HashFunc
  numTokens : Nat
  positive : 0 < numTokens
  tokenSort : TokenSort

/-- The tokens of all workers: the hash of a worker id, hashed once more with the token's number. -/
def HashPartitionPolicyV2.tokens (hp : HashPartitionPolicyV2) (workers : List WorkerID) : List Token :=
  workers.flatMap fun workerID => (List.range hp.numTokens).map fun i =>
    let h1 := hp.hashFunc (Codec.varintEncode workerID)
    let hashValue := hp.hashFunc (FixedCodec.digits 8 h1.toNat ++ FixedCodec.digits 4 (i % 2 ^ 32))
    ⟨hashValue, hashValue.toNat % hp.numBuckets, workerID⟩

theorem HashPartitionPolicy.tokens_ne_nil (hp : HashPartitionPolicy) {workers : List WorkerID}
    (h : workers ≠ []) : hp.tokens workers ≠ [] := by
  obtain ⟨w, rest, rfl⟩ := List.exists_cons_of_ne_nil h
  obtain ⟨f, fs, hfuncs⟩ := List.exists_cons_of_ne_nil hp.nonempty
  simp [HashPartitionPolicy.tokens, hfuncs]

theorem HashPartitionPolicyV2.tokens_ne_nil (hp : HashPartitionPolicyV2) {workers : List WorkerID}
    (h : workers ≠ []) : hp.tokens workers ≠ [] := by
  obtain ⟨w, rest, rfl⟩ := List.exists_cons_of_ne_nil h
  have hpos := hp.positive
  simp only [HashPartitionPolicyV2.tokens, List.flatMap_cons, ne_eq, List.append_eq_nil_iff, List.map_eq_nil_iff,
    List.range_eq_nil, not_and_or]
  exact Or.inl (by omega)

/-- `GenerateBuckets` and `GenerateBucketsV2` of both hash policies, for a given token list. -/
def generateFromTokens {α : Type} (numBuckets : Nat) (bucket : WorkerID → α) (empty : α)
    (tokens : List WorkerID → List Token) (workers : List WorkerID) : Outcome PolicyAbort (List α) := do
  check (workers.length = 0) .noWorkerForTokens
  check (numBuckets < workers.length) .fewerBucketsThanWorkers
  placeTokens numBuckets bucket empty (tokens workers)

/-- The policies a configuration can name. -/
inductive Policy where
  | even (numBuckets : Nat)
  | uniform (numBuckets : Nat)
  | hash (hp : HashPartitionPolicy)
  | hashV2 (hp : HashPartitionPolicyV2)

namespace Policy

/-- `NumBuckets`. -/
def numBuckets : Policy → Nat
  | even n | uniform n => n
  | hash hp => hp.numBuckets
  | hashV2 hp => hp.numBuckets

/-- `GenerateBuckets`: a slice of pointers. -/
def generateBuckets : Policy → List WorkerID → Outcome PolicyAbort (List (Option WorkerID))
  | even n, workers | uniform n, workers => do
    let buckets ← Partition.generateBucketsV2 n workers
    pure (buckets.map some)
  | hash hp, workers =>
    generateFromTokens hp.numBuckets some none (fun ws => hp.tokenSort.sort (hp.tokens ws)) workers
  | hashV2 hp, workers =>
    generateFromTokens hp.numBuckets some none (fun ws => hp.tokenSort.sort (hp.tokens ws)) workers

/-- `GenerateBucketsV2`: a slice of values. -/
def generateBucketsV2 : Policy → List WorkerID → Outcome PolicyAbort (List WorkerID)
  | even n, workers | uniform n, workers => Partition.generateBucketsV2 n workers
  | hash hp, workers =>
    generateFromTokens hp.numBuckets id 0 (fun ws => hp.tokenSort.sort (hp.tokens ws)) workers
  | hashV2 hp, workers =>
    generateFromTokens hp.numBuckets id 0 (fun ws => hp.tokenSort.sort (hp.tokens ws)) workers

/-- Reading the owner of every bucket through its pointer. -/
def owners (buckets : List (Option WorkerID)) : Outcome PolicyAbort (List WorkerID) :=
  match buckets.mapM id with
  | none => .abort .nilBucket
  | some owners => .ok owners

/-- `RePartition`.  Only the even policy compares with the old assignment while it builds the new one; the
others generate a new assignment and compare afterwards. -/
def rePartition (fuel : Nat) (p : Policy) (updatedWorkers oldBuckets : List WorkerID) :
    Outcome PolicyAbort (List WorkerID × OwnerChanges) :=
  match p with
  | even n => Partition.rePartitionV2 fuel n updatedWorkers oldBuckets
  | _ => do
    check (updatedWorkers.length = 0) .newWorkerListInvalid
    check (oldBuckets.length ≠ p.numBuckets) .existingBucketListInvalid
    let newBuckets ← p.generateBuckets updatedWorkers
    let newOwners ← owners newBuckets
    pure (newOwners, computeBucketOwnerChanges oldBuckets newOwners)

/-- `RePartitionV2`. -/
def rePartitionV2 (fuel : Nat) (p : Policy) (updatedWorkers oldBuckets : List WorkerID) :
    Outcome PolicyAbort (List WorkerID × OwnerChanges) :=
  match p with
  | even n => Partition.rePartitionV2 fuel n updatedWorkers oldBuckets
  | _ => do
    check (updatedWorkers.length = 0) .newWorkerListInvalid
    check (oldBuckets.length ≠ p.numBuckets) .existingBucketListInvalid
    let newBuckets ← p.generateBucketsV2 updatedWorkers
    pure (newBuckets, computeBucketOwnerChanges oldBuckets newBuckets)

variable (p : Policy)

/-- What a call that passes its checks returns: an assignment of all buckets and the exact changes to it. -/
def Exact (old : List WorkerID) (r : List WorkerID × OwnerChanges) : Prop :=
  r.1.length = p.numBuckets ∧ ExactChanges old r.1 r.2

theorem generateBucketsV2_settles (numBuckets : Nat) (workers : List WorkerID) :
    Settles (fun buckets => buckets.length = numBuckets) (Partition.generateBucketsV2 numBuckets workers) := by
  refine .check fun hne => .check fun hle => .ok ?_
  have hsum := share_sum numBuckets workers.length (Nat.pos_of_ne_zero hne)
  have hpositions : workers.zipIdx.map Prod.snd = List.range workers.length := by
    rw [List.zipIdx_map_snd, List.range_eq_range']
  rw [← hpositions, List.map_map] at hsum
  simp only [List.length_flatMap, List.length_replicate]
  exact hsum

/-- **Every bucket gets an owner.** -/
theorem generateFromTokens_settles {α : Type} {numBuckets : Nat} (bucket : WorkerID → α) (empty : α) (s : TokenSort)
    {tokens : List WorkerID → List Token} (hne : ∀ {workers}, workers ≠ [] → tokens workers ≠ [])
    (workers : List WorkerID) :
    Settles (fun buckets => buckets.length = numBuckets ∧ ∀ i < numBuckets, ∃ w, buckets[i]? = some (bucket w))
      (generateFromTokens numBuckets bucket empty (fun ws => s.sort (tokens ws)) workers) := by
  refine .check fun hpos => .check fun _ => ?_
  obtain ⟨buckets, hrun, hlen, howns⟩ := placeTokens_owns bucket empty numBuckets
    (s.ne_nil (hne fun h => hpos (by rw [h]; rfl))) (s.sorted (tokens workers))
  rw [hrun]
  refine .ok ⟨hlen, fun i hi => ?_⟩
  obtain ⟨t, -, ht⟩ := howns i hi
  exact ⟨t.workerID, ht⟩

theorem owners_ok {buckets : List (Option WorkerID)} (h : ∀ i < buckets.length, ∃ w, buckets[i]? = some (some w)) :
    ∃ ws, owners buckets = .ok ws ∧ ws.length = buckets.length := by
  have hall : ∃ ws : List WorkerID, buckets = ws.map some := by
    induction buckets with
    | nil => exact ⟨[], rfl⟩
    | cons b _ ih =>
      obtain ⟨w, hw⟩ := h 0 (by simp)
      obtain rfl : b = some w := by simpa using hw
      obtain ⟨ws, rfl⟩ := ih fun i hi => by simpa using h (i + 1) (by simpa using hi)
      exact ⟨w :: ws, rfl⟩
  obtain ⟨ws, rfl⟩ := hall
  have hread : (ws.map some).mapM id = some ws := by
    induction ws with
    | nil => rfl
    | cons _ _ ih =>
      have hrest := ih fun i hi => by simpa using h (i + 1) (by simpa using hi)
      simp [hrest]
  exact ⟨ws, by rw [owners, hread], by simp⟩

theorem generateBuckets_settles (workers : List WorkerID) :
    Settles (fun buckets => buckets.length = p.numBuckets ∧
        ∀ i < p.numBuckets, ∃ w, buckets[i]? = some (some w)) (p.generateBuckets workers) := by
  have huniform : ∀ n, Settles (fun buckets : List (Option WorkerID) => buckets.length = n ∧
      ∀ i < n, ∃ w, buckets[i]? = some (some w)) (do
        let buckets ← Partition.generateBucketsV2 n workers
        pure (buckets.map some)) := by
    intro n
    refine (generateBucketsV2_settles n workers).bind fun buckets hlen => .ok ⟨by simpa using hlen, fun i hi => ?_⟩
    rw [← hlen] at hi
    exact ⟨buckets[i], by rw [List.getElem?_map, List.getElem?_eq_getElem hi]; rfl⟩
  cases p with
  | even n | uniform n => exact huniform n
  | hash hp | hashV2 hp =>
    exact generateFromTokens_settles some none hp.tokenSort hp.tokens_ne_nil workers

theorem generateBucketsV2_length (workers : List WorkerID) :
    Settles (fun buckets => buckets.length = p.numBuckets) (p.generateBucketsV2 workers) := by
  cases p with
  | even n | uniform n => exact generateBucketsV2_settles n workers
  | hash hp | hashV2 hp =>
    exact (generateFromTokens_settles id 0 hp.tokenSort hp.tokens_ne_nil workers).imp fun _ h => h.1

variable (updated : List WorkerID) {old : List WorkerID}

theorem compare_settles :
    Settles (p.Exact old) (do
      check (updated.length = 0) .newWorkerListInvalid
      check (old.length ≠ p.numBuckets) .existingBucketListInvalid
      let newBuckets ← p.generateBuckets updated
      let newOwners ← owners newBuckets
      pure (newOwners, computeBucketOwnerChanges old newOwners)) := by
  refine .check fun _ => .check fun _ => (p.generateBuckets_settles updated).bind ?_
  rintro buckets ⟨hlen, hset⟩
  obtain ⟨ws, hread, hws⟩ := owners_ok fun i hi => hset i (hlen ▸ hi)
  rw [hread, ok_bind]
  exact .ok ⟨hws.trans hlen, computeBucketOwnerChanges_exact old ws⟩

theorem compareV2_settles :
    Settles (p.Exact old) (do
      check (updated.length = 0) .newWorkerListInvalid
      check (old.length ≠ p.numBuckets) .existingBucketListInvalid
      let newBuckets ← p.generateBucketsV2 updated
      pure (newBuckets, computeBucketOwnerChanges old newBuckets)) := by
  refine .check fun _ => .check fun _ => (p.generateBucketsV2_length updated).bind fun buckets hlen => .ok ?_
  exact ⟨hlen, computeBucketOwnerChanges_exact old buckets⟩

variable {fuel : Nat} {old : List WorkerID}

theorem rePartition_settles (hlen : old.length = p.numBuckets)
    (hfuel : p.numBuckets * p.numBuckets ≤ fuel) : Settles (p.Exact old) (p.rePartition fuel updated old) := by
  cases p with
  | even => exact rePartitionV2_exact updated hlen hfuel
  | uniform n => exact (uniform n).compare_settles updated
  | hash hp => exact (hash hp).compare_settles updated
  | hashV2 hp => exact (hashV2 hp).compare_settles updated

theorem rePartitionV2_settles (hlen : old.length = p.numBuckets)
    (hfuel : p.numBuckets * p.numBuckets ≤ fuel) : Settles (p.Exact old) (p.rePartitionV2 fuel updated old) := by
  cases p with
  | even => exact rePartitionV2_exact updated hlen hfuel
  | uniform n => exact (uniform n).compareV2_settles updated
  | hash hp => exact (hash hp).compareV2_settles updated
  | hashV2 hp => exact (hashV2 hp).compareV2_settles updated

/-- The report `r` and every plan made from it, in whatever order its maps are visited, are the difference
between `old` and the new assignment. -/
def ReportsDifference (old : List WorkerID) (r : List WorkerID × OwnerChanges) : Prop :=
  p.Exact old r ∧ ∀ changes, ExactChanges old r.1 changes →
    ∃ plan, generateMigrationPlan changes = .ok plan ∧ PlanOf r.2 plan

theorem Exact.reportsDifference {p : Policy} {r : List WorkerID × OwnerChanges} (h : p.Exact old r) :
    p.ReportsDifference old r := by
  refine ⟨h, fun changes hchanges => ?_⟩
  obtain ⟨plan, hrun, hplan⟩ := generateMigrationPlan_planOf hchanges
  exact ⟨plan, hrun, hplan.congr h.2 hchanges⟩

/-- **Owner changes and migration plan are the exact difference of the partition tables.**  For every policy,
every old assignment of its buckets and every worker list, a repartition with either bucket representation ends:
it refuses the list, or the reported changes are the buckets whose owner differs, each once and ascending under
its old and new owner, and the plan asks for exactly these buckets in ranges that cannot be merged. -/
theorem rePartition_reportsDifference (p : Policy) (updated : List WorkerID) (hlen : old.length = p.numBuckets)
    (hfuel : p.numBuckets * p.numBuckets ≤ fuel) :
    Settles (p.ReportsDifference old) (p.rePartition fuel updated old) ∧
      Settles (p.ReportsDifference old) (p.rePartitionV2 fuel updated old) :=
  ⟨(p.rePartition_settles updated hlen hfuel).imp fun _ h => h.reportsDifference,
    (p.rePartitionV2_settles updated hlen hfuel).imp fun _ h => h.reportsDifference⟩

/-- Three buckets of worker 0 are shared with worker 1: the last one moves. -/
theorem rePartition_reportsDifference_grow :
    ∃ r, (uniform 3).rePartitionV2 9 [0, 1] [0, 0, 0] = .ok r ∧ (uniform 3).ReportsDifference [0, 0, 0] r ∧
      r.2.moved 0 1 = [2] := by
  have hrun : (uniform 3).rePartitionV2 9 [0, 1] [0, 0, 0]
      = .ok ([0, 0, 1], computeBucketOwnerChanges [0, 0, 0] [0, 0, 1]) := rfl
  exact ⟨_, hrun, (rePartition_reportsDifference (uniform 3) [0, 1] rfl (by decide)).2.of_ok hrun, rfl⟩

end Policy

end Partition
end Koala
