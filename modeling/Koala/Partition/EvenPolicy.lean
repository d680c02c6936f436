import Koala.Lib.Outcome
import Koala.Partition.OwnerChanges

/-!
# The even partition policy

`internal/keyby/partition/evenPartitionPolicy.go`, function by function.  A bucket list is modelled by its
owner column: the policy copies and rewrites `BucketV2.WorkerID` only, and every `Map` it is given is nil.

The two donor loops (`for need > 0`) are written with an iteration budget `fuel`; a loop that would go round
empty donors forever is `stuck` for every budget.  Go ranges over a map in an unspecified order; the loops
that do so here only sum and group, so the model visits the keys in the order the map was built.
-/

namespace Koala
namespace Partition

open Lib Lib.Outcome

/-- The ways a partition policy kills the process: its `log.Fatalf` calls, and Go's own checks.  The last three
occur in the policies of `Partition.Policies` only. -/
inductive PolicyAbort where
  | noWorkerToGenerate
  | fewerBucketsThanWorkers
  | newWorkerListInvalid
  | duplicateWorker (w : WorkerID)
  | workersUnchanged (n : Nat)
  | scaleUpMissingExisting (w : WorkerID)
  | scaleDownContainsNew (w : WorkerID)
  | noWorkerForDesired
  | noNewWorker
  | existingMissingDesired (w : WorkerID)
  | existingDesiresMore (w : WorkerID) (desired owned : Nat)
  | noDonorBucket
  | newWorkerMissingDesired (w : WorkerID)
  | newWorkerDesiresZero (w : WorkerID)
  | notEnoughDonated (w : WorkerID) (need : Nat) (remaining : Int)
  | noRemovedWorker
  | removedNotFound (w : WorkerID)
  | remainingMissingDesired (w : WorkerID)
  | remainingDesiresFewer (w : WorkerID) (desired owned : Nat)
  | donationDiffersFromNeed (donation need : Nat)
  | indexOutOfRange
  | noWorkerForTokens
  | existingBucketListInvalid
  | nilBucket
  deriving DecidableEq, Repr

/-- The text the source prints with each abort. -/
def PolicyAbort.message : PolicyAbort → String
  | noWorkerToGenerate => "No worker to generate buckets"
  | fewerBucketsThanWorkers => "Number of buckets is less than number of workers"
  | newWorkerListInvalid => "New worker list invalid"
  | duplicateWorker w => s!"Updated worker list invalid: duplicate worker {w}"
  | workersUnchanged n => s!"Updated worker list invalid: number of workers unchanged ({n})"
  | scaleUpMissingExisting w => s!"Scale-up invalid: existing worker {w} missing in updated list"
  | scaleDownContainsNew w => s!"Scale-down invalid: updated list contains new worker {w}"
  | noWorkerForDesired => "No worker to generate desired bucket distribution"
  | noNewWorker => "Scale-up invalid: no new worker found"
  | existingMissingDesired w => s!"Scale-up invalid: existing worker {w} missing desired count"
  | existingDesiresMore w desired owned =>
    s!"Scale-up invalid: existing worker {w} desires {desired} buckets but only owns {owned} buckets"
  | noDonorBucket => "Scale-up invalid: no donor bucket found"
  | newWorkerMissingDesired w => s!"Scale-up invalid: new worker {w} missing desired count"
  | newWorkerDesiresZero w => s!"Scale-up invalid: new worker {w} desires 0 buckets"
  | notEnoughDonated w need remaining =>
    s!"Scale-up invalid: not enough donated buckets for new worker {w} (need {need}, remaining {remaining})"
  | noRemovedWorker => "Scale-down invalid: no removed worker found"
  | removedNotFound w => s!"Scale-down invalid: removed worker {w} not found in existing buckets"
  | remainingMissingDesired w => s!"Scale-down invalid: remaining worker {w} missing desired count"
  | remainingDesiresFewer w desired owned =>
    s!"Scale-down invalid: remaining worker {w} desires {desired} buckets but already owns {owned} buckets"
  | donationDiffersFromNeed donation need =>
    s!"Scale-down invalid: donation ({donation}) != need ({need})"
  | indexOutOfRange => "runtime error: index out of range"
  | noWorkerForTokens => "No worker to generate tokens"
  | existingBucketListInvalid => "Existing bucket list invalid"
  | nilBucket => "runtime error: invalid memory address or nil pointer dereference"

/-- The share of the worker at position `i` among `n`: `base`, plus one for the first `rem` positions. -/
def share (numBuckets n i : Nat) : Nat :=
  numBuckets / n + if i < numBuckets % n then 1 else 0

variable (numBuckets : Nat)

/-- `GenerateBucketsV2`: consecutive runs of buckets, one run per worker in list order. -/
def generateBucketsV2 (workers : List WorkerID) : Outcome PolicyAbort (List WorkerID) := do
  check (workers.length = 0) .noWorkerToGenerate
  check (numBuckets < workers.length) .fewerBucketsThanWorkers
  pure (workers.zipIdx.flatMap fun (w, i) => List.replicate (share numBuckets workers.length i) w)

variable (updatedWorkers : List WorkerID)

/-- The set `updatedWorkerSet`, with the duplicate check. -/
def buildUpdatedWorkerSet : Outcome PolicyAbort (GoMap WorkerID Unit) :=
  forEach updatedWorkers (fun set w => do
    check ((set.get w).isSome) (.duplicateWorker w)
    pure (set.set w ())) ∅

/-- What `validateAndPrepareRepartition` learns from the old bucket list. -/
structure ExistingWorkers where
  /-- existing workers in the order they are first seen -/
  existingWorkerList : List WorkerID
  /-- bucket ids per existing worker, ascending -/
  bucketsByExistingWorker : GoMap WorkerID (List BucketID)

/-- One iteration of the scan over the old buckets. -/
def ExistingWorkers.visit (info : ExistingWorkers) (bucket : WorkerID × BucketID) : ExistingWorkers where
  existingWorkerList :=
    if (info.bucketsByExistingWorker.get bucket.1).isSome then info.existingWorkerList
    else info.existingWorkerList ++ [bucket.1]
  bucketsByExistingWorker :=
    info.bucketsByExistingWorker.set bucket.1
      ((info.bucketsByExistingWorker.get bucket.1).getD [] ++ [bucket.2])

/-- The scan over the old buckets. -/
def collectExisting (oldBuckets : List WorkerID) : ExistingWorkers :=
  oldBuckets.zipIdx.foldl ExistingWorkers.visit ⟨[], ∅⟩

/-- `validateAndPrepareRepartition`. -/
def validateAndPrepareRepartition (updatedWorkers oldBuckets : List WorkerID) :
    Outcome PolicyAbort (GoMap WorkerID Unit × ExistingWorkers) := do
  check (updatedWorkers.length = 0) .newWorkerListInvalid
  check (numBuckets < updatedWorkers.length) .fewerBucketsThanWorkers
  let updatedWorkerSet ← buildUpdatedWorkerSet updatedWorkers
  let info := collectExisting oldBuckets
  let nUpdated := updatedWorkerSet.keys.length
  let nExisting := info.bucketsByExistingWorker.keys.length
  check (nUpdated = nExisting) (.workersUnchanged nUpdated)
  if nUpdated > nExisting then
    forEach info.bucketsByExistingWorker.keys
      (fun _ w => check ((updatedWorkerSet.get w).isNone) (.scaleUpMissingExisting w)) ()
  else
    forEach updatedWorkerSet.keys
      (fun _ w => check ((info.bucketsByExistingWorker.get w).isNone) (.scaleDownContainsNew w)) ()
  pure (updatedWorkerSet, info)

/-- `getDesiredCountsPerWorker`. -/
def getDesiredCountsPerWorker : Outcome PolicyAbort (GoMap WorkerID Nat) := do
  check (updatedWorkers.length = 0) .noWorkerForDesired
  pure (updatedWorkers.zipIdx.foldl
    (fun desired (w, i) => desired.set w (share numBuckets updatedWorkers.length i)) ∅)

/-! ## The donor loops -/

/-- The variables the donor loops of both directions work on. -/
structure Transfer where
  donorBuckets : GoMap WorkerID (List BucketID)
  donorIdx : Nat
  newBuckets : List WorkerID
  bucketOwnerChanges : OwnerChanges

/-- The bucket list of a donor; a missing entry counts as empty, as in the source. -/
def Transfer.pool (st : Transfer) (w : WorkerID) : List BucketID :=
  (st.donorBuckets.get w).getD []

/-- One iteration of `for need > 0`: the cursor always advances; a donor without buckets is skipped, any
other one gives its last bucket to the recipient. -/
def Transfer.next (donors : List WorkerID) (recipient : WorkerID) (s : Nat × Transfer) :
    Outcome PolicyAbort (Nat × Transfer) :=
  let (need, st) := s
  match donors[st.donorIdx]? with
  | none => .abort .indexOutOfRange
  | some donor =>
    let st := { st with donorIdx := (st.donorIdx + 1) % donors.length }
    match (st.pool donor).getLast? with
    | none => .ok (need, st)
    | some bucketID =>
      if bucketID < st.newBuckets.length then
        .ok (need - 1, { st with
            donorBuckets := st.donorBuckets.set donor (st.pool donor).dropLast
            newBuckets := st.newBuckets.set bucketID recipient
            bucketOwnerChanges := st.bucketOwnerChanges.record donor recipient bucketID })
      else .abort .indexOutOfRange

variable (fuel : Nat)

/-- `for need > 0 { … }`: serve one recipient. -/
def Transfer.fill (donors : List WorkerID) (recipient : WorkerID) (need : Nat)
    (st : Transfer) : Outcome PolicyAbort Transfer := do
  let s ← whileLoop (fun s : Nat × Transfer => decide (0 < s.1)) (Transfer.next donors recipient) fuel (need, st)
  pure s.2

variable (desiredCounts : GoMap WorkerID Nat) (bucketsByExistingWorker : GoMap WorkerID (List BucketID)) (p : GoMap WorkerID (List BucketID) × Nat)

/-- One existing worker's part in a scale-up: it sheds what exceeds its desired count, from the end of its
bucket list. -/
def offerExcess (w : WorkerID) : Outcome PolicyAbort (GoMap WorkerID (List BucketID) × Nat) :=
  let bucketList := (bucketsByExistingWorker.get w).getD []
  match desiredCounts.get w with
  | none => .abort (.existingMissingDesired w)
  | some desired => do
    check (bucketList.length < desired) (.existingDesiresMore w desired bucketList.length)
    let excess := bucketList.length - desired
    if excess = 0 then pure p
    else pure (p.1.set w (bucketList.drop (bucketList.length - excess)), p.2 + excess)

/-- One new worker's part in a scale-up.  The source lowers `need` and `remainingDonation` together in the
donor loop, which reads only `need`; here the second counter is lowered when the loop is left. -/
def serveNewWorker (donors : List WorkerID)
    (p : Transfer × Int) (w : WorkerID) : Outcome PolicyAbort (Transfer × Int) :=
  match desiredCounts.get w with
  | none => .abort (.newWorkerMissingDesired w)
  | some need => do
    check (need = 0) (.newWorkerDesiresZero w)
    check (p.2 < need) (.notEnoughDonated w need p.2)
    let st ← Transfer.fill fuel donors w need p.1
    pure (st, p.2 - need)

/-- `repartitionScaleUp`. -/
def repartitionScaleUp (updatedWorkers : List WorkerID) (desiredCounts : GoMap WorkerID Nat)
    (info : ExistingWorkers) (newBuckets : List WorkerID) : Outcome PolicyAbort Transfer := do
  let newWorkers := updatedWorkers.filter fun w => (info.bucketsByExistingWorker.get w).isNone
  check (newWorkers.length = 0) .noNewWorker
  let (donorBuckets, totalDonation) ←
    forEach info.bucketsByExistingWorker.keys (offerExcess desiredCounts info.bucketsByExistingWorker) (∅, 0)
  check (totalDonation = 0) .noDonorBucket
  let (st, _) ← forEach newWorkers (serveNewWorker fuel desiredCounts info.existingWorkerList)
    (⟨donorBuckets, 0, newBuckets, ∅⟩, (totalDonation : Int))
  pure st

/-- One removed worker's part in a scale-down: it gives up everything it owns. -/
def offerAll (w : WorkerID) : Outcome PolicyAbort (GoMap WorkerID (List BucketID) × Nat) :=
  match bucketsByExistingWorker.get w with
  | none => .abort (.removedNotFound w)
  | some bucketList => pure (p.1.set w bucketList, p.2 + bucketList.length)

/-- What one remaining worker still needs to receive in a scale-down. -/
def computeNeed
    (p : GoMap WorkerID Nat × Nat) (w : WorkerID) : Outcome PolicyAbort (GoMap WorkerID Nat × Nat) :=
  let oldCount := ((bucketsByExistingWorker.get w).getD []).length
  match desiredCounts.get w with
  | none => .abort (.remainingMissingDesired w)
  | some desired => do
    check (desired < oldCount) (.remainingDesiresFewer w desired oldCount)
    let need := desired - oldCount
    if need = 0 then pure p
    else pure (p.1.set w need, p.2 + need)

/-- `repartitionScaleDown`. -/
def repartitionScaleDown (updatedWorkers : List WorkerID)
    (updatedWorkerSet : GoMap WorkerID Unit) (desiredCounts : GoMap WorkerID Nat)
    (info : ExistingWorkers) (newBuckets : List WorkerID) : Outcome PolicyAbort Transfer := do
  let removedWorkers := info.existingWorkerList.filter fun w => (updatedWorkerSet.get w).isNone
  check (removedWorkers.length = 0) .noRemovedWorker
  let (donorBuckets, totalDonation) ←
    forEach removedWorkers (offerAll info.bucketsByExistingWorker) (∅, 0)
  let (recipientNeeds, totalNeed) ←
    forEach updatedWorkers (computeNeed desiredCounts info.bucketsByExistingWorker) (∅, 0)
  check (totalNeed ≠ totalDonation) (.donationDiffersFromNeed totalDonation totalNeed)
  forEach updatedWorkers
    (fun st w => Transfer.fill fuel removedWorkers w ((recipientNeeds.get w).getD 0) st)
    ⟨donorBuckets, 0, newBuckets, ∅⟩

/-- `RePartitionV2`: the new owner column and the recorded changes. -/
def rePartitionV2 (fuel numBuckets : Nat) (updatedWorkers oldBuckets : List WorkerID) :
    Outcome PolicyAbort (List WorkerID × OwnerChanges) := do
  let (updatedWorkerSet, info) ← validateAndPrepareRepartition numBuckets updatedWorkers oldBuckets
  let desiredCounts ← getDesiredCountsPerWorker numBuckets updatedWorkers
  -- `make` zero-fills and `copy` stops at the shorter of the two slices
  let newBuckets := oldBuckets.take numBuckets ++ List.replicate (numBuckets - oldBuckets.length) 0
  let st ←
    if updatedWorkerSet.keys.length > info.existingWorkerList.length then
      repartitionScaleUp fuel updatedWorkers desiredCounts info newBuckets
    else
      repartitionScaleDown fuel updatedWorkers updatedWorkerSet desiredCounts info newBuckets
  pure (st.newBuckets, st.bucketOwnerChanges.sorted)

end Partition
end Koala
