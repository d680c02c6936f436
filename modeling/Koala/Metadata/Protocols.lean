import Koala.Metadata.Migration

/-!
# The two protocols that move metadata

Under the lazy protocol each worker that the owner changes name as a source extracts once, for all destinations, and
sends what it found over its peer channels (`fastForward`).  Under stop-and-restart each worker that the migration plan
names as a destination calls each of its sources with the bucket ranges it takes over (`stopAndRestart`).  Both meet
`Laws`, so `transfers_iff` says for both when a transfer is exact.
-/

namespace Koala
namespace Metadata

open Lib Lib.Outcome Lib.Json Network Setting
open Partition (WorkerID BucketID BucketRange OwnerChanges ExactChanges MigrationInfo PlanOf generateMigrationPlan
  generateMigrationPlan_planOf plannedFor)

/-- Two routing tables of an operator, the owner changes between them, and the plan made from these. -/
structure Repartition where
  old : List WorkerID
  new : List WorkerID
  length_eq : new.length = old.length
  pos : 0 < old.length
  bucketOwnerChanges : OwnerChanges
  exact : ExactChanges old new bucketOwnerChanges
  migrationPlan : GoMap WorkerID (List MigrationInfo)
  planned : generateMigrationPlan bucketOwnerChanges = .ok migrationPlan

namespace Repartition

variable (r : Repartition) (cfg : Setting)

def home (k : cfg.Key) : WorkerID := cfg.getOwnerWorkerUponReconfig r.old k

def owner (k : cfg.Key) : WorkerID := cfg.getOwnerWorkerUponReconfig r.new k

/-- The buckets of the request of a destination to a source, as `MigrateTaskMetadata` expands them. -/
def affectedBuckets (source dst : WorkerID) : List BucketID :=
  (((plannedFor r.migrationPlan dst).find? fun info => info.source = source).map fun info =>
    info.bucketRanges.flatMap BucketRange.buckets).getD []

theorem planOf : PlanOf r.bucketOwnerChanges r.migrationPlan := by
  obtain ⟨plan, hplan, hof⟩ := generateMigrationPlan_planOf r.exact
  obtain rfl := Outcome.ok.inj (r.planned.symm.trans hplan)
  exact hof

theorem affectedBuckets_eq (source dst : WorkerID) :
    r.affectedBuckets source dst = r.bucketOwnerChanges.moved source dst := by
  unfold affectedBuckets
  cases hfind : (plannedFor r.migrationPlan dst).find? fun info => info.source = source with
  | none =>
    refine (not_not.mp fun hne => ?_ : r.bucketOwnerChanges.moved source dst = []).symm
    obtain ⟨info, hinfo, hsource⟩ := (r.planOf.sources source dst).mpr hne
    exact List.find?_eq_none.mp hfind info hinfo (by simpa using hsource)
  | some info =>
    have hsource : info.source = source := by simpa using List.find?_some hfind
    rw [← hsource]
    exact r.planOf.expand dst info (List.mem_of_find?_eq_some hfind)

theorem mem_moved {k : cfg.Key} {source dst : WorkerID} :
    cfg.getBucketIdx r.old.length k ∈ r.bucketOwnerChanges.moved source dst ↔
      r.home cfg k = source ∧ r.owner cfg k = dst ∧ source ≠ dst := by
  have hlt : cfg.getBucketIdx r.old.length k < r.old.length := Nat.mod_lt _ r.pos
  have hlt' : cfg.getBucketIdx r.old.length k < r.new.length := r.length_eq ▸ hlt
  have hhome : r.old[cfg.getBucketIdx r.old.length k]? = some (r.home cfg k) := by
    unfold home getOwnerWorkerUponReconfig
    rw [List.getD_eq_getElem?_getD]
    show r.old[cfg.getBucketIdx r.old.length k]? = some (r.old[cfg.getBucketIdx r.old.length k]?.getD 0)
    rw [List.getElem?_eq_getElem hlt]
    rfl
  have howner : r.new[cfg.getBucketIdx r.old.length k]? = some (r.owner cfg k) := by
    unfold owner getOwnerWorkerUponReconfig
    rw [List.getD_eq_getElem?_getD, r.length_eq]
    show r.new[cfg.getBucketIdx r.old.length k]? = some (r.new[cfg.getBucketIdx r.old.length k]?.getD 0)
    rw [List.getElem?_eq_getElem hlt']
    rfl
  rw [r.exact.moved_iff, hhome, howner, Option.some.injEq, Option.some.injEq]

/-! ## Lazy migration -/

/-- `ConstructFastForwardMetadata` at the sources, `ProcessFastForwardMetadata` at the destinations. -/
def fastForward : Path cfg where
  Job := WorkerID
  jobs := AList.keys r.bucketOwnerChanges
  sender := id
  extract := cfg.constructFastForwardMetadata r.new
  insert := cfg.processFastForwardMetadata

theorem home_mem_keys {k : cfg.Key} (hne : r.home cfg k ≠ r.owner cfg k) :
    r.home cfg k ∈ AList.keys r.bucketOwnerChanges := by
  have hmoved := (r.mem_moved cfg (k := k)).mpr ⟨rfl, rfl, hne⟩
  refine (GoMap.mem_keys_iff r.bucketOwnerChanges _).mpr ?_
  cases hget : r.bucketOwnerChanges.get (r.home cfg k) with
  | none => simp [OwnerChanges.moved, hget] at hmoved
  | some dests => rfl

def fastForwardLaws : Laws (r.fastForward cfg) (r.home cfg) (r.owner cfg) where
  jobOf s _ := s
  dest := cfg.forwardDest r.new
  wrap := cfg.frame
  fits := FitsFrame
  failed := .decode
  extracts := constructFastForwardMetadata_extracts r.new
  inserts := processFastForwardMetadata_inserts
  sender_jobOf _ _ := rfl
  dest_jobOf k hne := forwardDest_eq_some.mpr ⟨rfl, Ne.symm hne⟩
  dest_eq j k d hdest := by
    obtain ⟨rfl, hne⟩ := forwardDest_eq_some.mp hdest
    exact ⟨rfl, hne, id⟩
  jobOf_mem k hne := r.home_mem_keys cfg hne
  sent j order listing index messages index' d hgood hok hd :=
    ⟨rfl, .inl (constructFastForwardMetadata_content hgood hok hd)⟩

/-! ## Stop-and-restart -/

/-- `MigrateTaskMetadata` for the calls of the plan, `InsertMigratedMetadata` at the callers. -/
def stopAndRestart : Path cfg where
  Job := WorkerID × WorkerID
  jobs := r.migrationPlan.pairs.flatMap fun e => e.2.map fun info => (info.source, e.1)
  sender := Prod.fst
  extract j order listing index := do
    let (metadata, index) ← cfg.fetchMetadataForMigration r.old.length (r.affectedBuckets j.1 j.2) order
      (listing j.2) index
    pure ((∅ : GoMap WorkerID Bytes).set j.2 metadata, index)
  insert := cfg.insertMigratedMetadata

theorem fetchDest_eq_some {k : cfg.Key} {source dst d : WorkerID} :
    cfg.fetchDest r.old.length (r.affectedBuckets source dst) dst k = some d ↔
      d = dst ∧ r.home cfg k = source ∧ r.owner cfg k = dst ∧ source ≠ dst := by
  unfold fetchDest
  rw [affectedBuckets_eq, ← r.mem_moved cfg]
  split_ifs with hmoved
  · rw [Option.some.injEq, and_iff_left hmoved]
    exact eq_comm
  · exact iff_of_false nofun fun h => hmoved h.2

def stopAndRestartLaws : Laws (r.stopAndRestart cfg) (r.home cfg) (r.owner cfg) where
  jobOf s d := (s, d)
  dest j := cfg.fetchDest r.old.length (r.affectedBuckets j.1 j.2) j.2
  wrap := id
  fits _ := True
  failed := .deserialize
  extracts j := fetchMetadataForMigration_extracts r.old.length (r.affectedBuckets j.1 j.2) j.2
  inserts := insertMigratedMetadata_inserts
  sender_jobOf _ _ := rfl
  dest_jobOf k hne := (r.fetchDest_eq_some cfg).mpr ⟨rfl, rfl, rfl, hne⟩
  dest_eq j k d hdest := by
    obtain ⟨rfl, hhome, howner, hne⟩ := (r.fetchDest_eq_some cfg).mp hdest
    exact ⟨howner.symm, Ne.symm hne, fun _ => by rw [hhome]; rfl⟩
  jobOf_mem k hne := by
    have hmoved := (r.mem_moved cfg (k := k)).mpr ⟨rfl, rfl, hne⟩
    obtain ⟨info, hinfo, hsource⟩ := (r.planOf.sources _ _).mpr (List.ne_nil_of_mem hmoved)
    unfold plannedFor at hinfo
    cases hplanned : r.migrationPlan.get (r.owner cfg k) with
    | none => simp [hplanned] at hinfo
    | some infos =>
      rw [hplanned] at hinfo
      exact List.mem_flatMap.mpr ⟨(_, infos), (GoMap.mem_pairs _ _ _).mpr hplanned,
        List.mem_map.mpr ⟨info, hinfo, by rw [hsource]⟩⟩
  sent j order listing index messages index' d _ hok hd := by
    obtain ⟨⟨metadata, index₁⟩, -, hpure⟩ := bind_eq_ok.mp hok
    cases hpure
    rw [GoMap.get_set] at hd
    split_ifs at hd with heq
    · exact ⟨by rw [heq]; rfl, .inr fun _ => trivial⟩
    · exact absurd rfl hd

end Repartition

inductive Protocol where
  | fastForward
  | stopAndRestart
  deriving DecidableEq, Repr

namespace Protocol

def path (cfg : Setting) (r : Repartition) : Protocol → Path cfg
  | .fastForward => r.fastForward cfg
  | .stopAndRestart => r.stopAndRestart cfg

/-- The texts that a message has room for: the peer channel writes their length as a `uint32`. -/
def Fits : Protocol → Bytes → Prop
  | .fastForward => FitsFrame
  | .stopAndRestart => fun _ => True

end Protocol

/-- **Metadata moves exactly**, without an abort and to the end, if and only if every entry that changes its worker has
a key that JSON accepts and gives back, and the texts have room in their messages. -/
theorem metadata_transfers_iff (cfg : Setting) (protocol : Protocol) (r : Repartition)
    (p : Placement cfg (r.home cfg)) :
    Transfers (protocol.path cfg r) (r.owner cfg) p ↔ Transferable protocol.Fits (r.owner cfg) p := by
  cases protocol with
  | fastForward => exact transfers_iff (r.fastForwardLaws cfg) p
  | stopAndRestart => exact transfers_iff (r.stopAndRestartLaws cfg) p

/-- The only bucket goes from worker 0 to worker 1. -/
def handOff : Repartition where
  old := [0]
  new := [1]
  length_eq := rfl
  pos := Nat.one_pos
  bucketOwnerChanges := Partition.computeBucketOwnerChanges [0] [1]
  exact := Partition.computeBucketOwnerChanges_exact [0] [1]
  migrationPlan := (∅ : GoMap WorkerID (List MigrationInfo)).set 1 [⟨0, [⟨0, 0⟩]⟩]
  planned := by rfl

/-- The codec of `Bool`. -/
def flag : Codec Bool := Codec.varint.retract Bool.toNat (fun n => n != 0) (by decide)

/-- Tumbling windows with string keys. -/
def stringSetting : Setting where
  kind := .string
  op := .tumblingWindow
  mus := varintCodecs
  hash _ := 0
  json := .ofCodec _ (.list .varint (.pair varintCodecs.int64 (.list .varint (.pair varintCodecs.string flag))))

/-- Two windows that start at 0, with the keys `"\xfe"` and `"\xff"`. -/
def twoWindows : Placement stringSetting (handOff.home stringSetting) where
  index
    | 0 => ((∅ : NestedMap Int64 Bytes Unit).set 0 [0xfe] ()).set 0 [0xff] ()
    | _ + 1 => (∅ : NestedMap Int64 Bytes Unit)
  good _ _ _ _ _ := trivial
  placed
    | 0, _, _, _ => rfl
    | _ + 1, _, _, hget => absurd rfl hget

/-- Worker 1 fetches the windows and inserts them. -/
def fetchTwoWindows : List (handOff.stopAndRestart stringSetting).Action :=
  [.extract (0, 1) ⟨VisitOrder.asListed _ _, VisitOrder.asListed _ _⟩
      fun _ => [(0, [([0xfe], true), ([0xff], true)])],
    .insert 0 1 ⟨VisitOrder.asListed _ _, VisitOrder.asListed _ _⟩]

/-- Whether a worker has a window of the key that starts at 0. -/
def hasWindow (index : stringSetting.Index) (k : Bytes) : Bool := ((index : NestedMap Int64 Bytes Unit).get 0 k).isSome

/-- The two windows become one, of a key that neither of them has. -/
theorem transfer_merges_keys :
    ((handOff.stopAndRestart stringSetting).machine twoWindows.index).replay ⟨twoWindows.index, fun _ => false, ∅⟩
      fetchTwoWindows (fun st => AList.keys st.flight = [] ∧ !hasWindow (st.index 0) [0xfe] ∧
        !hasWindow (st.index 0) [0xff] ∧ !hasWindow (st.index 1) [0xfe] ∧ !hasWindow (st.index 1) [0xff] ∧
        hasWindow (st.index 1) Utf8.replacement) = true := by
  decide +kernel

end Metadata
end Koala
