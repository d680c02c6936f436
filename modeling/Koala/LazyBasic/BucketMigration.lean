import Koala.Keyby.KeyLookupTable
import Koala.Lib.HandOver
import Koala.Lib.Machine
import Koala.StopRestart.Pull
import Mathlib.Data.List.Dedup

/-!
# Lazy-basic: migrating buckets on the first read

In the lazy-basic protocol a reconfiguration moves no state.  Every worker keeps a `StateLookupTable` that says
who holds each bucket, and a batch read that meets a bucket held elsewhere first pulls the whole bucket from
the worker the table names (`migrateRemoteBuckets`, `state/stateServiceUtil.go`).  That worker answers from its
backend and notes the reader as the new holder (`RemoteBucketMigration`, `worker/stateCommRpcApi.go`); it dies
if its own table does not name itself.  Nobody else is told.  A new task starts with the table the coordinator
made when the job was started (`initializeTargetTasksLazy`): `StateLookupTables` is never written again.

A batch read is one step here.  The requests of a read go to different workers and touch different buckets, and
the model runs them one after the other in any order.
-/

namespace Koala
namespace LazyBasic

open Lib Lib.Outcome Lib.HandOver State
open Partition (WorkerID BucketID)
open Keyby (PartitionTable)
open Function (update)

/-- What stays fixed while the job runs. -/
structure Config where
  ks : KeySpace
  /-- `StateMigrationChunkSize` -/
  maxChunkSize : Nat
  /-- the coordinator's `StateLookupTables` entry of the operator -/
  initialTable : PartitionTable
  initialWorkers : List WorkerID
  initialTable_mem : ∀ b, b < ks.numBuckets → initialTable b ∈ initialWorkers

/-- The state service of one worker. -/
structure Node where
  stateLookupTable : PartitionTable
  backend : Backend

/-- A bucket migration connection: the sender at the answering worker, and what the requester has not read. -/
structure Stream where
  sender : StateChunkSender
  unread : List StateChunk

/-- The fatal errors of a bucket migration. -/
inductive Abort where
  /-- "Requested bucket %d does not belong to the local worker %d" -/
  | notOwner (bucket : BucketID) (worker : WorkerID)
  /-- "Invalid bucket chunk" -/
  | invalidChunk
  /-- the connection to the worker is missing -/
  | noConnection (worker : WorkerID)
  deriving DecidableEq, Repr

/-! ## The answering worker -/

variable (ks : KeySpace) (backend : Backend)

/-- `ReadLocalBucketRange(bucketIdx, bucketIdx)`. -/
def readBucket (b : BucketID) : List Record :=
  StopRestart.readLocalBucketRange ks backend ⟨b, b⟩

/-- The loop body of `RemoteBucketMigration`: check, read, send, give the bucket away. -/
def migrateBucket (self requester : WorkerID) (s : Node × StateChunkSender) (b : BucketID) :
    Outcome Abort (Node × StateChunkSender) := do
  check (s.1.stateLookupTable b ≠ self) (.notOwner b self)
  .ok ({ s.1 with stateLookupTable := update s.1.stateLookupTable b requester },
    s.2.send (readBucket ks s.1.backend b))

/-- `RemoteBucketMigration`: answer one request. -/
def remoteBucketMigration (self requester : WorkerID) (buckets : List BucketID) (node : Node)
    (sender : StateChunkSender) : Outcome Abort (Node × StateChunkSender) := do
  let s ← forEach buckets (migrateBucket ks self requester) (node, sender)
  .ok (s.1, s.2.flush)

/-! ## The requesting worker -/

/-- The receive loop of `migrateRemoteBucketsFromWorker`: the new backend and what stays on the stream.  On an
empty stream the receiver waits. -/
def receiveChunks : List StateChunk → Backend → Outcome Abort (Backend × List StateChunk)
  | [], _ => .stuck
  | .endOfStream :: rest, backend => .ok (backend, rest)
  | .data records :: rest, backend =>
    if records.length = 0 then .abort .invalidChunk else receiveChunks rest (backend.setMany records)

variable (table : PartitionTable) (self : WorkerID) (buckets : List BucketID)

/-- `requestedBucketIDs`: the buckets the table places elsewhere, each once, in the order of the batch. -/
def remoteBuckets : List BucketID :=
  buckets.foldl (fun requested b => if table b = self ∨ b ∈ requested then requested else requested ++ [b]) []

/-- The state of the system.  `handOvers` and `contents` are not part of the program: the bucket migrations so
far, the latest first, and the value last written under each stored key. -/
structure Sys where
  /-- the workers that host or have hosted a task of the operator -/
  deployed : List WorkerID
  node : WorkerID → Node
  /-- by requester and answering worker -/
  stream : WorkerID → WorkerID → Stream
  keyPartition : PartitionTable
  handOvers : BucketID → History WorkerID
  contents : Bytes → Option Bytes

/-- The part of a worker's request map that goes to `provider`. -/
def requestTo (remote : List BucketID) (provider : WorkerID) : List BucketID :=
  remote.filter fun b => table b = provider

variable (cfg : Config) (w : WorkerID) (remote : List BucketID)

/-- `migrateRemoteBucketsFromWorker`: one request of reader `w` and its answer. -/
def migrateRemoteBucketsFromWorker (s : Sys) (provider : WorkerID) : Outcome Abort Sys := do
  check (provider ∉ s.deployed) (.noConnection provider)
  let conn := s.stream w provider
  let answer ← remoteBucketMigration cfg.ks provider w
    (requestTo (s.node w).stateLookupTable remote provider) (s.node provider) conn.sender
  let received ← receiveChunks (conn.unread ++ answer.2.sent.drop conn.sender.sent.length) (s.node w).backend
  let node := update s.node provider answer.1
  .ok { s with
    node := update node w { node w with backend := received.1 }
    stream := update s.stream w
      (update (s.stream w) provider ⟨answer.2, received.2⟩) }

/-- The end of `migrateRemoteBuckets`: the reader notes itself as the holder of what it asked for. -/
def changeBucketOwners (s : Sys) : Sys :=
  let table := (s.node w).stateLookupTable
  { s with
    node := update s.node w
      { s.node w with stateLookupTable := fun b => if b ∈ remote then w else table b }
    handOvers := fun b => if b ∈ remote then (table b, w) :: s.handOvers b else s.handOvers b }

/-- `migrateRemoteBuckets`; `order` is the order in which the concurrent requests are made. -/
def migrateRemoteBuckets (buckets : List BucketID) (order : List WorkerID)
    (s : Sys) : Outcome Abort Sys := do
  let remote := remoteBuckets (s.node w).stateLookupTable w buckets
  if order.Perm (remote.map (s.node w).stateLookupTable).dedup then do
    let s ← forEach order (migrateRemoteBucketsFromWorker cfg w remote) s
    .ok (changeBucketOwners w remote s)
  else .stuck

/-! ## The system -/

/-- A write of the state client after its batch read. -/
inductive Update where
  | overwrite (v : Bytes)
  | merge (v : Bytes)
  | delete
  deriving DecidableEq, Repr

/-- `overwriteLocalState`, `mergeLocalState`, `deleteLocalState` for one key. -/
def Update.apply (u : Update) (k : Bytes) (backend : Backend) : Backend :=
  match u with
  | .overwrite v => backend.setMany [(k, v)]
  | .merge v => backend.mergeMany [(k, v)]
  | .delete => backend.deleteMany [k]

/-- What an update makes of the value of its key. -/
def Update.value (u : Update) (old : Option Bytes) : Option Bytes :=
  match u with
  | .overwrite v => some v
  | .merge v => some (old.getD [] ++ v)
  | .delete => none

inductive Action where
  /-- a lazy reconfiguration: the added tasks and the new key partition -/
  | reconfigure (newWorkers : List WorkerID) (partition : PartitionTable)
  /-- the remote part of a batch read of worker `w` -/
  | read (w : WorkerID) (buckets : List BucketID) (order : List WorkerID)
  /-- worker `w` writes a key of a bucket it has read -/
  | write (w : WorkerID) (k : StateKey) (u : Update)

/-- One step.  A new task has never hosted the operator before.  Only the current owner of a bucket reads it, and
the state client writes to buckets its worker has read and still holds. -/
def step (s : Sys) : Action → Outcome Abort Sys
  | .reconfigure newWorkers partition =>
    if (∀ w ∈ newWorkers, w ∉ s.deployed) ∧
        ∀ b < cfg.ks.numBuckets, partition b ∈ s.deployed ++ newWorkers then
      .ok { s with
        deployed := s.deployed ++ newWorkers
        node := fun w => if w ∈ newWorkers then ⟨cfg.initialTable, ∅⟩ else s.node w
        stream := fun w provider =>
          if w ∈ newWorkers ∨ provider ∈ newWorkers then ⟨StateChunkSender.new cfg.maxChunkSize, []⟩
          else s.stream w provider
        keyPartition := partition }
    else .stuck
  | .read w buckets order =>
    if w ∈ s.deployed ∧ ∀ b ∈ buckets, b < cfg.ks.numBuckets ∧ s.keyPartition b = w then
      migrateRemoteBuckets cfg w buckets order s
    else .stuck
  | .write w k u =>
    if w ∈ s.deployed ∧ (s.node w).stateLookupTable (cfg.ks.bucketOf k) = w then
      .ok { s with
        node := update s.node w
          { s.node w with backend := u.apply (cfg.ks.encode k) (s.node w).backend }
        contents := update s.contents (cfg.ks.encode k) (u.value (s.contents (cfg.ks.encode k))) }
    else .stuck

/-- A freshly started job: every state service has the coordinator's table and an empty backend. -/
def start : Sys where
  deployed := cfg.initialWorkers
  node := fun _ => ⟨cfg.initialTable, ∅⟩
  stream := fun _ _ => ⟨StateChunkSender.new cfg.maxChunkSize, []⟩
  keyPartition := cfg.initialTable
  handOvers := fun _ => []
  contents := fun _ => none

def machine : Machine Sys Action Abort where
  init := fun s => s = start cfg
  step := step cfg

/-! ## What one request transfers -/

section

variable {ks : KeySpace}

theorem mem_remoteBuckets (b : BucketID) :
    b ∈ remoteBuckets table self buckets ↔ b ∈ buckets ∧ table b ≠ self := by
  suffices h : ∀ requested : List BucketID,
      b ∈ buckets.foldl (fun requested b =>
          if table b = self ∨ b ∈ requested then requested else requested ++ [b]) requested
        ↔ b ∈ requested ∨ b ∈ buckets ∧ table b ≠ self by
    rw [remoteBuckets, h]
    simp
  induction buckets with
  | nil => simp
  | cons b' buckets ih =>
    intro requested
    rw [List.foldl_cons, ih, List.mem_cons]
    -- a skipped bucket is local or already listed, any other one joins the list
    split_ifs with hskip <;> grind

theorem remoteBuckets_nodup : (remoteBuckets table self buckets).Nodup := by
  suffices h : ∀ requested : List BucketID, requested.Nodup →
      (buckets.foldl (fun requested b =>
        if table b = self ∨ b ∈ requested then requested else requested ++ [b]) requested).Nodup from
    h [] List.nodup_nil
  induction buckets with
  | nil => exact fun _ h => h
  | cons b buckets ih =>
    intro requested hnodup
    rw [List.foldl_cons]
    refine ih _ ?_
    split_ifs with hskip
    · exact hnodup
    · refine hnodup.append (List.nodup_singleton b) ?_
      rintro b' hb' hlast
      rw [List.mem_singleton.mp hlast] at hb'
      exact hskip (Or.inr hb')

/-- The records of a request: the buckets one after the other. -/
def bucketRecords (ks : KeySpace) (backend : Backend) (buckets : List BucketID) : List Record :=
  (buckets.map (readBucket ks backend)).flatten

theorem mem_readBucket (b : BucketID) (k v : Bytes) :
    (k, v) ∈ readBucket ks backend b ↔ backend.get k = some v ∧ ks.InBucket b k :=
  Backend.mem_rangeQuery _ _ _ _ _

variable {buckets : List BucketID}

theorem mem_bucketRecords (hlt : ∀ b ∈ buckets, b < ks.numBuckets) (sk : StateKey) (v : Bytes) :
    (ks.encode sk, v) ∈ bucketRecords ks backend buckets
      ↔ backend.get (ks.encode sk) = some v ∧ ks.bucketOf sk ∈ buckets := by
  rw [bucketRecords, List.mem_flatten]
  constructor
  · rintro ⟨l, hl, hmem⟩
    obtain ⟨b, hb, rfl⟩ := List.mem_map.mp hl
    obtain ⟨hget, hin⟩ := (mem_readBucket _ _ _ _).mp hmem
    rw [ks.inBucket_encode sk (hlt b hb)] at hin
    exact ⟨hget, hin ▸ hb⟩
  · rintro ⟨hget, hb⟩
    refine ⟨_, List.mem_map_of_mem hb, (mem_readBucket _ _ _ _).mpr ⟨hget, ?_⟩⟩
    exact (ks.inBucket_encode sk (hlt _ hb)).mpr rfl

variable {backend : Backend}

theorem exists_encode_of_mem_bucketRecords (hkeyed : StopRestart.WellKeyed ks backend) {r : Record}
    (hr : r ∈ bucketRecords ks backend buckets) :
    backend.get r.1 = some r.2 ∧ ∃ sk, r.1 = ks.encode sk := by
  obtain ⟨l, hl, hmem⟩ := List.mem_flatten.mp hr
  obtain ⟨b, -, rfl⟩ := List.mem_map.mp hl
  obtain ⟨hget, -⟩ := (mem_readBucket _ _ _ _).mp hmem
  exact ⟨hget, hkeyed _ _ hget⟩

theorem bucketRecords_keys_nodup (hkeyed : StopRestart.WellKeyed ks backend) (hnodup : buckets.Nodup)
    (hlt : ∀ b ∈ buckets, b < ks.numBuckets) : ((bucketRecords ks backend buckets).map Prod.fst).Nodup := by
  rw [List.Nodup, List.pairwise_map, bucketRecords, List.pairwise_flatten]
  refine ⟨?_, ?_⟩
  · intro l hl
    obtain ⟨b, -, rfl⟩ := List.mem_map.mp hl
    have hkeys : ((readBucket ks backend b).map Prod.fst).Nodup := Backend.rangeQuery_keys_nodup _ _ _
    rwa [List.Nodup, List.pairwise_map] at hkeys
  · rw [List.pairwise_map]
    refine List.Pairwise.imp_of_mem (fun {b b'} hb hb' hne => ?_) hnodup
    rintro ⟨k, v⟩ hp ⟨k', v'⟩ hq heq
    obtain ⟨hget, hin⟩ := (mem_readBucket _ _ _ _).mp hp
    obtain ⟨-, hin'⟩ := (mem_readBucket _ _ _ _).mp hq
    obtain ⟨sk, rfl⟩ := hkeyed k v hget
    dsimp only at heq
    rw [← heq, ks.inBucket_encode sk (hlt b' hb')] at hin'
    rw [ks.inBucket_encode sk (hlt b hb)] at hin
    exact hne (hin.symm.trans hin')

/-- **What an answering worker does.**  If it holds all the buckets asked for, it gives them away and sends their
records in one round; if it lacks one of them, it dies. -/
theorem remoteBucketMigration_spec {self requester : WorkerID} (hnodup : buckets.Nodup) (node : Node)
    (sender : StateChunkSender) (hholds : ∀ b ∈ buckets, node.stateLookupTable b = self) :
    remoteBucketMigration ks self requester buckets node sender
      = .ok ({ node with
          stateLookupTable := fun b => if b ∈ buckets then requester else node.stateLookupTable b },
        sender.round (buckets.map (readBucket ks node.backend))) := by
  have hloop : forEach buckets (migrateBucket ks self requester) (node, sender) = _ :=
    forEach_eq (f := fun done => ({ node with stateLookupTable :=
      fun b => if b ∈ done then requester else node.stateLookupTable b },
      (done.map (readBucket ks node.backend)).foldl StateChunkSender.send sender)) fun done b rest hsplit => by
    have hfresh := notMem_done hnodup hsplit
    unfold migrateBucket
    rw [check_eq_ok (by simp [hfresh, hholds b (by simp [hsplit])]), ok_bind]
    dsimp only
    congr 3
    · funext b'
      by_cases hb' : b' = b
      · subst hb'
        simp
      · simp [hb']
    · rw [List.map_append, List.foldl_append]
      rfl
  rw [remoteBucketMigration, hloop, ok_bind]
  rfl

theorem remoteBucketMigration_abort {self requester : WorkerID} (node : Node) (sender : StateChunkSender)
    {b : BucketID} (hfirst : buckets.head? = some b) (hlacks : node.stateLookupTable b ≠ self) :
    remoteBucketMigration ks self requester buckets node sender = .abort (.notOwner b self) := by
  obtain ⟨rest, rfl⟩ := List.head?_eq_some_iff.mp hfirst
  rw [remoteBucketMigration, forEach_cons]
  simp [migrateBucket, check, hlacks]

/-- A round that carries its records losslessly is stored as a whole, and nothing stays on the stream. -/
theorem receiveChunks_lossless {msgs : List StateChunk} {records : List Record}
    (h : Lossless msgs records) (backend : Backend) :
    receiveChunks msgs backend = .ok (backend.setMany records, []) := by
  obtain ⟨chunks, rfl, hne, rfl⟩ := h
  induction chunks generalizing backend with
  | nil => rfl
  | cons chunk chunks ih =>
    have hlen : ¬ chunk.length = 0 := fun h => hne chunk (by simp) (List.length_eq_zero_iff.mp h)
    rw [List.map_cons, List.cons_append, receiveChunks, if_neg hlen, List.flatten_cons, Backend.setMany_append]
    exact ih _ fun c hc => hne c (List.mem_cons_of_mem _ hc)

theorem get_setMany_bucketRecords {provider : Backend} (hkeyed : StopRestart.WellKeyed ks provider)
    (hnodup : buckets.Nodup) (hlt : ∀ b ∈ buckets, b < ks.numBuckets) (sk : StateKey) :
    (backend.setMany (bucketRecords ks provider buckets)).get (ks.encode sk)
      = if ks.bucketOf sk ∈ buckets then (provider.get (ks.encode sk)).or (backend.get (ks.encode sk))
        else backend.get (ks.encode sk) := by
  have hkeys := bucketRecords_keys_nodup hkeyed hnodup hlt
  rcases Backend.get_setMany backend _ hkeys (ks.encode sk) with ⟨v, hmem, hread⟩ | ⟨hnot, hsame⟩
  · obtain ⟨hget, hin⟩ := (mem_bucketRecords provider hlt sk v).mp hmem
    rw [hread, if_pos hin, hget, Option.some_or]
  · rw [hsame]
    split_ifs with hin
    · have hnone : provider.get (ks.encode sk) = none := by
        cases hget : provider.get (ks.encode sk) with
        | none => rfl
        | some v =>
          have hmem := (mem_bucketRecords provider hlt sk v).mpr ⟨hget, hin⟩
          exact absurd (List.mem_map_of_mem hmem) hnot
      rw [hnone, Option.none_or]
    · rfl

theorem wellKeyed_setMany_bucketRecords {provider : Backend} (hkeyed : StopRestart.WellKeyed ks provider)
    (hown : StopRestart.WellKeyed ks backend) (hnodup : buckets.Nodup) (hlt : ∀ b ∈ buckets, b < ks.numBuckets) :
    StopRestart.WellKeyed ks (backend.setMany (bucketRecords ks provider buckets)) := by
  intro k v hget
  have hkeys := bucketRecords_keys_nodup hkeyed hnodup hlt
  rcases Backend.get_setMany backend _ hkeys k with ⟨u, hmem, -⟩ | ⟨-, hsame⟩
  · exact (exists_encode_of_mem_bucketRecords hkeyed hmem).2
  · exact hown k v (hsame ▸ hget)

end

end LazyBasic
end Koala
