import Koala.Keyby.KeyLookupTable
import Koala.Lib.ByteOrder
import Koala.Lib.Machine

/-!
# The state service under the lazy by-key protocol

Every worker serves the state of its buckets from the key locations in its table.  A batch read
(`GetManyMultiState`) asks the table where each key is, reads the local ones, fetches the remote ones, and
returns as soon as the values are in memory; writing them to the local backend and moving their table entries is
left to background goroutines.  The wait group of these goroutines is what the next read and every flush wait
for.  The handover of key maps does not wait for it: the main loop performs it as soon as it sees the
transition flag.

The machine below interleaves all of this at the granularity of single table and backend accesses.  A goroutine
is a `Routine`, the point its code has reached; its step is `runRoutine`.  Eventual migration, which empties
cancelling workers in the background, runs inside the same goroutines and is part of the machine.

The fields `holder`, `owners` and `spec` of the state are ghost: no code reads them.  They record which worker has
been given the key map of each bucket, every worker that ever had it, and the last value flushed for each key.
-/

namespace Koala
namespace LazyByKey

open Lib Lib.Outcome Keyby
open Partition (WorkerID BucketID)
open Function (update)

/-- A serialized state value. -/
abbrev Value : Type := Bytes

/-- The parts of the configuration the state service depends on. -/
structure Config (K : Type) where
  numBuckets : Nat
  bucketOf : K → BucketID
  /-- `LazyByKeyGradualMigrationBatchSize`; not positive means no limit. -/
  maxKeys : Int

/-- How a bucket's key map is assigned to buckets of the configured range. -/
def Config.WellFormed {K : Type} (cfg : Config K) : Prop :=
  ∀ k, cfg.bucketOf k < cfg.numBuckets

/-- The process-killing errors of the state service. -/
inductive Abort where
  | table (e : TableAbort)
  | noAffectedFor (c : WorkerID)
  | affectedNil (b : BucketID)
  | nilLock (b : BucketID)
  | nilFinished (c : WorkerID) (b : BucketID)
  | lockNotFound (b : BucketID)
  | noAffectedBuckets
  | remainingNotZero (n : Int)
  deriving DecidableEq, Repr

/-- The message each abort logs; the two nil accesses are run-time panics. -/
def Abort.message : Abort → String
  | table e => e.message
  | noAffectedFor c => s!"No affected buckets found for cancelling worker {c}\n"
  | affectedNil b => s!"Affected bucket {b} has nil key map on current worker\n"
  | nilLock _ => "invalid memory address or nil pointer dereference"
  | nilFinished _ _ => "assignment to entry in nil map"
  | lockNotFound b => s!"Per-bucket lock not found for bucket {b} during eventual migration\n"
  | noAffectedBuckets => "No affected buckets to be migrated"
  | remainingNotZero n => s!"eventualMigrationRemainingWorkers is not 0, got {n}"

/-- A background goroutine, as the point its code has reached. -/
inductive Routine (K : Type) where
  /-- `readLocalStateRoutine`: keys still to read. -/
  | readLocal (todo : List K)
  /-- `byKeyStateFetchExecutor`, stage 1: keys still to fetch, all keys of this worker. -/
  | fetch (src : WorkerID) (todo keys : List K) (triggered : Bool)
  /-- Stage 2: keys still to write to the local backend. -/
  | store (src : WorkerID) (todo keys : List K) (triggered : Bool)
  /-- `updateAddrForFetchedNeededRemoteKeys`: keys still to relocate. -/
  | updateAddr (todo : List K)
  /-- The call of `fetchAdditionalKeys`. -/
  | additional (c : WorkerID) (dup : List K)
  /-- `getKeysForEventualMigration`: buckets still to scan, keys collected. -/
  | scan (c : WorkerID) (dup : List K) (todo : List BucketID) (got : List K)
  /-- The same, about to record bucket `b` as finished. -/
  | mark (c : WorkerID) (b : BucketID) (dup : List K) (todo : List BucketID) (got : List K)
  /-- `fetchAdditionalKeysByTcp`: waiting for the values of the next chunk. -/
  | request (c : WorkerID) (todo : List K) (allDone : Bool)
  /-- The same, writing the values `todo` of the received chunk. -/
  | storeChunk (c : WorkerID) (chunk todo : List (K × Value)) (rest : List K) (allDone : Bool)
  /-- The goroutine that relocates the keys of one chunk. -/
  | relocate (c : WorkerID) (todo : List K)
  /-- `fetchAdditionalKeys` after its I/O: wait for the chunks, then account for the worker. -/
  | finish (c : WorkerID) (allDone : Bool)
  /-- The last finisher's four statements. -/
  | disable
  | dropLocks
  | dropFinished
  | signal

/-- The state of an eventual migration on one worker; the two tables are nil before the first one and after
each. -/
structure EventualMeta where
  enabled : Bool
  affected : GoMap WorkerID (List BucketID)
  locks : Option (List BucketID)
  finished : Option (List (WorkerID × BucketID))
  doneWorkers : List WorkerID
  remaining : Int
  done : Bool
  /-- How often `EventualMigrationDone` was signalled in this migration. -/
  signals : Nat

def EventualMeta.idle : EventualMeta where
  enabled := false
  affected := ∅
  locks := none
  finished := none
  doneWorkers := []
  remaining := 0
  done := false
  signals := 0

/-- Where the main loop of a worker is, as far as the state service is concerned. -/
inductive Main (K : Type) where
  | loopHead
  /-- Inside `GetManyMultiState` for the keys `new`; `old` are the keys read before in this work unit. -/
  | reading (old new : List K)
  /-- Processing a work unit that has read `keys`. -/
  | processing (keys : List K)
  deriving DecidableEq

/-- One worker's state service. -/
structure Node (K : Type) where
  table : KeyLookupTableV2 K
  backend : K → Option Value
  /-- Values of the read in progress. -/
  res : K → Option Value
  main : Main K
  bg : List (Routine K)
  em : EventualMeta

/-- Key maps sent and not yet installed. -/
structure Flight (K : Type) where
  src : WorkerID
  dst : WorkerID
  entries : MigratingKeyMap K

/-- All workers, the peer channels' key-map messages, and the ghost state. -/
structure World (K : Type) where
  node : WorkerID → Node K
  deployed : List WorkerID
  flight : List (Flight K)
  holder : BucketID → Option WorkerID
  owners : BucketID → List WorkerID
  spec : K → Option Value

/-- A flush of one key. -/
inductive FlushOp where
  | set (v : Value)
  | merge (v : Value)
  | delete

/-- The effect of a flush on a stored value: overwrite, append, remove. -/
def FlushOp.apply : FlushOp → Option Value → Option Value
  | set v, _ => some v
  | merge v, old => some (old.getD [] ++ v)
  | delete, _ => none

/-- The run-time choices of a goroutine: Go's iteration order over a map, and how many values the next response
message carries. -/
structure Choice (K : Type) where
  order : List K
  size : Nat

inductive Action (K : Type) where
  | deploy (w : WorkerID) (owners : PartitionTable)
  | read (w : WorkerID) (keys : List K)
  | run (w : WorkerID) (i : Nat) (choice : Choice K)
  | readDone (w : WorkerID)
  | flush (w : WorkerID) (k : K) (op : FlushOp)
  | endUnit (w : WorkerID)
  | handover (w : WorkerID) (routing : PartitionTable)
  | receive (src dst : WorkerID)
  | startEventual (w : WorkerID) (affected : List (BucketID × List WorkerID))

variable {K : Type} [DecidableEq K]

/-- The key range loop of `getKeysForEventualMigration` over one bucket: collect the keys located at `c` that are
not fetched already, and report whether the limit was reached. -/
def collect (cfg : Config K) (c : WorkerID) (dup : List K) (m : KeyMap K) : List K → List K → List K × Bool
  | [], got => (got, false)
  | k :: rest, got =>
    if m.get k = some c ∧ k ∉ dup then
      if 0 < cfg.maxKeys ∧ cfg.maxKeys ≤ (got.length + 1 : Nat) then (got ++ [k], true)
      else collect cfg c dup m rest (got ++ [k])
    else collect cfg c dup m rest got

variable (cfg : Config K) (w : WorkerID)

/-- `UpdateKey` of one key to the local worker. -/
def Node.relocateKey (nd : Node K) (k : K) : Outcome Abort (Node K) := do
  let table ← (nd.table.updateKey k (cfg.bucketOf k) w).mapAbort .table
  pure { nd with table := table }

variable (em : EventualMeta)

/-- A lock lookup that finds nothing: the lock table was reset, or never had the bucket. -/
def EventualMeta.lockMissing (b : BucketID) : Bool :=
  match em.locks with
  | none => true
  | some locks => b ∉ locks

/-- `finishedBuckets[c][b]`, false when the table is nil. -/
def EventualMeta.isFinished (c : WorkerID) (b : BucketID) : Bool :=
  match em.finished with
  | none => false
  | some pairs => (c, b) ∈ pairs

/-- The children `fetchAdditionalKeys` waits for before it accounts for worker `c`. -/
def Routine.isRelocateOf (c : WorkerID) : Routine K → Bool
  | .relocate c' _ => c' = c
  | _ => false

/-- One step of a goroutine on worker `w`: the new local state and what the goroutine becomes.  A goroutine that
ends becomes nothing, one that starts another becomes two. -/
def runRoutine (backends : WorkerID → K → Option Value) (w : WorkerID) (nd : Node K)
    (siblings : List (Routine K)) (choice : Choice K) :
    Routine K → Outcome Abort (Node K × List (Routine K))
  | .readLocal [] => .ok (nd, [])
  | .readLocal (k :: todo) =>
    .ok ({ nd with res := update nd.res k (nd.backend k) }, [.readLocal todo])
  | .fetch src [] keys triggered => .ok (nd, [.store src keys keys triggered])
  | .fetch src (k :: todo) keys triggered =>
    -- the server answers an absent key with an empty value
    .ok ({ nd with res := update nd.res k (some ((backends src k).getD [])) },
      [.fetch src todo keys triggered])
  | .store src [] keys triggered =>
    .ok (nd, if triggered ∧ (nd.em.affected.get src).isSome then [.additional src keys] else [])
  | .store src (k :: todo) keys triggered =>
    .ok ({ nd with backend := update nd.backend k (some ((nd.res k).getD [])) },
      [.store src todo keys triggered])
  | .updateAddr [] => .ok (nd, [])
  | .updateAddr (k :: todo) => do
    let nd ← nd.relocateKey cfg w k
    pure (nd, [.updateAddr todo])
  | .additional c dup =>
    match nd.em.affected.get c with
    | none => .abort (.noAffectedFor c)
    | some buckets => .ok (nd, [.scan c dup buckets []])
  | .scan c _ [] got => .ok (nd, [.request c got true])
  | .scan c dup (b :: todo) got =>
    if nd.em.isFinished c b then .ok (nd, [.scan c dup todo got])
    else
      match (nd.table b).map with
      | none => .abort (.affectedNil b)
      | some (m : KeyMap K) =>
        if nd.em.lockMissing b then .abort (.nilLock b)
        else if choice.order.Perm m.keys then
          let collected := collect cfg c dup m choice.order got
          if collected.2 then .ok (nd, [.request c collected.1 false])
          else .ok (nd, [.mark c b dup todo collected.1])
        else .stuck
  | .mark c b dup todo got =>
    -- the inner map exists for the cancelling workers of the migration only
    match nd.em.finished, nd.em.affected.get c with
    | some pairs, some _ =>
      .ok ({ nd with em := { nd.em with finished := some ((c, b) :: pairs) } }, [.scan c dup todo got])
    | _, _ => .abort (.nilFinished c b)
  | .request c [] allDone => .ok (nd, [.finish c allDone])
  | .request c (k :: todo) allDone =>
    let chunk := ((k :: todo).take (choice.size + 1)).map fun k => (k, (backends c k).getD [])
    .ok (nd, [.storeChunk c chunk chunk ((k :: todo).drop (choice.size + 1)) allDone])
  | .storeChunk c chunk [] rest allDone =>
    .ok (nd, [.request c rest allDone, .relocate c (chunk.map Prod.fst)])
  | .storeChunk c chunk ((k, v) :: todo) rest allDone =>
    .ok ({ nd with backend := update nd.backend k (some v) }, [.storeChunk c chunk todo rest allDone])
  | .relocate _ [] => .ok (nd, [])
  | .relocate c (k :: todo) =>
    if nd.em.lockMissing (cfg.bucketOf k) then .abort (.lockNotFound (cfg.bucketOf k))
    else do
      let nd ← nd.relocateKey cfg w k
      pure (nd, [.relocate c todo])
  | .finish c allDone =>
    if siblings.any (Routine.isRelocateOf c) then .stuck
    else if allDone ∧ c ∉ nd.em.doneWorkers then
      let em := { nd.em with doneWorkers := c :: nd.em.doneWorkers, remaining := nd.em.remaining - 1 }
      .ok ({ nd with em := em }, if em.remaining = 0 then [.disable] else [])
    else .ok (nd, [])
  | .disable => .ok ({ nd with em := { nd.em with enabled := false } }, [.dropLocks])
  | .dropLocks => .ok ({ nd with em := { nd.em with locks := none } }, [.dropFinished])
  | .dropFinished => .ok ({ nd with em := { nd.em with finished := none } }, [.signal])
  | .signal => .ok ({ nd with em := { nd.em with done := true, signals := nd.em.signals + 1 } }, [])

variable (table : KeyLookupTableV2 K)

/-- `groupKeysByWorker`: the location of every requested key. -/
def locate (keys : List K) : Outcome Abort (List (K × WorkerID)) :=
  forEach keys (fun acc k => do
    let l ← (table.getWorkerID k (cfg.bucketOf k)).mapAbort Abort.table
    pure (acc ++ [(k, l)])) []

variable (located : List (K × WorkerID))

/-- The keys located at one worker. -/
def keysAt (l : WorkerID) : List K :=
  (located.filter fun e => e.2 = l).map Prod.fst

/-- The goroutines `remoteReadWithByKeyMigration` starts. -/
def readRoutines : List (Routine K) :=
  let remotes := (located.map Prod.snd).dedup.filter (· ≠ w)
  [.readLocal (keysAt located w)]
    ++ remotes.map (fun r => .fetch r (keysAt located r) (keysAt located r) em.enabled)
    ++ (if em.enabled then
          (em.affected.keys.filter (· ∉ located.map Prod.snd)).map (fun c => .additional c []) else [])
    ++ [.updateAddr (remotes.flatMap (keysAt located))]

/-- A goroutine the reading main loop waits for (`keyWaitGroup`). -/
def Routine.isNeeded : Routine K → Bool
  | .readLocal _ => true
  | .fetch .. => true
  | _ => false

variable (affected : List (BucketID × List WorkerID))

/-- `SetEventualMigrationMeta`: group the affected buckets by cancelling worker. -/
def groupAffected : GoMap WorkerID (List BucketID) :=
  affected.foldl (fun acc e =>
    e.2.foldl (fun acc c => acc.set c ((acc.get c).getD [] ++ [e.1])) acc) ∅

/-- `SetEventualMigrationMeta`. -/
def setEventualMigrationMeta : Outcome Abort EventualMeta := do
  check (affected = []) .noAffectedBuckets
  check (em.remaining ≠ 0) (.remainingNotZero em.remaining)
  let grouped := groupAffected affected
  pure
    { enabled := true
      affected := grouped
      locks := some (affected.map Prod.fst)
      finished := some []
      doneWorkers := []
      remaining := grouped.keys.length
      done := false
      signals := 0 }

/-- The state service of a task that has just been deployed. -/
def Node.fresh : Node K where
  table := table
  backend := fun _ => none
  res := fun _ => none
  main := .loopHead
  bg := []
  em := .idle

def World.setNode (s : World K) (w : WorkerID) (nd : Node K) : World K :=
  { s with node := update s.node w nd }

/-- The messages of a handover, in the order of the destinations. -/
def flightsOf (out : KeyLookupTableV2.Outgoing K) : List (Flight K) :=
  out.entries.map fun e => ⟨w, e.1, e.2⟩

/-- The table side of a flush: a deleted key loses its entry, any other is located here. -/
def FlushOp.updateTable (k : K) (b : BucketID) (w : WorkerID) :
    FlushOp → Outcome TableAbort (KeyLookupTableV2 K)
  | .set _ => table.insertOrUpdateKey k b w
  | .merge _ => table.insertOrUpdateKey k b w
  | .delete => table.removeKey k b

/-- The first message on the channel from `src` to `dst`. -/
def World.nextFlight (s : World K) (src dst : WorkerID) : Option (Flight K) :=
  s.flight.find? fun f => f.src = src ∧ f.dst = dst

/-- The keys a work unit may flush: those it has read. -/
def Main.keys : Main K → List K
  | .loopHead => []
  | .reading old _ => old
  | .processing keys => keys

/-- One step of the machine. -/
def step (s : World K) : Action K → Outcome Abort (World K)
  | .deploy w owners =>
    if w ∈ s.deployed then .stuck
    else .ok { s.setNode w (.fresh (.deserialize owners w)) with deployed := w :: s.deployed }
  | .read w keys =>
    let nd := s.node w
    match nd.main with
    | .reading _ _ => .stuck
    | main =>
      -- `ByKeyMigrationWaitGroup.Wait()`
      if w ∈ s.deployed ∧ nd.bg.isEmpty then do
        let located ← locate cfg nd.table keys
        pure (s.setNode w { nd with
          res := fun _ => none
          main := .reading main.keys keys
          bg := readRoutines w nd.em located })
      else .stuck
  | .run w i choice =>
    let nd := s.node w
    match nd.bg[i]? with
    | none => .stuck
    | some r => do
      let (nd', next) ← runRoutine cfg (fun v => (s.node v).backend) w nd (nd.bg.eraseIdx i) choice r
      pure (s.setNode w { nd' with bg := nd.bg.eraseIdx i ++ next })
  | .readDone w =>
    let nd := s.node w
    match nd.main with
    | .reading old new =>
      -- `keyWaitGroup.Wait()`
      if nd.bg.any Routine.isNeeded then .stuck
      else .ok (s.setNode w { nd with main := .processing (old ++ new) })
    | _ => .stuck
  | .flush w k op =>
    let nd := s.node w
    match nd.main with
    | .processing keys =>
      -- `ByKeyMigrationWaitGroup.Wait()`; the table goroutine and the backend write are joined
      if k ∈ keys ∧ nd.bg.isEmpty then do
        let table ← (FlushOp.updateTable nd.table k (cfg.bucketOf k) w op).mapAbort Abort.table
        pure { s.setNode w { nd with
            table := table
            backend := update nd.backend k (op.apply (nd.backend k)) } with
          spec := update s.spec k (op.apply (s.spec k)) }
      else .stuck
    | _ => .stuck
  | .endUnit w =>
    let nd := s.node w
    match nd.main with
    | .processing _ => .ok (s.setNode w { nd with main := .loopHead })
    | _ => .stuck
  | .handover w routing =>
    let nd := s.node w
    match nd.main with
    | .loopHead =>
      if w ∈ s.deployed then do
        let (table, out) ←
          (KeyLookupTableV2.serializeMigratingKeyMaps cfg.numBuckets w routing nd.table).mapAbort Abort.table
        pure { s.setNode w { nd with table := table } with
          flight := s.flight ++ flightsOf w out
          holder := fun b =>
            if b < cfg.numBuckets ∧ nd.table.Leaves w routing b ∧ s.holder b = some w then none
            else s.holder b }
      else .stuck
    | _ => .stuck
  | .receive src dst =>
    let nd := s.node dst
    match s.nextFlight src dst with
    | none => .stuck
    | some f =>
      if dst ∈ s.deployed then do
        let table ← (KeyLookupTableV2.deserializeMigratingKeyMaps dst f.entries nd.table).mapAbort Abort.table
        let moved := f.entries.map Prod.fst
        pure { s.setNode dst { nd with table := table } with
          flight := s.flight.eraseP fun f => f.src = src ∧ f.dst = dst
          holder := fun b => if b ∈ moved then some dst else s.holder b
          owners := fun b => if b ∈ moved then dst :: s.owners b else s.owners b }
      else .stuck
  | .startEventual w affected =>
    let nd := s.node w
    if w ∈ s.deployed then do
      let em ← setEventualMigrationMeta nd.em affected
      pure (s.setNode w { nd with em := em })
    else .stuck

/-- The initial deployment on `workers` with the buckets assigned by `owners`. -/
def World.initial (workers : List WorkerID) (owners : PartitionTable) : World K where
  node := fun w => .fresh (.deserialize owners w)
  deployed := workers
  flight := []
  holder := fun b => if b < cfg.numBuckets then some (owners b) else none
  owners := fun b => [owners b]
  spec := fun _ => none

/-- The state service of the whole operator.  Initially every bucket belongs to a deployed task. -/
def machine : Machine (World K) (Action K) Abort where
  init := fun s => ∃ workers owners, (∀ b < cfg.numBuckets, owners b ∈ workers) ∧
    s = World.initial cfg workers owners
  step := step cfg

end LazyByKey
end Koala
