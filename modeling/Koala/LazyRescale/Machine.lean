import Koala.LazyByKey.StoreMachine
import Koala.Partition.MigrationPlan

/-!
# The lazy rescale protocol

`rescaleLazy` moves buckets between the tasks of one stateful operator while records keep flowing.  The
coordinator first tells every task how many in-flight barriers and peer connections to expect, then tells each
sender to fast forward: from its next loop head on, the sender ships the key maps of the buckets it loses and
forwards their records over peer channels.  When every receiver has its peers connected, the upstream tasks swap
their routing tables and send barriers; a sender leaves the transition when it has the barriers of all of them.

The machine below has the coordinator, the control-plane handler and the main loop of every task, their suppliers,
the upstream collectors and all channels.  Its `store` component is the state service, and the machine of
`Koala.LazyByKey` moves it: key maps leave and arrive, and state is read and flushed, by that machine's steps.

A record is whatever has a bucket.  A record forwarded to a peer is pushed at once; the batching of
`PeerCollector` delays it, but the channel does so anyway, and nothing overtakes it in either.

The fields `old`, `epoch`, `handed` and `log` are ghost.
-/

namespace Koala
namespace LazyRescale

open Lib Lib.Outcome Keyby Partition
open Function (update)

/-- The tasks of the upstream operators. -/
abbrev UpstreamID : Type := Nat

/-- The operator to be rescaled and what surrounds it.  Channels of its second input, if it has one, are marked
by a Boolean. -/
structure Job (R K : Type) where
  store : LazyByKey.Config K
  bucketOf : R → BucketID
  upstreams : List UpstreamID
  twoInputs : Bool
  second : UpstreamID → Bool
  /-- `LazyByKeyCancellingTaskMigrationMode == "eventual"`. -/
  eventual : Bool
  bucketOf_lt : ∀ r, bucketOf r < store.numBuckets
  upstreams_nodup : upstreams.Nodup

variable {R K : Type} (job : Job R K)

/-- The inputs of the operator, one peer collector each; the first is the primary. -/
def Job.inputs : List Bool := if job.twoInputs then [false, true] else [false]

/-- The input an upstream task feeds. -/
def Job.inputOf (u : UpstreamID) : Bool := job.twoInputs && job.second u

/-- The owners of all buckets, as the policies see them. -/
def Job.ownersOf (part : PartitionTable) : List WorkerID :=
  (List.range job.store.numBuckets).map part

/-- What an upstream task sends. -/
inductive UpstreamUnit (R : Type) where
  | batch (recs : List R)
  | watermark
  | barrier
  | termination

/-- What a peer sends. -/
inductive PeerUnit (R : Type) where
  | keyMap
  | metadata (buckets : List BucketID)
  | batch (recs : List R)
  | watermark
  | termination

/-- `WorkUnitType`. -/
def PeerUnit.type : PeerUnit R → Nat
  | batch _ => 1
  | watermark => 3
  | termination => 6
  | metadata _ => 7
  | keyMap => 8

/-- A peer channel. -/
structure Link where
  src : WorkerID
  dst : WorkerID
  second : Bool
  deriving DecidableEq

/-- How far the receiver's `InitNewUpstream` is with a peer channel. -/
inductive LinkStatus where
  | closed
  | fresh
  /-- The key maps are in the table. -/
  | installed
  /-- The supplier reads from it. -/
  | registered
  deriving DecidableEq

structure Chan (R : Type) where
  status : LinkStatus
  queue : List (PeerUnit R)

/-- The statements of `exitTransitionPhase`. -/
inductive ExitStep where
  | lower
  | clearRouting
  | close (second : Bool)
  | release (second : Bool)
  deriving DecidableEq

/-- The statements of `HandleStartFastForward` after its checks. -/
inductive HandlerStep where
  | setRouting
  | activate (second : Bool)
  | raise
  | await
  deriving DecidableEq

/-- Where the main loop of a task is. -/
inductive Pc (R : Type) where
  | head
  /-- Reconfiguration start signalled, key maps not sent. -/
  | handing
  /-- Key maps sent, metadata not. -/
  | announcing
  /-- In `GetWorkUnit`. -/
  | ready
  | batch (recs : List R) (second : Bool)
  | progressed
  /-- In `ProcessBatch` or `ProcessProgressedWatermark`, on keys of these buckets. -/
  | work (buckets : List BucketID)
  | exiting (todo : List ExitStep)
  deriving DecidableEq

/-- The transition state of a task; `index` are the buckets of its open windows. -/
structure Loop (R : Type) where
  phase : Bool
  inTransition : Bool
  pc : Pc R
  routing : Option PartitionTable
  peers : Bool → Option (List WorkerID)
  handler : List HandlerStep
  index : List BucketID

def Loop.idle : Loop R where
  phase := false
  inTransition := false
  pc := .head
  routing := none
  peers := fun _ => none
  handler := []
  index := []

/-- The lazy protocol's fields of `SupplierBase`. -/
structure Supplier where
  expectedInflightBarriers : Int
  inflightBarrierCounter : Int
  expectedInboundPeers : Int
  inboundPeerCounter : Int
  allInboundPeersConnected : Bool
  reconfigTerminated : Bool
  peerChannelSync : List WorkerID

def Supplier.idle : Supplier where
  expectedInflightBarriers := -1
  inflightBarrierCounter := 0
  expectedInboundPeers := -1
  inboundPeerCounter := 0
  allInboundPeersConnected := false
  reconfigTerminated := false
  peerChannelSync := []

/-- The steps of `rescaleLazy`, each with the acknowledgements it still waits for. -/
inductive Stage where
  | idle
  | init (todo : List WorkerID)
  | forward (todo : List WorkerID)
  | connect (todo : List WorkerID)
  | route (todo : List UpstreamID)
  | eventual (todo waiting : List WorkerID)
  | settle (todo : List WorkerID)
  deriving DecidableEq

structure Coordinator where
  stage : Stage
  part : PartitionTable
  old : PartitionTable
  changes : OwnerChanges
  plan : GoMap WorkerID (List MigrationInfo)
  tasks : List WorkerID
  updated : List WorkerID
  added : List WorkerID
  removed : List WorkerID
  history : BucketID → List WorkerID
  epoch : Nat

/-- One bucket of one work unit, with the reconfiguration it was processed in. -/
structure Processed where
  epoch : Nat
  worker : WorkerID
  bucket : BucketID
  src : WorkerID
  dst : WorkerID

structure Sys (R K : Type) where
  store : LazyByKey.World K
  co : Coordinator
  loop : WorkerID → Loop R
  sup : WorkerID → Supplier
  up : UpstreamID → PartitionTable
  queue : UpstreamID → WorkerID → List (UpstreamUnit R)
  link : Link → Chan R
  handed : List WorkerID
  log : List Processed

/-- The process-killing errors of the protocol. -/
inductive Abort where
  | store (e : LazyByKey.Abort)
  | plan (e : PlanAbort)
  | noEffect
  | noKeySpace
  | notClean
  | noBarriers
  | alreadyInPhase
  | nilRouting
  | downstreamNotFound (w : WorkerID)
  | notKeyMap (got : Nat)
  | unexpectedPeer (n : Int)
  | unexpectedPeerTermination (n : Int)
  | unexpectedBarrier
  | unknownUnit (got : Nat)
  | syncMapNotEmpty
  | syncMapOdd
  | syncMapSize (size expected : Int)
  | noAffected
  deriving DecidableEq

/-- The message each abort logs. -/
def Abort.message : Abort → String
  | store e => e.message
  | plan _ => "index out of range"
  | noEffect => "Repartition has no effect\n"
  | noKeySpace => "No key space partitioned to new task"
  | notClean => "InitLazyReconfig: lazy reconfiguration metadata not clean"
  | noBarriers => "InitLazyReconfig: expectedDrainBarriers should be > 0"
  | alreadyInPhase => "Worker is already in reconfiguration phase\n"
  | nilRouting => "invalid memory address or nil pointer dereference"
  | downstreamNotFound w => s!"Downstream not found for workerId {w}\n"
  | notKeyMap got =>
    s!"Expected MigratingKeyMap work unit at the beginning of primary peer channel, but got {got}\n"
  | unexpectedPeer n =>
    s!"InitNewUpstream: unexpected inbound peer connection. Current expected inbound peers: {n}\n"
  | unexpectedPeerTermination n =>
    s!"RemoveUpstream: unexpected inbound peer termination. Current expected inbound peers: {n}\n"
  | unexpectedBarrier => "[lazy protocol]: unexpected InflightBarrier received"
  | unknownUnit got => s!"Unsupported WorkUnit type: {got}"
  | syncMapNotEmpty =>
    "ValidateAndResetPeerChannelSyncMap: PeerChannelSyncMap should be empty for single-upstream operator"
  | syncMapOdd =>
    "ValidateAndResetPeerChannelSyncMap: number of expected inbound peers should be even for multi-upstream operator"
  | syncMapSize size expected =>
    s!"ValidateAndResetPeerChannelSyncMap: PeerChannelSyncMap size {size} not equal to expected size {expected}\n"
  | noAffected => "[Eventual Migration] No affected buckets found but removed workers exist\n"

/-! ## State access -/

variable (s : Sys R K) (w : WorkerID) (l : Loop R)

def Sys.setLoop : Sys R K :=
  { s with loop := update s.loop w l }

def Sys.setSup (p : Supplier) : Sys R K :=
  { s with sup := update s.sup w p }

def Sys.setChan (l : Link) (c : Chan R) : Sys R K :=
  { s with link := update s.link l c }

def Sys.setStage (stage : Stage) : Sys R K :=
  { s with co := { s.co with stage := stage } }

variable (u : UpstreamID)

def Sys.pop (w : WorkerID) (rest : List (UpstreamUnit R)) : Sys R K :=
  { s with queue := update s.queue u (update (s.queue u) w rest) }

variable (second : Bool)

/-- Push units on the peer channels of one collector. -/
def Sys.send (units : WorkerID → List (PeerUnit R)) : Sys R K :=
  { s with link := fun l =>
      if l.src = w ∧ l.second = second then { s.link l with queue := (s.link l).queue ++ units l.dst }
      else s.link l }

/-- The peers a collector is connected to; a nil map has none. -/
def Loop.peersOf : List WorkerID := (l.peers second).getD []

/-- Push units to every peer, on the channels of every input. -/
def Sys.broadcast (units : List (PeerUnit R)) : Sys R K :=
  { s with link := fun l =>
      if l.src = w ∧ l.second ∈ job.inputs ∧ l.dst ∈ (s.loop w).peersOf l.second then
        { s.link l with queue := (s.link l).queue ++ units }
      else s.link l }

variable (co : Coordinator)

/-- The workers a sender ships buckets to, from the owner changes. -/
def Coordinator.destsOf (w : WorkerID) : List WorkerID :=
  ((co.changes.get w).getD ∅).keys

/-- The sources of a receiver, from the migration plan. -/
def Coordinator.sourcesOf (w : WorkerID) : List MigrationInfo := (co.plan.get w).getD []

/-- `expectedInboundPeers` of `initializeTargetTasksLazy`. -/
def Coordinator.expectedInboundPeers (w : WorkerID) : Int :=
  match co.plan.get w with
  | none => -1
  | some sources => (sources.length * job.inputs.length : Nat)

/-- The affected buckets `notifyEventualStateMigration` sends to one owner. -/
def Coordinator.affectedOf (w : WorkerID) : List (BucketID × List WorkerID) :=
  ((List.range job.store.numBuckets).filter fun b => co.part b = w).filterMap fun b =>
    match (co.history b).filter (· ∈ co.removed) with
    | [] => none
    | cancelling => some (b, cancelling)

/-! ## Coordinator -/

/-- The worker lists `prepareReconfiguration` produces. -/
inductive Resize where
  | grow (added : List WorkerID)
  | shrink (keep : Nat)

def Resize.added : Resize → List WorkerID
  | grow added => added
  | shrink _ => []

def Resize.updated (tasks : List WorkerID) : Resize → List WorkerID
  | grow added => tasks ++ added
  | shrink keep => tasks.take keep

def Resize.removed (tasks : List WorkerID) : Resize → List WorkerID
  | grow _ => []
  | shrink keep => tasks.drop keep

/-- New workers are free ones; at least one task stays and at least one goes. -/
def Resize.Allowed (tasks deployed : List WorkerID) : Resize → Prop
  | grow added => added ≠ [] ∧ added.Nodup ∧ ∀ w ∈ added, w ∉ deployed
  | shrink keep => 0 < keep ∧ keep < tasks.length

instance (tasks deployed : List WorkerID) : (r : Resize) → Decidable (r.Allowed tasks deployed)
  | .grow _ => inferInstanceAs (Decidable (_ ∧ _))
  | .shrink _ => inferInstanceAs (Decidable (_ ∧ _))

/-- `history[bucketIdx][destWorker] = true`, for every moved bucket. -/
def Coordinator.recordOwners (history : BucketID → List WorkerID) (old new : PartitionTable) :
    BucketID → List WorkerID := fun b =>
  if old b = new b ∨ new b ∈ history b then history b else new b :: history b

/-- Step 0 and the coordinator's part of step 1.  The new partition is the policy's: it assigns every bucket to an
updated worker. -/
def rescale (resize : Resize) (part : PartitionTable) : Outcome Abort (Sys R K) :=
  match s.co.stage with
  | .idle =>
    if resize.Allowed s.co.tasks s.store.deployed ∧
        (∀ b < job.store.numBuckets, part b ∈ resize.updated s.co.tasks) then do
      let changes := computeBucketOwnerChanges (job.ownersOf s.co.part) (job.ownersOf part)
      check (changes.entries = []) .noEffect
      let plan ← (generateMigrationPlan changes).mapAbort .plan
      check (∃ w ∈ resize.added, (plan.get w).isNone) .noKeySpace
      pure { s with
        co := { s.co with
          stage := .init (s.co.tasks ++ resize.added)
          part := part
          old := s.co.part
          changes := changes
          plan := plan
          updated := resize.updated s.co.tasks
          added := resize.added
          removed := resize.removed s.co.tasks
          history := Coordinator.recordOwners s.co.history s.co.part part
          epoch := s.co.epoch + 1 }
        handed := [] }
    else .stuck
  | _ => .stuck

/-- The next step of `rescaleLazy`, once all acknowledgements of the current one are in. -/
def advance : Outcome Abort (Sys R K) :=
  match s.co.stage with
  | .init [] => .ok (s.setStage (.forward s.co.changes.keys))
  | .forward [] => .ok (s.setStage (.connect s.co.plan.keys))
  | .connect [] => .ok (s.setStage (.route job.upstreams))
  | .route [] =>
    if s.co.removed ≠ [] ∧ job.eventual then do
      let owners := s.co.updated.filter fun w => s.co.affectedOf job w ≠ []
      check (owners = []) .noAffected
      pure (s.setStage (.eventual owners []))
    else .ok (s.setStage (.settle (s.co.updated ++ s.co.removed)))
  | .eventual [] [] => .ok (s.setStage (.settle (s.co.updated ++ s.co.removed)))
  | .settle [] =>
    .ok { s with co := { s.co with
      stage := .idle
      old := s.co.part
      changes := ∅
      plan := ∅
      tasks := s.co.updated
      added := []
      removed := [] } }
  | _ => .stuck

/-! ## Tasks: control plane -/

/-- `Supplier.InitLazyReconfig`. -/
def Supplier.initLazyReconfig (p : Supplier) (barriers peers : Int) : Outcome Abort Supplier := do
  check (p.expectedInflightBarriers ≠ -1 ∨ p.expectedInboundPeers ≠ -1) .notClean
  check (barriers ≤ 0) .noBarriers
  pure { p with expectedInflightBarriers := barriers, expectedInboundPeers := peers }

/-- A task of the operator gets its lazy metadata; a new task is deployed with it. -/
def initTask [DecidableEq K] (job : Job R K) (s : Sys R K) (w : WorkerID) : Outcome Abort (Sys R K) :=
  match s.co.stage with
  | .init todo =>
    if w ∈ todo then do
      let s := s.setStage (.init (todo.filter (· ≠ w)))
      let s ←
        if w ∈ s.co.added then do
          let store ← (LazyByKey.step job.store s.store (.deploy w s.co.part)).mapAbort .store
          pure (({ s with store := store }.setLoop w .idle).setSup w .idle)
        else pure s
      let p ← (s.sup w).initLazyReconfig job.upstreams.length (s.co.expectedInboundPeers job w)
      pure (s.setSup w p)
    else .stuck
  | _ => .stuck

/-- The statements of `HandleStartFastForward` after the check. -/
def handlerSteps : List HandlerStep :=
  .setRouting :: (job.inputs.map .activate ++ [.raise, .await])

/-- One statement of `HandleStartFastForward`.  The handler ends in a rendezvous with the main loop. -/
def handleStartFastForward : Outcome Abort (Sys R K) :=
  match s.co.stage with
  | .forward todo =>
    let l := s.loop w
    if w ∈ todo then
      match l.handler with
      | [] => do
        check l.phase .alreadyInPhase
        pure (s.setLoop w { l with handler := handlerSteps job })
      | .setRouting :: rest =>
        .ok (s.setLoop w { l with routing := some s.co.part, handler := rest })
      | .activate second :: rest =>
        let dests := s.co.destsOf w
        let s := s.setLoop w { l with
          peers := update l.peers second (some dests)
          handler := rest }
        .ok { s with link := fun k =>
          if k.src = w ∧ k.second = second ∧ k.dst ∈ dests then ⟨.fresh, []⟩ else s.link k }
      | .raise :: rest => .ok (s.setLoop w { l with phase := true, handler := rest })
      | .await :: _ => .stuck
    else .stuck
  | _ => .stuck

/-- The receiving end of a primary peer channel reads its first unit, which must be the key maps. -/
def installKeyMaps [DecidableEq K] (job : Job R K) (s : Sys R K) (src dst : WorkerID) :
    Outcome Abort (Sys R K) :=
  let l : Link := ⟨src, dst, false⟩
  match (s.link l).status, (s.link l).queue with
  | .fresh, .keyMap :: rest => do
    let store ← (LazyByKey.step job.store s.store (.receive src dst)).mapAbort .store
    let s := { s with store := store }.setChan l ⟨.installed, rest⟩
    pure (s.setSup dst { s.sup dst with
      peerChannelSync :=
        if job.twoInputs then src :: (s.sup dst).peerChannelSync else (s.sup dst).peerChannelSync })
  | .fresh, unit :: _ => .abort (.notKeyMap unit.type)
  | _, _ => .stuck

/-- `ValidateAndResetPeerChannelSyncMap`. -/
def validateSyncMap (p : Supplier) : Outcome Abort Unit :=
  if job.twoInputs then do
    check (p.expectedInboundPeers % 2 ≠ 0) .syncMapOdd
    check ((p.peerChannelSync.length : Int) ≠ p.expectedInboundPeers / 2)
      (.syncMapSize p.peerChannelSync.length (p.expectedInboundPeers / 2))
  else check (p.peerChannelSync ≠ []) .syncMapNotEmpty

/-- The rest of `InitNewUpstream` for a peer channel; a secondary one waits for its primary. -/
def registerPeer (l : Link) : Outcome Abort (Sys R K) :=
  let p := s.sup l.dst
  if (s.link l).status = .installed ∨
      ((s.link l).status = .fresh ∧ l.second = true ∧ l.src ∈ p.peerChannelSync) then do
    check (p.expectedInboundPeers ≤ 0) (.unexpectedPeer p.expectedInboundPeers)
    let s := s.setChan l { s.link l with status := .registered }
    if p.inboundPeerCounter + 1 = p.expectedInboundPeers then do
      validateSyncMap job p
      pure (s.setSup l.dst { p with
        inboundPeerCounter := p.inboundPeerCounter + 1
        expectedInboundPeers := -2
        allInboundPeersConnected := true
        peerChannelSync := [] })
    else pure (s.setSup l.dst { p with inboundPeerCounter := p.inboundPeerCounter + 1 })
  else .stuck

/-! ## Tasks: main loop -/

/-- The statements of `exitTransitionPhase`, one `Deactivate` per peer collector. -/
def exitSteps : List ExitStep :=
  .lower :: .clearRouting :: job.inputs.flatMap fun second => [.close second, .release second]

/-- `updateInTransitionFlag` up to the handover. -/
def updateInTransitionFlag : Outcome Abort (Sys R K) :=
  let l := s.loop w
  match l.pc with
  | .head =>
    if l.phase then
      if l.inTransition then .ok (s.setLoop w { l with pc := .ready })
      else
        -- `NotifyReconfigStart` meets `WaitReconfigStart`, and the handler acknowledges
        match s.co.stage, l.handler with
        | .forward todo, [.await] =>
          .ok ((s.setStage (.forward (todo.filter (· ≠ w)))).setLoop w { l with
            inTransition := true
            pc := .handing
            handler := [] })
        | _, _ => .stuck
    else .ok (s.setLoop w { l with inTransition := false, pc := .ready })
  | _ => .stuck

/-- The destinations of a handover that have no channel. -/
def missingPeer (peers dsts : List WorkerID) : Option WorkerID := dsts.find? (· ∉ peers)

/-- Abort on the first destination without a channel. -/
def checkPeers (dsts : List WorkerID) : Outcome Abort Unit :=
  match missingPeer (l.peersOf second) dsts with
  | none => .ok ()
  | some d => .abort (.downstreamNotFound d)

/-- `ConstructAndSendKeyMaps`. -/
def constructAndSendKeyMaps [DecidableEq K] (job : Job R K) (s : Sys R K) (w : WorkerID) :
    Outcome Abort (Sys R K) :=
  let l := s.loop w
  match l.pc, l.routing with
  | .handing, some routing => do
    let (_, out) ← (KeyLookupTableV2.serializeMigratingKeyMaps job.store.numBuckets w routing
      (s.store.node w).table).mapAbort fun e => .store (.table e)
    checkPeers l false out.keys
    let store ← (LazyByKey.step job.store s.store (.handover w routing)).mapAbort .store
    pure ((({ s with store := store, handed := w :: s.handed } : Sys R K).send w false
      fun d => if d ∈ out.keys then [.keyMap] else []).setLoop w { l with pc := .announcing })
  | .handing, none => .abort .nilRouting
  | _, _ => .stuck

/-- `ConstructFastForwardMetadata`, `SendFastForwardMetadata` and the broadcast of the task's watermark, if it
has one. -/
def announce (watermark : Bool) : Outcome Abort (Sys R K) :=
  let l := s.loop w
  match l.pc, l.routing with
  | .announcing, some routing => do
    let leaving := l.index.filter fun b => routing b ≠ w
    checkPeers l false (leaving.map routing)
    let s := s.send w false fun d =>
      if d ∈ leaving.map routing then [.metadata (leaving.filter fun b => routing b = d)] else []
    let s := s.broadcast job w (if watermark then [.watermark] else [])
    pure (s.setLoop w { l with index := l.index.filter (fun b => routing b = w), pc := .ready })
  | .announcing, none => .abort .nilRouting
  | _, _ => .stuck

/-- `handleInflightBarrier` and, on alignment, what the main loop does with the barrier. -/
def handleBarrier : Outcome Abort (Sys R K) := do
  let l := s.loop w
  let p := s.sup w
  check (p.expectedInflightBarriers ≤ 0) .unexpectedBarrier
  if p.inflightBarrierCounter + 1 = p.expectedInflightBarriers then
    let s := s.setSup w { p with
      inflightBarrierCounter := 0
      expectedInflightBarriers := -1
      reconfigTerminated := p.reconfigTerminated || p.expectedInboundPeers = -1 }
    pure (s.setLoop w { l with pc := if l.inTransition then .exiting (exitSteps job) else .head })
  else pure (s.setSup w { p with inflightBarrierCounter := p.inflightBarrierCounter + 1 })

/-- The end of a peer channel, in `preprocessWorkUnit`. -/
def handlePeerTermination : Outcome Abort (Sys R K) := do
  let p := s.sup w
  check (p.expectedInboundPeers ≠ -2) (.unexpectedPeerTermination p.expectedInboundPeers)
  if p.inboundPeerCounter - 1 = 0 then
    pure (s.setSup w { p with
      inboundPeerCounter := p.inboundPeerCounter - 1
      expectedInboundPeers := -1
      reconfigTerminated := p.reconfigTerminated || p.expectedInflightBarriers = -1 })
  else pure (s.setSup w { p with inboundPeerCounter := p.inboundPeerCounter - 1 })

/-- Whether the task watermark moves decides if `GetWorkUnit` returns. -/
def afterWatermark (progress : Bool) : Sys R K :=
  s.setLoop w { s.loop w with pc := if progress then .progressed else .ready }

/-- `GetWorkUnit` takes a unit from an upstream channel. -/
def takeRegular (progress : Bool) : Outcome Abort (Sys R K) :=
  let l := s.loop w
  match l.pc, s.queue u w with
  | .ready, unit :: rest =>
    let s := s.pop u w rest
    match unit with
    | .batch recs => .ok (s.setLoop w { l with pc := .batch recs (job.inputOf u) })
    | .watermark => .ok (afterWatermark s w progress)
    | .barrier => handleBarrier job s w
    | .termination => .ok s
  | _, _ => .stuck

/-- `GetWorkUnit` takes a unit from a peer channel. -/
def takePeer (src : WorkerID) (second progress : Bool) : Outcome Abort (Sys R K) :=
  let l := s.loop w
  let k : Link := ⟨src, w, second⟩
  match l.pc, (s.link k).status, (s.link k).queue with
  | .ready, .registered, unit :: rest =>
    match unit with
    | .batch recs => .ok ((s.setChan k ⟨.registered, rest⟩).setLoop w { l with pc := .batch recs second })
    | .watermark => .ok (afterWatermark (s.setChan k ⟨.registered, rest⟩) w progress)
    | .metadata buckets =>
      -- `ProcessFastForwardMetadata`
      .ok ((s.setChan k ⟨.registered, rest⟩).setLoop w { l with index := l.index ++ buckets, pc := .head })
    | .termination => do
      -- nothing follows on a closed connection
      let s ← handlePeerTermination (s.setChan k ⟨.closed, []⟩) w
      pure (afterWatermark s w progress)
    | .keyMap => .abort (.unknownUnit 8)
  | _, _, _ => .stuck

/-- The buckets of a work unit enter the log. -/
def Sys.startWork (buckets : List BucketID) : Sys R K :=
  { s.setLoop w { s.loop w with pc := .work buckets } with
    log := s.log ++ buckets.map fun b => ⟨s.co.epoch, w, b, s.co.old b, s.co.part b⟩ }

/-- The main loop's `switch`: fast forward a batch if in transition, then process what is left; or process a
progressed watermark, which fires windows of the index. -/
def dispatch (fired : List BucketID) : Outcome Abort (Sys R K) :=
  let l := s.loop w
  match l.pc with
  | .batch recs second =>
    if l.inTransition then
      match l.routing with
      | none => .abort .nilRouting
      | some routing => do
        let forwarded := recs.filter fun r => routing (job.bucketOf r) ≠ w
        checkPeers l second (forwarded.map fun r => routing (job.bucketOf r))
        let s := s.send w second fun d =>
          (forwarded.filter fun r => routing (job.bucketOf r) = d).map fun r => .batch [r]
        let remaining := recs.filter fun r => routing (job.bucketOf r) = w
        if remaining = [] then pure (s.setLoop w { l with pc := .head })
        else pure (s.startWork w (remaining.map job.bucketOf))
    else .ok (s.startWork w (recs.map job.bucketOf))
  | .progressed =>
    if ∀ b ∈ fired, b ∈ l.index then
      let s := s.broadcast job w (if l.inTransition then [.watermark] else [])
      .ok (s.startWork w fired)
    else .stuck
  | _ => .stuck

/-- The end of a work unit.  The operator may have opened windows for its records and closed others. -/
def finishWork (index : List BucketID) : Outcome Abort (Sys R K) :=
  let l := s.loop w
  match l.pc, (s.store.node w).main with
  | .work buckets, .loopHead =>
    if ∀ b ∈ index, b ∈ l.index ∨ b ∈ buckets then .ok (s.setLoop w { l with index := index, pc := .head })
    else .stuck
  | _, _ => .stuck

/-- One statement of `exitTransitionPhase`. -/
def exitTransitionPhase : Outcome Abort (Sys R K) :=
  let l := s.loop w
  match l.pc with
  | .exiting [] => .ok (s.setLoop w { l with pc := .head })
  | .exiting (.lower :: rest) => .ok (s.setLoop w { l with phase := false, pc := .exiting rest })
  | .exiting (.clearRouting :: rest) => .ok (s.setLoop w { l with routing := none, pc := .exiting rest })
  | .exiting (.close second :: rest) =>
    .ok ((s.send w second fun d => if d ∈ l.peersOf second then [.termination] else []).setLoop w
      { l with pc := .exiting rest })
  | .exiting (.release second :: rest) =>
    .ok (s.setLoop w { l with peers := update l.peers second none, pc := .exiting rest })
  | _ => .stuck

/-! ## Upstream tasks and the waits of the coordinator -/

/-- Append to an upstream channel. -/
def Sys.push (units : WorkerID → List (UpstreamUnit R)) : Sys R K :=
  { s with queue := update s.queue u fun w => s.queue u w ++ units w }

/-- `KeybyCollector.Emit`: a batch for one task holds records its routing table sends there. -/
def emitBatch (w : WorkerID) (recs : List R) : Outcome Abort (Sys R K) :=
  if u ∈ job.upstreams ∧ ∀ r ∈ recs, s.up u (job.bucketOf r) = w then
    .ok (s.push u fun v => if v = w then [.batch recs] else [])
  else .stuck

def emitWatermark (w : WorkerID) : Outcome Abort (Sys R K) :=
  if u ∈ job.upstreams then .ok (s.push u fun v => if v = w then [.watermark] else []) else .stuck

/-- `KeybyCollector.UpdateRouting`, under the collector's lock: barriers to the old and the new tasks, an end to
the channels of the removed ones, and the new table. -/
def updateRouting : Outcome Abort (Sys R K) :=
  match s.co.stage with
  | .route todo =>
    if u ∈ todo then
      let s := s.push u fun w =>
        (if w ∈ s.co.tasks ∨ w ∈ s.co.added then [.barrier] else [])
          ++ if w ∈ s.co.removed then [.termination] else []
      .ok ({ s with up := update s.up u s.co.part }.setStage (.route (todo.filter (· ≠ u))))
    else .stuck
  | _ => .stuck

/-- `WaitAllInboundPeersToConnect` returns. -/
def waitInboundPeers : Outcome Abort (Sys R K) :=
  match s.co.stage with
  | .connect todo =>
    if w ∈ todo ∧ (s.sup w).allInboundPeersConnected then
      .ok ((s.setSup w { s.sup w with allInboundPeersConnected := false }).setStage (.connect (todo.filter (· ≠ w))))
    else .stuck
  | _ => .stuck

/-- `WaitTasksReconfigDone` returns. -/
def waitReconfigDone : Outcome Abort (Sys R K) :=
  match s.co.stage with
  | .settle todo =>
    if w ∈ todo ∧ (s.sup w).reconfigTerminated then
      .ok ((s.setSup w { s.sup w with reconfigTerminated := false }).setStage (.settle (todo.filter (· ≠ w))))
    else .stuck
  | _ => .stuck

/-- `HandleEventualStateMigration` starts the migration. -/
def startEventual [DecidableEq K] (job : Job R K) (s : Sys R K) (w : WorkerID) : Outcome Abort (Sys R K) :=
  match s.co.stage with
  | .eventual todo waiting =>
    if w ∈ todo then do
      let store ← (LazyByKey.step job.store s.store (.startEventual w (s.co.affectedOf job w))).mapAbort .store
      pure ({ s with store := store }.setStage (.eventual (todo.filter (· ≠ w)) (w :: waiting)))
    else .stuck
  | _ => .stuck

/-- `WaitEventualMigrationDone` returns. -/
def waitEventual : Outcome Abort (Sys R K) :=
  match s.co.stage with
  | .eventual todo waiting =>
    if w ∈ waiting ∧ (s.store.node w).em.done then .ok (s.setStage (.eventual todo (waiting.filter (· ≠ w))))
    else .stuck
  | _ => .stuck

/-- The accesses to the state service: a work unit reads and flushes keys of its buckets, and the goroutines of
earlier reads run at any time. -/
def accessStore [DecidableEq K] (job : Job R K) (s : Sys R K) (a : LazyByKey.Action K) : Outcome Abort (Sys R K) :=
  let allowed : Bool := match a with
    | .read w keys =>
      match (s.loop w).pc with
      | .work buckets => keys.all fun k => job.store.bucketOf k ∈ buckets
      | _ => false
    | .run .. => true
    | .readDone _ => true
    | .flush .. => true
    | .endUnit _ => true
    | _ => false
  if allowed then do
    let store ← (LazyByKey.step job.store s.store a).mapAbort .store
    pure { s with store := store }
  else .stuck

inductive Action (R K : Type) where
  | rescale (resize : Resize) (part : PartitionTable)
  | advance
  | initTask (w : WorkerID)
  | handle (w : WorkerID)
  | install (src dst : WorkerID)
  | register (l : Link)
  | loopHead (w : WorkerID)
  | handover (w : WorkerID)
  | announce (w : WorkerID) (watermark : Bool)
  | takeRegular (w : WorkerID) (u : UpstreamID) (progress : Bool)
  | takePeer (w src : WorkerID) (second progress : Bool)
  | dispatch (w : WorkerID) (fired : List BucketID)
  | finish (w : WorkerID) (index : List BucketID)
  | exit (w : WorkerID)
  | emitBatch (u : UpstreamID) (w : WorkerID) (recs : List R)
  | emitWatermark (u : UpstreamID) (w : WorkerID)
  | updateRouting (u : UpstreamID)
  | waitInboundPeers (w : WorkerID)
  | waitReconfigDone (w : WorkerID)
  | startEventual (w : WorkerID)
  | waitEventual (w : WorkerID)
  | store (a : LazyByKey.Action K)

def step [DecidableEq K] (job : Job R K) (s : Sys R K) : Action R K → Outcome Abort (Sys R K)
  | .rescale resize part => rescale job s resize part
  | .advance => advance job s
  | .initTask w => initTask job s w
  | .handle w => handleStartFastForward job s w
  | .install src dst => installKeyMaps job s src dst
  | .register l => registerPeer job s l
  | .loopHead w => updateInTransitionFlag s w
  | .handover w => constructAndSendKeyMaps job s w
  | .announce w watermark => announce job s w watermark
  | .takeRegular w u progress => takeRegular job s w u progress
  | .takePeer w src second progress => takePeer s w src second progress
  | .dispatch w fired => dispatch job s w fired
  | .finish w index => finishWork s w index
  | .exit w => exitTransitionPhase s w
  | .emitBatch u w recs => emitBatch job s u w recs
  | .emitWatermark u w => emitWatermark job s u w
  | .updateRouting u => updateRouting s u
  | .waitInboundPeers w => waitInboundPeers s w
  | .waitReconfigDone w => waitReconfigDone s w
  | .startEventual w => startEventual job s w
  | .waitEventual w => waitEventual s w
  | .store a => accessStore job s a

/-- The job right after its deployment on `workers` with the buckets assigned by `owners`. -/
def Sys.initial (job : Job R K) (workers : List WorkerID) (owners : PartitionTable) : Sys R K where
  store := .initial job.store workers owners
  co :=
    { stage := .idle
      part := owners
      old := owners
      changes := ∅
      plan := ∅
      tasks := workers
      updated := workers
      added := []
      removed := []
      history := fun b => [owners b]
      epoch := 0 }
  loop := fun _ => .idle
  sup := fun _ => .idle
  up := fun _ => owners
  queue := fun _ _ => []
  link := fun _ => ⟨.closed, []⟩
  handed := []
  log := []

/-- The operator under any sequence of lazy rescales. -/
def machine [DecidableEq K] (job : Job R K) : Machine (Sys R K) (Action R K) Abort where
  init := fun s => ∃ workers owners, workers.Nodup ∧ (∀ b < job.store.numBuckets, owners b ∈ workers) ∧
    s = Sys.initial job workers owners
  step := step job

end LazyRescale
end Koala
