import Koala.LazyRescale.Safety

/-!
# The connections of a supplier

The machine of the rescale protocol reads a channel as soon as something is in it.  A supplier reads a channel only
once `InitNewUpstream` has added the connection to a `SubSupplier`, and it drops the connection when the channel
ends (`preprocessWorkUnit`, `RemoveUpstream`).  Dropping a connection is fatal before all expected connections have
been added (`TaskDeploymentPhasePassed`), and so is dropping the last one of an upstream operator, unless the task
is shutting down.

`Tracked` adds the connections to the machine.  An upstream task opens its connection to a new task when it updates
its routing table; the new task adds it whenever its `RequestHandler` goroutine gets to run.

The fields `conn` and `signals` are ghost: how far each upstream connection is, and how often a task has signalled
`ReconfigTerminated` since the reconfiguration started.
-/

namespace Koala
namespace LazyRescale

open Lib Lib.Outcome Keyby Partition
open Function (update)

variable {R K : Type}

/-- What a supplier reads from. -/
inductive Channel where
  | regular (u : UpstreamID)
  | peer (l : Link)
  deriving DecidableEq

variable (job : Job R K)

/-- The `SubSupplier` a channel belongs to. -/
def Channel.input : Channel → Bool
  | regular u => job.inputOf u
  | peer l => l.second

/-- How far the connection of an upstream task to a task is. -/
inductive Conn where
  | none
  /-- Opened by the upstream task. -/
  | opened
  /-- Added by `InitNewUpstream`. -/
  | setUp
  deriving DecidableEq

/-- The fields of `SupplierBase` and `SubSupplierBase` about connections.  `upstreams` are the lists of all
`SubSuppliers` together. -/
structure Upstreams where
  expectNumUpstream : Nat
  taskDeploymentPhasePassed : Bool
  upstreams : List Channel
  isShuttingDown : Bool

/-- The fatal errors of the machine with connections. -/
inductive TrackedAbort where
  | protocol (e : Abort)
  /-- "RemoveUpstream: shouldn't remove an upstream while TaskDeploymentPhase is not passed" -/
  | deploymentPhase
  /-- "SubSupplier [%s] RemoveUpstream: shouldn't remove the last upstream" -/
  | lastUpstream
  deriving DecidableEq

namespace Upstreams

/-- A task that expects `n` connections. -/
def new (n : Nat) : Upstreams where
  expectNumUpstream := n
  taskDeploymentPhasePassed := false
  upstreams := []
  isShuttingDown := false

/-- `AddUpstream` and the check of `InitNewUpstream` that follows it. -/
def addUpstream (t : Upstreams) (c : Channel) : Upstreams :=
  { t with
    upstreams := t.upstreams ++ [c]
    taskDeploymentPhasePassed :=
      t.taskDeploymentPhasePassed || t.upstreams.length + 1 = t.expectNumUpstream }

/-- The `TerminationSignalWorkUnit` case of `preprocessWorkUnit` up to and including `RemoveUpstream`. -/
def removeUpstream (t : Upstreams) (c : Channel) : Outcome TrackedAbort Upstreams := do
  check (t.taskDeploymentPhasePassed = false) .deploymentPhase
  check ((t.upstreams.filter fun d => d.input job = c.input job).length < 2 ∧ t.isShuttingDown = false) .lastUpstream
  .ok { t with upstreams := t.upstreams.erase c }

end Upstreams

/-- The protocol with the connections of the suppliers. -/
structure Tracked (R K : Type) where
  sys : Sys R K
  upstreams : WorkerID → Upstreams
  conn : UpstreamID → WorkerID → Conn
  signals : WorkerID → Nat

inductive TrackedAction (R K : Type) where
  /-- A step of the protocol. -/
  | act (a : Action R K)
  /-- `InitNewUpstream` adds the connection of an upstream task. -/
  | connect (u : UpstreamID) (w : WorkerID)

variable (s : Sys R K)

/-- The channel whose end a step takes, with the task that takes it. -/
def terminated : Action R K → Option (WorkerID × Channel)
  | .takeRegular w u _ =>
    match (s.loop w).pc, s.queue u w with
    | .ready, .termination :: _ => some (w, .regular u)
    | _, _ => none
  | .takePeer w src second _ =>
    match (s.loop w).pc, (s.link ⟨src, w, second⟩).status, (s.link ⟨src, w, second⟩).queue with
    | .ready, .registered, .termination :: _ => some (w, .peer ⟨src, w, second⟩)
    | _, _, _ => none
  | _ => none

/-- The task for which a step calls `ReconfigTerminated.Signal`. -/
def signalled : Action R K → Option WorkerID
  | .takeRegular w u _ =>
    match (s.loop w).pc, s.queue u w with
    | .ready, .barrier :: _ =>
      if (s.sup w).inflightBarrierCounter + 1 = (s.sup w).expectedInflightBarriers ∧
          (s.sup w).expectedInboundPeers = -1 then some w else none
    | _, _ => none
  | .takePeer w src second _ =>
    match (s.loop w).pc, (s.link ⟨src, w, second⟩).status, (s.link ⟨src, w, second⟩).queue with
    | .ready, .registered, .termination :: _ =>
      if (s.sup w).inboundPeerCounter - 1 = 0 ∧ (s.sup w).expectedInflightBarriers = -1 then some w else none
    | _, _, _ => none
  | _ => none

/-- A task reads upstream channels it has added only. -/
def Tracked.Readable (s : Tracked R K) : Action R K → Prop
  | .takeRegular w u _ => .regular u ∈ (s.upstreams w).upstreams
  | _ => True

instance (s : Tracked R K) : (a : Action R K) → Decidable (s.Readable a)
  | .takeRegular .. => inferInstanceAs (Decidable (_ ∈ _))
  | .rescale .. | .advance | .initTask _ | .handle _ | .install .. | .register _ | .loopHead _ | .handover _
  | .announce .. | .takePeer .. | .dispatch .. | .finish .. | .exit _ | .emitBatch .. | .emitWatermark ..
  | .updateRouting _ | .waitInboundPeers _ | .waitReconfigDone _ | .startEventual _ | .waitEventual _
  | .store _ => isTrue trivial

/-- The end of a channel, if the step takes one. -/
def removeTerminated (s : Tracked R K) (a : Action R K) :
    Outcome TrackedAbort (WorkerID → Upstreams) :=
  match terminated s.sys a with
  | some (w, c) => do
    let t ← (s.upstreams w).removeUpstream job c
    .ok (update s.upstreams w t)
  | none => .ok s.upstreams

/-- What a step does to the suppliers' connections otherwise: a new task is deployed with the number of
connections to expect, a task to be removed is told so, and peers are added. -/
def trackUpstreams (upstreams : WorkerID → Upstreams) : Action R K → WorkerID → Upstreams
  | .initTask w => update upstreams w
      (if w ∈ s.co.added then .new (job.upstreams.length + (linksInto job s.co w).length)
      else { upstreams w with isShuttingDown := (upstreams w).isShuttingDown || w ∈ s.co.removed })
  | .register l => update upstreams l.dst ((upstreams l.dst).addUpstream (.peer l))
  | _ => upstreams

/-- `connectToNewDownstreamsHelper`. -/
def trackConn (conn : UpstreamID → WorkerID → Conn) : Action R K → UpstreamID → WorkerID → Conn
  | .updateRouting u => update conn u fun w => if w ∈ s.co.added then .opened else conn u w
  | _ => conn

def trackSignals (signals : WorkerID → Nat) : Action R K → WorkerID → Nat
  | .rescale .. => fun _ => 0
  | a => fun w => if signalled s a = some w then signals w + 1 else signals w

def trackedStep [DecidableEq K] (job : Job R K) (s : Tracked R K) :
    TrackedAction R K → Outcome TrackedAbort (Tracked R K)
  | .act a =>
    if s.Readable a then do
      let upstreams ← removeTerminated job s a
      let sys ← (step job s.sys a).mapAbort .protocol
      .ok
        { sys := sys
          upstreams := trackUpstreams job s.sys upstreams a
          conn := trackConn s.sys s.conn a
          signals := trackSignals s.sys s.signals a }
    else .stuck
  | .connect u w =>
    if s.conn u w = .opened then
      .ok { s with
        upstreams := update s.upstreams w ((s.upstreams w).addUpstream (.regular u))
        conn := update s.conn u (update (s.conn u) w .setUp) }
    else .stuck

/-- A freshly deployed job: every upstream task has opened its connections. -/
def Tracked.initial (job : Job R K) (workers : List WorkerID) (owners : PartitionTable) : Tracked R K where
  sys := .initial job workers owners
  upstreams := fun _ => .new job.upstreams.length
  conn := fun u w => if u ∈ job.upstreams ∧ w ∈ workers then .opened else .none
  signals := fun _ => 0

def trackedMachine [DecidableEq K] (job : Job R K) :
    Machine (Tracked R K) (TrackedAction R K) TrackedAbort where
  init := fun s => ∃ workers owners, workers.Nodup ∧ (∀ b < job.store.numBuckets, owners b ∈ workers) ∧
    s = Tracked.initial job workers owners
  step := trackedStep job

/-- The end of a channel is taken only when all upstream connections of the task have been added. -/
def Connected (s : Tracked R K) : TrackedAction R K → Prop
  | .act a => ∀ w c, terminated s.sys a = some (w, c) → ∀ u ∈ job.upstreams, s.conn u w = .setUp
  | .connect .. => True

end LazyRescale
end Koala
