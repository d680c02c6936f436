import Koala.Lib.Machine
import Mathlib

/-!
# The supplier of a task

`internal/supplier`: for each input of a task a sub-supplier reads its upstream channels round-robin, and the supplier
reads its sub-suppliers round-robin.  A watermark counts for the channel under the cursor, a terminated channel is the
one under the cursor, and the task's watermark is the minimum over all channels.

A sub-supplier is named by its place in `SubSupplierList`.  `received` and `returned` record what was read from a
channel and which watermarks went to the task; the code does not keep them.  A step looks once into every channel of a
sub-supplier; a unit that arrives behind the cursor meanwhile is one that arrives after the step.
-/

namespace Koala
namespace Supply

open Lib Lib.Outcome

/-- `math.MaxInt64`. -/
def maxInt64 : Int := 2 ^ 63 - 1

/-- The work units, as far as the supplier looks at them. -/
inductive WorkUnit where
  | batch
  | metadata
  | drainBarrier
  | inflightBarrier
  | watermark (timestamp : Int)
  | termination (isPeer : Bool)
  deriving DecidableEq, Repr

inductive Abort where
  /-- Go's bounds check, and the method call on a missing sub-supplier. -/
  | indexOutOfRange
  /-- "New upstream connection from %s is not expected at %s" -/
  | unknownUpstream
  /-- "Watermark timestamp should only increase: %d <= %d" -/
  | watermarkOrder (new old : Int)
  /-- "RemoveUpstream: invalid index" -/
  | invalidIndex
  /-- "RemoveUpstream: shouldn't remove the last upstream" -/
  | lastUpstream
  /-- "RemoveUpstream: shouldn't remove an upstream while TaskDeploymentPhase is not passed" -/
  | deploymentPhase
  /-- "RemoveUpstream: unexpected inbound peer termination. Current expected inbound peers: %d" -/
  | unexpectedPeerTermination (expected : Int)
  /-- "InitNewUpstream: unexpected inbound peer connection. Current expected inbound peers: %d" -/
  | unexpectedPeer (expected : Int)
  /-- "[lazy protocol]: unexpected InflightBarrier received" -/
  | unexpectedBarrier
  /-- "DrainBarrierCounter > Total number of upstreams" -/
  | drainBarriers
  /-- "InitLazyReconfig: lazy reconfiguration metadata not clean" -/
  | notClean
  /-- "InitLazyReconfig: expectedDrainBarriers should be > 0" -/
  | noBarriers
  deriving DecidableEq, Repr

def index {α : Type} (xs : List α) (i : Int) : Outcome Abort α :=
  match (if i < 0 then none else xs[i.toNat]?) with
  | none => .abort .indexOutOfRange
  | some x => .ok x

structure Upstream where
  wm : Int
  inputBuffer : List WorkUnit
  received : List WorkUnit

/-- `AddUpstream`: a channel without a watermark. -/
def Upstream.new : Upstream := ⟨-1, [], []⟩

/-- The loop of `GetSubSupplierWM` and of `checkTaskWatermarkProgress`: the minimum, unless one is unset. -/
def minWM {α : Type} (wm : α → Option Int) (xs : List α) : Option Int :=
  xs.foldlM (fun curMinWM x => (wm x).map (min curMinWM)) maxInt64

/-- `RoundRobinSubSupplier`. -/
structure SubSupplier where
  upstreams : List Upstream
  nextUpstreamIdx : Int
  isShuttingDown : Bool
  isWarmUpRun : Bool

namespace SubSupplier

variable (ss : SubSupplier)

def incrementNextUpstreamIdx : SubSupplier :=
  { ss with nextUpstreamIdx := if ss.upstreams.length ≤ ss.nextUpstreamIdx + 1 then 0 else ss.nextUpstreamIdx + 1 }

/-- The loop of `GetWorkUnit`, with `n` channels to look at. -/
def scan : Nat → SubSupplier → Outcome Abort (SubSupplier × Option WorkUnit)
  | 0, ss => .ok (ss, none)
  | n + 1, ss => do
    let ss := ss.incrementNextUpstreamIdx
    let u ← index ss.upstreams ss.nextUpstreamIdx
    match u.inputBuffer with
    | [] => scan n ss
    | unit :: rest =>
      let u := { u with inputBuffer := rest, received := u.received ++ [unit] }
      .ok ({ ss with upstreams := ss.upstreams.set ss.nextUpstreamIdx.toNat u }, some unit)

def getWorkUnit : Outcome Abort (SubSupplier × Option WorkUnit) := scan ss.upstreams.length ss

/-- The cursor in the next `n` turns of the loop, if it finds nothing. -/
def visits : Nat → SubSupplier → List Int
  | 0, _ => []
  | n + 1, ss => ss.incrementNextUpstreamIdx.nextUpstreamIdx :: visits n ss.incrementNextUpstreamIdx

def updateWatermark (timestamp : Int) : Outcome Abort SubSupplier := do
  let u ← index ss.upstreams ss.nextUpstreamIdx
  check (timestamp ≤ u.wm) (.watermarkOrder timestamp u.wm)
  pure { ss with upstreams := ss.upstreams.set ss.nextUpstreamIdx.toNat { u with wm := timestamp } }

def removeUpstream : Outcome Abort SubSupplier := do
  check (ss.nextUpstreamIdx < 0 ∨ ss.upstreams.length ≤ ss.nextUpstreamIdx) .invalidIndex
  check (ss.upstreams.length < 2 ∧ ss.isShuttingDown = false ∧ ss.isWarmUpRun = false) .lastUpstream
  let upstreams := ss.upstreams.eraseIdx ss.nextUpstreamIdx.toNat
  pure { ss with
    upstreams := upstreams
    nextUpstreamIdx := if ss.nextUpstreamIdx = 0 then upstreams.length - 1 else ss.nextUpstreamIdx - 1 }

def getSubSupplierWM : Option Int :=
  if ss.upstreams = [] then none else minWM (fun u => if u.wm = -1 then none else some u.wm) ss.upstreams

end SubSupplier

/-- `RoundRobinSupplier`, without the by-key channel setup. -/
structure Supplier where
  subSuppliers : List SubSupplier
  nextSubSupplierIdx : Int
  taskWatermark : Int
  expectNumUpstream : Nat
  taskDeploymentPhasePassed : Bool
  drainBarrierCounter : Nat
  inflightBarrierCounter : Int
  expectedInflightBarriers : Int
  inboundPeerCounter : Int
  expectedInboundPeers : Int
  returned : List Int

namespace Supplier

variable (s : Supplier)

def getNumUpstreams : Nat := (s.subSuppliers.map fun ss => ss.upstreams.length).sum

variable (i : Nat)

/-- A method of the sub-supplier with this name. -/
def onSub (f : SubSupplier → Outcome Abort SubSupplier) : Outcome Abort Supplier := do
  let ss ← f (← index s.subSuppliers i)
  pure { s with subSuppliers := s.subSuppliers.set i ss }

/-- The locked part of `InitNewUpstream`. -/
def initNewUpstream (isPeer : Bool) : Outcome Abort Supplier := do
  check (s.subSuppliers.length ≤ i) .unknownUpstream
  let s ← s.onSub i fun ss => .ok { ss with upstreams := ss.upstreams ++ [.new] }
  let s := { s with taskDeploymentPhasePassed :=
    s.taskDeploymentPhasePassed || s.getNumUpstreams = s.expectNumUpstream }
  if isPeer then do
    check (s.expectedInboundPeers ≤ 0) (.unexpectedPeer s.expectedInboundPeers)
    pure { s with
      inboundPeerCounter := s.inboundPeerCounter + 1
      expectedInboundPeers :=
        if s.inboundPeerCounter + 1 = s.expectedInboundPeers then -2 else s.expectedInboundPeers }
  else pure s

def initLazyReconfig (barriers peers : Int) : Outcome Abort Supplier := do
  check (s.expectedInflightBarriers ≠ -1 ∨ s.expectedInboundPeers ≠ -1) .notClean
  check (barriers ≤ 0) .noBarriers
  pure { s with expectedInflightBarriers := barriers, expectedInboundPeers := peers }

def notifyShuttingDown : Supplier :=
  { s with subSuppliers := s.subSuppliers.map fun ss => { ss with isShuttingDown := true } }

def checkTaskWatermarkProgress : Supplier × Option WorkUnit :=
  match minWM SubSupplier.getSubSupplierWM s.subSuppliers with
  | none => (s, none)
  | some curMinWM =>
    if s.taskWatermark < curMinWM then ({ s with taskWatermark := curMinWM }, some (.watermark curMinWM)) else (s, none)

def handleDrainBarrier : Outcome Abort (Supplier × Option WorkUnit) :=
  if s.drainBarrierCounter + 1 = s.getNumUpstreams then .ok ({ s with drainBarrierCounter := 0 }, some .drainBarrier)
  else if s.getNumUpstreams < s.drainBarrierCounter + 1 then .abort .drainBarriers
  else .ok ({ s with drainBarrierCounter := s.drainBarrierCounter + 1 }, none)

def handleInflightBarrier : Outcome Abort (Supplier × Option WorkUnit) := do
  check (s.expectedInflightBarriers ≤ 0) .unexpectedBarrier
  if s.inflightBarrierCounter + 1 = s.expectedInflightBarriers then
    pure ({ s with inflightBarrierCounter := 0, expectedInflightBarriers := -1 }, some .inflightBarrier)
  else pure ({ s with inflightBarrierCounter := s.inflightBarrierCounter + 1 }, none)

def handleWatermark (timestamp : Int) : Outcome Abort (Supplier × Option WorkUnit) := do
  let s ← s.onSub i (·.updateWatermark timestamp)
  if s.taskDeploymentPhasePassed then pure s.checkTaskWatermarkProgress else pure (s, none)

/-- The end of a channel, in `preprocessWorkUnit`. -/
def handleTermination (isPeer : Bool) : Outcome Abort (Supplier × Option WorkUnit) := do
  check (s.taskDeploymentPhasePassed = false) .deploymentPhase
  let s ← s.onSub i SubSupplier.removeUpstream
  if isPeer then do
    check (s.expectedInboundPeers ≠ -2) (.unexpectedPeerTermination s.expectedInboundPeers)
    let inboundPeerCounter := s.inboundPeerCounter - 1
    pure ({ s with
      inboundPeerCounter := inboundPeerCounter
      expectedInboundPeers :=
        if inboundPeerCounter = 0 then -1 else s.expectedInboundPeers } : Supplier).checkTaskWatermarkProgress
  else pure (s, none)

def preprocessWorkUnit : WorkUnit → Outcome Abort (Supplier × Option WorkUnit)
  | .batch => .ok (s, some .batch)
  | .metadata => .ok (s, some .metadata)
  | .drainBarrier => s.handleDrainBarrier
  | .watermark timestamp => s.handleWatermark i timestamp
  | .inflightBarrier => s.handleInflightBarrier
  | .termination isPeer => s.handleTermination i isPeer

def incrementNextSubSupplierIdx : Supplier :=
  { s with nextSubSupplierIdx :=
    if s.subSuppliers.length ≤ s.nextSubSupplierIdx + 1 then 0 else s.nextSubSupplierIdx + 1 }

/-- One turn of the loop of `RoundRobinSupplier.GetWorkUnit`. -/
def getWorkUnit (s : Supplier) : Outcome Abort (Supplier × Option WorkUnit) := do
  let s := s.incrementNextSubSupplierIdx
  let i := s.nextSubSupplierIdx
  let (ss, unit) ← (← index s.subSuppliers i).getWorkUnit
  let s := { s with subSuppliers := s.subSuppliers.set i.toNat ss }
  match unit with
  | none => pure (s, none)
  | some unit => s.preprocessWorkUnit i.toNat unit

end Supplier

inductive Action where
  | connect (i : Nat) (isPeer : Bool)
  /-- The network routine of channel `j` of a sub-supplier puts a unit into its buffer. -/
  | arrive (i j : Nat) (unit : WorkUnit)
  | initLazyReconfig (barriers peers : Int)
  | notifyShuttingDown
  | getWorkUnit

/-- A unit arrives. -/
def Supplier.arrive (s : Supplier) (i j : Nat) (unit : WorkUnit) : Outcome Abort Supplier :=
  match s.subSuppliers[i]? with
  | none => .stuck
  | some ss => match ss.upstreams[j]? with
    | none => .stuck
    | some u =>
      let ss := { ss with upstreams := ss.upstreams.set j { u with inputBuffer := u.inputBuffer ++ [unit] } }
      .ok { s with subSuppliers := s.subSuppliers.set i ss }

def step (s : Supplier) : Action → Outcome Abort Supplier
  | .connect i isPeer => s.initNewUpstream i isPeer
  | .arrive i j unit => s.arrive i j unit
  | .initLazyReconfig barriers peers => s.initLazyReconfig barriers peers
  | .notifyShuttingDown => .ok s.notifyShuttingDown
  | .getWorkUnit => do
    let (s, unit) ← s.getWorkUnit
    match unit with
    | some (.watermark timestamp) => pure { s with returned := timestamp :: s.returned }
    | _ => pure s

/-- `NewRoundRobinSupplier` and `Setup`. -/
def Supplier.setup (inputs : Nat) (expectNumUpstream : Nat) (warmUp : Bool) : Supplier where
  subSuppliers := List.replicate inputs ⟨[], -1, false, warmUp⟩
  nextSubSupplierIdx := -1
  taskWatermark := -1
  expectNumUpstream := expectNumUpstream
  taskDeploymentPhasePassed := false
  drainBarrierCounter := 0
  inflightBarrierCounter := 0
  expectedInflightBarriers := -1
  inboundPeerCounter := 0
  expectedInboundPeers := -1
  returned := []

/-- The supplier of a task; `Setup` does not accept one without inputs. -/
def machine : Machine Supplier Action Abort where
  init s := ∃ inputs expectNumUpstream warmUp, 0 < inputs ∧ s = .setup inputs expectNumUpstream warmUp
  step := step

end Supply
end Koala
