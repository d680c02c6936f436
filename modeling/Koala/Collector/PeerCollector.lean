import Koala.Collector.KeybyCollector

/-!
# Fast forwarding

In a transition a task sends the records of keys it loses to their new owners.  A peer collector
(`internal/lazy/peerCollector.go`) batches them, and a timer may flush it between any two records.  An operator with two
inputs has a collector for each; the second is given no key maps and no metadata.
-/

namespace Koala
namespace Collector

open Lib Lib.Outcome Partition Keyby

variable {R P : Type}

/-- Key maps and metadata are opaque. -/
inductive Control (P : Type) where
  | keyMap (p : P)
  | metadata (p : P)
  | watermark (timestamp : Int)
  | terminationSignal

inductive PeerWorkUnit (R P : Type) where
  | batch (b : Batch R)
  | control (u : Control P)

/-- What arrives at the other end of a peer channel. -/
def PeerWorkUnit.items : PeerWorkUnit R P → List (R ⊕ Control P)
  | .batch b => b.records.map .inl
  | .control u => [.inr u]

/-- The entries of a peer in `Downstreams`, as everything pushed to its output buffer, and in `CurBatches`.  `Activate`
makes the two maps from one list, and `Deactivate` drops both. -/
structure Peer (R P : Type) where
  buffer : List (PeerWorkUnit R P)
  curBatch : Batch R

namespace Peer

variable (p : Peer R P)

/-- `PushToBuffer`. -/
def push (u : PeerWorkUnit R P) : Peer R P := { p with buffer := p.buffer ++ [u] }

/-- Push the pending batch and start a new one. -/
def rotate : Peer R P := { p.push (.batch p.curBatch) with curBatch := .allocate }

/-- The body of the loop of `flushAllPendingBatches`. -/
def flush : Peer R P := if 0 < p.curBatch.totalNumRecords then p.rotate else p

def addRecord (cfg : Config R) (r : R) : Peer R P := { p with curBatch := p.curBatch.addRecord r (cfg.getSize r) }

/-- `Emit` after the lookups.  A batch without room leaves first, also when it is empty. -/
def emit (cfg : Config R) (r : R) : Outcome Abort (Peer R P) :=
  if cfg.batchSize < cfg.getSize r + p.curBatch.totalNumBytes then
    if cfg.batchSize < cfg.getSize r then .abort .recordTooLarge else .ok (p.rotate.addRecord cfg r)
  else .ok (p.addRecord cfg r)

/-- What the peer will have got when the pending batch is flushed. -/
def contents : List (R ⊕ Control P) := p.buffer.flatMap PeerWorkUnit.items ++ p.curBatch.records.map .inl

end Peer

abbrev PeerCollector (R P : Type) : Type := GoMap WorkerID (Peer R P)

namespace PeerCollector

def activate (peerList : List WorkerID) : PeerCollector R P := peerList.foldl (fun c w => c.set w ⟨[], .allocate⟩) ∅

variable (c : PeerCollector R P)

/-- The lookup of a peer ("Downstream not found for workerId %d"), and a change to its entries. -/
def update (w : WorkerID) (change : Peer R P → Outcome Abort (Peer R P)) : Outcome Abort (PeerCollector R P) :=
  match c.get w with
  | none => .abort .downstreamNotFound
  | some p => change p >>= fun p => .ok (c.set w p)

def emit (cfg : Config R) (r : R) (w : WorkerID) : Outcome Abort (PeerCollector R P) := c.update w (·.emit cfg r)

/-- `SendKeyMaps` and `SendFastForwardMetadata`. -/
def send (messages : List (WorkerID × Control P)) : Outcome Abort (PeerCollector R P) :=
  forEach messages (fun c e => c.update e.1 fun p => .ok (p.push (.control e.2))) c

def flushAllPendingBatches : PeerCollector R P := c.mapValues Peer.flush

/-- `BroadcastWatermark`, and the end of `Deactivate`. -/
def broadcast (u : Control P) : PeerCollector R P := c.flushAllPendingBatches.mapValues (·.push (.control u))

end PeerCollector

/-- What a collector is given in a transition. -/
structure Transition (R P : Type) where
  cfg : Config R
  workerId : WorkerID
  routingTable : PartitionTable
  peerList : List WorkerID
  /-- The key maps and then the metadata, each in the order the map is visited. -/
  messages : List (WorkerID × Control P)
  /-- The task watermark, if it is set. -/
  watermark : Option Int

/-- The main loop.  `seen` are the records and the control units so far, `todo` and `remaining` are those of
`fastForwardToPeerCollector`, `processed` are the batches handed on to `ProcessBatch`. -/
structure Forwarder (R P : Type) where
  collector : PeerCollector R P
  seen : List (R ⊕ Control P)
  todo : Option (List R)
  remaining : List R
  processed : List (List R)
  closed : Bool

def Forwarder.broadcast (s : Forwarder R P) (u : Control P) : Forwarder R P :=
  { s with collector := s.collector.broadcast u, seen := s.seen ++ [.inr u] }

/-- The next step of the main loop, or of the timer. -/
inductive ForwardAction (R : Type) where
  | take (recs : List R)
  | next
  | finish
  | watermark (timestamp : Int)
  | exit
  | timeout

namespace Transition

variable (t : Transition R P)

/-- `GetOwnerWorkerUponReconfig` for the key of a record. -/
def owner (r : R) : WorkerID := t.routingTable (t.cfg.bucketOf r)

/-- `updateInTransitionFlag` at its first call in the transition. -/
def enter : Outcome Abort (Forwarder R P) := do
  let c ← (PeerCollector.activate t.peerList).send t.messages
  let s := ⟨c, [], none, [], [], false⟩
  pure (t.watermark.elim s fun ts => s.broadcast (.watermark ts))

def step (s : Forwarder R P) (a : ForwardAction R) : Outcome Abort (Forwarder R P) :=
  if s.closed then .stuck else
  match a, s.todo with
  | .take recs, none => .ok { s with todo := some recs }
  | .next, some (r :: recs) =>
    let s : Forwarder R P := { s with todo := some recs, seen := s.seen ++ [.inl r] }
    if t.owner r = t.workerId then .ok { s with remaining := s.remaining ++ [r] }
    else s.collector.emit t.cfg r (t.owner r) >>= fun c => .ok { s with collector := c }
  | .finish, some [] =>
    let processed := if s.remaining = [] then s.processed else s.processed ++ [s.remaining]
    .ok { s with todo := none, remaining := [], processed := processed }
  | .watermark ts, none => .ok (s.broadcast (.watermark ts))
  | .exit, none => .ok { s.broadcast .terminationSignal with closed := true }
  | .timeout, _ => .ok { s with collector := s.collector.flushAllPendingBatches }
  | _, _ => .stuck

def machine : Machine (Forwarder R P) (ForwardAction R) Abort := ⟨fun s => t.enter = .ok s, t.step⟩

end Transition

variable {p p' : Peer R P} {l : List (R ⊕ Control P)}

/-- The peer is sent `l`, up to the pending batch. -/
structure Peer.Carries (l : List (R ⊕ Control P)) (p : Peer R P) : Prop where
  contents : p.contents = l
  count : p.curBatch.totalNumRecords = p.curBatch.records.length

structure Peer.Sent (l : List (R ⊕ Control P)) (p : Peer R P) : Prop extends p.Carries l where
  flushed : p.curBatch.records = []

theorem Peer.Carries.rotate (h : p.Carries l) : p.rotate.Sent l :=
  ⟨⟨by simp [← h.contents, Peer.contents, Peer.rotate, Peer.push, PeerWorkUnit.items, Batch.allocate], rfl⟩, rfl⟩

theorem Peer.Carries.flush (h : p.Carries l) : p.flush.Sent l := by
  unfold Peer.flush
  split
  · exact h.rotate
  · refine ⟨h, List.eq_nil_of_length_eq_zero ?_⟩
    have := h.count
    omega

theorem Peer.Sent.push (h : p.Sent l) (u : Control P) : (p.push (.control u)).Sent (l ++ [.inr u]) := by
  refine ⟨⟨?_, h.count⟩, h.flushed⟩
  simp [← h.contents, Peer.contents, Peer.push, PeerWorkUnit.items, h.flushed]

theorem Peer.Carries.addRecord (h : p.Carries l) (cfg : Config R) (r : R) :
    (p.addRecord cfg r).Carries (l ++ [.inl r]) :=
  ⟨by simp [← h.contents, Peer.contents, Peer.addRecord, Batch.addRecord],
    by simp [Peer.addRecord, Batch.addRecord, h.count]⟩

theorem Peer.Carries.emit {cfg : Config R} {r : R} (h : p.Carries l) (hemit : p.emit cfg r = .ok p') :
    p'.Carries (l ++ [.inl r]) := by
  unfold Peer.emit at hemit
  split at hemit
  · split at hemit
    · cases hemit
    · cases hemit
      exact h.rotate.toCarries.addRecord cfg r
  · cases hemit
    exact h.addRecord cfg r

/-- The messages for a peer. -/
def addressed (messages : List (WorkerID × Control P)) (w : WorkerID) : List (R ⊕ Control P) :=
  (messages.filter (·.1 = w)).map fun e => .inr e.2

namespace PeerCollector

variable {c c' : PeerCollector R P} {Q Q' : WorkerID → Peer R P → Prop} {lists : WorkerID → List (R ⊕ Control P)}

def Each (Q : WorkerID → Peer R P → Prop) (c : PeerCollector R P) : Prop := ∀ w p, c.get w = some p → Q w p

theorem each_activate (peerList : List WorkerID) :
    (activate peerList : PeerCollector R P).Each fun _ => Peer.Sent [] := by
  refine List.foldlRecOn peerList _ (fun w p hp => by cases hp) fun c hc v _ w p hp => ?_
  rw [GoMap.get_set] at hp
  split at hp
  · cases hp
    exact ⟨⟨rfl, rfl⟩, rfl⟩
  · exact hc w p hp

theorem Each.mapValues {f : Peer R P → Peer R P} (h : c.Each Q) (hf : ∀ w p, Q w p → Q' w (f p)) :
    PeerCollector.Each Q' (c.mapValues f) := by
  intro w p hp
  obtain ⟨q, hq, rfl⟩ := Option.map_eq_some_iff.mp ((GoMap.get_mapValues f c w).symm.trans hp)
  exact hf w q (h w q hq)

theorem Each.update {w : WorkerID} {change : Peer R P → Outcome Abort (Peer R P)} (h : c.Each Q)
    (hc : c.update w change = .ok c') (hself : ∀ p p', Q w p → change p = .ok p' → Q' w p')
    (hother : ∀ v p, v ≠ w → Q v p → Q' v p) : c'.Each Q' := by
  unfold PeerCollector.update at hc
  split at hc
  · cases hc
  · rename_i p hp
    obtain ⟨p', hchange, hc⟩ := bind_eq_ok.mp hc
    cases hc
    intro v q hq
    rw [GoMap.get_set] at hq
    split at hq
    · cases hq
      exact ‹v = w› ▸ hself p p' (h w p hp) hchange
    · exact hother v q ‹_› (h v q hq)

theorem Each.send {messages : List (WorkerID × Control P)} (h : c.Each fun w => Peer.Sent (lists w))
    (hc : c.send messages = .ok c') : c'.Each fun w => Peer.Sent (lists w ++ addressed messages w) := by
  refine forEach_partial (fun done c => c.Each fun w => Peer.Sent (lists w ++ addressed done w))
    (by simpa [addressed] using h) (fun done e _ c c' _ hdone hc => hdone.update hc ?_ ?_) hc
  · intro p p' hp hpush
    cases hpush
    simpa [addressed] using hp.push e.2
  · intro v p hv hp
    simpa [addressed, Ne.symm hv] using hp

theorem Each.broadcast (h : c.Each fun w => Peer.Carries (lists w)) (u : Control P) :
    (c.broadcast u).Each fun w => Peer.Carries (lists w ++ [.inr u]) :=
  (h.mapValues fun _ _ hp => hp.flush).mapValues fun _ _ hp => (hp.push u).toCarries

end PeerCollector

namespace Transition

variable (t : Transition R P)

def isFor (w : WorkerID) : R ⊕ Control P → Bool
  | .inl r => t.owner r = w ∧ w ≠ t.workerId
  | .inr _ => true

/-- What a peer is to get. -/
def sentTo (s : Forwarder R P) (w : WorkerID) : List (R ⊕ Control P) :=
  addressed t.messages w ++ s.seen.filter (t.isFor w)

def kept (s : Forwarder R P) : List R := (s.seen.filterMap Sum.getLeft?).filter (t.owner · = t.workerId)

structure Inv (s : Forwarder R P) : Prop where
  sent : s.collector.Each fun w => Peer.Carries (t.sentTo s w)
  kept : s.processed.flatten ++ s.remaining = t.kept s

variable {t} {s s' : Forwarder R P}

theorem Inv.broadcast (h : t.Inv s) (u : Control P) : t.Inv (s.broadcast u) where
  sent := by simpa [sentTo, Forwarder.broadcast, List.filter_cons, isFor] using h.sent.broadcast u
  kept := by simpa [Transition.kept, Forwarder.broadcast, List.filterMap_cons] using h.kept

theorem inv_enter (henter : t.enter = .ok s) : t.Inv s := by
  obtain ⟨c, hsend, henter⟩ := bind_eq_ok.mp henter
  have h : t.Inv ⟨c, [], none, [], [], false⟩ := by
    refine ⟨fun w p hp => ?_, rfl⟩
    simpa [sentTo] using ((PeerCollector.each_activate t.peerList).send hsend w p hp).toCarries
  cases hwatermark : t.watermark with
  | none =>
    simp only [hwatermark] at henter
    cases henter
    exact h
  | some ts =>
    simp only [hwatermark] at henter
    cases henter
    exact h.broadcast (.watermark ts)

theorem Inv.step {a : ForwardAction R} (h : t.Inv s) (hstep : t.step s a = .ok s') : t.Inv s' := by
  unfold Transition.step at hstep
  split at hstep
  · cases hstep
  split at hstep
  · cases hstep
    exact ⟨h.sent, h.kept⟩
  · rename_i r recs _
    split at hstep <;> rename_i howner
    · cases hstep
      refine ⟨fun w p hp => ?_, by simp [Transition.kept, howner, ← List.append_assoc, h.kept]⟩
      simpa [sentTo, List.filter_cons, isFor, howner, eq_comm] using h.sent w p hp
    · obtain ⟨c, hemit, hstep⟩ := bind_eq_ok.mp hstep
      cases hstep
      refine ⟨h.sent.update hemit ?_ ?_, by simp [Transition.kept, howner, h.kept]⟩
      · intro p p' hp hp'
        simpa [sentTo, List.filter_cons, isFor, howner] using hp.emit hp'
      · intro v p hv hp
        simpa [sentTo, List.filter_cons, isFor, Ne.symm hv] using hp
  · cases hstep
    refine ⟨h.sent, ?_⟩
    by_cases hnone : s.remaining = [] <;> simpa [Transition.kept, hnone] using h.kept
  · cases hstep
    exact h.broadcast _
  · cases hstep
    exact ⟨(h.broadcast _).sent, (h.broadcast .terminationSignal).kept⟩
  · cases hstep
    exact ⟨h.sent.mapValues fun _ _ hp => hp.flush.toCarries, h.kept⟩
  · cases hstep

/-- **Fast forwarding neither loses, doubles nor reorders anything.**  In every run a peer is sent the key map and the
metadata for it, and then the records it owns and the watermarks in the order the task saw them, however the timer cuts
the batches.  The records that stay are processed in order. -/
theorem fastForward_conserves (hrun : t.machine.Run (fun _ _ => True) s) :
    (∀ w p, s.collector.get w = some p → p.contents = addressed t.messages w ++ s.seen.filter (t.isFor w)) ∧
      s.processed.flatten ++ s.remaining = t.kept s := by
  have h := hrun.invariant t.Inv (fun _ => inv_enter) fun _ _ _ _ h _ => h.step
  exact ⟨fun w p hp => (h.sent w p hp).contents, h.kept⟩

def sample : Transition Nat Nat := ⟨⟨4, id, id, true⟩, 0, (· % 2), [1], [(1, .keyMap 7)], none⟩

theorem fastForward_conserves_sample : ∃ s, sample.machine.Run (fun _ _ => True) s ∧ s.todo = some [3] ∧
    s.processed.flatten ++ s.remaining = [2] := by
  have hrun := Machine.Run.start (m := sample.machine) (G := fun _ _ => True) rfl
  have hrun := hrun.step (a := .take [1, 2, 3]) trivial rfl
  have hrun := (hrun.step (a := .next) trivial rfl).step (a := .next) trivial rfl
  exact ⟨_, hrun, rfl, (fastForward_conserves hrun).2⟩

end Transition

end Collector
end Koala
