import Koala.Keyby.KeyLookupTable
import Koala.Lib.Machine
import Mathlib

/-!
# The keyby collector

A keyby collector (`api/collector/keybyCollector.go`) partitions the emitted records over its downstreams.  It
collects them in one pending batch per downstream and pushes a batch to the output buffer when the next record
does not fit, on the timer, and before every watermark, barrier and routing update.

Every operation holds the collector's mutex, so an execution is a sequence of whole operations.  `PauseEmit`
returns with the mutex held and `ResumeEmit` releases it; in between only `UpdateRouting` runs, which then does
not lock.

`Direct` is what the collector is for: a record, watermark or barrier is on its channels the moment the
operation happens.  `keybyCollector_conserves` says that the batching collector delivers exactly those
streams, up to the records still pending.
-/

namespace Koala
namespace Collector

open Lib Lib.Outcome Partition Keyby

/-- One network connection to a downstream.  A worker that is removed and added again gets a new one. -/
abbrev Channel : Type := Nat

/-- `buffer.Batch`. -/
structure Batch (R : Type) where
  records : List R
  totalNumBytes : Nat
  totalNumRecords : Nat
  deriving DecidableEq, Repr

/-- `buffer.AllocateOutputBatch`. -/
def Batch.allocate {R : Type} : Batch R := ⟨[], 0, 0⟩

/-- `Batch.AddRecord`. -/
def Batch.addRecord {R : Type} (b : Batch R) (r : R) (recordSize : Nat) : Batch R :=
  ⟨b.records ++ [r], b.totalNumBytes + recordSize, b.totalNumRecords + 1⟩

/-- The work units a collector pushes to an output buffer. -/
inductive WorkUnit (R : Type) where
  | batch (b : Batch R)
  | watermark (timestamp : Int)
  | drainBarrier
  | inflightBarrier
  | terminationSignal
  deriving DecidableEq, Repr

/-- What the collector reads of the job: the batch size and the size of a record, the bucket of a record's
key, and whether the reconfiguration protocol is the lazy one. -/
structure Config (R : Type) where
  batchSize : Nat
  getSize : R → Nat
  bucketOf : R → BucketID
  lazyProtocol : Bool

/-- `log.Fatal` and the runtime errors of the collector. -/
inductive Abort where
  /-- "Downstream not found by worker id: %d" -/
  | downstreamNotFound
  /-- "CurBatches: worker id %d not found" -/
  | curBatchNotFound
  /-- "Record size exceeds batch size limit - no support!" -/
  | recordTooLarge
  /-- "[error] Worker %d already exists in downstreams" -/
  | downstreamExists
  /-- "[error] Worker %d not found in downstreams" -/
  | removedNotFound
  /-- A push to `c.Downstreams[workerId]` without an entry. -/
  | nilDownstream
  /-- `Unlock` of an unlocked mutex. -/
  | notLocked
  deriving DecidableEq, Repr

/-- The collector with its output buffers. -/
structure KeybyCollector (R : Type) where
  downstreams : GoMap WorkerID Channel
  /-- Everything pushed to the buffer of a channel, oldest first. -/
  buffers : Channel → List (WorkUnit R)
  /-- The connections made so far. -/
  connections : Nat
  curBatches : GoMap WorkerID (Batch R)
  routingTable : PartitionTable
  paused : Bool

/-- The operations that acquire the collector, with their arguments. -/
inductive Action (R : Type) where
  | emit (r : R)
  | timeout
  | broadcastWatermark (timestamp : Int)
  | pauseEmit
  | resumeEmit
  | updateRouting (add remove : List WorkerID) (table : PartitionTable)

namespace KeybyCollector

variable {R : Type} (c : KeybyCollector R)

/-- `PushToBuffer`. -/
def pushToBuffer (ch : Channel) (u : WorkUnit R) : KeybyCollector R :=
  { c with buffers := Function.update c.buffers ch (c.buffers ch ++ [u]) }

/-- `for _, downstream := range c.Downstreams { downstream.PushToBuffer(u) }`. -/
def broadcast (u : WorkUnit R) : KeybyCollector R :=
  (c.downstreams.entries.map (·.2)).foldl (fun c ch => c.pushToBuffer ch u) c

/-- The body of the loop of `flushAllPendingBatches`. -/
def flushPendingBatch (e : Sigma fun _ : WorkerID => Batch R) : Outcome Abort (KeybyCollector R) :=
  if 0 < e.2.totalNumRecords then
    match c.downstreams.get e.1 with
    | none => .abort .nilDownstream
    | some ch =>
      .ok { c.pushToBuffer ch (.batch e.2) with curBatches := c.curBatches.set e.1 Batch.allocate }
  else .ok c

def flushAllPendingBatches : Outcome Abort (KeybyCollector R) :=
  forEach c.curBatches.entries flushPendingBatch c

variable (cfg : Config R)

def emit (c : KeybyCollector R) (r : R) : Outcome Abort (KeybyCollector R) :=
  let workerID := c.routingTable (cfg.bucketOf r)
  match c.downstreams.get workerID with
  | none => .abort .downstreamNotFound
  | some ch =>
    match c.curBatches.get workerID with
    | none => .abort .curBatchNotFound
    | some targetBatch =>
      let recordSize := cfg.getSize r
      if cfg.batchSize < recordSize + targetBatch.totalNumBytes then
        -- the full batch leaves first, and the record starts a new one
        if cfg.batchSize < recordSize then .abort .recordTooLarge
        else .ok { c.pushToBuffer ch (.batch targetBatch) with
          curBatches := c.curBatches.set workerID (Batch.allocate.addRecord r recordSize) }
      else .ok { c with curBatches := c.curBatches.set workerID (targetBatch.addRecord r recordSize) }

/-- One iteration of `connectToNewDownstreamsHelper`. -/
def connect (w : WorkerID) : Outcome Abort (KeybyCollector R) :=
  if (c.downstreams.get w).isSome then .abort .downstreamExists
  else .ok { c with downstreams := c.downstreams.set w c.connections, connections := c.connections + 1 }

/-- One iteration of `removeDownstreamsHelper`. -/
def remove (w : WorkerID) : Outcome Abort (KeybyCollector R) :=
  match c.downstreams.get w with
  | none => .abort .removedNotFound
  | some ch => .ok { c.pushToBuffer ch .terminationSignal with downstreams := c.downstreams.delete w }

/-- The end of `UpdateRouting`: the new table, and an empty batch for every downstream. -/
def rebuild (table : PartitionTable) : KeybyCollector R :=
  { c with routingTable := table, curBatches := c.downstreams.mapValues fun _ => Batch.allocate }

def updateRouting (c : KeybyCollector R) (toAdd toRemove : List WorkerID)
    (table : PartitionTable) : Outcome Abort (KeybyCollector R) := do
  let c ← c.flushAllPendingBatches
  let c ← forEach toAdd connect c
  let c := if cfg.lazyProtocol then c.broadcast .inflightBarrier else c
  let c ← forEach toRemove remove c
  return c.rebuild table

/-- An operation by whoever gets the mutex.  While the collector is paused the mutex is held. -/
def step (c : KeybyCollector R) : Action R → Outcome Abort (KeybyCollector R)
  | .emit r => if c.paused then .stuck else c.emit cfg r
  | .timeout => if c.paused then .stuck else c.flushAllPendingBatches
  | .broadcastWatermark ts =>
    if c.paused then .stuck
    else do
      let c ← c.flushAllPendingBatches
      return c.broadcast (.watermark ts)
  | .pauseEmit =>
    if c.paused then .stuck
    else do
      let c ← { c with paused := true }.flushAllPendingBatches
      return c.broadcast .drainBarrier
  | .resumeEmit => if c.paused then .ok { c with paused := false } else .abort .notLocked
  | .updateRouting toAdd toRemove table => c.updateRouting cfg toAdd toRemove table

/-- `Setup`: a connection and an empty batch for every listed downstream. -/
def setup (workers : List WorkerID) (table : PartitionTable) : KeybyCollector R :=
  workers.foldl (fun c w => { c with
      downstreams := c.downstreams.set w c.connections
      connections := c.connections + 1
      curBatches := c.curBatches.set w Batch.allocate })
    ⟨∅, fun _ => [], 0, ∅, table, false⟩

/-- A collector from its `Setup` on. -/
def machine : Machine (KeybyCollector R) (Action R) Abort where
  init c := ∃ workers table, c = setup workers table
  step := step cfg

end KeybyCollector

/-- What arrives at the other end of a channel. -/
inductive Item (R : Type) where
  | record (r : R)
  | watermark (timestamp : Int)
  | drainBarrier
  | inflightBarrier
  | terminationSignal
  deriving DecidableEq, Repr

/-- The contents of a work unit. -/
def WorkUnit.items {R : Type} : WorkUnit R → List (Item R)
  | .batch b => b.records.map .record
  | .watermark ts => [.watermark ts]
  | .drainBarrier => [.drainBarrier]
  | .inflightBarrier => [.inflightBarrier]
  | .terminationSignal => [.terminationSignal]

/-- The contents of a buffer, in the order of the pushes. -/
def delivered {R : Type} (units : List (WorkUnit R)) : List (Item R) := units.flatMap WorkUnit.items

theorem delivered_append {R : Type} (units : List (WorkUnit R)) (u : WorkUnit R) :
    delivered (units ++ [u]) = delivered units ++ u.items := by
  rw [delivered, delivered, List.flatMap_append, List.flatMap_singleton]

/-- A collector without batches: every channel carries the stream the operations put on it. -/
structure Direct (R : Type) where
  downstreams : GoMap WorkerID Channel
  streams : Channel → List (Item R)
  connections : Nat
  routingTable : PartitionTable
  paused : Bool

namespace Direct

variable {R : Type} (d : Direct R)

/-- Put an item on one channel. -/
def put (ch : Channel) (i : Item R) : Direct R :=
  { d with streams := Function.update d.streams ch (d.streams ch ++ [i]) }

/-- Put an item on every connected channel. -/
def broadcast (i : Item R) : Direct R :=
  { d with streams := fun ch =>
      if ch ∈ d.downstreams.entries.map (·.2) then d.streams ch ++ [i] else d.streams ch }

def connect (w : WorkerID) : Outcome Abort (Direct R) :=
  if (d.downstreams.get w).isSome then .abort .downstreamExists
  else .ok { d with downstreams := d.downstreams.set w d.connections, connections := d.connections + 1 }

def remove (w : WorkerID) : Outcome Abort (Direct R) :=
  match d.downstreams.get w with
  | none => .abort .removedNotFound
  | some ch => .ok { d.put ch .terminationSignal with downstreams := d.downstreams.delete w }

def step (cfg : Config R) (d : Direct R) : Action R → Outcome Abort (Direct R)
  | .emit r =>
    if d.paused then .stuck
    else match d.downstreams.get (d.routingTable (cfg.bucketOf r)) with
      | none => .abort .downstreamNotFound
      | some ch => .ok (d.put ch (.record r))
  | .timeout => if d.paused then .stuck else .ok d
  | .broadcastWatermark ts => if d.paused then .stuck else .ok (d.broadcast (.watermark ts))
  | .pauseEmit => if d.paused then .stuck else .ok ({ d with paused := true }.broadcast .drainBarrier)
  | .resumeEmit => if d.paused then .ok { d with paused := false } else .abort .notLocked
  | .updateRouting toAdd toRemove table => do
    let d ← forEach toAdd connect d
    let d := if cfg.lazyProtocol then d.broadcast .inflightBarrier else d
    let d ← forEach toRemove remove d
    return { d with routingTable := table }

/-- A connection for every listed downstream. -/
def setup (workers : List WorkerID) (table : PartitionTable) : Direct R :=
  workers.foldl (fun d w => { d with
      downstreams := d.downstreams.set w d.connections
      connections := d.connections + 1 })
    ⟨∅, fun _ => [], 0, table, false⟩

def machine (cfg : Config R) : Machine (Direct R) (Action R) Abort where
  init d := ∃ workers table, d = setup workers table
  step := step cfg

end Direct

section Refinement

variable {R : Type} {cfg : Config R}

/-- The counts of a batch are those of its records, and it has room for them. -/
structure Batch.Fits (cfg : Config R) (b : Batch R) : Prop where
  bytes : b.totalNumBytes = (b.records.map cfg.getSize).sum
  count : b.totalNumRecords = b.records.length
  room : b.totalNumBytes ≤ cfg.batchSize

/-- The parts the two collectors share, and what was pushed so far is well formed. -/
structure Linked (cfg : Config R) (c : KeybyCollector R) (d : Direct R) : Prop where
  downstreams : c.downstreams = d.downstreams
  connections : c.connections = d.connections
  routingTable : c.routingTable = d.routingTable
  paused : c.paused = d.paused
  opened : ∀ w ch, d.downstreams.get w = some ch → ch < d.connections
  injective : ∀ w w' ch, d.downstreams.get w = some ch → d.downstreams.get w' = some ch → w = w'
  fits : ∀ ch b, .batch b ∈ c.buffers ch → b.Fits cfg

/-- The streams are delivered up to the pending batches. -/
structure Refines (cfg : Config R) (c : KeybyCollector R) (d : Direct R) : Prop extends Linked cfg c d where
  pending : ∀ w, (c.curBatches.get w).isSome ↔ (c.downstreams.get w).isSome
  pendingFits : ∀ w b, c.curBatches.get w = some b → b.Fits cfg
  connected : ∀ w ch b, c.downstreams.get w = some ch → c.curBatches.get w = some b →
    delivered (c.buffers ch) ++ b.records.map .record = d.streams ch
  closed : ∀ ch, (∀ w, c.downstreams.get w ≠ some ch) → delivered (c.buffers ch) = d.streams ch

/-- Nothing is pending: the streams are delivered. -/
structure Flushed (cfg : Config R) (c : KeybyCollector R) (d : Direct R) : Prop extends Linked cfg c d where
  streams : ∀ ch, delivered (c.buffers ch) = d.streams ch

theorem Batch.fits_allocate : (Batch.allocate : Batch R).Fits cfg := ⟨rfl, rfl, Nat.zero_le _⟩

variable {b : Batch R}

theorem Batch.Fits.addRecord (h : b.Fits cfg) (r : R) (hroom : cfg.getSize r + b.totalNumBytes ≤ cfg.batchSize) :
    (b.addRecord r (cfg.getSize r)).Fits cfg where
  bytes := by
    simp [Batch.addRecord, h.bytes]
  count := by
    simp [Batch.addRecord, h.count]
  room := by
    simp only [Batch.addRecord]
    omega

theorem Batch.Fits.records_eq_nil (h : b.Fits cfg) (hcount : ¬ 0 < b.totalNumRecords) :
    b.records = [] :=
  List.eq_nil_of_length_eq_zero (by have := h.count; omega)

variable {c : KeybyCollector R} {d : Direct R} {w : WorkerID}

section

variable (h : Refines cfg c d)
include h

/-- The unit of work and the pending batch of one downstream change together with its stream. -/
theorem Refines.update {ch : Channel} (hw : c.downstreams.get w = some ch)
    (units : List (WorkUnit R)) (batch : Batch R) (stream : List (Item R))
    (hunits : ∀ b, .batch b ∈ units → b.Fits cfg) (hbatch : batch.Fits cfg)
    (hstream : delivered units ++ batch.records.map .record = stream) :
    Refines cfg
      { c with buffers := Function.update c.buffers ch units, curBatches := c.curBatches.set w batch }
      { d with streams := Function.update d.streams ch stream } :=
  { h with
    fits ch' b hb := by
      rcases eq_or_ne ch' ch with rfl | hne
      · exact hunits b (by simpa using hb)
      · exact h.fits ch' b (by simpa [Function.update_of_ne hne] using hb)
    pending w' := by
      rw [GoMap.get_set]
      split_ifs with heq
      · subst heq
        simp [hw]
      · exact h.pending w'
    pendingFits w' b hb := by
      rw [GoMap.get_set] at hb
      split_ifs at hb with heq
      · cases hb
        exact hbatch
      · exact h.pendingFits w' b hb
    connected w' ch' b hw' hb := by
      change c.downstreams.get w' = some ch' at hw'
      rw [GoMap.get_set] at hb
      split_ifs at hb with heq
      · subst heq
        cases hb
        obtain rfl : ch = ch' := Option.some.inj (hw.symm.trans hw')
        simpa using hstream
      · have hne : ch' ≠ ch := by
          rintro rfl
          rw [h.downstreams] at hw hw'
          exact heq (h.injective w' w ch' hw' hw)
        simpa [Function.update_of_ne hne] using h.connected w' ch' b hw' hb
    closed ch' hclosed := by
      have hne : ch' ≠ ch := by
        rintro rfl
        exact hclosed w hw
      simpa [Function.update_of_ne hne] using h.closed ch' hclosed }

/-- Flushing one batch delivers its records and leaves the other batches alone. -/
theorem Refines.flushPendingBatch (hb : c.curBatches.get w = some b) :
    ∃ c', KeybyCollector.flushPendingBatch c ⟨w, b⟩ = .ok c' ∧ Refines cfg c' d ∧
      (∃ b', c'.curBatches.get w = some b' ∧ b'.records = []) ∧
      ∀ w', w' ≠ w → c'.curBatches.get w' = c.curBatches.get w' := by
  unfold KeybyCollector.flushPendingBatch
  split_ifs with hcount
  · obtain ⟨ch, hch⟩ := Option.isSome_iff_exists.mp ((h.pending w).mp (by simp [hb]))
    simp only [hch]
    refine ⟨_, rfl, ?_, ⟨Batch.allocate, by simp, rfl⟩, fun w' hne => by simp [hne]⟩
    have hstream := h.connected w ch b hch hb
    have hupdate := h.update hch (c.buffers ch ++ [.batch b]) Batch.allocate (d.streams ch)
      (fun b' hb' => by
        rcases List.mem_append.mp hb' with hold | hnew
        · exact h.fits ch b' hold
        · cases List.mem_singleton.mp hnew
          exact h.pendingFits w b hb)
      Batch.fits_allocate
      (by rw [delivered_append]; simpa [Batch.allocate, WorkUnit.items] using hstream)
    rwa [Function.update_eq_self] at hupdate
  · exact ⟨c, rfl, h, ⟨b, hb, (h.pendingFits w b hb).records_eq_nil hcount⟩, fun _ _ => rfl⟩

/-- `flushAllPendingBatches` returns, keeps the streams and leaves no record pending. -/
theorem Refines.flushAllPendingBatches : ∃ c', c.flushAllPendingBatches = .ok c' ∧ Refines cfg c' d ∧
      ∀ w b, c'.curBatches.get w = some b → b.records = [] := by
  -- the batches visited so far are empty, the others are still those the loop ranges over
  let visited (done : List (Sigma fun _ : WorkerID => Batch R)) (c' : KeybyCollector R) : Prop :=
    Refines cfg c' d ∧ (∀ e ∈ done, ∃ b, c'.curBatches.get e.1 = some b ∧ b.records = []) ∧
      ∀ w, w ∉ done.map (·.1) → c'.curBatches.get w = c.curBatches.get w
  have hloop : ∃ c', c.flushAllPendingBatches = .ok c' ∧ visited c.curBatches.entries c' := by
    refine forEach_total visited ⟨h, by simp, fun _ _ => rfl⟩ ?_
    rintro done ⟨w, b⟩ rest c₁ hsplit ⟨h₁, hdone, hsame⟩
    have hfresh : w ∉ done.map (·.1) := notMem_map_done c.curBatches.nodupKeys hsplit
    have hb : c₁.curBatches.get w = some b := by
      rw [hsame w hfresh, ← GoMap.mem_entries_iff, hsplit]
      simp
    obtain ⟨c₂, hbody, h₂, hempty, hothers⟩ := h₁.flushPendingBatch hb
    refine ⟨c₂, hbody, h₂, ?_, ?_⟩
    · intro e he
      rcases List.mem_append.mp he with hold | hnew
      · have hne : e.1 ≠ w := fun heq => hfresh (heq ▸ List.mem_map_of_mem hold)
        rw [hothers _ hne]
        exact hdone e hold
      · cases List.mem_singleton.mp hnew
        exact hempty
    · intro w' hw'
      rw [List.map_append, List.mem_append, not_or] at hw'
      rw [hothers w' (by simpa using hw'.2)]
      exact hsame w' hw'.1
  obtain ⟨c', hloop, href, hdone, hsame⟩ := hloop
  refine ⟨c', hloop, href, ?_⟩
  intro w b hb
  by_cases hw : w ∈ c.curBatches.entries.map (·.1)
  · obtain ⟨e, he, rfl⟩ := List.mem_map.mp hw
    obtain ⟨b', hb', hempty⟩ := hdone e he
    cases hb.symm.trans hb'
    exact hempty
  · rw [hsame w hw] at hb
    exact absurd (List.mem_map_of_mem ((GoMap.mem_entries_iff _ _ _).mpr hb)) hw

theorem Refines.flushed (hempty : ∀ w b, c.curBatches.get w = some b → b.records = []) : Flushed cfg c d where
  toLinked := h.toLinked
  streams ch := by
    by_cases hclosed : ∀ w, c.downstreams.get w ≠ some ch
    · exact h.closed ch hclosed
    · push Not at hclosed
      obtain ⟨w, hw⟩ := hclosed
      obtain ⟨b, hb⟩ := Option.isSome_iff_exists.mp ((h.pending w).mpr (by simp [hw]))
      have hstream := h.connected w ch b hw hb
      rwa [hempty w b hb, List.map_nil, List.append_nil] at hstream

end

theorem Flushed.refines (h : Flushed cfg c d)
    (hpending : ∀ w, (c.curBatches.get w).isSome ↔ (c.downstreams.get w).isSome)
    (hfits : ∀ w b, c.curBatches.get w = some b → b.Fits cfg)
    (hempty : ∀ w b, c.curBatches.get w = some b → b.records = []) : Refines cfg c d where
  toLinked := h.toLinked
  pending := hpending
  pendingFits := hfits
  connected w ch b _ hb := by
    rw [hempty w b hb, List.map_nil, List.append_nil]
    exact h.streams ch
  closed ch _ := h.streams ch

/-- A unit that is no batch is delivered as the one item it is. -/
def WorkUnit.Marks (u : WorkUnit R) (i : Item R) : Prop := u.items = [i] ∧ ∀ b, u ≠ .batch b

theorem KeybyCollector.foldl_pushToBuffer (u : WorkUnit R) (chs : List Channel) (hnodup : chs.Nodup)
    (c : KeybyCollector R) :
    chs.foldl (fun c ch => c.pushToBuffer ch u) c =
      { c with buffers := fun ch => if ch ∈ chs then c.buffers ch ++ [u] else c.buffers ch } := by
  induction chs generalizing c with
  | nil => simp
  | cons x rest ih =>
    obtain ⟨hx, hrest⟩ := List.nodup_cons.mp hnodup
    rw [List.foldl_cons, ih hrest]
    simp only [pushToBuffer, KeybyCollector.mk.injEq, true_and, and_true]
    funext ch
    rcases eq_or_ne ch x with rfl | hne
    · simp [hx]
    · simp [hne]

theorem Linked.channels_nodup (h : Linked cfg c d) : (d.downstreams.entries.map (·.2)).Nodup := by
  refine List.Nodup.map_on ?_ d.downstreams.nodupKeys.nodup
  rintro ⟨w, ch⟩ hw ⟨w', ch'⟩ hw' heq
  obtain rfl : ch = ch' := heq
  rw [GoMap.mem_entries_iff] at hw hw'
  rw [h.injective w w' ch hw hw']

theorem Linked.broadcast_eq (h : Linked cfg c d) (u : WorkUnit R) :
    c.broadcast u = { c with buffers := fun ch =>
      if ch ∈ d.downstreams.entries.map (·.2) then c.buffers ch ++ [u] else c.buffers ch } := by
  have hnodup := h.channels_nodup
  rw [← h.downstreams] at hnodup ⊢
  exact KeybyCollector.foldl_pushToBuffer u _ hnodup c

/-- After a flush a broadcast reaches every connected downstream behind all earlier records. -/
theorem Flushed.broadcast (h : Flushed cfg c d) {u : WorkUnit R} {i : Item R} (hu : u.Marks i) :
    Flushed cfg (c.broadcast u) (d.broadcast i) := by
  rw [h.broadcast_eq u]
  exact {
    downstreams := h.downstreams
    connections := h.connections
    routingTable := h.routingTable
    paused := h.paused
    opened := h.opened
    injective := h.injective
    fits := fun ch b hb => by
      refine h.fits ch b ?_
      dsimp only at hb
      split_ifs at hb with hch
      · rcases List.mem_append.mp hb with hold | hnew
        · exact hold
        · exact absurd (List.mem_singleton.mp hnew).symm (hu.2 b)
      · exact hb
    streams := fun ch => by
      simp only [Direct.broadcast]
      split_ifs with hch
      · rw [delivered_append, hu.1, h.streams ch]
      · exact h.streams ch }

theorem Linked.opened_set (h : Linked cfg c d) (w w' : WorkerID) (ch : Channel)
    (hw' : (d.downstreams.set w d.connections).get w' = some ch) : ch < d.connections + 1 := by
  rw [GoMap.get_set] at hw'
  split_ifs at hw' with heq
  · cases hw'
    exact Nat.lt_succ_self _
  · exact Nat.lt_succ_of_lt (h.opened w' ch hw')

theorem Linked.injective_set (h : Linked cfg c d) (w w₁ w₂ : WorkerID) (ch : Channel)
    (h₁ : (d.downstreams.set w d.connections).get w₁ = some ch)
    (h₂ : (d.downstreams.set w d.connections).get w₂ = some ch) : w₁ = w₂ := by
  rw [GoMap.get_set] at h₁ h₂
  split_ifs at h₁ h₂ with heq₁ heq₂ heq₂
  · rw [heq₁, heq₂]
  · cases h₁
    exact absurd (h.opened w₂ _ h₂) (lt_irrefl _)
  · cases h₂
    exact absurd (h.opened w₁ _ h₁) (lt_irrefl _)
  · exact h.injective w₁ w₂ ch h₁ h₂

variable {c' : KeybyCollector R}

theorem Flushed.connect (h : Flushed cfg c d) (hstep : c.connect w = .ok c') :
    ∃ d', d.connect w = .ok d' ∧ Flushed cfg c' d' := by
  unfold KeybyCollector.connect at hstep
  split_ifs at hstep with hexists
  cases hstep
  rw [h.downstreams] at hexists
  refine ⟨{ d with downstreams := d.downstreams.set w d.connections, connections := d.connections + 1 },
    if_neg hexists, ?_⟩
  exact {
    downstreams := by rw [h.downstreams, h.connections]
    connections := by rw [h.connections]
    routingTable := h.routingTable
    paused := h.paused
    opened := h.opened_set w
    injective := h.injective_set w
    fits := h.fits
    streams := h.streams }

theorem Flushed.remove (h : Flushed cfg c d) (hstep : c.remove w = .ok c') :
    ∃ d', d.remove w = .ok d' ∧ Flushed cfg c' d' := by
  unfold KeybyCollector.remove at hstep
  cases hw : c.downstreams.get w with
  | none => simp [hw] at hstep
  | some ch =>
    simp only [hw] at hstep
    cases hstep
    refine ⟨{ d.put ch .terminationSignal with downstreams := d.downstreams.delete w }, ?_, ?_⟩
    · rw [h.downstreams] at hw
      simp only [Direct.remove, hw]
    · exact {
        downstreams := by rw [h.downstreams]
        connections := h.connections
        routingTable := h.routingTable
        paused := h.paused
        opened := fun w' ch' hw' => by
          rw [GoMap.get_delete] at hw'
          split_ifs at hw'
          exact h.opened w' ch' hw'
        injective := fun w₁ w₂ ch' h₁ h₂ => by
          rw [GoMap.get_delete] at h₁ h₂
          split_ifs at h₁ h₂
          exact h.injective w₁ w₂ ch' h₁ h₂
        fits := fun ch' b hb => by
          refine h.fits ch' b ?_
          rcases eq_or_ne ch' ch with rfl | hne
          · simpa [KeybyCollector.pushToBuffer] using hb
          · simpa [KeybyCollector.pushToBuffer, hne] using hb
        streams := fun ch' => by
          rcases eq_or_ne ch' ch with rfl | hne
          · simp [KeybyCollector.pushToBuffer, Direct.put, delivered_append, WorkUnit.items, h.streams]
          · simp [KeybyCollector.pushToBuffer, Direct.put, hne, h.streams] }

theorem Flushed.rebuild (h : Flushed cfg c d) (table : PartitionTable) :
    Refines cfg (c.rebuild table) { d with routingTable := table } := by
  have hbatch : ∀ w b, (c.rebuild table).curBatches.get w = some b → b = Batch.allocate := by
    intro w b hb
    simp only [KeybyCollector.rebuild, GoMap.get_mapValues, Option.map_eq_some_iff] at hb
    obtain ⟨-, -, rfl⟩ := hb
    rfl
  have hflushed : Flushed cfg (c.rebuild table) { d with routingTable := table } := {
    downstreams := h.downstreams
    connections := h.connections
    routingTable := rfl
    paused := h.paused
    opened := h.opened
    injective := h.injective
    fits := h.fits
    streams := h.streams }
  refine hflushed.refines ?_ ?_ ?_
  · intro w
    simp [KeybyCollector.rebuild]
  · intro w b hb
    rw [hbatch w b hb]
    exact Batch.fits_allocate
  · intro w b hb
    rw [hbatch w b hb]
    rfl

section

variable (h : Refines cfg c d)
include h

theorem Refines.flush_broadcast {u : WorkUnit R} {i : Item R} (hu : u.Marks i)
    (hstep : (c.flushAllPendingBatches >>= fun c => .ok (c.broadcast u)) = .ok c') :
    Refines cfg c' (d.broadcast i) := by
  obtain ⟨c₁, hflush, h₁, hempty⟩ := h.flushAllPendingBatches
  rw [hflush, ok_bind] at hstep
  cases hstep
  have hflushed := (h₁.flushed hempty).broadcast hu
  have heq := h₁.broadcast_eq u
  refine hflushed.refines ?_ ?_ ?_ <;> rw [heq]
  · exact h₁.pending
  · exact h₁.pendingFits
  · exact hempty

theorem Refines.emit {r : R} (hstep : c.emit cfg r = .ok c') :
    ∃ ch, d.downstreams.get (d.routingTable (cfg.bucketOf r)) = some ch ∧
      Refines cfg c' (d.put ch (.record r)) := by
  unfold KeybyCollector.emit at hstep
  rw [← h.routingTable, ← h.downstreams]
  generalize c.routingTable (cfg.bucketOf r) = w at hstep ⊢
  cases hw : c.downstreams.get w with
  | none => simp [hw] at hstep
  | some ch =>
    cases hb : c.curBatches.get w with
    | none => simp [hw, hb] at hstep
    | some b =>
      refine ⟨ch, rfl, ?_⟩
      simp only [hw, hb] at hstep
      have hfits := h.pendingFits w b hb
      have hstream := h.connected w ch b hw hb
      split_ifs at hstep with hfull hlarge
      · cases hstep
        refine h.update hw (c.buffers ch ++ [.batch b]) _ _ ?_ ?_ ?_
        · intro b' hb'
          rcases List.mem_append.mp hb' with hold | hnew
          · exact h.fits ch b' hold
          · cases List.mem_singleton.mp hnew
            exact hfits
        · refine Batch.fits_allocate.addRecord r ?_
          simp only [Batch.allocate]
          omega
        · rw [delivered_append, ← hstream]
          simp [WorkUnit.items, Batch.addRecord, Batch.allocate]
      · cases hstep
        have hupdate := h.update hw (c.buffers ch) (b.addRecord r (cfg.getSize r))
          (d.streams ch ++ [.record r]) (h.fits ch) (hfits.addRecord r (by omega))
          (by rw [← hstream]; simp [Batch.addRecord])
        rwa [Function.update_eq_self] at hupdate

theorem Refines.updateRouting {toAdd toRemove : List WorkerID} {table : PartitionTable}
    (hstep : c.updateRouting cfg toAdd toRemove table = .ok c') :
    ∃ d', d.step cfg (.updateRouting toAdd toRemove table) = .ok d' ∧ Refines cfg c' d' := by
  unfold KeybyCollector.updateRouting at hstep
  obtain ⟨c₁, hflush, h₁, hempty⟩ := h.flushAllPendingBatches
  rw [hflush, ok_bind] at hstep
  obtain ⟨c₂, hconnect, hstep⟩ := bind_eq_ok.mp hstep
  have hconnects : ∀ c d w c', Flushed cfg c d → KeybyCollector.connect c w = .ok c' →
      ∃ d', Direct.connect d w = .ok d' ∧ Flushed cfg c' d' := fun _ _ _ _ hrel hbody => hrel.connect hbody
  have hremoves : ∀ c d w c', Flushed cfg c d → KeybyCollector.remove c w = .ok c' →
      ∃ d', Direct.remove d w = .ok d' ∧ Flushed cfg c' d' := fun _ _ _ _ hrel hbody => hrel.remove hbody
  obtain ⟨d₂, hconnect', h₂⟩ := forEach_simulation (Flushed cfg) hconnects (h₁.flushed hempty) hconnect
  have h₃ : Flushed cfg (if cfg.lazyProtocol then c₂.broadcast .inflightBarrier else c₂)
      (if cfg.lazyProtocol then d₂.broadcast .inflightBarrier else d₂) := by
    split_ifs
    · exact h₂.broadcast ⟨rfl, nofun⟩
    · exact h₂
  obtain ⟨c₄, hremove, hstep⟩ := bind_eq_ok.mp hstep
  obtain ⟨d₄, hremove', h₄⟩ := forEach_simulation (Flushed cfg) hremoves h₃ hremove
  cases hstep
  refine ⟨{ d₄ with routingTable := table }, ?_, h₄.rebuild table⟩
  simp only [Direct.step, hconnect', ok_bind, hremove']
  rfl

/-- One operation of the batching collector is the same operation of the direct one. -/
theorem Refines.step {a : Action R} (hstep : c.step cfg a = .ok c') :
    ∃ d', d.step cfg a = .ok d' ∧ Refines cfg c' d' := by
  have hpaused := h.paused
  cases a with
  | emit r =>
    simp only [KeybyCollector.step] at hstep
    split_ifs at hstep with hp
    obtain ⟨ch, hch, h'⟩ := h.emit hstep
    refine ⟨d.put ch (.record r), ?_, h'⟩
    simp [Direct.step, ← hpaused, hp, hch]
  | timeout =>
    simp only [KeybyCollector.step] at hstep
    split_ifs at hstep with hp
    obtain ⟨c₁, hflush, h₁, -⟩ := h.flushAllPendingBatches
    cases hflush.symm.trans hstep
    exact ⟨d, by simp [Direct.step, ← hpaused, hp], h₁⟩
  | broadcastWatermark ts =>
    simp only [KeybyCollector.step] at hstep
    split_ifs at hstep with hp
    have hmark : (WorkUnit.watermark ts : WorkUnit R).Marks (.watermark ts) := ⟨rfl, by simp⟩
    exact ⟨d.broadcast (.watermark ts), by simp [Direct.step, ← hpaused, hp], h.flush_broadcast hmark hstep⟩
  | pauseEmit =>
    simp only [KeybyCollector.step] at hstep
    split_ifs at hstep with hp
    have h₁ : Refines cfg { c with paused := true } { d with paused := true } :=
      { h with paused := rfl }
    have hmark : (WorkUnit.drainBarrier : WorkUnit R).Marks .drainBarrier := ⟨rfl, by simp⟩
    exact ⟨{ d with paused := true }.broadcast .drainBarrier, by simp [Direct.step, ← hpaused, hp],
      h₁.flush_broadcast hmark hstep⟩
  | resumeEmit =>
    simp only [KeybyCollector.step] at hstep
    split_ifs at hstep with hp
    cases hstep
    exact ⟨{ d with paused := false }, by simp [Direct.step, ← hpaused, hp], { h with paused := rfl }⟩
  | updateRouting toAdd toRemove table => exact h.updateRouting hstep

end

theorem Refines.setup (workers : List WorkerID) (table : PartitionTable) :
    Refines cfg (KeybyCollector.setup workers table) (Direct.setup workers table) := by
  suffices h : Linked cfg (KeybyCollector.setup workers table) (Direct.setup workers table) ∧
      (∀ ch, (KeybyCollector.setup (R := R) workers table).buffers ch = []) ∧
      (∀ ch, (Direct.setup (R := R) workers table).streams ch = []) ∧
      ∀ w, (KeybyCollector.setup (R := R) workers table).curBatches.get w =
        ((KeybyCollector.setup (R := R) workers table).downstreams.get w).map fun _ => Batch.allocate by
    obtain ⟨hlinked, hbuffers, hstreams, hbatches⟩ := h
    have hflushed : Flushed cfg (KeybyCollector.setup workers table) (Direct.setup workers table) :=
      ⟨hlinked, fun ch => by rw [hbuffers, hstreams]; rfl⟩
    have hempty : ∀ w b, (KeybyCollector.setup workers table).curBatches.get w = some b →
        b = (Batch.allocate : Batch R) := by
      intro w b hb
      rw [hbatches, Option.map_eq_some_iff] at hb
      obtain ⟨-, -, rfl⟩ := hb
      rfl
    refine hflushed.refines (fun w => by rw [hbatches]; simp) (fun w b hb => ?_) (fun w b hb => ?_)
    · rw [hempty w b hb]
      exact Batch.fits_allocate
    · rw [hempty w b hb]
      rfl
  unfold KeybyCollector.setup Direct.setup
  induction workers using List.reverseRecOn with
  | nil =>
    refine ⟨⟨rfl, rfl, rfl, rfl, by simp, by simp, by simp⟩, fun _ => rfl, fun _ => rfl, fun _ => rfl⟩
  | append_singleton workers w ih =>
    rw [List.foldl_append, List.foldl_append]
    obtain ⟨hlinked, hbuffers, hstreams, hbatches⟩ := ih
    refine ⟨?_, hbuffers, hstreams, ?_⟩
    · exact {
        downstreams := by
          simp only [List.foldl_cons, List.foldl_nil]
          rw [hlinked.downstreams, hlinked.connections]
        connections := congrArg (· + 1) hlinked.connections
        routingTable := hlinked.routingTable
        paused := hlinked.paused
        opened := hlinked.opened_set w
        injective := hlinked.injective_set w
        fits := hlinked.fits }
    · intro w'
      simp only [List.foldl_cons, List.foldl_nil, GoMap.get_set]
      split_ifs
      · rfl
      · exact hbatches w'

/-- The calls the collector answers with an abort: a record that does not fit or that its table sends to a
worker without connection, a resume without a pause, a routing update that adds a connected worker or removes
one that is not. -/
def Misused (cfg : Config R) (c : KeybyCollector R) (e : Abort) : Action R → Prop
  | .emit r => c.downstreams.get (c.routingTable (cfg.bucketOf r)) = none ∨ cfg.batchSize < cfg.getSize r
  | .resumeEmit => c.paused = false
  | .updateRouting _ _ _ => e = .downstreamExists ∨ e = .removedNotFound
  | _ => False

variable {e : Abort}

theorem KeybyCollector.connect_eq_abort (h : c.connect w = .abort e) : e = .downstreamExists := by
  unfold connect at h
  split_ifs at h
  cases h
  rfl

theorem KeybyCollector.remove_eq_abort (h : c.remove w = .abort e) : e = .removedNotFound := by
  unfold remove at h
  split at h
  · cases h
    rfl
  · cases h

theorem Refines.misused_of_abort {a : Action R} (h : Refines cfg c d) (hstep : c.step cfg a = .abort e) :
    Misused cfg c e a := by
  obtain ⟨c₁, hflush, -, -⟩ := h.flushAllPendingBatches
  cases a with
  | emit r =>
    simp only [KeybyCollector.step] at hstep
    split_ifs at hstep
    simp only [KeybyCollector.emit] at hstep
    simp only [Misused]
    generalize c.routingTable (cfg.bucketOf r) = w at hstep ⊢
    cases hw : c.downstreams.get w with
    | none => exact .inl rfl
    | some ch =>
      obtain ⟨b, hb⟩ := Option.isSome_iff_exists.mp ((h.pending w).mpr (by simp [hw]))
      simp only [hw, hb] at hstep
      split_ifs at hstep with hfull hlarge
      exact .inr hlarge
  | timeout =>
    simp [KeybyCollector.step, hflush] at hstep
    split_ifs at hstep
  | broadcastWatermark ts =>
    simp only [KeybyCollector.step, hflush, ok_bind] at hstep
    split_ifs at hstep
  | pauseEmit =>
    have hpause : Refines cfg { c with paused := true } { d with paused := true } := { h with paused := rfl }
    obtain ⟨c₂, hflush₂, -, -⟩ := hpause.flushAllPendingBatches
    simp only [KeybyCollector.step, hflush₂, ok_bind] at hstep
    split_ifs at hstep
  | resumeEmit =>
    simp only [KeybyCollector.step] at hstep
    split_ifs at hstep with hp
    simpa [Misused] using hp
  | updateRouting toAdd toRemove table =>
    simp only [KeybyCollector.step, KeybyCollector.updateRouting, hflush, ok_bind] at hstep
    rcases bind_eq_abort.mp hstep with hconnect | ⟨c₂, -, hrest⟩
    · obtain ⟨c', w, -, hbody⟩ := forEach_eq_abort hconnect
      exact .inl (KeybyCollector.connect_eq_abort hbody)
    · rcases bind_eq_abort.mp hrest with hremove | ⟨c₃, -, hend⟩
      · obtain ⟨c', w, -, hbody⟩ := forEach_eq_abort hremove
        exact .inr (KeybyCollector.remove_eq_abort hbody)
      · cases hend

/-- **Conservation.**  Whatever sequence of emissions, timer flushes, watermarks, pauses and routing updates
the collector goes through, every channel has received exactly the stream the operations put on it, a record
on the channel its routing table names at the emission, a watermark or barrier on every channel connected at
that moment; only the records of the pending batch of a connected channel are still to come.  No pushed batch
is larger than the batch size, a timer flush leaves nothing to come, and the only aborts are those of
misuse. -/
theorem keybyCollector_conserves (cfg : Config R) (workers : List WorkerID) (table : PartitionTable)
    (acts : List (Action R)) {c : KeybyCollector R}
    (hexec : (KeybyCollector.machine cfg).exec (KeybyCollector.setup workers table) acts = .ok c) :
    ∃ d, (Direct.machine cfg).exec (Direct.setup workers table) acts = .ok d ∧
      c.downstreams = d.downstreams ∧
      (∀ w ch, c.downstreams.get w = some ch → ∃ b, c.curBatches.get w = some b ∧
        delivered (c.buffers ch) ++ b.records.map .record = d.streams ch) ∧
      (∀ ch, (∀ w, c.downstreams.get w ≠ some ch) → delivered (c.buffers ch) = d.streams ch) ∧
      (∀ ch b, .batch b ∈ c.buffers ch →
        b.totalNumBytes = (b.records.map cfg.getSize).sum ∧ b.totalNumBytes ≤ cfg.batchSize) ∧
      (∀ c', c.step cfg .timeout = .ok c' → ∀ ch, delivered (c'.buffers ch) = d.streams ch) ∧
      ∀ a e, c.step cfg a = .abort e → Misused cfg c e a := by
  have hsteps : ∀ c d a c', Refines cfg c d → (KeybyCollector.machine cfg).step c a = .ok c' →
      ∃ d', (Direct.machine cfg).step d a = .ok d' ∧ Refines cfg c' d' := fun _ _ _ _ hrel hstep => hrel.step hstep
  obtain ⟨d, hdirect, h⟩ :=
    Machine.exec_simulation (Refines cfg) hsteps acts (Refines.setup workers table) hexec
  refine ⟨d, hdirect, h.downstreams, ?_, h.closed, ?_, ?_, fun a e => h.misused_of_abort⟩
  · intro w ch hw
    obtain ⟨b, hb⟩ := Option.isSome_iff_exists.mp ((h.pending w).mpr (by simp [hw]))
    exact ⟨b, hb, h.connected w ch b hw hb⟩
  · intro ch b hb
    exact ⟨(h.fits ch b hb).bytes, (h.fits ch b hb).room⟩
  · intro c' hstep
    simp only [KeybyCollector.step] at hstep
    split_ifs at hstep
    obtain ⟨c₁, hflush, h₁, hempty⟩ := h.flushAllPendingBatches
    cases hflush.symm.trans hstep
    exact (h₁.flushed hempty).streams

end Refinement

/-- Records are numbers of one byte in batches of two; the record is its own bucket. -/
def sampleConfig : Config Nat := ⟨2, fun _ => 1, id, true⟩

def sampleActions : List (Action Nat) :=
  [.emit 0, .emit 1, .emit 2, .broadcastWatermark 7, .emit 0, .updateRouting [5] [4] fun _ => 5, .emit 1]

theorem keybyCollector_conserves_rerouted :
    ∃ c b, (KeybyCollector.machine sampleConfig).exec (KeybyCollector.setup [3, 4] fun b => 3 + b % 2)
        sampleActions = .ok c ∧ c.curBatches.get 3 = some b ∧
      delivered (c.buffers 0) ++ b.records.map .record =
        [.record 0, .record 2, .watermark 7, .record 0, .inflightBarrier] := by
  obtain ⟨c, hc, hdown⟩ : ∃ c, (KeybyCollector.machine sampleConfig).exec
      (KeybyCollector.setup [3, 4] fun b => 3 + b % 2) sampleActions = .ok c ∧ c.downstreams.get 3 = some 0 :=
    ⟨_, rfl, by decide⟩
  obtain ⟨d, hd, -, hconnected, -⟩ := keybyCollector_conserves sampleConfig [3, 4] _ sampleActions hc
  obtain ⟨b, hb, hstream⟩ := hconnected 3 0 hdown
  refine ⟨c, b, hc, hb, hstream.trans ?_⟩
  cases hd
  decide

end Collector
end Koala
