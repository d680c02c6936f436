import Koala.LazyRescale.Places
import Koala.LazyRescale.Queues

/-!
# The invariant of the rescale protocol

One predicate for each party: the main loop of a task as a sender (`SenderOk`), its supplier (`SupplyOk`), a peer
channel (`LinkOk`) and the work unit a task has in hand (`HandOk`).  Together with the plan, the places of the
buckets and the upstream channels they are inductive (`Inv`).

The invariant holds in all runs, also in those where a task is told to fast forward again before its main loop
has noticed the end of the previous transition.  Such a task stays in transition without a handover, so the
predicates about senders distinguish who has handed over in this reconfiguration (`handed`) from who is in
transition.
-/

namespace Koala
namespace LazyRescale

open Lib Lib.Outcome Keyby Partition

variable {R K : Type}

/-- The handler has run `Activate` of this collector and is not done. -/
def Loop.Activated (l : Loop R) (second : Bool) : Prop := l.handler ≠ [] ∧ .activate second ∉ l.handler

/-- A task as a sender. -/
structure SenderOk (job : Job R K) (co : Coordinator) (handed : List WorkerID) (w : WorkerID) (l : Loop R)
    (p : Supplier) : Prop where
  /-- Past the loop head, transition means that the phase is raised. -/
  past : l.inTransition = true → l.phase = true ∨ l.pc = .head ∨ ∃ todo, l.pc = .exiting todo
  routing : l.phase = true → l.routing = some co.part
  raised : l.phase = true → w ∉ handed → l.pc = .handing ∨ l.handler = [.await]
  handling : l.handler ≠ [] → w ∉ handed ∧ (∃ todo, co.stage = .forward todo ∧ w ∈ todo) ∧
    l.handler <:+ handlerSteps job ∧ (l.phase = true → l.handler = [.await])
  routed : l.handler ≠ [] → .setRouting ∉ l.handler → l.routing = some co.part
  handing : l.pc = .handing → w ∉ handed ∧ l.phase = true ∧ l.inTransition = true ∧ l.handler = [] ∧
    co.stage.Acked w ∧ ∃ d, co.Sends job w d
  announcing : l.pc = .announcing → w ∈ handed ∧ l.phase = true ∧ l.inTransition = true
  leaving : ∀ todo, l.pc = .exiting todo → w ∈ handed → p.expectedInflightBarriers = -1 ∧
    todo <:+ exitSteps job ∧ (l.phase = true → .lower ∈ todo) ∧ l.inTransition = true
  /-- What is left of an exit when the next reconfiguration starts. -/
  stale : ∀ todo, l.pc = .exiting todo → w ∉ handed → ∀ x ∈ todo, ∃ second, x = .release second
  transit : w ∈ handed → p.expectedInflightBarriers ≠ -1 → l.phase = true ∧ l.inTransition = true
  left : w ∈ handed → p.expectedInflightBarriers = -1 → l.phase = true → ∃ todo, l.pc = .exiting todo
  sender : w ∈ handed → co.stage ≠ .idle → co.stage.Acked w ∧ ∃ d, co.Sends job w d
  acked : co.stage.Acked w → (∃ d, co.Sends job w d) → w ∈ handed ∨ l.pc = .handing
  awaited : ∀ todo, co.stage = .forward todo → w ∈ todo → ∃ d, co.Sends job w d
  peers : ∀ second ∈ job.inputs, (w ∈ handed ∧ co.stage ≠ .idle) ∨ l.pc = .handing ∨ l.Activated second →
    ∀ d ∈ l.peersOf second, co.Sends job w d
  idle : co.stage = .idle → l.phase = false ∧
    ∀ todo, l.pc = .exiting todo → ∀ x ∈ todo, ∃ second, x = .release second

/-- A peer channel. -/
structure LinkOk (job : Job R K) (co : Coordinator) (handed : List WorkerID) (store : LazyByKey.World K)
    (l : Loop R) (p : Supplier) (k : Link) (c : Chan R) : Prop where
  opened : c.status ≠ .closed → co.stage ≠ .idle ∧ co.Sends job k.src k.dst ∧ k.second ∈ job.inputs
  closed : c.status = .closed → c.queue = []
  arrived : c.status = .installed ∨ c.status = .registered → k.src ∈ handed ∧ Received job co store k.src k.dst
  batch : ∀ recs, .batch recs ∈ c.queue → ∀ r ∈ recs, co.Moves job (job.bucketOf r) k.src k.dst
  metadata : ∀ buckets, .metadata buckets ∈ c.queue → ∀ b ∈ buckets, co.Moves job b k.src k.dst
  /-- Between `Activate` and the handover the channel waits for its first unit. -/
  pending : co.Sends job k.src k.dst → k.second ∈ job.inputs → k.src ∉ handed →
    l.pc = .handing ∨ l.Activated k.second → c.status = .fresh ∧ .termination ∉ c.queue
  /-- The channel ends after `Deactivate` of its collector. -/
  ended : co.Sends job k.src k.dst → k.second ∈ job.inputs → k.src ∈ handed →
    c.status = .closed ∨ .termination ∈ c.queue →
      p.expectedInflightBarriers = -1 ∧ ∀ todo, l.pc = .exiting todo → .close k.second ∉ todo

variable (job : Job R K) (co : Coordinator)

/-- The peer channels a receiver expects. -/
def linksInto (w : WorkerID) : List Link :=
  (co.sourcesOf w).flatMap fun info => job.inputs.map fun second => ⟨info.source, w, second⟩

variable (queue : UpstreamID → WorkerID → List (UpstreamUnit R))

/-- The barrier of upstream task `u` has been taken by `w`. -/
def passed (w : WorkerID) (u : UpstreamID) : Bool := co.stage.swapped u && !hasBarrier (queue u w)

/-- How many barriers a task has taken. -/
def barrierCount (w : WorkerID) : Nat := job.upstreams.countP (passed co queue w)

/-- How many of its peer channels a task reads from. -/
def registeredCount (link : Link → Chan R) (w : WorkerID) : Nat :=
  (linksInto job co w).countP fun k => (link k).status = .registered

/-- All peers of a receiver have connected. -/
structure PeersConnected (job : Job R K) (co : Coordinator) (handed : List WorkerID) (store : LazyByKey.World K)
    (link : Link → Chan R) (w : WorkerID) (p : Supplier) : Prop where
  sync : p.peerChannelSync = []
  waited : co.stage.Connected w → p.allInboundPeersConnected = false
  arrived : ∀ src, co.Sends job src w → src ∈ handed ∧ Received job co store src w
  status : ∀ k ∈ linksInto job co w, (link k).status = .registered ∨ (link k).status = .closed

/-- The supplier of a task. -/
structure SupplyOk (job : Job R K) (co : Coordinator) (handed : List WorkerID) (store : LazyByKey.World K)
    (link : Link → Chan R) (queue : UpstreamID → WorkerID → List (UpstreamUnit R)) (w : WorkerID) (p : Supplier) :
    Prop where
  awaited : ∀ todo, co.stage = .init todo → w ∈ todo → co.Live w
  clean : ¬ (co.Live w ∧ co.stage.Inited w) → p = .idle
  barriers : co.Live w → co.stage.Inited w →
    (p.expectedInflightBarriers = job.upstreams.length ∧ p.inflightBarrierCounter = barrierCount job co queue w ∧
      barrierCount job co queue w < job.upstreams.length) ∨
    (p.expectedInflightBarriers = -1 ∧ p.inflightBarrierCounter = 0 ∧ job.upstreams ≠ [] ∧
      ∀ u ∈ job.upstreams, passed co queue w u = true)
  alone : co.Live w → co.stage.Inited w → (∀ src, ¬ co.Sends job src w) →
    p.expectedInboundPeers = -1 ∧ p.inboundPeerCounter = 0 ∧ p.allInboundPeersConnected = false ∧
      p.peerChannelSync = []
  peers : ∀ src, co.Live w → co.stage.Inited w → co.Sends job src w →
    (p.expectedInboundPeers = (linksInto job co w).length ∧ p.inboundPeerCounter = registeredCount job co link w ∧
      registeredCount job co link w < (linksInto job co w).length ∧
      p.allInboundPeersConnected = false ∧ ¬ co.stage.Connected w) ∨
    (p.expectedInboundPeers = -2 ∧ p.inboundPeerCounter = registeredCount job co link w ∧
      0 < registeredCount job co link w ∧ PeersConnected job co handed store link w p) ∨
    (p.expectedInboundPeers = -1 ∧ p.inboundPeerCounter = 0 ∧ registeredCount job co link w = 0 ∧
      PeersConnected job co handed store link w p)
  sync : ∀ src ∈ p.peerChannelSync, src ∈ handed ∧ Received job co store src w
  terminated : p.reconfigTerminated = true ∨ co.stage.Settled w →
    p.expectedInflightBarriers = -1 ∧ p.expectedInboundPeers = -1
  settled : co.stage.Settled w → p.reconfigTerminated = false

/-- The work unit a task has in hand. -/
structure HandOk (job : Job R K) (co : Coordinator) (store : LazyByKey.World K) (w : WorkerID) (l : Loop R) :
    Prop where
  input : ∀ recs second, l.pc = .batch recs second → second ∈ job.inputs
  batch : ∀ recs second, l.pc = .batch recs second → ∀ r ∈ recs,
    store.holder (job.bucketOf r) = some w ∨
      (co.Moves job (job.bucketOf r) w (co.part (job.bucketOf r)) ∧ l.inTransition = true)
  work : ∀ buckets, l.pc = .work buckets → ∀ b ∈ buckets, store.holder b = some w
  index : ∀ b ∈ l.index, store.holder b = some w ∨
    (l.pc = .announcing ∧ co.Moves job b w (co.part b))

/-- Work done at the new owner of a bucket is done while the new owner holds it. -/
structure LogOk (co : Coordinator) (store : LazyByKey.World K) (log : List Processed) : Prop where
  epoch : ∀ e ∈ log, e.epoch ≤ co.epoch
  current : ∀ e ∈ log, e.epoch = co.epoch → e.worker = e.dst → e.src ≠ e.dst →
    store.holder e.bucket = some e.dst ∧ co.part e.bucket = e.dst
  ordered : log.Pairwise fun e e' => e.epoch = e'.epoch → e.bucket = e'.bucket → e.worker = e.dst →
    e.src ≠ e.dst → e'.worker ≠ e.src

/-- **The invariant of the protocol.** -/
structure Inv [DecidableEq K] (job : Job R K) (s : Sys R K) : Prop where
  plan : Planned job s.co s.store.deployed
  custody : LazyByKey.Custody job.store s.store
  places : BucketPlaces job s.co s.handed s.store
  queues : RegularQueues job s.co s.up s.queue
  sender : ∀ w, SenderOk job s.co s.handed w (s.loop w) (s.sup w)
  link : ∀ k : Link, LinkOk job s.co s.handed s.store (s.loop k.src) (s.sup k.src) k (s.link k)
  supply : ∀ w, SupplyOk job s.co s.handed s.store s.link s.queue w (s.sup w)
  hand : ∀ w, HandOk job s.co s.store w (s.loop w)
  log : LogOk s.co s.store s.log

/-! ## Stages -/

variable {w : WorkerID} {stage : Stage}

theorem Stage.Acked.inited (h : stage.Acked w) (v : WorkerID) : stage.Inited v := by
  cases stage <;> first | exact h.elim | trivial

theorem Stage.Connected.inited (h : stage.Connected w) (v : WorkerID) :
    stage.Inited v := by
  cases stage <;> first | exact h.elim | trivial

theorem Stage.connected_of_swapped {u : UpstreamID} (h : stage.swapped u = true) (w : WorkerID) :
    stage.Connected w := by
  cases stage <;> trivial

theorem Stage.Inited.ne_idle (h : stage.Inited w) : stage ≠ .idle := by
  rintro rfl
  exact h

/-! ## The peer channels of a receiver -/

section Links

variable {job : Job R K} {co : Coordinator} {deployed : List WorkerID}

theorem mem_linksInto (h : Planned job co deployed) (hrunning : co.stage ≠ .idle) (w : WorkerID) (k : Link) :
    k ∈ linksInto job co w ↔ co.Sends job k.src w ∧ k.dst = w ∧ k.second ∈ job.inputs := by
  rw [← h.sources hrunning]
  unfold linksInto
  simp only [List.mem_flatMap, List.mem_map]
  constructor
  · rintro ⟨info, hinfo, second, hsecond, rfl⟩
    exact ⟨⟨info, hinfo, rfl⟩, rfl, hsecond⟩
  · rintro ⟨⟨info, hinfo, hsrc⟩, hdst, hsecond⟩
    refine ⟨info, hinfo, k.second, hsecond, ?_⟩
    rw [hsrc, ← hdst]

theorem dst_of_mem_linksInto {w : WorkerID} {k : Link} (hk : k ∈ linksInto job co w) : k.dst = w := by
  unfold linksInto at hk
  simp only [List.mem_flatMap, List.mem_map] at hk
  obtain ⟨info, -, second, -, rfl⟩ := hk
  rfl

theorem Job.inputs_nodup (job : Job R K) : job.inputs.Nodup := by
  unfold Job.inputs
  split_ifs <;> simp

theorem linksInto_nodup (h : Planned job co deployed) (hrunning : co.stage ≠ .idle) (w : WorkerID) :
    (linksInto job co w).Nodup := by
  unfold linksInto
  rw [List.nodup_flatMap]
  refine ⟨fun info _ => job.inputs_nodup.map fun a b heq => (Link.mk.inj heq).2.2, ?_⟩
  have hnodup := h.sources_nodup hrunning w
  rw [List.nodup_iff_pairwise_ne, List.pairwise_map] at hnodup
  refine hnodup.imp fun hne k hk hk' => ?_
  obtain ⟨a, -, rfl⟩ := List.mem_map.mp hk
  obtain ⟨b, -, heq⟩ := List.mem_map.mp hk'
  exact hne (Link.mk.inj heq).1.symm

theorem length_linksInto (job : Job R K) (co : Coordinator) (w : WorkerID) :
    (linksInto job co w).length = (co.sourcesOf w).length * job.inputs.length := by
  unfold linksInto
  simp [List.length_flatMap]

end Links

/-! ## What the invariant says at the end of each stage -/

namespace Inv

variable [DecidableEq K] {job : Job R K} {s : Sys R K}

theorem connected (h : Inv job s) {w : WorkerID} (hconnected : s.co.stage.Connected w) :
    (∀ src, s.co.Sends job src w → src ∈ s.handed ∧ Received job s.co s.store src w) ∧
      ∀ k ∈ linksInto job s.co w, (s.link k).status = .registered ∨ (s.link k).status = .closed := by
  have hpeers : ∀ src, s.co.Sends job src w →
      PeersConnected job s.co s.handed s.store s.link w (s.sup w) := fun src hsends => by
    have hlive := h.plan.updated_live w (h.plan.dst_mem hsends)
    rcases (h.supply w).peers src hlive (hconnected.inited w) hsends with hwaiting | hopen | hdone
    · exact absurd hconnected hwaiting.2.2.2.2
    · exact hopen.2.2.2
    · exact hdone.2.2.2
  refine ⟨fun src hsends => (hpeers src hsends).arrived src hsends, fun k hk => ?_⟩
  have hsends := ((mem_linksInto h.plan (hconnected.inited w).ne_idle w k).mp hk).1
  exact (hpeers k.src hsends).status k hk

/-- Once an upstream task uses the new partition, every bucket is with its new owner. -/
theorem holder_part (h : Inv job s) {u : UpstreamID} (hswapped : s.co.stage.swapped u = true) {b : BucketID}
    (hb : b < job.store.numBuckets) : s.store.holder b = some (s.co.part b) := by
  by_cases hsame : s.co.old b = s.co.part b
  · rw [← hsame]
    exact h.places.kept b hb (.inr hsame)
  · have hmoves : s.co.Moves job b (s.co.old b) (s.co.part b) := ⟨hb, rfl, rfl, hsame⟩
    exact ((h.connected (Stage.connected_of_swapped hswapped _)).1 _ ⟨b, hmoves⟩).2 b hmoves

theorem passed_of_aligned (h : Inv job s) {w : WorkerID} (hlive : s.co.Live w) (hinited : s.co.stage.Inited w)
    (haligned : (s.sup w).expectedInflightBarriers = -1) :
    job.upstreams ≠ [] ∧ ∀ u ∈ job.upstreams, passed s.co s.queue w u = true := by
  rcases (h.supply w).barriers hlive hinited with ⟨hwaiting, -⟩ | ⟨-, -, hpassed⟩
  · omega
  · exact hpassed

section Settled

variable (h : Inv job s) (hstage : s.co.stage = .settle [])

include h hstage

theorem settled_sup (w : WorkerID) : (s.sup w).expectedInflightBarriers = -1 ∧ (s.sup w).expectedInboundPeers = -1 :=
  (h.supply w).terminated (.inr (by simp [hstage, Stage.Settled]))

theorem settled_barrier (u : UpstreamID) (w : WorkerID) : hasBarrier (s.queue u w) = false := by
  by_cases hlive : s.co.Live w
  · by_cases hu : u ∈ job.upstreams
    · have hpassed :=
        (h.passed_of_aligned hlive (by simp [hstage, Stage.Inited]) (h.settled_sup hstage w).1).2 u hu
      simp only [passed, Bool.and_eq_true, Bool.not_eq_true'] at hpassed
      exact hpassed.2
    · rw [h.queues.outside u hu w]
      rfl
  · exact h.queues.dead u w hlive

theorem settled_link (k : Link) : (s.link k).status = .closed := by
  by_contra hopen
  obtain ⟨hrunning, hsends, hsecond⟩ := (h.link k).opened hopen
  have hlive := h.plan.updated_live k.dst (h.plan.dst_mem hsends)
  have hmem : k ∈ linksInto job s.co k.dst := (mem_linksInto h.plan hrunning k.dst k).mpr ⟨hsends, rfl, hsecond⟩
  have hinited : s.co.stage.Inited k.dst := by simp [hstage, Stage.Inited]
  have hdone := (h.settled_sup hstage k.dst).2
  rcases (h.supply k.dst).peers k.src hlive hinited hsends with hwaiting | hreading | hclosed
  · have := hwaiting.1
    omega
  · have := hreading.1
    omega
  · rcases hclosed.2.2.2.status k hmem with hregistered | hclosed'
    · have hnone := List.countP_eq_zero.mp hclosed.2.2.1 k hmem
      exact hnone (by simpa using hregistered)
    · exact hopen hclosed'

theorem settled_holder (b : BucketID) (hb : b < job.store.numBuckets) :
    s.store.holder b = some (s.co.part b) :=
  h.holder_part (u := 0) (by simp [hstage, Stage.swapped]) hb

theorem settled_handed {src dst : WorkerID} (hsends : s.co.Sends job src dst) : src ∈ s.handed :=
  ((h.connected (w := dst) (by simp [hstage, Stage.Connected])).1 src hsends).1

end Settled

end Inv

end LazyRescale
end Koala
