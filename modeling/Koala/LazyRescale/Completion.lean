import Koala.LazyRescale.Safety

/-!
# The end of a reconfiguration

When the coordinator has finished waiting it terminates the removed tasks and forgets the reconfiguration.  Nothing may
be on its way then.  Records reach a task over upstream and peer channels, and a task has some in hand, in work and in
its window index; `bucketsAt` lists the buckets of all of these.
-/

namespace Koala
namespace LazyRescale

open Lib Keyby Partition

variable {R K : Type} (job : Job R K)

def UpstreamUnit.buckets : UpstreamUnit R → List BucketID
  | .batch recs => recs.map job.bucketOf
  | _ => []

/-- The buckets of the records and of the index entries a peer sends. -/
def PeerUnit.buckets : PeerUnit R → List BucketID
  | .batch recs => recs.map job.bucketOf
  | .metadata buckets => buckets
  | _ => []

def Pc.buckets : Pc R → List BucketID
  | .batch recs _ => recs.map job.bucketOf
  | .work buckets => buckets
  | _ => []

/-- What a task has: in its upstream channels, in hand or in work, and in its window index. -/
def Sys.bucketsAt (s : Sys R K) (w : WorkerID) : List BucketID :=
  (job.upstreams.flatMap fun u => (s.queue u w).flatMap (UpstreamUnit.buckets job)) ++ (s.loop w).pc.buckets job ++
    (s.loop w).index

variable [DecidableEq K] {job} {s : Sys R K}

namespace Inv

section

variable (h : Inv job s) {b : BucketID}
include h

theorem moves_of_mem_peer {k : Link} {unit : PeerUnit R} (hunit : unit ∈ (s.link k).queue) (hb : b ∈ unit.buckets job) :
    s.co.Moves job b k.src k.dst := by
  cases unit with
  | batch recs =>
    obtain ⟨r, hr, rfl⟩ := List.mem_map.mp hb
    exact (h.link k).batch recs hunit r hr
  | metadata buckets => exact (h.link k).metadata buckets hunit b hb
  | _ => cases hb

variable (hstage : s.co.stage = .settle []) {w : WorkerID}
include hstage

/-- What an upstream channel still holds is routed by the new partition, since its barrier has been taken. -/
theorem settled_upstream {u : UpstreamID} (hu : u ∈ job.upstreams) {unit : UpstreamUnit R}
    (hunit : unit ∈ s.queue u w) (hb : b ∈ unit.buckets job) : s.store.holder b = some w := by
  cases unit with
  | batch recs =>
    obtain ⟨r, hr, rfl⟩ := List.mem_map.mp hb
    have hshape := h.queues.shape u hu w
    rw [show s.co.stage.swapped u = true by simp [hstage, Stage.swapped]] at hshape
    rcases hshape with ⟨-, hrouted⟩ | ⟨before, after, hsplit, -⟩
    · rw [h.settled_holder hstage _ (job.bucketOf_lt r), hrouted recs hunit r hr]
    · have hfree := h.settled_barrier hstage u w
      rw [hsplit] at hfree
      simp [UpstreamUnit.isBarrier] at hfree
  | _ => cases hb

theorem settled_pc (hb : b ∈ (s.loop w).pc.buckets job) : s.store.holder b = some w := by
  cases hpc : (s.loop w).pc with
  | batch recs second =>
    rw [hpc] at hb
    obtain ⟨r, hr, rfl⟩ := List.mem_map.mp hb
    refine ((h.hand w).batch recs second hpc r hr).resolve_right fun hforward => ?_
    -- a task in transition past the loop head would have its phase raised
    rcases (h.sender w).past hforward.2 with hraised | hhead | ⟨todo, hexit⟩
    · rw [(h.settled_sender hstage w).1] at hraised
      cases hraised
    · rw [hpc] at hhead
      cases hhead
    · rw [hpc] at hexit
      cases hexit
  | work buckets =>
    rw [hpc] at hb
    exact (h.hand w).work buckets hpc b hb
  | _ =>
    rw [hpc] at hb
    cases hb

theorem settled_bucketsAt (hb : b ∈ s.bucketsAt job w) : s.store.holder b = some w := by
  simp only [Sys.bucketsAt, List.mem_append, List.mem_flatMap] at hb
  rcases hb with (⟨u, hu, unit, hunit, hb⟩ | hb) | hb
  · exact h.settled_upstream hstage hu hunit hb
  · exact h.settled_pc hstage hb
  · refine ((h.hand w).index b hb).resolve_right fun hannounce => ?_
    have hraised := ((h.sender w).announcing hannounce.1).2.1
    rw [(h.settled_sender hstage w).1] at hraised
    cases hraised

/-- A task that is about to be removed holds nothing. -/
theorem settled_removed (hw : w ∈ s.co.removed) : s.store.holder b ≠ some w := by
  intro hholder
  have hb := (h.places.holder_cases h.custody hholder).1
  have hpart := Option.some.inj (hholder.symm.trans (h.settled_holder hstage b hb))
  exact ((h.plan.removed_iff w).mp hw).2 (hpart ▸ h.plan.part_mem b hb)

end

end Inv

/-- **A reconfiguration ends with nothing on its way.**  In every run, when the coordinator has finished waiting: every
bucket is held by its new owner, no key map travels, all peer channels are closed and empty, and all suppliers are as
`InitLazyReconfig` requires.  Whatever a task still has is of buckets it holds, and a task that is about to be removed
holds no bucket and has nothing left. -/
theorem reconfiguration_settled (job : Job R K) {s : Sys R K} (hrun : (machine job).Run (fun _ _ => True) s)
    (hstage : s.co.stage = .settle []) :
    (∀ b < job.store.numBuckets, s.store.holder b = some (s.co.part b)) ∧ s.store.flight = [] ∧
      (∀ k, (s.link k).status = .closed ∧ (s.link k).queue = []) ∧ (∀ w, s.sup w = .idle) ∧
      (∀ w, ∀ b ∈ s.bucketsAt job w, s.store.holder b = some w) ∧
      ∀ w ∈ s.co.removed, (∀ b, s.store.holder b ≠ some w) ∧ s.bucketsAt job w = [] := by
  have h := inv_of_run hrun
  refine ⟨h.settled_holder hstage, h.places.flight_eq_nil h.custody (h.settled_holder hstage), fun k => ?_,
    h.settled_idle hstage, fun w b => h.settled_bucketsAt hstage, fun w hw => ⟨fun b => h.settled_removed hstage hw, ?_⟩⟩
  · have hclosed := h.settled_link hstage k
    exact ⟨hclosed, (h.link k).closed hclosed⟩
  · refine List.eq_nil_iff_forall_not_mem.mpr fun b hb => ?_
    exact h.settled_removed hstage hw (h.settled_bucketsAt hstage hb)

theorem sampleTwo_init : (machine sampleJob).init (Sys.initial sampleJob [0, 1] samplePart) :=
  ⟨[0, 1], samplePart, by simp, fun b _ => by by_cases hb : b = 2 <;> simp [samplePart, hb], rfl⟩

/-- Worker 1 forwards a record with its only bucket, and the channel is read. -/
def sampleForwarding : List (Action (Fin 3) (Fin 3)) :=
  [.emitBatch 0 1 [Fin.last 2], .rescale (.shrink 1) (fun _ => 0), .initTask 0, .initTask 1, .advance, .handle 1,
    .handle 1, .handle 1, .handle 1, .loopHead 1, .handover 1, .announce 1 false, .takeRegular 1 0 false,
    .dispatch 1 [], .advance, .install 1 0, .register ⟨1, 0, false⟩]

/-- Worker 1 is about to be removed. -/
def sampleShrink : List (Action (Fin 3) (Fin 3)) :=
  sampleForwarding ++ [.waitInboundPeers 0, .advance, .updateRouting 0, .advance, .loopHead 1, .takeRegular 1 0 false,
    .exit 1, .exit 1, .exit 1, .loopHead 0, .takePeer 0 1 false false, .dispatch 0 [], .finish 0 [], .loopHead 0,
    .takePeer 0 1 false false, .takeRegular 0 0 false, .waitReconfigDone 0, .waitReconfigDone 1]

theorem reconfiguration_settled_shrink : ∃ s, (machine sampleJob).Run (fun _ _ => True) s ∧ s.co.removed = [1] ∧
    s.co.stage = .settle [] ∧ s.store.holder 2 = some 0 ∧ s.bucketsAt sampleJob 1 = [] := by
  have hreplay : (machine sampleJob).replay (Sys.initial sampleJob [0, 1] samplePart) sampleShrink (fun s =>
    decide (s.co.stage = .settle [] ∧ s.co.removed = [1] ∧ s.co.part 2 = 0)) = true := by decide
  obtain ⟨s, hrun, hstate⟩ := Machine.Run.of_replay _ _ sampleTwo_init hreplay
  obtain ⟨hstage, hremoved, hpart⟩ := of_decide_eq_true hstate
  obtain ⟨hheld, -, -, -, -, hgone⟩ := reconfiguration_settled sampleJob hrun hstage
  exact ⟨s, hrun, hremoved, hstage, hpart ▸ hheld 2 (by decide), (hgone 1 (by simp [hremoved])).2⟩

/-- **What a peer channel carries follows the state.**  In every run a record or index entry on a peer channel is of a
bucket that moves from its sender to its receiver, and the channel is open.  When the receiver has taken the first unit,
so that it may take more, it holds the bucket. -/
theorem peerChannel_follows_state (job : Job R K) {s : Sys R K} (hrun : (machine job).Run (fun _ _ => True) s) (k : Link)
    {unit : PeerUnit R} (hunit : unit ∈ (s.link k).queue) {b : BucketID} (hb : b ∈ unit.buckets job) :
    s.co.stage ≠ .idle ∧ s.co.Moves job b k.src k.dst ∧ (s.link k).status ≠ .closed ∧
      ((s.link k).status ≠ .fresh → k.src ∈ s.handed ∧ s.store.holder b = some k.dst) := by
  have h := inv_of_run hrun
  have hopen : (s.link k).status ≠ .closed := fun hclosed => by
    rw [(h.link k).closed hclosed] at hunit
    cases hunit
  have hmoves := h.moves_of_mem_peer hunit hb
  refine ⟨((h.link k).opened hopen).1, hmoves, hopen, fun hstarted => ?_⟩
  have hready : (s.link k).status = .installed ∨ (s.link k).status = .registered := by
    cases hstatus : (s.link k).status <;> simp_all
  obtain ⟨hhanded, hreceived⟩ := (h.link k).arrived hready
  exact ⟨hhanded, hreceived b hmoves⟩

theorem peerChannel_follows_state_forwarding : ∃ s, (machine sampleJob).Run (fun _ _ => True) s ∧
    (s.link ⟨1, 0, false⟩).queue ≠ [] ∧ 1 ∈ s.handed ∧ s.store.holder 2 = some 0 := by
  have hreplay : (machine sampleJob).replay (Sys.initial sampleJob [0, 1] samplePart) sampleForwarding (fun s =>
    decide ((s.link ⟨1, 0, false⟩).status ≠ .fresh ∧
      2 ∈ (s.link ⟨1, 0, false⟩).queue.flatMap (PeerUnit.buckets sampleJob))) = true := by decide
  obtain ⟨s, hrun, hstate⟩ := Machine.Run.of_replay _ _ sampleTwo_init hreplay
  obtain ⟨hstarted, hmem⟩ := of_decide_eq_true hstate
  obtain ⟨unit, hunit, hb⟩ := List.mem_flatMap.mp hmem
  exact ⟨s, hrun, List.ne_nil_of_mem hunit, (peerChannel_follows_state sampleJob hrun _ hunit hb).2.2.2 hstarted⟩

end LazyRescale
end Koala
