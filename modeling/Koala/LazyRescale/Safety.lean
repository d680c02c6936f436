import Koala.LazyRescale.Hands

/-!
# Single ownership over whole runs

The invariant holds along every run of the protocol.  Its `store` component moves by steps of the state service's
machine (`Step.store`), and each of them meets that machine's routing contract (`Inv.routed`): work units read keys
of buckets their task holds, and a handover takes from a task only what it holds.
-/

namespace Koala
namespace LazyRescale

open Lib Lib.Outcome Keyby Partition

variable {R K : Type}

/-- What an action does to the state service. -/
def Action.storeAction (job : Job R K) (s : Sys R K) : Action R K → Option (LazyByKey.Action K)
  | .initTask w => if w ∈ s.co.added then some (.deploy w s.co.part) else none
  | .install src dst => some (.receive src dst)
  | .handover w => (s.loop w).routing.map (.handover w)
  | .startEventual w => some (.startEventual w (s.co.affectedOf job w))
  | .store a => some a
  | _ => none

variable [DecidableEq K] {job : Job R K} {s s' : Sys R K} {a : Action R K}

/-- **The protocol drives the state service**: a step does nothing to it or takes one of its steps. -/
theorem Step.store (hstep : Step job s a s') : (a.storeAction job s = none ∧ s'.store = s.store) ∨
    ∃ c, a.storeAction job s = some c ∧ LazyByKey.step job.store s.store c = .ok s'.store := by
  cases hstep with
  | initOld _ _ _ _ hold => exact .inl ⟨if_neg hold, rfl⟩
  | initNew _ _ _ _ _ hnew _ hstore => exact .inr ⟨_, if_pos hnew, hstore⟩
  | install _ _ _ _ _ _ hstore | startEventual _ _ _ _ _ _ hstore | read _ _ _ _ _ _ hstore | run _ _ _ _ hstore
  | readDone _ _ hstore | flush _ _ _ _ hstore | endUnit _ _ hstore => exact .inr ⟨_, rfl, hstore⟩
  | handover w routing _ _ _ _ hrouting _ _ hstore =>
    exact .inr ⟨.handover w routing, by simp [Action.storeAction, hrouting], hstore⟩
  | _ => exact .inl ⟨rfl, rfl⟩

namespace Inv

section

variable (h : Inv job s)
include h

theorem routed_handover {w : WorkerID} (hpc : (s.loop w).pc = .handing) :
    LazyByKey.Routed job.store s.store (.handover w s.co.part) := fun b hb hleaves => by
  obtain ⟨-, hw⟩ := h.handing_routing hpc
  exact h.places.holder_old ((h.places.leaves_iff h.custody hw hb).mp hleaves) hw

/-- The workers an owner is asked to empty are about to be removed. -/
theorem affected {w : WorkerID} {e : BucketID × List WorkerID} (he : e ∈ s.co.affectedOf job w) :
    w ∈ s.co.updated ∧ ∀ v ∈ e.2, v ∈ s.co.tasks ∧ v ∉ s.co.updated := by
  unfold Coordinator.affectedOf at he
  obtain ⟨b, hb, hentry⟩ := List.mem_filterMap.mp he
  simp only [List.mem_filter, List.mem_range, decide_eq_true_eq] at hb
  split at hentry
  · cases hentry
  · cases hentry
    refine ⟨hb.2 ▸ h.plan.part_mem b hb.1, fun v hv => (h.plan.removed_iff v).mp ?_⟩
    simpa using (List.mem_filter.mp hv).2

theorem routed_startEventual (w : WorkerID) :
    LazyByKey.Routed job.store s.store (.startEventual w (s.co.affectedOf job w)) := by
  intro e he hmem
  obtain ⟨hupdated, hgone⟩ := h.affected he
  exact (hgone w hmem).2 hupdated

/-- **Every access of the protocol meets the routing contract of the state service.** -/
theorem routed (hstep : Step job s a s') {c : LazyByKey.Action K}
    (hc : a.storeAction job s = some c) : LazyByKey.Routed job.store s.store c := by
  cases hstep with
  | initNew w todo store hstage hw hnew =>
    simp only [Action.storeAction, if_pos hnew, Option.some.injEq] at hc
    subst hc
    trivial
  | initOld w todo hstage hw hold =>
    simp only [Action.storeAction, if_neg hold] at hc
    cases hc
  | install =>
    cases hc
    trivial
  | handover w routing table out store hpc hrouting =>
    simp only [Action.storeAction, (h.handing_routing hpc).1, Option.map_some, Option.some.injEq] at hc
    subst hc
    exact h.routed_handover hpc
  | startEventual w =>
    cases hc
    exact h.routed_startEventual w
  | read w keys buckets store hpc hkeys =>
    cases hc
    exact fun k hk => (h.hand w).work buckets hpc _ (hkeys k hk)
  | run | readDone | flush | endUnit =>
    cases hc
    trivial
  | _ => cases hc

theorem custody_step (hstep : Step job s a s') : LazyByKey.Custody job.store s'.store := by
  rcases hstep.store with ⟨-, hsame⟩ | ⟨c, hc, hstore⟩
  · rw [hsame]
    exact h.custody
  · exact h.custody.step (h.routed hstep hc) (LazyByKey.step_eq_ok hstore)

theorem step (hstep : Step job s a s') : Inv job s' where
  plan := h.plan.step hstep
  custody := h.custody_step hstep
  places := h.places.step h.custody h.plan (fun _ => h.handing_routing) h.settled_holder hstep
  queues := h.queues.step h.plan h.settled_barrier hstep
  sender := h.sender_step hstep
  link := h.link_step hstep
  supply := h.supply_step hstep
  hand := h.hand_step hstep
  log := h.log_step hstep

end

theorem initial {workers : List WorkerID} {owners : PartitionTable} (hnodup : workers.Nodup)
    (howners : ∀ b < job.store.numBuckets, owners b ∈ workers) : Inv job (Sys.initial job workers owners) := by
  have hnone : ∀ src dst, ¬ (Sys.initial job workers owners).co.Sends job src dst := by
    rintro src dst ⟨b, -, rfl, rfl, hne⟩
    exact hne rfl
  exact
    { plan := .initial hnodup howners
      custody := .initial job.store howners
      places := .initial job workers owners
      queues := .initial job workers owners
      sender := fun w => .fresh id nofun nofun
      link := fun k => .shut rfl rfl fun hsends => absurd hsends (hnone _ _)
      supply := fun w => .ofIdle (fun hyes => hyes.2) nofun
      hand := fun w => .ofIndex nofun nofun nofun
      log := ⟨nofun, nofun, .nil⟩ }

end Inv

/-- **The invariant holds in every state of every run.** -/
theorem inv_of_run {G : Sys R K → Action R K → Prop} (hrun : (machine job).Run G s) : Inv job s := by
  refine hrun.invariant (Inv job) ?_ fun s a s' _ h _ hstep => h.step (step_eq_ok hstep)
  rintro _ ⟨workers, owners, hnodup, howners, rfl⟩
  exact .initial hnodup howners

/-- **Single owner per key.**  In every state of every run, a task that processes records of a bucket lists the
bucket as its own and has a key map for it; any other worker that lists it is a new task that still waits for the
key map, and no other task is processing it.  Within one reconfiguration, once the new owner of a bucket that moves
has started on a record of it, the old owner starts on none. -/
theorem single_owner (job : Job R K) {s : Sys R K} (hrun : (machine job).Run (fun _ _ => True) s) :
    (∀ w buckets, (s.loop w).pc = .work buckets → ∀ b ∈ buckets,
      b < job.store.numBuckets ∧ ((s.store.node w).table b).workerID = w ∧ ((s.store.node w).table b).map.isSome ∧
      (∀ v ≠ w, ((s.store.node v).table b).workerID = v → s.co.part b = v ∧ v ∈ s.co.added) ∧
      ∀ v ≠ w, ∀ others, (s.loop v).pc = .work others → b ∉ others) ∧
    s.log.Pairwise fun e e' => e.epoch = e'.epoch → e.bucket = e'.bucket → e.worker = e.dst → e.src ≠ e.dst →
      e'.worker ≠ e.src := by
  have h := inv_of_run hrun
  refine ⟨fun w buckets hpc b hb => ?_, h.log.ordered⟩
  have hholder := (h.hand w).work buckets hpc b hb
  obtain ⟨-, hcolumn, hmap⟩ := h.custody.held b w hholder
  have hlt := (h.places.holder_cases h.custody hholder).1
  refine ⟨hlt, hcolumn, hmap, fun v hv hlists => ?_, fun v hv others hpc' hmem => ?_⟩
  · refine (h.places.column v b hlt hlists).resolve_left fun hother => hv ?_
    exact Option.some.inj (hother.symm.trans hholder)
  · exact hv (Option.some.inj (((h.hand v).work others hpc' b hmem).symm.trans hholder))

/-! ## A job to try things on -/

/-- Three buckets with one key and one record each, and one upstream task. -/
def sampleJob : Job (Fin 3) (Fin 3) where
  store := ⟨3, Fin.val, -1⟩
  bucketOf := Fin.val
  upstreams := [0]
  twoInputs := false
  second := fun _ => false
  eventual := false
  bucketOf_lt := fun r => r.isLt
  upstreams_nodup := by simp

/-- The job on worker 0. -/
def sampleStart : Sys (Fin 3) (Fin 3) := Sys.initial sampleJob [0] fun _ => 0

/-- Bucket 2 goes to worker 1. -/
def samplePart : PartitionTable := fun b => if b = 2 then 1 else 0

theorem sampleStart_init : (machine sampleJob).init sampleStart :=
  ⟨[0], fun _ => 0, by simp, fun _ _ => List.mem_singleton.mpr rfl, rfl⟩

/-- Worker 0 processes a record of bucket 2 while the scale-up starts, hands the bucket over, and forwards the
next one, which worker 1 processes. -/
def sampleForward : List (Action (Fin 3) (Fin 3)) :=
  [.emitBatch 0 0 [2], .emitBatch 0 0 [2, 0], .rescale (.grow [1]) samplePart, .loopHead 0,
    .takeRegular 0 0 false, .dispatch 0 [], .initTask 0, .initTask 1, .advance, .handle 0, .handle 0, .handle 0,
    .handle 0, .finish 0 [], .loopHead 0, .handover 0, .announce 0 false, .takeRegular 0 0 false, .dispatch 0 [],
    .advance, .install 0 1, .register ⟨0, 1, false⟩, .loopHead 1, .takePeer 1 0 false false, .dispatch 1 []]

theorem single_owner_forwarded : ∃ s, (machine sampleJob).Run (fun _ _ => True) s ∧
    (s.loop 0).pc = .work [0] ∧ (s.loop 1).pc = .work [2] ∧
    ((s.store.node 1).table 2).workerID = 1 ∧ ((s.store.node 1).table 2).map.isSome ∧
    s.log.Pairwise fun e e' => e.epoch = e'.epoch → e.bucket = e'.bucket → e.worker = e.dst → e.src ≠ e.dst →
      e'.worker ≠ e.src := by
  have hreplay : (machine sampleJob).replay sampleStart sampleForward (fun s =>
    decide ((s.loop 0).pc = .work [0] ∧ (s.loop 1).pc = .work [2])) = true := by decide
  obtain ⟨s, hrun, hstate⟩ := Machine.Run.of_replay _ _ sampleStart_init hreplay
  obtain ⟨hzero, hone⟩ := of_decide_eq_true hstate
  obtain ⟨howner, hlog⟩ := single_owner sampleJob hrun
  obtain ⟨-, howns, hmap, -⟩ := howner 1 [2] hone 2 (by simp)
  exact ⟨s, hrun, hzero, hone, howns, hmap, hlog⟩

/-- Worker 0 writes key 2; the scale-up then moves its bucket to worker 1. -/
def sampleWritten : List (Action (Fin 3) (Fin 3)) :=
  [.emitBatch 0 0 [2], .loopHead 0, .takeRegular 0 0 false, .dispatch 0 [], .store (.read 0 [2]),
    .store (.run 0 0 ⟨[], 0⟩), .store (.run 0 0 ⟨[], 0⟩), .store (.run 0 0 ⟨[], 0⟩), .store (.readDone 0),
    .store (.flush 0 2 (.set [7])), .store (.endUnit 0), .finish 0 [],
    .rescale (.grow [1]) samplePart, .initTask 0, .initTask 1, .advance, .handle 0, .handle 0, .handle 0, .handle 0,
    .loopHead 0, .handover 0, .announce 0 false, .advance, .install 0 1, .register ⟨0, 1, false⟩,
    .waitInboundPeers 1, .advance, .updateRouting 0, .advance, .takeRegular 0 0 false, .exit 0, .exit 0, .exit 0,
    .loopHead 1, .takePeer 1 0 false false, .takeRegular 1 0 false, .waitReconfigDone 0, .waitReconfigDone 1, .advance]

/-- Worker 1 reads key 2 from worker 0.  The value is in; storing it and moving its table entry is still to be done. -/
def sampleFetched : List (Action (Fin 3) (Fin 3)) :=
  sampleWritten ++ [.emitBatch 0 1 [2], .loopHead 1, .takeRegular 1 0 false, .dispatch 1 [], .store (.read 1 [2]),
    .store (.run 1 1 ⟨[], 0⟩), .store (.run 1 0 ⟨[], 0⟩), .store (.run 1 1 ⟨[], 0⟩)]

/-- A scale-down moves bucket 2 back, until worker 1 has handed its key map over. -/
def sampleBack : List (Action (Fin 3) (Fin 3)) :=
  [.rescale (.shrink 1) (fun _ => 0), .initTask 0, .initTask 1, .advance, .handle 1, .handle 1, .handle 1, .handle 1,
    .loopHead 1, .handover 1]

/-- Worker 1 deletes key 2. -/
def sampleDeleted : List (Action (Fin 3) (Fin 3)) :=
  sampleFetched ++ [.store (.run 1 0 ⟨[], 0⟩), .store (.run 1 0 ⟨[], 0⟩), .store (.run 1 0 ⟨[], 0⟩),
    .store (.run 1 0 ⟨[], 0⟩), .store (.readDone 1), .store (.flush 1 2 .delete), .store (.endUnit 1), .finish 1 []]

end LazyRescale
end Koala
