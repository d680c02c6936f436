import Koala.LazyRescale.Aborts
import Koala.LazyRescale.Upstreams

/-!
# Suppliers over whole runs

What the suppliers do in every run of the protocol with connections (`Koala.LazyRescale.Upstreams`).  The counters of
a supplier cannot be wrong (`Inv.step_avoids`): no barrier, peer or end of a peer comes when the supplier does not
expect it, and the metadata are clean when a reconfiguration starts.  The connections are another matter.  The end of
a peer channel can overtake the connection of an upstream task that is still being set up, which is fatal
(`supplierTracking_overtaken`); `supplierTracking` is about the runs in which it does not.
-/

namespace Koala
namespace LazyRescale

open Lib Lib.Outcome Keyby Partition
open Function (update update_self update_of_ne)
open Sys (send_link setLoop setStage setSup)

variable {R K : Type}

/-! ## The supplier's aborts -/

/-- The aborts of the supplier's counters. -/
def Abort.OfSupplier : Abort → Prop
  | notClean => True
  | unexpectedBarrier => True
  | unexpectedPeer _ => True
  | unexpectedPeerTermination _ => True
  | _ => False

namespace Inv

variable [DecidableEq K] {job : Job R K} {s : Sys R K}

section

variable (h : Inv job s)
include h

theorem init_clean {w : WorkerID} {todo : List WorkerID} (hstage : s.co.stage = .init todo)
    (hw : w ∈ todo) : s.sup w = .idle :=
  (h.supply w).clean fun hyes => by
    have hinited := hyes.2
    rw [hstage] at hinited
    exact hinited hw

theorem expected_of_ready {l : Link} (hready : (s.link l).status = .installed ∨
      ((s.link l).status = .fresh ∧ l.second = true ∧ l.src ∈ (s.sup l.dst).peerChannelSync)) :
    0 < (s.sup l.dst).expectedInboundPeers := by
  have hstatus : (s.link l).status ≠ .closed ∧ (s.link l).status ≠ .registered := by
    rcases hready with hinstalled | ⟨hfresh, -⟩
    · simp [hinstalled]
    · simp [hfresh]
  have hmem := h.mem_linksInto_of_open hstatus.1
  obtain ⟨hrunning, hsends, -⟩ := (h.link l).opened hstatus.1
  have hlive := h.plan.updated_live l.dst (h.plan.dst_mem hsends)
  have hhanded : l.src ∈ s.handed := by
    rcases hready with hinstalled | ⟨-, -, hsync⟩
    · exact ((h.link l).arrived (.inl hinstalled)).1
    · exact ((h.supply l.dst).sync l.src hsync).1
  have hinited := ((h.sender l.src).sender hhanded hrunning).1.inited l.dst
  -- once all peers are connected no channel is left to be added
  have hdone : ¬ PeersConnected job s.co s.handed s.store s.link l.dst (s.sup l.dst) := fun hconnected => by
    rcases hconnected.status l hmem with hst | hst
    · exact hstatus.2 hst
    · exact hstatus.1 hst
  rcases (h.supply l.dst).peers l.src hlive hinited hsends with hwaiting | hreading | hclosed
  · rw [hwaiting.1]
    exact_mod_cast List.length_pos_of_mem hmem
  · exact absurd hreading.2.2.2 hdone
  · exact absurd hclosed.2.2.2 hdone

theorem expected_of_barrier {u : UpstreamID} {w : WorkerID} {rest : List (UpstreamUnit R)}
    (hqueue : s.queue u w = .barrier :: rest) : 0 < (s.sup w).expectedInflightBarriers := by
  obtain ⟨hu, hswapped, -⟩ := h.barrier_spec hqueue
  have hbarrier : hasBarrier (s.queue u w) = true := by simp [hqueue, UpstreamUnit.isBarrier]
  have hlive : s.co.Live w := by
    by_contra hdead
    rw [h.queues.dead u w hdead] at hbarrier
    cases hbarrier
  rcases (h.supply w).barriers hlive ((Stage.connected_of_swapped hswapped w).inited w) with
    ⟨hexpected, -⟩ | ⟨-, -, -, hpassed⟩
  · rw [hexpected]
    exact_mod_cast List.length_pos_of_mem hu
  · have htaken := hpassed u hu
    simp [passed, hbarrier] at htaken

theorem connected_of_termination {k : Link} (hstatus : (s.link k).status = .registered)
    (hend : .termination ∈ (s.link k).queue) : (s.sup k.dst).expectedInboundPeers = -2 ∧
      PeersConnected job s.co s.handed s.store s.link k.dst (s.sup k.dst) := by
  have hopen : (s.link k).status ≠ .closed := by simp [hstatus]
  have hmem := h.mem_linksInto_of_open hopen
  obtain ⟨hrunning, hsends, hsecond⟩ := (h.link k).opened hopen
  have hhanded := ((h.link k).arrived (.inr hstatus)).1
  have hack := ((h.sender k.src).sender hhanded hrunning).1
  -- the sender has taken all its barriers, so the coordinator has waited for the receiver's peers
  have haligned := ((h.link k).ended hsends hsecond hhanded (.inr hend)).1
  have hsrc : s.co.Live k.src := .inl (h.plan.src_mem hsends)
  obtain ⟨hne, hpassed⟩ := h.passed_of_aligned hsrc (hack.inited k.src) haligned
  obtain ⟨u, hu⟩ := List.exists_mem_of_ne_nil _ hne
  have hswapped : s.co.stage.swapped u = true := by
    have htaken := hpassed u hu
    simp only [passed, Bool.and_eq_true] at htaken
    exact htaken.1
  have hlive := h.plan.updated_live k.dst (h.plan.dst_mem hsends)
  rcases (h.supply k.dst).peers k.src hlive (hack.inited k.dst) hsends with hwaiting | hreading | hclosed
  · exact absurd (Stage.connected_of_swapped hswapped k.dst) hwaiting.2.2.2.2
  · exact ⟨hreading.1, hreading.2.2.2⟩
  · have hnone := List.countP_eq_zero.mp hclosed.2.2.1 k hmem
    exact absurd hstatus (by simpa using hnone)

/-- **No step of the protocol ends in an abort of the supplier's counters.** -/
theorem step_avoids (a : Action R K) : Avoids Abort.OfSupplier (LazyRescale.step job s a) := by
  intro e he hbad
  cases step_eq_abort he with
  | notClean _ _ hstage hw hdirty => simp [h.init_clean hstage hw, Supplier.idle] at hdirty
  | unexpectedPeer _ hready => exact absurd (h.expected_of_ready hready) (by omega)
  | syncMap _ e hsync => exact validateSyncMap_avoids id (fun _ _ => id) id e hsync hbad
  | unexpectedBarrier _ _ _ _ hqueue =>
    exact absurd (h.expected_of_barrier hqueue) (by omega)
  | unexpectedTermination _ _ _ _ _ hstatus hqueue hexpected =>
    exact hexpected (h.connected_of_termination hstatus (by simp [hqueue])).1
  | _ => exact hbad

end

end Inv

/-! ## Steps that leave the connections alone -/

/-- Nothing changes that the connections of the suppliers depend on. -/
structure Quiet (s s' : Sys R K) : Prop where
  deployed : s'.store.deployed = s.store.deployed
  tasks : s'.co.tasks = s.co.tasks
  added : s'.co.added = s.co.added
  removed : s'.co.removed = s.co.removed
  plan : s'.co.plan = s.co.plan
  inited : ∀ w, s'.co.stage.Inited w ↔ s.co.stage.Inited w
  idle : s'.co.stage = .idle ↔ s.co.stage = .idle
  swapped : ∀ u, s'.co.stage.swapped u = false → s.co.stage.swapped u = false
  registered : ∀ k, (s'.link k).status = .registered ↔ (s.link k).status = .registered
  ended : ∀ u w, .termination ∈ s'.queue u w → .termination ∈ s.queue u w
  barriers : ∀ w, (s'.sup w).expectedInflightBarriers = (s.sup w).expectedInflightBarriers
  peers : ∀ w, (s'.sup w).expectedInboundPeers = (s.sup w).expectedInboundPeers

namespace Quiet

variable {s s' : Sys R K}

theorem rest (hstore : s'.store.deployed = s.store.deployed) (hco : s'.co = s.co)
    (hqueue : ∀ u w, .termination ∈ s'.queue u w → .termination ∈ s.queue u w)
    (hsup : ∀ w, (s'.sup w).expectedInflightBarriers = (s.sup w).expectedInflightBarriers ∧
      (s'.sup w).expectedInboundPeers = (s.sup w).expectedInboundPeers)
    (hlink : ∀ k, (s'.link k).status = .registered ↔ (s.link k).status = .registered) : Quiet s s' where
  deployed := hstore
  tasks := by rw [hco]
  added := by rw [hco]
  removed := by rw [hco]
  plan := by rw [hco]
  inited := fun w => by rw [hco]
  idle := by rw [hco]
  swapped := fun u h => by rwa [hco] at h
  registered := hlink
  ended := hqueue
  barriers := fun w => (hsup w).1
  peers := fun w => (hsup w).2

theorem relink (hstore : s'.store.deployed = s.store.deployed) (hco : s'.co = s.co) (hqueue : s'.queue = s.queue)
    (hsup : s'.sup = s.sup) (hlink : ∀ k, (s'.link k).status = .registered ↔ (s.link k).status = .registered) :
    Quiet s s' :=
  .rest hstore hco (fun u w h => by rwa [hqueue] at h) (fun w => by simp [hsup]) hlink

/-- Only the loops and upstream channels change, and no end is put into them. -/
theorem requeue (hstore : s'.store = s.store) (hco : s'.co = s.co) (hlink : s'.link = s.link)
    (hsup : s'.sup = s.sup) (hqueue : ∀ u w, .termination ∈ s'.queue u w → .termination ∈ s.queue u w) :
    Quiet s s' :=
  .rest (by rw [hstore]) hco hqueue (fun w => by simp [hsup]) fun k => by rw [hlink]

theorem restage (hstore : s'.store.deployed = s.store.deployed) {stage : Stage}
    (hco : s'.co = { s.co with stage := stage }) (hqueue : s'.queue = s.queue) (hlink : s'.link = s.link)
    (hsup : ∀ w, (s'.sup w).expectedInflightBarriers = (s.sup w).expectedInflightBarriers ∧
      (s'.sup w).expectedInboundPeers = (s.sup w).expectedInboundPeers)
    (hold : ∀ w, s.co.stage.Inited w) (hnew : ∀ w, stage.Inited w)
    (hswapped : ∀ u, stage.swapped u = false → s.co.stage.swapped u = false) : Quiet s s' where
  deployed := hstore
  tasks := by rw [hco]
  added := by rw [hco]
  removed := by rw [hco]
  plan := by rw [hco]
  inited := fun w => by
    rw [hco]
    exact iff_of_true (hnew w) (hold w)
  idle := by
    rw [hco]
    exact iff_of_false (hnew 0).ne_idle (hold 0).ne_idle
  swapped := fun u h => by
    rw [hco] at h
    exact hswapped u h
  registered := fun k => by rw [hlink]
  ended := fun u w h => by rwa [hqueue] at h
  barriers := fun w => (hsup w).1
  peers := fun w => (hsup w).2

end Quiet

/-- The steps that the connections of the suppliers depend on. -/
def Action.Loud (s : Sys R K) : Action R K → Prop
  | .rescale .. => True
  | .advance => s.co.stage = .settle []
  | .initTask _ => True
  | .register _ => True
  | .updateRouting _ => True
  | .takeRegular w u _ => ∃ rest, s.queue u w = .barrier :: rest
  | .takePeer w src second _ => ∃ rest, (s.link ⟨src, w, second⟩).queue = .termination :: rest
  | _ => False

section

variable [DecidableEq K] {job : Job R K} {s s' : Sys R K} {a : Action R K}

omit [DecidableEq K] in
theorem mem_pop_of_mem {u u' : UpstreamID} {w w' : WorkerID} {unit : UpstreamUnit R} {rest : List (UpstreamUnit R)}
    (hqueue : s.queue u w = unit :: rest) {x : UpstreamUnit R} (h : x ∈ (s.pop u w rest).queue u' w') :
    x ∈ s.queue u' w' := by
  unfold Sys.pop at h
  dsimp only at h
  by_cases hu : u' = u
  · subst hu
    rw [update_self] at h
    by_cases hw : w' = w
    · subst hw
      rw [update_self] at h
      rw [hqueue]
      exact List.mem_cons_of_mem _ h
    · rwa [update_of_ne hw] at h
  · rwa [update_of_ne hu] at h

omit [DecidableEq K] in
theorem termination_of_push {u u' : UpstreamID} {w' : WorkerID} {units : WorkerID → List (UpstreamUnit R)}
    (hunits : .termination ∉ units w') (h : .termination ∈ (s.push u units).queue u' w') :
    .termination ∈ s.queue u' w' := by
  unfold Sys.push at h
  dsimp only at h
  by_cases hu : u' = u
  · subst hu
    rw [update_self] at h
    exact (List.mem_append.mp h).resolve_right hunits
  · rwa [update_of_ne hu] at h

theorem registered_update {link : Link → Chan R} {k : Link} {c : Chan R}
    (hc : c.status = .registered ↔ (link k).status = .registered) (k' : Link) :
    (update link k c k').status = .registered ↔ (link k').status = .registered := by
  by_cases hk : k' = k
  · rw [hk, update_self]
    exact hc
  · rw [update_of_ne hk]

theorem Inv.quiet_step (h : Inv job s) (hstep : Step job s a s') (hloud : ¬ a.Loud s) : Quiet s s' := by
  have hstore : ∀ {b : LazyByKey.Action K} {store : LazyByKey.World K},
      LazyByKey.step job.store s.store b = .ok store → b.Quiet → store.deployed = s.store.deployed :=
    fun hs hb => ((LazyByKey.step_eq_ok hs).sameCustody hb).deployed
  cases hstep with
  | rescale | initOld | initNew | register | registerLast | updateRouting => exact absurd trivial hloud
  | complete hstage => exact absurd hstage hloud
  | takeBarrier _ _ _ rest _ hqueue | takeLastBarrier _ _ _ rest _ hqueue
  | peerTermination _ _ _ _ rest _ _ hqueue | peerLastTermination _ _ _ _ rest _ _ hqueue =>
    exact absurd ⟨rest, hqueue⟩ hloud
  | toForward hstage | toConnect hstage | toRoute hstage | loopEnter _ _ _ _ _ hstage =>
    exact .restage rfl rfl rfl rfl (fun _ => ⟨rfl, rfl⟩) (by simp [hstage, Stage.Inited])
      (fun _ => trivial) (by simp [hstage, Stage.swapped])
  | toEventual hstage | waitEventual _ _ _ hstage =>
    exact .restage rfl rfl rfl rfl (fun _ => ⟨rfl, rfl⟩) (by simp [hstage, Stage.Inited])
      (fun _ => trivial) (by simp [Stage.swapped])
  | toSettle hstage =>
    refine .restage rfl rfl rfl rfl (fun _ => ⟨rfl, rfl⟩) (fun w => ?_) (fun _ => trivial) (by simp [Stage.swapped])
    rcases hstage with hstage | hstage <;> simp [hstage, Stage.Inited]
  | startEventual _ _ _ _ hstage _ hstep =>
    exact .restage (hstore hstep trivial) rfl rfl rfl (fun _ => ⟨rfl, rfl⟩) (by simp [hstage, Stage.Inited])
      (fun _ => trivial) (by simp [Stage.swapped])
  | waitInboundPeers w _ hstage =>
    refine .restage rfl rfl rfl rfl (fun v => ?_) (by simp [hstage, Stage.Inited])
      (fun _ => trivial) (by simp [hstage, Stage.swapped])
    by_cases hv : v = w
    · subst hv
      simp [setSup, setStage]
    · simp [setSup, setStage, update_of_ne hv]
  | waitReconfigDone w _ hstage =>
    refine .restage rfl rfl rfl rfl (fun v => ?_) (by simp [hstage, Stage.Inited])
      (fun _ => trivial) (by simp [Stage.swapped])
    by_cases hv : v = w
    · subst hv
      simp [setSup, setStage]
    · simp [setSup, setStage, update_of_ne hv]
  | handleActivate w _ second _ hstage hw =>
    refine .relink rfl rfl rfl rfl fun k => ?_
    by_cases hk : k.src = w ∧ k.second = second ∧ k.dst ∈ s.co.destsOf w
    · have hsrc : k.src ∉ s.handed := hk.1 ▸ (h.sender w).forward_not_handed hstage hw
      simp only [if_pos hk]
      exact iff_of_false (by simp) fun hst => hsrc ((h.link k).arrived (.inr hst)).1
    · simp only [if_neg hk]
  | install src dst rest store hstatus hqueue hstep =>
    have hsame : store.deployed = s.store.deployed := by
      cases LazyByKey.step_eq_ok hstep
      rfl
    refine .rest hsame rfl (fun _ _ => id) (fun w => ?_)
      (registered_update (iff_of_false (by simp) (by simp [hstatus])))
    by_cases hw : w = dst
    · subst hw
      simp [setSup, Sys.setChan]
    · simp [setSup, Sys.setChan, update_of_ne hw]
  | handover _ _ _ _ store _ _ _ _ hstep =>
    have hsame : store.deployed = s.store.deployed := by
      cases LazyByKey.step_eq_ok hstep
      rfl
    refine .relink hsame rfl rfl rfl fun k => ?_
    simp only [setLoop, send_link]
  | announce =>
    refine .relink rfl rfl rfl rfl fun k => ?_
    simp only [setLoop, Sys.broadcast_link, send_link]
  | takeBatch w u progress recs rest hpc hqueue | takeWatermark w u progress rest hpc hqueue
  | takeTermination w u progress rest hpc hqueue =>
    exact .requeue rfl rfl rfl rfl fun u' w' hmem => mem_pop_of_mem hqueue hmem
  | peerBatch _ _ _ _ _ _ _ hstatus | peerWatermark _ _ _ _ _ _ hstatus | peerMetadata _ _ _ _ _ _ _ hstatus =>
    exact .relink rfl rfl rfl rfl (registered_update (iff_of_true rfl hstatus))
  | dispatchForward =>
    refine .relink rfl rfl rfl rfl fun k => ?_
    simp only [Sys.startWork, setLoop, send_link]
  | dispatchForwardAll | exitClose =>
    refine .relink rfl rfl rfl rfl fun k => ?_
    simp only [setLoop, send_link]
  | dispatchWatermark =>
    refine .relink rfl rfl rfl rfl fun k => ?_
    simp only [Sys.startWork, setLoop, Sys.broadcast_link]
  | emitBatch u w recs hu | emitWatermark u w hu =>
    refine .requeue rfl rfl rfl rfl fun u' w' hmem => termination_of_push ?_ hmem
    split_ifs <;> simp
  | read _ _ _ _ _ _ hstep =>
    exact .relink (hstore hstep trivial) rfl rfl rfl fun _ => Iff.rfl
  | run _ _ _ _ hstep | readDone _ _ hstep | flush _ _ _ _ hstep | endUnit _ _ hstep =>
    exact .relink (hstore hstep trivial) rfl rfl rfl fun _ => Iff.rfl
  | _ => exact .relink rfl rfl rfl rfl fun _ => Iff.rfl

end

end LazyRescale
end Koala
