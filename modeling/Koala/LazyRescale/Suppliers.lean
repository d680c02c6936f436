import Koala.Lib.Counting
import Koala.LazyRescale.Links

/-!
# Suppliers

`SupplyOk` along the steps of the protocol.  A supplier counts the barriers and the peer channels it has seen; the
counters agree with what is left in the channels, so a supplier that has counted to the end has nothing of this
reconfiguration in front of it.
-/

namespace Koala
namespace LazyRescale

open Lib Lib.Outcome Keyby Partition
open Function (update_self update_of_ne)
open Stage (swapped)

variable {R K : Type}

section Counters

variable {job : Job R K} {co : Coordinator} {w : WorkerID}

theorem barrierCount_congr {co' : Coordinator} {queue queue' : UpstreamID → WorkerID → List (UpstreamUnit R)}
    (h : ∀ u ∈ job.upstreams, passed co' queue' w u = passed co queue w u) :
    barrierCount job co' queue' w = barrierCount job co queue w :=
  List.countP_congr fun u hu => by rw [h u hu]

variable {link : Link → Chan R}

theorem registeredCount_congr {link' : Link → Chan R}
    (h : ∀ k ∈ linksInto job co w, ((link' k).status = .registered ↔ (link k).status = .registered)) :
    registeredCount job co link' w = registeredCount job co link w :=
  List.countP_congr fun k hk => by
    rw [decide_eq_true_eq, decide_eq_true_eq]
    exact h k hk

theorem registeredCount_register (hnodup : (linksInto job co w).Nodup) {k : Link} (hk : k ∈ linksInto job co w)
    (hold : (link k).status ≠ .registered) {c : Chan R} (hc : c.status = .registered) :
    registeredCount job co (Function.update link k c) w = registeredCount job co link w + 1 := by
  refine countP_turn_on hnodup hk (by simpa using hold) (by simpa using hc) fun k' _ hne => ?_
  rw [update_of_ne hne]

theorem registeredCount_close (hnodup : (linksInto job co w).Nodup) {k : Link} (hk : k ∈ linksInto job co w)
    (hold : (link k).status = .registered) {c : Chan R} (hc : c.status ≠ .registered) :
    registeredCount job co link w = registeredCount job co (Function.update link k c) w + 1 := by
  refine countP_turn_on hnodup hk (by simpa using hc) (by simpa using hold) fun k' _ hne => ?_
  rw [update_of_ne hne]

theorem registeredCount_eq_zero (h : ∀ k ∈ linksInto job co w, (link k).status ≠ .registered) :
    registeredCount job co link w = 0 :=
  List.countP_eq_zero.mpr fun k hk => by simpa using h k hk

end Counters

/-! ## Barriers in the queues -/

section Barriers

variable {job : Job R K} {co : Coordinator} {queue queue' : UpstreamID → WorkerID → List (UpstreamUnit R)}
  {u : UpstreamID} {w : WorkerID}

theorem passed_congr {v : UpstreamID} (h : hasBarrier (queue' v w) = hasBarrier (queue v w)) :
    passed co queue' w v = passed co queue w v := by
  unfold passed
  rw [h]

variable {rest : List (UpstreamUnit R)}

theorem hasBarrier_pop {unit : UpstreamUnit R} (hqueue : queue u w = unit :: rest) (hunit : unit.isBarrier = false)
    (u' : UpstreamID) (w' : WorkerID) :
    hasBarrier (Function.update queue u (Function.update (queue u) w rest) u' w') = hasBarrier (queue u' w') := by
  by_cases hu : u' = u
  · subst hu
    rw [update_self]
    by_cases hw : w' = w
    · subst hw
      rw [update_self, hqueue, hasBarrier_cons, hunit, Bool.false_or]
    · rw [update_of_ne hw]
  · rw [update_of_ne hu]

theorem hasBarrier_pop_other {w' : WorkerID} (hne : w' ≠ w) (u' : UpstreamID) :
    hasBarrier (Function.update queue u (Function.update (queue u) w rest) u' w') = hasBarrier (queue u' w') := by
  by_cases hu : u' = u
  · subst hu
    rw [update_self, update_of_ne hne]
  · rw [update_of_ne hu]

theorem hasBarrier_push {units : WorkerID → List (UpstreamUnit R)} (hunits : ∀ w, hasBarrier (units w) = false)
    (u' : UpstreamID) (w' : WorkerID) :
    hasBarrier (Function.update queue u (fun w => queue u w ++ units w) u' w') = hasBarrier (queue u' w') := by
  by_cases hu : u' = u
  · subst hu
    rw [update_self, hasBarrier_append, hunits, Bool.or_false]
  · rw [update_of_ne hu]

theorem barrierCount_pop (hu : u ∈ job.upstreams) (hqueue : queue u w = .barrier :: rest)
    (hswapped : co.stage.swapped u = true) (hfree : hasBarrier rest = false) :
    barrierCount job co (Function.update queue u (Function.update (queue u) w rest)) w
      = barrierCount job co queue w + 1 := by
  refine countP_turn_on job.upstreams_nodup hu ?_ ?_ fun v _ hne => passed_congr ?_
  · simp [passed, hqueue, UpstreamUnit.isBarrier]
  · simp [passed, hswapped, hfree]
  · rw [update_of_ne hne]

end Barriers

section Frame

variable {job : Job R K} {co co' : Coordinator} {handed handed' : List WorkerID} {store store' : LazyByKey.World K}
  {link link' : Link → Chan R} {queue queue' : UpstreamID → WorkerID → List (UpstreamUnit R)} {w : WorkerID}
  {p p' : Supplier}

section

variable (h : PeersConnected job co handed store link w p)
include h

theorem PeersConnected.frame
    (hsends : ∀ k ∈ linksInto job co w, co.Sends job k.src w) (hhanded : ∀ v ∈ handed, v ∈ handed')
    (hreceived : ∀ src, Received job co store src w → Received job co store' src w)
    (hlink : ∀ k ∈ linksInto job co w, k.src ∈ handed → (link' k).status = (link k).status) :
    PeersConnected job co handed' store' link' w p where
  sync := h.sync
  waited := h.waited
  arrived := fun src hsrc => (h.arrived src hsrc).imp (hhanded src) (hreceived src)
  status := fun k hk => by
    rw [hlink k hk (h.arrived k.src (hsends k hk)).1]
    exact h.status k hk

theorem PeersConnected.restage {stage : Stage} (hconnected : stage.Connected w → co.stage.Connected w) :
    PeersConnected job { co with stage := stage } handed store link w p :=
  ⟨h.sync, fun hst => h.waited (hconnected hst), h.arrived, h.status⟩

theorem PeersConnected.resupply (hsync : p'.peerChannelSync = p.peerChannelSync)
    (hflag : p'.allInboundPeersConnected = p.allInboundPeersConnected) :
    PeersConnected job co handed store link w p' :=
  ⟨hsync.trans h.sync, fun hst => hflag.trans (h.waited hst), h.arrived, h.status⟩

theorem PeersConnected.close (k : Link) :
    PeersConnected job co handed store (Function.update link k ⟨.closed, []⟩) w p := by
  refine ⟨h.sync, h.waited, h.arrived, fun k' hk' => ?_⟩
  by_cases heq : k' = k
  · rw [heq, update_self]
    exact .inr rfl
  · rw [update_of_ne heq]
    exact h.status k' hk'

end

/-- A receiver that reads from its peers and one that is done with them know that all have connected. -/
theorem imp_connected {a b c a' b' c' d : Prop} (h : d ∨ (a ∧ b ∧ c ∧ PeersConnected job co handed store link w p) ∨
      a' ∧ b' ∧ c' ∧ PeersConnected job co handed store link w p)
    (hpeers : PeersConnected job co handed store link w p → PeersConnected job co' handed' store' link' w p') :
    d ∨ (a ∧ b ∧ c ∧ PeersConnected job co' handed' store' link' w p') ∨
      a' ∧ b' ∧ c' ∧ PeersConnected job co' handed' store' link' w p' := by
  tauto

namespace SupplyOk

variable {deployed : List WorkerID}

theorem frame (h : SupplyOk job co handed store link queue w p) (hplan : Planned job co deployed)
    (hhanded : ∀ v ∈ handed, v ∈ handed')
    (hreceived : ∀ src, Received job co store src w → Received job co store' src w)
    (hlink : ∀ k ∈ linksInto job co w, (link' k).status = (link k).status ∨ (k.src ∉ handed ∧ (link k).status ≠ .registered ∧ (link' k).status ≠ .registered))
    (hqueue : ∀ u ∈ job.upstreams, passed co queue' w u = passed co queue w u) :
    SupplyOk job co handed' store' link' queue' w p :=
  { h with
    barriers := fun hlive hinited => by simpa +contextual only [barrierCount_congr hqueue, hqueue] using h.barriers hlive hinited
    peers := fun src hlive hinited hsends => by
      have hcount : registeredCount job co link' w = registeredCount job co link w :=
        registeredCount_congr fun k hk => by
          rcases hlink k hk with heq | ⟨-, hold, hnew⟩
          · rw [heq]
          · exact iff_of_false hnew hold
      have hconnected : PeersConnected job co handed store link w p →
          PeersConnected job co handed' store' link' w p := fun hpeers =>
        hpeers.frame (fun k hk => ((mem_linksInto hplan hinited.ne_idle w k).mp hk).1) hhanded hreceived
          fun k hk hsrc => (hlink k hk).resolve_right fun hfresh => hfresh.1 hsrc
      rw [hcount]
      exact imp_connected (h.peers src hlive hinited hsends) hconnected
    sync := fun src hsrc => (h.sync src hsrc).imp (hhanded src) (hreceived src) }

theorem restage (h : SupplyOk job co handed store link queue w p) (stage : Stage)
    (htodo : ∀ todo, stage = .init todo → w ∈ todo → co.Live w) (hinited : stage.Inited w ↔ co.stage.Inited w)
    (hconnected : ∀ src, co.Sends job src w → stage.Connected w → co.stage.Connected w)
    (hpassed : ∀ u ∈ job.upstreams, passed { co with stage := stage } queue' w u = passed co queue w u)
    (hsettled : stage.Settled w → co.stage.Settled w ∨ p = .idle) :
    SupplyOk job { co with stage := stage } handed store link queue' w p where
  awaited := htodo
  clean := fun hnot => h.clean fun hyes => hnot ⟨hyes.1, hinited.mpr hyes.2⟩
  barriers := fun hlive hini => by
    simpa +contextual only [barrierCount_congr hpassed, hpassed] using h.barriers hlive (hinited.mp hini)
  alone := fun hlive hini hnone => h.alone hlive (hinited.mp hini) hnone
  peers := fun src hlive hini hsends => by
    have hconn := hconnected src hsends
    rcases h.peers src hlive (hinited.mp hini) hsends with ⟨hexpected, hcounter, hless, hflag, hwaits⟩ | hopen
    · exact .inl ⟨hexpected, hcounter, hless, hflag, fun hst => hwaits (hconn hst)⟩
    · exact imp_connected (.inr hopen) (·.restage hconn)
  sync := h.sync
  terminated := fun hor => by
    rcases hor with hflag | hst
    · exact h.terminated (.inl hflag)
    · rcases hsettled hst with hold | hidle
      · exact h.terminated (.inr hold)
      · rw [hidle]
        exact ⟨rfl, rfl⟩
  settled := fun hst => by
    rcases hsettled hst with hold | hidle
    · exact h.settled hold
    · rw [hidle]
      rfl

theorem ofIdle (hout : ¬ (co.Live w ∧ co.stage.Inited w))
    (htodo : ∀ todo, co.stage = .init todo → w ∈ todo → co.Live w) :
    SupplyOk job co handed store link queue w .idle where
  awaited := htodo
  clean := fun _ => rfl
  barriers := fun hlive hini => absurd ⟨hlive, hini⟩ hout
  alone := fun hlive hini => absurd ⟨hlive, hini⟩ hout
  peers := fun _ hlive hini => absurd ⟨hlive, hini⟩ hout
  sync := nofun
  terminated := fun _ => ⟨rfl, rfl⟩
  settled := fun _ => rfl

variable {todo : List WorkerID}

/-- Another task has got its lazy metadata. -/
theorem await (h : SupplyOk job co handed store link queue w p) (hstage : co.stage = .init todo) {v : WorkerID}
    (hne : w ≠ v) : SupplyOk job { co with stage := .init (todo.filter (· ≠ v)) } handed store link queue w p := by
  refine h.restage _ ?_ ?_ (fun _ _ hst => hst.elim) ?_ nofun
  · rintro _ ⟨⟩ hmem
    exact h.awaited todo hstage (List.mem_of_mem_filter hmem)
  · simp [hstage, Stage.Inited, hne]
  · simp [passed, hstage, swapped]

theorem init (hplan : Planned job co deployed) (hstage : co.stage = .init todo) (hw : w ∉ todo) (hlive : co.Live w)
    (hpos : 0 < job.upstreams.length) (hlink : ∀ k ∈ linksInto job co w, (link k).status ≠ .registered) :
    SupplyOk job co handed store link queue w { Supplier.idle with
      expectedInflightBarriers := job.upstreams.length
      expectedInboundPeers := co.expectedInboundPeers job w } := by
  have hrunning : co.stage ≠ .idle := by rw [hstage]; simp
  have hzero : barrierCount job co queue w = 0 :=
    List.countP_eq_zero.mpr fun u _ => by simp [passed, hstage, swapped]
  refine
    { awaited := fun _ _ _ => hlive
      clean := fun hnot => absurd ⟨hlive, by rw [hstage]; exact hw⟩ hnot
      barriers := fun _ _ => .inl ⟨rfl, by rw [hzero]; rfl, by rw [hzero]; exact hpos⟩
      alone := fun _ _ hnone => ⟨?_, rfl, rfl, rfl⟩
      peers := fun src _ _ hsends => .inl ⟨?_, ?_, ?_, rfl, by rw [hstage]; exact id⟩
      sync := by simp [Supplier.idle]
      terminated := fun hor => ?_
      settled := fun _ => rfl }
  · -- a task without sources is not in the plan
    change co.expectedInboundPeers job w = -1
    unfold Coordinator.expectedInboundPeers
    cases hget : co.plan.get w with
    | none => rfl
    | some sources =>
      cases sources with
      | nil => exact absurd hget (hplan.plan_ne_nil w)
      | cons info rest =>
        have hmem : info.source ∈ (co.sourcesOf w).map MigrationInfo.source := by
          simp [Coordinator.sourcesOf, hget]
        exact absurd ((hplan.sources hrunning info.source w).mp hmem) (hnone info.source)
  · change co.expectedInboundPeers job w = _
    have hmem := (hplan.sources hrunning src w).mpr hsends
    rw [length_linksInto]
    unfold Coordinator.expectedInboundPeers
    unfold Coordinator.sourcesOf at hmem ⊢
    cases hget : co.plan.get w with
    | none => simp [hget] at hmem
    | some => simp
  · rw [registeredCount_eq_zero hlink]
    rfl
  · rw [registeredCount_eq_zero hlink]
    exact List.length_pos_of_mem
      ((mem_linksInto hplan hrunning w ⟨src, w, false⟩).mpr ⟨hsends, rfl, job.false_mem_inputs⟩)
  · rcases hor with hflag | hst
    · cases hflag
    · rw [hstage] at hst
      exact hst.elim

section

variable (h : SupplyOk job co handed store link queue w p)
include h

theorem live_of_ne (hne : p ≠ .idle) : co.Live w ∧ co.stage.Inited w := by
  by_contra hnot
  exact hne (h.clean hnot)

variable {rest : List (UpstreamUnit R)}

theorem takeBarrier {u : UpstreamID} (hu : u ∈ job.upstreams) (hqueue : queue u w = .barrier :: rest) (hswapped : co.stage.swapped u = true)
    (hfree : hasBarrier rest = false) (hpos : 0 < p.expectedInflightBarriers)
    (hmore : p.inflightBarrierCounter + 1 ≠ p.expectedInflightBarriers) :
    SupplyOk job co handed store link (Function.update queue u (Function.update (queue u) w rest)) w
      { p with inflightBarrierCounter := p.inflightBarrierCounter + 1 } :=
  { h with
    clean := fun hnot => absurd (h.live_of_ne (by rintro rfl; cases hpos)) hnot
    barriers := fun hlive hini => by
      rcases h.barriers hlive hini with ⟨hexpected, hcounter, hless⟩ | ⟨haligned, -⟩
      · rw [barrierCount_pop hu hqueue hswapped hfree]
        refine .inl ⟨hexpected, ?_, ?_⟩
        · change p.inflightBarrierCounter + 1 = _
          omega
        · omega
      · omega
    peers := fun src hlive hini hsends => imp_connected (h.peers src hlive hini hsends) (·.resupply rfl rfl) }

theorem takeLastBarrier {u : UpstreamID} (hu : u ∈ job.upstreams) (hqueue : queue u w = .barrier :: rest)
    (hswapped : co.stage.swapped u = true) (hfree : hasBarrier rest = false) (hpos : 0 < p.expectedInflightBarriers)
    (hlast : p.inflightBarrierCounter + 1 = p.expectedInflightBarriers) :
    SupplyOk job co handed store link (Function.update queue u (Function.update (queue u) w rest)) w
      { p with
        inflightBarrierCounter := 0
        expectedInflightBarriers := -1
        reconfigTerminated := p.reconfigTerminated || p.expectedInboundPeers = -1 } where
  awaited := h.awaited
  clean := fun hnot => absurd (h.live_of_ne (by rintro rfl; cases hpos)) hnot
  barriers := fun hlive hini => by
    rcases h.barriers hlive hini with ⟨hexpected, hcounter, hless⟩ | ⟨haligned, -⟩
    · refine .inr ⟨rfl, rfl, List.ne_nil_of_mem hu, ?_⟩
      refine List.countP_eq_length.mp ?_
      have hcount := barrierCount_pop hu hqueue hswapped hfree
      unfold barrierCount at hcount hcounter
      omega
    · omega
  alone := h.alone
  peers := fun src hlive hini hsends => imp_connected (h.peers src hlive hini hsends) (·.resupply rfl rfl)
  sync := h.sync
  terminated := fun hor => by
    have hgoing : ¬ (p.reconfigTerminated = true ∨ co.stage.Settled w) := fun hdone => by
      have := (h.terminated hdone).1
      omega
    rcases hor with hflag | hst
    · refine ⟨rfl, ?_⟩
      simp only [Bool.or_eq_true, decide_eq_true_eq] at hflag
      exact hflag.resolve_left fun hold => hgoing (.inl hold)
    · exact absurd (.inr hst) hgoing
  settled := fun hst => by
    have := (h.terminated (.inr hst)).1
    omega

theorem waiting (hpos : 0 < p.expectedInboundPeers) :
    (co.Live w ∧ co.stage.Inited w) ∧ p.expectedInboundPeers = (linksInto job co w).length ∧
      p.inboundPeerCounter = registeredCount job co link w ∧ ¬ co.stage.Connected w ∧
      ¬ (p.reconfigTerminated = true ∨ co.stage.Settled w) := by
  have hlive := h.live_of_ne (by rintro rfl; cases hpos)
  have hgoing : ¬ (p.reconfigTerminated = true ∨ co.stage.Settled w) := fun hdone => by
    have := (h.terminated hdone).2
    omega
  by_cases hsource : ∃ src, co.Sends job src w
  · obtain ⟨src, hsends⟩ := hsource
    rcases h.peers src hlive.1 hlive.2 hsends with hwaiting | ⟨hreading, -⟩ | ⟨hdone, -⟩
    · exact ⟨hlive, hwaiting.1, hwaiting.2.1, hwaiting.2.2.2.2, hgoing⟩
    · omega
    · omega
  · have := (h.alone hlive.1 hlive.2 fun src hsends => hsource ⟨src, hsends⟩).1
    omega

end

variable {k : Link} {c : Chan R}

section

variable (h : SupplyOk job co handed store link queue w p)
include h

theorem waitInboundPeers {todo' : List WorkerID}
    (hstage : co.stage = .connect todo) (hflag : p.allInboundPeersConnected = true) :
    SupplyOk job { co with stage := .connect todo' } handed store link queue w
      { p with allInboundPeersConnected := false } := by
  have hlive := h.live_of_ne (by rintro rfl; cases hflag)
  have hpassed : ∀ u ∈ job.upstreams,
      passed { co with stage := .connect todo' } queue w u = passed co queue w u := fun u _ => by
    simp [passed, hstage, swapped]
  exact
    { awaited := by simp
      clean := fun hnot => absurd ⟨hlive.1, trivial⟩ hnot
      barriers := fun hlive' _ => by
        simpa +contextual only [barrierCount_congr hpassed, hpassed] using h.barriers hlive' hlive.2
      alone := fun hlive' _ hnone => by
        have := (h.alone hlive' hlive.2 hnone).2.2.1
        rw [hflag] at this
        cases this
      peers := fun src hlive' _ hsends => by
        rcases h.peers src hlive' hlive.2 hsends with hwaiting | hopen
        · have := hwaiting.2.2.2.1
          rw [hflag] at this
          cases this
        · exact imp_connected (.inr hopen) fun hpeers => ⟨hpeers.sync, fun _ => rfl, hpeers.arrived, hpeers.status⟩
      sync := h.sync
      terminated := fun hor => h.terminated (.inl (hor.resolve_right id))
      settled := fun hst => hst.elim }

theorem waitReconfigDone {todo' : List WorkerID}
    (hstage : co.stage = .settle todo) (hflag : p.reconfigTerminated = true) :
    SupplyOk job { co with stage := .settle todo' } handed store link queue w
      { p with reconfigTerminated := false } := by
  have hlive := h.live_of_ne (by rintro rfl; cases hflag)
  have hconnected : co.stage.Connected w := by rw [hstage]; trivial
  have hpassed : ∀ u ∈ job.upstreams,
      passed { co with stage := .settle todo' } queue w u = passed co queue w u := fun u _ => by
    simp [passed, hstage, swapped]
  exact
    { awaited := by simp
      clean := fun hnot => absurd ⟨hlive.1, trivial⟩ hnot
      barriers := fun hlive' _ => by
        simpa +contextual only [barrierCount_congr hpassed, hpassed] using h.barriers hlive' hlive.2
      alone := fun hlive' _ hnone => h.alone hlive' hlive.2 hnone
      peers := fun src hlive' _ hsends => by
        rcases h.peers src hlive' hlive.2 hsends with hwaiting | hopen
        · exact absurd hconnected hwaiting.2.2.2.2
        · exact imp_connected (.inr hopen) fun hpeers =>
            ⟨hpeers.sync, fun _ => hpeers.waited hconnected, hpeers.arrived, hpeers.status⟩
      sync := h.sync
      terminated := fun _ => h.terminated (.inl hflag)
      settled := fun _ => rfl }

variable (hplan : Planned job co deployed) (hk : k ∈ linksInto job co w)
include hplan hk

theorem register (hold : (link k).status ≠ .registered) (hc : c.status = .registered)
    (hpos : 0 < p.expectedInboundPeers) (hmore : p.inboundPeerCounter + 1 ≠ p.expectedInboundPeers) :
    SupplyOk job co handed store (Function.update link k c) queue w
      { p with inboundPeerCounter := p.inboundPeerCounter + 1 } := by
  obtain ⟨hlive, hexpected, hcounter, hconnected, hgoing⟩ := h.waiting hpos
  have hrunning := hlive.2.ne_idle
  have hsends := ((mem_linksInto hplan hrunning w k).mp hk).1
  have hcount := registeredCount_register (linksInto_nodup hplan hrunning w) hk hold hc
  refine
    { h with
      clean := fun hnot => absurd hlive hnot
      alone := fun _ _ hnone => absurd hsends (hnone k.src)
      peers := fun src hlive' hini hsends' => ?_ }
  rcases h.peers src hlive' hini hsends' with hwaiting | ⟨hreading, -⟩ | ⟨hdone, -⟩
  · refine .inl ⟨hexpected, ?_, ?_, hwaiting.2.2.2.1, hconnected⟩
    · change p.inboundPeerCounter + 1 = _
      omega
    · have := hwaiting.2.2.1
      omega
  · omega
  · omega

theorem registerLast (hold : (link k).status ≠ .registered) (hc : c.status = .registered)
    (harrived : ∀ k' ∈ linksInto job co w, (Function.update link k c k').status = .registered → k'.src ∈ handed ∧ Received job co store k'.src w)
    (hpos : 0 < p.expectedInboundPeers) (hlast : p.inboundPeerCounter + 1 = p.expectedInboundPeers) :
    SupplyOk job co handed store (Function.update link k c) queue w { p with
      inboundPeerCounter := p.inboundPeerCounter + 1
      expectedInboundPeers := -2
      allInboundPeersConnected := true
      peerChannelSync := [] } := by
  obtain ⟨hlive, hexpected, hcounter, hconnected, hgoing⟩ := h.waiting hpos
  have hrunning := hlive.2.ne_idle
  have hsends := ((mem_linksInto hplan hrunning w k).mp hk).1
  have hcount := registeredCount_register (linksInto_nodup hplan hrunning w) hk hold hc
  have hall : ∀ k' ∈ linksInto job co w, (Function.update link k c k').status = .registered := by
    have hfull : registeredCount job co (Function.update link k c) w = (linksInto job co w).length := by
      omega
    intro k' hk'
    simpa using List.countP_eq_length.mp hfull k' hk'
  refine
    { h with
      clean := fun hnot => absurd hlive hnot
      alone := fun _ _ hnone => absurd hsends (hnone k.src)
      peers := fun src _ _ _ => .inr (.inl ⟨rfl, ?_, by omega, ?_⟩)
      sync := nofun
      terminated := fun hor => absurd hor hgoing }
  · change p.inboundPeerCounter + 1 = _
    omega
  · refine ⟨rfl, fun hst => absurd hst hconnected, fun src hsrc => ?_, fun k' hk' => .inl (hall k' hk')⟩
    have hmem := (mem_linksInto hplan hrunning w ⟨src, w, false⟩).mpr ⟨hsrc, rfl, job.false_mem_inputs⟩
    exact harrived _ hmem (hall _ hmem)

theorem terminate (hold : (link k).status = .registered) (hexpected : p.expectedInboundPeers = -2)
    (hmore : p.inboundPeerCounter - 1 ≠ 0) :
    SupplyOk job co handed store (Function.update link k ⟨.closed, []⟩) queue w
      { p with inboundPeerCounter := p.inboundPeerCounter - 1 } := by
  have hlive := h.live_of_ne (by rintro rfl; cases hexpected)
  have hrunning := hlive.2.ne_idle
  have hsends := ((mem_linksInto hplan hrunning w k).mp hk).1
  have hcount := registeredCount_close (c := ⟨.closed, []⟩) (linksInto_nodup hplan hrunning w) hk hold nofun
  refine
    { h with
      clean := fun hnot => absurd hlive hnot
      alone := fun _ _ hnone => absurd hsends (hnone k.src)
      peers := fun src hlive' hini hsends' => ?_ }
  rcases h.peers src hlive' hini hsends' with ⟨hwaiting, -⟩ | ⟨-, hcounter, hsome, hpeers⟩ | ⟨hdone, -⟩
  · omega
  · refine .inr (.inl ⟨hexpected, ?_, by omega, (hpeers.close k).resupply rfl rfl⟩)
    change p.inboundPeerCounter - 1 = _
    omega
  · omega

theorem terminateLast (hold : (link k).status = .registered) (hexpected : p.expectedInboundPeers = -2)
    (hlast : p.inboundPeerCounter - 1 = 0) :
    SupplyOk job co handed store (Function.update link k ⟨.closed, []⟩) queue w { p with
      inboundPeerCounter := p.inboundPeerCounter - 1
      expectedInboundPeers := -1
      reconfigTerminated := p.reconfigTerminated || p.expectedInflightBarriers = -1 } := by
  have hlive := h.live_of_ne (by rintro rfl; cases hexpected)
  have hrunning := hlive.2.ne_idle
  have hsends := ((mem_linksInto hplan hrunning w k).mp hk).1
  have hcount := registeredCount_close (c := ⟨.closed, []⟩) (linksInto_nodup hplan hrunning w) hk hold nofun
  have hgoing : ¬ (p.reconfigTerminated = true ∨ co.stage.Settled w) := fun hdone => by
    have := (h.terminated hdone).2
    omega
  refine
    { h with
      clean := fun hnot => absurd hlive hnot
      alone := fun _ _ hnone => absurd hsends (hnone k.src)
      peers := fun src hlive' hini hsends' => ?_
      terminated := fun hor => ?_
      settled := fun hst => absurd (.inr hst) hgoing }
  · rcases h.peers src hlive' hini hsends' with ⟨hwaiting, -⟩ | ⟨-, hcounter, hsome, hpeers⟩ | ⟨hdone, -⟩
    · omega
    · exact .inr (.inr ⟨rfl, hlast, by omega, (hpeers.close k).resupply rfl rfl⟩)
    · omega
  · rcases hor with hflag | hst
    · refine ⟨?_, rfl⟩
      simp only [Bool.or_eq_true, decide_eq_true_eq] at hflag
      exact hflag.resolve_left fun hold => hgoing (.inl hold)
    · exact absurd (.inr hst) hgoing

theorem install (hlive : co.Live w ∧ co.stage.Inited w) (hold : (link k).status = .fresh)
    (hc : c.status = .installed) (hreceived : ∀ src, Received job co store src w → Received job co store' src w)
    {sync : List WorkerID}
    (hsync : ∀ src ∈ sync, src ∈ p.peerChannelSync ∨ (src ∈ handed ∧ Received job co store' src w)) :
    SupplyOk job co handed store' (Function.update link k c) queue w { p with peerChannelSync := sync } := by
  have hsends := ((mem_linksInto hplan hlive.2.ne_idle w k).mp hk).1
  have hcount : registeredCount job co (Function.update link k c) w = registeredCount job co link w :=
    registeredCount_congr fun k' _ => by
      by_cases heq : k' = k
      · rw [heq, update_self, hc, hold]
        simp
      · rw [update_of_ne heq]
  have hopen : ¬ PeersConnected job co handed store link w p := fun hpeers => by
    have := hpeers.status k hk
    simp [hold] at this
  refine
    { h with
      clean := fun hnot => absurd hlive hnot
      alone := fun _ _ hnone => absurd hsends (hnone k.src)
      peers := fun src hlive' hini hsends' => ?_
      sync := fun src hsrc => ?_ }
  · rw [hcount]
    rcases h.peers src hlive' hini hsends' with hwaiting | hreading | hdone
    · exact .inl hwaiting
    · exact absurd hreading.2.2.2 hopen
    · exact absurd hdone.2.2.2 hopen
  · rcases hsync src hsrc with hold' | hnew
    · exact (h.sync src hold').imp_right (hreceived src)
    · exact hnew

end

theorem update {sup : WorkerID → Supplier} (hw : SupplyOk job co handed store link queue w p)
    (hothers : ∀ v ≠ w, SupplyOk job co handed store link queue v (sup v)) (v : WorkerID) :
    SupplyOk job co handed store link queue v (Function.update sup w p v) := by
  by_cases hv : v = w
  · rw [hv, update_self]
    exact hw
  · rw [update_of_ne hv]
    exact hothers v hv

end SupplyOk

theorem status_update {k : Link} {c : Chan R} (hc : c.status = (link k).status) (k' : Link) :
    (Function.update link k c k').status = (link k').status := by
  by_cases heq : k' = k
  · rw [heq, update_self, hc]
  · rw [update_of_ne heq]

end Frame

/-! ## Steps -/

abbrev SupplyIn (job : Job R K) (s : Sys R K) (w : WorkerID) : Prop :=
  SupplyOk job s.co s.handed s.store s.link s.queue w (s.sup w)

namespace Inv

variable [DecidableEq K] {job : Job R K} {s s' : Sys R K} {a : Action R K}

/-- At the end of a reconfiguration all suppliers are as they were at its start. -/
theorem settled_idle (h : Inv job s) (hstage : s.co.stage = .settle []) (w : WorkerID) : s.sup w = .idle := by
  have hsupply := h.supply w
  obtain ⟨hbarriers, hpeers⟩ := h.settled_sup hstage w
  by_cases hlive : s.co.Live w
  · have hinited : s.co.stage.Inited w := by rw [hstage]; trivial
    have hflag := hsupply.settled (by simp [hstage, Stage.Settled])
    have hcounter : (s.sup w).inflightBarrierCounter = 0 := by
      rcases hsupply.barriers hlive hinited with ⟨hexpected, -⟩ | ⟨-, hzero, -⟩
      · omega
      · exact hzero
    have hrest : (s.sup w).inboundPeerCounter = 0 ∧ (s.sup w).allInboundPeersConnected = false ∧
        (s.sup w).peerChannelSync = [] := by
      by_cases hsource : ∃ src, s.co.Sends job src w
      · obtain ⟨src, hsends⟩ := hsource
        rcases hsupply.peers src hlive hinited hsends with ⟨hwaiting, -⟩ | ⟨hreading, -⟩ | hdone
        · omega
        · omega
        · exact ⟨hdone.2.1, hdone.2.2.2.waited (by rw [hstage]; trivial), hdone.2.2.2.sync⟩
      · exact (hsupply.alone hlive hinited fun src hsends => hsource ⟨src, hsends⟩).2
    cases hp : s.sup w with
    | mk =>
      rw [hp] at hbarriers hpeers hflag hcounter hrest
      obtain ⟨hpeer, hconnected, hsync⟩ := hrest
      simp only at hbarriers hpeers hflag hcounter hpeer hconnected hsync
      subst hbarriers hpeers hflag hcounter hpeer hconnected hsync
      rfl
  · exact hsupply.clean fun hyes => hlive hyes.1

theorem init_not_registered (h : Inv job s) {todo : List WorkerID} (hstage : s.co.stage = .init todo) (k : Link) :
    (s.link k).status ≠ .registered := fun hregistered =>
  (h.sender k.src).init_not_handed hstage ((h.link k).arrived (.inr hregistered)).1

variable {w : WorkerID}

section

variable (h : Inv job s)
include h

theorem barrier_spec {u : UpstreamID} {rest : List (UpstreamUnit R)} (hqueue : s.queue u w = .barrier :: rest) :
    u ∈ job.upstreams ∧ s.co.stage.swapped u = true ∧ hasBarrier rest = false := by
  have hu := h.queues.mem_of_queue hqueue
  have hshape := h.queues.shape u hu w
  rw [hqueue] at hshape
  exact ⟨hu, hshape.barrier⟩

theorem supply_restage (stage : Stage) (htodo : ∀ todo, stage ≠ .init todo)
    (hinited : ∀ w, stage.Inited w ↔ s.co.stage.Inited w)
    (hconnected : ∀ src w, s.co.Sends job src w → stage.Connected w → s.co.stage.Connected w)
    (hswapped : ∀ u ∈ job.upstreams, stage.swapped u = s.co.stage.swapped u)
    (hsettled : ∀ w, stage.Settled w → s.co.stage.Settled w ∨ ¬ s.co.Live w) (w : WorkerID) :
    SupplyOk job { s.co with stage := stage } s.handed s.store s.link s.queue w (s.sup w) := by
  refine (h.supply w).restage stage (fun todo heq => absurd heq (htodo todo)) (hinited w)
    (fun src => hconnected src w) (fun u hu => ?_) fun hst => (hsettled w hst).imp_right fun hdead => ?_
  · unfold passed
    rw [hswapped u hu]
  · exact (h.supply w).clean fun hyes => hdead hyes.1

theorem supply_updateRouting {u : UpstreamID} (hstep : Step job s (.updateRouting u) s')
    (w : WorkerID) : SupplyIn job s' w := by
  cases hstep with
  | updateRouting _ _ hstage hu =>
    by_cases hlive : s.co.Live w
    · refine (h.supply w).restage _ (by simp) ?_ ?_ (fun v hv => ?_) (fun hst => hst.elim)
      · rw [hstage]
        exact Iff.rfl
      · rw [hstage]
        exact fun _ _ _ => trivial
      · by_cases hvu : v = u
        · subst hvu
          have hold : passed s.co s.queue w v = false := by simp [passed, hstage, swapped, hu]
          have hbarrier : hasBarrier (s.queue v w ++ ((if w ∈ s.co.tasks ∨ w ∈ s.co.added then
              [.barrier] else []) ++ if w ∈ s.co.removed then [.termination] else [])) = true := by
            have hlisted : w ∈ s.co.tasks ∨ w ∈ s.co.added := hlive
            rw [if_pos hlisted]
            simp [UpstreamUnit.isBarrier]
          rw [hold]
          simp only [passed, Sys.push, Sys.setStage, update_self, hbarrier, Bool.not_true, Bool.and_false]
        · simp only [passed, Sys.push, Sys.setStage, update_of_ne hvu, hstage, swapped, List.mem_filter,
            decide_eq_true_eq, ne_eq, hvu, not_false_eq_true, and_true]
    · have hidle : s.sup w = .idle := (h.supply w).clean fun hyes => hlive hyes.1
      change SupplyOk job _ s.handed s.store s.link _ w (s.sup w)
      rw [hidle]
      exact .ofIdle (fun hyes => hlive hyes.1) (fun _ heq => by cases heq)

theorem supply_relink {link : Link → Chan R} (hlink : ∀ k, k.dst = w → (link k).status = (s.link k).status) :
    SupplyOk job s.co s.handed s.store link s.queue w (s.sup w) :=
  (h.supply w).frame h.plan (fun _ => id) (fun _ => id) (fun k hk => .inl (hlink k (dst_of_mem_linksInto hk)))
    fun _ _ => rfl

theorem supply_requeue {queue : UpstreamID → WorkerID → List (UpstreamUnit R)}
    (hqueue : ∀ u, hasBarrier (queue u w) = hasBarrier (s.queue u w)) :
    SupplyOk job s.co s.handed s.store s.link queue w (s.sup w) :=
  (h.supply w).frame h.plan (fun _ => id) (fun _ => id) (fun _ _ => .inl rfl) fun u _ => passed_congr (hqueue u)

theorem supply_restore {store : LazyByKey.World K}
    (hreceived : ∀ src, Received job s.co s.store src w → Received job s.co store src w) :
    SupplyOk job s.co s.handed store s.link s.queue w (s.sup w) :=
  (h.supply w).frame h.plan (fun _ => id) hreceived (fun _ _ => .inl rfl) fun _ _ => rfl

theorem mem_linksInto_of_open {k : Link} (hopen : (s.link k).status ≠ .closed) : k ∈ linksInto job s.co k.dst := by
  obtain ⟨hrunning, hsends, hsecond⟩ := (h.link k).opened hopen
  exact (mem_linksInto h.plan hrunning k.dst k).mpr ⟨hsends, rfl, hsecond⟩

theorem supply_init (hstep : Step job s (.initTask w) s') (v : WorkerID) :
    SupplyIn job s' v := by
  have hplan := h.plan.step hstep
  have hreceived : ∀ src dst, Received job s.co s.store src dst → Received job s.co s'.store src dst :=
    fun src dst => h.received_step hstep
  cases hstep with
  | initOld _ todo hstage hw _ hpos =>
    have hidle : s.sup w = .idle := (h.supply w).clean fun hyes => by
      have hnot := hyes.2
      rw [hstage] at hnot
      exact hnot hw
    refine SupplyOk.update ?_ (fun v hv => ?_) v
    · rw [hidle]
      exact .init hplan rfl (by simp) ((h.supply w).awaited todo hstage hw) hpos
        fun k _ => h.init_not_registered hstage k
    · exact (h.supply v).await hstage hv
  | initNew _ todo store hstage _ hnew hpos =>
    refine SupplyOk.update ?_ (fun v hv => ?_) v
    · exact .init hplan rfl (by simp) (.inr hnew) hpos fun k _ => h.init_not_registered hstage k
    · change SupplyOk job { s.co with stage := .init (todo.filter (· ≠ w)) } s.handed store s.link s.queue v
        (Function.update s.sup w .idle v)
      rw [update_of_ne hv]
      exact (h.supply_restore (hreceived · v)).await hstage hv

theorem supply_connect {k : Link} (hstep : Step job s (.register k) s') (v : WorkerID) :
    SupplyIn job s' v := by
  have hlink := fun k => h.link_step hstep k
  have hne : (s.link k).status = .installed ∨ (s.link k).status = .fresh ∧ k.second = true ∧
      k.src ∈ (s.sup k.dst).peerChannelSync → (s.link k).status ≠ .registered ∧ (s.link k).status ≠ .closed := by
    rintro (hinstalled | ⟨hfresh, -⟩)
    · simp [hinstalled]
    · simp [hfresh]
  have hothers : ∀ v ≠ k.dst, ∀ c, SupplyOk job s.co s.handed s.store (Function.update s.link k c) s.queue v
      (s.sup v) := fun v hv c => h.supply_relink fun k' hk' => by
    rw [update_of_ne fun heq => hv (hk'.symm.trans (by rw [heq]))]
  cases hstep with
  | register _ hready hpos hmore =>
    obtain ⟨hold, hopen⟩ := hne hready
    refine SupplyOk.update ?_ (fun v hv => hothers v hv _) v
    exact (h.supply k.dst).register h.plan (h.mem_linksInto_of_open hopen) hold rfl hpos hmore
  | registerLast _ hready hpos hlast =>
    obtain ⟨hold, hopen⟩ := hne hready
    refine SupplyOk.update ?_ (fun v hv => hothers v hv _) v
    refine (h.supply k.dst).registerLast h.plan (h.mem_linksInto_of_open hopen) hold rfl (fun k' hk' hst => ?_)
      hpos hlast
    have harrived := (hlink k').arrived (.inr hst)
    rw [dst_of_mem_linksInto hk'] at harrived
    exact harrived

theorem supply_takePeer {src : WorkerID} {second progress : Bool}
    (hstep : Step job s (.takePeer w src second progress) s') (v : WorkerID) :
    SupplyIn job s' v := by
  have hothers : ∀ v ≠ w, ∀ c, SupplyOk job s.co s.handed s.store
      (Function.update s.link ⟨src, w, second⟩ c) s.queue v (s.sup v) := fun v hv c =>
    h.supply_relink fun k' hk' => by
      rw [update_of_ne fun heq => hv (hk'.symm.trans (by rw [heq]))]
  cases hstep with
  | peerBatch _ _ _ _ _ _ _ hstatus | peerWatermark _ _ _ _ _ _ hstatus | peerMetadata _ _ _ _ _ _ _ hstatus =>
    exact h.supply_relink fun k _ => status_update hstatus.symm k
  | peerTermination _ _ _ _ _ _ hstatus _ hexpected hmore =>
    refine SupplyOk.update ?_ (fun v hv => hothers v hv _) v
    exact (h.supply w).terminate h.plan (h.mem_linksInto_of_open (by simp [hstatus])) hstatus hexpected hmore
  | peerLastTermination _ _ _ _ _ _ hstatus _ hexpected hlast =>
    refine SupplyOk.update ?_ (fun v hv => hothers v hv _) v
    exact (h.supply w).terminateLast h.plan (h.mem_linksInto_of_open (by simp [hstatus])) hstatus hexpected hlast

theorem supply_install {src dst : WorkerID} (hstep : Step job s (.install src dst) s')
    (v : WorkerID) : SupplyIn job s' v := by
  have harrived := (h.link_step hstep ⟨src, dst, false⟩).arrived
  have hreceived : ∀ src dst, Received job s.co s.store src dst → Received job s.co s'.store src dst :=
    fun src dst => h.received_step hstep
  cases hstep with
  | install _ _ rest _ hstatus =>
    obtain ⟨hrunning, hsends, -⟩ := (h.link ⟨src, dst, false⟩).opened (by simp [hstatus])
    simp only [Sys.setSup, Sys.setChan, update_self, true_or, true_implies] at harrived
    have hack := ((h.sender src).sender harrived.1 hrunning).1
    refine SupplyOk.update ?_ (fun v hv => ?_) v
    · refine (h.supply dst).install h.plan (h.mem_linksInto_of_open (by simp [hstatus]))
        ⟨h.plan.updated_live dst (h.plan.dst_mem hsends), hack.inited dst⟩ hstatus rfl (hreceived · dst) fun v hv => ?_
      split_ifs at hv
      · rcases List.mem_cons.mp hv with rfl | hold
        · exact .inr harrived
        · exact .inl hold
      · exact .inl hv
    · refine (h.supply v).frame h.plan (fun _ => id) (hreceived · v) (fun k hk => .inl ?_) fun _ _ => rfl
      change (Function.update s.link ⟨src, dst, false⟩ ⟨.installed, rest⟩ k).status = _
      rw [update_of_ne fun heq => hv ((dst_of_mem_linksInto hk).symm.trans (by rw [heq]))]

/-- **Every step keeps every supplier's counters right.** -/
theorem supply_step (hstep : Step job s a s') (v : WorkerID) :
    SupplyIn job s' v := by
  have hsupply := h.supply v
  have hreceived : ∀ src, Received job s.co s.store src v → Received job s.co s'.store src v :=
    fun src => h.received_step hstep
  have hwhole := hstep
  cases hstep with
  | rescale _ _ _ hidle =>
    have hclean : s.sup v = .idle := hsupply.clean fun hyes => by
      have hnot := hyes.2
      rw [hidle] at hnot
      exact hnot
    change SupplyOk job _ [] s.store s.link s.queue v (s.sup v)
    rw [hclean]
    refine .ofIdle (fun hyes => hyes.2 (List.mem_append.mpr hyes.1)) ?_
    rintro _ ⟨⟩ hmem
    exact List.mem_append.mp hmem
  | complete hstage =>
    change SupplyOk job _ s.handed s.store s.link s.queue v (s.sup v)
    rw [h.settled_idle hstage v]
    exact .ofIdle (fun hyes => hyes.2) (by simp)
  | toForward hstage =>
    exact h.supply_restage (.forward s.co.changes.keys) (by simp)
      (by simp [hstage, Stage.Inited]) (fun _ _ _ hst => hst.elim) (by simp [hstage, swapped]) (fun _ hst => hst.elim) v
  | toConnect hstage =>
    refine h.supply_restage (.connect s.co.plan.keys) (by simp)
      (by simp [hstage, Stage.Inited]) (fun src w hsends hst => ?_) (by simp [hstage, swapped]) (fun _ hst => hst.elim) v
    refine absurd ?_ hst
    have hmem := (h.plan.sources (by rw [hstage]; simp) src w).mpr hsends
    rw [GoMap.mem_keys_iff]
    by_contra hnone
    unfold Coordinator.sourcesOf at hmem
    rw [Option.not_isSome_iff_eq_none.mp hnone] at hmem
    cases hmem
  | toRoute hstage =>
    exact h.supply_restage (.route job.upstreams) (by simp)
      (by simp [hstage, Stage.Inited]) (by simp [hstage, Stage.Connected]) (by simp [hstage, swapped]) (fun _ hst => hst.elim) v
  | toEventual hstage =>
    exact h.supply_restage (.eventual (s.co.updated.filter fun w => s.co.affectedOf job w ≠ []) []) (by simp)
      (by simp [hstage, Stage.Inited]) (by simp [hstage, Stage.Connected]) (by simp [hstage, swapped]) (fun _ hst => hst.elim) v
  | toSettle hstage =>
    have hall : ∀ w, (Stage.settle (s.co.updated ++ s.co.removed)).Settled w →
        s.co.stage.Settled w ∨ ¬ s.co.Live w := fun w hst => .inr fun hlive =>
      hst (List.mem_append.mpr ((h.plan.live_iff w).mp hlive))
    rcases hstage with hstage | hstage <;>
      exact h.supply_restage (.settle (s.co.updated ++ s.co.removed)) (by simp)
        (by simp [hstage, Stage.Inited]) (by simp [hstage, Stage.Connected])
        (by simp [hstage, swapped]) hall v
  | initOld | initNew => exact h.supply_init hwhole v
  | handleActivate w _ second _ hstage hw =>
    refine hsupply.frame h.plan (fun _ => id) (fun _ => id) (fun k _ => ?_) fun _ _ => rfl
    by_cases hk : k.src = w ∧ k.second = second ∧ k.dst ∈ s.co.destsOf w
    · have hsrc : k.src ∉ s.handed := hk.1 ▸ (h.sender w).forward_not_handed hstage hw
      refine .inr ⟨hsrc, fun hst => hsrc ((h.link k).arrived (.inr hst)).1, ?_⟩
      simp only [if_pos hk]
      simp
    · refine .inl ?_
      simp only [if_neg hk]
  | install => exact h.supply_install hwhole v
  | register | registerLast => exact h.supply_connect hwhole v
  | loopEnter w todo _ _ _ hstage =>
    exact h.supply_restage (.forward (todo.filter (· ≠ w))) (by simp)
      (by simp [hstage, Stage.Inited]) (fun _ _ _ hst => hst.elim) (by simp [hstage, swapped]) (fun _ hst => hst.elim) v
  | handover w =>
    refine hsupply.frame h.plan (fun _ => List.mem_cons_of_mem w) hreceived (fun k _ => .inl ?_) fun _ _ => rfl
    simp only [Sys.setLoop, Sys.send_link]
  | announce =>
    refine h.supply_relink fun k _ => ?_
    simp only [Sys.setLoop, Sys.broadcast_link, Sys.send_link]
  | takeBatch w u progress recs rest hpc hqueue | takeWatermark w u progress rest hpc hqueue
  | takeTermination w u progress rest hpc hqueue => exact h.supply_requeue fun u' => hasBarrier_pop hqueue rfl u' v
  | takeBarrier w u progress rest hpc hqueue hpos hmore =>
    obtain ⟨hu, hswapped, hfree⟩ := h.barrier_spec hqueue
    refine SupplyOk.update ?_ (fun v hv => h.supply_requeue fun u' => hasBarrier_pop_other hv u') v
    exact (h.supply w).takeBarrier hu hqueue hswapped hfree hpos hmore
  | takeLastBarrier w u progress rest hpc hqueue hpos hlast =>
    obtain ⟨hu, hswapped, hfree⟩ := h.barrier_spec hqueue
    refine SupplyOk.update ?_ (fun v hv => h.supply_requeue fun u' => hasBarrier_pop_other hv u') v
    exact (h.supply w).takeLastBarrier hu hqueue hswapped hfree hpos hlast
  | peerBatch | peerWatermark | peerMetadata | peerTermination | peerLastTermination => exact h.supply_takePeer hwhole v
  | dispatchForward =>
    refine h.supply_relink fun k _ => ?_
    simp only [Sys.startWork, Sys.setLoop, Sys.send_link]
  | dispatchForwardAll | exitClose =>
    refine h.supply_relink fun k _ => ?_
    simp only [Sys.setLoop, Sys.send_link]
  | dispatchWatermark =>
    refine h.supply_relink fun k _ => ?_
    simp only [Sys.startWork, Sys.setLoop, Sys.broadcast_link]
  | emitBatch u w recs hu | emitWatermark u w hu =>
    refine h.supply_requeue fun u' => hasBarrier_push (fun w' => ?_) u' v
    split_ifs <;> rfl
  | updateRouting => exact h.supply_updateRouting hwhole v
  | waitInboundPeers w _ hstage _ hflag =>
    refine SupplyOk.update ((h.supply w).waitInboundPeers hstage hflag) (fun v hv => ?_) v
    refine (h.supply v).restage _ (by simp) ?_ ?_ ?_ (fun hst => hst.elim)
    · simp [hstage, Stage.Inited]
    · simp [hstage, Stage.Connected, hv]
    · simp [passed, hstage, swapped]
  | waitReconfigDone w _ hstage _ hflag =>
    refine SupplyOk.update ((h.supply w).waitReconfigDone hstage hflag) (fun v hv => ?_) v
    refine (h.supply v).restage _ (by simp) ?_ ?_ ?_ fun hst => .inl ?_
    · simp [hstage, Stage.Inited]
    · simp [hstage, Stage.Connected]
    · simp [passed, hstage, swapped]
    · simpa [hstage, Stage.Settled, hv] using hst
  | startEventual _ _ _ _ hstage =>
    refine (h.supply_restore hreceived).restage _ (by simp) ?_ ?_ ?_ (fun hst => hst.elim)
    · simp [hstage, Stage.Inited]
    · simp [hstage, Stage.Connected]
    · simp [passed, hstage, swapped, Sys.setStage]
  | waitEventual w todo waiting hstage =>
    exact h.supply_restage (.eventual todo (waiting.filter (· ≠ w))) (by simp)
      (by simp [hstage, Stage.Inited]) (by simp [hstage, Stage.Connected]) (by simp [hstage, swapped]) (fun _ hst => hst.elim) v
  | read | run | readDone | flush | endUnit => exact h.supply_restore hreceived
  | _ => exact hsupply

end

end Inv

end LazyRescale
end Koala
