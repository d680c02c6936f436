import Koala.LazyRescale.SupplierTracking

/-!
# The end of a reconfiguration

A task signals `ReconfigTerminated` from whichever of its two countdowns ends last: the barriers of its upstream
tasks and the peer channels into it.  `signals_step` follows the signals along every step, `trackInv_of_run` puts
them together with the connections, and `supplierTracking` says what a supplier does over any number of
reconfigurations.
-/

namespace Koala
namespace LazyRescale

open Lib Lib.Outcome Keyby Partition
open Function (update update_self update_of_ne)
open Sys (pop setChan setLoop setSup)

variable {R K : Type}

/-! ## Every step keeps the signals -/

section

variable {s s' : Sys R K} {a : Action R K} {w : WorkerID} {n : Nat}

theorem SignalOk.frame (h : SignalOk s w n) (hidle : s'.co.stage ≠ .idle → s.co.stage ≠ .idle)
    (hcounted : Counted s' w ↔ Counted s w) : SignalOk s' w n := by
  intro hstage
  rw [hcounted]
  exact h (hidle hstage)

theorem SignalOk.ofCounted {other : Prop} [Decidable other] (hcounted : Counted s w ↔ other)
    (hn : n = if other then 1 else 0) : SignalOk s w n := by
  intro _
  rw [hcounted, hn]
  exact ⟨fun h => if_pos h, fun h => if_neg h⟩

theorem signalled_quiet (hloud : ¬ a.Loud s) : signalled s a = none := by
  cases a with
  | takeRegular =>
    simp only [signalled]
    split
    · rename_i rest hpc hqueue
      exact absurd ⟨rest, hqueue⟩ hloud
    · rfl
  | takePeer =>
    simp only [signalled]
    split
    · rename_i rest hpc hstatus hqueue
      exact absurd ⟨rest, hqueue⟩ hloud
    · rfl
  | _ => rfl

theorem trackSignals_of_none (hrescale : ∀ resize part, a ≠ .rescale resize part) (hnone : signalled s a = none)
    (signals : WorkerID → Nat) : trackSignals s signals a = signals := by
  funext v
  cases a with
  | rescale resize part => exact absurd rfl (hrescale resize part)
  | _ => simp [trackSignals, hnone]

end

section

variable [DecidableEq K] {job : Job R K} {s s' : Sys R K} {signals : WorkerID → Nat}

theorem signals_takeBarrier (base : Inv job s) (h : ∀ w, SignalOk s w (signals w)) {v : WorkerID} {u : UpstreamID}
    {progress : Bool} {rest : List (UpstreamUnit R)} (hqueue : s.queue u v = .barrier :: rest)
    (hstep : Step job s (.takeRegular v u progress) s') (w : WorkerID) :
    SignalOk s' w (trackSignals s signals (.takeRegular v u progress) w) := by
  obtain ⟨hu, hswapped, -⟩ := base.barrier_spec hqueue
  have hinited : s.co.stage.Inited v := (Stage.connected_of_swapped hswapped v).inited v
  have hlive : s.co.Live v := by
    by_contra hdead
    have hnone := base.queues.dead u v hdead
    simp [hqueue, UpstreamUnit.isBarrier] at hnone
  cases hstep with
  | takeBarrier _ _ _ _ hpc _ _ hmore =>
    have hnone : signalled s (.takeRegular v u progress) = none := by simp [signalled, hpc, hqueue, hmore]
    rw [trackSignals_of_none (by simp) hnone]
    refine (h w).frame id ?_
    unfold Counted
    by_cases hw : w = v
    · subst hw
      simp [setSup, pop]
    · simp [setSup, pop, update_of_ne hw]
  | takeLastBarrier _ _ _ _ hpc _ _ hlast =>
    by_cases hw : w = v
    · subst hw
      have hbefore : ¬ Counted s w := fun hcounted => by
        have := hcounted.2.2.1
        omega
      have hzero : signals w = 0 := (h w hinited.ne_idle).2 hbefore
      refine .ofCounted ?_ (?_ : _ = if (s.sup w).expectedInboundPeers = -1 then 1 else 0)
      · simp only [Counted, setLoop, setSup, pop, update_self, true_and]
        exact ⟨fun hc => hc.2.2, fun hc => ⟨hlive, hinited, hc⟩⟩
      · simp only [trackSignals, signalled, hpc, hqueue, hlast, true_and, hzero]
        split_ifs <;> simp_all
    · have hother : ¬ signalled s (.takeRegular v u progress) = some w := by
        simp only [signalled, hpc, hqueue]
        split_ifs
        · exact fun heq => hw (Option.some.inj heq).symm
        · simp
      simp only [trackSignals, if_neg hother]
      refine (h w).frame id ?_
      unfold Counted
      simp [setLoop, setSup, pop, update_of_ne hw]
  | takeBatch _ _ _ _ _ _ hqueue' | takeWatermark _ _ _ _ _ hqueue' | takeTermination _ _ _ _ _ hqueue' =>
    simp [hqueue] at hqueue'

theorem signals_takePeer (base : Inv job s) (h : ∀ w, SignalOk s w (signals w)) {v src : WorkerID}
    {second progress : Bool} {rest : List (PeerUnit R)}
    (hqueue : (s.link ⟨src, v, second⟩).queue = .termination :: rest)
    (hstep : Step job s (.takePeer v src second progress) s') (w : WorkerID) :
    SignalOk s' w (trackSignals s signals (.takePeer v src second progress) w) := by
  cases hstep with
  | peerTermination _ _ _ _ _ hpc hstatus _ _ hmore =>
    have hnone : signalled s (.takePeer v src second progress) = none := by
      simp [signalled, hpc, hstatus, hqueue, hmore]
    rw [trackSignals_of_none (by simp) hnone]
    refine (h w).frame id ?_
    unfold Counted
    by_cases hw : w = v
    · subst hw
      simp [setLoop, setSup, setChan]
    · simp [setLoop, setSup, setChan, update_of_ne hw]
  | peerLastTermination _ _ _ _ _ hpc hstatus _ _ hlast =>
    obtain ⟨hrunning, hsends, -⟩ := (base.link ⟨src, v, second⟩).opened (by simp [hstatus])
    have hlive := base.plan.updated_live v (base.plan.dst_mem hsends)
    have hhanded := ((base.link ⟨src, v, second⟩).arrived (.inr hstatus)).1
    have hinited := ((base.sender src).sender hhanded hrunning).1.inited v
    by_cases hw : w = v
    · subst hw
      have hbefore : ¬ Counted s w := fun hcounted => by
        have := hcounted.2.2.2
        omega
      have hzero : signals w = 0 := (h w hrunning).2 hbefore
      refine .ofCounted ?_ (?_ : _ = if (s.sup w).expectedInflightBarriers = -1 then 1 else 0)
      · simp only [Counted, setLoop, setSup, setChan, update_self, and_true]
        exact ⟨fun hc => hc.2.2, fun hc => ⟨hlive, hinited, hc⟩⟩
      · simp only [trackSignals, signalled, hpc, hstatus, hqueue, hlast, true_and, hzero]
        split_ifs <;> simp_all
    · have hother : ¬ signalled s (.takePeer v src second progress) = some w := by
        simp only [signalled, hpc, hstatus, hqueue]
        split_ifs
        · exact fun heq => hw (Option.some.inj heq).symm
        · simp
      simp only [trackSignals, if_neg hother]
      refine (h w).frame id ?_
      unfold Counted
      simp [setLoop, setSup, setChan, update_of_ne hw]
  | peerBatch _ _ _ _ _ _ _ _ hother | peerWatermark _ _ _ _ _ _ _ hother | peerMetadata _ _ _ _ _ _ _ _ hother =>
    simp [hqueue] at hother

theorem signals_initTask (h : ∀ w, SignalOk s w (signals w)) {v : WorkerID} (hstep : Step job s (.initTask v) s')
    (w : WorkerID) : SignalOk s' w (signals w) := by
  have hstart : ∀ {todo : List WorkerID}, s.co.stage = .init todo → v ∈ todo → signals v = 0 := fun hstage hmem =>
    (h v (by simp [hstage])).2 fun hcounted => by
      have hinited := hcounted.2.1
      rw [hstage] at hinited
      exact hinited hmem
  cases hstep with
  | initOld _ _ hstage hmem =>
    by_cases hw : w = v
    · subst hw
      refine fun _ => ⟨fun hcounted => ?_, fun _ => hstart hstage hmem⟩
      have hbarriers := hcounted.2.2.1
      simp only [setSup, update_self] at hbarriers
      omega
    · refine (h w).frame (fun _ => by simp [hstage]) ?_
      simp [Counted, Coordinator.Live, setSup, Sys.setStage, hstage, Stage.Inited, hw]
  | initNew _ _ _ hstage hmem =>
    by_cases hw : w = v
    · subst hw
      refine fun _ => ⟨fun hcounted => ?_, fun _ => hstart hstage hmem⟩
      have hbarriers := hcounted.2.2.1
      simp only [setSup, update_self] at hbarriers
      omega
    · refine (h w).frame (fun _ => by simp [hstage]) ?_
      simp [Counted, Coordinator.Live, setSup, setLoop, Sys.setStage, hstage, Stage.Inited, hw]

theorem signals_register (h : ∀ w, SignalOk s w (signals w)) {l : Link} (hstep : Step job s (.register l) s')
    (w : WorkerID) : SignalOk s' w (signals w) := by
  cases hstep with
  | register =>
    refine (h w).frame id ?_
    by_cases hw : w = l.dst
    · subst hw
      simp [Counted, setSup, setChan]
    · simp [Counted, setSup, setChan, update_of_ne hw]
  | registerLast =>
    refine (h w).frame id ?_
    by_cases hw : w = l.dst
    · subst hw
      refine iff_of_false (fun hcounted => ?_) fun hcounted => ?_
      · have hpeers := hcounted.2.2.2
        simp [setSup] at hpeers
      · have hpeers := hcounted.2.2.2
        omega
    · simp [Counted, setSup, setChan, update_of_ne hw]

/-- **Every step keeps the signals right.** -/
theorem signals_step (base : Inv job s) (h : ∀ w, SignalOk s w (signals w)) {a : Action R K}
    (hstep : Step job s a s') (w : WorkerID) : SignalOk s' w (trackSignals s signals a w) := by
  by_cases hloud : a.Loud s
  · cases a with
    | rescale =>
      cases hstep with
      | rescale _ _ plan hidle hallowed hpart hplan hnew =>
        refine fun _ => ⟨fun hcounted => ?_, fun _ => rfl⟩
        exact absurd (List.mem_append.mpr hcounted.1) hcounted.2.1
    | advance =>
      rw [trackSignals_of_none (by simp) rfl]
      have hstage : s.co.stage = .settle [] := hloud
      cases hstep with
      | complete => exact fun hne => absurd rfl hne
      | toForward hother => simp [hstage] at hother
      | toConnect hother => simp [hstage] at hother
      | toRoute hother => simp [hstage] at hother
      | toEventual hother => simp [hstage] at hother
      | toSettle hother => simp [hstage] at hother
    | initTask =>
      rw [trackSignals_of_none (by simp) rfl]
      exact signals_initTask h hstep w
    | register =>
      rw [trackSignals_of_none (by simp) rfl]
      exact signals_register h hstep w
    | updateRouting =>
      rw [trackSignals_of_none (by simp) rfl]
      cases hstep with
      | updateRouting _ todo hstage hu =>
        refine (h w).frame (fun _ => by simp [hstage]) ?_
        simp [Counted, Coordinator.Live, Sys.setStage, Sys.push, hstage, Stage.Inited]
    | takeRegular =>
      obtain ⟨rest, hqueue⟩ := hloud
      exact signals_takeBarrier base h hqueue hstep w
    | takePeer =>
      obtain ⟨rest, hqueue⟩ := hloud
      exact signals_takePeer base h hqueue hstep w
    | _ => exact hloud.elim
  · have hrescale : ∀ resize part, a ≠ .rescale resize part := fun resize part heq => by
      subst heq
      exact hloud trivial
    rw [trackSignals_of_none hrescale (signalled_quiet hloud)]
    exact (h w).quiet (base.quiet_step hstep hloud)

end

/-! ## Whole runs -/

section

variable [DecidableEq K] {job : Job R K} {s s' : Tracked R K}

theorem trackedStep_act {a : Action R K} (hstep : trackedStep job s (.act a) = .ok s') :
    ∃ upstreams, removeTerminated job s a = .ok upstreams ∧ Step job s.sys a s'.sys ∧
      s'.upstreams = trackUpstreams job s.sys upstreams a ∧ s'.conn = trackConn s.sys s.conn a ∧
      s'.signals = trackSignals s.sys s.signals a := by
  simp only [trackedStep] at hstep
  split_ifs at hstep with hread
  obtain ⟨upstreams, hremove, hstep⟩ := bind_eq_ok.mp hstep
  obtain ⟨sys, hsys, hstep⟩ := bind_eq_ok.mp hstep
  obtain rfl := Outcome.ok.inj hstep
  exact ⟨upstreams, hremove, step_eq_ok (mapAbort_eq_ok.mp hsys), rfl, rfl, rfl⟩

theorem TrackInv.step (h : TrackInv job s) {a : TrackedAction R K} (hstep : trackedStep job s a = .ok s') :
    TrackInv job s' := by
  cases a with
  | act =>
    obtain ⟨upstreams, hremove, hsys, hups, hconn, hsignals⟩ := trackedStep_act hstep
    refine ⟨h.base.step hsys, fun w => ?_, fun w => ?_⟩
    · rw [hups, hconn]
      exact h.conn_step hsys hremove w
    · rw [hsignals]
      exact signals_step h.base h.signals hsys w
  | connect u w =>
    simp only [trackedStep] at hstep
    split_ifs at hstep with hopened
    obtain rfl := Outcome.ok.inj hstep
    refine ⟨h.base, fun v => ?_, h.signals⟩
    by_cases hv : v = w
    · subst hv
      have hconn : (fun u' => update s.conn u (update (s.conn u) v .setUp) u' v)
          = update (fun u' => s.conn u' v) u .setUp := by
        funext u'
        by_cases hu : u' = u
        · subst hu
          simp
        · simp [update_of_ne hu]
      dsimp only
      rw [update_self, hconn]
      exact (h.conn v).connect hopened
    · have hconn : (fun u' => update s.conn u (update (s.conn u) w .setUp) u' v)
          = fun u' => s.conn u' v := by
        funext u'
        by_cases hu : u' = u
        · subst hu
          simp [update_of_ne hv]
        · simp [update_of_ne hu]
      dsimp only
      rw [update_of_ne hv, hconn]
      exact h.conn v

theorem TrackInv.initial {workers : List WorkerID} {owners : PartitionTable} (hnodup : workers.Nodup)
    (howners : ∀ b < job.store.numBuckets, owners b ∈ workers) (hne : job.upstreams ≠ []) :
    TrackInv job (Tracked.initial job workers owners) := by
  refine ⟨.initial hnodup howners, fun w => ⟨List.nodup_nil, fun l => ?_, ?_, fun u hsetUp => ?_, fun u hopen => ?_,
    fun u hadded => absurd hadded List.not_mem_nil, ?_, fun hinited => hinited.elim, fun _ _ => ?_⟩,
    fun w hne => absurd rfl hne⟩
  · exact iff_of_false List.not_mem_nil fun hreg => by cases hreg.2
  · exact fun u hmem => absurd hmem List.not_mem_nil
  · simp only [Tracked.initial] at hsetUp
    split_ifs at hsetUp
  · simp only [Tracked.initial] at hopen
    split_ifs at hopen with hboth
    · exact hboth.2
    · exact absurd rfl hopen
  · exact fun u hend => absurd hend List.not_mem_nil
  · exact ⟨List.length_pos_iff.mpr hne, .inl rfl⟩

theorem trackInv_of_run (hne : job.upstreams ≠ []) {G : Tracked R K → TrackedAction R K → Prop}
    (hrun : (trackedMachine job).Run G s) : TrackInv job s := by
  refine hrun.invariant (TrackInv job) ?_ fun _ _ _ _ h _ hstep => h.step hstep
  rintro _ ⟨workers, owners, hnodup, howners, rfl⟩
  exact .initial hnodup howners hne

end

/-! ## What the suppliers guarantee -/

section

variable [DecidableEq K] {job : Job R K} {s : Tracked R K}

/-- The countdowns of a task are over exactly when it has taken all barriers and its peer channels have been
connected and closed. -/
theorem counted_iff {s : Sys R K} (base : Inv job s) (hne : job.upstreams ≠ []) {w : WorkerID} (hlive : s.co.Live w)
    (hinited : s.co.stage.Inited w) :
    Counted s w ↔ (∀ u ∈ job.upstreams, s.co.stage.swapped u = true ∧ hasBarrier (s.queue u w) = false) ∧
      (∀ k : Link, k.dst = w → (s.link k).status = .closed) ∧ ∀ src, s.co.Sends job src w → src ∈ s.handed := by
  have hpassed : ∀ u, passed s.co s.queue w u = true ↔
      s.co.stage.swapped u = true ∧ hasBarrier (s.queue u w) = false := fun u => by simp [passed]
  constructor
  · rintro ⟨-, -, hbarriers, hpeers⟩
    refine ⟨fun u hu => (hpassed u).mp ((base.passed_of_aligned hlive hinited hbarriers).2 u hu), ?_⟩
    have hdone : ∀ src, s.co.Sends job src w → registeredCount job s.co s.link w = 0 ∧
        PeersConnected job s.co s.handed s.store s.link w (s.sup w) := by
      intro src hsends
      rcases (base.supply w).peers src hlive hinited hsends with hwaiting | hreading | hclosed
      · have := hwaiting.1
        omega
      · have := hreading.1
        omega
      · exact hclosed.2.2
    refine ⟨fun k hk => ?_, fun src hsends => ((hdone src hsends).2.arrived src hsends).1⟩
    by_contra hopen
    obtain ⟨-, hsends, -⟩ := (base.link k).opened hopen
    rw [hk] at hsends
    have hmem : k ∈ linksInto job s.co w := hk ▸ base.mem_linksInto_of_open hopen
    obtain ⟨hzero, hconnected⟩ := hdone k.src hsends
    have hunregistered := List.countP_eq_zero.mp hzero k hmem
    rcases hconnected.status k hmem with hregistered | hclosed
    · exact hunregistered (by simpa using hregistered)
    · exact hopen hclosed
  · rintro ⟨hbarriers, hlinks, -⟩
    refine ⟨hlive, hinited, ?_, ?_⟩
    · rcases (base.supply w).barriers hlive hinited with ⟨-, -, hmissing⟩ | ⟨haligned, -⟩
      · have hall : barrierCount job s.co s.queue w = job.upstreams.length :=
          List.countP_eq_length.mpr fun u hu => (hpassed u).mpr (hbarriers u hu)
        omega
      · exact haligned
    · by_cases hsource : ∃ src, s.co.Sends job src w
      · obtain ⟨src, hsends⟩ := hsource
        obtain ⟨u, hu⟩ := List.exists_mem_of_ne_nil _ hne
        rcases (base.supply w).peers src hlive hinited hsends with hwaiting | hreading | hclosed
        · exact absurd (Stage.connected_of_swapped (hbarriers u hu).1 w) hwaiting.2.2.2.2
        · obtain ⟨k, hk, hregistered⟩ := List.countP_pos_iff.mp hreading.2.2.1
          simp [hlinks k (dst_of_mem_linksInto hk)] at hregistered
        · exact hclosed.1
      · exact ((base.supply w).alone hlive hinited fun src hsends => hsource ⟨src, hsends⟩).1

/-- A step that takes the end of a channel at a connected task drops the channel. -/
theorem TrackInv.removeTerminated_ok (h : TrackInv job s)
    (hfed : ∀ second ∈ job.inputs, ∃ u ∈ job.upstreams, job.inputOf u = second) {a : Action R K}
    (hconnected : Connected job s (.act a)) : ∃ upstreams, removeTerminated job s a = .ok upstreams := by
  cases hend : terminated s.sys a with
  | none => exact ⟨s.upstreams, by simp [removeTerminated, hend]⟩
  | some taken =>
    obtain ⟨w, c⟩ := taken
    have hsetUp := hconnected w c hend
    have hremove : (s.upstreams w).removeUpstream job c
        = .ok { s.upstreams w with upstreams := (s.upstreams w).upstreams.erase c } := by
      rcases terminated_spec hend with ⟨u, _, -, rfl, hmem⟩ | ⟨src, second, _, -, rfl, hstatus, rest, hqueue⟩
      · obtain ⟨hshut, hdeployed⟩ := (h.conn w).ended u hmem
        have hphase := (h.conn w).phase_passed h.base hsetUp hdeployed (.inl hshut)
        exact (h.conn w).removeUpstream_ok hphase hfed hsetUp (.inl hshut)
      · have hopen : (s.sys.link ⟨src, w, second⟩).status ≠ .closed := by simp [hstatus]
        obtain ⟨hrunning, hsends, hinput⟩ := (h.base.link ⟨src, w, second⟩).opened hopen
        have hhanded := ((h.base.link ⟨src, w, second⟩).arrived (.inr hstatus)).1
        have hinited := ((h.base.sender src).sender hhanded hrunning).1.inited w
        have hdeployed : w ∈ s.sys.store.deployed := by
          rcases h.base.plan.updated_live w (h.base.plan.dst_mem hsends) with htask | hadded
          · exact h.base.plan.tasks_deployed w htask
          · exact h.base.plan.added_deployed w hadded hinited
        have hexpected := (h.base.connected_of_termination hstatus (by simp [hqueue])).1
        have hphase := (h.conn w).phase_passed h.base hsetUp hdeployed (.inr hexpected)
        exact (h.conn w).removeUpstream_ok hphase hfed hsetUp
          (.inr ⟨((h.conn w).peer _).mpr ⟨rfl, hstatus⟩, _, rfl, hinput⟩)
    unfold removeTerminated
    rw [hend]
    dsimp only
    rw [hremove, ok_bind]
    exact ⟨_, rfl⟩

/-- The fatal errors of the supplier's bookkeeping. -/
def TrackedAbort.OfSupplier : TrackedAbort → Prop
  | protocol e => e.OfSupplier
  | deploymentPhase => True
  | lastUpstream => True

theorem TrackInv.step_avoids (h : TrackInv job s)
    (hfed : ∀ second ∈ job.inputs, ∃ u ∈ job.upstreams, job.inputOf u = second) {a : TrackedAction R K}
    (hconnected : Connected job s a) : Avoids TrackedAbort.OfSupplier (trackedStep job s a) := by
  cases a with
  | act a =>
    obtain ⟨upstreams, hremove⟩ := h.removeTerminated_ok hfed hconnected
    simp only [trackedStep, hremove, ok_bind]
    refine .ite (fun _ => .bind (.mapAbort fun e he => ?_) fun _ _ => .ok _) fun _ => .stuck
    exact h.base.step_avoids a e he
  | connect => exact .ite (fun _ => .ok _) fun _ => .stuck

/-- **Reconfiguration tracking.**  In every run of any number of lazy reconfigurations in which a task takes the end
of a channel only when all its upstream connections have been added, and for a job each of whose upstream operators
has a task:

* during a reconfiguration a task has signalled `ReconfigTerminated` at most once, and it has done so exactly when it
  takes part, has taken the barriers of all upstream tasks, and all its peer channels have been connected and closed;
* when the coordinator has finished waiting, every participant has signalled once;
* the counters of every supplier are then, and between reconfigurations, as `InitLazyReconfig` requires;
* no step of such a run ends in one of the supplier's fatal errors. -/
theorem supplierTracking (job : Job R K)
    (hfed : ∀ second ∈ job.inputs, ∃ u ∈ job.upstreams, job.inputOf u = second) {s : Tracked R K}
    (hrun : (trackedMachine job).Run (Connected job) s) : (s.sys.co.stage ≠ .idle → ∀ w, s.signals w ≤ 1 ∧
      (s.signals w = 1 ↔ s.sys.co.Live w ∧ s.sys.co.stage.Inited w ∧
        (∀ u ∈ job.upstreams, s.sys.co.stage.swapped u = true ∧ hasBarrier (s.sys.queue u w) = false) ∧
        (∀ k : Link, k.dst = w → (s.sys.link k).status = .closed) ∧
        ∀ src, s.sys.co.Sends job src w → src ∈ s.sys.handed)) ∧
    (s.sys.co.stage = .settle [] → ∀ w, s.sys.co.Live w → s.signals w = 1) ∧
    (s.sys.co.stage = .settle [] ∨ s.sys.co.stage = .idle → ∀ w, s.sys.sup w = .idle) ∧
    ∀ a, Connected job s a → Avoids TrackedAbort.OfSupplier (trackedStep job s a) := by
  have hne : job.upstreams ≠ [] := by
    have hinput : false ∈ job.inputs := by
      unfold Job.inputs
      split_ifs <;> simp
    obtain ⟨u, hu, -⟩ := hfed false hinput
    exact List.ne_nil_of_mem hu
  have h := trackInv_of_run hne hrun
  refine ⟨fun hrunning w => ?_, fun hstage w hlive => ?_, fun hstage w => ?_, fun a => h.step_avoids hfed⟩
  · obtain ⟨hone, hzero⟩ := h.signals w hrunning
    have hiff : s.signals w = 1 ↔ Counted s.sys w := by
      refine ⟨fun hsignal => ?_, hone⟩
      by_contra hnot
      rw [hzero hnot] at hsignal
      cases hsignal
    refine ⟨?_, hiff.trans ⟨fun hcounted => ?_, fun ⟨hlive, hinited, hdone⟩ => ?_⟩⟩
    · by_cases hcounted : Counted s.sys w
      · rw [hone hcounted]
      · rw [hzero hcounted]
        exact Nat.zero_le 1
    · exact ⟨hcounted.1, hcounted.2.1, (counted_iff h.base hne hcounted.1 hcounted.2.1).mp hcounted⟩
    · exact (counted_iff h.base hne hlive hinited).mpr hdone
  · obtain ⟨hbarriers, hpeers⟩ := h.base.settled_sup hstage w
    exact (h.signals w (by simp [hstage])).1 ⟨hlive, by simp [hstage, Stage.Inited], hbarriers, hpeers⟩
  · rcases hstage with hstage | hstage
    · exact h.base.settled_idle hstage w
    · refine (h.base.supply w).clean fun hyes => ?_
      have hinited := hyes.2
      rw [hstage] at hinited
      exact hinited

end

/-! ## An end that overtakes a connection -/

/-- The sample job with the connection of its upstream task set up, and a scale-up to two tasks until the old task
has left the transition. -/
def sampleScaleUp : List (TrackedAction (Fin 3) (Fin 3)) :=
  .connect 0 0 :: List.map .act
    [.rescale (.grow [1]) samplePart, .initTask 0, .initTask 1, .advance, .handle 0, .handle 0, .handle 0, .handle 0,
      .loopHead 0, .handover 0, .announce 0 false, .advance, .install 0 1, .register ⟨0, 1, false⟩,
      .waitInboundPeers 1, .advance, .updateRouting 0, .advance, .takeRegular 0 0 false, .exit 0, .exit 0, .exit 0,
      .loopHead 1]

/-- The sample job on worker 0. -/
def sampleTracked : Tracked (Fin 3) (Fin 3) := Tracked.initial sampleJob [0] fun _ => 0

theorem sampleTracked_init : (trackedMachine sampleJob).init sampleTracked :=
  ⟨[0], fun _ => 0, by simp, fun _ _ => List.mem_singleton.mpr rfl, rfl⟩

/-- The upstream task has opened its connection to the new task, which has not added it yet, and the peer channel
ends: the new task dies. -/
theorem supplierTracking_overtaken :
    ∃ s, (trackedMachine sampleJob).Run (fun _ _ => True) s ∧
      trackedStep sampleJob s (.act (.takePeer 1 0 false false)) = .abort .deploymentPhase := by
  have hreplay : (trackedMachine sampleJob).replayAbort sampleTracked sampleScaleUp
      (.act (.takePeer 1 0 false false)) (fun e => decide (e = .deploymentPhase)) = true := by decide
  obtain ⟨s, e, hrun, hstep, he⟩ := Machine.Run.of_replayAbort _ _ _ sampleTracked_init hreplay
  exact ⟨s, hrun, of_decide_eq_true he ▸ hstep⟩

/-- `Connected`, to be evaluated. -/
def connectedCheck (job : Job R K) (s : Tracked R K) : TrackedAction R K → Bool
  | .act a =>
    match terminated s.sys a with
    | some (w, _) => job.upstreams.all fun u => s.conn u w = .setUp
    | none => true
  | .connect .. => true

theorem connected_of_check {job : Job R K} (s : Tracked R K) (a : TrackedAction R K)
    (h : connectedCheck job s a = true) : Connected job s a := by
  cases a with
  | connect => trivial
  | act =>
    intro w c hend u hu
    simp only [connectedCheck, hend, List.all_eq_true, decide_eq_true_eq] at h
    exact h u hu

/-- With the connection added in time the scale-up ends, and both tasks have signalled once. -/
theorem supplierTracking_inTime :
    (∀ second ∈ sampleJob.inputs, ∃ u ∈ sampleJob.upstreams, sampleJob.inputOf u = second) ∧
      ∃ s, (trackedMachine sampleJob).Run (Connected sampleJob) s ∧ s.sys.co.stage = .settle [] ∧
        s.signals 0 = 1 ∧ s.signals 1 = 1 ∧ s.sys.sup 1 = .idle := by
  have hfed : ∀ second ∈ sampleJob.inputs, ∃ u ∈ sampleJob.upstreams, sampleJob.inputOf u = second := by decide
  have hreplay : (trackedMachine sampleJob).replayGuarded (connectedCheck sampleJob)
      (fun s => decide (s.sys.co.stage = .settle [] ∧ 0 ∈ s.sys.co.tasks ∧ 1 ∈ s.sys.co.added)) sampleTracked
      (sampleScaleUp ++ [.connect 0 1, .act (.takePeer 1 0 false false), .act (.takeRegular 1 0 false),
        .act (.waitReconfigDone 0), .act (.waitReconfigDone 1)]) = true := by decide
  obtain ⟨s, hrun, hend⟩ := Machine.Run.of_replayGuarded connected_of_check _ _ (.start sampleTracked_init) hreplay
  obtain ⟨hstage, hzero, hone⟩ := of_decide_eq_true hend
  obtain ⟨-, hsignals, hidle, -⟩ := supplierTracking sampleJob hfed hrun
  exact ⟨hfed, s, hrun, hstage, hsignals hstage 0 (.inl hzero), hsignals hstage 1 (.inr hone),
    hidle (.inl hstage) 1⟩

end LazyRescale
end Koala
