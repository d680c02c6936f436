import Koala.LazyRescale.Suppliers

/-!
# Work in hand

`HandOk` and `LogOk` along the steps of the protocol.  A batch from upstream is for its receiver by the old or by
the new partition; what it must not process itself it still forwards, because it is in transition until its last
barrier.  A batch or metadata from a peer is about buckets that have arrived.
-/

namespace Koala
namespace LazyRescale

open Lib Lib.Outcome Keyby Partition
open Function (update_self)

variable {R K : Type}

namespace HandOk

variable {job : Job R K} {co : Coordinator} {store store' : LazyByKey.World K} {w : WorkerID} {l l' : Loop R}

theorem restage (h : HandOk job co store w l) (stage : Stage) : HandOk job { co with stage := stage } store w l :=
  ⟨h.input, h.batch, h.work, h.index⟩

theorem restore (h : HandOk job co store w l) (hstays : ∀ b, store.holder b = some w → store'.holder b = some w) :
    HandOk job co store' w l where
  input := h.input
  batch := fun recs second hpc r hr => (h.batch recs second hpc r hr).imp_left (hstays _)
  work := fun buckets hpc b hb => hstays b (h.work buckets hpc b hb)
  index := fun b hb => (h.index b hb).imp_left (hstays b)

theorem index_held (h : HandOk job co store w l) (hpc : l.pc ≠ .announcing) :
    ∀ b ∈ l.index, store.holder b = some w := fun b hb =>
  (h.index b hb).resolve_right fun hann => hpc hann.1

theorem ofIndex (hbatch : ∀ recs second, l.pc ≠ .batch recs second) (hwork : ∀ buckets, l.pc ≠ .work buckets)
    (hindex : ∀ b ∈ l.index, store.holder b = some w) : HandOk job co store w l where
  input := fun recs second hpc => absurd hpc (hbatch recs second)
  batch := fun recs second hpc => absurd hpc (hbatch recs second)
  work := fun buckets hpc => absurd hpc (hwork buckets)
  index := fun b hb => .inl (hindex b hb)

theorem ofWork {buckets : List BucketID} (hpc : l.pc = .work buckets)
    (hbuckets : ∀ b ∈ buckets, store.holder b = some w) (hindex : ∀ b ∈ l.index, store.holder b = some w) :
    HandOk job co store w l where
  input := fun recs second hpc' => by rw [hpc] at hpc'; cases hpc'
  batch := fun recs second hpc' => by rw [hpc] at hpc'; cases hpc'
  work := fun buckets' hpc' => by
    rw [hpc] at hpc'
    cases hpc'
    exact hbuckets
  index := fun b hb => .inl (hindex b hb)

theorem rehandle (h : HandOk job co store w l) (hpc : l'.pc = l.pc) (hin : l'.inTransition = l.inTransition)
    (hindex : l'.index = l.index) : HandOk job co store w l' where
  input := hpc ▸ h.input
  batch := by rw [hpc, hin]; exact h.batch
  work := hpc ▸ h.work
  index := by rw [hpc, hindex]; exact h.index

theorem update {loop : WorkerID → Loop R} (hw : HandOk job co store w l)
    (hothers : ∀ v ≠ w, HandOk job co store v (loop v)) (v : WorkerID) :
    HandOk job co store v (Function.update loop w l v) := by
  by_cases hv : v = w
  · rw [hv, update_self]
    exact hw
  · rw [Function.update_of_ne hv]
    exact hothers v hv

end HandOk

namespace Inv

variable [DecidableEq K] {job : Job R K} {s s' : Sys R K} {a : Action R K}

variable {w : WorkerID}

section

variable (h : Inv job s)
include h

/-- A batch in an upstream channel is for a task that holds its buckets or that forwards it. -/
theorem batch_spec {u : UpstreamID} {recs : List R} {rest : List (UpstreamUnit R)}
    (hqueue : s.queue u w = .batch recs :: rest) {r : R} (hr : r ∈ recs) :
    s.store.holder (job.bucketOf r) = some w ∨
      (s.co.Moves job (job.bucketOf r) w (s.co.part (job.bucketOf r)) ∧ (s.loop w).inTransition = true) := by
  have hb := job.bucketOf_lt r
  have hu := h.queues.mem_of_queue hqueue
  have hshape := h.queues.shape u hu w
  -- a batch sent by the old partition has a barrier behind it
  have hold : s.co.old (job.bucketOf r) = w → passed s.co s.queue w u = false →
      s.store.holder (job.bucketOf r) = some w ∨
        (s.co.Moves job (job.bucketOf r) w (s.co.part (job.bucketOf r)) ∧ (s.loop w).inTransition = true) := by
    intro howner hahead
    by_cases hsame : s.co.part (job.bucketOf r) = w
    · rw [h.places.kept _ hb (.inr (howner.trans hsame.symm)), howner]
      exact .inl rfl
    · have hmoves : s.co.Moves job (job.bucketOf r) w (s.co.part (job.bucketOf r)) :=
        ⟨hb, howner, rfl, fun heq => hsame heq.symm⟩
      by_cases hw : w ∈ s.handed
      · refine .inr ⟨hmoves, ((h.sender w).transit hw fun haligned => ?_).2⟩
        have hrunning : s.co.stage ≠ .idle := fun hidle => h.plan.idle_sends hidle _ _ ⟨_, hmoves⟩
        have hinited := ((h.sender w).sender hw hrunning).1.inited w
        have hpassed := (h.passed_of_aligned (.inl (h.plan.src_mem ⟨_, hmoves⟩)) hinited haligned).2 u hu
        rw [hahead] at hpassed
        cases hpassed
      · exact .inl (h.places.holder_old hmoves hw)
  cases hswapped : s.co.stage.swapped u with
  | false =>
    rw [hswapped, hqueue] at hshape
    exact hold (hshape.2 recs List.mem_cons_self r hr) (by simp [passed, hswapped])
  | true =>
    rw [hswapped] at hshape
    rcases hshape with ⟨-, hrouted⟩ | ⟨before, after, hsplit, -, -, hrouted, -⟩
    · rw [hqueue] at hrouted
      have howner := hrouted recs List.mem_cons_self r hr
      rw [h.holder_part hswapped hb, howner]
      exact .inl rfl
    · cases before with
      | nil =>
        rw [hqueue] at hsplit
        cases hsplit
      | cons first more =>
        have hfirst : first = .batch recs := by
          rw [hqueue] at hsplit
          exact (List.cons.inj hsplit).1.symm
        refine hold (hrouted recs (by simp [hfirst]) r hr) ?_
        simp [passed, hsplit, UpstreamUnit.isBarrier]

theorem holder_stays (hstep : Step job s a s') (hne : a ≠ .handover w) (b : BucketID)
    (hholder : s.store.holder b = some w) : s'.store.holder b = some w :=
  (h.holder_step hstep hholder).resolve_right fun hleaves => hne hleaves.2.1

/-- Between reconfigurations, and when one starts, the task holds everything it has in hand. -/
theorem hand_rescale (hnone : ∀ w, ∀ recs second, (s.loop w).pc = .batch recs second →
      ∀ b dst, s.co.Moves job b w dst → (s.loop w).inTransition = false)
    (hannounced : ∀ w, (s.loop w).pc ≠ .announcing) (co : Coordinator) (w : WorkerID) :
    HandOk job co s.store w (s.loop w) where
  input := (h.hand w).input
  batch := fun recs second hpc r hr => .inl (((h.hand w).batch recs second hpc r hr).resolve_right fun hmoves => by
    have := hnone w recs second hpc _ _ hmoves.1
    rw [hmoves.2] at this
    cases this)
  work := (h.hand w).work
  index := fun b hb => .inl ((h.hand w).index_held (hannounced w) b hb)

theorem hand_takeRegular {u : UpstreamID} {progress : Bool}
    (hstep : Step job s (.takeRegular w u progress) s') (v : WorkerID) :
    HandOk job s'.co s'.store v (s'.loop v) := by
  have hothers : ∀ v ≠ w, HandOk job s.co s.store v (s.loop v) := fun v _ => h.hand v
  have hindex : (s.loop w).pc = .ready → ∀ b ∈ (s.loop w).index, s.store.holder b = some w :=
    fun hpc => (h.hand w).index_held (by simp [hpc])
  cases hstep with
  | takeBatch _ _ _ _ _ hpc hqueue =>
    refine HandOk.update ?_ hothers v
    refine ⟨?_, ?_, nofun, fun b hb => .inl (hindex hpc b hb)⟩
    · rintro _ _ ⟨⟩
      exact job.inputOf_mem u
    · rintro _ _ ⟨⟩ r hr
      exact h.batch_spec hqueue hr
  | takeWatermark _ _ _ _ hpc =>
    refine HandOk.update ?_ hothers v
    refine .ofIndex ?_ ?_ (hindex hpc)
    · cases progress <;> nofun
    · cases progress <;> nofun
  | takeBarrier | takeTermination => exact h.hand v
  | takeLastBarrier _ _ _ _ hpc =>
    refine HandOk.update ?_ hothers v
    refine .ofIndex ?_ ?_ (hindex hpc)
    · intro recs second
      simp only
      split_ifs <;> nofun
    · intro buckets
      simp only
      split_ifs <;> nofun

theorem hand_takePeer {src : WorkerID} {second progress : Bool}
    (hstep : Step job s (.takePeer w src second progress) s') (v : WorkerID) :
    HandOk job s'.co s'.store v (s'.loop v) := by
  have hothers : ∀ v ≠ w, HandOk job s.co s.store v (s.loop v) := fun v _ => h.hand v
  have hindex : (s.loop w).pc = .ready → ∀ b ∈ (s.loop w).index, s.store.holder b = some w :=
    fun hpc => (h.hand w).index_held (by simp [hpc])
  have hlink := h.link ⟨src, w, second⟩
  cases hstep with
  | peerBatch _ _ _ _ recs _ hpc hstatus hqueue =>
    obtain ⟨-, hreceived⟩ := hlink.arrived (.inr hstatus)
    refine HandOk.update ?_ hothers v
    refine ⟨?_, ?_, nofun, fun b hb => .inl (hindex hpc b hb)⟩
    · rintro _ _ ⟨⟩
      exact (hlink.opened (by simp [hstatus])).2.2
    · rintro _ _ ⟨⟩ r hr
      exact .inl (hreceived _ (hlink.batch recs (by simp [hqueue]) r hr))
  | peerWatermark _ _ _ _ _ hpc | peerTermination _ _ _ _ _ hpc | peerLastTermination _ _ _ _ _ hpc =>
    refine HandOk.update ?_ hothers v
    refine .ofIndex ?_ ?_ (hindex hpc)
    · cases progress <;> nofun
    · cases progress <;> nofun
  | peerMetadata _ _ _ _ buckets _ hpc hstatus hqueue =>
    obtain ⟨-, hreceived⟩ := hlink.arrived (.inr hstatus)
    refine HandOk.update ?_ hothers v
    refine .ofIndex nofun nofun fun b hb => ?_
    rcases List.mem_append.mp hb with hold | hnew
    · exact hindex hpc b hold
    · exact hreceived b (hlink.metadata buckets (by simp [hqueue]) b hnew)

/-- **A task processes only buckets it holds**: what the main loop's `switch` hands on. -/
theorem dispatch_held {fired buckets : List BucketID} (hstep : Step job s (.dispatch w fired) s')
    (hpc : (s'.loop w).pc = .work buckets) :
    ∀ b ∈ buckets, s.store.holder b = some w := by
  cases hstep with
  | dispatchLocal _ _ recs second hpc' hin =>
    simp only [Sys.startWork, Sys.setLoop, update_self] at hpc
    cases hpc
    intro b hb
    obtain ⟨r, hr, rfl⟩ := List.mem_map.mp hb
    refine ((h.hand w).batch recs second hpc' r hr).resolve_right fun hmoves => ?_
    rw [hin] at hmoves
    cases hmoves.2
  | dispatchForward _ _ recs second routing hpc' hin hrouting =>
    simp only [Sys.startWork, Sys.setLoop, update_self] at hpc
    cases hpc
    have hphase := h.phase_of_transition hin (by simp [hpc']) (by simp [hpc'])
    obtain rfl : routing = s.co.part := Option.some.inj (hrouting.symm.trans ((h.sender w).routing hphase))
    intro b hb
    obtain ⟨r, hr, rfl⟩ := List.mem_map.mp hb
    simp only [List.mem_filter, decide_eq_true_eq] at hr
    refine ((h.hand w).batch recs second hpc' r hr.1).resolve_right fun hmoves => ?_
    exact hmoves.1.2.2.2 hr.2.symm
  | dispatchForwardAll =>
    simp only [Sys.setLoop, update_self] at hpc
    cases hpc
  | dispatchWatermark _ _ hpc' hfired =>
    simp only [Sys.startWork, Sys.setLoop, update_self] at hpc
    cases hpc
    exact fun b hb => (h.hand w).index_held (by simp [hpc']) b (hfired b hb)

/-- The main loop's `switch`. -/
theorem hand_dispatch {fired : List BucketID} (hstep : Step job s (.dispatch w fired) s')
    (v : WorkerID) : HandOk job s'.co s'.store v (s'.loop v) := by
  have hothers : ∀ v ≠ w, HandOk job s.co s.store v (s.loop v) := fun v _ => h.hand v
  have hheld : ∀ buckets, (s'.loop w).pc = .work buckets → ∀ b ∈ buckets, s.store.holder b = some w :=
    fun _ => h.dispatch_held hstep
  have hindex : (s.loop w).pc ≠ .announcing → ∀ b ∈ (s.loop w).index, s.store.holder b = some w :=
    fun hpc => (h.hand w).index_held hpc
  cases hstep with
  | dispatchLocal _ _ _ _ hpc | dispatchForward _ _ _ _ _ hpc | dispatchWatermark _ _ hpc =>
    refine HandOk.update (.ofWork rfl (hheld _ ?_) ?_) hothers v
    · simp only [Sys.startWork, Sys.setLoop, update_self]
    · exact hindex (by simp [hpc])
  | dispatchForwardAll _ _ _ _ _ hpc =>
    refine HandOk.update ?_ hothers v
    exact .ofIndex (by simp) (by simp) (hindex (by simp [hpc]))

/-- **Every step leaves every task with work of its own in hand.** -/
theorem hand_step (hstep : Step job s a s') (v : WorkerID) : HandOk job s'.co s'.store v (s'.loop v) := by
  have hstays : ∀ {w}, a ≠ .handover w → ∀ b, s.store.holder b = some w → s'.store.holder b = some w :=
    fun hne => h.holder_stays hstep hne
  have hleaves : ∀ {w b}, s.store.holder b = some w →
      s'.store.holder b = some w ∨ s.co.Moves job b w (s.co.part b) :=
    fun hb => (h.holder_step hstep hb).imp_right (·.2.2)
  have hothers : ∀ w, ∀ v ≠ w, HandOk job s.co s.store v (s.loop v) := fun _ v _ => h.hand v
  have hindex : ∀ {w}, (s.loop w).pc ≠ .announcing → ∀ b ∈ (s.loop w).index, s.store.holder b = some w :=
    fun hpc => (h.hand _).index_held hpc
  have hwhole := hstep
  cases hstep with
  | rescale resize part plan hidle =>
    refine h.hand_rescale (fun w recs second _ b dst hmoves => ?_) (fun w hann => ?_) _ v
    · exact absurd ⟨b, hmoves⟩ (h.plan.idle_sends hidle w dst)
    · have := ((h.sender w).announcing hann).2.1
      rw [((h.sender w).idle hidle).1] at this
      cases this
  | complete hstage =>
    refine h.hand_rescale (fun w recs second hpc b dst _ => ?_) (fun w hann => ?_) _ v
    · by_contra hin
      have hphase := h.phase_of_transition (by simpa using hin) (by simp [hpc]) (by simp [hpc])
      rw [(h.settled_sender hstage w).1] at hphase
      cases hphase
    · have := ((h.sender w).announcing hann).2.1
      rw [(h.settled_sender hstage w).1] at this
      cases this
  | toForward | toConnect | toRoute | toEventual | toSettle | initOld | updateRouting | waitInboundPeers
  | waitReconfigDone | waitEventual => exact (h.hand v).restage _
  | startEventual w todo waiting store hstage => exact ((h.hand v).restore (hstays nofun)).restage _
  | initNew w todo store hstage =>
    refine HandOk.update ?_ (fun v _ => ?_) v
    · exact .ofIndex nofun nofun nofun
    · exact ((h.hand v).restore (hstays nofun)).restage _
  | handleStart w | handleRouting w | handleActivate w | handleRaise w =>
    refine HandOk.update ?_ (hothers w) v
    exact (h.hand w).rehandle rfl rfl rfl
  | loopStay w hpc | loopOut w hpc | exitEnd w hpc | exitLower w _ hpc | exitRouting w _ hpc | exitClose w _ _ hpc
  | exitRelease w _ _ hpc =>
    refine HandOk.update ?_ (hothers w) v
    exact .ofIndex nofun nofun (hindex (by simp [hpc]))
  | loopEnter w todo hpc =>
    refine HandOk.update ?_ (fun v _ => (h.hand v).restage _) v
    exact .ofIndex nofun nofun (hindex (by simp [hpc]))
  | handover w routing table out store hpc =>
    refine HandOk.update ?_ (fun v hv => ?_) v
    · refine ⟨nofun, nofun, nofun, fun b hb => ?_⟩
      exact (hleaves (hindex (by simp [hpc]) b hb)).imp_right fun hmoves => ⟨rfl, hmoves⟩
    · exact (h.hand v).restore (hstays fun heq => hv (Action.handover.inj heq).symm)
  | announce w watermark routing hpc hrouting =>
    obtain ⟨-, hphase, -⟩ := (h.sender w).announcing hpc
    obtain rfl : routing = s.co.part := Option.some.inj (hrouting.symm.trans ((h.sender w).routing hphase))
    refine HandOk.update ?_ (hothers w) v
    refine .ofIndex nofun nofun fun b hb => ?_
    simp only [List.mem_filter, decide_eq_true_eq] at hb
    exact ((h.hand w).index b hb.1).resolve_right fun hmoves => hmoves.2.2.2.2 hb.2.symm
  | takeBatch | takeWatermark | takeLastBarrier => exact h.hand_takeRegular hwhole v
  | peerBatch | peerWatermark | peerMetadata | peerTermination | peerLastTermination => exact h.hand_takePeer hwhole v
  | dispatchLocal | dispatchForward | dispatchForwardAll | dispatchWatermark => exact h.hand_dispatch hwhole v
  | finish w index buckets hpc hmain hfinish =>
    refine HandOk.update ?_ (hothers w) v
    refine .ofIndex nofun nofun fun b hb => ?_
    rcases hfinish b hb with hold | hnew
    · exact hindex (by simp [hpc]) b hold
    · exact (h.hand w).work buckets hpc b hnew
  | install | read | run | readDone | flush | endUnit => exact (h.hand v).restore (hstays nofun)
  | _ => exact h.hand v

end

end Inv

namespace LogOk

variable {co co' : Coordinator} {store store' : LazyByKey.World K} {log : List Processed}

theorem frame (h : LogOk co store log) (hepoch : co'.epoch = co.epoch) (hpart : co'.part = co.part)
    (hstays : ∀ b, store.holder b = some (co.part b) → store'.holder b = some (co.part b)) :
    LogOk co' store' log where
  epoch := fun e he => hepoch ▸ h.epoch e he
  current := fun e he hcurrent hdst hmoved => by
    obtain ⟨hholder, hnew⟩ := h.current e he (hcurrent.trans hepoch) hdst hmoved
    refine ⟨?_, hpart ▸ hnew⟩
    rw [← hnew] at hholder ⊢
    exact hstays _ hholder
  ordered := h.ordered

theorem rescale (h : LogOk co store log) (hepoch : co'.epoch = co.epoch + 1) : LogOk co' store log where
  epoch := fun e he => by
    have := h.epoch e he
    omega
  current := fun e he hcurrent => by
    have := h.epoch e he
    omega
  ordered := h.ordered

/-- A task starts on buckets it holds: if the new owner has worked on one of them before, the task is not the old
owner. -/
theorem append (h : LogOk co store log) {w : WorkerID} {buckets : List BucketID}
    (hheld : ∀ b ∈ buckets, store.holder b = some w) :
    LogOk co store (log ++ buckets.map fun b => ⟨co.epoch, w, b, co.old b, co.part b⟩) where
  epoch := fun e he => by
    rcases List.mem_append.mp he with hold | hnew
    · exact h.epoch e hold
    · obtain ⟨b, -, rfl⟩ := List.mem_map.mp hnew
      exact le_rfl
  current := fun e he hcurrent hdst hmoved => by
    rcases List.mem_append.mp he with hold | hnew
    · exact h.current e hold hcurrent hdst hmoved
    · obtain ⟨b, hb, rfl⟩ := List.mem_map.mp hnew
      simp only at hdst
      exact ⟨hdst ▸ hheld b hb, rfl⟩
  ordered := by
    refine List.pairwise_append.mpr ⟨h.ordered, ?_, fun e he e' he' hepoch hbucket hdst hmoved => ?_⟩
    · refine List.pairwise_map.mpr (List.pairwise_of_forall fun b b' _ hbucket hdst hmoved => ?_)
      simp only at hdst hmoved ⊢
      exact fun hsrc => hmoved (hsrc.symm.trans hdst)
    · obtain ⟨b, hb, rfl⟩ := List.mem_map.mp he'
      simp only at hepoch hbucket ⊢
      have hholder := (h.current e he hepoch hdst hmoved).1
      rw [hbucket, hheld b hb] at hholder
      exact fun hsrc => hmoved (hsrc.symm.trans (Option.some.inj hholder))

end LogOk

namespace Inv

variable [DecidableEq K] {job : Job R K} {s s' : Sys R K} {a : Action R K}

/-- **Every step keeps the order of processing.** -/
theorem log_step (h : Inv job s) (hstep : Step job s a s') : LogOk s'.co s'.store s'.log := by
  have hstays : ∀ b, s.store.holder b = some (s.co.part b) → s'.store.holder b = some (s.co.part b) := fun b hb => by
    rcases h.holder_step hstep hb with hstays | ⟨-, -, hmoves⟩
    · exact hstays
    · exact absurd rfl hmoves.2.2.2
  have hheld : ∀ w fired buckets, a = .dispatch w fired → (s'.loop w).pc = .work buckets →
      ∀ b ∈ buckets, s.store.holder b = some w := by
    rintro w fired buckets rfl hpc
    exact h.dispatch_held hstep hpc
  cases hstep with
  | rescale => exact h.log.rescale rfl
  | dispatchLocal w fired | dispatchForward w fired | dispatchWatermark w fired =>
    refine h.log.append (hheld w fired _ rfl ?_)
    simp only [Sys.startWork, Sys.setLoop, update_self]
  | _ => exact h.log.frame rfl rfl hstays

end Inv

end LazyRescale
end Koala
