import Koala.LazyRescale.SupplierRuns

/-!
# Reconfiguration tracking of the suppliers

`ConnOk` says what the supplier of a task knows of its connections, `SignalOk` when the task has signalled the end of
the reconfiguration.  Both hold in every state of a run in which no end of a channel overtakes an upstream
connection (`trackInv_of_run`), and with the counters of the protocol's invariant they give `supplierTracking`.
-/

namespace Koala
namespace LazyRescale

open Lib Lib.Outcome Keyby Partition
open Function (update update_self update_of_ne)
open Sys (setChan setLoop setSup)

variable {R K : Type}

/-- A new task that still waits for connections. -/
def Joining (job : Job R K) (s : Sys R K) (w : WorkerID) (t : Upstreams) : Prop :=
  w ∈ s.co.added ∧ s.co.stage.Inited w ∧ t.isShuttingDown = false ∧
    t.expectNumUpstream = job.upstreams.length + (linksInto job s.co w).length ∧
    ((s.sup w).expectedInboundPeers = (linksInto job s.co w).length ∨
      ((s.sup w).expectedInboundPeers = -2 ∧ ∀ k ∈ linksInto job s.co w, (s.link k).status = .registered))

/-- The connections of a task. -/
structure ConnOk (job : Job R K) (s : Sys R K) (w : WorkerID) (t : Upstreams) (conn : UpstreamID → Conn) :
    Prop where
  nodup : t.upstreams.Nodup
  peer : ∀ l, .peer l ∈ t.upstreams ↔ l.dst = w ∧ (s.link l).status = .registered
  regular : ∀ u, .regular u ∈ t.upstreams → conn u = .setUp
  /-- Only a task that shuts down loses the connection of an upstream task. -/
  kept : ∀ u, conn u = .setUp →
    .regular u ∈ t.upstreams ∨ (t.isShuttingDown = true ∧ t.taskDeploymentPhasePassed = true)
  deployed : ∀ u, conn u ≠ .none → w ∈ s.store.deployed
  fresh : ∀ u, w ∈ s.co.added → s.co.stage.swapped u = false → conn u = .none
  ended : ∀ u, .termination ∈ s.queue u w → t.isShuttingDown = true ∧ w ∈ s.store.deployed
  removed : s.co.stage.Inited w → w ∈ s.co.removed → t.isShuttingDown = true
  phase : w ∈ s.store.deployed → t.taskDeploymentPhasePassed = false →
    t.upstreams.length < t.expectNumUpstream ∧ (t.expectNumUpstream = job.upstreams.length ∨ Joining job s w t)

/-- The two countdowns of a task are over. -/
def Counted (s : Sys R K) (w : WorkerID) : Prop :=
  s.co.Live w ∧ s.co.stage.Inited w ∧ (s.sup w).expectedInflightBarriers = -1 ∧
    (s.sup w).expectedInboundPeers = -1

/-- A task has signalled the end of the reconfiguration once if its countdowns are over, and not yet otherwise. -/
def SignalOk (s : Sys R K) (w : WorkerID) (signals : Nat) : Prop :=
  s.co.stage ≠ .idle → (Counted s w → signals = 1) ∧ (¬ Counted s w → signals = 0)

structure TrackInv [DecidableEq K] (job : Job R K) (s : Tracked R K) : Prop where
  base : Inv job s.sys
  conn : ∀ w, ConnOk job s.sys w (s.upstreams w) fun u => s.conn u w
  signals : ∀ w, SignalOk s.sys w (s.signals w)

/-! ## Tasks a step does not touch -/

/-- Nothing changes that the connections of task `w` depend on. -/
structure QuietAt (s s' : Sys R K) (w : WorkerID) : Prop where
  deployed : w ∈ s'.store.deployed ↔ w ∈ s.store.deployed
  added : w ∈ s'.co.added ↔ w ∈ s.co.added
  removed : w ∈ s'.co.removed ↔ w ∈ s.co.removed
  plan : s'.co.plan.get w = s.co.plan.get w
  inited : s'.co.stage.Inited w ↔ s.co.stage.Inited w
  swapped : ∀ u, s'.co.stage.swapped u = false → s.co.stage.swapped u = false
  registered : ∀ k : Link, k.dst = w → ((s'.link k).status = .registered ↔ (s.link k).status = .registered)
  ended : ∀ u, .termination ∈ s'.queue u w → .termination ∈ s.queue u w
  peers : (s'.sup w).expectedInboundPeers = (s.sup w).expectedInboundPeers

section

variable {job : Job R K} {s s' : Sys R K} {w : WorkerID} {t : Upstreams} {conn : UpstreamID → Conn}

theorem Quiet.at (h : Quiet s s') (w : WorkerID) : QuietAt s s' w where
  deployed := by rw [h.deployed]
  added := by rw [h.added]
  removed := by rw [h.removed]
  plan := by rw [h.plan]
  inited := h.inited w
  swapped := h.swapped
  registered := fun k _ => h.registered k
  ended := fun u => h.ended u w
  peers := h.peers w

theorem QuietAt.linksInto (h : QuietAt s s' w) : linksInto job s'.co w = linksInto job s.co w := by
  unfold LazyRescale.linksInto Coordinator.sourcesOf
  rw [h.plan]

theorem QuietAt.joining (h : QuietAt s s' w) (hold : Joining job s w t) : Joining job s' w t := by
  obtain ⟨hadded, hinited, hshut, hexpect, hpeers⟩ := hold
  refine ⟨h.added.mpr hadded, h.inited.mpr hinited, hshut, by rwa [h.linksInto], ?_⟩
  rw [h.linksInto, h.peers]
  exact hpeers.imp_right fun ⟨hall, hreg⟩ =>
    ⟨hall, fun k hk => (h.registered k (dst_of_mem_linksInto hk)).mpr (hreg k hk)⟩

theorem ConnOk.quiet (h : ConnOk job s w t conn) (hquiet : QuietAt s s' w) : ConnOk job s' w t conn :=
  { h with
    peer := fun l => by
      rw [h.peer]
      exact and_congr_right fun hdst => (hquiet.registered l hdst).symm
    deployed := fun u hu => hquiet.deployed.mpr (h.deployed u hu)
    fresh := fun u hadded hswapped => h.fresh u (hquiet.added.mp hadded) (hquiet.swapped u hswapped)
    ended := fun u hend => (h.ended u (hquiet.ended u hend)).imp_right hquiet.deployed.mpr
    removed := fun hinited hremoved => h.removed (hquiet.inited.mp hinited) (hquiet.removed.mp hremoved)
    phase := fun hdeployed hphase =>
      (h.phase (hquiet.deployed.mp hdeployed) hphase).imp_right fun hcase => hcase.imp_right hquiet.joining }

theorem Quiet.counted (h : Quiet s s') : Counted s' w ↔ Counted s w := by
  unfold Counted Coordinator.Live
  rw [h.tasks, h.added, h.inited, h.barriers, h.peers]

theorem SignalOk.quiet {n : Nat} (h : SignalOk s w n) (hquiet : Quiet s s') : SignalOk s' w n := by
  intro hstage
  rw [hquiet.counted]
  exact h fun hidle => hstage (hquiet.idle.mpr hidle)

end

/-! ## What an end of a channel meets -/

section

variable [DecidableEq K] {job : Job R K} {s : Sys R K} {w : WorkerID} {t : Upstreams} {conn : UpstreamID → Conn}

omit [DecidableEq K] in
theorem length_le_of_connected (hconnected : ∀ u ∈ job.upstreams, .regular u ∈ t.upstreams)
    (links : List Link) (hnodup : links.Nodup) (hlinks : ∀ k ∈ links, .peer k ∈ t.upstreams) :
    job.upstreams.length + links.length ≤ t.upstreams.length := by
  have hsub : (job.upstreams.map Channel.regular ++ links.map Channel.peer).Subperm t.upstreams := by
    refine List.subperm_of_subset ?_ ?_
    · refine List.Nodup.append (job.upstreams_nodup.map fun _ _ heq => Channel.regular.inj heq)
        (hnodup.map fun _ _ heq => Channel.peer.inj heq) ?_
      intro c hc hc'
      obtain ⟨u, -, rfl⟩ := List.mem_map.mp hc
      obtain ⟨k, -, heq⟩ := List.mem_map.mp hc'
      cases heq
    · intro c hc
      rcases List.mem_append.mp hc with hreg | hpeer
      · obtain ⟨u, hu, rfl⟩ := List.mem_map.mp hreg
        exact hconnected u hu
      · obtain ⟨k, hk, rfl⟩ := List.mem_map.mp hpeer
        exact hlinks k hk
  have hlen := hsub.length_le
  simpa using hlen

/-- A task all of whose upstream tasks are connected has passed its deployment phase when it is given the end of a
channel. -/
theorem ConnOk.phase_passed (h : ConnOk job s w t conn) (base : Inv job s)
    (hconnected : ∀ u ∈ job.upstreams, conn u = .setUp) (hdeployed : w ∈ s.store.deployed)
    (hpeers : t.isShuttingDown = true ∨ (s.sup w).expectedInboundPeers = -2) :
    t.taskDeploymentPhasePassed = true := by
  by_contra hnot
  have hphase : t.taskDeploymentPhasePassed = false := by simpa using hnot
  have hregular : ∀ u ∈ job.upstreams, .regular u ∈ t.upstreams := fun u hu =>
    (h.kept u (hconnected u hu)).resolve_right fun hgone => hnot hgone.2
  obtain ⟨hlt, hexpect | ⟨hadded, hinited, hshut, hexpect, hjoin⟩⟩ := h.phase hdeployed hphase
  · have hle := length_le_of_connected hregular [] List.nodup_nil (by simp)
    simp only [List.length_nil] at hle
    omega
  · have hexpected : (s.sup w).expectedInboundPeers = -2 := hpeers.resolve_left (by simp [hshut])
    have hall : ∀ k ∈ linksInto job s.co w, (s.link k).status = .registered := by
      rcases hjoin with hwaiting | ⟨-, hall⟩
      · omega
      · exact hall
    have hle := length_le_of_connected hregular (linksInto job s.co w)
      (linksInto_nodup base.plan hinited.ne_idle w) fun k hk =>
        (h.peer k).mpr ⟨dst_of_mem_linksInto hk, hall k hk⟩
    omega

omit [DecidableEq K] in
/-- The end of a channel is dealt with when all upstream tasks are connected. -/
theorem ConnOk.removeUpstream_ok (h : ConnOk job s w t conn) (hphase : t.taskDeploymentPhasePassed = true)
    (hfed : ∀ second ∈ job.inputs, ∃ u ∈ job.upstreams, job.inputOf u = second)
    (hconnected : ∀ u ∈ job.upstreams, conn u = .setUp) {c : Channel}
    (hc : t.isShuttingDown = true ∨ (c ∈ t.upstreams ∧ ∃ l : Link, c = .peer l ∧ l.second ∈ job.inputs)) :
    t.removeUpstream job c = .ok { t with upstreams := t.upstreams.erase c } := by
  unfold Upstreams.removeUpstream
  rw [check_eq_ok (by simp [hphase]), ok_bind, check_eq_ok, ok_bind]
  rintro ⟨hshort, hstays⟩
  obtain ⟨hmem, l, rfl, hinput⟩ := hc.resolve_left (by simp [hstays])
  -- next to the peer there is an upstream task of the same operator
  obtain ⟨u, hu, hsame⟩ := hfed l.second hinput
  have hregular : .regular u ∈ t.upstreams :=
    (h.kept u (hconnected u hu)).resolve_right fun hgone => by simp [hstays] at hgone
  have hsub : [Channel.regular u, .peer l].Subperm
      (t.upstreams.filter fun d => d.input job = (Channel.peer l).input job) := by
    refine List.subperm_of_subset (by simp) fun d hd => ?_
    rcases List.mem_cons.mp hd with rfl | hd
    · exact List.mem_filter.mpr ⟨hregular, by simp [Channel.input, hsame]⟩
    · rw [List.mem_singleton.mp hd]
      exact List.mem_filter.mpr ⟨hmem, by simp⟩
  have hlen := hsub.length_le
  simp only [List.length_cons, List.length_nil] at hlen
  omega

end

/-! ## Steps that touch a task -/

section

variable {job : Job R K} {s s' : Sys R K} {w : WorkerID} {t : Upstreams} {conn : UpstreamID → Conn} {c : Channel}

theorem Upstreams.addUpstream_phase (hphase : (t.addUpstream c).taskDeploymentPhasePassed = false)
    (hlt : t.upstreams.length < t.expectNumUpstream) :
    (t.addUpstream c).upstreams.length < (t.addUpstream c).expectNumUpstream := by
  have hne : t.upstreams.length + 1 ≠ t.expectNumUpstream := fun heq => by
    simp [addUpstream, heq] at hphase
  simp only [addUpstream, List.length_append, List.length_singleton]
  omega

theorem Upstreams.addUpstream_phase_of
    (hphase : (t.addUpstream c).taskDeploymentPhasePassed = false) : t.taskDeploymentPhasePassed = false := by
  simp only [addUpstream, Bool.or_eq_false_iff] at hphase
  exact hphase.1

theorem Upstreams.addUpstream_passed (hphase : t.taskDeploymentPhasePassed = true) :
    (t.addUpstream c).taskDeploymentPhasePassed = true := by
  simp [addUpstream, hphase]

theorem ConnOk.connect (h : ConnOk job s w t conn) {u : UpstreamID} (hopened : conn u = .opened) :
    ConnOk job s w (t.addUpstream (.regular u)) (update conn u .setUp) where
  nodup := by
    refine h.nodup.append (List.nodup_singleton _) fun c hc hlast => ?_
    rw [List.mem_singleton.mp hlast] at hc
    have hsetUp := h.regular u hc
    rw [hopened] at hsetUp
    cases hsetUp
  peer := fun l => by
    rw [← h.peer]
    simp [Upstreams.addUpstream]
  regular := fun u' hmem => by
    by_cases hu : u' = u
    · rw [hu, update_self]
    · rw [update_of_ne hu]
      exact h.regular u' (by simpa [Upstreams.addUpstream, hu] using hmem)
  kept := fun u' hsetUp => by
    by_cases hu : u' = u
    · exact .inl (by simp [Upstreams.addUpstream, hu])
    · rw [update_of_ne hu] at hsetUp
      refine (h.kept u' hsetUp).imp (fun hmem => ?_) fun hgone => ⟨hgone.1, Upstreams.addUpstream_passed hgone.2⟩
      exact List.mem_append_left _ hmem
  deployed := fun u' hne => by
    by_cases hu : u' = u
    · exact h.deployed u (by simp [hopened])
    · rw [update_of_ne hu] at hne
      exact h.deployed u' hne
  fresh := fun u' hadded hswapped => by
    have hnone := h.fresh u' hadded hswapped
    by_cases hu : u' = u
    · rw [hu, hopened] at hnone
      cases hnone
    · rwa [update_of_ne hu]
  ended := h.ended
  removed := h.removed
  phase := fun hdeployed hphase => by
    obtain ⟨hlt, hcase⟩ := h.phase hdeployed (Upstreams.addUpstream_phase_of hphase)
    exact ⟨Upstreams.addUpstream_phase hphase hlt, hcase⟩

theorem ConnOk.register (h : ConnOk job s w t conn) {l : Link} (hdst : l.dst = w)
    (hold : (s.link l).status ≠ .registered) {p : Supplier} {c : Chan R} (hc : c.status = .registered)
    (hjoin : Joining job s w t → Joining job ((s.setChan l c).setSup w p) w t) :
    ConnOk job ((s.setChan l c).setSup w p) w (t.addUpstream (.peer l)) conn :=
  { h with
    nodup := by
      refine h.nodup.append (List.nodup_singleton _) fun c hc hlast => ?_
      rw [List.mem_singleton.mp hlast] at hc
      exact hold ((h.peer l).mp hc).2
    peer := fun k => by
      by_cases hk : k = l
      · subst hk
        simp [Upstreams.addUpstream, setSup, setChan, hdst, hc]
      · have hiff := h.peer k
        simpa [Upstreams.addUpstream, setSup, setChan, update_of_ne hk, hk] using hiff
    regular := fun u hmem => h.regular u (by simpa [Upstreams.addUpstream] using hmem)
    kept := fun u hsetUp => (h.kept u hsetUp).imp (fun hmem => List.mem_append_left _ hmem)
      fun hgone => ⟨hgone.1, Upstreams.addUpstream_passed hgone.2⟩
    phase := fun hdeployed hphase => by
      obtain ⟨hlt, hcase⟩ := h.phase hdeployed (Upstreams.addUpstream_phase_of hphase)
      exact ⟨Upstreams.addUpstream_phase hphase hlt, hcase.imp_right hjoin⟩ }

theorem ConnOk.dropRegular (h : ConnOk job s w t conn) (hphase : t.taskDeploymentPhasePassed = true)
    (hshut : t.isShuttingDown = true) (u : UpstreamID) :
    ConnOk job s w { t with upstreams := t.upstreams.erase (.regular u) } conn :=
  { h with
    nodup := h.nodup.erase _
    peer := fun l => by
      rw [← h.peer]
      exact List.mem_erase_of_ne nofun
    regular := fun u' hmem => h.regular u' (List.mem_of_mem_erase hmem)
    kept := fun _ _ => .inr ⟨hshut, hphase⟩
    phase := fun _ hnot => by
      rw [show t.taskDeploymentPhasePassed = false from hnot] at hphase
      cases hphase }

theorem ConnOk.dropPeer (h : ConnOk job s w t conn) (hphase : t.taskDeploymentPhasePassed = true) {l : Link}
    (hdst : l.dst = w) {p : Supplier} :
    ConnOk job ((s.setChan l ⟨.closed, []⟩).setSup w p) w { t with upstreams := t.upstreams.erase (.peer l) }
      conn :=
  { h with
    nodup := h.nodup.erase _
    peer := fun k => by
      by_cases hk : k = l
      · subst hk
        simp [setSup, setChan, h.nodup.not_mem_erase]
      · have hiff := h.peer k
        rw [List.mem_erase_of_ne fun heq => hk (Channel.peer.inj heq)]
        simpa [setSup, setChan, update_of_ne hk] using hiff
    regular := fun u hmem => h.regular u (List.mem_of_mem_erase hmem)
    kept := fun u hsetUp => (h.kept u hsetUp).imp_left fun hmem => (List.mem_erase_of_ne (by simp)).mpr hmem
    phase := fun _ hnot => by
      rw [show t.taskDeploymentPhasePassed = false from hnot] at hphase
      cases hphase }

end

/-! ## Steps of the coordinator -/

section

variable [DecidableEq K] {job : Job R K} {s s' : Sys R K} {w : WorkerID} {t : Upstreams} {conn : UpstreamID → Conn}

section

variable (h : ConnOk job s w t conn)
include h

theorem ConnOk.rescale (base : Inv job s) {resize : Resize} {part : PartitionTable}
    (hstep : Step job s (.rescale resize part) s') : ConnOk job s' w t conn := by
  cases hstep with
  | rescale _ _ plan hidle hallowed hpart hplan hnew =>
    have hadded : ∀ v ∈ resize.added, v ∉ s.store.deployed := by
      cases resize with
      | grow added => exact hallowed.2.2
      | shrink keep => exact fun _ hv => absurd hv List.not_mem_nil
    refine ⟨h.nodup, h.peer, h.regular, h.kept, h.deployed, fun u hw _ => ?_, h.ended, fun hinited hremoved => ?_,
      fun hdeployed hphase => (h.phase hdeployed hphase).imp_right fun hcase => ?_⟩
    · by_contra hne
      exact hadded w hw (h.deployed u hne)
    · refine absurd (List.mem_append_left _ ?_) hinited
      cases resize with
      | grow added => exact absurd hremoved List.not_mem_nil
      | shrink keep => exact List.mem_of_mem_drop hremoved
    · refine hcase.imp_right fun hjoin => absurd hjoin.1 ?_
      rw [(base.plan.idle hidle).2.1]
      exact List.not_mem_nil

theorem ConnOk.complete (base : Inv job s) (hstage : s.co.stage = .settle [])
    (hstep : Step job s .advance s') : ConnOk job s' w t conn := by
  cases hstep with
  | complete =>
    refine ⟨h.nodup, h.peer, h.regular, h.kept, h.deployed, fun u hw => absurd hw List.not_mem_nil, h.ended,
      fun hinited => hinited.elim, fun hdeployed hphase => (h.phase hdeployed hphase).imp_right fun hcase => ?_⟩
    refine hcase.imp_right fun hjoin => ?_
    have hsettled := (base.settled_sup hstage w).2
    rcases hjoin.2.2.2.2 with hwaiting | ⟨hreading, -⟩
    · omega
    · omega
  | toForward hother | toConnect hother | toRoute hother | toEventual hother | toSettle hother =>
    simp [hstage] at hother

omit [DecidableEq K] in
theorem ConnOk.initOld {todo : List WorkerID} (hold : w ∉ s.co.added) {p : Supplier} :
    ConnOk job ((s.setStage (.init (todo.filter (· ≠ w)))).setSup w p) w
      { t with isShuttingDown := t.isShuttingDown || w ∈ s.co.removed } conn :=
  { h with
    kept := fun u hsetUp => (h.kept u hsetUp).imp_right fun hgone => ⟨by simp [hgone.1], hgone.2⟩
    fresh := fun u hadded => absurd hadded hold
    ended := fun u hend => (h.ended u hend).imp_left fun hshut => by simp [hshut]
    removed := fun _ hremoved => by
      have hmem : w ∈ s.co.removed := hremoved
      simp [hmem]
    phase := fun hdeployed hphase =>
      (h.phase hdeployed hphase).imp_right fun hcase => .inl (hcase.resolve_right fun hjoin => hold hjoin.1) }

theorem ConnOk.initNew (base : Inv job s) {todo : List WorkerID}
    (hstage : s.co.stage = .init todo) (hnew : w ∈ s.co.added) (hpos : 0 < job.upstreams.length)
    (hfresh : w ∉ s.store.deployed) (hdeployed : w ∈ s'.store.deployed) (hlink : s'.link = s.link)
    (hqueue : s'.queue = s.queue) (hco : s'.co = { s.co with stage := .init (todo.filter (· ≠ w)) })
    (hsup : (s'.sup w).expectedInboundPeers = s.co.expectedInboundPeers job w) :
    ConnOk job s' w (.new (job.upstreams.length + (linksInto job s.co w).length)) conn where
  nodup := List.nodup_nil
  peer := fun l => by
    rw [hlink]
    refine iff_of_false List.not_mem_nil fun hreg => base.init_not_registered hstage l hreg.2
  regular := fun _ hmem => absurd hmem List.not_mem_nil
  kept := fun u hsetUp => by
    rw [h.fresh u hnew (by simp [hstage, Stage.swapped])] at hsetUp
    cases hsetUp
  deployed := fun _ _ => hdeployed
  fresh := fun u _ _ => h.fresh u hnew (by simp [hstage, Stage.swapped])
  ended := fun u hend => absurd (h.ended u (hqueue ▸ hend)).2 hfresh
  removed := fun _ hremoved => by
    rw [hco] at hremoved
    exact absurd ((base.plan.removed_iff w).mp hremoved).1 (base.plan.added_new w hnew)
  phase := fun _ _ => by
    have hlinks : linksInto job s'.co w = linksInto job s.co w := by
      rw [hco]
      rfl
    refine ⟨by simp only [Upstreams.new, List.length_nil]; omega, ?_⟩
    cases hplan : s.co.plan.get w with
    | none =>
      have hnone : linksInto job s.co w = [] := by simp [linksInto, Coordinator.sourcesOf, hplan]
      exact .inl (by simp [Upstreams.new, hnone])
    | some =>
      refine .inr ⟨by rwa [hco], ?_, rfl, by rw [hlinks]; rfl, .inl ?_⟩
      · rw [hco]
        simp [Stage.Inited]
      · rw [hsup, hlinks, length_linksInto, Coordinator.sourcesOf, Coordinator.expectedInboundPeers, hplan]
        rfl

/-- An upstream task opens its connections to the new tasks and ends those to the removed ones. -/
theorem ConnOk.updateRouting (base : Inv job s) {u : UpstreamID}
    (hstep : Step job s (.updateRouting u) s') {conn' : UpstreamID → Conn}
    (hconn : ∀ u', conn' u' = if u' = u ∧ w ∈ s.co.added then .opened else conn u') : ConnOk job s' w t conn' := by
  cases hstep with
  | updateRouting _ _ hstage hu =>
    have hinited : s.co.stage.Inited w := by simp [hstage, Stage.Inited]
    have hold : ∀ u', conn' u' = .setUp → conn u' = .setUp := by
      intro u' hsetUp
      rw [hconn] at hsetUp
      split_ifs at hsetUp
      exact hsetUp
    refine ⟨h.nodup, h.peer, fun u' hmem => ?_, fun u' hsetUp => h.kept u' (hold u' hsetUp), fun u' hne => ?_,
      fun u' hadded hswapped => ?_, fun u' hend => ?_, fun _ hremoved => h.removed hinited hremoved,
      fun hdeployed hphase => (h.phase hdeployed hphase).imp_right fun hcase => hcase.imp_right fun hjoin => ?_⟩
    · have hsetUp := h.regular u' hmem
      rw [hconn, if_neg]
      · exact hsetUp
      · rintro ⟨rfl, hadded⟩
        rw [h.fresh u' hadded (by simp [hstage, Stage.swapped, hu])] at hsetUp
        cases hsetUp
    · rw [hconn] at hne
      split_ifs at hne with hnew
      · exact base.plan.added_deployed w hnew.2 hinited
      · exact h.deployed u' hne
    · have hstays : u' ≠ u ∧ s.co.stage.swapped u' = false := by
        simpa [hstage, Stage.swapped, Sys.setStage, and_comm] using hswapped
      rw [hconn, if_neg fun hnew => hstays.1 hnew.1]
      exact h.fresh u' hadded hstays.2
    · by_cases hmem : .termination ∈ s.queue u' w
      · exact h.ended u' hmem
      · have hremoved : w ∈ s.co.removed := by
          by_contra hnot
          have hpushed : .termination ∈ (s.push u fun w =>
              (if w ∈ s.co.tasks ∨ w ∈ s.co.added then [.barrier] else [])
                ++ if w ∈ s.co.removed then [.termination] else []).queue u' w := hend
          refine hmem (termination_of_push ?_ hpushed)
          split_ifs <;> simp
        exact ⟨h.removed hinited hremoved, base.plan.tasks_deployed w ((base.plan.removed_iff w).mp hremoved).1⟩
    · obtain ⟨hadded, -, hshut, hexpect, hpeers⟩ := hjoin
      exact ⟨hadded, trivial, hshut, hexpect, hpeers⟩

end

end

/-! ## Every step keeps the connections -/

section

variable {job : Job R K} {s : Sys R K} {a : Action R K}

theorem trackUpstreams_quiet (hloud : ¬ a.Loud s) (upstreams : WorkerID → Upstreams) :
    trackUpstreams job s upstreams a = upstreams := by
  cases a with
  | initTask | register => exact absurd trivial hloud
  | _ => rfl

theorem trackConn_quiet (hloud : ¬ a.Loud s) (conn : UpstreamID → WorkerID → Conn) : trackConn s conn a = conn := by
  cases a with
  | updateRouting => exact absurd trivial hloud
  | _ => rfl

theorem terminated_spec {w : WorkerID} {c : Channel} (h : terminated s a = some (w, c)) :
    (∃ u progress, a = .takeRegular w u progress ∧ c = .regular u ∧ .termination ∈ s.queue u w) ∨
      ∃ src second progress, a = .takePeer w src second progress ∧ c = .peer ⟨src, w, second⟩ ∧
        (s.link ⟨src, w, second⟩).status = .registered ∧
        ∃ rest, (s.link ⟨src, w, second⟩).queue = .termination :: rest := by
  cases a with
  | takeRegular _ u progress =>
    simp only [terminated] at h
    split at h
    · rename_i rest hpc hqueue
      cases h
      exact .inl ⟨u, progress, rfl, rfl, by simp [hqueue]⟩
    · cases h
  | takePeer _ src second progress =>
    simp only [terminated] at h
    split at h
    · rename_i rest hpc hstatus hqueue
      cases h
      exact .inr ⟨src, second, progress, rfl, rfl, hstatus, rest, hqueue⟩
    · cases h
  | _ => cases h

theorem removeUpstream_eq_ok {t t' : Upstreams} {c : Channel} (h : t.removeUpstream job c = .ok t') :
    t.taskDeploymentPhasePassed = true ∧ t' = { t with upstreams := t.upstreams.erase c } := by
  obtain ⟨hphase, h⟩ := check_bind_eq_ok.mp h
  obtain ⟨-, h⟩ := check_bind_eq_ok.mp h
  exact ⟨by simpa using hphase, (Outcome.ok.inj h).symm⟩

/-- What the end of a channel does to the connections, and that there is nothing to do otherwise. -/
theorem removeTerminated_eq_ok {s : Tracked R K} {upstreams : WorkerID → Upstreams}
    (h : removeTerminated job s a = .ok upstreams) : (terminated s.sys a = none ∧ upstreams = s.upstreams) ∨
      ∃ w c, terminated s.sys a = some (w, c) ∧ (s.upstreams w).taskDeploymentPhasePassed = true ∧
        upstreams = update s.upstreams w
          { s.upstreams w with upstreams := (s.upstreams w).upstreams.erase c } := by
  unfold removeTerminated at h
  split at h
  · rename_i w c hend
    obtain ⟨t, ht, h⟩ := bind_eq_ok.mp h
    obtain ⟨hphase, rfl⟩ := removeUpstream_eq_ok ht
    exact .inr ⟨w, c, hend, hphase, (Outcome.ok.inj h).symm⟩
  · rename_i hend
    exact .inl ⟨hend, (Outcome.ok.inj h).symm⟩

end

section

variable [DecidableEq K] {job : Job R K} {s s' : Sys R K}

theorem quietAt_takeBarrier {v : WorkerID} {u : UpstreamID} {progress : Bool} {rest : List (UpstreamUnit R)}
    (hstep : Step job s (.takeRegular v u progress) s') (hqueue : s.queue u v = .barrier :: rest) (w : WorkerID) :
    QuietAt s s' w := by
  have hquiet : ∀ p : Supplier, p.expectedInboundPeers = (s.sup v).expectedInboundPeers →
      QuietAt s ((s.pop u v rest).setSup v p) w := fun p hp =>
    { deployed := Iff.rfl, added := Iff.rfl, removed := Iff.rfl, plan := rfl, inited := Iff.rfl
      swapped := fun _ => id
      registered := fun _ _ => Iff.rfl
      ended := fun _ hmem => mem_pop_of_mem hqueue hmem
      peers := by
        by_cases hw : w = v
        · subst hw
          simpa [setSup] using hp
        · simp [setSup, Sys.pop, update_of_ne hw] }
  cases hstep with
  | takeBarrier _ _ _ rest' _ hqueue' =>
    obtain rfl : rest = rest' := by simpa [hqueue] using hqueue'
    exact hquiet _ rfl
  | takeLastBarrier _ _ _ rest' _ hqueue' =>
    obtain rfl : rest = rest' := by simpa [hqueue] using hqueue'
    have haligned := hquiet { s.sup v with
      inflightBarrierCounter := 0
      expectedInflightBarriers := -1
      reconfigTerminated := (s.sup v).reconfigTerminated || (s.sup v).expectedInboundPeers = -1 } rfl
    exact ⟨haligned.deployed, haligned.added, haligned.removed, haligned.plan, haligned.inited, haligned.swapped,
      haligned.registered, haligned.ended, haligned.peers⟩
  | takeBatch _ _ _ _ _ _ hqueue' | takeWatermark _ _ _ _ _ hqueue' | takeTermination _ _ _ _ _ hqueue' =>
    simp [hqueue] at hqueue'

end

namespace TrackInv

variable [DecidableEq K] {job : Job R K} {s : Tracked R K} {sys : Sys R K} {a : Action R K}
  {upstreams : WorkerID → Upstreams}

theorem conn_quiet (h : TrackInv job s) (hs : Step job s.sys a sys) (hloud : ¬ a.Loud s.sys) (hremove : removeTerminated job s a = .ok upstreams) (w : WorkerID) :
    ConnOk job sys w (trackUpstreams job s.sys upstreams a w) fun u => trackConn s.sys s.conn a u w := by
  have hquiet := (h.conn w).quiet ((h.base.quiet_step hs hloud).at w)
  rw [trackUpstreams_quiet hloud, trackConn_quiet hloud]
  rcases removeTerminated_eq_ok hremove with ⟨-, rfl⟩ | ⟨v, c, hend, hphase, rfl⟩
  · exact hquiet
  · rcases terminated_spec hend with ⟨u, progress, rfl, rfl, hmem⟩ | ⟨src, second, progress, rfl, -, -, hmem⟩
    · by_cases hw : w = v
      · subst hw
        rw [update_self]
        exact hquiet.dropRegular hphase ((h.conn w).ended u hmem).1 u
      · rwa [update_of_ne hw]
    · exact absurd hmem hloud

theorem conn_register (h : TrackInv job s) {l : Link} (hs : Step job s.sys (.register l) sys) (w : WorkerID) :
    ConnOk job sys w (trackUpstreams job s.sys s.upstreams (.register l) w) fun u => s.conn u w := by
  have hbase := h.base.step hs
  have hother : ∀ v, v ≠ l.dst → ∀ c p, QuietAt s.sys ((s.sys.setChan l c).setSup l.dst p) v := fun v hv c p =>
    { deployed := Iff.rfl, added := Iff.rfl, removed := Iff.rfl, plan := rfl, inited := Iff.rfl
      swapped := fun _ => id
      registered := fun k hk => by
        have hkl : k ≠ l := fun heq => hv (by rw [← hk, heq])
        simp [setSup, setChan, update_of_ne hkl]
      ended := fun _ => id
      peers := by simp [setSup, setChan, update_of_ne hv] }
  have hold : (s.sys.link l).status = .installed ∨ (s.sys.link l).status = .fresh ∧ l.second = true ∧
      l.src ∈ (s.sys.sup l.dst).peerChannelSync → (s.sys.link l).status ≠ .registered := by
    rintro (hinstalled | ⟨hfresh, -⟩)
    · simp [hinstalled]
    · simp [hfresh]
  simp only [trackUpstreams]
  by_cases hw : w = l.dst
  · subst hw
    rw [update_self]
    cases hs with
    | register _ hready =>
      refine (h.conn l.dst).register rfl (hold hready) rfl fun hjoin => ?_
      obtain ⟨hadded, hinited, hshut, hexpect, hpeers⟩ := hjoin
      refine ⟨hadded, hinited, hshut, hexpect, .inl ?_⟩
      rcases hpeers with hwaiting | ⟨hreading, -⟩
      · simpa [setSup, setChan] using hwaiting
      · omega
    | registerLast _ hready _ hlast =>
      refine (h.conn l.dst).register rfl (hold hready) rfl fun hjoin => ?_
      obtain ⟨hadded, hinited, hshut, hexpect, hpeers⟩ := hjoin
      refine ⟨hadded, hinited, hshut, hexpect, .inr ⟨by simp [setSup], fun k hk => ?_⟩⟩
      -- the supplier has counted as many channels as it expects
      have hopen : (s.sys.link l).status ≠ .closed := by
        rcases hready with hinstalled | ⟨hfresh, -⟩
        · simp [hinstalled]
        · simp [hfresh]
      obtain ⟨-, hsends, -⟩ := (h.base.link l).opened hopen
      have hlive := h.base.plan.updated_live l.dst (h.base.plan.dst_mem hsends)
      have hcounted := (hbase.supply l.dst).peers l.src hlive hinited hsends
      simp only [setSup, update_self] at hcounted
      have hlength : (s.sys.sup l.dst).expectedInboundPeers = (linksInto job s.sys.co l.dst).length := by
        rcases hpeers with hwaiting | ⟨hreading, -⟩
        · exact hwaiting
        · omega
      rcases hcounted with hwaiting | hreading | hclosed
      · have := hwaiting.1
        omega
      · have hall := hreading.2.1
        rw [hlast, hlength] at hall
        have hcount : registeredCount job s.sys.co (s.sys.setChan l
            { s.sys.link l with status := .registered }).link l.dst = (linksInto job s.sys.co l.dst).length := by
          exact_mod_cast hall.symm
        exact of_decide_eq_true (List.countP_eq_length.mp hcount k hk)
      · have := hclosed.1
        omega
  · rw [update_of_ne hw]
    cases hs with
    | register | registerLast => exact (h.conn w).quiet (hother w hw _ _)

theorem conn_initTask (h : TrackInv job s) {v : WorkerID} (hs : Step job s.sys (.initTask v) sys) (w : WorkerID) :
    ConnOk job sys w (trackUpstreams job s.sys s.upstreams (.initTask v) w) fun u => s.conn u w := by
  have hfilter : ∀ {todo : List WorkerID}, w ≠ v → (w ∈ todo.filter (· ≠ v) ↔ w ∈ todo) := fun hw => by simp [hw]
  simp only [trackUpstreams]
  cases hs with
  | initOld _ _ hstage _ hold =>
    by_cases hw : w = v
    · subst hw
      rw [update_self, if_neg hold]
      exact (h.conn w).initOld hold
    · rw [update_of_ne hw]
      exact (h.conn w).quiet
        { deployed := Iff.rfl, added := Iff.rfl, removed := Iff.rfl, plan := rfl
          inited := by
            rw [hstage]
            exact not_congr (hfilter hw)
          swapped := fun u _ => by simp [hstage, Stage.swapped]
          registered := fun _ _ => Iff.rfl
          ended := fun _ => id
          peers := by simp [setSup, Sys.setStage, update_of_ne hw] }
  | initNew _ _ store hstage _ hnew hpos hstore =>
    have hdeployed : v ∉ s.sys.store.deployed ∧ store.deployed = v :: s.sys.store.deployed := by
      cases LazyByKey.step_eq_ok hstore with
      | deploy _ _ hfresh => exact ⟨hfresh, rfl⟩
    by_cases hw : w = v
    · subst hw
      rw [update_self, if_pos hnew]
      refine (h.conn w).initNew h.base hstage hnew hpos hdeployed.1 ?_ rfl rfl rfl (by simp [setSup])
      simp [setSup, setLoop, hdeployed.2]
    · rw [update_of_ne hw]
      exact (h.conn w).quiet
        { deployed := by simp [setSup, setLoop, hdeployed.2, hw]
          added := Iff.rfl, removed := Iff.rfl, plan := rfl
          inited := by
            rw [hstage]
            exact not_congr (hfilter hw)
          swapped := fun u _ => by simp [hstage, Stage.swapped]
          registered := fun _ _ => Iff.rfl
          ended := fun _ => id
          peers := by simp [setSup, setLoop, Sys.setStage, update_of_ne hw] }

theorem conn_takePeer (h : TrackInv job s) {v src : WorkerID} {second progress : Bool}
    (hs : Step job s.sys (.takePeer v src second progress) sys) {rest : List (PeerUnit R)}
    (hqueue : (s.sys.link ⟨src, v, second⟩).queue = .termination :: rest)
    (hphase : (s.upstreams v).taskDeploymentPhasePassed = true) (w : WorkerID) :
    ConnOk job sys w (update s.upstreams v { s.upstreams v with
      upstreams := (s.upstreams v).upstreams.erase (.peer ⟨src, v, second⟩) } w) fun u => s.conn u w := by
  have hother : w ≠ v → ∀ p l, QuietAt s.sys
      (((s.sys.setChan ⟨src, v, second⟩ ⟨.closed, []⟩).setSup v p).setLoop v l) w := fun hw p l =>
    { deployed := Iff.rfl, added := Iff.rfl, removed := Iff.rfl, plan := rfl, inited := Iff.rfl
      swapped := fun _ => id
      registered := fun k hk => by
        have hkl : k ≠ ⟨src, v, second⟩ := fun heq => hw (by rw [← hk, heq])
        simp [setLoop, setSup, setChan, update_of_ne hkl]
      ended := fun _ => id
      peers := by simp [setLoop, setSup, setChan, update_of_ne hw] }
  have hdrop : ∀ p l, ConnOk job (((s.sys.setChan ⟨src, v, second⟩ ⟨.closed, []⟩).setSup v p).setLoop v l) w
      (update s.upstreams v { s.upstreams v with
        upstreams := (s.upstreams v).upstreams.erase (.peer ⟨src, v, second⟩) } w) fun u => s.conn u w := by
    intro p l
    by_cases hw : w = v
    · subst hw
      rw [update_self]
      have hclosed : ConnOk job ((s.sys.setChan ⟨src, w, second⟩ ⟨.closed, []⟩).setSup w p) w { s.upstreams w with
          upstreams := (s.upstreams w).upstreams.erase (.peer ⟨src, w, second⟩) } fun u => s.conn u w :=
        (h.conn w).dropPeer hphase rfl
      exact ⟨hclosed.nodup, hclosed.peer, hclosed.regular, hclosed.kept, hclosed.deployed, hclosed.fresh,
        hclosed.ended, hclosed.removed, hclosed.phase⟩
    · rw [update_of_ne hw]
      exact (h.conn w).quiet (hother hw p l)
  cases hs with
  | peerTermination | peerLastTermination => exact hdrop _ _
  | peerBatch _ _ _ _ _ _ _ _ hother | peerWatermark _ _ _ _ _ _ _ hother | peerMetadata _ _ _ _ _ _ _ _ hother =>
    simp [hqueue] at hother

/-- **Every step keeps the connections right.** -/
theorem conn_step (h : TrackInv job s) (hs : Step job s.sys a sys)
    (hremove : removeTerminated job s a = .ok upstreams) (w : WorkerID) :
    ConnOk job sys w (trackUpstreams job s.sys upstreams a w) fun u => trackConn s.sys s.conn a u w := by
  by_cases hloud : a.Loud s.sys
  · cases a with
    | rescale =>
      obtain rfl : s.upstreams = upstreams := Outcome.ok.inj hremove
      exact (h.conn w).rescale h.base hs
    | advance =>
      obtain rfl : s.upstreams = upstreams := Outcome.ok.inj hremove
      exact (h.conn w).complete h.base hloud hs
    | initTask =>
      obtain rfl : s.upstreams = upstreams := Outcome.ok.inj hremove
      exact h.conn_initTask hs w
    | register =>
      obtain rfl : s.upstreams = upstreams := Outcome.ok.inj hremove
      exact h.conn_register hs w
    | updateRouting u =>
      obtain rfl : s.upstreams = upstreams := Outcome.ok.inj hremove
      refine (h.conn w).updateRouting h.base hs fun u' => ?_
      simp only [trackConn]
      by_cases hu : u' = u
      · subst hu
        simp
      · simp [hu]
    | takeRegular v u progress =>
      obtain ⟨rest, hqueue⟩ := hloud
      have hnone : terminated s.sys (.takeRegular v u progress) = none := by
        simp only [terminated, hqueue]
        split
        · rename_i heq
          cases heq
        · rfl
      rcases removeTerminated_eq_ok hremove with ⟨-, rfl⟩ | ⟨_, _, hend, -⟩
      · exact (h.conn w).quiet (quietAt_takeBarrier hs hqueue w)
      · rw [hnone] at hend
        cases hend
    | takePeer =>
      obtain ⟨rest, hqueue⟩ := hloud
      rcases removeTerminated_eq_ok hremove with ⟨hnone, -⟩ | ⟨_, _, hend, hphase, rfl⟩
      · cases hs with
        | peerTermination _ _ _ _ _ hpc hstatus => simp [terminated, hpc, hstatus, hqueue] at hnone
        | peerLastTermination _ _ _ _ _ hpc hstatus => simp [terminated, hpc, hstatus, hqueue] at hnone
        | peerBatch _ _ _ _ _ _ _ _ hother => simp [hqueue] at hother
        | peerWatermark _ _ _ _ _ _ _ hother => simp [hqueue] at hother
        | peerMetadata _ _ _ _ _ _ _ _ hother => simp [hqueue] at hother
      · rcases terminated_spec hend with ⟨_, _, hact, -⟩ | ⟨_, _, _, hact, rfl, -⟩
        · cases hact
        · cases hact
          exact h.conn_takePeer hs hqueue hphase w
    | _ => exact hloud.elim
  · exact h.conn_quiet hs hloud hremove w

end TrackInv

end LazyRescale
end Koala
