import Koala.LazyRescale.Senders

/-!
# Peer channels

`LinkOk` along the steps of the protocol.  A channel is opened by the sender's handler, gets its key maps first,
then forwarded records and metadata, and ends with the sender's exit; the receiver installs the key maps, registers
the channel and reads it to its end.
-/

namespace Koala
namespace LazyRescale

open Lib Lib.Outcome Keyby Partition
open Function (update update_self update_of_ne)
open List (append_nil mem_append mem_cons_self mem_map mem_singleton)

variable {R K : Type} {rest : List ExitStep}

theorem close_not_mem_tail {job : Job R K} {second : Bool}
    (h : .close second :: rest <:+ exitSteps job) : .close second ∉ rest := by
  have hnodup : (exitSteps job).Nodup := by
    unfold exitSteps Job.inputs
    cases job.twoInputs <;> decide
  exact (List.nodup_cons.mp (hnodup.sublist h.sublist)).1

theorem activate_mem_inputs {job : Job R K} {second : Bool} {rest : List HandlerStep}
    (h : .activate second :: rest <:+ handlerSteps job) : second ∈ job.inputs := by
  have hmem : HandlerStep.activate second ∈ handlerSteps job := h.subset mem_cons_self
  simpa [handlerSteps] using hmem

theorem Job.false_mem_inputs (job : Job R K) : false ∈ job.inputs := by
  unfold Job.inputs
  split_ifs <;> simp

theorem Job.inputOf_mem (job : Job R K) (u : UpstreamID) : job.inputOf u ∈ job.inputs := by
  unfold Job.inputOf Job.inputs
  cases job.twoInputs <;> cases job.second u <;> simp

namespace LinkOk

variable {job : Job R K} {co : Coordinator} {handed : List WorkerID} {store store' : LazyByKey.World K}
  {l l' : Loop R} {p p' : Supplier} {k : Link} {c : Chan R}

section

variable (h : LinkOk job co handed store l p k c)
include h

theorem restage (stage : Stage) (hstage : stage ≠ .idle) : LinkOk job { co with stage := stage } handed store l p k c :=
  { h with opened := fun hopen => ⟨hstage, (h.opened hopen).2⟩ }

theorem resupply
    (hp : p'.expectedInflightBarriers = p.expectedInflightBarriers) : LinkOk job co handed store l p' k c :=
  { h with ended := fun hsends hsecond hsrc hend => by rw [hp]; exact h.ended hsends hsecond hsrc hend }

theorem restore (hmono : Received job co store k.src k.dst → Received job co store' k.src k.dst) :
    LinkOk job co handed store' l p k c :=
  { h with arrived := fun hstatus => (h.arrived hstatus).imp_right hmono }

theorem reloop (hpending : k.second ∈ job.inputs → l'.pc = .handing ∨ l'.Activated k.second →
      l.pc = .handing ∨ l.Activated k.second) (hexit : ∀ todo, l'.pc = .exiting todo → .close k.second ∈ todo →
      ∃ todo', l.pc = .exiting todo' ∧ .close k.second ∈ todo') : LinkOk job co handed store l' p k c :=
  { h with
    pending := fun hsends hsecond hsrc hwait => h.pending hsends hsecond hsrc (hpending hsecond hwait)
    ended := fun hsends hsecond hsrc hend => by
      obtain ⟨hp, hclosed⟩ := h.ended hsends hsecond hsrc hend
      refine ⟨hp, fun todo hpc hmem => ?_⟩
      obtain ⟨todo', hpc', hmem'⟩ := hexit todo hpc hmem
      exact hclosed todo' hpc' hmem' }

theorem repc (hnew : l'.pc.Neutral) (hhandler : l'.handler = l.handler) : LinkOk job co handed store l' p k c := by
  refine h.reloop (fun _ hwait => .inr ?_) fun todo hpc => ?_
  · rcases hwait with hpc | hactive
    · rw [hpc] at hnew
      exact hnew.elim
    · unfold Loop.Activated at hactive ⊢
      rwa [hhandler] at hactive
  · rw [hpc] at hnew
    exact hnew.elim

theorem resender (hsrc : k.src ∉ handed) (hhand : l'.pc ≠ .handing)
    (hidle : l'.handler = []) : LinkOk job co handed store l' p' k c :=
  { h with
    pending := fun _ _ _ hwait => by
      rcases hwait with hpc | hactive
      · exact absurd hpc hhand
      · exact absurd hidle hactive.1
    ended := fun _ _ hsrc' => absurd hsrc' hsrc }

theorem rebarrier (hsrc : k.src ∉ handed) : LinkOk job co handed store l p' k c :=
  { h with ended := fun _ _ hsrc' => absurd hsrc' hsrc }

end

theorem shut (hclosed : c.status = .closed) (hempty : c.queue = [])
    (hsrc : co.Sends job k.src k.dst → k.src ∉ handed ∧ l.pc ≠ .handing ∧ l.handler = []) :
    LinkOk job co handed store l p k c where
  opened := fun hopen => absurd hclosed hopen
  closed := fun _ => hempty
  arrived := fun hstatus => by simp [hclosed] at hstatus
  batch := fun recs hrecs => by simp [hempty] at hrecs
  metadata := fun buckets hbuckets => by simp [hempty] at hbuckets
  pending := fun hsends _ _ hwait => by
    obtain ⟨-, hhand, hidle⟩ := hsrc hsends
    rcases hwait with hpc | hactive
    · exact absurd hpc hhand
    · exact absurd hidle hactive.1
  ended := fun hsends _ hsrc' => absurd hsrc' (hsrc hsends).1

variable {units : List (PeerUnit R)}

section

variable (h : LinkOk job co handed store l p k c)
include h

theorem push (hopen : units ≠ [] → c.status ≠ .closed)
    (hbatch : ∀ recs, .batch recs ∈ units → ∀ r ∈ recs, co.Moves job (job.bucketOf r) k.src k.dst)
    (hmetadata : ∀ buckets, .metadata buckets ∈ units → ∀ b ∈ buckets, co.Moves job b k.src k.dst)
    (hgoing : .termination ∉ units) : LinkOk job co handed store l p k { c with queue := c.queue ++ units } where
  opened := h.opened
  closed := fun hclosed => by
    have hnil : units = [] := by
      by_contra hne
      exact hopen hne hclosed
    simp [hnil, h.closed hclosed]
  arrived := h.arrived
  batch := fun recs hrecs => (mem_append.mp hrecs).elim (h.batch recs) (hbatch recs)
  metadata := fun buckets hb => (mem_append.mp hb).elim (h.metadata buckets) (hmetadata buckets)
  pending := fun hsends hsecond hsrc hwait => by
    obtain ⟨hstatus, hno⟩ := h.pending hsends hsecond hsrc hwait
    exact ⟨hstatus, by simp [hno, hgoing]⟩
  ended := fun hsends hsecond hsrc hend => by
    refine h.ended hsends hsecond hsrc (hend.imp_right fun hmem => ?_)
    exact (mem_append.mp hmem).resolve_right hgoing

theorem pop {unit : PeerUnit R} {rest : List (PeerUnit R)}
    (hstatus : c.status ≠ .closed) (hsrc : k.src ∈ handed) (hqueue : c.queue = unit :: rest) {status : LinkStatus}
    (hopen : status ≠ .closed)
    (harrived : status = .installed ∨ status = .registered → Received job co store k.src k.dst) :
    LinkOk job co handed store l p k ⟨status, rest⟩ where
  opened := fun _ => h.opened hstatus
  closed := fun hclosed => absurd hclosed hopen
  arrived := fun hst => ⟨hsrc, harrived hst⟩
  batch := fun recs hrecs => h.batch recs (hqueue ▸ List.mem_cons_of_mem unit hrecs)
  metadata := fun buckets hb => h.metadata buckets (hqueue ▸ List.mem_cons_of_mem unit hb)
  pending := fun _ _ hsrc' => absurd hsrc hsrc'
  ended := fun hsends hsecond hsrc' hend => by
    rcases hend with hclosed | hmem
    · exact absurd hclosed hopen
    · exact h.ended hsends hsecond hsrc' (.inr (hqueue ▸ List.mem_cons_of_mem unit hmem))

theorem register (hstatus : c.status ≠ .closed) (hsrc : k.src ∈ handed)
    (hreceived : Received job co store k.src k.dst) :
    LinkOk job co handed store l p k { c with status := .registered } :=
  { h with
    opened := fun _ => h.opened hstatus
    closed := nofun
    arrived := fun _ => ⟨hsrc, hreceived⟩
    pending := fun _ _ hsrc' => absurd hsrc hsrc'
    ended := fun hsends hsecond hsrc' hend => h.ended hsends hsecond hsrc' (.inr (hend.resolve_left nofun)) }

theorem terminate {rest : List (PeerUnit R)} (hsrc : k.src ∈ handed)
    (hqueue : c.queue = .termination :: rest) : LinkOk job co handed store l p k ⟨.closed, []⟩ where
  opened := fun hopen => absurd rfl hopen
  closed := fun _ => rfl
  arrived := fun hst => by simp at hst
  batch := nofun
  metadata := nofun
  pending := fun _ _ hsrc' => absurd hsrc hsrc'
  ended := fun hsends hsecond hsrc' _ => h.ended hsends hsecond hsrc' (.inr (by simp [hqueue]))

end

variable {loop : WorkerID → Loop R} {w : WorkerID}

section

variable (h : LinkOk job co handed store (loop k.src) p k c)
include h

theorem updateLoop (hw : k.src = w → LinkOk job co handed store l p k c) :
    LinkOk job co handed store (update loop w l k.src) p k c := by
  by_cases hsrc : k.src = w
  · rw [hsrc, update_self]
    exact hw hsrc
  · rw [update_of_ne hsrc]
    exact h

theorem updatePc (hnew : l.pc.Neutral) (hhandler : l.handler = (loop w).handler) :
    LinkOk job co handed store (update loop w l k.src) p k c :=
  h.updateLoop fun hsrc => h.repc hnew (hsrc ▸ hhandler)

theorem updateHandler (hpc : l.pc = (loop w).pc)
    (hactive : k.second ∈ job.inputs → l.Activated k.second → (loop w).Activated k.second) :
    LinkOk job co handed store (update loop w l k.src) p k c :=
  h.updateLoop fun hsrc => by
    subst hsrc
    exact h.reloop (fun hsecond hwait => hwait.imp (hpc ▸ ·) (hactive hsecond))
      fun todo hexit hmem => ⟨todo, hpc ▸ hexit, hmem⟩

end

variable {sup : WorkerID → Supplier}

theorem updateSup (h : LinkOk job co handed store l (sup k.src) k c) {w : WorkerID}
    (hw : k.src = w → LinkOk job co handed store l p k c) :
    LinkOk job co handed store l (update sup w p k.src) k c := by
  by_cases hsrc : k.src = w
  · rw [hsrc, update_self]
    exact hw hsrc
  · rw [update_of_ne hsrc]
    exact h

theorem updateCounters (h : LinkOk job co handed store l (sup k.src) k c)
    (hp : p.expectedInflightBarriers = (sup w).expectedInflightBarriers) :
    LinkOk job co handed store l (update sup w p k.src) k c :=
  h.updateSup fun hsrc => h.resupply (hsrc ▸ hp)

theorem updateLink {link : Link → Chan R} (h : LinkOk job co handed store l p k (link k)) {k' : Link} {c : Chan R}
    (hk : k = k' → LinkOk job co handed store l p k c) :
    LinkOk job co handed store l p k (update link k' c k) := by
  by_cases heq : k = k'
  · subst heq
    rw [update_self]
    exact hk rfl
  · rw [update_of_ne heq]
    exact h

theorem handover (h : LinkOk job co handed store l p k c) (hpc : l.pc = .handing) (hsrc : k.src ∉ handed)
    (hunits : units ≠ [] → co.Sends job k.src k.dst ∧ k.second ∈ job.inputs) (hmaps : ∀ unit ∈ units, unit = .keyMap) :
    LinkOk job co (k.src :: handed) store' l' p k { c with queue := c.queue ++ units } where
  opened := h.opened
  closed := fun hclosed => by
    have hnil : units = [] := by
      by_contra hne
      have hfresh := (h.pending (hunits hne).1 (hunits hne).2 hsrc (.inl hpc)).1
      exact absurd (hfresh.symm.trans hclosed) nofun
    simp [hnil, h.closed hclosed]
  arrived := fun hstatus => absurd (h.arrived hstatus).1 hsrc
  batch := fun recs hrecs => (mem_append.mp hrecs).elim (h.batch recs) fun hmem => nomatch hmaps _ hmem
  metadata := fun buckets hb => (mem_append.mp hb).elim (h.metadata buckets) fun hmem => nomatch hmaps _ hmem
  pending := fun _ _ hsrc' => absurd mem_cons_self hsrc'
  ended := fun hsends hsecond _ hend => by
    obtain ⟨hfresh, hgoing⟩ := h.pending hsends hsecond hsrc (.inl hpc)
    rcases hend with hclosed | hmem
    · exact absurd (hfresh.symm.trans hclosed) nofun
    · rcases mem_append.mp hmem with hold | hnew
      · exact absurd hold hgoing
      · exact nomatch hmaps _ hnew

theorem handover_other (h : LinkOk job co handed store l p k c) (hne : k.src ≠ w) :
    LinkOk job co (w :: handed) store l p k c := by
  have hiff : k.src ∈ w :: handed ↔ k.src ∈ handed := by simp [hne]
  exact
    { h with
      arrived := fun hstatus => (h.arrived hstatus).imp_left hiff.mpr
      pending := fun hsends hsecond hsrc => h.pending hsends hsecond (hiff.not.mp hsrc)
      ended := fun hsends hsecond hsrc => h.ended hsends hsecond (hiff.mp hsrc) }

/-- `Deactivate` pushes the end of the channel. -/
theorem close (h : LinkOk job co handed store l p k c)
    (hpc : l.pc = .exiting (.close k.second :: rest)) (hsrc : k.src ∈ handed)
    (haligned : p.expectedInflightBarriers = -1) (hrest : .close k.second ∉ rest) (hpc' : l'.pc = .exiting rest)
    (hunits : units ≠ [] → co.Sends job k.src k.dst ∧ k.second ∈ job.inputs)
    (hend : ∀ unit ∈ units, unit = .termination) :
    LinkOk job co handed store l' p k { c with queue := c.queue ++ units } where
  opened := h.opened
  closed := fun hclosed => by
    have hnil : units = [] := by
      by_contra hne
      exact (h.ended (hunits hne).1 (hunits hne).2 hsrc (.inl hclosed)).2 _ hpc mem_cons_self
    simp [hnil, h.closed hclosed]
  arrived := h.arrived
  batch := fun recs hrecs => (mem_append.mp hrecs).elim (h.batch recs) fun hmem => nomatch hend _ hmem
  metadata := fun buckets hb => (mem_append.mp hb).elim (h.metadata buckets) fun hmem => nomatch hend _ hmem
  pending := fun _ _ hsrc' => absurd hsrc hsrc'
  ended := fun _ _ _ _ => by
    refine ⟨haligned, fun todo hexit hmem => ?_⟩
    rw [hpc'] at hexit
    cases hexit
    exact hrest hmem

end LinkOk

theorem Sys.send_link (s : Sys R K) (w : WorkerID) (second : Bool) (units : WorkerID → List (PeerUnit R))
    (k : Link) : (s.send w second units).link k = { s.link k with
      queue := (s.link k).queue ++ if k.src = w ∧ k.second = second then units k.dst else [] } := by
  unfold Sys.send
  by_cases hk : k.src = w ∧ k.second = second
  · simp only [if_pos hk]
  · simp only [if_neg hk, append_nil]

theorem Sys.broadcast_link (job : Job R K) (s : Sys R K) (w : WorkerID) (units : List (PeerUnit R)) (k : Link) :
    (s.broadcast job w units).link k = { s.link k with
      queue := (s.link k).queue ++
        if k.src = w ∧ k.second ∈ job.inputs ∧ k.dst ∈ (s.loop w).peersOf k.second then units else [] } := by
  unfold Sys.broadcast
  by_cases hk : k.src = w ∧ k.second ∈ job.inputs ∧ k.dst ∈ (s.loop w).peersOf k.second
  · simp only [if_pos hk]
  · simp only [if_neg hk, append_nil]

/-- What the invariant says about a channel of a state. -/
abbrev LinkIn (job : Job R K) (s : Sys R K) (k : Link) (c : Chan R) : Prop :=
  LinkOk job s.co s.handed s.store (s.loop k.src) (s.sup k.src) k c

namespace Inv

variable [DecidableEq K] {job : Job R K} {s s' : Sys R K} {a : Action R K}

variable {b : BucketID} {w : WorkerID}

/-- A bucket that its holder loses in the new partition has not been handed over. -/
theorem moves_of_holder (h : Inv job s) (hholder : s.store.holder b = some w) (hpart : s.co.part b ≠ w) :
    s.co.Moves job b w (s.co.part b) ∧ w ∉ s.handed := by
  obtain ⟨hb, hcases⟩ := h.places.holder_cases h.custody hholder
  rcases hcases with ⟨hold, hkept⟩ | hnew
  · exact ⟨⟨hb, hold.symm, rfl, hpart.symm⟩, hkept.resolve_right hpart.symm⟩
  · exact absurd hnew.symm hpart

theorem handing_routing (h : Inv job s) (hpc : (s.loop w).pc = .handing) :
    (s.loop w).routing = some s.co.part ∧ w ∉ s.handed :=
  ⟨(h.sender w).routing ((h.sender w).handing hpc).2.1, ((h.sender w).handing hpc).1⟩

/-- **A bucket leaves its holder only by a handover**, and then to its new owner. -/
theorem holder_step (h : Inv job s) (hstep : Step job s a s') (hholder : s.store.holder b = some w) :
    s'.store.holder b = some w ∨
      ((s.loop w).pc = .handing ∧ a = .handover w ∧ s.co.Moves job b w (s.co.part b)) := by
  have hquiet : ∀ {c : LazyByKey.Action K} {store : LazyByKey.World K},
      LazyByKey.step job.store s.store c = .ok store → c.Quiet → store.holder b = some w := fun hs hc => by
    rw [((LazyByKey.step_eq_ok hs).sameCustody hc).holder]
    exact hholder
  cases hstep with
  | initNew _ _ _ _ _ _ _ hstore =>
    cases LazyByKey.step_eq_ok hstore
    exact .inl hholder
  | install src dst rest store hstatus hqueue hstore =>
    cases LazyByKey.step_eq_ok hstore with
    | receive _ dst f _ _ hnext =>
      have hfree : b ∉ f.entries.map Prod.fst := fun hmem => by
        rw [h.custody.flight_free f (List.mem_of_find?_eq_some hnext) b hmem] at hholder
        cases hholder
      refine .inl ?_
      change (if b ∈ f.entries.map Prod.fst then some dst else s.store.holder b) = some w
      rw [if_neg hfree]
      exact hholder
  | handover v routing table out store hpc hrouting hout hpeers hstore =>
    obtain ⟨hpart, hv⟩ := h.handing_routing hpc
    obtain rfl : routing = s.co.part := Option.some.inj (hrouting.symm.trans hpart)
    cases LazyByKey.step_eq_ok hstore with
    | handover v =>
      by_cases hleaves : b < job.store.numBuckets ∧ (s.store.node v).table.Leaves v s.co.part b ∧
          s.store.holder b = some v
      · obtain rfl : v = w := Option.some.inj (hleaves.2.2.symm.trans hholder)
        exact .inr ⟨hpc, rfl, (h.places.leaves_iff h.custody hv hleaves.1).mp hleaves.2.1⟩
      · refine .inl ?_
        change (if b < job.store.numBuckets ∧ (s.store.node v).table.Leaves v s.co.part b ∧
          s.store.holder b = some v then none else s.store.holder b) = some w
        rw [if_neg hleaves]
        exact hholder
  | startEventual _ _ _ _ _ _ hstore | read _ _ _ _ _ _ hstore | run _ _ _ _ hstore | readDone _ _ hstore
  | flush _ _ _ _ hstore | endUnit _ _ hstore => exact .inl (hquiet hstore trivial)
  | _ => exact .inl hholder

variable {src dst : WorkerID}

theorem received_step (h : Inv job s) (hstep : Step job s a s')
    (hreceived : Received job s.co s.store src dst) : Received job s.co s'.store src dst := fun b hmoves => by
  rcases h.holder_step hstep (hreceived b hmoves) with hstays | ⟨-, -, hleaves⟩
  · exact hstays
  · exact absurd hmoves.2.2.1.symm hleaves.2.2.2

variable {second : Bool}

section

variable (h : Inv job s)
include h

theorem link_open {d : WorkerID} (hsends : s.co.Sends job w d) (hsecond : second ∈ job.inputs)
    (hphase : (s.loop w).phase = true) (hpc : ∀ todo, (s.loop w).pc ≠ .exiting todo) :
    (s.link ⟨w, d, second⟩).status ≠ .closed := fun hclosed => by
  have hlink := h.link ⟨w, d, second⟩
  by_cases hw : w ∈ s.handed
  · obtain ⟨haligned, -⟩ := hlink.ended hsends hsecond hw (.inl hclosed)
    obtain ⟨todo, hexit⟩ := (h.sender w).left hw haligned hphase
    exact hpc todo hexit
  · have hwait : (s.loop w).pc = .handing ∨ (s.loop w).Activated second :=
      ((h.sender w).raised hphase hw).imp_right fun hawait => by simp [Loop.Activated, hawait]
    have hfresh := (hlink.pending hsends hsecond hw hwait).1
    rw [hclosed] at hfresh
    cases hfresh

theorem peers_sends {d : WorkerID} (hsecond : second ∈ job.inputs) (hphase : (s.loop w).phase = true)
    (hd : d ∈ (s.loop w).peersOf second) : s.co.Sends job w d := by
  refine (h.sender w).peers second hsecond ?_ d hd
  by_cases hw : w ∈ s.handed
  · refine .inl ⟨hw, fun hidle => ?_⟩
    rw [((h.sender w).idle hidle).1] at hphase
    cases hphase
  · refine .inr (((h.sender w).raised hphase hw).imp_right fun hawait => ?_)
    simp [Loop.Activated, hawait]

theorem phase_of_transition (hin : (s.loop w).inTransition = true) (hhead : (s.loop w).pc ≠ .head)
    (hexit : ∀ todo, (s.loop w).pc ≠ .exiting todo) : (s.loop w).phase = true := by
  rcases (h.sender w).past hin with hphase | hpc | ⟨todo, hpc⟩
  · exact hphase
  · exact absurd hpc hhead
  · exact absurd hpc (hexit todo)

theorem link_handle (hstep : Step job s (.handle w) s') (k : Link) :
    LinkIn job s' k (s'.link k) := by
  have hlink := h.link k
  cases hstep with
  | handleStart =>
    refine hlink.updateHandler rfl fun hsecond hactive => ?_
    exact absurd (by simp [handlerSteps, hsecond]) hactive.2
  | handleRouting _ _ _ _ _ hhandler | handleRaise _ _ _ _ _ hhandler =>
    refine hlink.updateHandler rfl fun hsecond hactive => ?_
    exact ⟨by simp [hhandler], by rw [hhandler]; simpa using hactive.2⟩
  | handleActivate _ _ second _ hstage hw hhandler =>
    have hrunning : s.co.stage ≠ .idle := by rw [hstage]; simp
    have hsecond := activate_mem_inputs ((h.sender w).handler_suffix hhandler (by simp)).2
    have hhanded := (h.sender w).forward_not_handed hstage hw
    by_cases hk : k.src = w ∧ k.second = second ∧ k.dst ∈ s.co.destsOf w
    · simp only [if_pos hk]
      obtain ⟨hsrc, hsec, hdst⟩ := hk
      exact
        { opened := fun _ => ⟨hrunning, hsrc ▸ (h.plan.dests hrunning w k.dst).mp hdst, hsec ▸ hsecond⟩
          closed := by simp
          arrived := fun hstatus => by simp at hstatus
          batch := by simp
          metadata := by simp
          pending := fun _ _ _ _ => ⟨rfl, List.not_mem_nil⟩
          ended := fun _ _ hsrc' => absurd hsrc' (hsrc ▸ hhanded) }
    · simp only [if_neg hk]
      refine hlink.updateLoop fun hsrc => ?_
      rw [hsrc] at hlink
      refine
        { hlink with
          pending := fun hsends hsec hsrc' hwait => ?_
          ended := fun _ _ hsrc' => absurd hsrc' (hsrc ▸ hhanded) }
      refine hlink.pending hsends hsec hsrc' (hwait.imp_right fun hactive => ⟨by simp [hhandler], ?_⟩)
      have hne : k.second ≠ second := fun heq =>
        hk ⟨hsrc, heq, (h.plan.dests hrunning w k.dst).mpr (hsrc ▸ hsends)⟩
      rw [hhandler]
      simpa [hne] using hactive.2

theorem link_handover (hstep : Step job s (.handover w) s') (k : Link) :
    LinkIn job s' k (s'.link k) := by
  have hlink := h.link k
  have hreceived : Received job s.co s.store k.src k.dst → Received job s.co s'.store k.src k.dst :=
    h.received_step hstep
  cases hstep with
  | handover _ routing _ _ _ hpc hrouting hout =>
    obtain ⟨hpart, hw⟩ := h.handing_routing hpc
    obtain rfl : routing = s.co.part := Option.some.inj (hrouting.symm.trans hpart)
    have hdests := h.places.mem_out_keys_iff h.custody hw
      (KeyLookupTableV2.serializeMigratingKeyMaps_spec hout)
    simp only [LinkIn, Sys.setLoop, Sys.send_link]
    by_cases hsrc : k.src = w
    · subst hsrc
      rw [update_self]
      refine hlink.handover hpc hw (fun hne => ?_) fun unit hunit => ?_
      · split_ifs at hne with hk hd
        · exact ⟨(hdests k.dst).mp hd, hk.2 ▸ job.false_mem_inputs⟩
        · exact absurd rfl hne
        · exact absurd rfl hne
      · split_ifs at hunit
        · exact mem_singleton.mp hunit
        · cases hunit
        · cases hunit
    · rw [update_of_ne hsrc, if_neg fun hk => hsrc hk.1, append_nil]
      exact (hlink.restore hreceived).handover_other hsrc

theorem link_push {k : Link} {units : List (PeerUnit R)}
    (hunits : units ≠ [] → s.co.Sends job k.src k.dst ∧ k.second ∈ job.inputs ∧ (s.loop k.src).phase = true)
    (hexit : ∀ todo, (s.loop k.src).pc ≠ .exiting todo)
    (hbatch : ∀ recs, .batch recs ∈ units → ∀ r ∈ recs, s.co.Moves job (job.bucketOf r) k.src k.dst)
    (hmetadata : ∀ buckets, .metadata buckets ∈ units → ∀ b ∈ buckets, s.co.Moves job b k.src k.dst)
    (hgoing : .termination ∉ units) :
    LinkIn job s k
      { s.link k with queue := (s.link k).queue ++ units } :=
  (h.link k).push (fun hne => h.link_open (hunits hne).1 (hunits hne).2.1 (hunits hne).2.2 hexit) hbatch hmetadata
    hgoing

theorem index_moves (hb : b ∈ (s.loop w).index) (hpart : s.co.part b ≠ w) : s.co.Moves job b w (s.co.part b) := by
  rcases (h.hand w).index b hb with hholder | ⟨-, hmoves⟩
  · exact (h.moves_of_holder hholder hpart).1
  · exact hmoves

/-- The records of a batch that a sender forwards are those whose buckets move. -/
theorem batch_moves {recs : List R} (hpc : (s.loop w).pc = .batch recs second) {r : R} (hr : r ∈ recs)
    (hpart : s.co.part (job.bucketOf r) ≠ w) :
    s.co.Moves job (job.bucketOf r) w (s.co.part (job.bucketOf r)) := by
  rcases (h.hand w).batch recs second hpc r hr with hholder | ⟨hmoves, -⟩
  · exact (h.moves_of_holder hholder hpart).1
  · exact hmoves

theorem link_announce {watermark : Bool} (hstep : Step job s (.announce w watermark) s') (k : Link) :
    LinkIn job s' k (s'.link k) := by
  cases hstep with
  | announce _ _ routing hpc hrouting =>
    obtain ⟨hw, hphase, hin⟩ := (h.sender w).announcing hpc
    obtain rfl : routing = s.co.part := Option.some.inj (hrouting.symm.trans ((h.sender w).routing hphase))
    simp only [Sys.setLoop, Sys.broadcast_link, Sys.send_link]
    refine LinkOk.updatePc ?_ trivial rfl
    have hexit : k.src = w → ∀ todo, (s.loop k.src).pc ≠ .exiting todo := fun hsrc todo => by
      rw [hsrc, hpc]
      simp
    by_cases hsrc : k.src = w
    · subst hsrc
      -- the metadata goes to the new owners of the announced buckets
      have hmeta : ∀ b ∈ (s.loop k.src).index.filter fun b => s.co.part b ≠ k.src,
          s.co.Moves job b k.src (s.co.part b) := fun b hb => by
        simp only [List.mem_filter, decide_eq_true_eq] at hb
        exact h.index_moves hb.1 hb.2
      refine LinkOk.push (h.link_push ?_ (hexit rfl) ?_ ?_ ?_) ?_ ?_ ?_ ?_
      · intro hne
        split_ifs at hne with hk hd
        · obtain ⟨b, hb, hdst⟩ := mem_map.mp hd
          exact ⟨⟨b, hdst ▸ hmeta b hb⟩, hk.2 ▸ job.false_mem_inputs, hphase⟩
        · exact absurd rfl hne
        · exact absurd rfl hne
      · intro recs hrecs
        split_ifs at hrecs <;> simp at hrecs
      · intro buckets hb
        split_ifs at hb with hk hd
        · obtain rfl := PeerUnit.metadata.inj (mem_singleton.mp hb)
          intro b hb'
          simp only [List.mem_filter (p := fun b => decide (s.co.part b = k.dst)), decide_eq_true_eq] at hb'
          exact hb'.2 ▸ hmeta b hb'.1
        · cases hb
        · cases hb
      · split_ifs <;> simp
      · intro hne
        split_ifs at hne with hk hwatermark
        · exact h.link_open (h.peers_sends hk.2.1 hphase hk.2.2) hk.2.1 hphase (hexit rfl)
        · exact absurd rfl hne
        · exact absurd rfl hne
      · intro recs hrecs
        split_ifs at hrecs <;> simp at hrecs
      · intro buckets hb
        split_ifs at hb <;> simp at hb
      · split_ifs <;> simp
    · simp only [hsrc, false_and, if_false, append_nil]
      exact h.link k

/-- `FastForward` pushes the records whose buckets move. -/
theorem link_forward {recs : List R} {routing : PartitionTable}
    (hpc : (s.loop w).pc = .batch recs second) (hin : (s.loop w).inTransition = true)
    (hrouting : (s.loop w).routing = some routing) (k : Link) :
    LinkIn job s k ((s.send w second fun d =>
      ((recs.filter fun r => routing (job.bucketOf r) ≠ w).filter fun r => routing (job.bucketOf r) = d).map
        fun r => .batch [r]).link k) := by
  have hphase := h.phase_of_transition hin (by simp [hpc]) (by simp [hpc])
  obtain rfl : routing = s.co.part := Option.some.inj (hrouting.symm.trans ((h.sender w).routing hphase))
  rw [Sys.send_link]
  by_cases hk : k.src = w ∧ k.second = second
  · obtain ⟨rfl, rfl⟩ := hk
    have hmoves : ∀ r ∈ (recs.filter fun r => s.co.part (job.bucketOf r) ≠ k.src).filter
        fun r => s.co.part (job.bucketOf r) = k.dst, s.co.Moves job (job.bucketOf r) k.src k.dst := fun r hr => by
      simp only [List.mem_filter, decide_eq_true_eq] at hr
      exact hr.2 ▸ h.batch_moves hpc hr.1.1 hr.1.2
    simp only [and_self, if_true]
    refine h.link_push (fun hne => ?_) (by simp [hpc]) ?_ ?_ ?_
    · obtain ⟨unit, hunit⟩ := List.exists_mem_of_ne_nil _ hne
      obtain ⟨r, hr, -⟩ := mem_map.mp hunit
      exact ⟨⟨_, hmoves r hr⟩, (h.hand k.src).input recs k.second hpc, hphase⟩
    · intro recs' hrecs' r hr
      obtain ⟨r', hr', hunit⟩ := mem_map.mp hrecs'
      obtain rfl := PeerUnit.batch.inj hunit
      obtain rfl := mem_singleton.mp hr
      exact hmoves r hr'
    · intro buckets hb
      obtain ⟨r, -, hunit⟩ := mem_map.mp hb
      cases hunit
    · intro hend
      obtain ⟨r, -, hunit⟩ := mem_map.mp hend
      cases hunit
  · rw [if_neg hk, append_nil]
    exact h.link k

theorem link_watermark (hpc : (s.loop w).pc = .progressed) (k : Link) :
    LinkIn job s k
      ((s.broadcast job w (if (s.loop w).inTransition then [.watermark] else [])).link k) := by
  rw [Sys.broadcast_link]
  by_cases hk : k.src = w ∧ k.second ∈ job.inputs ∧ k.dst ∈ (s.loop w).peersOf k.second
  · rw [if_pos hk]
    obtain ⟨rfl, hsecond, hd⟩ := hk
    by_cases hin : (s.loop k.src).inTransition = true
    · rw [if_pos hin]
      have hphase := h.phase_of_transition hin (by simp [hpc]) (by simp [hpc])
      refine h.link_push (fun _ => ⟨h.peers_sends hsecond hphase hd, hsecond, hphase⟩) (by simp [hpc]) ?_ ?_ ?_ <;>
        simp
    · rw [if_neg hin, append_nil]
      exact h.link k
  · rw [if_neg hk, append_nil]
    exact h.link k

theorem link_exit (hstep : Step job s (.exit w) s') (k : Link) :
    LinkIn job s' k (s'.link k) := by
  have hlink := h.link k
  -- the main loop moves to the next statement and no channel changes
  have hnext : ∀ {x : ExitStep} {rest : List ExitStep} {l : Loop R}, (s.loop w).pc = .exiting (x :: rest) →
      l.pc = .exiting rest → l.handler = (s.loop w).handler →
      LinkOk job s.co s.handed s.store (update s.loop w l k.src) (s.sup k.src) k (s.link k) := by
    intro x rest l hpc hpc' hhandler
    refine hlink.updateLoop fun hsrc => ?_
    subst hsrc
    refine hlink.reloop (fun _ hwait => .inr ?_) fun todo hexit hmem => ?_
    · rcases hwait with hhand | hactive
      · rw [hpc'] at hhand
        cases hhand
      · unfold Loop.Activated at hactive ⊢
        rwa [hhandler] at hactive
    · rw [hpc'] at hexit
      cases hexit
      exact ⟨_, hpc, List.mem_cons_of_mem x hmem⟩
  cases hstep with
  | exitEnd => exact hlink.updatePc trivial rfl
  | exitLower _ _ hpc | exitRouting _ _ hpc | exitRelease _ _ _ hpc => exact hnext hpc rfl rfl
  | exitClose _ second _ hpc =>
    simp only [LinkIn, Sys.setLoop, Sys.send_link]
    by_cases hk : k.src = w ∧ k.second = second
    · obtain ⟨rfl, rfl⟩ := hk
      have hw : k.src ∈ s.handed := by
        by_contra hw
        obtain ⟨i, hx⟩ := (h.sender k.src).stale _ hpc hw _ mem_cons_self
        cases hx
      have hrunning : s.co.stage ≠ .idle := fun hidle => by
        obtain ⟨i, hx⟩ := ((h.sender k.src).idle hidle).2 _ hpc _ mem_cons_self
        cases hx
      obtain ⟨haligned, hsuffix, -, -⟩ := (h.sender k.src).leaving _ hpc hw
      have hsecond : k.second ∈ job.inputs := by
        have hmem : ExitStep.close k.second ∈ exitSteps job := hsuffix.subset mem_cons_self
        simpa [exitSteps] using hmem
      simp only [update_self, and_self, if_true]
      refine hlink.close hpc hw haligned (close_not_mem_tail hsuffix) rfl (fun hne => ?_) fun unit hunit => ?_
      · split_ifs at hne with hd
        · exact ⟨(h.sender k.src).peers k.second hsecond (.inl ⟨hw, hrunning⟩) k.dst hd, hsecond⟩
        · exact absurd rfl hne
      · split_ifs at hunit
        · exact mem_singleton.mp hunit
        · cases hunit
    · rw [if_neg hk, append_nil]
      exact hnext hpc rfl rfl

theorem link_install (hstep : Step job s (.install src dst) s') (k : Link) :
    LinkIn job s' k (s'.link k) := by
  have hreceived : Received job s.co s.store k.src k.dst → Received job s.co s'.store k.src k.dst :=
    h.received_step hstep
  cases hstep with
  | install _ _ _ _ hstatus hqueue hstore =>
    refine LinkOk.updateCounters ?_ rfl
    refine LinkOk.updateLink ((h.link k).restore hreceived) fun hk => ?_
    subst hk
    cases LazyByKey.step_eq_ok hstore with
    | receive _ _ f table hdeployed hnext hinstall =>
      obtain ⟨pre, post, hsplit, -, hsrc, hdst⟩ := LazyByKey.World.nextFlight_split hnext
      obtain ⟨hhanded, -, hentries⟩ := h.places.flight f (by simp [hsplit])
      rw [hsrc, hdst] at hentries
      rw [hsrc] at hhanded
      refine ((h.link ⟨src, dst, false⟩).restore hreceived).pop (by simp [hstatus]) hhanded hqueue nofun ?_
      intro _ b hmoves
      exact if_pos ((hentries b).mpr hmoves)

theorem link_register {k' : Link} (hready : (s.link k').status = .installed ∨
      ((s.link k').status = .fresh ∧ k'.second = true ∧ k'.src ∈ (s.sup k'.dst).peerChannelSync)) (k : Link) :
    LinkIn job s k
      (update s.link k' { s.link k' with status := .registered } k) := by
  refine (h.link k).updateLink fun hk => ?_
  subst hk
  rcases hready with hinstalled | ⟨hfresh, -, hsync⟩
  · obtain ⟨hsrc, hreceived⟩ := (h.link k).arrived (.inl hinstalled)
    exact (h.link k).register (by simp [hinstalled]) hsrc hreceived
  · obtain ⟨hsrc, hreceived⟩ := (h.supply k.dst).sync k.src hsync
    exact (h.link k).register (by simp [hfresh]) hsrc hreceived

theorem link_take {unit : PeerUnit R} {rest : List (PeerUnit R)}
    (hstatus : (s.link ⟨src, w, second⟩).status = .registered)
    (hqueue : (s.link ⟨src, w, second⟩).queue = unit :: rest) (k : Link) :
    LinkIn job s k
      (update s.link ⟨src, w, second⟩ ⟨.registered, rest⟩ k) := by
  refine (h.link k).updateLink fun hk => ?_
  subst hk
  obtain ⟨hsrc, hreceived⟩ := (h.link ⟨src, w, second⟩).arrived (.inr hstatus)
  exact (h.link ⟨src, w, second⟩).pop (by simp [hstatus]) hsrc hqueue nofun fun _ => hreceived

theorem link_terminate {rest : List (PeerUnit R)} (hstatus : (s.link ⟨src, w, second⟩).status = .registered)
    (hqueue : (s.link ⟨src, w, second⟩).queue = .termination :: rest) (k : Link) :
    LinkIn job s k
      (update s.link ⟨src, w, second⟩ ⟨.closed, []⟩ k) := by
  refine (h.link k).updateLink fun hk => ?_
  subst hk
  exact (h.link ⟨src, w, second⟩).terminate ((h.link ⟨src, w, second⟩).arrived (.inr hstatus)).1 hqueue

/-- **Every step keeps every peer channel in order.** -/
theorem link_step (hstep : Step job s a s') (k : Link) :
    LinkIn job s' k (s'.link k) := by
  have hlink := h.link k
  have hreceived : Received job s.co s.store k.src k.dst → Received job s.co s'.store k.src k.dst :=
    h.received_step hstep
  have hsender := h.sender_step hstep k.src
  have hwhole := hstep
  cases hstep with
  | rescale _ _ _ hidle =>
    have hclosed : (s.link k).status = .closed := by
      by_contra hopen
      exact (hlink.opened hopen).1 hidle
    refine .shut hclosed (hlink.closed hclosed) fun _ => ⟨List.not_mem_nil, fun hpc => ?_, ?_⟩
    · exact (hsender.handing hpc).2.2.2.2.1.elim
    · by_contra hne
      obtain ⟨-, ⟨todo, hfwd, -⟩, -⟩ := hsender.handling hne
      cases hfwd
  | complete hstage =>
    have hclosed := h.settled_link hstage k
    refine .shut hclosed (hlink.closed hclosed) ?_
    rintro ⟨b, -, hold, hpart, hne⟩
    exact absurd (hold.symm.trans hpart) hne
  | toForward | toConnect | toRoute | toEventual | toSettle | updateRouting | waitEventual =>
    exact hlink.restage _ nofun
  | startEventual => exact (hlink.restore hreceived).restage _ nofun
  | waitInboundPeers w todo => exact (hlink.restage (.connect (todo.filter (· ≠ w))) nofun).updateCounters rfl
  | waitReconfigDone w todo => exact (hlink.restage (.settle (todo.filter (· ≠ w))) nofun).updateCounters rfl
  | initOld w todo hstage =>
    refine (hlink.restage (.init (todo.filter (· ≠ w))) nofun).updateSup fun _ => ?_
    exact (hlink.restage (.init (todo.filter (· ≠ w))) nofun).rebarrier ((h.sender k.src).init_not_handed hstage)
  | initNew w todo _ hstage =>
    have hstaged := (hlink.restore hreceived).restage (.init (todo.filter (· ≠ w))) nofun
    have hsrc := (h.sender k.src).init_not_handed hstage
    refine LinkOk.updateLoop ?_ fun _ => hstaged.resender hsrc nofun rfl
    refine LinkOk.updateSup ?_ fun _ => hstaged.rebarrier hsrc
    exact hstaged.updateSup fun _ => hstaged.rebarrier hsrc
  | handleStart | handleRouting | handleActivate | handleRaise => exact h.link_handle hwhole k
  | install => exact h.link_install hwhole k
  | register _ hready | registerLast _ hready => exact (h.link_register hready k).updateCounters rfl
  | loopStay | loopOut | takeBatch | dispatchLocal | finish => exact hlink.updatePc trivial rfl
  | loopEnter w todo _ _ _ _ hhandler =>
    have hstaged := hlink.restage (.forward (todo.filter (· ≠ w))) nofun
    refine LinkOk.updateLoop hstaged fun hsrc => ?_
    refine hstaged.reloop (fun _ _ => .inr ?_) fun _ hexit => nomatch hexit
    simp [Loop.Activated, hsrc, hhandler]
  | handover => exact h.link_handover hwhole k
  | announce => exact h.link_announce hwhole k
  | takeWatermark _ _ progress => exact hlink.updatePc (by cases progress <;> trivial) rfl
  | takeBarrier => exact hlink.updateCounters rfl
  | takeLastBarrier w _ _ _ hpc _ _ hlast =>
    -- before the last barrier none of the sender's channels has ended
    have hlast : k.src = w → ∀ {l : Loop R} {p : Supplier}, l.pc ≠ .handing → l.handler = (s.loop w).handler →
        LinkOk job s.co s.handed s.store l p k (s.link k) := by
      rintro rfl l p hpc' hhandler
      refine
        { hlink with
          pending := fun hsends hsecond hsrc hwait => hlink.pending hsends hsecond hsrc (.inr ?_)
          ended := fun hsends hsecond hsrc hend => ?_ }
      · have hactive := hwait.resolve_left hpc'
        unfold Loop.Activated at hactive ⊢
        rwa [hhandler] at hactive
      · have := (hlink.ended hsends hsecond hsrc hend).1
        omega
    have hne : (if (s.loop w).inTransition then Pc.exiting (exitSteps job) else .head) ≠ (.handing : Pc R) := by
      split_ifs <;> nofun
    refine LinkOk.updateLoop (LinkOk.updateSup hlink fun hsrc => ?_) fun hsrc => hlast hsrc hne rfl
    exact hlast hsrc (by simp [hsrc, hpc]) (by rw [hsrc])
  | peerBatch _ _ _ _ _ _ _ hstatus hqueue | peerMetadata _ _ _ _ _ _ _ hstatus hqueue =>
    exact (h.link_take hstatus hqueue k).updatePc trivial rfl
  | peerWatermark _ _ _ progress _ _ hstatus hqueue =>
    exact (h.link_take hstatus hqueue k).updatePc (by cases progress <;> trivial) rfl
  | peerTermination _ _ _ progress _ _ hstatus hqueue | peerLastTermination _ _ _ progress _ _ hstatus hqueue =>
    refine LinkOk.updatePc ?_ (by cases progress <;> trivial) rfl
    exact (h.link_terminate hstatus hqueue k).updateCounters rfl
  | dispatchForward _ _ _ _ _ hpc hin hrouting | dispatchForwardAll _ _ _ _ _ hpc hin hrouting =>
    exact (h.link_forward hpc hin hrouting k).updatePc trivial rfl
  | dispatchWatermark _ _ hpc => exact (h.link_watermark hpc k).updatePc trivial rfl
  | exitEnd | exitLower | exitRouting | exitClose | exitRelease => exact h.link_exit hwhole k
  | read | run | readDone | flush | endUnit => exact hlink.restore hreceived
  | _ => exact hlink

end

end Inv

end LazyRescale
end Koala
