import Koala.LazyRescale.Invariant
import Mathlib.Data.List.Infix

/-!
# Senders

`SenderOk` along the steps of the protocol.  A step moves one main loop or one handler; the other tasks only see
the stage and the list of those who have handed over change.
-/

namespace Koala
namespace LazyRescale

open Lib Lib.Outcome Keyby Partition
open Function (update_of_ne update_self)

variable {R K : Type}

/-- The main loop is neither at a handover nor leaving the transition. -/
def Pc.Neutral : Pc R → Prop
  | .handing => False
  | .announcing => False
  | .exiting _ => False
  | _ => True

variable {job : Job R K}

theorem exitSteps_released {todo : List ExitStep} (hsuffix : todo <:+ exitSteps job)
    (hclosed : ∀ second ∈ job.inputs, .close second ∉ todo) : ∀ x ∈ todo, ∃ second, x = .release second := by
  rw [← List.mem_tails] at hsuffix
  unfold exitSteps Job.inputs at hsuffix
  unfold Job.inputs at hclosed
  cases htwo : job.twoInputs <;> simp only [htwo, if_true, if_false, Bool.false_eq_true] at hsuffix hclosed <;>
    simp only [List.flatMap_cons, List.flatMap_nil, List.append_nil, List.cons_append, List.nil_append, List.tails,
      List.mem_cons, List.not_mem_nil, or_false] at hsuffix <;>
    rcases hsuffix with rfl | rfl | rfl | rfl | rfl | hmore <;> first | (simp at hclosed; done) | (simp; done) | skip
  rcases hmore with rfl | rfl <;> simp

namespace SenderOk

section

variable {job : Job R K} {co : Coordinator} {handed : List WorkerID} {w : WorkerID} {l l' : Loop R}
  {p p' : Supplier}

section

variable (h : SenderOk job co handed w l p)
include h

theorem resupply (hp : p'.expectedInflightBarriers = p.expectedInflightBarriers) : SenderOk job co handed w l p' :=
  { h with
    leaving := fun todo hpc hw => by rw [hp]; exact h.leaving todo hpc hw
    transit := fun hw hne => h.transit hw (hp ▸ hne)
    left := fun hw hal => h.left hw (hp ▸ hal) }

theorem restage (hrunning : co.stage ≠ .idle) {stage : Stage} (hstage : stage ≠ .idle)
    (hforward : ∀ todo, co.stage = .forward todo → w ∈ todo → ∃ todo', stage = .forward todo' ∧ w ∈ todo')
    (hacked : co.stage.Acked w → stage.Acked w) (hback : stage.Acked w → (∃ d, co.Sends job w d) → co.stage.Acked w)
    (htodo : ∀ todo, stage = .forward todo → w ∈ todo → ∃ d, co.Sends job w d) :
    SenderOk job { co with stage := stage } handed w l p :=
  { h with
    handling := fun hne => by
      obtain ⟨hw, ⟨todo, hfwd, hmem⟩, hrest⟩ := h.handling hne
      exact ⟨hw, hforward todo hfwd hmem, hrest⟩
    handing := fun hpc => by
      obtain ⟨hw, hphase, hin, hhandler, hack, hsends⟩ := h.handing hpc
      exact ⟨hw, hphase, hin, hhandler, hacked hack, hsends⟩
    sender := fun hw _ => (h.sender hw hrunning).imp_left hacked
    acked := fun hack hsends => h.acked (hback hack hsends) hsends
    awaited := htodo
    peers := fun second hsecond hor => h.peers second hsecond (hor.imp_left fun hw => ⟨hw.1, hrunning⟩)
    idle := fun hidle => absurd hidle hstage }

theorem repc (hhand : l.pc ≠ .handing) (hexit : ∀ todo, l.pc ≠ .exiting todo)
    (hnew : l'.pc.Neutral) (hphase : l'.phase = l.phase) (hin : l'.inTransition = l.inTransition)
    (hrouting : l'.routing = l.routing) (hpeers : l'.peers = l.peers) (hhandler : l'.handler = l.handler)
    (hpast : l.pc = .head → l.phase = true) : SenderOk job co handed w l' p := by
  have hhand' : l'.pc ≠ .handing := fun hpc => by rw [hpc] at hnew; exact hnew
  have hann' : l'.pc ≠ .announcing := fun hpc => by rw [hpc] at hnew; exact hnew
  have hexit' : ∀ todo, l'.pc ≠ .exiting todo := fun todo hpc => by rw [hpc] at hnew; exact hnew
  refine
    { h with
      past := fun hin' => .inl ?_
      routing := fun hphase' => by rw [hrouting]; exact h.routing (hphase ▸ hphase')
      raised := fun hphase' hw => .inr ?_
      handling := fun hne' => by rw [hphase, hhandler]; exact h.handling (hhandler ▸ hne')
      routed := fun hne' hset => by rw [hrouting]; exact h.routed (hhandler ▸ hne') (hhandler ▸ hset)
      handing := fun hpc => absurd hpc hhand'
      announcing := fun hpc => absurd hpc hann'
      leaving := fun todo hpc => absurd hpc (hexit' todo)
      stale := fun todo hpc => absurd hpc (hexit' todo)
      transit := fun hw hal => by rw [hphase, hin]; exact h.transit hw hal
      left := fun hw hal hphase' => ?_
      acked := fun hack hsends => .inl ((h.acked hack hsends).resolve_right hhand)
      peers := fun second hsecond hor d hd => ?_
      idle := fun hidle => ⟨hphase ▸ (h.idle hidle).1, fun todo hpc => absurd hpc (hexit' todo)⟩ }
  · rw [hphase]
    rcases h.past (hin ▸ hin') with hraised | hhead | ⟨todo, hpc⟩
    · exact hraised
    · exact hpast hhead
    · exact absurd hpc (hexit todo)
  · rw [hhandler]
    exact (h.raised (hphase ▸ hphase') hw).resolve_left hhand
  · obtain ⟨todo, hpc⟩ := h.left hw hal (hphase ▸ hphase')
    exact absurd hpc (hexit todo)
  · have hd' : d ∈ l.peersOf second := by
      unfold Loop.peersOf at hd ⊢
      rwa [hpeers] at hd
    refine h.peers second hsecond ?_ d hd'
    rcases hor with hhanded | hpc | hactive
    · exact .inl hhanded
    · exact absurd hpc hhand'
    · unfold Loop.Activated at hactive ⊢
      rw [hhandler] at hactive
      exact .inr (.inr hactive)

theorem rebarrier (hw : w ∉ handed) : SenderOk job co handed w l p' :=
  { h with
    leaving := fun _ _ hw' => absurd hw' hw
    transit := fun hw' => absurd hw' hw
    left := fun hw' => absurd hw' hw }

end

variable {todo : List WorkerID}

theorem init_not_handed (h : SenderOk job co handed w l p) (hstage : co.stage = .init todo) :
    w ∉ handed := fun hw => by
  have hack := (h.sender hw (by rw [hstage]; nofun)).1
  rw [hstage] at hack
  exact hack

theorem forward_not_handed (h : SenderOk job co handed w l p) (hstage : co.stage = .forward todo) (hw : w ∈ todo) :
    w ∉ handed := fun hhanded => by
  have hack := (h.sender hhanded (by rw [hstage]; nofun)).1
  rw [hstage] at hack
  exact hack hw

theorem fresh (hack : ¬ co.stage.Acked w) (hforward : ∀ todo, co.stage ≠ .forward todo) (hw : w ∉ handed) :
    SenderOk job co handed w .idle p where
  past := nofun
  routing := nofun
  raised := nofun
  handling := fun hne => absurd rfl hne
  routed := fun hne => absurd rfl hne
  handing := nofun
  announcing := nofun
  leaving := fun _ _ hw' => absurd hw' hw
  stale := nofun
  transit := fun hw' => absurd hw' hw
  left := fun hw' => absurd hw' hw
  sender := fun hw' => absurd hw' hw
  acked := fun hyes => absurd hyes hack
  awaited := fun todo hfwd => absurd hfwd (hforward todo)
  peers := fun second _ _ d hd => by
    rw [show Loop.peersOf (R := R) .idle second = [] from rfl] at hd
    cases hd
  idle := fun _ => ⟨rfl, nofun⟩

section

variable (h : SenderOk job co handed w l p)
include h

/-- The handler of a task that is to fast forward takes a step; the phase is raised only at its end. -/
theorem rehandle (hstage : co.stage = .forward todo) (hw : w ∈ todo)
    (hphase : l.phase = false) (hpc : l'.pc = l.pc) (hin : l'.inTransition = l.inTransition)
    (hsuffix : l'.handler <:+ handlerSteps job)
    (hraised : l'.phase = true → l'.handler = [.await] ∧ l'.routing = some co.part)
    (hrouting : l'.handler ≠ [] → .setRouting ∉ l'.handler → l'.routing = some co.part)
    (hpeers : ∀ second ∈ job.inputs, l'.Activated second → ∀ d ∈ l'.peersOf second, co.Sends job w d) :
    SenderOk job co handed w l' p := by
  have hhanded : w ∉ handed := h.forward_not_handed hstage hw
  have hhanding : l.pc ≠ .handing := fun hhand => by
    have := (h.handing hhand).2.1
    rw [hphase] at this
    cases this
  exact
    { past := fun hin' => by
        rcases h.past (hin ▸ hin') with hup | hhead
        · rw [hphase] at hup; cases hup
        · rw [hpc]; exact .inr hhead
      routing := fun hphase' => (hraised hphase').2
      raised := fun hphase' _ => .inr (hraised hphase').1
      handling := fun _ => ⟨hhanded, ⟨todo, hstage, hw⟩, hsuffix, fun hphase' => (hraised hphase').1⟩
      routed := hrouting
      handing := fun hhand => absurd (hpc ▸ hhand) hhanding
      announcing := fun hann => absurd (h.announcing (hpc ▸ hann)).1 hhanded
      leaving := fun _ _ hw' => absurd hw' hhanded
      stale := fun todo' hexit => h.stale todo' (hpc ▸ hexit)
      transit := fun hw' => absurd hw' hhanded
      left := fun hw' => absurd hw' hhanded
      sender := fun hw' => absurd hw' hhanded
      acked := fun hack => by rw [hstage] at hack; exact absurd hw hack
      awaited := h.awaited
      peers := fun second hsecond hor => by
        rcases hor with hhand | hhand | hactive
        · exact absurd hhand.1 hhanded
        · exact absurd (hpc ▸ hhand) hhanding
        · exact hpeers second hsecond hactive
      idle := fun hidle => by rw [hstage] at hidle; cases hidle }

theorem handler_suffix {x : HandlerStep} {rest : List HandlerStep}
    (hhandler : l.handler = x :: rest) (hx : x ≠ .await) : l.phase = false ∧ x :: rest <:+ handlerSteps job := by
  obtain ⟨-, -, hsuffix, hawait⟩ := h.handling (by simp [hhandler])
  refine ⟨?_, hhandler ▸ hsuffix⟩
  by_contra hphase
  have := hhandler.symm.trans (hawait (by simpa using hphase))
  exact hx (List.cons.inj this).1

/-- The main loop sees the raised phase: it signals the start of the reconfiguration. -/
theorem enter (todo : List WorkerID) (hphase : l.phase = true) (hhandler : l.handler = [.await]) :
    SenderOk job { co with stage := .forward (todo.filter (· ≠ w)) } handed w
      { l with inTransition := true, pc := .handing, handler := [] } p := by
  have hne : l.handler ≠ [] := by simp [hhandler]
  obtain ⟨hhanded, ⟨todo', hstage', hw⟩, -⟩ := h.handling hne
  have hack : w ∉ todo.filter (· ≠ w) := by simp
  exact
    { past := fun _ => .inl hphase
      routing := fun _ => h.routing hphase
      raised := fun _ _ => .inl rfl
      handling := fun hne' => absurd rfl hne'
      routed := fun hne' => absurd rfl hne'
      handing := fun _ => ⟨hhanded, hphase, rfl, rfl, hack, h.awaited todo' hstage' hw⟩
      announcing := nofun
      leaving := fun _ _ hw' => absurd hw' hhanded
      stale := nofun
      transit := fun hw' => absurd hw' hhanded
      left := fun hw' => absurd hw' hhanded
      sender := fun hw' => absurd hw' hhanded
      acked := fun _ _ => .inr rfl
      awaited := fun todo'' hfwd hw' => by
        cases hfwd
        exact absurd hw' hack
      peers := fun second hsecond _ => h.peers second hsecond (.inr (.inr ⟨hne, by rw [hhandler]; simp⟩))
      idle := nofun }

theorem out (hpc : l.pc = .head) (hphase : l.phase = false) :
    SenderOk job co handed w { l with inTransition := false, pc := .ready } p :=
  { h with
    past := nofun
    raised := fun hup => by rw [hphase] at hup; cases hup
    handing := nofun
    announcing := nofun
    leaving := nofun
    stale := nofun
    transit := fun hw hal => by
      have := (h.transit hw hal).1
      rw [hphase] at this
      cases this
    left := fun _ _ hup => by rw [hphase] at hup; cases hup
    acked := fun hack hsends => .inl ((h.acked hack hsends).resolve_right fun hhand => by rw [hpc] at hhand; cases hhand)
    peers := fun second hsecond hor => h.peers second hsecond
      (hor.imp_right (.imp_left nofun))
    idle := fun hidle => ⟨hphase, nofun⟩ }

theorem handover (hpc : l.pc = .handing) (hbarriers : p.expectedInflightBarriers ≠ -1) :
    SenderOk job co (w :: handed) w { l with pc := .announcing } p := by
  obtain ⟨-, hphase, hin, hhandler, hack, hsends⟩ := h.handing hpc
  exact
    { h with
      past := fun _ => .inl hphase
      raised := fun _ hw => absurd List.mem_cons_self hw
      handling := fun hne => absurd hhandler hne
      routed := fun hne => absurd hhandler hne
      handing := nofun
      announcing := fun _ => ⟨List.mem_cons_self, hphase, hin⟩
      leaving := nofun
      stale := nofun
      transit := fun _ _ => ⟨hphase, hin⟩
      left := fun _ hal => absurd hal hbarriers
      sender := fun _ _ => ⟨hack, hsends⟩
      acked := fun _ _ => .inl List.mem_cons_self
      peers := fun second hsecond _ => h.peers second hsecond (.inr (.inl hpc))
      idle := fun hidle => by rw [hidle] at hack; exact hack.elim }

theorem handover_other {v : WorkerID} (hne : w ≠ v) : SenderOk job co (v :: handed) w l p := by
  have hiff : w ∈ v :: handed ↔ w ∈ handed := by simp [hne]
  exact
    { h with
      raised := fun hphase hw => h.raised hphase (hiff.not.mp hw)
      handling := fun hne' => (h.handling hne').imp_left hiff.not.mpr
      handing := fun hpc => (h.handing hpc).imp_left hiff.not.mpr
      announcing := fun hpc => (h.announcing hpc).imp_left hiff.mpr
      leaving := fun todo hpc hw => h.leaving todo hpc (hiff.mp hw)
      stale := fun todo hpc hw => h.stale todo hpc (hiff.not.mp hw)
      transit := fun hw => h.transit (hiff.mp hw)
      left := fun hw => h.left (hiff.mp hw)
      sender := fun hw => h.sender (hiff.mp hw)
      acked := fun hack hsends => (h.acked hack hsends).imp_left hiff.mpr
      peers := fun second hsecond hor => h.peers second hsecond (hor.imp_left (.imp_left hiff.mp)) }

theorem aligned (hw : w ∈ handed) (hin : l.inTransition = true)
    (hrunning : co.stage ≠ .idle) (hp : p'.expectedInflightBarriers = -1) :
    SenderOk job co handed w { l with pc := .exiting (exitSteps job) } p' :=
  { h with
    past := fun _ => .inr (.inr ⟨_, rfl⟩)
    raised := fun _ hw' => absurd hw hw'
    handing := nofun
    announcing := nofun
    leaving := fun todo hpc _ => by
      cases hpc
      exact ⟨hp, List.suffix_rfl, fun _ => by simp [exitSteps], hin⟩
    stale := fun _ _ hw' => absurd hw hw'
    transit := fun _ hne => absurd hp hne
    left := fun _ _ _ => ⟨_, rfl⟩
    acked := fun _ _ => .inl hw
    peers := fun second hsecond _ => h.peers second hsecond (.inl ⟨hw, hrunning⟩)
    idle := fun hidle => absurd hidle hrunning }

/-- A statement of the exit of a task that has handed over, up to the closing of its channels. -/
theorem leave {x : ExitStep} {rest : List ExitStep}
    (hpc : l.pc = .exiting (x :: rest)) (hx : ∀ second, x ≠ .release second) (hpc' : l'.pc = .exiting rest)
    (hphase : l'.phase = false) (hin : l'.inTransition = l.inTransition) (hpeers : l'.peers = l.peers)
    (hhandler : l'.handler = l.handler) : SenderOk job co handed w l' p := by
  have hw : w ∈ handed := by
    by_contra hw
    obtain ⟨second, hrelease⟩ := h.stale _ hpc hw x List.mem_cons_self
    exact hx second hrelease
  have hrunning : co.stage ≠ .idle := fun hidle => by
    obtain ⟨second, hrelease⟩ := (h.idle hidle).2 _ hpc x List.mem_cons_self
    exact hx second hrelease
  obtain ⟨hp, hsuffix, -, hin'⟩ := h.leaving _ hpc hw
  have hdown : l'.phase ≠ true := by simp [hphase]
  have hnil : l'.handler = [] := by
    rw [hhandler]
    by_contra hne
    exact (h.handling hne).1 hw
  exact
    { h with
      past := fun _ => .inr (.inr ⟨rest, hpc'⟩)
      routing := fun hup => absurd hup hdown
      raised := fun hup => absurd hup hdown
      handling := fun hne => absurd hnil hne
      routed := fun hne => absurd hnil hne
      handing := fun hhand => by rw [hpc'] at hhand; cases hhand
      announcing := fun hann => by rw [hpc'] at hann; cases hann
      leaving := fun todo hexit _ => by
        rw [hpc'] at hexit
        cases hexit
        exact ⟨hp, (List.suffix_cons x rest).trans hsuffix, fun hup => absurd hup hdown, hin ▸ hin'⟩
      stale := fun _ _ hw' => absurd hw hw'
      transit := fun _ hne => absurd hp hne
      left := fun _ _ hup => absurd hup hdown
      acked := fun _ _ => .inl hw
      peers := fun second hsecond _ d hd => by
        unfold Loop.peersOf at hd
        rw [hpeers] at hd
        exact h.peers second hsecond (.inl ⟨hw, hrunning⟩) d hd
      idle := fun hidle => absurd hidle hrunning }

/-- A collector lets go of its downstream map; this can still happen after the task has been told to fast forward
again. -/
theorem release {second : Bool} {rest : List ExitStep} (hpc : l.pc = .exiting (.release second :: rest)) :
    SenderOk job co handed w
      { l with peers := Function.update l.peers second none, pc := .exiting rest } p :=
  { h with
    past := fun _ => .inr (.inr ⟨rest, rfl⟩)
    raised := fun hup hw => .inr ((h.raised hup hw).resolve_left fun hhand => by rw [hpc] at hhand; cases hhand)
    handing := nofun
    announcing := nofun
    leaving := fun todo hexit hw => by
      cases hexit
      obtain ⟨hp, hsuffix, hlower, hin⟩ := h.leaving _ hpc hw
      exact ⟨hp, (List.suffix_cons _ rest).trans hsuffix, fun hup => by simpa using hlower hup, hin⟩
    stale := fun todo hexit hw x hx => by
      cases hexit
      exact h.stale _ hpc hw x (List.mem_cons_of_mem _ hx)
    left := fun _ _ _ => ⟨rest, rfl⟩
    acked := fun hack hsends => .inl ((h.acked hack hsends).resolve_right fun hhand => by rw [hpc] at hhand; cases hhand)
    peers := fun i hi hor d hd => by
      refine h.peers i hi (hor.imp_right (.imp_left nofun)) d ?_
      simp only [Loop.peersOf] at hd ⊢
      by_cases hsame : i = second
      · rw [hsame, update_self] at hd
        cases hd
      · rwa [update_of_ne hsame] at hd
    idle := fun hidle => ⟨(h.idle hidle).1, fun todo hexit x hx => by
      cases hexit
      exact (h.idle hidle).2 _ hpc x (List.mem_cons_of_mem _ hx)⟩ }

theorem exitEnd (hpc : l.pc = .exiting []) : SenderOk job co handed w { l with pc := .head } p :=
  { h with
    past := fun _ => .inr (.inl rfl)
    raised := fun hup hw => .inr ((h.raised hup hw).resolve_left fun hhand => by rw [hpc] at hhand; cases hhand)
    handing := nofun
    announcing := nofun
    leaving := nofun
    stale := nofun
    left := fun hw _ hup => by cases (h.leaving [] hpc hw).2.2.1 hup
    acked := fun hack hsends => .inl ((h.acked hack hsends).resolve_right fun hhand => by rw [hpc] at hhand; cases hhand)
    peers := fun second hsecond hor => h.peers second hsecond (hor.imp_right (.imp_left nofun))
    idle := fun hidle => ⟨(h.idle hidle).1, nofun⟩ }

theorem rescale (hidle : co.stage = .idle) {co' : Coordinator}
    (hstage : co'.stage = .init todo) : SenderOk job co' [] w l p := by
  obtain ⟨hphase, hreleases⟩ := h.idle hidle
  have hdown : l.phase ≠ true := by simp [hphase]
  have hnil : l.handler = [] := by
    by_contra hne
    obtain ⟨-, ⟨todo', hfwd, -⟩, -⟩ := h.handling hne
    rw [hidle] at hfwd
    cases hfwd
  have hhanding : l.pc ≠ .handing := fun hhand => hdown (h.handing hhand).2.1
  exact
    { past := h.past
      routing := fun hup => absurd hup hdown
      raised := fun hup => absurd hup hdown
      handling := fun hne => absurd hnil hne
      routed := fun hne => absurd hnil hne
      handing := fun hhand => absurd hhand hhanding
      announcing := fun hann => absurd (h.announcing hann).2.1 hdown
      leaving := nofun
      stale := fun todo' hexit _ => hreleases todo' hexit
      transit := nofun
      left := nofun
      sender := nofun
      acked := fun hack => by rw [hstage] at hack; exact hack.elim
      awaited := fun todo' hfwd => by rw [hstage] at hfwd; cases hfwd
      peers := fun second _ hor => by
        rcases hor with hhand | hhand | hactive
        · cases hhand.1
        · exact absurd hhand hhanding
        · exact absurd hnil hactive.1
      idle := fun hidle' => by rw [hstage] at hidle'; cases hidle' }

end

end

variable {job : Job R K} {co : Coordinator} {handed : List WorkerID} {loop : WorkerID → Loop R}
    {sup : WorkerID → Supplier} {w : WorkerID}

section

variable (hothers : ∀ v ≠ w, SenderOk job co handed v (loop v) (sup v))
include hothers

theorem update {l : Loop R} {p : Supplier} (hw : SenderOk job co handed w l p) (v : WorkerID) :
    SenderOk job co handed v (Function.update loop w l v) (Function.update sup w p v) := by
  by_cases hv : v = w
  · rw [hv, update_self, update_self]
    exact hw
  · rw [update_of_ne hv, update_of_ne hv]
    exact hothers v hv

theorem updateLoop {l : Loop R} (hw : SenderOk job co handed w l (sup w)) (v : WorkerID) :
    SenderOk job co handed v (Function.update loop w l v) (sup v) := by
  have := update hothers hw v
  rwa [Function.update_eq_self] at this

theorem updateSup {p : Supplier} (hw : SenderOk job co handed w (loop w) p) (v : WorkerID) :
    SenderOk job co handed v (loop v) (Function.update sup w p v) := by
  have := update hothers hw v
  rwa [Function.update_eq_self] at this

end

end SenderOk

/-! ## Steps -/

theorem raise_suffix {rest : List HandlerStep} (h : .raise :: rest <:+ handlerSteps job) :
    rest = [.await] := by
  obtain ⟨done, hdone⟩ := h
  unfold handlerSteps Job.inputs at hdone
  cases htwo : job.twoInputs <;> simp only [htwo, if_true, if_false, Bool.false_eq_true] at hdone <;>
    rcases done with _ | ⟨_, _ | ⟨_, _ | ⟨_, _ | ⟨_, _ | ⟨_, _⟩⟩⟩⟩⟩ <;> simp_all

theorem lower_not_mem_tail {x : ExitStep} {rest : List ExitStep} (h : x :: rest <:+ exitSteps job) :
    .lower ∉ rest := by
  have hsub : rest <:+ (exitSteps job).tail := by
    obtain ⟨done, hdone⟩ := h
    rw [← hdone]
    cases done with
    | nil => exact List.suffix_rfl
    | cons _ ys => exact ⟨ys ++ [x], by simp⟩
  intro hmem
  have := hsub.subset hmem
  simp [exitSteps] at this

namespace Inv

variable [DecidableEq K] {job : Job R K} {s s' : Sys R K} {a : Action R K}

variable {w : WorkerID}

section

variable (h : Inv job s)
include h

theorem handing_barriers (hpc : (s.loop w).pc = .handing) :
    (s.sup w).expectedInflightBarriers ≠ -1 := fun haligned => by
  obtain ⟨hw, -, -, -, hack, d, hsends⟩ := (h.sender w).handing hpc
  obtain ⟨hne, hpassed⟩ := h.passed_of_aligned (.inl (h.plan.src_mem hsends)) (hack.inited w) haligned
  obtain ⟨u, hu⟩ := List.exists_mem_of_ne_nil _ hne
  have hswapped := hpassed u hu
  simp only [passed, Bool.and_eq_true] at hswapped
  exact hw ((h.connected (Stage.connected_of_swapped hswapped.1 d)).1 w hsends).1

variable {rest : List (UpstreamUnit R)}

theorem swapped_of_barrier {u : UpstreamID}
    (hqueue : s.queue u w = .barrier :: rest) : s.co.stage.swapped u = true := by
  have hu := h.queues.mem_of_queue hqueue
  have hshape := h.queues.shape u hu w
  rw [hqueue] at hshape
  exact hshape.barrier.1

/-- At the end of a reconfiguration every sender has left the transition, up to letting go of its downstream
maps. -/
theorem settled_sender (hstage : s.co.stage = .settle []) (w : WorkerID) :
    (s.loop w).phase = false ∧ (s.loop w).handler = [] ∧ (s.loop w).pc ≠ .handing ∧
      ∀ todo, (s.loop w).pc = .exiting todo → ∀ x ∈ todo, ∃ second, x = .release second := by
  have hsender := h.sender w
  have hnil : (s.loop w).handler = [] := by
    by_contra hne
    obtain ⟨-, ⟨todo, hfwd, -⟩, -⟩ := hsender.handling hne
    rw [hstage] at hfwd
    cases hfwd
  have hhanding : (s.loop w).pc ≠ .handing := fun hhand => by
    obtain ⟨hw, -, -, -, -, d, hsends⟩ := hsender.handing hhand
    exact hw (h.settled_handed hstage hsends)
  have hreleases : ∀ todo, (s.loop w).pc = .exiting todo → ∀ x ∈ todo, ∃ second, x = .release second := by
    intro todo hexit
    by_cases hw : w ∈ s.handed
    · obtain ⟨-, d, hsends⟩ := hsender.sender hw (by rw [hstage]; nofun)
      refine exitSteps_released (hsender.leaving todo hexit hw).2.1 fun second hsecond => ?_
      exact ((h.link ⟨w, d, second⟩).ended hsends hsecond hw (.inl (h.settled_link hstage _))).2 todo hexit
    · exact hsender.stale todo hexit hw
  refine ⟨?_, hnil, hhanding, hreleases⟩
  by_contra hphase
  rw [Bool.not_eq_false] at hphase
  by_cases hw : w ∈ s.handed
  · obtain ⟨todo, hexit⟩ := hsender.left hw (h.settled_sup hstage w).1 hphase
    obtain ⟨second, hlower⟩ := hreleases todo hexit .lower ((hsender.leaving todo hexit hw).2.2.1 hphase)
    cases hlower
  · rcases hsender.raised hphase hw with hhand | hawait
    · exact hhanding hhand
    · rw [hnil] at hawait
      cases hawait

theorem sender_complete (hstage : s.co.stage = .settle []) {co : Coordinator}
    (hidle : co.stage = .idle) (w : WorkerID) : SenderOk job co s.handed w (s.loop w) (s.sup w) := by
  obtain ⟨hphase, hnil, hhanding, hreleases⟩ := h.settled_sender hstage w
  have hsender := h.sender w
  have hdown : (s.loop w).phase ≠ true := by simp [hphase]
  exact
    { hsender with
      routing := fun hup => absurd hup hdown
      raised := fun hup => absurd hup hdown
      handling := fun hne => absurd hnil hne
      routed := fun hne => absurd hnil hne
      handing := fun hhand => absurd hhand hhanding
      announcing := fun hann => absurd (hsender.announcing hann).2.1 hdown
      sender := fun _ hrunning => absurd hidle hrunning
      acked := fun hack => by rw [hidle] at hack; exact hack.elim
      awaited := fun todo hfwd => by rw [hidle] at hfwd; cases hfwd
      peers := fun second _ hor => by
        rcases hor with hhand | hhand | hactive
        · exact absurd hidle hhand.2
        · exact absurd hhand hhanding
        · exact absurd hnil hactive.1
      idle := fun _ => ⟨hphase, hreleases⟩ }

theorem sender_restage {old : Stage} (stage : Stage) (hstage : s.co.stage = old)
    (hold : old ≠ .idle ∧ ∀ w todo, old = .forward todo → w ∉ todo)
    (hnew : stage ≠ .idle ∧ ∀ todo, stage ≠ .forward todo) (hacked : ∀ w, old.Acked w ↔ stage.Acked w)
    (w : WorkerID) : SenderOk job { s.co with stage := stage } s.handed w (s.loop w) (s.sup w) := by
  subst hstage
  exact (h.sender w).restage hold.1 hnew.1 (fun todo hfwd hw => absurd hw (hold.2 w todo hfwd)) (hacked w).mp
    (fun hack _ => (hacked w).mpr hack) fun todo hfwd => absurd hfwd (hnew.2 todo)

theorem sender_aligned {u : UpstreamID} (hpc : (s.loop w).pc = .ready)
    (hqueue : s.queue u w = .barrier :: rest) (hpos : 0 < (s.sup w).expectedInflightBarriers) {p : Supplier}
    (hp : p.expectedInflightBarriers = -1) :
    SenderOk job s.co s.handed w
      { s.loop w with pc := if (s.loop w).inTransition then .exiting (exitSteps job) else .head } p := by
  have hsender := h.sender w
  have hconnected := Stage.connected_of_swapped (h.swapped_of_barrier hqueue) w
  by_cases hin : (s.loop w).inTransition = true
  · have hphase : (s.loop w).phase = true := by
      rcases hsender.past hin with hup | hhead | ⟨todo, hexit⟩
      · exact hup
      · rw [hpc] at hhead; cases hhead
      · rw [hpc] at hexit; cases hexit
    have hw : w ∈ s.handed := by
      by_contra hw
      -- the handler waits in the forward stage, where there are no barriers
      have hawait := (hsender.raised hphase hw).resolve_left (by simp [hpc])
      obtain ⟨-, ⟨todo, hfwd, -⟩, -⟩ := hsender.handling (by simp [hawait])
      rw [hfwd] at hconnected
      exact hconnected
    rw [if_pos hin]
    exact hsender.aligned hw hin (hconnected.inited w).ne_idle hp
  · have hw : w ∉ s.handed := fun hw => hin (hsender.transit hw (by omega)).2
    rw [if_neg hin]
    have hhead : SenderOk job s.co s.handed w { s.loop w with pc := .head } (s.sup w) :=
      hsender.repc (by simp [hpc]) (by simp [hpc]) trivial rfl rfl rfl rfl rfl (by simp [hpc])
    exact hhead.rebarrier hw

theorem sender_handle (hstep : Step job s (.handle w) s') (v : WorkerID) :
    SenderOk job s'.co s'.handed v (s'.loop v) (s'.sup v) := by
  have hothers : ∀ v ≠ w, SenderOk job s.co s.handed v (s.loop v) (s.sup v) := fun v _ => h.sender v
  have hsender := h.sender w
  cases hstep with
  | handleStart _ _ hstage hw _ hphase =>
    refine .updateLoop hothers ?_ v
    refine hsender.rehandle hstage hw hphase rfl rfl List.suffix_rfl ?_ ?_ ?_
    · intro hup
      rw [hphase] at hup
      cases hup
    · exact fun _ hset => absurd (by simp [handlerSteps]) hset
    · exact fun second hsecond hactive => absurd (by simp [handlerSteps, hsecond]) hactive.2
  | handleRouting _ _ rest hstage hw hhandler =>
    obtain ⟨hphase, hsuffix⟩ := hsender.handler_suffix hhandler nofun
    refine .updateLoop hothers ?_ v
    refine hsender.rehandle hstage hw hphase rfl rfl ((List.suffix_cons _ rest).trans hsuffix) ?_ ?_ ?_
    · intro hup
      rw [hphase] at hup
      cases hup
    · exact fun _ _ => rfl
    · refine fun second hsecond hactive => hsender.peers second hsecond (.inr (.inr ?_))
      exact ⟨by simp [hhandler], by rw [hhandler]; simpa using hactive.2⟩
  | handleActivate _ _ i rest hstage hw hhandler =>
    obtain ⟨hphase, hsuffix⟩ := hsender.handler_suffix hhandler nofun
    refine .updateLoop hothers ?_ v
    refine hsender.rehandle hstage hw hphase rfl rfl ((List.suffix_cons _ rest).trans hsuffix) ?_ ?_ ?_
    · intro hup
      rw [hphase] at hup
      cases hup
    · exact fun _ hset => hsender.routed (by simp [hhandler]) (by rw [hhandler]; simpa using hset)
    · intro second hsecond hactive d hd
      simp only [Loop.peersOf] at hd
      by_cases hsame : second = i
      · rw [hsame, update_self] at hd
        exact (h.plan.dests (by rw [hstage]; nofun) w d).mp hd
      · rw [update_of_ne hsame] at hd
        refine hsender.peers second hsecond (.inr (.inr ⟨by simp [hhandler], ?_⟩)) d hd
        rw [hhandler]
        simpa [hsame] using hactive.2
  | handleRaise _ _ _ hstage hw hhandler =>
    obtain ⟨hphase, hsuffix⟩ := hsender.handler_suffix hhandler nofun
    obtain rfl := raise_suffix hsuffix
    have hrouting := hsender.routed (by simp [hhandler]) (by simp [hhandler])
    refine .updateLoop hothers ?_ v
    refine hsender.rehandle hstage hw hphase rfl rfl ((List.suffix_cons _ _).trans hsuffix) ?_ ?_ ?_
    · exact fun _ => ⟨rfl, hrouting⟩
    · exact fun _ _ => hrouting
    · refine fun second hsecond _ => hsender.peers second hsecond (.inr (.inr ?_))
      exact ⟨by simp [hhandler], by simp [hhandler]⟩

theorem sender_exit (hstep : Step job s (.exit w) s') (v : WorkerID) :
    SenderOk job s'.co s'.handed v (s'.loop v) (s'.sup v) := by
  have hothers : ∀ v ≠ w, SenderOk job s.co s.handed v (s.loop v) (s.sup v) := fun v _ => h.sender v
  have hsender := h.sender w
  -- past its first statement the phase is down
  have hdown : ∀ {x : ExitStep} {rest : List ExitStep}, (s.loop w).pc = .exiting (x :: rest) → x ≠ .lower →
      (∀ second, x ≠ .release second) → (s.loop w).phase = false := by
    intro x rest hpc hlower hrelease
    have hw : w ∈ s.handed := by
      by_contra hw
      obtain ⟨second, hx⟩ := hsender.stale _ hpc hw x List.mem_cons_self
      exact hrelease second hx
    obtain ⟨-, hsuffix, hup, -⟩ := hsender.leaving _ hpc hw
    by_contra hphase
    rcases List.mem_cons.mp (hup (by simpa using hphase)) with hx | hrest
    · exact hlower hx.symm
    · exact lower_not_mem_tail hsuffix hrest
  cases hstep with
  | exitEnd _ hpc => exact .updateLoop hothers (hsender.exitEnd hpc) v
  | exitLower _ _ hpc =>
    refine .updateLoop hothers ?_ v
    exact hsender.leave hpc nofun rfl rfl rfl rfl rfl
  | exitRouting _ _ hpc | exitClose _ _ _ hpc =>
    refine .updateLoop hothers ?_ v
    exact hsender.leave hpc nofun rfl (hdown hpc nofun nofun) rfl rfl rfl
  | exitRelease _ _ _ hpc => exact .updateLoop hothers (hsender.release hpc) v

/-- **Every step keeps every task a well-behaved sender.** -/
theorem sender_step (hstep : Step job s a s') (v : WorkerID) :
    SenderOk job s'.co s'.handed v (s'.loop v) (s'.sup v) := by
  have hall : ∀ (w : WorkerID), ∀ v ≠ w, SenderOk job s.co s.handed v (s.loop v) (s.sup v) :=
    fun w v _ => h.sender v
  have hwhole := hstep
  cases hstep with
  | rescale resize part plan hidle => exact (h.sender v).rescale hidle rfl
  | toForward hstage =>
    have hrunning : s.co.stage ≠ .idle := by rw [hstage]; nofun
    refine (h.sender v).restage hrunning nofun ?_ ?_ ?_ ?_
    · rw [hstage]
      nofun
    · rw [hstage]
      exact False.elim
    · exact fun hack hsends => absurd ((h.plan.senders hrunning v).mpr hsends) hack
    · rintro _ ⟨⟩ hv
      exact (h.plan.senders hrunning v).mp hv
  | toConnect hstage | toRoute hstage | toEventual hstage | updateRouting _ _ hstage | startEventual _ _ _ _ hstage
  | waitEventual _ _ _ hstage => exact h.sender_restage _ hstage (by simp) (by simp) (by simp [Stage.Acked]) v
  | toSettle hstage =>
    rcases hstage with hstage | hstage <;>
      exact h.sender_restage _ hstage (by simp) (by simp) (by simp [Stage.Acked]) v
  | complete hstage => exact h.sender_complete hstage rfl v
  | initOld w todo hstage hw =>
    have hstaged := h.sender_restage (.init (todo.filter (· ≠ w))) hstage (by simp) (by simp) (by simp [Stage.Acked])
    exact .updateSup (fun v _ => hstaged v)
      ((hstaged w).rebarrier ((h.sender w).init_not_handed hstage)) v
  | initNew w todo store hstage hw =>
    have hstaged := h.sender_restage (.init (todo.filter (· ≠ w))) hstage (by simp) (by simp) (by simp [Stage.Acked])
    refine .update (fun v hv => ?_) ?_ v
    swap
    · exact .fresh id nofun ((h.sender w).init_not_handed hstage)
    change SenderOk job _ s.handed v (s.loop v) (Function.update s.sup w .idle v)
    rw [update_of_ne hv]
    exact hstaged v
  | handleStart | handleRouting | handleActivate | handleRaise => exact h.sender_handle hwhole v
  | install src dst =>
    refine .updateSup (hall dst) ?_ v
    exact (h.sender dst).resupply rfl
  | register l | registerLast l =>
    refine .updateSup (hall l.dst) ?_ v
    exact (h.sender l.dst).resupply rfl
  | loopStay w hpc hphase =>
    refine .updateLoop (hall w) ?_ v
    exact (h.sender w).repc (by simp [hpc]) (by simp [hpc]) trivial rfl rfl rfl rfl rfl (fun _ => hphase)
  | loopEnter w todo hpc hphase hin hstage hhandler =>
    refine .updateLoop (fun v hv => ?_) ((h.sender w).enter todo hphase hhandler) v
    refine (h.sender v).restage (by rw [hstage]; nofun) nofun ?_ ?_ ?_ ?_
    · rw [hstage]
      rintro _ ⟨⟩ hmem
      exact ⟨_, rfl, by simp [hmem, hv]⟩
    · rw [hstage]
      exact fun hack hmem => hack (List.mem_of_mem_filter hmem)
    · rw [hstage]
      exact fun hack _ hmem => hack (by simp [hmem, hv])
    · rintro _ ⟨⟩ hmem
      exact (h.sender v).awaited todo hstage (List.mem_of_mem_filter hmem)
  | loopOut w hpc hphase =>
    refine .updateLoop (hall w) ?_ v
    exact (h.sender w).out hpc hphase
  | handover w routing table out store hpc =>
    exact .updateLoop (fun v hv => (h.sender v).handover_other hv)
      ((h.sender w).handover hpc (h.handing_barriers hpc)) v
  | takeBarrier w =>
    refine .updateSup (hall w) ?_ v
    exact (h.sender w).resupply rfl
  | takeLastBarrier w u progress rest hpc hqueue hpos =>
    refine .update (hall w) ?_ v
    exact h.sender_aligned hpc hqueue hpos rfl
  | peerTermination w _ _ progress _ hpc | peerLastTermination w _ _ progress _ hpc =>
    refine .update (hall w) ?_ v
    refine SenderOk.resupply (p := s.sup w) ?_ rfl
    exact (h.sender w).repc (by simp [hpc]) (by simp [hpc]) (by cases progress <;> trivial) rfl rfl rfl rfl rfl
      (by simp [hpc])
  | takeWatermark w _ progress _ hpc | peerWatermark w _ _ progress _ hpc =>
    refine .updateLoop (hall w) ?_ v
    exact (h.sender w).repc (by simp [hpc]) (by simp [hpc]) (by cases progress <;> trivial) rfl rfl rfl rfl rfl
      (by simp [hpc])
  | announce w _ _ hpc | takeBatch w _ _ _ _ hpc | peerBatch w _ _ _ _ _ hpc | peerMetadata w _ _ _ _ _ hpc
  | dispatchLocal w _ _ _ hpc | dispatchForward w _ _ _ _ hpc | dispatchForwardAll w _ _ _ _ hpc
  | dispatchWatermark w _ hpc | finish w _ _ hpc =>
    refine .updateLoop (hall w) ?_ v
    exact (h.sender w).repc (by simp [hpc]) (by simp [hpc]) trivial rfl rfl rfl rfl rfl (by simp [hpc])
  | exitEnd | exitLower | exitRouting | exitClose | exitRelease => exact h.sender_exit hwhole v
  | waitInboundPeers w todo hstage =>
    have hstaged := h.sender_restage (.connect (todo.filter (· ≠ w))) hstage (by simp) (by simp) (by simp [Stage.Acked])
    refine .updateSup (fun v _ => hstaged v) ?_ v
    exact (hstaged w).resupply rfl
  | waitReconfigDone w todo hstage =>
    have hstaged := h.sender_restage (.settle (todo.filter (· ≠ w))) hstage (by simp) (by simp) (by simp [Stage.Acked])
    refine .updateSup (fun v _ => hstaged v) ?_ v
    exact (hstaged w).resupply rfl
  | _ => exact h.sender v

end

end Inv

end LazyRescale
end Koala
