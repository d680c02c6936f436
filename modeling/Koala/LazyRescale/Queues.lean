import Koala.LazyRescale.Plan

/-!
# The upstream channels

An upstream task sends its records where its routing table says, and puts a barrier between the records routed by
the old partition and those routed by the new one.  `RegularQueues` says this about the contents of every upstream
channel.
-/

namespace Koala
namespace LazyRescale

open Lib Lib.Outcome Keyby Partition
open Function (update_self update_of_ne)

variable {R K : Type}

def UpstreamUnit.isBarrier : UpstreamUnit R → Bool
  | barrier => true
  | _ => false

/-- The channel still has its barrier. -/
def hasBarrier (units : List (UpstreamUnit R)) : Bool := units.any UpstreamUnit.isBarrier

@[simp] theorem hasBarrier_nil : hasBarrier ([] : List (UpstreamUnit R)) = false := rfl

@[simp] theorem hasBarrier_cons (unit : UpstreamUnit R) (units : List (UpstreamUnit R)) :
    hasBarrier (unit :: units) = (unit.isBarrier || hasBarrier units) := rfl

@[simp] theorem hasBarrier_append (left right : List (UpstreamUnit R)) :
    hasBarrier (left ++ right) = (hasBarrier left || hasBarrier right) := by
  simp [hasBarrier]

/-- The records in a channel to `w` are those a partition assigns to `w`. -/
def RoutedBy (job : Job R K) (part : PartitionTable) (w : WorkerID) (units : List (UpstreamUnit R)) : Prop :=
  ∀ recs, .batch recs ∈ units → ∀ r ∈ recs, part (job.bucketOf r) = w

variable {job : Job R K} {part : PartitionTable} {w : WorkerID} {units : List (UpstreamUnit R)}
  {unit : UpstreamUnit R}

theorem RoutedBy.tail (h : RoutedBy job part w (unit :: units)) : RoutedBy job part w units :=
  fun recs hrecs => h recs (List.mem_cons_of_mem unit hrecs)

theorem RoutedBy.append {left right : List (UpstreamUnit R)} (hleft : RoutedBy job part w left)
    (hright : RoutedBy job part w right) :
    RoutedBy job part w (left ++ right) := fun recs hrecs =>
  (List.mem_append.mp hrecs).elim (hleft recs) (hright recs)

/-- What an upstream channel may hold, before and after its sender has swapped the routing table. -/
def QueueShape (job : Job R K) (old part : PartitionTable) (swapped : Bool) (w : WorkerID)
    (units : List (UpstreamUnit R)) : Prop :=
  match swapped with
  | false => hasBarrier units = false ∧ RoutedBy job old w units
  | true => (hasBarrier units = false ∧ RoutedBy job part w units) ∨
      ∃ before after, units = before ++ .barrier :: after ∧ hasBarrier before = false ∧ hasBarrier after = false ∧
        RoutedBy job old w before ∧ RoutedBy job part w after

variable {old : PartitionTable} {swapped : Bool}

theorem QueueShape.tail (h : QueueShape job old part swapped w (unit :: units)) :
    QueueShape job old part swapped w units := by
  cases swapped with
  | false =>
    obtain ⟨hfree, hrouted⟩ := h
    rw [hasBarrier_cons, Bool.or_eq_false_iff] at hfree
    exact ⟨hfree.2, hrouted.tail⟩
  | true =>
    rcases h with ⟨hfree, hrouted⟩ | ⟨before, after, hsplit, hbefore, hafter, hold, hnew⟩
    · rw [hasBarrier_cons, Bool.or_eq_false_iff] at hfree
      exact .inl ⟨hfree.2, hrouted.tail⟩
    · cases before with
      | nil =>
        obtain ⟨-, rfl⟩ := List.cons.inj hsplit
        exact .inl ⟨hafter, hnew⟩
      | cons first rest =>
        obtain ⟨rfl, rfl⟩ := List.cons.inj hsplit
        rw [hasBarrier_cons, Bool.or_eq_false_iff] at hbefore
        exact .inr ⟨rest, after, rfl, hbefore.2, hafter, hold.tail, hnew⟩

/-- Sending records keeps the shape if the routing table in use is the one for the shape. -/
theorem QueueShape.push {more : List (UpstreamUnit R)} (h : QueueShape job old part swapped w units)
    (hfree : hasBarrier more = false) (hmore : RoutedBy job (if swapped then part else old) w more) :
    QueueShape job old part swapped w (units ++ more) := by
  cases swapped with
  | false => exact ⟨by simp [h.1, hfree], h.2.append hmore⟩
  | true =>
    rcases h with ⟨hbarrier, hrouted⟩ | ⟨before, after, rfl, hbefore, hafter, hold, hnew⟩
    · exact .inl ⟨by simp [hbarrier, hfree], hrouted.append hmore⟩
    · exact .inr ⟨before, after ++ more, by simp, hbefore, by simp [hafter, hfree], hold, hnew.append hmore⟩

theorem QueueShape.barrier (h : QueueShape job old part swapped w (.barrier :: units)) :
    swapped = true ∧ hasBarrier units = false := by
  cases swapped with
  | false => simp [QueueShape, UpstreamUnit.isBarrier] at h
  | true =>
    rcases h with ⟨hfree, -⟩ | ⟨before, after, hsplit, hbefore, hafter, -, -⟩
    · simp [UpstreamUnit.isBarrier] at hfree
    · cases before with
      | nil =>
        obtain ⟨-, rfl⟩ := List.cons.inj hsplit
        exact ⟨rfl, hafter⟩
      | cons first rest =>
        obtain ⟨rfl, -⟩ := List.cons.inj hsplit
        simp [UpstreamUnit.isBarrier] at hbefore

/-- **The contents of the upstream channels.** -/
structure RegularQueues (job : Job R K) (co : Coordinator) (up : UpstreamID → PartitionTable)
    (queue : UpstreamID → WorkerID → List (UpstreamUnit R)) : Prop where
  outside : ∀ u, u ∉ job.upstreams → ∀ w, queue u w = []
  todo : ∀ todo, co.stage = .route todo → ∀ u ∈ todo, u ∈ job.upstreams
  table : ∀ u ∈ job.upstreams, ∀ b < job.store.numBuckets,
    up u b = if co.stage.swapped u then co.part b else co.old b
  shape : ∀ u ∈ job.upstreams, ∀ w, QueueShape job co.old co.part (co.stage.swapped u) w (queue u w)
  dead : ∀ u w, ¬ co.Live w → hasBarrier (queue u w) = false

namespace RegularQueues

section

variable {job : Job R K} {co : Coordinator} {up : UpstreamID → PartitionTable}
  {queue : UpstreamID → WorkerID → List (UpstreamUnit R)}

theorem initial (job : Job R K) (workers : List WorkerID) (owners : PartitionTable) :
    RegularQueues job (Sys.initial job workers owners).co (Sys.initial job workers owners).up
      (Sys.initial job workers owners).queue := by
  refine ⟨fun _ _ _ => rfl, fun todo hstage => by simp [Sys.initial] at hstage,
    fun u _ b _ => by simp [Sys.initial, Stage.swapped], fun u _ w => ⟨rfl, fun recs hrecs => ?_⟩, fun _ _ _ => rfl⟩
  exact absurd hrecs List.not_mem_nil

theorem restage (h : RegularQueues job co up queue) {stage : Stage}
    (hswapped : ∀ u ∈ job.upstreams, stage.swapped u = co.stage.swapped u)
    (htodo : ∀ todo, stage = .route todo → ∀ u ∈ todo, u ∈ job.upstreams) :
    RegularQueues job { co with stage := stage } up queue :=
  ⟨h.outside, htodo, fun u hu b hb => by rw [hswapped u hu]; exact h.table u hu b hb,
    fun u hu w => by rw [hswapped u hu]; exact h.shape u hu w, h.dead⟩

variable {u : UpstreamID} {w : WorkerID}

theorem update (h : RegularQueues job co up queue) {units : List (UpstreamUnit R)} (hu : u ∈ job.upstreams)
    (hshape : QueueShape job co.old co.part (co.stage.swapped u) w units)
    (hdead : ¬ co.Live w → hasBarrier units = false) :
    RegularQueues job co up (Function.update queue u (Function.update (queue u) w units)) := by
  have hsame : ∀ v x, ¬ (v = u ∧ x = w) →
      Function.update queue u (Function.update (queue u) w units) v x = queue v x := by
    intro v x hne
    by_cases hv : v = u
    · subst hv
      rw [update_self, update_of_ne fun hx => hne ⟨rfl, hx⟩]
    · rw [update_of_ne hv]
  have hself : Function.update queue u (Function.update (queue u) w units) u w = units := by simp
  refine ⟨fun v hv x => ?_, h.todo, h.table, fun v hv x => ?_, fun v x hx => ?_⟩
  · rw [hsame v x fun heq => hv (heq.1 ▸ hu)]
    exact h.outside v hv x
  · by_cases heq : v = u ∧ x = w
    · obtain ⟨rfl, rfl⟩ := heq
      rw [hself]
      exact hshape
    · rw [hsame v x heq]
      exact h.shape v hv x
  · by_cases heq : v = u ∧ x = w
    · obtain ⟨rfl, rfl⟩ := heq
      rw [hself]
      exact hdead hx
    · rw [hsame v x heq]
      exact h.dead v x hx

variable {unit : UpstreamUnit R}

section

variable (h : RegularQueues job co up queue)
include h

theorem mem_of_queue {units : List (UpstreamUnit R)} (hqueue : queue u w = unit :: units) : u ∈ job.upstreams := by
  by_contra hu
  rw [h.outside u hu w] at hqueue
  cases hqueue

theorem pop {rest : List (UpstreamUnit R)} (hqueue : queue u w = unit :: rest) :
    RegularQueues job co up (Function.update queue u (Function.update (queue u) w rest)) := by
  have hu := h.mem_of_queue hqueue
  refine h.update hu (QueueShape.tail (hqueue ▸ h.shape u hu w)) fun hdead => ?_
  have hfree := h.dead u w hdead
  rw [hqueue, hasBarrier_cons, Bool.or_eq_false_iff] at hfree
  exact hfree.2

theorem push (hu : u ∈ job.upstreams) (hfree : unit.isBarrier = false)
    (hunit : ∀ recs, unit = .batch recs → ∀ r ∈ recs, up u (job.bucketOf r) = w) :
    RegularQueues job co up
      (Function.update queue u fun v => queue u v ++ if v = w then [unit] else []) := by
  have heq : (fun v => queue u v ++ if v = w then [unit] else [])
      = Function.update (queue u) w (queue u w ++ [unit]) := by
    funext v
    by_cases hv : v = w
    · subst hv
      simp
    · simp [hv]
  rw [heq]
  refine h.update hu ((h.shape u hu w).push (by simp [hfree]) fun recs hrecs r hr => ?_) fun hdead => ?_
  · have htable := h.table u hu (job.bucketOf r) (job.bucketOf_lt r)
    have hr' := hunit recs (List.mem_singleton.mp hrecs).symm r hr
    rw [htable] at hr'
    split_ifs at hr' ⊢ <;> exact hr'
  · simp [h.dead u w hdead, hfree]

theorem rescale {deployed : List WorkerID} (hplan : Planned job co deployed)
    (hidle : co.stage = .idle) {co' : Coordinator} (hold : co'.old = co.part)
    (hstage : ∀ u, co'.stage.swapped u = false) (htodo : ∀ todo, co'.stage ≠ .route todo) :
    RegularQueues job co' up queue := by
  obtain ⟨hpart, -, -, -⟩ := hplan.idle hidle
  have hidle' : ∀ u, co.stage.swapped u = false := fun u => by rw [hidle]; rfl
  refine ⟨h.outside, fun todo htodo' => absurd htodo' (htodo todo), fun u hu b hb => ?_, fun u hu w => ?_,
    fun u w hw => ?_⟩
  · rw [h.table u hu b hb, hidle', hstage]
    simp [hold, hpart]
  · have hshape := h.shape u hu w
    rw [hidle'] at hshape
    rw [hstage, hold, ← hpart]
    exact hshape
  · by_cases hu : u ∈ job.upstreams
    · have hshape := h.shape u hu w
      rw [hidle'] at hshape
      exact hshape.1
    · rw [h.outside u hu w]
      rfl

theorem complete {todo : List WorkerID} (hsettle : co.stage = .settle todo)
    (hfree : ∀ u w, hasBarrier (queue u w) = false) {co' : Coordinator} (hold : co'.old = co.part)
    (hstage : co'.stage = .idle) : RegularQueues job co' up queue := by
  have hswapped : ∀ u, co.stage.swapped u = true := fun u => by rw [hsettle]; rfl
  refine ⟨h.outside, fun todo htodo => by simp [hstage] at htodo, fun u hu b hb => ?_, fun u hu w => ?_,
    fun u w _ => hfree u w⟩
  · rw [h.table u hu b hb, hswapped, hstage]
    simp [Stage.swapped, hold]
  · have hshape := h.shape u hu w
    rw [hswapped] at hshape
    rw [hstage]
    rcases hshape with ⟨-, hrouted⟩ | ⟨before, after, hsplit, -⟩
    · exact ⟨hfree u w, hold ▸ hrouted⟩
    · have hbarrier := hfree u w
      rw [hsplit] at hbarrier
      simp [UpstreamUnit.isBarrier] at hbarrier

theorem updateRouting {todo : List UpstreamID} (hstage : co.stage = .route todo)
    (hu : u ∈ todo) (hremoved : ∀ w ∈ co.removed, w ∈ co.tasks)
    (hold : ∀ b < job.store.numBuckets, co.old b ∈ co.tasks) :
    RegularQueues job { co with stage := .route (todo.filter (· ≠ u)) } (Function.update up u co.part)
      (Function.update queue u fun w => queue u w ++
        ((if w ∈ co.tasks ∨ w ∈ co.added then [.barrier] else []) ++ if w ∈ co.removed then [.termination] else [])) := by
  have huup := h.todo todo hstage u hu
  have hother : ∀ v, v ≠ u → (Stage.route (todo.filter (· ≠ u))).swapped v = co.stage.swapped v := by
    intro v hv
    rw [hstage]
    simp [Stage.swapped, hv]
  have hself : (Stage.route (todo.filter (· ≠ u))).swapped u = true := by simp [Stage.swapped]
  have hbefore : co.stage.swapped u = false := by rw [hstage]; simpa [Stage.swapped] using hu
  have hterm : ∀ w, hasBarrier (if w ∈ co.removed then [.termination] else [] : List (UpstreamUnit R)) = false := by
    intro w
    split_ifs <;> rfl
  refine ⟨fun v hv w => ?_, fun todo' htodo v hv => ?_, fun v hv b hb => ?_, fun v hv w => ?_, fun v w hw => ?_⟩
  · have hne : v ≠ u := fun heq => hv (heq ▸ huup)
    rw [update_of_ne hne]
    exact h.outside v hv w
  · cases htodo
    exact h.todo todo hstage v (List.mem_filter.mp hv).1
  · dsimp only
    by_cases hvu : v = u
    · subst hvu
      rw [hself, update_self]
      rfl
    · rw [hother v hvu, update_of_ne hvu]
      exact h.table v hv b hb
  · dsimp only
    by_cases hvu : v = u
    · subst hvu
      rw [hself, update_self]
      have hshape := h.shape v hv w
      rw [hbefore] at hshape
      by_cases hlive : w ∈ co.tasks ∨ w ∈ co.added
      · rw [if_pos hlive]
        refine .inr ⟨queue v w, if w ∈ co.removed then [.termination] else [], by simp, hshape.1, hterm w,
          hshape.2, fun recs hrecs => ?_⟩
        split_ifs at hrecs <;> simp at hrecs
      · -- a worker that is not involved gets nothing, and what it had is empty batches
        rw [if_neg hlive, if_neg fun hw => hlive (.inl (hremoved w hw)), List.append_nil, List.append_nil]
        refine .inl ⟨hshape.1, fun recs hrecs r hr => ?_⟩
        exact absurd (.inl (hshape.2 recs hrecs r hr ▸ hold _ (job.bucketOf_lt r))) hlive
    · rw [hother v hvu, update_of_ne hvu]
      exact h.shape v hv w
  · by_cases hvu : v = u
    · subst hvu
      have hlive : ¬ (w ∈ co.tasks ∨ w ∈ co.added) := hw
      rw [update_self, if_neg hlive]
      simp [h.dead v w hw, hterm w]
    · rw [update_of_ne hvu]
      exact h.dead v w hw

end

end

section Step

variable [DecidableEq K] {job : Job R K} {s s' : Sys R K} {a : Action R K}

/-- Every step keeps the shape of the channels, provided no barrier is left when a reconfiguration ends. -/
theorem step (h : RegularQueues job s.co s.up s.queue) (hplan : Planned job s.co s.store.deployed)
    (hdone : s.co.stage = .settle [] → ∀ u w, hasBarrier (s.queue u w) = false) (hstep : Step job s a s') :
    RegularQueues job s'.co s'.up s'.queue := by
  cases hstep with
  | rescale _ _ _ hidle =>
    exact h.rescale hplan hidle rfl (fun _ => rfl) fun _ => by simp
  | complete hstage => exact h.complete hstage (hdone hstage) rfl rfl
  | toForward hstage | toConnect hstage | toEventual hstage =>
    exact h.restage (fun u _ => by rw [hstage]; rfl) fun _ heq => by cases heq
  | toRoute hstage =>
    refine h.restage (fun u hu => ?_) fun todo heq u hu => ?_
    · rw [hstage]
      simpa [Stage.swapped] using hu
    · cases heq
      exact hu
  | toSettle hstage =>
    refine h.restage (fun u _ => ?_) fun _ heq => by cases heq
    rcases hstage with hstage | hstage <;> rw [hstage] <;> rfl
  | initOld _ _ hstage | initNew _ _ _ hstage | loopEnter _ _ _ _ _ hstage | waitInboundPeers _ _ hstage
  | waitReconfigDone _ _ hstage | startEventual _ _ _ _ hstage | waitEventual _ _ _ hstage =>
    exact h.restage (fun u _ => by rw [hstage]; rfl) fun _ heq => by cases heq
  | updateRouting _ _ hstage hu =>
    exact h.updateRouting hstage hu (fun w hw => ((hplan.removed_iff w).mp hw).1) hplan.old_mem
  | takeBatch _ _ _ _ _ _ hqueue | takeWatermark _ _ _ _ _ hqueue | takeBarrier _ _ _ _ _ hqueue
  | takeLastBarrier _ _ _ _ _ hqueue | takeTermination _ _ _ _ _ hqueue => exact h.pop hqueue
  | emitBatch u w recs hu hrecs =>
    refine h.push hu rfl fun recs' heq => ?_
    cases heq
    exact hrecs
  | emitWatermark _ _ hu => exact h.push hu rfl fun recs' heq => by cases heq
  | _ => exact h

end Step

end RegularQueues

end LazyRescale
end Koala
