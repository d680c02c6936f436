import Koala.LazyByKey.StoreCustody
import Koala.LazyRescale.Steps

/-!
# The coordinator's plan

What the coordinator knows about a reconfiguration while it runs: the old and the new partition, the worker lists,
and the owner changes and migration plan computed from the two partitions.  `Coordinator.Sends` is the relation
behind the last two: some bucket moves from one worker to the other.
-/

namespace Koala
namespace LazyRescale

open Lib Lib.Outcome Keyby Partition

variable {R K : Type}

/-- Bucket `b` moves from `src` to `dst` in the current reconfiguration. -/
def Coordinator.Moves (job : Job R K) (co : Coordinator) (b : BucketID) (src dst : WorkerID) : Prop :=
  b < job.store.numBuckets ∧ co.old b = src ∧ co.part b = dst ∧ src ≠ dst

/-- Some bucket moves from `src` to `dst`. -/
def Coordinator.Sends (job : Job R K) (co : Coordinator) (src dst : WorkerID) : Prop :=
  ∃ b, co.Moves job b src dst

variable (w : WorkerID)

/-- The task has its lazy metadata. -/
def Stage.Inited : Stage → Prop
  | idle => False
  | init todo => w ∉ todo
  | _ => True

/-- The task has acknowledged the start of fast forwarding. -/
def Stage.Acked : Stage → Prop
  | idle => False
  | init _ => False
  | forward todo => w ∉ todo
  | _ => True

/-- The task has acknowledged its inbound peers. -/
def Stage.Connected : Stage → Prop
  | connect todo => w ∉ todo
  | route _ => True
  | eventual _ _ => True
  | settle _ => True
  | _ => False

/-- The upstream task uses the new partition. -/
def Stage.swapped (u : UpstreamID) : Stage → Bool
  | route todo => u ∉ todo
  | eventual _ _ => true
  | settle _ => true
  | _ => false

/-- The task has acknowledged the end of the reconfiguration. -/
def Stage.Settled : Stage → Prop
  | settle todo => w ∉ todo
  | _ => False

/-- A task of the operator before or after the reconfiguration. -/
def Coordinator.Live (co : Coordinator) (w : WorkerID) : Prop := w ∈ co.tasks ∨ w ∈ co.added

/-- **The plan of a reconfiguration** is the difference of its two partitions. -/
structure Planned (job : Job R K) (co : Coordinator) (deployed : List WorkerID) : Prop where
  tasks_nodup : co.tasks.Nodup
  updated_nodup : co.updated.Nodup
  old_mem : ∀ b < job.store.numBuckets, co.old b ∈ co.tasks
  part_mem : ∀ b < job.store.numBuckets, co.part b ∈ co.updated
  updated_live : ∀ w ∈ co.updated, co.Live w
  added_updated : ∀ w ∈ co.added, w ∈ co.updated
  added_new : ∀ w ∈ co.added, w ∉ co.tasks
  removed_iff : ∀ w, w ∈ co.removed ↔ w ∈ co.tasks ∧ w ∉ co.updated
  tasks_deployed : ∀ w ∈ co.tasks, w ∈ deployed
  added_deployed : ∀ w ∈ co.added, co.stage.Inited w → w ∈ deployed
  idle : co.stage = .idle → co.old = co.part ∧ co.added = [] ∧ co.removed = [] ∧ co.updated = co.tasks
  dests : co.stage ≠ .idle → ∀ src dst, dst ∈ co.destsOf src ↔ co.Sends job src dst
  senders : co.stage ≠ .idle → ∀ src, src ∈ co.changes.keys ↔ ∃ dst, co.Sends job src dst
  sources : co.stage ≠ .idle → ∀ src dst, src ∈ (co.sourcesOf dst).map MigrationInfo.source ↔ co.Sends job src dst
  sources_nodup : co.stage ≠ .idle → ∀ dst, ((co.sourcesOf dst).map MigrationInfo.source).Nodup
  plan_ne_nil : ∀ dst, co.plan.get dst ≠ some []

variable {job : Job R K} {co : Coordinator} {src dst : WorkerID}

theorem Coordinator.Sends.ne (h : co.Sends job src dst) : src ≠ dst := by
  obtain ⟨b, -, -, -, hne⟩ := h
  exact hne

variable {deployed : List WorkerID}

theorem Planned.src_mem (h : Planned job co deployed) (hsends : co.Sends job src dst) : src ∈ co.tasks := by
  obtain ⟨b, hb, rfl, -, -⟩ := hsends
  exact h.old_mem b hb

theorem Planned.dst_mem (h : Planned job co deployed) (hsends : co.Sends job src dst) : dst ∈ co.updated := by
  obtain ⟨b, hb, -, rfl, -⟩ := hsends
  exact h.part_mem b hb

theorem Planned.idle_sends (h : Planned job co deployed) (hidle : co.stage = .idle) (src dst : WorkerID) :
    ¬ co.Sends job src dst := by
  rintro ⟨b, -, rfl, rfl, hne⟩
  exact hne (by rw [(h.idle hidle).1])

theorem getElem?_ownersOf (job : Job R K) (part : PartitionTable) (b : BucketID) (w : WorkerID) :
    (job.ownersOf part)[b]? = some w ↔ b < job.store.numBuckets ∧ part b = w := by
  unfold Job.ownersOf
  rw [List.getElem?_map]
  by_cases hb : b < job.store.numBuckets
  · simp [hb]
  · simp [hb]

/-- The owner changes of two partitions record a move exactly where the partitions differ. -/
theorem moved_ne_nil_iff (job : Job R K) (old part : PartitionTable) (src dst : WorkerID) :
    (computeBucketOwnerChanges (job.ownersOf old) (job.ownersOf part)).moved src dst ≠ [] ↔
      ∃ b < job.store.numBuckets, old b = src ∧ part b = dst ∧ src ≠ dst := by
  have hexact := computeBucketOwnerChanges_exact (job.ownersOf old) (job.ownersOf part)
  rw [List.ne_nil_iff_exists_cons]
  constructor
  · rintro ⟨b, rest, hmoved⟩
    have hb := (hexact.moved_iff src dst b).mp (by rw [hmoved]; exact List.mem_cons_self ..)
    rw [getElem?_ownersOf, getElem?_ownersOf] at hb
    exact ⟨b, hb.1.1, hb.1.2, hb.2.1.2, hb.2.2⟩
  · rintro ⟨b, hb, hold, hnew, hne⟩
    have hmem := (hexact.moved_iff src dst b).mpr
      ⟨(getElem?_ownersOf job old b src).mpr ⟨hb, hold⟩, (getElem?_ownersOf job part b dst).mpr ⟨hb, hnew⟩, hne⟩
    exact List.exists_cons_of_ne_nil (List.ne_nil_of_mem hmem)

theorem mem_dests_iff (job : Job R K) (old part : PartitionTable) (src dst : WorkerID) :
    dst ∈ (((computeBucketOwnerChanges (job.ownersOf old) (job.ownersOf part)).get src).getD ∅).keys ↔
      ∃ b < job.store.numBuckets, old b = src ∧ part b = dst ∧ src ≠ dst := by
  rw [← moved_ne_nil_iff, GoMap.mem_keys_iff]
  have hexact := computeBucketOwnerChanges_exact (job.ownersOf old) (job.ownersOf part)
  unfold OwnerChanges.moved
  cases hsrc : (computeBucketOwnerChanges (job.ownersOf old) (job.ownersOf part)).get src with
  | none => simp
  | some dests =>
    cases hdst : dests.get dst with
    | none => simp [hdst]
    | some buckets => simpa [hdst] using hexact.noEmpty src dests hsrc dst buckets hdst

section Preservation

variable {job : Job R K}

variable {co : Coordinator} {deployed : List WorkerID}

/-- Between two reconfigurations. -/
theorem Planned.between (hidle : co.stage = .idle ∧ co.old = co.part ∧ co.added = [] ∧ co.removed = [] ∧
      co.updated = co.tasks ∧ co.plan = ∅) (hnodup : co.tasks.Nodup)
    (hpart : ∀ b < job.store.numBuckets, co.part b ∈ co.tasks) (hdeployed : ∀ w ∈ co.tasks, w ∈ deployed) :
    Planned job co deployed := by
  obtain ⟨hstage, hold, hadded, hremoved, hupdated, hplan⟩ := hidle
  exact
    { tasks_nodup := hnodup
      updated_nodup := hupdated ▸ hnodup
      old_mem := hold ▸ hpart
      part_mem := hupdated ▸ hpart
      updated_live := fun w hw => .inl (hupdated ▸ hw)
      added_updated := by simp [hadded]
      added_new := by simp [hadded]
      removed_iff := by simp [hremoved, hupdated]
      tasks_deployed := hdeployed
      added_deployed := by simp [hadded]
      idle := fun _ => ⟨hold, hadded, hremoved, hupdated⟩
      dests := fun hne => absurd hstage hne
      senders := fun hne => absurd hstage hne
      sources := fun hne => absurd hstage hne
      sources_nodup := fun hne => absurd hstage hne
      plan_ne_nil := by simp [hplan] }

section

variable (h : Planned job co deployed)
include h

theorem Planned.live_iff : co.Live w ↔ w ∈ co.updated ∨ w ∈ co.removed := by
  constructor
  · rintro (htask | hadded)
    · exact (em (w ∈ co.updated)).imp_right fun hgone => (h.removed_iff w).mpr ⟨htask, hgone⟩
    · exact .inl (h.added_updated w hadded)
  · exact fun hw => hw.elim (h.updated_live w) fun hremoved => .inl ((h.removed_iff w).mp hremoved).1

/-- The plan does not depend on the stage, as long as a reconfiguration is running. -/
theorem Planned.restage (hrunning : co.stage ≠ .idle) {stage : Stage}
    (hstage : stage ≠ .idle) (hinited : ∀ w ∈ co.added, stage.Inited w → co.stage.Inited w ∨ w ∈ deployed) :
    Planned job { co with stage := stage } deployed :=
  { h with
    added_deployed := fun w hw hinit => (hinited w hw hinit).elim (h.added_deployed w hw) id
    idle := fun hidle => absurd hidle hstage
    dests := fun _ => h.dests hrunning
    senders := fun _ => h.senders hrunning
    sources := fun _ => h.sources hrunning
    sources_nodup := fun _ => h.sources_nodup hrunning }

theorem Planned.deploy : Planned job co (w :: deployed) :=
  { h with
    tasks_deployed := fun v hv => List.mem_cons_of_mem w (h.tasks_deployed v hv)
    added_deployed := fun v hv hinit => List.mem_cons_of_mem w (h.added_deployed v hv hinit) }

theorem Planned.rescale (hidle : co.stage = .idle) {resize : Resize}
    {part : PartitionTable} {plan : GoMap WorkerID (List MigrationInfo)} (hallowed : resize.Allowed co.tasks deployed)
    (hpart : ∀ b < job.store.numBuckets, part b ∈ resize.updated co.tasks)
    (hplan : generateMigrationPlan (computeBucketOwnerChanges (job.ownersOf co.part) (job.ownersOf part)) = .ok plan)
    (history : BucketID → List WorkerID) (epoch : Nat) :
    Planned job { co with
      stage := .init (co.tasks ++ resize.added)
      part := part
      old := co.part
      changes := computeBucketOwnerChanges (job.ownersOf co.part) (job.ownersOf part)
      plan := plan
      updated := resize.updated co.tasks
      added := resize.added
      removed := resize.removed co.tasks
      history := history
      epoch := epoch } deployed := by
  obtain ⟨plan', hplan', hinfo, hsource, hnodup⟩ := generateMigrationPlan_ok
    (computeBucketOwnerChanges_exact (job.ownersOf co.part) (job.ownersOf part))
  obtain rfl : plan' = plan := Outcome.ok.inj (hplan'.symm.trans hplan)
  obtain ⟨-, -, -, hupdated⟩ := h.idle hidle
  have hfresh : ∀ w ∈ resize.added, w ∉ co.tasks := by
    cases resize with
    | grow => exact fun w hw htask => hallowed.2.2 w hw (h.tasks_deployed w htask)
    | shrink => exact fun w hw => absurd hw List.not_mem_nil
  refine
    { tasks_nodup := h.tasks_nodup
      updated_nodup := ?_
      old_mem := fun b hb => hupdated ▸ h.part_mem b hb
      part_mem := hpart
      updated_live := ?_
      added_updated := ?_
      added_new := hfresh
      removed_iff := ?_
      tasks_deployed := h.tasks_deployed
      added_deployed := fun w hw hinit => absurd (List.mem_append_right _ hw) hinit
      idle := fun hstage => absurd hstage (by simp)
      dests := fun _ src dst => mem_dests_iff job co.part part src dst
      senders := fun _ src => ?_
      sources := fun _ src dst => ?_
      sources_nodup := fun _ => hnodup
      plan_ne_nil := generateMigrationPlan_get_ne_nil hplan }
  · cases resize with
    | grow =>
      exact h.tasks_nodup.append hallowed.2.1 fun w htask hw => hfresh w hw htask
    | shrink keep => exact h.tasks_nodup.sublist (List.take_sublist keep co.tasks)
  · intro w hw
    cases resize with
    | grow => exact List.mem_append.mp hw
    | shrink => exact .inl (List.mem_of_mem_take hw)
  · intro w hw
    cases resize with
    | grow => exact List.mem_append_right _ hw
    | shrink => exact absurd hw List.not_mem_nil
  · intro w
    cases resize with
    | grow added =>
      constructor
      · exact fun hw => absurd hw List.not_mem_nil
      · exact fun hw => absurd (List.mem_append_left added hw.1) hw.2
    | shrink keep =>
      have hsplit : co.tasks = co.tasks.take keep ++ co.tasks.drop keep := (List.take_append_drop ..).symm
      constructor
      · intro hw
        refine ⟨List.mem_of_mem_drop hw, fun hkept => ?_⟩
        have hdisjoint := hsplit ▸ h.tasks_nodup
        exact (List.nodup_append.mp hdisjoint).2.2 w hkept w hw rfl
      · rintro ⟨htask, hgone⟩
        rw [hsplit] at htask
        exact (List.mem_append.mp htask).resolve_left hgone
  · rw [GoMap.mem_keys_iff, Option.isSome_iff_exists]
    constructor
    · rintro ⟨dests, hdests⟩
      obtain ⟨dst, hdst⟩ := computeBucketOwnerChanges_noEmptySource _ _ src dests hdests
      refine ⟨dst, (mem_dests_iff job co.part part src dst).mp ?_⟩
      rw [hdests]
      exact (GoMap.mem_keys_iff dests dst).mpr hdst
    · rintro ⟨dst, hsends⟩
      have hmem := (mem_dests_iff job co.part part src dst).mpr hsends
      cases hget : (computeBucketOwnerChanges (job.ownersOf co.part) (job.ownersOf part)).get src with
      | none => simp [hget] at hmem
      | some dests => exact ⟨dests, rfl⟩
  · rw [List.mem_map]
    constructor
    · rintro ⟨info, hmem, rfl⟩
      exact (moved_ne_nil_iff job co.part part _ _).mp (hinfo dst info hmem).1
    · exact fun hsends => hsource src dst ((moved_ne_nil_iff job co.part part src dst).mpr hsends)

theorem Planned.complete {todo : List WorkerID} (hstage : co.stage = .settle todo) : Planned job { co with
      stage := .idle
      old := co.part
      changes := ∅
      plan := ∅
      tasks := co.updated
      added := []
      removed := [] } deployed := by
  refine .between ⟨rfl, rfl, rfl, rfl, rfl, rfl⟩ h.updated_nodup h.part_mem fun w hw => ?_
  exact (h.updated_live w hw).elim (h.tasks_deployed w) fun hadded =>
    h.added_deployed w hadded (by rw [hstage]; trivial)

end

theorem Planned.initial {workers : List WorkerID} {owners : PartitionTable} (hnodup : workers.Nodup)
    (howners : ∀ b < job.store.numBuckets, owners b ∈ workers) :
    Planned job (Sys.initial job workers owners).co (Sys.initial job workers owners).store.deployed :=
  .between ⟨rfl, rfl, rfl, rfl, rfl, rfl⟩ hnodup howners fun _ hw => hw

variable [DecidableEq K] {s s' : Sys R K} {a : Action R K}

theorem Planned.step (h : Planned job s.co s.store.deployed) (hstep : Step job s a s') :
    Planned job s'.co s'.store.deployed := by
  -- what most steps do to the coordinator and the state service
  have hquiet : ∀ {b : LazyByKey.Action K} {store : LazyByKey.World K},
      LazyByKey.step job.store s.store b = .ok store → b.Quiet → store.deployed = s.store.deployed :=
    fun hs hb => ((LazyByKey.step_eq_ok hs).sameCustody hb).deployed
  have hlater : ∀ {stage : Stage}, s.co.stage ≠ .idle → stage ≠ .idle → (∀ w, s.co.stage.Inited w) →
      Planned job { s.co with stage := stage } s.store.deployed :=
    fun hrunning hstage hinited => h.restage hrunning hstage fun w _ _ => .inl (hinited w)
  cases hstep with
  | rescale _ _ _ hidle hallowed hpart hplan => exact h.rescale hidle hallowed hpart hplan _ _
  | complete hstage => exact h.complete hstage
  | toForward hstage | toConnect hstage | toRoute hstage | toEventual hstage | updateRouting _ _ hstage =>
    exact hlater (by simp [hstage]) (by simp) (by simp [hstage, Stage.Inited])
  | toSettle hstage =>
    rcases hstage with hstage | hstage
    · exact hlater (by simp [hstage]) (by simp) (by simp [hstage, Stage.Inited])
    · exact hlater (by simp [hstage]) (by simp) (by simp [hstage, Stage.Inited])
  | loopEnter _ _ _ _ _ hstage | waitInboundPeers _ _ hstage | waitReconfigDone _ _ hstage
  | waitEventual _ _ _ hstage =>
    exact hlater (by simp [hstage]) (by simp) (by simp [hstage, Stage.Inited])
  | startEventual w todo waiting store hstage hw hstore =>
    have hsame : Planned job { s.co with stage := .eventual (todo.filter (· ≠ w)) (w :: waiting) }
        s.store.deployed := hlater (by simp [hstage]) (by simp) (by simp [hstage, Stage.Inited])
    exact hquiet hstore trivial ▸ hsame
  | initOld w _ hstage _ hold =>
    refine h.restage (by simp [hstage]) (by simp) fun v hv hinit => .inl ?_
    rw [hstage]
    have hvw : v ≠ w := fun heq => hold (heq ▸ hv)
    exact fun hv' => hinit (List.mem_filter.mpr ⟨hv', by simpa using hvw⟩)
  | initNew w _ _ hstage _ _ _ hstore =>
    cases LazyByKey.step_eq_ok hstore
    refine (h.deploy w).restage (by simp [hstage]) (by simp) fun v hv hinit => ?_
    by_cases hvw : v = w
    · exact .inr (hvw ▸ List.mem_cons_self ..)
    · rw [hstage]
      exact .inl fun hv' => hinit (List.mem_filter.mpr ⟨hv', by simpa using hvw⟩)
  | install _ _ _ _ _ _ hstore | handover _ _ _ _ _ _ _ _ _ hstore =>
    cases LazyByKey.step_eq_ok hstore
    exact h
  | read _ _ _ _ _ _ hstore | run _ _ _ _ hstore | readDone _ _ hstore | flush _ _ _ _ hstore
  | endUnit _ _ hstore => exact hquiet hstore trivial ▸ h
  | _ => exact h

end Preservation

end LazyRescale
end Koala
