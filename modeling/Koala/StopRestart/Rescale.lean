import Koala.StopRestart.Pull
import Mathlib.Logic.Function.Basic

/-!
# Rescaling with stop-and-restart

The state of the target operator: the coordinator's partition table and every worker's backend.  Between two
rescales the owners flush sets, merges and deletes; a rescale runs drained, so nothing is flushed while it moves
state.  The coordinator turns the owner changes into a migration plan and every destination pulls its buckets,
source by source.  The source keeps its copy of what it hands over, and the receiver only overwrites.

`migrateState_get` computes the backends after the rescale; `stopAndRestart_exact_iff` reads off when they hold
exactly the moved state.
-/

namespace Koala
namespace StopRestart

open Lib Lib.Outcome State Partition
open Function (update update_self update_of_ne)

/-- The backends of all workers. -/
abbrev Stores := WorkerID → Backend

/-- The operator's state across the cluster. -/
structure Cluster where
  /-- the coordinator's partition table: bucket to owner -/
  buckets : List WorkerID
  stores : Stores

/-- `HandleStateMigration` at one destination: pull from each source in turn. -/
def handleStateMigration (ks : KeySpace) (maxChunkSize : Nat) (dst : WorkerID) (infos : List MigrationInfo)
    (stores : Stores) : Outcome ReceiveAbort Stores :=
  forEach infos (fun stores info => do
    let backend ← requestMigration ks maxChunkSize (stores info.source) (stores dst) info.bucketRanges
    pure (update stores dst backend)) stores

/-- `migrateState`: all destinations of the plan. -/
def migrateState (ks : KeySpace) (maxChunkSize : Nat) (plan : GoMap WorkerID (List MigrationInfo))
    (stores : Stores) : Outcome ReceiveAbort Stores :=
  forEach (visit plan) (fun stores d => handleStateMigration ks maxChunkSize d.1 d.2 stores) stores

/-- The flushes of a state client, on one key. -/
inductive FlushOp where
  | set (value : Bytes)
  | merge (value : Bytes)
  | delete
  deriving DecidableEq, Repr

/-- A flush at the backend of one worker. -/
def FlushOp.apply (op : FlushOp) (k : Bytes) (b : Backend) : Backend :=
  match op with
  | set value => b.setMany [(k, value)]
  | merge value => b.mergeMany [(k, value)]
  | delete => b.deleteMany [k]

/-- A rescale from `c` to the assignment `new`, whatever the partition policy that reported `changes`. -/
structure Rescales (ks : KeySpace) (maxChunkSize : Nat) (c c' : Cluster) : Prop where
  length_eq : c'.buckets.length = ks.numBuckets
  migrates : ∃ changes plan, ExactChanges c.buckets c'.buckets changes ∧
    generateMigrationPlan changes = .ok plan ∧
    migrateState ks maxChunkSize plan c.stores = .ok c'.stores

/-- The states a deployment can reach: it starts with empty backends, and then flushes at the owner of the key
and rescales follow each other in any order. -/
inductive Reachable (ks : KeySpace) (maxChunkSize : Nat) : Cluster → Prop
  | deploy (buckets : List WorkerID) (hlen : buckets.length = ks.numBuckets) :
      Reachable ks maxChunkSize ⟨buckets, fun _ => ∅⟩
  | flush {c : Cluster} (hc : Reachable ks maxChunkSize c) (sk : StateKey) (op : FlushOp) (w : WorkerID)
      (howner : c.buckets[ks.bucketOf sk]? = some w) :
      Reachable ks maxChunkSize
        ⟨c.buckets, update c.stores w (op.apply (ks.encode sk) (c.stores w))⟩
  | rescale {c c' : Cluster} (hc : Reachable ks maxChunkSize c) (hstep : Rescales ks maxChunkSize c c') :
      Reachable ks maxChunkSize c'

/-! ## One rescale -/

section Migrate

variable {ks : KeySpace} {maxChunkSize : Nat} {c : Cluster} {new : List WorkerID} {changes : OwnerChanges}

/-- The stored record with the smallest key among the buckets that move from `src` to `dst` is not larger than a
chunk. -/
def FirstRecordFits (ks : KeySpace) (maxChunkSize : Nat) (c : Cluster) (new : List WorkerID)
    (src dst : WorkerID) : Prop :=
  ∀ sk v, (c.stores src).get (ks.encode sk) = some v →
    c.buckets[ks.bucketOf sk]? = some src → new[ks.bucketOf sk]? = some dst →
    (∀ sk' v', (c.stores src).get (ks.encode sk') = some v' →
      c.buckets[ks.bucketOf sk']? = some src → new[ks.bucketOf sk']? = some dst → ks.encode sk ≤ ks.encode sk') →
    Record.size (ks.encode sk, v) ≤ maxChunkSize

open Classical in
/-- What destination `dst` holds for a key of a bucket pulled from `src`. -/
noncomputable def migrated (ks : KeySpace) (maxChunkSize : Nat) (c : Cluster) (new : List WorkerID)
    (src dst : WorkerID) (sk : StateKey) : Option Bytes :=
  if FirstRecordFits ks maxChunkSize c new src dst
  then ((c.stores src).get (ks.encode sk)).or ((c.stores dst).get (ks.encode sk))
  else (c.stores dst).get (ks.encode sk)

/-- The backends after the pulls in `done`, as (destination, source) pairs. -/
structure MigrateInv (ks : KeySpace) (maxChunkSize : Nat) (c : Cluster) (new : List WorkerID)
    (done : List (WorkerID × WorkerID)) (stores : Stores) : Prop where
  keyed : ∀ w, WellKeyed ks (stores w)
  pulled : ∀ src dst sk, c.buckets[ks.bucketOf sk]? = some src → new[ks.bucketOf sk]? = some dst →
    (dst, src) ∈ done → (stores dst).get (ks.encode sk) = migrated ks maxChunkSize c new src dst sk
  untouched : ∀ w sk, (∀ src, c.buckets[ks.bucketOf sk]? = some src → new[ks.bucketOf sk]? = some w →
    (w, src) ∉ done) → (stores w).get (ks.encode sk) = (c.stores w).get (ks.encode sk)

variable {done : List (WorkerID × WorkerID)}

theorem MigrateInv.pull {stores : Stores}
    (h : MigrateInv ks maxChunkSize c new done stores) (hkeyed : ∀ w, WellKeyed ks (c.stores w))
    (hlen : c.buckets.length = ks.numBuckets) (hexact : ExactChanges c.buckets new changes)
    {dst : WorkerID} {info : MigrationInfo} (hranges : RangesOf (changes.moved info.source dst) info.bucketRanges)
    (hself : info.source ≠ dst) (hfresh : (dst, info.source) ∉ done) :
    ∃ backend, requestMigration ks maxChunkSize (stores info.source) (stores dst) info.bucketRanges
        = .ok backend ∧
      MigrateInv ks maxChunkSize c new (done ++ [(dst, info.source)]) (update stores dst backend) := by
  have hmem : ∀ sk, ks.bucketOf sk ∈ changes.moved info.source dst ↔
      c.buckets[ks.bucketOf sk]? = some info.source ∧ new[ks.bucketOf sk]? = some dst := by
    intro sk
    rw [hexact.moved_iff]
    exact ⟨fun hm => ⟨hm.1, hm.2.1⟩, fun hm => ⟨hm.1, hm.2, hself⟩⟩
  have hlt : ∀ i ∈ changes.moved info.source dst, i < ks.numBuckets := by
    intro i hi
    rw [← hlen]
    exact (List.getElem?_eq_some_iff.mp ((hexact.moved_iff _ _ _).mp hi).1).1
  -- the buckets a source gives away are not among those it receives, so it still stores what it had
  have hsource : ∀ sk, ks.bucketOf sk ∈ changes.moved info.source dst →
      (stores info.source).get (ks.encode sk) = (c.stores info.source).get (ks.encode sk) := by
    intro sk hin
    refine h.untouched info.source sk fun src _ hnew => ?_
    rw [((hmem sk).mp hin).2] at hnew
    exact absurd (Option.some.inj hnew).symm hself
  have hfirst : FirstFits ks maxChunkSize (stores info.source) info.bucketRanges ↔
      FirstRecordFits ks maxChunkSize c new info.source dst := by
    have hsame := pulled_congr hranges hlt (h.keyed info.source) (hkeyed info.source) hsource
    rw [FirstFits, hsame]
    refine (firstFits_iff hranges hlt (hkeyed info.source)).trans ?_
    simp only [FirstRecordFits, hmem, and_imp]
  obtain ⟨backend, hrun, hkeyed', hget⟩ := requestMigration_get hranges hlt maxChunkSize
    (h.keyed info.source) (h.keyed dst)
  refine ⟨backend, hrun, ?_, ?_, ?_⟩
  · intro w
    by_cases hw : w = dst
    · subst hw
      rwa [update_self]
    · rw [update_of_ne hw]
      exact h.keyed w
  · intro src d sk hold hnew hdone
    by_cases hd : d = dst
    · subst hd
      rw [update_self, hget sk]
      by_cases hsrc : src = info.source
      · subst hsrc
        have hin := (hmem sk).mpr ⟨hold, hnew⟩
        have hbefore : (stores d).get (ks.encode sk) = (c.stores d).get (ks.encode sk) := by
          refine h.untouched d sk fun s hs _ hmemDone => hfresh ?_
          rw [hold] at hs
          rwa [Option.some.inj hs]
        rw [hsource sk hin, hbefore, migrated]
        by_cases hfits : FirstRecordFits ks maxChunkSize c new info.source d
        · rw [if_pos ⟨hfirst.mpr hfits, hin⟩, if_pos hfits]
        · rw [if_neg fun hboth => hfits (hfirst.mp hboth.1), if_neg hfits]
      · have hout : ks.bucketOf sk ∉ changes.moved info.source d := by
          intro hin
          rw [((hmem sk).mp hin).1] at hold
          exact hsrc (Option.some.inj hold).symm
        rw [if_neg fun hboth => hout hboth.2]
        refine h.pulled src d sk hold hnew ?_
        rcases List.mem_append.mp hdone with hin | hlast
        · exact hin
        · exact absurd (Prod.mk.inj (List.mem_singleton.mp hlast)).2 hsrc
    · rw [update_of_ne hd]
      refine h.pulled src d sk hold hnew ?_
      rcases List.mem_append.mp hdone with hin | hlast
      · exact hin
      · exact absurd (Prod.mk.inj (List.mem_singleton.mp hlast)).1 hd
  · intro w sk hnone
    have hbefore : (stores w).get (ks.encode sk) = (c.stores w).get (ks.encode sk) :=
      h.untouched w sk fun src hold hnew hin => hnone src hold hnew (List.mem_append_left _ hin)
    by_cases hw : w = dst
    · subst hw
      have hout : ks.bucketOf sk ∉ changes.moved info.source w := by
        intro hin
        obtain ⟨hold, hnew⟩ := (hmem sk).mp hin
        exact hnone info.source hold hnew (by simp)
      rw [update_self, hget sk, if_neg fun hboth => hout hboth.2, hbefore]
    · rw [update_of_ne hw, hbefore]

theorem MigrateInv.destination {stores : Stores}
    (h : MigrateInv ks maxChunkSize c new done stores) (hkeyed : ∀ w, WellKeyed ks (c.stores w))
    (hlen : c.buckets.length = ks.numBuckets) (hexact : ExactChanges c.buckets new changes)
    {dst : WorkerID} {infos : List MigrationInfo}
    (hranges : ∀ info ∈ infos, RangesOf (changes.moved info.source dst) info.bucketRanges ∧ info.source ≠ dst)
    (hnodup : (infos.map MigrationInfo.source).Nodup) (hfresh : ∀ src, (dst, src) ∉ done) :
    ∃ stores', handleStateMigration ks maxChunkSize dst infos stores = .ok stores' ∧
      MigrateInv ks maxChunkSize c new (done ++ infos.map fun info => (dst, info.source)) stores' := by
  refine forEach_total (fun (finished : List MigrationInfo) stores => MigrateInv ks maxChunkSize c new
    (done ++ finished.map fun info => (dst, info.source)) stores) (by simpa using h) ?_
  intro finished info rest stores hsplit hinv
  obtain ⟨hinfo, hself⟩ := hranges info (by rw [hsplit]; simp)
  have hnew : (dst, info.source) ∉ done ++ finished.map fun info => (dst, info.source) := by
    rw [List.mem_append, not_or]
    refine ⟨hfresh info.source, fun hin => ?_⟩
    obtain ⟨other, hother, heq⟩ := List.mem_map.mp hin
    exact notMem_map_done hnodup hsplit (List.mem_map.mpr ⟨other, hother, (Prod.mk.inj heq).2⟩)
  obtain ⟨backend, hrun, hinv'⟩ := hinv.pull hkeyed hlen hexact hinfo hself hnew
  refine ⟨update stores dst backend, by rw [hrun, ok_bind, pure_eq_ok], ?_⟩
  rw [List.map_append, ← List.append_assoc]
  exact hinv'

/-- **The backends after a rescale.**  The migration returns; a key of a moved bucket reads as `migrated`, and
every other key reads as before. -/
theorem migrateState_get (maxChunkSize : Nat) (hkeyed : ∀ w, WellKeyed ks (c.stores w)) (hlen : c.buckets.length = ks.numBuckets)
    (hexact : ExactChanges c.buckets new changes) {plan : GoMap WorkerID (List MigrationInfo)}
    (hplan : generateMigrationPlan changes = .ok plan) :
    ∃ stores', migrateState ks maxChunkSize plan c.stores = .ok stores' ∧
      (∀ w, WellKeyed ks (stores' w)) ∧
      (∀ src dst sk, c.buckets[ks.bucketOf sk]? = some src → new[ks.bucketOf sk]? = some dst → src ≠ dst →
        (stores' dst).get (ks.encode sk) = migrated ks maxChunkSize c new src dst sk) ∧
      ∀ w sk, (∀ src, c.buckets[ks.bucketOf sk]? = some src → new[ks.bucketOf sk]? = some w → src = w) →
        (stores' w).get (ks.encode sk) = (c.stores w).get (ks.encode sk) := by
  obtain ⟨plan', hplan', hranges, hplanned, hnodup⟩ := generateMigrationPlan_ok hexact
  rw [hplan] at hplan'
  obtain rfl : plan = plan' := by simpa using hplan'
  -- a planned source differs from its destination: the moved buckets have two owners
  have hself : ∀ dst info, info ∈ plannedFor plan dst →
      RangesOf (changes.moved info.source dst) info.bucketRanges ∧ info.source ≠ dst := by
    intro dst info hinfo
    obtain ⟨hne, hinfoRanges⟩ := hranges dst info hinfo
    obtain ⟨b, hb⟩ := List.exists_mem_of_ne_nil _ hne
    exact ⟨hinfoRanges, ((hexact.moved_iff _ _ _).mp hb).2.2⟩
  obtain ⟨stores', hrun, hinv⟩ : ∃ stores', migrateState ks maxChunkSize plan c.stores = .ok stores' ∧
      MigrateInv ks maxChunkSize c new
        ((visit plan).flatMap fun d => d.2.map fun info => (d.1, info.source)) stores' := by
    refine forEach_total (fun (finished : List (WorkerID × List MigrationInfo)) stores =>
      MigrateInv ks maxChunkSize c new
        (finished.flatMap fun d => d.2.map fun info => (d.1, info.source)) stores) ?_ ?_
    · exact ⟨hkeyed, by simp, fun w sk _ => rfl⟩
    · rintro finished ⟨dst, infos⟩ rest stores hsplit hinv
      have hget : plan.get dst = some infos := (mem_visit plan dst infos).mp (by rw [hsplit]; simp)
      have hinfos : plannedFor plan dst = infos := by rw [plannedFor, hget, Option.getD_some]
      have hfresh : ∀ src, (dst, src) ∉ finished.flatMap fun d => d.2.map fun info => (d.1, info.source) := by
        intro src hin
        obtain ⟨d, hd, hpair⟩ := List.mem_flatMap.mp hin
        obtain ⟨info, -, heq⟩ := List.mem_map.mp hpair
        exact notMem_map_done (visit_keys_nodup plan) hsplit (List.mem_map.mpr ⟨d, hd, (Prod.mk.inj heq).1⟩)
      rw [List.flatMap_append]
      simp only [List.flatMap_cons, List.flatMap_nil, List.append_nil]
      exact hinv.destination hkeyed hlen hexact (fun info hinfo => hself dst info (hinfos ▸ hinfo))
        (hinfos ▸ hnodup dst) hfresh
  refine ⟨stores', hrun, hinv.keyed, ?_, ?_⟩
  · intro src dst sk hold hnew hne
    refine hinv.pulled src dst sk hold hnew (List.mem_flatMap.mpr ?_)
    have hmoved : changes.moved src dst ≠ [] := by
      intro hnil
      have hin := (hexact.moved_iff src dst (ks.bucketOf sk)).mpr ⟨hold, hnew, hne⟩
      rw [hnil] at hin
      simp at hin
    obtain ⟨info, hinfo, hsource⟩ := hplanned src dst hmoved
    cases hget : plan.get dst with
    | none => simp [plannedFor, hget] at hinfo
    | some infos =>
      rw [plannedFor, hget, Option.getD_some] at hinfo
      exact ⟨(dst, infos), (mem_visit plan dst infos).mpr hget, List.mem_map.mpr ⟨info, hinfo, by rw [hsource]⟩⟩
  · intro w sk hnone
    refine hinv.untouched w sk fun src hold hnew hin => ?_
    obtain ⟨d, hd, hpair⟩ := List.mem_flatMap.mp hin
    obtain ⟨info, hinfo, heq⟩ := List.mem_map.mp hpair
    obtain ⟨rfl, rfl⟩ := Prod.mk.inj heq
    have hget : plan.get d.1 = some d.2 := (mem_visit plan d.1 d.2).mp hd
    refine (hself d.1 info ?_).2 (hnone info.source hold hnew)
    rw [plannedFor, hget, Option.getD_some]
    exact hinfo

end Migrate

/-! ## Reachable states -/

variable {ks : KeySpace}

theorem wellKeyed_apply {b : Backend} (h : WellKeyed ks b) (sk : StateKey) (op : FlushOp) :
    WellKeyed ks (op.apply (ks.encode sk) b) := by
  intro k v hget
  cases op with
  | set value =>
    simp only [FlushOp.apply, Backend.setMany, List.foldl_cons, List.foldl_nil, GoMap.get_set] at hget
    split_ifs at hget with hk
    · exact ⟨sk, hk⟩
    · exact h k v hget
  | merge value =>
    simp only [FlushOp.apply, Backend.mergeMany, List.foldl_cons, List.foldl_nil, GoMap.get_set] at hget
    split_ifs at hget with hk
    · exact ⟨sk, hk⟩
    · exact h k v hget
  | delete =>
    simp only [FlushOp.apply, Backend.deleteMany, List.foldl_cons, List.foldl_nil, GoMap.get_delete] at hget
    split_ifs at hget with hk
    exact h k v hget

variable {maxChunkSize : Nat} {c : Cluster}

/-- In every reachable state the table covers all buckets and the backends hold state keys only. -/
theorem Reachable.wellFormed (h : Reachable ks maxChunkSize c) :
    c.buckets.length = ks.numBuckets ∧ ∀ w, WellKeyed ks (c.stores w) := by
  induction h with
  | deploy buckets hlen => exact ⟨hlen, fun w k v hget => by simp at hget⟩
  | @flush c hc sk op w howner ih =>
    refine ⟨ih.1, fun u => ?_⟩
    by_cases hu : u = w
    · subst hu
      simp only [update_self]
      exact wellKeyed_apply (ih.2 u) sk op
    · simp only [update_of_ne hu]
      exact ih.2 u
  | @rescale c c' hc hstep ih =>
    obtain ⟨changes, plan, hexact, hplan, hrun⟩ := hstep.migrates
    obtain ⟨stores', hrun', hkeyed', -, -⟩ :=
      migrateState_get maxChunkSize ih.2 ih.1 hexact hplan
    rw [hrun] at hrun'
    cases hrun'
    exact ⟨hstep.length_eq, hkeyed'⟩

/-! ## When the moved state is exact -/

/-- The contract of a rescale: a moved bucket holds at its new owner exactly the pairs it held at the old one,
and a bucket that stays holds what it held. -/
def ExactlyMoved (ks : KeySpace) (c c' : Cluster) : Prop :=
  (∀ b src dst, c.buckets[b]? = some src → c'.buckets[b]? = some dst → src ≠ dst →
    ∀ k, ks.InBucket b k → (c'.stores dst).get k = (c.stores src).get k) ∧
  ∀ b w, c.buckets[b]? = some w → c'.buckets[b]? = some w →
    ∀ k, ks.InBucket b k → (c'.stores w).get k = (c.stores w).get k

/-- Reading a backend by state key or by raw key of the bucket is the same when it holds state keys only. -/
theorem forall_inBucket_iff {b b' : Backend} (hb : WellKeyed ks b) (hb' : WellKeyed ks b') {i : Nat}
    (hi : i < ks.numBuckets) : (∀ k, ks.InBucket i k → b.get k = b'.get k) ↔
      ∀ sk, ks.bucketOf sk = i → b.get (ks.encode sk) = b'.get (ks.encode sk) := by
  constructor
  · intro h sk hsk
    exact h _ ((ks.inBucket_encode sk hi).mpr hsk)
  · intro h k hk
    cases hget : b.get k with
    | some v =>
      obtain ⟨sk, rfl⟩ := hb k v hget
      rw [← hget, h sk ((ks.inBucket_encode sk hi).mp hk)]
    | none =>
      cases hget' : b'.get k with
      | none => rfl
      | some v =>
        obtain ⟨sk, rfl⟩ := hb' k v hget'
        rw [← hget', ← h sk ((ks.inBucket_encode sk hi).mp hk), hget]

/-- For one pair of workers: the pull transfers its records and the destination holds no leftover that the
source does not overwrite, or nothing is transferred and the destination's copy is already the source's. -/
def PullExact (ks : KeySpace) (maxChunkSize : Nat) (c : Cluster) (new : List WorkerID) (src dst : WorkerID) :
    Prop :=
  (FirstRecordFits ks maxChunkSize c new src dst ∧
    ∀ b k, c.buckets[b]? = some src → new[b]? = some dst → ks.InBucket b k →
      (c.stores src).get k = none → (c.stores dst).get k = none) ∨
  (¬ FirstRecordFits ks maxChunkSize c new src dst ∧
    ∀ b k, c.buckets[b]? = some src → new[b]? = some dst → ks.InBucket b k →
      (c.stores dst).get k = (c.stores src).get k)

theorem Reachable.exists_rescale (h : Reachable ks maxChunkSize c) {new : List WorkerID}
    (hnew : new.length = ks.numBuckets) {changes : OwnerChanges} (hexact : ExactChanges c.buckets new changes) :
    ∃ c', Rescales ks maxChunkSize c c' ∧ c'.buckets = new := by
  obtain ⟨hlen, hkeyed⟩ := h.wellFormed
  obtain ⟨plan, hplan, -⟩ := generateMigrationPlan_ok hexact
  obtain ⟨stores', hrun, -⟩ := migrateState_get maxChunkSize hkeyed hlen hexact hplan
  exact ⟨⟨new, stores'⟩, ⟨hnew, changes, plan, hexact, hplan, hrun⟩, rfl⟩

variable {c' : Cluster}

theorem Rescales.get (h : Rescales ks maxChunkSize c c') (hc : Reachable ks maxChunkSize c) :
    (∀ src dst sk, c.buckets[ks.bucketOf sk]? = some src → c'.buckets[ks.bucketOf sk]? = some dst →
      src ≠ dst → (c'.stores dst).get (ks.encode sk) = migrated ks maxChunkSize c c'.buckets src dst sk) ∧
    ∀ w sk, (∀ src, c.buckets[ks.bucketOf sk]? = some src → c'.buckets[ks.bucketOf sk]? = some w → src = w) →
      (c'.stores w).get (ks.encode sk) = (c.stores w).get (ks.encode sk) := by
  obtain ⟨hlen, hkeyed⟩ := hc.wellFormed
  obtain ⟨changes, plan, hexact, hplan, hrun⟩ := h.migrates
  obtain ⟨stores', hrun', -, hmoved, hstay⟩ := migrateState_get maxChunkSize hkeyed hlen hexact hplan
  rw [hrun] at hrun'
  cases hrun'
  exact ⟨hmoved, hstay⟩

/-- The old owner of a bucket keeps its pairs, whether the bucket moves or not. -/
theorem Rescales.owner_keeps (h : Rescales ks maxChunkSize c c') (hc : Reachable ks maxChunkSize c) {b : Nat}
    {w : WorkerID} (hold : c.buckets[b]? = some w) {k : Bytes} (hk : ks.InBucket b k) :
    (c'.stores w).get k = (c.stores w).get k := by
  obtain ⟨hlen, hkeyed⟩ := hc.wellFormed
  have hkeyed' := (Reachable.rescale hc h).wellFormed.2
  have hb : b < ks.numBuckets := by
    rw [← hlen]
    exact (List.getElem?_eq_some_iff.mp hold).1
  refine (forall_inBucket_iff (hkeyed' w) (hkeyed w) hb).mpr ?_ k hk
  rintro sk rfl
  refine (h.get hc).2 w sk fun src hsrc _ => ?_
  rw [hold] at hsrc
  exact (Option.some.inj hsrc).symm

/-- The moved buckets of one pair of workers are exact exactly when the pull between them is. -/
theorem Rescales.moved_iff (h : Rescales ks maxChunkSize c c') (hc : Reachable ks maxChunkSize c) {src dst : WorkerID}
    (hne : src ≠ dst) : (∀ b, c.buckets[b]? = some src → c'.buckets[b]? = some dst →
      ∀ k, ks.InBucket b k → (c'.stores dst).get k = (c.stores src).get k) ↔
      PullExact ks maxChunkSize c c'.buckets src dst := by
  obtain ⟨hlen, hkeyed⟩ := hc.wellFormed
  have hkeyed' := (Reachable.rescale hc h).wellFormed.2
  have hlt : ∀ b, c.buckets[b]? = some src → b < ks.numBuckets := by
    intro b hb
    rw [← hlen]
    exact (List.getElem?_eq_some_iff.mp hb).1
  have hget := (h.get hc).1 src dst
  by_cases hfits : FirstRecordFits ks maxChunkSize c c'.buckets src dst
  · -- the records arrive on top of what the destination stores
    have hmigrated : ∀ sk, migrated ks maxChunkSize c c'.buckets src dst sk
        = ((c.stores src).get (ks.encode sk)).or ((c.stores dst).get (ks.encode sk)) :=
      fun sk => if_pos hfits
    constructor
    · intro hexact
      refine Or.inl ⟨hfits, fun b k hold hnew hk hnone => ?_⟩
      cases hleft : (c.stores dst).get k with
      | none => rfl
      | some v =>
        exfalso
        obtain ⟨sk, rfl⟩ := hkeyed dst k v hleft
        obtain rfl := (ks.inBucket_encode sk (hlt b hold)).mp hk
        have hafter := hexact _ hold hnew _ hk
        rw [hget sk hold hnew hne, hmigrated, hnone, hleft] at hafter
        simp at hafter
    · rintro (⟨-, hleft⟩ | ⟨hnot, -⟩) b hold hnew
      · refine (forall_inBucket_iff (hkeyed' dst) (hkeyed src) (hlt b hold)).mpr ?_
        rintro sk rfl
        rw [hget sk hold hnew hne, hmigrated]
        cases hsrc : (c.stores src).get (ks.encode sk) with
        | some v => rw [Option.some_or]
        | none =>
          rw [Option.none_or]
          exact hleft _ _ hold hnew ((ks.inBucket_encode sk (hlt _ hold)).mpr rfl) hsrc
      · exact absurd hfits hnot
  · -- the stream is cut before its first record
    have hmigrated : ∀ sk, migrated ks maxChunkSize c c'.buckets src dst sk
        = (c.stores dst).get (ks.encode sk) :=
      fun sk => if_neg hfits
    constructor
    · intro hexact
      refine Or.inr ⟨hfits, fun b k hold hnew hk => ?_⟩
      refine (forall_inBucket_iff (hkeyed dst) (hkeyed src) (hlt b hold)).mpr ?_ k hk
      rintro sk rfl
      rw [← hexact _ hold hnew _ ((ks.inBucket_encode sk (hlt _ hold)).mpr rfl), hget sk hold hnew hne, hmigrated]
    · rintro (⟨hyes, -⟩ | ⟨-, hsame⟩) b hold hnew
      · exact absurd hyes hfits
      · refine (forall_inBucket_iff (hkeyed' dst) (hkeyed src) (hlt b hold)).mpr ?_
        rintro sk rfl
        rw [hget sk hold hnew hne, hmigrated]
        exact hsame _ _ hold hnew ((ks.inBucket_encode sk (hlt _ hold)).mpr rfl)

/-- Two buckets, told apart by the first byte of the key. -/
def twoBuckets : KeySpace where
  operatorID := 1
  numBuckets := 2
  hash := fun key => (key.headD 0).toNat
  numBuckets_pos := by decide
  numBuckets_le := by decide

/-- A key of bucket 1. -/
def sampleKey : StateKey := ⟨0, [1], []⟩

end StopRestart
end Koala
