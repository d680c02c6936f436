import Koala.LazyByKey.MultiWorkerRead
import Koala.Lib.Machine
import Koala.StateClient.BatchBoundaries

/-!
# Flushing under the lazy by-key protocol

A worker serves batches: it fetches the states of the batch's keys, lets the operator work on them, and flushes
them.  Under the by-key protocol a flush also maintains the key maps of the worker's buckets: keys that are written
get an entry, keys that are deleted lose theirs, and `RemoveKey` kills the process if there is none.

Which keys are deleted is decided by the flags of the cached states.  A state that is cleared is deleted if it *has a
value*, no matter whether the value came from the store or was written in the same batch.  `Agree` says that the key
maps and the stores agree; it is kept by every flush, and while it holds the process dies in `RemoveKey` only for a
key that had no value before the batch and is both written and cleared in it (`flushes_find_keys`).

Where the keys are read from is taken from `LazyByKey.MultiWorkerRead`; here the read is key by key.  Other workers
only serve reads.
-/

namespace Koala
namespace StateClient
namespace ByKey

open Lib Lib.Outcome State Keyby
open Function (update update_self update_of_ne)
open Partition (WorkerID BucketID)
open LazyByKey (location entry Moved)
open Option (bind_some getD_none getD_some isSome_iff_exists)
open KeyLookupTableV2 (getWorkerID removeKey_eq_ok withMap_ne withMap_self)
open Schema (ofDecls)

/-- The worker, the bucket of a serialized key, and the buckets the worker owns. -/
structure Config where
  localWorker : WorkerID
  bucketOf : Bytes → BucketID
  owned : BucketID → Bool

/-- The worker's key maps, and the backends of all workers. -/
structure Store where
  table : KeyLookupTableV2 Bytes
  backends : WorkerID → Backend

inductive Abort where
  | table (e : TableAbort)
  | client (e : StateAbort)
  deriving DecidableEq, Repr

variable (cfg : Config)

/-! ## The state service -/

variable (st : Store)

/-- The location and the value of a key. -/
def lookup (found : List (Bytes × WorkerID × Bytes)) (k : Bytes) :
    Outcome Abort (List (Bytes × WorkerID × Bytes)) := do
  let w ← mapAbort .table (st.table.getWorkerID k (cfg.bucketOf k))
  pure (found ++ [(k, w, ((st.backends w).get k).getD [])])

/-- A key that came from another worker: its value is written to the local backend and its entry moves. -/
def migrate (f : Bytes × WorkerID × Bytes) : Outcome Abort Store :=
  if f.2.1 = cfg.localWorker then pure st
  else do
    let table ← mapAbort .table (st.table.updateKey f.1 (cfg.bucketOf f.1) cfg.localWorker)
    pure ⟨table, update st.backends cfg.localWorker ((st.backends cfg.localWorker).set f.1 f.2.2)⟩

variable (keys : List Bytes)

/-- `GetManyMultiState`, with its background work: the values by key. -/
def getMany : Outcome Abort (Backend × Store) := do
  let found ← forEach keys (lookup cfg st) []
  let st ← forEach found (migrate cfg) st
  pure (found.foldl (fun values f => values.set f.1 f.2.2) ∅, st)

variable (table : KeyLookupTableV2 Bytes)

/-- `insertOrUpdateAddrForLocalKeys`. -/
def insertOrUpdateAddrForLocalKeys : Outcome Abort (KeyLookupTableV2 Bytes) :=
  forEach keys (fun table k => mapAbort .table (table.insertOrUpdateKey k (cfg.bucketOf k) cfg.localWorker)) table

/-- `deleteKeysFromLookupTable`. -/
def deleteKeysFromLookupTable : Outcome Abort (KeyLookupTableV2 Bytes) :=
  forEach keys (fun table k => mapAbort .table (table.removeKey k (cfg.bucketOf k))) table

/-- The local backend after a change. -/
def Store.withLocal (b : Backend) : Store :=
  ⟨table, update st.backends cfg.localWorker b⟩

/-- `SetManyMultiState`. -/
def setMany (st : Store) (pairs : List (Bytes × Bytes)) : Outcome Abort Store := do
  let table ← insertOrUpdateAddrForLocalKeys cfg (pairs.map Prod.fst) st.table
  pure (st.withLocal cfg table ((st.backends cfg.localWorker).setMany pairs))

/-- `MergeManyMultiState`. -/
def mergeMany (st : Store) (pairs : List (Bytes × Bytes)) : Outcome Abort Store := do
  let table ← insertOrUpdateAddrForLocalKeys cfg (pairs.map Prod.fst) st.table
  pure (st.withLocal cfg table ((st.backends cfg.localWorker).mergeMany pairs))

/-- `DeleteMany`. -/
def deleteMany (st : Store) (keys : List Bytes) : Outcome Abort Store := do
  let table ← deleteKeysFromLookupTable cfg keys st.table
  pure (st.withLocal cfg table ((st.backends cfg.localWorker).deleteMany keys))

/-! ## Batches -/

variable {K : Type} [DecidableEq K]

/-- A batch of an operator: what it fetches and what it does. -/
structure Batch (sch : Schema K) where
  request : Request K
  ops : List (UserOp sch)
  /-- The operator works on states it has fetched. -/
  fetched : ∀ op ∈ ops, op.1 ∈ request.slots

variable (sch : Schema K)

/-- The three requests of a flush, in their order. -/
def flushRequests (requests : List (Bytes × Write)) : Outcome Abort Store := do
  let st ← setMany cfg st (requests.filterMap Write.toSet)
  let st ← mergeMany cfg st (requests.filterMap Write.toMerge)
  deleteMany cfg st (requests.filterMap Write.toDelete)

/-- The operator's part of a batch: what it asks to be flushed. -/
def work (allowIncremental : Bool) (values : Backend) (batch : Batch sch) :
    Outcome StateAbort (List (Bytes × Write)) := do
  let cache ← StateClient.fetch sch values batch.request.slots
  let (cache, _) ← forEach batch.ops (userOp sch) (cache, fun _ => [])
  collect sch allowIncremental cache batch.request.slots

/-- One batch.  Only keys of the worker's own buckets come to it. -/
def step (allowIncremental : Bool) (st : Store) (batch : Batch sch) : Outcome Abort Store :=
  if batch.request.slots.any fun s => !cfg.owned (cfg.bucketOf (sch.serializedKey s)) then .stuck
  else do
    let (values, st) ← getMany cfg st (batch.request.slots.map sch.serializedKey)
    let requests ← mapAbort .client (work sch allowIncremental values batch)
    flushRequests cfg st requests

/-! ## Agreement of the key maps and the stores -/

/-- What is stored for a key, at its location. -/
def Store.view (k : Bytes) : Bytes :=
  ((st.backends (location st.table k (cfg.bucketOf k))).get k).getD []

/-- The worker has the key maps of its buckets, and a key has an entry exactly if there is a value for it. -/
structure Agree (st : Store) : Prop where
  owner : ∀ b, cfg.owned b = true → (st.table b).workerID = cfg.localWorker
  maps : ∀ b, cfg.owned b = true → (st.table b).map.isSome
  entries : ∀ k, cfg.owned (cfg.bucketOf k) = true →
    ((entry st.table k (cfg.bucketOf k)).isSome ↔ st.view cfg k ≠ [])

/-! ## Reading -/

section Service

variable {cfg}

variable {st : Store} {k : Bytes}

theorem Agree.location_of_none (h : Agree cfg st) (hk : cfg.owned (cfg.bucketOf k) = true)
    (hnone : entry st.table k (cfg.bucketOf k) = none) :
    location st.table k (cfg.bucketOf k) = cfg.localWorker := by
  obtain ⟨m, hm⟩ := isSome_iff_exists.mp (h.maps _ hk)
  rw [entry, hm, bind_some] at hnone
  rw [location, hm, getD_some, hnone, getD_none, h.owner _ hk]

variable {table : KeyLookupTableV2 Bytes}

theorem location_of_entry {b : BucketID} {w : WorkerID} (h : entry table k b = some w) : location table k b = w := by
  obtain ⟨m, hm, hget⟩ := Option.bind_eq_some_iff.mp h
  rw [location, hm, getD_some, hget, getD_some]

variable {table' : KeyLookupTableV2 Bytes}

theorem location_congr {b : BucketID} (howner : (table' b).workerID = (table b).workerID)
    (hmaps : (table' b).map.isSome = (table b).map.isSome) (hentry : entry table' k b = entry table k b) :
    location table' k b = location table k b := by
  unfold location
  rw [howner]
  unfold entry at hentry
  cases hm : (table b).map with
  | none =>
    rw [hm] at hmaps
    rw [Option.isSome_eq_false_iff.mp hmaps |> Option.isNone_iff_eq_none.mp]
  | some m =>
    rw [hm] at hmaps hentry
    obtain ⟨m', hm'⟩ := isSome_iff_exists.mp hmaps
    rw [hm', bind_some, bind_some] at hentry
    rw [hm', getD_some, getD_some, hentry]

/-- The stores hold the same, whatever has moved. -/
structure Same (cfg : Config) (st st' : Store) : Prop where
  owners : ∀ b, (st'.table b).workerID = (st.table b).workerID
  maps : ∀ b, (st'.table b).map.isSome = (st.table b).map.isSome
  entries : ∀ k, (entry st'.table k (cfg.bucketOf k)).isSome = (entry st.table k (cfg.bucketOf k)).isSome
  view : ∀ k, st'.view cfg k = st.view cfg k

theorem Same.agree {st' : Store} (h : Same cfg st st') (hagree : Agree cfg st) : Agree cfg st' where
  owner b hb := (h.owners b).trans (hagree.owner b hb)
  maps b hb := by rw [h.maps]; exact hagree.maps b hb
  entries k hk := by rw [h.entries, h.view]; exact hagree.entries k hk

/-- A key with its location and its value. -/
def located (cfg : Config) (st : Store) (k : Bytes) : Bytes × WorkerID × Bytes :=
  (k, location st.table k (cfg.bucketOf k), st.view cfg k)

variable {keys : List Bytes}

section

variable (h : Agree cfg st)
include h

theorem forEach_lookup (hkeys : ∀ k ∈ keys, cfg.owned (cfg.bucketOf k) = true) :
    forEach keys (lookup cfg st) [] = .ok (keys.map (located cfg st)) := by
  refine forEach_eq (f := List.map (located cfg st)) fun done k rest hsplit => ?_
  obtain ⟨m, hm⟩ := isSome_iff_exists.mp (h.maps _ (hkeys k (by rw [hsplit]; simp)))
  simp only [lookup, getWorkerID, hm, mapAbort, ok_bind, pure_eq_ok, List.map_append,
    List.map_singleton, located, Store.view, location, getD_some]

theorem migrate_same {st' : Store} (hsame : Same cfg st st') (hk : cfg.owned (cfg.bucketOf k) = true) :
    ∃ st'', migrate cfg st' (located cfg st k) = .ok st'' ∧ Same cfg st st'' := by
  unfold migrate located
  dsimp only
  split_ifs with hlocal
  · exact ⟨st', rfl, hsame⟩
  · have hentry : (entry st.table k (cfg.bucketOf k)).isSome := by
      rw [Option.isSome_iff_ne_none]
      exact fun hnone => hlocal (h.location_of_none hk hnone)
    obtain ⟨table, hupdate, hmoved⟩ := (Moved.refl cfg.localWorker st'.table).step
      (by rw [hsame.entries]; exact hentry : (entry st'.table k (cfg.bucketOf k)).isSome)
    refine ⟨⟨table, update st'.backends cfg.localWorker
      ((st'.backends cfg.localWorker).set k (st.view cfg k))⟩, by rw [hupdate]; rfl, ?_, ?_, ?_, ?_⟩
    · exact fun b => (hmoved.owners b).trans (hsame.owners b)
    · exact fun b => (hmoved.maps b).trans (hsame.maps b)
    · intro k'
      by_cases hk' : k' = k
      · subst hk'
        rw [hmoved.hit _ _ (.inr ⟨rfl, rfl⟩)]
        exact hentry.symm
      · rw [hmoved.miss _ _ fun hself => hself.elim id fun hself => hk' hself.1, hsame.entries]
    · intro k'
      by_cases hk' : k' = k
      · subst hk'
        simp only [Store.view, location_of_entry (hmoved.hit _ _ (.inr ⟨rfl, rfl⟩)), update_self,
          GoMap.get_set_self, getD_some]
      · refine Eq.trans ?_ (hsame.view k')
        have hloc : location table k' (cfg.bucketOf k') = location st'.table k' (cfg.bucketOf k') :=
          location_congr (hmoved.owners _) (hmoved.maps _)
            (hmoved.miss _ _ fun hself => hself.elim id fun hself => hk' hself.1)
        simp only [Store.view, hloc]
        by_cases hw : location st'.table k' (cfg.bucketOf k') = cfg.localWorker
        · rw [hw, update_self, GoMap.get_set_ne _ _ hk']
        · rw [update_of_ne hw]

/-- **A read** returns what is stored for its keys and changes nothing of it. -/
theorem getMany_ok (hnodup : keys.Nodup) (hkeys : ∀ k ∈ keys, cfg.owned (cfg.bucketOf k) = true) :
    ∃ values st', getMany cfg st keys = .ok (values, st') ∧ Same cfg st st' ∧
      ∀ k ∈ keys, values.get k = some (st.view cfg k) := by
  have hmigrate : ∃ st', forEach (keys.map (located cfg st)) (migrate cfg) st = .ok st' ∧ Same cfg st st' := by
    refine forEach_total (fun _ st' => Same cfg st st') ⟨fun _ => rfl, fun _ => rfl, fun _ => rfl, fun _ => rfl⟩ ?_
    intro done f rest st' hsplit hsame
    have hf : f ∈ keys.map (located cfg st) := by rw [hsplit]; simp
    obtain ⟨k, hk, rfl⟩ := List.mem_map.mp hf
    exact migrate_same h hsame (hkeys k hk)
  obtain ⟨st', hrun, hsame⟩ := hmigrate
  refine ⟨(keys.map (located cfg st)).foldl (fun values f => values.set f.1 f.2.2) ∅, st', ?_, hsame, fun k hk => ?_⟩
  · rw [getMany, forEach_lookup h hkeys, ok_bind, hrun, ok_bind]
    rfl
  · have hkeys' : ((keys.map (located cfg st)).map Prod.fst).Nodup := by
      rw [List.map_map]
      exact (List.map_id keys).symm ▸ hnodup
    exact GoMap.get_foldl_set Prod.fst (fun f : Bytes × WorkerID × Bytes => f.2.2) _ hkeys' ∅ (located cfg st k)
      (List.mem_map_of_mem hk)

/-! ## Writing -/

theorem insertOrUpdateAddr_ok (keys : List Bytes) (hkeys : ∀ k ∈ keys, cfg.owned (cfg.bucketOf k) = true) :
    ∃ table', insertOrUpdateAddrForLocalKeys cfg keys st.table = .ok table' ∧
      Moved cfg.localWorker (fun k b => k ∈ keys ∧ b = cfg.bucketOf k) st.table table' := by
  induction keys using List.reverseRecOn with
  | nil =>
    refine ⟨st.table, rfl, ?_⟩
    simp only [List.not_mem_nil, false_and]
    exact Moved.refl cfg.localWorker st.table
  | append_singleton keys k ih =>
    obtain ⟨table', hrun, hmoved⟩ := ih fun k' hk' => hkeys k' (List.mem_append_left _ hk')
    have hmap : (table' (cfg.bucketOf k)).map.isSome := by
      rw [hmoved.maps]
      exact h.maps _ (hkeys k (by simp))
    obtain ⟨m, hm⟩ := isSome_iff_exists.mp hmap
    refine ⟨table'.withMap (cfg.bucketOf k) (m.set k cfg.localWorker), ?_, ?_⟩
    · unfold insertOrUpdateAddrForLocalKeys at hrun ⊢
      have hlast : table'.insertOrUpdateKey k (cfg.bucketOf k) cfg.localWorker
          = .ok (table'.withMap (cfg.bucketOf k) (m.set k cfg.localWorker)) :=
        KeyLookupTableV2.insertOrUpdateKey_eq_ok.mpr ⟨m, hm, rfl⟩
      rw [forEach_append, hrun, ok_bind, forEach_cons, hlast]
      rfl
    · have hiff : (fun k' b => k' ∈ keys ++ [k] ∧ b = cfg.bucketOf k')
          = fun k' b => (k' ∈ keys ∧ b = cfg.bucketOf k') ∨ (k' = k ∧ b = cfg.bucketOf k) := by
        funext k' b
        rw [List.mem_append, List.mem_singleton, or_and_right]
        refine propext (or_congr_right (and_congr_right fun heq => ?_))
        rw [heq]
      rw [hiff]
      exact hmoved.withMap hm k

theorem Agree.written
    (hmoved : Moved cfg.localWorker (fun k b => k ∈ keys ∧ b = cfg.bucketOf k) st.table table') {b : Backend}
    (hhit : ∀ k ∈ keys, (b.get k).getD [] ≠ [])
    (hmiss : ∀ k, k ∉ keys → b.get k = (st.backends cfg.localWorker).get k) :
    Agree cfg (st.withLocal cfg table' b) where
  owner b' hb' := (hmoved.owners b').trans (h.owner b' hb')
  maps b' hb' := by
    show (table' b').map.isSome
    rw [hmoved.maps]
    exact h.maps b' hb'
  entries k hk := by
    by_cases hin : k ∈ keys
    · have hentry := hmoved.hit k (cfg.bucketOf k) ⟨hin, rfl⟩
      have hview : (st.withLocal cfg table' b).view cfg k = (b.get k).getD [] := by
        simp only [Store.view, Store.withLocal, location_of_entry hentry, update_self]
      rw [hview]
      exact iff_of_true (by simp only [Store.withLocal, hentry, Option.isSome_some]) (hhit k hin)
    · have hentry := hmoved.miss k (cfg.bucketOf k) fun hboth => hin hboth.1
      have hview : (st.withLocal cfg table' b).view cfg k = st.view cfg k := by
        have hloc := location_congr (hmoved.owners _) (hmoved.maps _) hentry
        simp only [Store.view, Store.withLocal, hloc]
        by_cases hw : location st.table k (cfg.bucketOf k) = cfg.localWorker
        · rw [hw, update_self, hmiss k hin]
        · rw [update_of_ne hw]
      rw [hview]
      simp only [Store.withLocal, hentry]
      exact h.entries k hk

end

variable {pairs : List (Bytes × Bytes)}

theorem foldl_set_ne_nil (hne : pairs ≠ []) (hvalues : ∀ p ∈ pairs, p.2 ≠ []) (v : Option Bytes) :
    (pairs.foldl (fun _ p => some p.2) v).getD [] ≠ [] := by
  obtain ⟨pairs, p, rfl⟩ := List.eq_nil_or_concat pairs |>.resolve_left hne
  rw [List.concat_eq_append, List.foldl_append]
  exact hvalues p (by simp)

theorem foldl_merge_ne_nil (hne : pairs ≠ []) (hvalues : ∀ p ∈ pairs, p.2 ≠ []) (v : Option Bytes) :
    (pairs.foldl (fun v p => some (v.getD [] ++ p.2)) v).getD [] ≠ [] := by
  obtain ⟨pairs, p, rfl⟩ := List.eq_nil_or_concat pairs |>.resolve_left hne
  rw [List.concat_eq_append, List.foldl_append]
  exact fun hnil => hvalues p (by simp) (List.append_eq_nil_iff.mp hnil).2

theorem filter_key_ne_nil (hk : k ∈ pairs.map Prod.fst) : (pairs.filter fun p => decide (p.1 = k)) ≠ [] := by
  obtain ⟨p, hp, rfl⟩ := List.mem_map.mp hk
  exact List.ne_nil_of_mem (List.mem_filter.mpr ⟨hp, by simp⟩)

theorem filter_key_eq_nil (hk : k ∉ pairs.map Prod.fst) : (pairs.filter fun p => decide (p.1 = k)) = [] := by
  refine List.filter_eq_nil_iff.mpr fun p hp => ?_
  have hne : p.1 ≠ k := fun heq => hk (heq ▸ List.mem_map_of_mem hp)
  simpa using hne

/-- **`SetManyMultiState`** keeps the agreement. -/
theorem setMany_ok (h : Agree cfg st) (hkeys : ∀ p ∈ pairs, cfg.owned (cfg.bucketOf p.1) = true)
    (hvalues : ∀ p ∈ pairs, p.2 ≠ []) :
    ∃ st', setMany cfg st pairs = .ok st' ∧ Agree cfg st' ∧
      ∀ k, k ∉ pairs.map Prod.fst → entry st'.table k (cfg.bucketOf k) = entry st.table k (cfg.bucketOf k) := by
  obtain ⟨table', hrun, hmoved⟩ := insertOrUpdateAddr_ok h (pairs.map Prod.fst) (by simpa using hkeys)
  refine ⟨st.withLocal cfg table' ((st.backends cfg.localWorker).setMany pairs), ?_, h.written hmoved ?_ ?_,
    fun k hk => hmoved.miss k _ fun hboth => hk hboth.1⟩
  · rw [setMany, hrun, ok_bind]
    rfl
  · intro k hk
    rw [Backend.get_setMany_eq_foldl]
    exact foldl_set_ne_nil (filter_key_ne_nil hk) (fun p hp => hvalues p (List.mem_filter.mp hp).1) _
  · intro k hk
    rw [Backend.get_setMany_eq_foldl, filter_key_eq_nil hk, List.foldl_nil]

/-- **`MergeManyMultiState`** keeps the agreement. -/
theorem mergeMany_ok (h : Agree cfg st) (hkeys : ∀ p ∈ pairs, cfg.owned (cfg.bucketOf p.1) = true)
    (hvalues : ∀ p ∈ pairs, p.2 ≠ []) :
    ∃ st', mergeMany cfg st pairs = .ok st' ∧ Agree cfg st' ∧
      ∀ k, k ∉ pairs.map Prod.fst → entry st'.table k (cfg.bucketOf k) = entry st.table k (cfg.bucketOf k) := by
  obtain ⟨table', hrun, hmoved⟩ := insertOrUpdateAddr_ok h (pairs.map Prod.fst) (by simpa using hkeys)
  refine ⟨st.withLocal cfg table' ((st.backends cfg.localWorker).mergeMany pairs), ?_, h.written hmoved ?_ ?_,
    fun k hk => hmoved.miss k _ fun hboth => hk hboth.1⟩
  · rw [mergeMany, hrun, ok_bind]
    rfl
  · intro k hk
    rw [Backend.get_mergeMany_eq_foldl]
    exact foldl_merge_ne_nil (filter_key_ne_nil hk) (fun p hp => hvalues p (List.mem_filter.mp hp).1) _
  · intro k hk
    rw [Backend.get_mergeMany_eq_foldl, filter_key_eq_nil hk, List.foldl_nil]

/-! ## Deleting -/

/-- The entries of some keys are gone, and no others. -/
structure Removed (cfg : Config) (keys : List Bytes) (table table' : KeyLookupTableV2 Bytes) : Prop where
  owners : ∀ b, (table' b).workerID = (table b).workerID
  maps : ∀ b, (table' b).map.isSome = (table b).map.isSome
  hit : ∀ k ∈ keys, entry table' k (cfg.bucketOf k) = none
  miss : ∀ k, k ∉ keys → entry table' k (cfg.bucketOf k) = entry table k (cfg.bucketOf k)

/-- `RemoveKey` of a key that has an entry. -/
theorem removeKey_ok (hentry : (entry table k (cfg.bucketOf k)).isSome) :
    ∃ table', table.removeKey k (cfg.bucketOf k) = .ok table' ∧ Removed cfg [k] table table' := by
  obtain ⟨w, hw⟩ := isSome_iff_exists.mp hentry
  obtain ⟨m, hm, hget⟩ := Option.bind_eq_some_iff.mp hw
  refine ⟨table.withMap (cfg.bucketOf k) (m.delete k),
    removeKey_eq_ok.mpr ⟨m, hm, by rw [hget]; rfl, rfl⟩, fun b => ?_, fun b => ?_, ?_, ?_⟩
  · by_cases hb : b = cfg.bucketOf k
    · rw [hb, withMap_self]
    · rw [withMap_ne _ _ hb]
  · by_cases hb : b = cfg.bucketOf k
    · rw [hb, withMap_self, hm]
      rfl
    · rw [withMap_ne _ _ hb]
  · intro k' hk'
    rw [List.mem_singleton.mp hk', entry, withMap_self, bind_some, GoMap.get_delete_self]
  · intro k' hk'
    have hne : k' ≠ k := fun heq => hk' (List.mem_singleton.mpr heq)
    by_cases hb : cfg.bucketOf k' = cfg.bucketOf k
    · rw [entry, entry, hb, withMap_self, hm, bind_some, bind_some, GoMap.get_delete, if_neg hne]
    · rw [entry, entry, withMap_ne _ _ hb]

theorem deleteKeysFromLookupTable_ok (hnodup : keys.Nodup)
    (hentries : ∀ k ∈ keys, (entry table k (cfg.bucketOf k)).isSome) :
    ∃ table', deleteKeysFromLookupTable cfg keys table = .ok table' ∧ Removed cfg keys table table' := by
  induction keys generalizing table with
  | nil => exact ⟨table, rfl, fun _ => rfl, fun _ => rfl, nofun, fun _ _ => rfl⟩
  | cons k keys ih =>
    obtain ⟨hfresh, hnodup⟩ := List.nodup_cons.mp hnodup
    obtain ⟨hentry, hentries⟩ := List.forall_mem_cons.mp hentries
    obtain ⟨table₁, hfirst, hone⟩ := removeKey_ok hentry
    obtain ⟨table₂, hrest, hmore⟩ := ih hnodup fun k' hk' => by
      rw [hone.miss k' (by rw [List.mem_singleton]; exact fun heq => hfresh (heq ▸ hk'))]
      exact hentries k' hk'
    refine ⟨table₂, ?_, fun b => (hmore.owners b).trans (hone.owners b),
      fun b => (hmore.maps b).trans (hone.maps b), ?_, ?_⟩
    · unfold deleteKeysFromLookupTable at hrest ⊢
      rw [forEach_cons, hfirst]
      exact hrest
    · intro k' hk'
      rcases List.mem_cons.mp hk' with rfl | hin
      · rw [hmore.miss k' hfresh]
        exact hone.hit k' (List.mem_singleton.mpr rfl)
      · exact hmore.hit k' hin
    · intro k' hk'
      rw [List.mem_cons, not_or] at hk'
      rw [hmore.miss k' hk'.2, hone.miss k' (by rw [List.mem_singleton]; exact hk'.1)]

theorem entry_of_deleteKeys (h : deleteKeysFromLookupTable cfg keys table = .ok table') (hk : k ∈ keys) :
    (entry table k (cfg.bucketOf k)).isSome := by
  induction keys generalizing table with
  | nil => cases hk
  | cons k₁ keys ih =>
    unfold deleteKeysFromLookupTable at h
    rw [forEach_cons] at h
    obtain ⟨table₁, hfirst, hrest⟩ := bind_eq_ok.mp h
    obtain ⟨m, hm, hget, -⟩ := removeKey_eq_ok.mp (mapAbort_eq_ok.mp hfirst)
    have hentry : (entry table k₁ (cfg.bucketOf k₁)).isSome := by rwa [entry, hm, bind_some]
    by_cases heq : k = k₁
    · rw [heq]
      exact hentry
    · obtain ⟨table₂, hremove, hone⟩ := removeKey_ok hentry
      obtain rfl : table₁ = table₂ := ok.inj ((mapAbort_eq_ok.mp hfirst).symm.trans hremove)
      rw [← hone.miss k (by rwa [List.mem_singleton])]
      exact ih hrest ((List.mem_cons.mp hk).resolve_left heq)

/-- **`DeleteMany`** of keys that all have entries keeps the agreement. -/
theorem deleteMany_ok (h : Agree cfg st) (hnodup : keys.Nodup)
    (hentries : ∀ k ∈ keys, (entry st.table k (cfg.bucketOf k)).isSome) :
    ∃ st', deleteMany cfg st keys = .ok st' ∧ Agree cfg st' := by
  obtain ⟨table', hrun, hremoved⟩ := deleteKeysFromLookupTable_ok hnodup hentries
  have howner : ∀ b, cfg.owned b = true → (table' b).workerID = cfg.localWorker :=
    fun b hb => (hremoved.owners b).trans (h.owner b hb)
  have hmaps : ∀ b, cfg.owned b = true → (table' b).map.isSome := fun b hb => by
    rw [hremoved.maps]
    exact h.maps b hb
  refine ⟨st.withLocal cfg table' ((st.backends cfg.localWorker).deleteMany keys), ?_, howner, hmaps, fun k hk => ?_⟩
  · rw [deleteMany, hrun, ok_bind]
    rfl
  · by_cases hin : k ∈ keys
    · -- a deleted key is at its owner, which is this worker and has nothing for it
      obtain ⟨m, hm⟩ := isSome_iff_exists.mp (hmaps _ hk)
      have hentry := hremoved.hit k hin
      have hget : m.get k = none := by rwa [entry, hm, bind_some] at hentry
      have hloc : location table' k (cfg.bucketOf k) = cfg.localWorker := by
        rw [location, hm, getD_some, hget, getD_none, howner _ hk]
      simp only [Store.view, Store.withLocal, hentry, hloc, update_self, Backend.get_deleteMany, if_pos hin,
        Option.isSome_none, getD_none, Bool.false_eq_true, ne_eq, not_true_eq_false]
    · have hentry := hremoved.miss k hin
      have hview : (st.withLocal cfg table' ((st.backends cfg.localWorker).deleteMany keys)).view cfg k
          = st.view cfg k := by
        have hloc := location_congr (hremoved.owners _) (hremoved.maps _) hentry
        simp only [Store.view, Store.withLocal, hloc]
        by_cases hw : location st.table k (cfg.bucketOf k) = cfg.localWorker
        · rw [hw, update_self, Backend.get_deleteMany, if_neg hin]
        · rw [update_of_ne hw]
      rw [hview]
      simp only [Store.withLocal, hentry]
      exact h.entries k hk

end Service

/-! ## What is flushed -/

section Flags

variable {d : StateDecl}

variable {v : d.type.State}

theorem deserializeValue_flags {stored : Option Bytes} (h : deserializeValue d.type stored = .ok v) :
    (d.type.hasValue v = true ↔ stored.getD [] ≠ []) ∧ d.type.isDeleted v = false := by
  unfold deserializeValue at h
  cases hbytes : stored.getD [] with
  | nil =>
    rw [hbytes] at h
    cases h
    cases d <;> exact ⟨by simp [ValueState.new, ListState.new], rfl⟩
  | cons byte bytes =>
    rw [hbytes] at h
    have hne : byte :: bytes ≠ [] := List.cons_ne_nil _ _
    cases d with
    | value V codec =>
      simp only [ValueState.deserialize] at h
      split at h
      · cases h
        exact ⟨iff_of_true rfl hne, rfl⟩
      · cases h
    | list V codec =>
      obtain ⟨vs, -, hv⟩ := bind_eq_ok.mp h
      cases hv
      exact ⟨iff_of_true rfl hne, rfl⟩

theorem ValueState.slotOps_flags {V : Type} (codec : Codec V) (ops : List (ValueOp V)) (v : ValueState V) :
    (slotOps (valueState codec) v ops).1.hasValue
        = (v.hasValue || decide (∃ e ∈ ops.map ValueOp.effect, e.IsWrite)) ∧
      (slotOps (valueState codec) v ops).1.deleted
        = (v.deleted || decide (∃ e ∈ ops.map ValueOp.effect, e.IsClear)) := by
  induction ops generalizing v with
  | nil => simp [slotOps]
  | cons op ops ih =>
    rw [slotOps]
    obtain ⟨hvalue, hdeleted⟩ := ih (ValueState.apply op v)
    refine ⟨hvalue.trans ?_, hdeleted.trans ?_⟩
    · cases op <;> simp [ValueState.apply, ValueOp.effect]
    · cases op <;> simp [ValueState.apply, ValueOp.effect]

/-- A state has a value after some operations if it had one or was written, and is deleted if it was cleared. -/
theorem slotOps_flags (v : d.type.State) (ops : List d.type.Op) :
    d.type.hasValue (slotOps d.type v ops).1
        = (d.type.hasValue v || decide (∃ e ∈ ops.map d.effect, e.IsWrite)) ∧
      d.type.isDeleted (slotOps d.type v ops).1
        = (d.type.isDeleted v || decide (∃ e ∈ ops.map d.effect, e.IsClear)) := by
  cases d with
  | value V codec => exact ValueState.slotOps_flags codec ops v
  | list V codec =>
    rw [ListState.slotOps_spec codec ops v]
    exact ⟨rfl, rfl⟩

theorem flushData_delete {allowIncremental : Bool} {t : StateType} {v : t.State} {request : Option Write}
    (h : flushData allowIncremental t v = .ok request) :
    request = some .delete ↔ t.hasValue v = true ∧ t.isDeleted v = true := by
  unfold flushData at h
  split_ifs at h with hvalue hdeleted hset happend
  · cases h
    exact iff_of_false nofun fun hboth => by simp [hboth.1] at hvalue
  · cases h
    exact iff_of_true rfl ⟨by simpa using hvalue, hdeleted⟩
  · obtain ⟨bytes, -, hbytes⟩ := bind_eq_ok.mp h
    cases hbytes
    exact iff_of_false nofun fun hboth => hdeleted hboth.2
  · obtain ⟨bytes, -, hbytes⟩ := bind_eq_ok.mp h
    cases hbytes
    exact iff_of_false nofun fun hboth => hdeleted hboth.2
  · cases h
    exact iff_of_false nofun fun hboth => hdeleted hboth.2

theorem serialize_ne_nil {bytes : Bytes} (h : d.type.serialize v = .ok bytes ∨ d.type.serializeInc v = .ok bytes) :
    bytes ≠ [] := by
  have hlist : ∀ {V : Type} (codec : Codec V) (idx : Nat) (s : ListState V),
      ListState.serializeFromIndex codec idx s = .ok bytes → bytes ≠ [] := by
    intro V codec idx s hs hnil
    unfold ListState.serializeFromIndex at hs
    split_ifs at hs with hidx
    · cases hs
      cases hdrop : s.state.drop idx with
      | nil => exact hidx (List.drop_eq_nil_iff.mp hdrop)
      | cons v vs =>
        rw [hdrop, List.flatMap_cons] at hnil
        exact (List.ne_nil_of_length_pos (codec.marshal_pos v)) (List.append_eq_nil_iff.mp hnil).1
  cases d with
  | value V codec =>
    rcases h with h | h
    · simp only [ValueState.serialize] at h
      split at h
      · cases h
        exact List.ne_nil_of_length_pos (codec.marshal_pos _)
      · cases h
    · cases h
  | list V codec =>
    rcases h with h | h
    · exact hlist codec _ _ h
    · exact hlist codec _ _ h

theorem flushData_ne_nil {allowIncremental : Bool} {bytes : Bytes}
    (h : flushData allowIncremental d.type v = .ok (some (.set bytes)) ∨ flushData allowIncremental d.type v = .ok (some (.merge bytes))) :
    bytes ≠ [] := by
  unfold flushData at h
  split_ifs at h with hvalue hdeleted hset happend
  · simp at h
  · simp at h
  · rcases h with h | h
    · obtain ⟨bytes', hbytes, heq⟩ := bind_eq_ok.mp h
      cases heq
      exact serialize_ne_nil (.inl hbytes)
    · obtain ⟨bytes', hbytes, heq⟩ := bind_eq_ok.mp h
      cases heq
  · rcases h with h | h
    · obtain ⟨bytes', hbytes, heq⟩ := bind_eq_ok.mp h
      cases heq
    · obtain ⟨bytes', hbytes, heq⟩ := bind_eq_ok.mp h
      cases heq
      exact serialize_ne_nil (.inr hbytes)
  · simp at h

end Flags

/-! ## Runs of batches -/

section Runs

variable {cfg : Config} {sch : Schema K}

variable {requests : List (Bytes × Write)} {allowIncremental : Bool}

theorem work_spec {values : Backend} {batch : Batch sch}
    (h : work sch allowIncremental values batch = .ok requests) :
    ∃ (value : (s : Slot K) → (sch.typeOf s).State) (request : Slot K → Option Write),
      (∀ s ∈ batch.request.slots, deserializeValue (sch.typeOf s) (values.get (sch.serializedKey s)) = .ok (value s)) ∧
      (∀ s ∈ batch.request.slots, flushData allowIncremental (sch.typeOf s)
        (slotOps (sch.typeOf s) (value s) (opsAt sch s batch.ops)).1 = .ok (request s)) ∧
      requests = requestsOf sch request batch.request.slots := by
  obtain ⟨cache, hfetch, h⟩ := bind_eq_ok.mp h
  have hvalue : ∀ s, ∃ v, s ∈ batch.request.slots →
      deserializeValue (sch.typeOf s) (values.get (sch.serializedKey s)) = .ok v := by
    intro s
    by_cases hs : s ∈ batch.request.slots
    · obtain ⟨before, after, hone⟩ := forEach_mem_ok hfetch hs
      obtain ⟨v, hv, -⟩ := bind_eq_ok.mp hone
      exact ⟨v, fun _ => hv⟩
    · exact ⟨(sch.typeOf s).new, fun hin => absurd hin hs⟩
  choose value hvalue using hvalue
  obtain ⟨cache₁, hfetch₁, hcache⟩ := fetch_spec hvalue
  obtain rfl : cache = cache₁ := ok.inj (hfetch.symm.trans hfetch₁)
  obtain ⟨cache', answers, hops, hslots, -⟩ := userOps_spec batch.ops cache (fun _ => []) fun op hop => by
    rw [hcache op.1 (batch.fetched op hop)]
    rfl
  rw [hops, ok_bind] at h
  dsimp only at h
  have hrequest : ∀ s, ∃ r, s ∈ batch.request.slots → flushData allowIncremental (sch.typeOf s)
      (slotOps (sch.typeOf s) (value s) (opsAt sch s batch.ops)).1 = .ok r := by
    intro s
    by_cases hs : s ∈ batch.request.slots
    · obtain ⟨before, after, hone⟩ := forEach_mem_ok h hs
      rw [collectSlot, (hslots s _ (hcache s hs)).1] at hone
      obtain ⟨r, hr, -⟩ := bind_eq_ok.mp hone
      exact ⟨r, fun _ => hr⟩
    · exact ⟨none, fun hin => absurd hin hs⟩
  choose request hrequest using hrequest
  refine ⟨value, request, hvalue, hrequest, ?_⟩
  have hcollect := collect_spec (fun s hs => (hslots s _ (hcache s hs)).1) hrequest
  exact ok.inj (h.symm.trans hcollect)

variable (cfg) {decl : Nat → StateDecl} {key : Slot K → Bytes} {hkey : Function.Injective key}

/-- No state without a stored value is both written and cleared in the batch. -/
def Careful (st : Store) (batch : Batch (ofDecls decl key hkey)) : Prop :=
  ∀ s ∈ batch.request.slots, st.view cfg (key s) = [] →
    ¬ ((∃ e ∈ effectsAt decl key hkey s batch.ops, e.IsWrite) ∧ ∃ e ∈ effectsAt decl key hkey s batch.ops, e.IsClear)

variable {cfg}

variable {st : Store}

/-- The requests of a batch: no value is empty, and all that is deleted has an entry exactly if the batch is
careful. -/
theorem work_requests (hagree : Agree cfg st) {values : Backend} {batch : Batch (ofDecls decl key hkey)}
    (howned : ∀ s ∈ batch.request.slots, cfg.owned (cfg.bucketOf (key s)) = true)
    (hvalues : ∀ s ∈ batch.request.slots, values.get (key s) = some (st.view cfg (key s)))
    (h : work (ofDecls decl key hkey) allowIncremental values batch = .ok requests) :
    (requests.map Prod.fst).Nodup ∧ (∀ r ∈ requests, cfg.owned (cfg.bucketOf r.1) = true) ∧
      (∀ k bytes, (k, .set bytes) ∈ requests → bytes ≠ []) ∧ (∀ k bytes, (k, .merge bytes) ∈ requests → bytes ≠ []) ∧
      (Careful cfg st batch ↔ ∀ k, (k, .delete) ∈ requests → (entry st.table k (cfg.bucketOf k)).isSome) := by
  obtain ⟨value, request, hvalue, hrequest, rfl⟩ := work_spec h
  have hmem : ∀ r ∈ requestsOf (ofDecls decl key hkey) request batch.request.slots,
      ∃ s ∈ batch.request.slots, key s = r.1 ∧ request s = some r.2 := by
    intro r hr
    obtain ⟨s, hs, hsome⟩ := List.mem_filterMap.mp hr
    obtain ⟨w, hw, rfl⟩ := Option.map_eq_some_iff.mp hsome
    exact ⟨s, hs, rfl, hw⟩
  -- a state is deleted exactly if it was cleared, and stored or written
  have hdelete : ∀ s ∈ batch.request.slots, request s = some .delete ↔
      (st.view cfg (key s) ≠ [] ∨ ∃ e ∈ effectsAt decl key hkey s batch.ops, e.IsWrite) ∧
        ∃ e ∈ effectsAt decl key hkey s batch.ops, e.IsClear := by
    intro s hs
    obtain ⟨hfetched, hfresh⟩ := deserializeValue_flags (d := decl s.stateID) (hvalue s hs)
    obtain ⟨hflag, hclear⟩ := slotOps_flags (d := decl s.stateID) (value s)
      (opsAt (ofDecls decl key hkey) s batch.ops)
    have hstored : values.get ((ofDecls decl key hkey).serializedKey s) = some (st.view cfg (key s)) :=
      hvalues s hs
    rw [hstored, getD_some] at hfetched
    rw [hfresh, Bool.false_or] at hclear
    have hiff := flushData_delete (hrequest s hs)
    rw [hiff, ← hfetched]
    exact and_congr (by rw [hflag, Bool.or_eq_true, decide_eq_true_eq]; rfl)
      (by rw [hclear, decide_eq_true_eq]; rfl)
  refine ⟨requestsOf_nodup request batch.request.slots_nodup, ?_, ?_, ?_, ?_, ?_⟩
  · intro r hr
    obtain ⟨s, hs, hkey', -⟩ := hmem r hr
    rw [← hkey']
    exact howned s hs
  · intro k bytes hr
    obtain ⟨s, hs, -, hw⟩ := hmem _ hr
    exact flushData_ne_nil (.inl (hw ▸ hrequest s hs))
  · intro k bytes hr
    obtain ⟨s, hs, -, hw⟩ := hmem _ hr
    exact flushData_ne_nil (.inr (hw ▸ hrequest s hs))
  · intro hcareful k hr
    obtain ⟨s, hs, rfl, hw⟩ := hmem _ hr
    obtain ⟨hhas, hcleared⟩ := (hdelete s hs).mp hw
    refine (hagree.entries _ (howned s hs)).mpr fun hnil => ?_
    exact hcareful s hs hnil ⟨hhas.resolve_left fun hne => hne hnil, hcleared⟩
  · rintro hentries s hs hnil ⟨hwritten, hcleared⟩
    have hw := (hdelete s hs).mpr ⟨.inr hwritten, hcleared⟩
    have hin : (key s, .delete) ∈ requestsOf (ofDecls decl key hkey) request batch.request.slots :=
      (mem_requestsOf request hs).mpr hw
    exact (hagree.entries _ (howned s hs)).mp (hentries (key s) hin) hnil

theorem toDelete_nodup (h : (requests.map Prod.fst).Nodup) : (requests.filterMap Write.toDelete).Nodup := by
  refine (List.Nodup.of_map _ h).filterMap ?_
  rintro ⟨k, w⟩ ⟨k', w'⟩ k'' hk hk'
  cases w <;> cases hk
  cases w' <;> cases hk'
  rfl

/-- The three requests of a flush: they go through exactly if all that is deleted has an entry. -/
theorem flushRequests_ok (h : Agree cfg st) (hnodup : (requests.map Prod.fst).Nodup)
    (howned : ∀ r ∈ requests, cfg.owned (cfg.bucketOf r.1) = true)
    (hsets : ∀ k bytes, (k, .set bytes) ∈ requests → bytes ≠ [])
    (hmerges : ∀ k bytes, (k, .merge bytes) ∈ requests → bytes ≠ []) :
    ((∀ k, (k, .delete) ∈ requests → (entry st.table k (cfg.bucketOf k)).isSome) →
      ∃ st', flushRequests cfg st requests = .ok st' ∧ Agree cfg st') ∧
    ∀ st', flushRequests cfg st requests = .ok st' →
      ∀ k, (k, .delete) ∈ requests → (entry st.table k (cfg.bucketOf k)).isSome := by
  obtain ⟨st₁, hset, hagree₁, hmiss₁⟩ := setMany_ok h
    (fun p hp => howned _ (Write.mem_toSet.mp hp)) (fun p hp => hsets p.1 p.2 (Write.mem_toSet.mp hp))
  obtain ⟨st₂, hmerge, hagree₂, hmiss₂⟩ := mergeMany_ok hagree₁
    (fun p hp => howned _ (Write.mem_toMerge.mp hp)) (fun p hp => hmerges p.1 p.2 (Write.mem_toMerge.mp hp))
  -- keys are flushed once, so the writes have not touched the entries of what is deleted
  have hsame : ∀ k, (k, .delete) ∈ requests →
      entry st₂.table k (cfg.bucketOf k) = entry st.table k (cfg.bucketOf k) := by
    intro k hk
    rw [hmiss₂ k, hmiss₁ k]
    · rintro hin
      obtain ⟨p, hp, rfl⟩ := List.mem_map.mp hin
      have hw := List.inj_on_of_nodup_map hnodup hk (Write.mem_toSet.mp hp) rfl
      cases hw
    · rintro hin
      obtain ⟨p, hp, rfl⟩ := List.mem_map.mp hin
      have hw := List.inj_on_of_nodup_map hnodup hk (Write.mem_toMerge.mp hp) rfl
      cases hw
  rw [flushRequests, hset, ok_bind, hmerge, ok_bind]
  refine ⟨fun hentries => ?_, fun st' hdelete k hk => ?_⟩
  · refine deleteMany_ok hagree₂ (toDelete_nodup hnodup) fun k hk => ?_
    rw [hsame k (Write.mem_toDelete.mp hk)]
    exact hentries k (Write.mem_toDelete.mp hk)
  · obtain ⟨table', htable, -⟩ := bind_eq_ok.mp hdelete
    rw [← hsame k hk]
    exact entry_of_deleteKeys htable (Write.mem_toDelete.mpr hk)

/-- **One batch**: it goes through only if it is careful, and if it is careful the key maps still agree with the
stores afterwards; what may then go wrong is an operator's state that cannot be decoded or encoded. -/
theorem step_careful (allowIncremental : Bool) (hagree : Agree cfg st) (batch : Batch (ofDecls decl key hkey)) :
    (Careful cfg st batch → match step cfg (ofDecls decl key hkey) allowIncremental st batch with
      | .ok st' => Agree cfg st'
      | .abort (.table _) => False
      | .abort (.client _) | .stuck => True) ∧
    ∀ st', step cfg (ofDecls decl key hkey) allowIncremental st batch = .ok st' → Careful cfg st batch := by
  unfold step
  split_ifs with hany
  · exact ⟨fun _ => trivial, nofun⟩
  · have howned : ∀ s ∈ batch.request.slots, cfg.owned (cfg.bucketOf (key s)) = true := by
      simpa using hany
    have hnodup : (batch.request.slots.map key).Nodup := batch.request.slots_nodup.map hkey
    obtain ⟨values, st₁, hread, hsame, hvalues⟩ := getMany_ok hagree hnodup (by simpa using howned)
    have hread' : getMany cfg st (batch.request.slots.map (ofDecls decl key hkey).serializedKey)
        = .ok (values, st₁) := hread
    rw [hread', ok_bind]
    dsimp only
    cases hwork : work (ofDecls decl key hkey) allowIncremental values batch with
    | abort e => exact ⟨fun _ => trivial, nofun⟩
    | stuck => exact ⟨fun _ => trivial, nofun⟩
    | ok requests =>
      obtain ⟨hkeys, hown, hsets, hmerges, hcareful⟩ := work_requests hagree howned
        (fun s hs => hvalues _ (List.mem_map_of_mem hs)) hwork
      obtain ⟨hgood, hback⟩ := flushRequests_ok (hsame.agree hagree) hkeys hown hsets hmerges
      simp only [hsame.entries] at hgood hback
      have hflush : (mapAbort Abort.client (.ok requests) >>= flushRequests cfg st₁)
          = flushRequests cfg st₁ requests := rfl
      rw [hflush]
      refine ⟨fun hc => ?_, fun st' hok => hcareful.mpr (hback st' hok)⟩
      obtain ⟨st', hok, hagree'⟩ := hgood (hcareful.mp hc)
      rw [hok]
      exact hagree'

variable (cfg decl key hkey)

/-- The batches of a worker, from key maps and stores that agree. -/
def machine (allowIncremental : Bool) : Machine Store (Batch (ofDecls decl key hkey)) Abort where
  init := Agree cfg
  step := step cfg (ofDecls decl key hkey) allowIncremental

variable {cfg decl key hkey}

/-- **Flushing deletions.**  In every run of batches in which no key without a stored value is both written and
cleared within a batch, the key maps agree with the stores throughout and no batch dies in the key maps, in
particular not in `RemoveKey`.  A batch that does both to such a key never goes through. -/
theorem flushes_find_keys {allowIncremental : Bool} {st : Store}
    (hrun : (machine cfg decl key hkey allowIncremental).Run (Careful cfg) st) :
    Agree cfg st ∧ ∀ batch : Batch (ofDecls decl key hkey),
      (Careful cfg st batch →
        ∀ e, step cfg (ofDecls decl key hkey) allowIncremental st batch ≠ .abort (.table e)) ∧
      ∀ st', step cfg (ofDecls decl key hkey) allowIncremental st batch = .ok st' → Careful cfg st batch := by
  have hagree : Agree cfg st := by
    refine Machine.Run.invariant (Agree cfg) (fun _ h => h) (fun s batch s' _ hs hcareful hstep => ?_) hrun
    have hnext := (step_careful allowIncremental hs batch).1 hcareful
    have hstep' : step cfg (ofDecls decl key hkey) allowIncremental s batch = .ok s' := hstep
    rwa [hstep'] at hnext
  refine ⟨hagree, fun batch => ⟨fun hcareful e habort => ?_, (step_careful allowIncremental hagree batch).2⟩⟩
  have hnext := (step_careful allowIncremental hagree batch).1 hcareful
  rw [habort] at hnext
  exact hnext

end Runs

/-! ## One key with one flag -/

/-- A worker that owns all buckets. -/
def flagConfig : Config := ⟨0, fun _ => 0, fun _ => true⟩

/-- Nothing is stored yet. -/
def flagFresh : Store := ⟨fun _ => ⟨0, some ∅⟩, fun _ => ∅⟩

theorem flagFresh_agree : Agree flagConfig flagFresh where
  owner _ _ := rfl
  maps _ _ := rfl
  entries _ _ := iff_of_false nofun fun h => h rfl

/-- A batch that sets the flag. -/
def flagSet : Batch flagSchema := ⟨flagRequest, [⟨⟨0, ()⟩, .set true⟩], by decide⟩

/-- A batch that clears it. -/
def flagClear : Batch flagSchema := ⟨flagRequest, [⟨⟨0, ()⟩, .clear⟩], by decide⟩

/-- A batch that sets the flag and clears it. -/
def flagSetClear : Batch flagSchema := ⟨flagRequest, [⟨⟨0, ()⟩, .set true⟩, ⟨⟨0, ()⟩, .clear⟩], by decide⟩

theorem flagSet_careful : Careful flagConfig flagFresh flagSet := by
  have hall : ∀ s ∈ flagRequest.slots, s = ⟨0, ()⟩ := by decide
  rintro s hs - ⟨-, e, he, hclear⟩
  obtain rfl := hall s hs
  obtain rfl := List.mem_singleton.mp he
  exact hclear

theorem flagClear_careful (st : Store) : Careful flagConfig st flagClear := by
  have hall : ∀ s ∈ flagRequest.slots, s = ⟨0, ()⟩ := by decide
  rintro s hs - ⟨⟨e, he, hwrite⟩, -⟩
  obtain rfl := hall s hs
  obtain rfl := List.mem_singleton.mp he
  exact hwrite

/-- After a batch that has set the flag, a batch that clears it finds its key. -/
theorem flushes_find_keys_set_clear : ∃ st : Store,
    step flagConfig flagSchema true flagFresh flagSet = .ok st ∧ Agree flagConfig st ∧
      ∀ e, step flagConfig flagSchema true st flagClear ≠ .abort (.table e) := by
  obtain ⟨st, hset⟩ : ∃ st, step flagConfig flagSchema true flagFresh flagSet = .ok st := ⟨_, rfl⟩
  obtain ⟨hagree, hbatch⟩ := flushes_find_keys (.step (.start flagFresh_agree) flagSet_careful hset)
  exact ⟨st, hset, hagree, (hbatch flagClear).1 (flagClear_careful st)⟩

/-- **A key that is created and cleared within one batch** is deleted without ever having had an entry. -/
theorem flushes_lose_new_key :
    step flagConfig flagSchema true flagFresh flagSetClear = .abort (.table (.notFoundOnRemove 0)) := rfl

end ByKey
end StateClient
end Koala
