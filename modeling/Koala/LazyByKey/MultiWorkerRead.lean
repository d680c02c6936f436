import Koala.Keyby.KeyLookupTable
import Koala.State.WorkerReads

/-!
# A batch read whose keys are on several workers

`remoteReadWithByKeyMigration` (`state/lazyByKeyUtil.go`) looks up the location of every key of every state, groups
the keys by location, reads the groups concurrently, and puts the values back in the order of the request.  The
positions that were noted while grouping are used a second time to find the buckets of the keys that came from
other workers, whose table entries now name this worker.

Every map is visited in an order of the runtime's choosing; a `Schedule` holds these orders, and the order in which
the reads finish.  The table and the backends are those at the time of the call: what the background writes of one
read do to the next is the subject of `StoreMachine`.
-/

namespace Koala
namespace LazyByKey

open Lib Lib.Outcome Keyby
open Partition (WorkerID BucketID)
open State (Backend StateLists WorkerLists)

/-- The keys of each state, and the bucket of the keys at each position. -/
structure ReadRequest where
  keys : StateLists
  bucketIDs : List BucketID
  /-- The key lists of all states have the length of the batch. -/
  lengths : ∀ s keyList, keys.get s = some keyList → keyList.length = bucketIDs.length

/-- What the runtime chooses during one read. -/
structure Schedule where
  grouping : VisitOrder UInt16 (List Bytes)
  reading : VisitOrder UInt16 (List Bytes)
  completion : VisitOrder WorkerID StateLists
  mergeWorkers : VisitOrder WorkerID StateLists
  mergeStates : VisitOrder UInt16 (List Bytes)
  updateWorkers : VisitOrder WorkerID StateLists
  updateStates : VisitOrder UInt16 (List Bytes)

/-- Every map in the order of its entries. -/
def Schedule.asListed : Schedule where
  grouping := VisitOrder.asListed _ _
  reading := VisitOrder.asListed _ _
  completion := VisitOrder.asListed _ _
  mergeWorkers := VisitOrder.asListed _ _
  mergeStates := VisitOrder.asListed _ _
  updateWorkers := VisitOrder.asListed _ _
  updateStates := VisitOrder.asListed _ _

inductive ReadAbort where
  /-- Go's run-time panic for an index outside a slice. -/
  | outOfRange
  | table (e : TableAbort)
  deriving DecidableEq, Repr

/-- The positions of the keys of each group in the request. -/
abbrev IndexTracker : Type := NestedMap WorkerID UInt16 (List Nat)

/-! ## The code -/

variable (table : KeyLookupTableV2 Bytes)

/-- The body of the inner loop of `groupKeysByWorker`, for the key at position `item.2.2` of state `item.1`. -/
def groupKey (bucketIDs : List BucketID) (st : WorkerLists × IndexTracker)
    (item : UInt16 × Bytes × Nat) : Outcome ReadAbort (WorkerLists × IndexTracker) :=
  match bucketIDs[item.2.2]? with
  | none => .abort .outOfRange
  | some bucketID => do
    let workerID ← mapAbort .table (table.getWorkerID item.2.1 bucketID)
    pure (st.1.push workerID item.1 item.2.1, st.2.push workerID item.1 item.2.2)

/-- `groupKeysByWorker`. -/
def groupKeysByWorker (order : VisitOrder UInt16 (List Bytes)) (table : KeyLookupTableV2 Bytes)
    (req : ReadRequest) : Outcome ReadAbort (WorkerLists × IndexTracker) :=
  forEach (order.visit req.keys) (fun st e =>
    forEach e.2.zipIdx (fun st item => groupKey table req.bucketIDs st (e.1, item)) st) (∅, ∅)

/-- The body of the innermost loop of `updateAddrForFetchedNeededRemoteKeys`, for a key and its position. -/
def updateFetched (localWorker : WorkerID) (bucketIDs : List BucketID) (table : KeyLookupTableV2 Bytes)
    (item : Nat × Bytes) : Outcome ReadAbort (KeyLookupTableV2 Bytes) :=
  match bucketIDs[item.1]? with
  | none => .abort .outOfRange
  | some bucketID => mapAbort .table (table.updateKey item.2 bucketID localWorker)

variable (workers : VisitOrder WorkerID StateLists) (states : VisitOrder UInt16 (List Bytes)) (localWorker : WorkerID)

/-- `updateAddrForFetchedNeededRemoteKeys`. -/
def updateAddrForFetchedNeededRemoteKeys (bucketIDs : List BucketID)
    (keysByWorker : WorkerLists) (tracker : IndexTracker) (table : KeyLookupTableV2 Bytes) :
    Outcome ReadAbort (KeyLookupTableV2 Bytes) :=
  forEach (workers.visit keysByWorker) (fun table e =>
    if e.1 = localWorker then pure table else forEach (states.visit e.2) (fun table e' =>
      forEach e'.2.zipIdx (Gather.tracked .outOfRange (tracker.group e.1 e'.1) (updateFetched localWorker bucketIDs))
        table) table) table

/-- `remoteReadWithByKeyMigration`: the values, and the table once the address routine has ended. -/
def remoteReadWithByKeyMigration (sched : Schedule) (localWorker : WorkerID) (backends : WorkerID → Backend)
    (table : KeyLookupTableV2 Bytes) (req : ReadRequest) :
    Outcome ReadAbort (StateLists × KeyLookupTableV2 Bytes) := do
  let (keysByWorker, tracker) ← groupKeysByWorker sched.grouping table req
  let resByWorker := State.readAll sched.reading sched.completion backends keysByWorker
  let table ← updateAddrForFetchedNeededRemoteKeys sched.updateWorkers sched.updateStates localWorker req.bucketIDs
    keysByWorker tracker table
  let res ← State.mergeResults .outOfRange sched.mergeWorkers sched.mergeStates req.keys resByWorker tracker.group
  pure (res, table)

/-! ## Locations -/

/-- The worker that stores a key. -/
def location (key : Bytes) (bucketID : BucketID) : WorkerID :=
  (((table bucketID).map.getD ∅).get key).getD (table bucketID).workerID

/-- The table entry of a key. -/
def entry (key : Bytes) (bucketID : BucketID) : Option WorkerID :=
  (table bucketID).map.bind fun m => m.get key

namespace ReadRequest

variable (req : ReadRequest) (s : UInt16)

/-- The key at a position. -/
def key (i : Nat) : Bytes := State.keyAt req.keys s i

/-- The bucket at a position. -/
def bucket (i : Nat) : BucketID := (req.bucketIDs[i]?).getD 0

/-- Where the key at a position is. -/
def loc (table : KeyLookupTableV2 Bytes) (s : UInt16) (i : Nat) : WorkerID := location table (req.key s i) (req.bucket i)

/-- The number of keys of a state. -/
def count : Nat := State.keyCount req.keys s

/-- The buckets of a request belong to the worker that serves it, which therefore has their key maps. -/
def ServedBy (localWorker : WorkerID) (table : KeyLookupTableV2 Bytes) : Prop :=
  ∀ b ∈ req.bucketIDs, (table b).workerID = localWorker ∧ (table b).map.isSome

theorem bucket_of_lt {s : UInt16} {i : Nat} (hi : i < req.count s) : req.bucketIDs[i]? = some (req.bucket i) := by
  have hlt : i < req.bucketIDs.length := by
    unfold count State.keyCount at hi
    cases hget : req.keys.get s with
    | none => simp [hget] at hi
    | some keyList =>
      rw [hget, Option.getD_some, req.lengths s keyList hget] at hi
      exact hi
  rw [bucket, List.getElem?_eq_getElem hlt, Option.getD_some]

end ReadRequest

/-! ## Grouping -/

/-- The groups of a request: every position is in the group of its location, and only there, with its key. -/
structure Grouped (req : ReadRequest) (table : KeyLookupTableV2 Bytes) (keysByWorker : WorkerLists)
    (tracker : IndexTracker) : Prop where
  tracked : ∀ w s, tracker.group w s = (List.range (req.count s)).filter fun i => decide (req.loc table s i = w)
  keys : ∀ w s, keysByWorker.group w s = (tracker.group w s).map (req.key s)
  noEmpty : keysByWorker.NoEmptyGroup

variable {req : ReadRequest} {localWorker : WorkerID} {table : KeyLookupTableV2 Bytes} {i : Nat}

theorem groupKey_eq_ok (h : req.ServedBy localWorker table) {s : UInt16} (hi : i < req.count s)
    (st : WorkerLists × IndexTracker) :
    groupKey table req.bucketIDs st (s, req.key s i, i)
      = .ok (st.1.push (req.loc table s i) s (req.key s i), st.2.push (req.loc table s i) s i) := by
  have hbucket := req.bucket_of_lt hi
  obtain ⟨-, hmap⟩ := h _ (List.mem_of_getElem? hbucket)
  obtain ⟨m, hm⟩ := Option.isSome_iff_exists.mp hmap
  simp only [groupKey, hbucket, KeyLookupTableV2.getWorkerID, hm, mapAbort, ok_bind, pure_eq_ok,
    ReadRequest.loc, location, Option.getD_some]

/-- **Grouping** returns, with every position in its group. -/
theorem groupKeysByWorker_ok (h : req.ServedBy localWorker table) (order : VisitOrder UInt16 (List Bytes)) :
    ∃ keysByWorker tracker, groupKeysByWorker order table req = .ok (keysByWorker, tracker) ∧
      Grouped req table keysByWorker tracker := by
  refine ⟨(State.positions order req.keys).foldl (fun m p => m.push (req.loc table p.1 p.2.2) p.1 p.2.1) ∅,
    (State.positions order req.keys).foldl (fun m p => m.push (req.loc table p.1 p.2.2) p.1 p.2.2) ∅, ?_, ?_⟩
  · refine State.forEach_positions_push order req.keys fun ⟨s, k, i⟩ hp st => ?_
    obtain ⟨hi, hk⟩ : i < req.count s ∧ k = req.key s i := State.mem_positions hp
    rw [hk]
    exact groupKey_eq_ok h hi st
  · have htracked := State.group_positions order req.keys (req.loc table) fun p => p.2.2
    have hkeys := State.group_positions order req.keys (req.loc table) fun p => p.2.1
    refine ⟨fun w s => ?_, fun w s => ?_, NestedMap.noEmptyGroup_foldl_push _ _ _ _⟩
    · rw [htracked, List.map_id']
      rfl
    · rw [hkeys, htracked, List.map_id']
      rfl

/-! ## Moving the table entries -/

/-- The entries that `updateKey` touches, and nothing else, now name `localWorker`. -/
structure Moved (localWorker : WorkerID) (moved : Bytes → BucketID → Prop) (table table' : KeyLookupTableV2 Bytes) :
    Prop where
  owners : ∀ b, (table' b).workerID = (table b).workerID
  maps : ∀ b, (table' b).map.isSome = (table b).map.isSome
  hit : ∀ k b, moved k b → entry table' k b = some localWorker
  miss : ∀ k b, ¬ moved k b → entry table' k b = entry table k b

theorem Moved.refl (localWorker : WorkerID) (table : KeyLookupTableV2 Bytes) :
    Moved localWorker (fun _ _ => False) table table :=
  ⟨fun _ => rfl, fun _ => rfl, fun _ _ h => h.elim, fun _ _ _ => rfl⟩

variable {moved : Bytes → BucketID → Prop} {table' : KeyLookupTableV2 Bytes} {b : BucketID}

theorem Moved.withMap (h : Moved localWorker moved table table') {m : KeyMap Bytes} (hm : (table' b).map = some m)
    (k : Bytes) :
    Moved localWorker (fun k' b' => moved k' b' ∨ (k' = k ∧ b' = b)) table
      (table'.withMap b (m.set k localWorker)) := by
  have hlookup : ∀ k' b', entry (table'.withMap b (m.set k localWorker)) k' b'
      = if k' = k ∧ b' = b then some localWorker else entry table' k' b' := by
    intro k' b'
    by_cases hb : b' = b
    · subst hb
      simp only [entry, KeyLookupTableV2.withMap_self, Option.bind_some, GoMap.get_set, hm, and_true]
    · simp only [entry, KeyLookupTableV2.withMap_ne table' _ hb, hb, and_false, if_false]
  refine ⟨?_, ?_, ?_, ?_⟩
  · intro b'
    by_cases hb : b' = b
    · subst hb
      rw [KeyLookupTableV2.withMap_self, h.owners]
    · rw [KeyLookupTableV2.withMap_ne _ _ hb, h.owners]
  · intro b'
    by_cases hb : b' = b
    · subst hb
      rw [KeyLookupTableV2.withMap_self, ← h.maps, hm]
      rfl
    · rw [KeyLookupTableV2.withMap_ne _ _ hb, h.maps]
  · rintro k' b' (hmoved | hself)
    · rw [hlookup]
      split_ifs
      · rfl
      · exact h.hit k' b' hmoved
    · rw [hlookup, if_pos hself]
  · intro k' b' hnot
    rw [hlookup, if_neg fun hself => hnot (Or.inr hself), h.miss k' b' fun hmoved => hnot (Or.inl hmoved)]

theorem Moved.entry_mono (h : Moved localWorker moved table table') {k : Bytes} (hentry : (entry table k b).isSome) :
    (entry table' k b).isSome := by
  by_cases hmoved : moved k b
  · rw [h.hit k b hmoved]
    rfl
  · rwa [h.miss k b hmoved]

theorem Moved.step (h : Moved localWorker moved table table') {k : Bytes} (hentry : (entry table k b).isSome) :
    ∃ table'', table'.updateKey k b localWorker = .ok table'' ∧
      Moved localWorker (fun k' b' => moved k' b' ∨ (k' = k ∧ b' = b)) table table'' := by
  obtain ⟨w, hw⟩ := Option.isSome_iff_exists.mp (h.entry_mono hentry)
  obtain ⟨m, hm, hget⟩ := Option.bind_eq_some_iff.mp hw
  exact ⟨_, KeyLookupTableV2.updateKey_eq_ok.mpr ⟨m, hm, by rw [hget]; rfl, rfl⟩, h.withMap hm k⟩

/-- **Moving a list of entries** that all exist. -/
theorem forEach_updateKey (localWorker : WorkerID) (table : KeyLookupTableV2 Bytes) (moves : List (Bytes × BucketID))
    (hentries : ∀ e ∈ moves, (entry table e.1 e.2).isSome) :
    ∃ table', forEach moves (fun table e => mapAbort ReadAbort.table (table.updateKey e.1 e.2 localWorker)) table
        = .ok table' ∧
      Moved localWorker (fun k b => (k, b) ∈ moves) table table' := by
  induction moves using List.reverseRecOn with
  | nil =>
    refine ⟨table, rfl, ?_⟩
    simp only [List.not_mem_nil]
    exact Moved.refl localWorker table
  | append_singleton moves e ih =>
    obtain ⟨table', hrun, hmoved⟩ := ih fun e' he' => hentries e' (List.mem_append_left _ he')
    obtain ⟨table'', hstep, hmoved'⟩ := hmoved.step (hentries e (by simp))
    refine ⟨table'', ?_, ?_⟩
    · rw [forEach_append, hrun, ok_bind, forEach_cons, hstep]
      rfl
    · have hiff : (fun k b => (k, b) ∈ moves ++ [e]) = fun k b => (k, b) ∈ moves ∨ (k = e.1 ∧ b = e.2) := by
        funext k b
        rw [List.mem_append, List.mem_singleton, Prod.ext_iff]
      rw [hiff]
      exact hmoved'

/-- The entries of the groups of other workers, in the order the address routine comes to them. -/
def moves
    (localWorker : WorkerID) (req : ReadRequest) (keysByWorker : WorkerLists) (tracker : IndexTracker) :
    List (Bytes × BucketID) :=
  (workers.visit keysByWorker).flatMap fun e =>
    if e.1 = localWorker then []
    else (states.visit e.2).flatMap fun e' => (tracker.group e.1 e'.1).map fun j => (req.key e'.1 j, req.bucket j)

/-- A key was fetched from another worker. -/
def ReadRequest.Fetched (req : ReadRequest) (localWorker : WorkerID) (table : KeyLookupTableV2 Bytes) (k : Bytes)
    (b : BucketID) : Prop :=
  ∃ s, ∃ i < req.count s, req.key s i = k ∧ req.bucket i = b ∧ req.loc table s i ≠ localWorker

namespace Grouped

variable {req : ReadRequest} {localWorker : WorkerID} {table : KeyLookupTableV2 Bytes} {keysByWorker : WorkerLists}
  {tracker : IndexTracker}

variable {s : UInt16}

section

variable (h : Grouped req table keysByWorker tracker)
include h

theorem mem_tracker {w : WorkerID} : i ∈ tracker.group w s ↔ i < req.count s ∧ req.loc table s i = w := by
  rw [h.tracked, List.mem_filter, List.mem_range, decide_eq_true_eq]

theorem keyList_eq {w : WorkerID} {keyList : List Bytes}
    (hget : keysByWorker.get w s = some keyList) : keyList = (tracker.group w s).map (req.key s) := by
  rw [← h.keys, NestedMap.group, hget, Option.getD_some]

theorem get_loc (hi : i < req.count s) :
    keysByWorker.get (req.loc table s i) s = some ((tracker.group (req.loc table s i) s).map (req.key s)) := by
  have hmem : i ∈ tracker.group (req.loc table s i) s := h.mem_tracker.mpr ⟨hi, rfl⟩
  have hne : (tracker.group (req.loc table s i) s).map (req.key s) ≠ [] := by
    rw [Ne, List.map_eq_nil_iff]
    exact List.ne_nil_of_mem hmem
  rw [h.noEmpty.get_eq, h.keys, if_neg hne]

theorem mem_moves {workers : VisitOrder WorkerID StateLists}
    {states : VisitOrder UInt16 (List Bytes)} {k : Bytes} {b : BucketID} :
    (k, b) ∈ moves workers states localWorker req keysByWorker tracker ↔ req.Fetched localWorker table k b := by
  unfold moves
  rw [List.mem_flatMap]
  constructor
  · rintro ⟨⟨w, groups⟩, -, hin⟩
    split_ifs at hin with hlocal
    · cases hin
    · obtain ⟨⟨s, keyList⟩, -, hin⟩ := List.mem_flatMap.mp hin
      obtain ⟨i, hi, heq⟩ := List.mem_map.mp hin
      obtain ⟨rfl, rfl⟩ := Prod.mk.inj heq
      obtain ⟨hlt, hloc⟩ := h.mem_tracker.mp hi
      exact ⟨s, i, hlt, rfl, rfl, hloc ▸ hlocal⟩
  · rintro ⟨s, i, hi, rfl, rfl, hne⟩
    obtain ⟨groups, hgroups, hget⟩ := Option.bind_eq_some_iff.mp (h.get_loc hi)
    refine ⟨(req.loc table s i, groups), (workers.mem_visit keysByWorker _ _).mpr hgroups, ?_⟩
    rw [if_neg hne]
    refine List.mem_flatMap.mpr ⟨(s, _), (states.mem_visit groups _ _).mpr hget, ?_⟩
    exact List.mem_map.mpr ⟨i, h.mem_tracker.mpr ⟨hi, rfl⟩, rfl⟩

theorem updateAddr_eq (start : KeyLookupTableV2 Bytes) :
    updateAddrForFetchedNeededRemoteKeys workers states localWorker req.bucketIDs keysByWorker tracker start
      = forEach (moves workers states localWorker req keysByWorker tracker)
          (fun table e => mapAbort ReadAbort.table (table.updateKey e.1 e.2 localWorker)) start := by
  unfold updateAddrForFetchedNeededRemoteKeys moves
  rw [forEach_flatMap]
  refine forEach_congr fun e he table' => ?_
  split_ifs with hlocal
  · rfl
  · rw [forEach_flatMap]
    refine forEach_congr fun e' he' table' => ?_
    have hget : keysByWorker.get e.1 e'.1 = some e'.2 := by
      rw [NestedMap.get, (workers.mem_visit keysByWorker e.1 e.2).mp he, Option.bind_some]
      exact (states.mem_visit e.2 e'.1 e'.2).mp he'
    rw [h.keyList_eq hget, Gather.forEach_tracked, forEach_map, forEach_map]
    refine forEach_congr fun j hj table' => ?_
    rw [updateFetched, req.bucket_of_lt (h.mem_tracker.mp hj).1]

/-- **The address routine** moves exactly the entries of the keys fetched from other workers. -/
theorem updateAddr_ok (hserved : req.ServedBy localWorker table)
    (workers : VisitOrder WorkerID StateLists) (states : VisitOrder UInt16 (List Bytes)) :
    ∃ table', updateAddrForFetchedNeededRemoteKeys workers states localWorker req.bucketIDs keysByWorker tracker table
        = .ok table' ∧
      Moved localWorker (req.Fetched localWorker table) table table' := by
  obtain ⟨table', hrun, hmoved⟩ := forEach_updateKey localWorker table
    (moves workers states localWorker req keysByWorker tracker) (by
      rintro ⟨k, b⟩ hmem
      obtain ⟨s, i, hi, rfl, rfl, hne⟩ := h.mem_moves.mp hmem
      obtain ⟨howner, hmap⟩ := hserved _ (List.mem_of_getElem? (req.bucket_of_lt hi))
      obtain ⟨m, hm⟩ := Option.isSome_iff_exists.mp hmap
      -- a key without an entry is at the owner of its bucket, which is this worker
      rw [entry, hm, Option.bind_some, Option.isSome_iff_ne_none]
      intro hnone
      refine hne ?_
      rw [ReadRequest.loc, location, hm, Option.getD_some, hnone, Option.getD_none, howner])
  refine ⟨table', (h.updateAddr_eq workers states table).trans hrun, ?_⟩
  have hiff : (fun k b => (k, b) ∈ moves workers states localWorker req keysByWorker tracker)
      = req.Fetched localWorker table := by
    funext k b
    exact propext h.mem_moves
  rwa [hiff] at hmoved

/-- **Merging** puts every value at the position of its key. -/
theorem mergeResults_ok (sched : Schedule) (backends : WorkerID → Backend) :
    ∃ res, State.mergeResults ReadAbort.outOfRange sched.mergeWorkers sched.mergeStates req.keys
        (State.readAll sched.reading sched.completion backends keysByWorker) tracker.group = .ok res ∧
      ∀ s, res.get s = (req.keys.get s).map fun keyList => (List.range keyList.length).map
        fun i => ((backends (req.loc table s i)).get (req.key s i)).getD [] := by
  refine State.mergeResults_ok ReadAbort.outOfRange sched.mergeWorkers sched.mergeStates _ _ _
    (fun s i => ((backends (req.loc table s i)).get (req.key s i)).getD []) ?_ ?_
  · intro w s values hget
    rw [State.readAll_get] at hget
    obtain ⟨keyList, hkeys, rfl⟩ := Option.map_eq_some_iff.mp hget
    constructor
    · rw [h.keyList_eq hkeys, Backend.getMany, List.map_map]
      refine List.map_congr_left fun i hi => ?_
      rw [(h.mem_tracker.mp hi).2]
      rfl
    · intro i hi
      have hlt := (h.mem_tracker.mp hi).1
      cases hreq : req.keys.get s with
      | none => simp [ReadRequest.count, State.keyCount, hreq] at hlt
      | some keyList => exact ⟨keyList, rfl, by simpa [ReadRequest.count, State.keyCount, hreq] using hlt⟩
  · intro s keyList hreq i hi
    have hlt : i < req.count s := by rwa [ReadRequest.count, State.keyCount, hreq, Option.getD_some]
    exact ⟨req.loc table s i, _, by rw [State.readAll_get, h.get_loc hlt]; rfl, h.mem_tracker.mpr ⟨hlt, rfl⟩⟩

end

end Grouped

/-! ## The read -/

/-- The values of a state, each from where its key is. -/
def storedValues (table : KeyLookupTableV2 Bytes) (backends : WorkerID → Backend) (bucketIDs : List BucketID)
    (keyList : List Bytes) : List Bytes :=
  (keyList.zip bucketIDs).map fun e => ((backends (location table e.1 e.2)).get e.1).getD []

theorem storedValues_eq (table : KeyLookupTableV2 Bytes) (backends : WorkerID → Backend) {s : UInt16}
    {keyList : List Bytes} (hreq : req.keys.get s = some keyList) :
    (List.range keyList.length).map (fun i => ((backends (req.loc table s i)).get (req.key s i)).getD [])
      = storedValues table backends req.bucketIDs keyList := by
  have hlen := req.lengths s keyList hreq
  refine List.ext_getElem (by simp [storedValues, hlen]) fun i hi _ => ?_
  have hlt : i < keyList.length := by simpa using hi
  have hlt' : i < req.bucketIDs.length := hlen ▸ hlt
  simp [storedValues, ReadRequest.loc, ReadRequest.key, State.keyAt, ReadRequest.bucket, hreq, hlt, hlt']

/-- **A batch read over several workers.**  Whatever the locations of the keys, the visiting orders and the order in
which the reads finish: the call returns; every position of every state is requested once, from the worker that
stores its key (`Grouped`); the result has at every position what is stored there; and the table differs from the
old one exactly in the entries of the keys that were fetched from other workers, in their own buckets, which now
name this worker. -/
theorem remoteRead_reassembles (sched : Schedule) (localWorker : WorkerID) (backends : WorkerID → Backend)
    (table : KeyLookupTableV2 Bytes) (req : ReadRequest) (h : req.ServedBy localWorker table) :
    ∃ keysByWorker tracker res table',
      groupKeysByWorker sched.grouping table req = .ok (keysByWorker, tracker) ∧
      remoteReadWithByKeyMigration sched localWorker backends table req = .ok (res, table') ∧
      Grouped req table keysByWorker tracker ∧
      (∀ s, res.get s = (req.keys.get s).map (storedValues table backends req.bucketIDs)) ∧
      Moved localWorker (req.Fetched localWorker table) table table' := by
  obtain ⟨keysByWorker, tracker, hgroup, hgrouped⟩ := groupKeysByWorker_ok h sched.grouping
  obtain ⟨table', hupdate, hmoved⟩ := hgrouped.updateAddr_ok h sched.updateWorkers sched.updateStates
  obtain ⟨res, hmerge, hres⟩ := hgrouped.mergeResults_ok sched backends
  refine ⟨keysByWorker, tracker, res, table', hgroup, ?_, hgrouped, fun s => ?_, hmoved⟩
  · rw [remoteReadWithByKeyMigration, hgroup, ok_bind]
    dsimp only
    rw [hupdate, ok_bind, hmerge, ok_bind]
    rfl
  · rw [hres]
    cases hreq : req.keys.get s with
    | none => rfl
    | some keyList => exact congrArg some (storedValues_eq table backends hreq)

/-- Two states of one key at different workers, and a key without an entry. -/
def spread : ReadRequest where
  keys := GoMap.set (GoMap.set ∅ 0 [[1], [2]]) 1 [[11], [12]]
  bucketIDs := [0, 1]
  lengths := by
    intro s keyList hget
    rw [GoMap.get_set, GoMap.get_set] at hget
    split_ifs at hget
    · cases hget
      rfl
    · cases hget
      rfl
    · cases hget

/-- Worker 0 serves both buckets; `[1]` is at worker 1, `[12]` at worker 2. -/
def spreadTable : KeyLookupTableV2 Bytes := fun b =>
  ⟨0, some (if b = 0 then GoMap.set ∅ [1] 1 else GoMap.set ∅ [12] 2)⟩

theorem remoteRead_reassembles_spread : spread.ServedBy 0 spreadTable ∧
    ∃ keysByWorker tracker res table',
      groupKeysByWorker (VisitOrder.asListed _ _) spreadTable spread = .ok (keysByWorker, tracker) ∧
      remoteReadWithByKeyMigration Schedule.asListed 0 (fun w => GoMap.set ∅ [1] [w.toUInt8]) spreadTable spread
        = .ok (res, table') ∧
      Grouped spread spreadTable keysByWorker tracker ∧
      (∀ s, res.get s = (spread.keys.get s).map
        (storedValues spreadTable (fun w => GoMap.set ∅ [1] [w.toUInt8]) [0, 1])) ∧
      Moved 0 (spread.Fetched 0 spreadTable) spreadTable table' :=
  have hserved : spread.ServedBy 0 spreadTable := fun _ _ => ⟨rfl, rfl⟩
  ⟨hserved, remoteRead_reassembles Schedule.asListed 0 (fun w => GoMap.set ∅ [1] [w.toUInt8]) spreadTable spread
    hserved⟩

end LazyByKey
end Koala
