import Koala.State.WorkerReads

/-!
# The requests of the lazy protocol without migration

State stays where the fixed bucket table puts it, and every operation goes to the workers that store its keys
(`state/stateServiceUtil.go`).  Four operations group their keys by worker, each with its own code: a read has one
list of buckets for all states and notes one list of positions for each worker; a write has a list of buckets for
every state and groups the values beside the keys; a delete groups keys only.

An operation carries what its caller guarantees: the buckets belong to the keys, there is a value for every key, and
the keys of different states differ, since a serialized key starts with the state id.  The three specification
theorems (`groupRead_ok`, `groupKeysAndValuesByWorker_ok`, `groupDelete_ok`) say the same of all groupings: the group
of a worker is the list of the keys it owns, in the order of the request.
-/

namespace Koala
namespace NoMigration

open Lib Lib.Outcome
open Partition (WorkerID BucketID)
open State (Backend StateLists WorkerLists keyAt keyCount)

/-- What is fixed for an operator: the state table, and the bucket and the state that a serialized key belongs to. -/
structure Layout where
  table : BucketID → WorkerID
  bucketOf : Bytes → BucketID
  stateOf : Bytes → UInt16

variable (lay : Layout)

/-- The worker that stores a key. -/
def Layout.owner (k : Bytes) : WorkerID := lay.table (lay.bucketOf k)

variable (keys : StateLists)

/-- The keys of each state in a request belong to that state. -/
def Layout.Sorted : Prop :=
  ∀ s keyList, keys.get s = some keyList → ∀ k ∈ keyList, lay.stateOf k = s

/-- The arguments of `remoteRead`. -/
structure ReadOp (lay : Layout) where
  keys : StateLists
  bucketIDs : List BucketID
  sorted : lay.Sorted keys
  /-- The keys at one position have one bucket, whatever their state. -/
  buckets : ∀ s keyList, keys.get s = some keyList → keyList.map lay.bucketOf = bucketIDs

/-- The arguments of `remoteOverwrite` and `remoteMerge`. -/
structure WriteOp (lay : Layout) where
  keys : StateLists
  values : StateLists
  bucketIDs : GoMap UInt16 (List BucketID)
  sorted : lay.Sorted keys
  buckets : ∀ s keyList, keys.get s = some keyList → bucketIDs.get s = some (keyList.map lay.bucketOf)
  paired : ∀ s keyList, keys.get s = some keyList →
    ∃ valueList, values.get s = some valueList ∧ valueList.length = keyList.length

/-- The arguments of `remoteDelete`. -/
structure DeleteOp (lay : Layout) where
  keys : StateLists
  bucketIDs : GoMap UInt16 (List BucketID)
  sorted : lay.Sorted keys
  buckets : ∀ s keyList, keys.get s = some keyList → bucketIDs.get s = some (keyList.map lay.bucketOf)

inductive Abort where
  /-- Go's run-time panic for an index outside a slice. -/
  | outOfRange
  | valuesNotFound (s : UInt16)
  | missingValues (s : UInt16)
  | valueCount (values keys : Nat)
  deriving DecidableEq, Repr

/-- The message each abort logs. -/
def Abort.message : Abort → String
  | outOfRange => "index out of range"
  | valuesNotFound s => s!"Values for state ID {s} not found\n"
  | missingValues s => s!"Missing values for state ID {s}\n"
  | valueCount values keys =>
    s!"Invalid remote read response: number of values {values} does not match number of keys {keys}\n"

/-- The positions of the keys of each worker. -/
abbrev IndexTracker : Type := GoMap WorkerID (List Nat)

/-! ## The code -/

/-- The body of the loop over the states in `remoteRead`, at position `i`. -/
def groupState (workerID : WorkerID) (i : Nat) (keysByWorker : WorkerLists) (e : UInt16 × List Bytes) :
    Outcome Abort WorkerLists :=
  match e.2[i]? with
  | none => .abort .outOfRange
  | some key => pure (keysByWorker.push workerID e.1 key)

/-- The grouping loop of `remoteRead`.  The map of states is visited again at every position, each time in an order
of its own. -/
def groupRead (orders : Nat → VisitOrder UInt16 (List Bytes)) (table : BucketID → WorkerID) (keys : StateLists)
    (bucketIDs : List BucketID) : Outcome Abort (WorkerLists × IndexTracker) :=
  forEach bucketIDs.zipIdx (fun st item => do
    let keysByWorker ← forEach ((orders item.2).visit keys) (groupState (table item.1) item.2) st.1
    pure (keysByWorker, st.2.set (table item.1) ((st.2.get (table item.1)).getD [] ++ [item.2]))) (∅, ∅)

/-- The body of the inner loop of `groupKeysAndValuesByWorker`, for the key at position `item.2.2` of state
`item.1`. -/
def groupKeyAndValue (table : BucketID → WorkerID) (values : StateLists) (bucketIDs : GoMap UInt16 (List BucketID))
    (st : WorkerLists × WorkerLists) (item : UInt16 × Bytes × Nat) : Outcome Abort (WorkerLists × WorkerLists) :=
  match ((bucketIDs.get item.1).getD [])[item.2.2]? with
  | none => .abort .outOfRange
  | some bucketID =>
    match values.get item.1 with
    | none => .abort (.valuesNotFound item.1)
    | some vals =>
      match vals[item.2.2]? with
      | none => .abort .outOfRange
      | some v =>
        pure (st.1.push (table bucketID) item.1 item.2.1, st.2.push (table bucketID) item.1 v)

variable (order : VisitOrder UInt16 (List Bytes)) (table : BucketID → WorkerID)

/-- `groupKeysAndValuesByWorker`. -/
def groupKeysAndValuesByWorker (keys values : StateLists) (bucketIDs : GoMap UInt16 (List BucketID)) :
    Outcome Abort (WorkerLists × WorkerLists) :=
  forEach (order.visit keys) (fun st e =>
    forEach e.2.zipIdx (fun st item => groupKeyAndValue table values bucketIDs st (e.1, item)) st) (∅, ∅)

/-- The body of the inner loop of `remoteDelete`. -/
def groupDeleted (bucketIDs : GoMap UInt16 (List BucketID)) (keysByWorker : WorkerLists)
    (item : UInt16 × Bytes × Nat) : Outcome Abort WorkerLists :=
  match ((bucketIDs.get item.1).getD [])[item.2.2]? with
  | none => .abort .outOfRange
  | some bucketID => pure (keysByWorker.push (table bucketID) item.1 item.2.1)

/-- The grouping loop of `remoteDelete`. -/
def groupDelete (keys : StateLists)
    (bucketIDs : GoMap UInt16 (List BucketID)) : Outcome Abort WorkerLists :=
  forEach (order.visit keys) (fun keysByWorker e =>
    forEach e.2.zipIdx (fun keysByWorker item => groupDeleted table bucketIDs keysByWorker (e.1, item)) keysByWorker) ∅

/-! ## The groups -/

/-- The keys of a state. -/
def keysOf (s : UInt16) : List Bytes := (keys.get s).getD []

/-- The keys of a state that a worker owns. -/
def Layout.share (w : WorkerID) (s : UInt16) : List Bytes :=
  (keysOf keys s).filter fun k => decide (lay.owner k = w)

/-- The groups of a request are the workers' shares of it. -/
structure Grouped (lay : Layout) (keys : StateLists) (keysByWorker : WorkerLists) : Prop where
  group : ∀ w s, keysByWorker.group w s = lay.share keys w s
  noEmpty : keysByWorker.NoEmptyGroup

theorem keysOf_eq (s : UInt16) :
    keysOf keys s = (List.range (keyCount keys s)).map (keyAt keys s) := by
  refine List.ext_getElem? fun i => ?_
  by_cases hi : i < keyCount keys s
  · have hi' : i < ((keys.get s).getD []).length := hi
    simp [keysOf, keyAt, hi, hi']
  · have hi' : ¬ i < ((keys.get s).getD []).length := hi
    simp [keysOf, hi, hi']

/-- The owner of the key at a position. -/
def Layout.ownerAt (s : UInt16) (i : Nat) : WorkerID :=
  lay.owner (keyAt keys s i)

theorem share_eq (w : WorkerID) (s : UInt16) :
    lay.share keys w s = ((List.range (keyCount keys s)).filter
      fun i => decide (lay.ownerAt keys s i = w)).map (keyAt keys s) := by
  rw [Layout.share, keysOf_eq, List.filter_map]
  rfl

/-- Every position's `v` in the group of the owner of its key. -/
def Layout.grouping {V : Type} (order : VisitOrder UInt16 (List Bytes)) (keys : StateLists)
    (v : UInt16 × Bytes × Nat → V) : NestedMap WorkerID UInt16 (List V) :=
  (State.positions order keys).foldl (fun m p => m.push (lay.ownerAt keys p.1 p.2.2) p.1 (v p)) ∅

theorem group_grouping {V : Type} (order : VisitOrder UInt16 (List Bytes)) (keys : StateLists)
    (v : UInt16 × Bytes × Nat → V) (w : WorkerID) (s : UInt16) :
    (lay.grouping order keys v).group w s = ((List.range (keyCount keys s)).filter
      fun i => decide (lay.ownerAt keys s i = w)).map fun i => v (s, keyAt keys s i, i) :=
  State.group_positions order keys (lay.ownerAt keys) v w s

theorem noEmptyGroup_grouping {V : Type} (order : VisitOrder UInt16 (List Bytes)) (keys : StateLists)
    (v : UInt16 × Bytes × Nat → V) : (lay.grouping order keys v).NoEmptyGroup :=
  NestedMap.noEmptyGroup_foldl_push _ _ _ _

theorem grouped_grouping (order : VisitOrder UInt16 (List Bytes)) (keys : StateLists) :
    Grouped lay keys (lay.grouping order keys fun p => p.2.1) :=
  ⟨fun w s => by rw [group_grouping, share_eq], noEmptyGroup_grouping _ _ _ _⟩

variable {s : UInt16}

theorem bucket_at {lay : Layout} {keys : StateLists} {bucketIDs : GoMap UInt16 (List BucketID)}
    (hbuckets : ∀ s keyList, keys.get s = some keyList → bucketIDs.get s = some (keyList.map lay.bucketOf)) {i : Nat} (hi : i < keyCount keys s) :
    ((bucketIDs.get s).getD [])[i]? = some (lay.bucketOf (keyAt keys s i)) := by
  unfold keyCount at hi
  cases hget : keys.get s with
  | none => simp [hget] at hi
  | some keyList =>
    rw [hget, Option.getD_some] at hi
    simp [hbuckets s keyList hget, keyAt, hget, hi]

/-- **The grouping of a delete.** -/
theorem groupDelete_ok {lay : Layout} (op : DeleteOp lay) (order : VisitOrder UInt16 (List Bytes)) :
    ∃ keysByWorker, groupDelete order lay.table op.keys op.bucketIDs = .ok keysByWorker ∧
      Grouped lay op.keys keysByWorker := by
  refine ⟨lay.grouping order op.keys fun p => p.2.1, ?_, grouped_grouping lay order op.keys⟩
  rw [groupDelete, State.forEach_positions]
  refine forEach_eq_foldl fun p hp st => ?_
  rw [groupDeleted, bucket_at op.buckets (State.mem_positions hp).1]
  rfl

/-- The keys and values of the groups of a write: each worker has its share of the pairs. -/
structure Paired (lay : Layout) (keys values : StateLists) (keysByWorker valuesByWorker : WorkerLists) : Prop where
  present : ∀ w s, (valuesByWorker.get w s).isSome = (keysByWorker.get w s).isSome
  pairs : ∀ w s, (keysByWorker.group w s).zip (valuesByWorker.group w s)
    = ((keysOf keys s).zip (keysOf values s)).filter fun p => decide (lay.owner p.1 = w)

namespace WriteOp

variable {lay : Layout} (op : WriteOp lay)

theorem valueCount_eq (hs : op.keys.get s ≠ none) : keyCount op.values s = keyCount op.keys s := by
  obtain ⟨keyList, hget⟩ := Option.ne_none_iff_exists'.mp hs
  obtain ⟨valueList, hvalues, hlen⟩ := op.paired s keyList hget
  simp [keyCount, hget, hvalues, hlen]

theorem value_at {i : Nat} (hi : i < keyCount op.keys s) :
    ∃ valueList, op.values.get s = some valueList ∧ valueList[i]? = some (keyAt op.values s i) := by
  have hs : op.keys.get s ≠ none := fun hnone => by simp [keyCount, hnone] at hi
  obtain ⟨keyList, hget⟩ := Option.ne_none_iff_exists'.mp hs
  obtain ⟨valueList, hvalues, -⟩ := op.paired s keyList hget
  have hi' : i < valueList.length := by
    rw [← op.valueCount_eq hs] at hi
    simpa [keyCount, hvalues] using hi
  exact ⟨valueList, hvalues, by simp [keyAt, hvalues, hi']⟩

theorem paired_grouping :
    Paired lay op.keys op.values (lay.grouping order op.keys fun p => p.2.1)
      (lay.grouping order op.keys fun p => keyAt op.values p.1 p.2.2) where
  present w s := by
    rw [(noEmptyGroup_grouping _ _ _ _).get_eq, (noEmptyGroup_grouping _ _ _ _).get_eq, group_grouping,
      group_grouping]
    simp only [List.map_eq_nil_iff]
    split_ifs <;> rfl
  pairs w s := by
    rw [group_grouping, group_grouping, List.zip_map', keysOf_eq, keysOf_eq]
    by_cases hs : op.keys.get s = none
    · simp [keyCount, hs]
    · rw [op.valueCount_eq hs, List.zip_map', List.filter_map]
      rfl

/-- **The grouping of a write.** -/
theorem groupKeysAndValuesByWorker_ok :
    ∃ keysByWorker valuesByWorker,
      groupKeysAndValuesByWorker order lay.table op.keys op.values op.bucketIDs
        = .ok (keysByWorker, valuesByWorker) ∧
      Grouped lay op.keys keysByWorker ∧ Paired lay op.keys op.values keysByWorker valuesByWorker := by
  refine ⟨_, _, ?_, grouped_grouping lay order op.keys, op.paired_grouping order⟩
  refine State.forEach_positions_push order op.keys fun ⟨s, k, i⟩ hp st => ?_
  have hi : i < keyCount op.keys s := (State.mem_positions hp).1
  obtain ⟨valueList, hvalues, hv⟩ := op.value_at hi
  simp only [groupKeyAndValue, bucket_at op.buckets hi, hvalues, hv, pure_eq_ok]
  rfl

end WriteOp

/-! ## The grouping of a read -/

namespace ReadOp

variable {lay : Layout} (op : ReadOp lay) (orders : Nat → VisitOrder UInt16 (List Bytes))

/-- The tracker has, for each worker, the positions of its share in order. -/
def Tracked (tracker : IndexTracker) : Prop :=
  ∀ s, op.keys.get s ≠ none → ∀ w, (tracker.get w).getD []
    = (List.range (keyCount op.keys s)).filter fun i => decide (lay.ownerAt op.keys s i = w)

/-- Buckets with their positions and, at each position, the states in the order they are come to. -/
def visits : List ((BucketID × Nat) × UInt16 × List Bytes) :=
  op.bucketIDs.zipIdx.flatMap fun item => ((orders item.2).visit op.keys).map fun e => (item, e)

theorem bucketIDs_zipIdx (hs : op.keys.get s ≠ none) :
    op.bucketIDs.zipIdx = (List.range (keyCount op.keys s)).map
      fun i => (lay.bucketOf (keyAt op.keys s i), i) := by
  obtain ⟨keyList, hget⟩ := Option.ne_none_iff_exists'.mp hs
  rw [← op.buckets s keyList hget]
  refine List.ext_getElem? fun i => ?_
  by_cases hi : i < keyList.length
  · simp [keyCount, keyAt, hget, hi]
  · simp [keyCount, hget, hi]

theorem visit_filter (hs : op.keys.get s ≠ none) (w : WorkerID) (item : BucketID × Nat) :
    ((((orders item.2).visit op.keys).map fun e => (item, e)).filter fun x =>
        decide (lay.table x.1.1 = w ∧ x.2.1 = s)).map (fun x => keyAt op.keys x.2.1 x.1.2)
      = if lay.table item.1 = w then [keyAt op.keys s item.2] else [] := by
  obtain ⟨keyList, hget⟩ := Option.ne_none_iff_exists'.mp hs
  rw [List.filter_map, List.map_map]
  split_ifs with hw
  · -- the entries of the state are those of one key in a list with distinct keys
    have hone : ((orders item.2).visit op.keys).filter (fun e => decide (e.1 = s)) = [(s, keyList)] := by
      have h := (orders item.2).filter_flatMap_visit op.keys (fun keyList => [keyList]) hget
      simpa using h
    have hpred : (fun x : (BucketID × Nat) × UInt16 × List Bytes => decide (lay.table x.1.1 = w ∧ x.2.1 = s)) ∘
        (fun e => (item, e)) = fun e : UInt16 × List Bytes => decide (e.1 = s) := by
      funext e
      simp [hw]
    rw [hpred, hone]
    rfl
  · have hpred : (fun x : (BucketID × Nat) × UInt16 × List Bytes => decide (lay.table x.1.1 = w ∧ x.2.1 = s)) ∘
        (fun e => (item, e)) = fun _ : UInt16 × List Bytes => false := by
      funext e
      simp [hw]
    rw [hpred]
    simp

theorem group_visits (w : WorkerID) (s : UInt16) :
    NestedMap.group ((op.visits orders).foldl
        (fun m x => m.push (lay.table x.1.1) x.2.1 (keyAt op.keys x.2.1 x.1.2)) (∅ : WorkerLists)) w s
      = lay.share op.keys w s := by
  rw [NestedMap.group_foldl_push (fun x : (BucketID × Nat) × UInt16 × List Bytes => lay.table x.1.1)
    (fun x => x.2.1) (fun x => keyAt op.keys x.2.1 x.1.2)]
  by_cases hs : op.keys.get s = none
  · have hnone : (op.visits orders).filter (fun x => decide (lay.table x.1.1 = w ∧ x.2.1 = s)) = [] := by
      refine List.filter_eq_nil_iff.mpr fun x hx => ?_
      obtain ⟨item, -, hin⟩ := List.mem_flatMap.mp hx
      obtain ⟨e, he, rfl⟩ := List.mem_map.mp hin
      have hget := ((orders item.2).mem_visit op.keys e.1 e.2).mp he
      have hne : e.1 ≠ s := fun heq => by rw [heq, hs] at hget; cases hget
      simp [hne]
    rw [hnone, Layout.share, keysOf, hs]
    rfl
  · have hsplit : ((op.visits orders).filter fun x => decide (lay.table x.1.1 = w ∧ x.2.1 = s)).map
          (fun x => keyAt op.keys x.2.1 x.1.2)
        = op.bucketIDs.zipIdx.flatMap fun item =>
            if lay.table item.1 = w then [keyAt op.keys s item.2] else [] := by
      rw [visits, List.filter_flatMap, List.map_flatMap]
      exact List.flatMap_congr fun item _ => op.visit_filter orders hs w item
    rw [hsplit, op.bucketIDs_zipIdx hs, List.flatMap_map, share_eq]
    generalize List.range (keyCount op.keys s) = is
    induction is with
    | nil => rfl
    | cons i is ih =>
      rw [List.flatMap_cons, ih]
      by_cases hi : lay.ownerAt op.keys s i = w
      · have hi' : lay.table (lay.bucketOf (keyAt op.keys s i)) = w := hi
        simp [hi, hi']
      · have hi' : ¬ lay.table (lay.bucketOf (keyAt op.keys s i)) = w := hi
        simp [hi, hi']

theorem forEach_groupState {item : BucketID × Nat} (hitem : item ∈ op.bucketIDs.zipIdx) (m : WorkerLists) :
    forEach ((orders item.2).visit op.keys) (groupState (lay.table item.1) item.2) m
      = .ok (((orders item.2).visit op.keys).foldl
          (fun m e => m.push (lay.table item.1) e.1 (keyAt op.keys e.1 item.2)) m) := by
  refine forEach_eq_foldl fun e he m => ?_
  have hget := ((orders item.2).mem_visit op.keys e.1 e.2).mp he
  have hlt : item.2 < op.bucketIDs.length := by
    have := List.snd_lt_of_mem_zipIdx hitem
    simpa using this
  have hlt' : item.2 < e.2.length := by
    rwa [← op.buckets e.1 e.2 hget, List.length_map] at hlt
  simp only [groupState, keyAt, hget, Option.getD_some, List.getElem?_eq_getElem hlt', pure_eq_ok]

/-- **The grouping of a read.** -/
theorem groupRead_ok :
    ∃ keysByWorker tracker, groupRead orders lay.table op.keys op.bucketIDs = .ok (keysByWorker, tracker) ∧
      Grouped lay op.keys keysByWorker ∧ op.Tracked tracker := by
  refine ⟨(op.visits orders).foldl (fun m x => m.push (lay.table x.1.1) x.2.1 (keyAt op.keys x.2.1 x.1.2)) ∅,
    op.bucketIDs.zipIdx.foldl (fun m item =>
      m.set (lay.table item.1) ((m.get (lay.table item.1)).getD [] ++ [item.2])) ∅, ?_, ⟨?_, ?_⟩, ?_⟩
  · unfold groupRead
    rw [forEach_eq_foldl (g := fun st item => (((orders item.2).visit op.keys).foldl
      (fun m e => m.push (lay.table item.1) e.1 (keyAt op.keys e.1 item.2)) st.1,
      st.2.set (lay.table item.1) ((st.2.get (lay.table item.1)).getD [] ++ [item.2])))]
    · refine congrArg Outcome.ok ((State.foldl_pair
        (fun (m : WorkerLists) (item : BucketID × Nat) => ((orders item.2).visit op.keys).foldl
          (fun m e => m.push (lay.table item.1) e.1 (keyAt op.keys e.1 item.2)) m)
        (fun (m : IndexTracker) item =>
          m.set (lay.table item.1) ((m.get (lay.table item.1)).getD [] ++ [item.2])) _ ∅ ∅).trans ?_)
      rw [visits, List.foldl_flatMap]
      simp only [List.foldl_map]
    · intro item hitem st
      rw [op.forEach_groupState orders hitem, ok_bind]
      rfl
  · exact op.group_visits orders
  · exact NestedMap.noEmptyGroup_foldl_push _ _ _ _
  · intro s hs w
    rw [GoMap.getD_foldl_append (fun item : BucketID × Nat => lay.table item.1) Prod.snd, op.bucketIDs_zipIdx hs,
      List.filter_map, List.map_map]
    exact List.map_id' _

end ReadOp

end NoMigration
end Koala
