import Koala.Lib.Gather
import Koala.Lib.NestedMap
import Koala.Partition.OwnerChanges
import Koala.State.Backend

/-!
# Reads that are spread over workers

A batch read asks for the keys of several states at once.  The keys are grouped by the worker that stores them,
every group is read by a goroutine of its own, and the values are put back in the order of the request with the
positions that were noted for each group (`state/stateServiceUtil.go`).  The groups differ between the protocols
(`LazyByKey.MultiWorkerRead`, `NoMigration`); what the goroutines do with them and how the results are merged does
not, and is here.

`group_positions` says what grouping leaves in each group.  `readAll_get` says what the goroutines leave in the result
maps, whichever order they finish in.  `mergeResults_ok` is the reassembly.
-/

namespace Koala
namespace State

open Lib Lib.Outcome
open Partition (WorkerID)

/-- Keys or values of a request, by state id. -/
abbrev StateLists : Type := GoMap UInt16 (List Bytes)

/-- Keys or values by worker and state id. -/
abbrev WorkerLists : Type := NestedMap WorkerID UInt16 (List Bytes)

variable (order : VisitOrder UInt16 (List Bytes))

/-- `readLocalStateRoutine`, and the answer of another worker to the same keys: `res[stateID] = GetMany(keyList)`. -/
def readGroup (backend : Backend) (keys res : StateLists) : StateLists :=
  (order.visit keys).foldl (fun res e => res.set e.1 (backend.getMany e.2)) res

/-- One goroutine for each worker, each filling the empty map it was given; `completion` is the order in which they
finish. -/
def readAll (completion : VisitOrder WorkerID StateLists)
    (backends : WorkerID → Backend) (keysByWorker : WorkerLists) : WorkerLists :=
  (completion.visit keysByWorker).foldl
    (fun res e => GoMap.set res e.1 (readGroup order (backends e.1) e.2 ∅)) (GoMap.mapValues (fun _ => ∅) keysByWorker)

/-- `mergeResultsFromAllWorkers` and `mergeResultsFromAllWorkersLazyByKey`: `indices` is the position tracker. -/
def mergeResults {ε : Type} (oob : ε) (workers : VisitOrder WorkerID StateLists)
    (states : VisitOrder UInt16 (List Bytes)) (keys : StateLists) (resByWorker : WorkerLists)
    (indices : WorkerID → UInt16 → List Nat) : Outcome ε StateLists :=
  Gather.gather oob indices (resByWorker.visitAll workers states)
    (keys.mapValues fun keyList => List.replicate keyList.length ([] : Bytes))

/-! ## The positions of a request -/

variable (keys : StateLists) (s : UInt16)

/-- The key of a state at a position. -/
def keyAt (i : Nat) : Bytes := (((keys.get s).getD [])[i]?).getD []

/-- The number of keys of a state. -/
def keyCount : Nat := ((keys.get s).getD []).length

/-- The keys with their states and positions, in the order of `for stateID, keyList := range keys` and, inside,
`for i, key := range keyList`. -/
def positions : List (UInt16 × Bytes × Nat) :=
  (order.visit keys).flatMap fun e => e.2.zipIdx.map fun item => (e.1, item)

theorem zipIdx_eq (keyList : List Bytes) :
    keyList.zipIdx = (List.range keyList.length).map fun i => ((keyList[i]?).getD [], i) := by
  refine List.ext_getElem? fun i => ?_
  by_cases hi : i < keyList.length
  · simp [hi]
  · simp [hi]

theorem positions_filter :
    (positions order keys).filter (fun p => decide (p.1 = s))
      = (List.range (keyCount keys s)).map fun i => (s, keyAt keys s i, i) := by
  unfold positions keyCount keyAt
  cases hget : keys.get s with
  | none =>
    refine List.filter_eq_nil_iff.mpr fun p hp => ?_
    obtain ⟨e, he, hin⟩ := List.mem_flatMap.mp hp
    obtain ⟨item, -, rfl⟩ := List.mem_map.mp hin
    have hne : e.1 ≠ s := by
      rintro rfl
      rw [order.mem_visit] at he
      rw [he] at hget
      cases hget
    simpa using hne
  | some keyList =>
    rw [order.filter_flatMap_visit keys List.zipIdx hget, zipIdx_eq, List.map_map]
    rfl

theorem mem_positions {order : VisitOrder UInt16 (List Bytes)} {keys : StateLists} {p : UInt16 × Bytes × Nat}
    (hp : p ∈ positions order keys) : p.2.2 < keyCount keys p.1 ∧ p.2.1 = keyAt keys p.1 p.2.2 := by
  obtain ⟨s, k, j⟩ := p
  have hmem : (s, k, j) ∈ (positions order keys).filter fun q => decide (q.1 = s) := by
    rw [List.mem_filter]
    exact ⟨hp, by simp⟩
  rw [positions_filter] at hmem
  obtain ⟨i, hi, heq⟩ := List.mem_map.mp hmem
  obtain ⟨-, rfl, rfl⟩ : s = s ∧ keyAt keys s i = k ∧ i = j := by simpa using heq
  exact ⟨List.mem_range.mp hi, rfl⟩

/-- **Grouping by location.**  What pushing every position to the group of its location leaves in one group. -/
theorem group_positions {V : Type}
    (loc : UInt16 → Nat → WorkerID) (v : UInt16 × Bytes × Nat → V) (w : WorkerID) (s : UInt16) :
    NestedMap.group ((positions order keys).foldl
        (fun m p => m.push (loc p.1 p.2.2) p.1 (v p)) (∅ : NestedMap WorkerID UInt16 (List V))) w s
      = ((List.range (keyCount keys s)).filter fun i => decide (loc s i = w)).map
          fun i => v (s, keyAt keys s i, i) := by
  rw [NestedMap.group_foldl_push (fun p : UInt16 × Bytes × Nat => loc p.1 p.2.2) Prod.fst v]
  have hsplit : (positions order keys).filter (fun p => decide (loc p.1 p.2.2 = w ∧ p.1 = s))
      = ((positions order keys).filter fun p => decide (p.1 = s)).filter
          fun p => decide (loc p.1 p.2.2 = w) := by
    rw [List.filter_filter]
    simp only [Bool.decide_and]
  rw [hsplit, positions_filter, List.filter_map, List.map_map]
  rfl

theorem foldl_pair {ι A B : Type} (f : A → ι → A) (g : B → ι → B) (items : List ι) (a : A) (b : B) :
    items.foldl (fun st i => (f st.1 i, g st.2 i)) (a, b) = (items.foldl f a, items.foldl g b) := by
  induction items generalizing a b with
  | nil => rfl
  | cons i items ih => rw [List.foldl_cons, List.foldl_cons, List.foldl_cons, ih]

/-! ## The goroutines -/

variable {ε σ : Type} (order : VisitOrder UInt16 (List Bytes)) (keys : StateLists)

/-- The two nested loops over the keys of a request. -/
theorem forEach_positions (body : σ → UInt16 × Bytes × Nat → Outcome ε σ) (s : σ) :
    forEach (order.visit keys) (fun s e => forEach e.2.zipIdx (fun s item => body s (e.1, item)) s) s
      = forEach (positions order keys) body s := by
  rw [positions, forEach_flatMap]
  exact forEach_congr fun e _ s => (forEach_map _ _ _ _).symm

/-- Two groupings made in one pass. -/
theorem forEach_positions_push {A B : Type} {owner : UInt16 × Bytes × Nat → WorkerID} {f : UInt16 × Bytes × Nat → A}
    {g : UInt16 × Bytes × Nat → B}
    {body : NestedMap WorkerID UInt16 (List A) × NestedMap WorkerID UInt16 (List B) → UInt16 × Bytes × Nat →
      Outcome ε (NestedMap WorkerID UInt16 (List A) × NestedMap WorkerID UInt16 (List B))}
    (h : ∀ p ∈ positions order keys, ∀ st,
      body st p = .ok (st.1.push (owner p) p.1 (f p), st.2.push (owner p) p.1 (g p))) :
    forEach (order.visit keys) (fun st e => forEach e.2.zipIdx (fun st item => body st (e.1, item)) st) (∅, ∅)
      = .ok ((positions order keys).foldl (fun m p => m.push (owner p) p.1 (f p)) ∅,
        (positions order keys).foldl (fun m p => m.push (owner p) p.1 (g p)) ∅) := by
  rw [forEach_positions, forEach_eq_foldl h]
  exact congrArg Outcome.ok (foldl_pair (fun m p => NestedMap.push m (owner p) p.1 (f p))
    (fun m p => NestedMap.push m (owner p) p.1 (g p)) _ ∅ ∅)

theorem readGroup_get (order : VisitOrder UInt16 (List Bytes)) (backend : Backend) (keys : StateLists) (s : UInt16) :
    (readGroup order backend keys ∅).get s = (keys.get s).map backend.getMany := by
  unfold readGroup
  cases hget : keys.get s with
  | none =>
    have hnot : s ∉ (order.visit keys).map Prod.fst := by
      rw [order.mem_keys_visit, hget]
      simp
    rw [GoMap.get_foldl_set_of_notMem Prod.fst (fun e => backend.getMany e.2) _ _ _ hnot]
    rfl
  | some keyList =>
    exact GoMap.get_foldl_set Prod.fst (fun e => backend.getMany e.2) _ (order.keys_nodup keys) ∅ (s, keyList)
      ((order.mem_visit keys s keyList).mpr hget)

/-- **Reading all groups**, in whatever order the goroutines finish. -/
theorem readAll_get (order : VisitOrder UInt16 (List Bytes)) (completion : VisitOrder WorkerID StateLists)
    (backends : WorkerID → Backend) (keysByWorker : WorkerLists) (w : WorkerID) (s : UInt16) :
    (readAll order completion backends keysByWorker).get w s
      = (keysByWorker.get w s).map (backends w).getMany := by
  unfold readAll NestedMap.get
  cases hget : GoMap.get keysByWorker w with
  | none =>
    have hnot : w ∉ (completion.visit keysByWorker).map Prod.fst := by
      rw [completion.mem_keys_visit, hget]
      simp
    rw [GoMap.get_foldl_set_of_notMem Prod.fst (fun e => readGroup order (backends e.1) e.2 ∅) _ _ _ hnot,
      GoMap.get_mapValues, hget]
    rfl
  | some keys =>
    have hread := GoMap.get_foldl_set Prod.fst (fun e => readGroup order (backends e.1) e.2 ∅) _
      (completion.keys_nodup keysByWorker) (GoMap.mapValues (fun _ => ∅) keysByWorker) (w, keys)
      ((completion.mem_visit keysByWorker w keys).mpr hget)
    rw [hread, Option.bind_some, Option.bind_some, readGroup_get]

/-! ## Merging -/

/-- **Reassembly of a request.**  Each group's values are those of its positions, and every position of the request
is in some group. -/
theorem mergeResults_ok {ε : Type} (oob : ε) (workers : VisitOrder WorkerID StateLists)
    (states : VisitOrder UInt16 (List Bytes)) (keys : StateLists) (resByWorker : WorkerLists)
    (indices : WorkerID → UInt16 → List Nat) (f : UInt16 → Nat → Bytes)
    (hparts : ∀ w s values, resByWorker.get w s = some values → values = (indices w s).map (f s) ∧
      ∀ j ∈ indices w s, ∃ keyList, keys.get s = some keyList ∧ j < keyList.length)
    (hcover : ∀ s keyList, keys.get s = some keyList → ∀ j < keyList.length,
      ∃ w values, resByWorker.get w s = some values ∧ j ∈ indices w s) :
    ∃ res, mergeResults oob workers states keys resByWorker indices = .ok res ∧
      ∀ s, res.get s = (keys.get s).map fun keyList => (List.range keyList.length).map (f s) := by
  obtain ⟨res, hrun, hnone, hsome⟩ := Gather.gather_ok (f := f) oob
    (fun part hpart => (hparts part.1 part.2.1 part.2.2 (NestedMap.mem_visitAll.mp hpart)).1)
    (fun part hpart j hj => by
      obtain ⟨keyList, hkeys, hlt⟩ := (hparts part.1 part.2.1 part.2.2 (NestedMap.mem_visitAll.mp hpart)).2 j hj
      refine ⟨List.replicate keyList.length ([] : Bytes), ?_, by rwa [List.length_replicate]⟩
      rw [GoMap.get_mapValues, hkeys]
      rfl)
  refine ⟨res, hrun, fun s => ?_⟩
  cases hkeys : keys.get s with
  | none => exact hnone s (by rw [GoMap.get_mapValues, hkeys]; rfl)
  | some keyList =>
    obtain ⟨values, hget, hlen, hat⟩ := hsome s (List.replicate keyList.length []) (by
      rw [GoMap.get_mapValues, hkeys]
      rfl)
    rw [List.length_replicate] at hlen hat
    rw [hget]
    refine congrArg some (List.ext_getElem? fun j => ?_)
    by_cases hj : j < keyList.length
    · obtain ⟨w, part, hpart, hin⟩ := hcover s keyList hkeys j hj
      have hmem : (s, j) ∈ (resByWorker.visitAll workers states).flatMap
          fun part => (indices part.1 part.2.1).map fun j => (part.2.1, j) :=
        List.mem_flatMap.mpr ⟨(w, s, part), NestedMap.mem_visitAll.mpr hpart, List.mem_map.mpr ⟨j, hin, rfl⟩⟩
      rw [hat j hj, if_pos hmem]
      simp [hj]
    · rw [List.getElem?_eq_none (by omega), List.getElem?_eq_none (by simp; omega)]

end State
end Koala
