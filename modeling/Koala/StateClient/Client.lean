import Koala.State.Backend
import Koala.StateClient.StateTypes
import Mathlib.Data.List.Dedup

/-!
# The state client

`StateClient` (`api/stateClient/stateClient.go`) fetches the states of the keys of a batch from the state service
into a cache, lets the operator work on them, and flushes them back: overwritten states with `SetMany`, appended
lists with `MergeMany`, cleared states with `DeleteMany`.

A `Slot` is a state id and a user key; for window state the key is a user key with a window start.  Everything
the client does to one slot is `slotCycle`, and a whole cycle is the cycles of its slots (`cycle_spec`).
-/

namespace Koala
namespace StateClient

open Lib Lib.Outcome State
open Function (update update_self update_of_ne)

/-- A state of a key. -/
structure Slot (K : Type) where
  stateID : Nat
  key : K
  deriving DecidableEq, Repr

/-- The registered states of an operator and the serialized keys. -/
structure Schema (K : Type) where
  type : Nat → StateType
  serializedKey : Slot K → Bytes
  serializedKey_injective : Function.Injective serializedKey

variable {K : Type} [DecidableEq K] (sch : Schema K)

/-- The state type of a slot. -/
abbrev Schema.typeOf (s : Slot K) : StateType := sch.type s.stateID

/-- The caches of all states. -/
abbrev Cache := (s : Slot K) → Option (sch.typeOf s).State

/-- What the operator has read from each slot, in order. -/
abbrev Answers := (s : Slot K) → List (sch.typeOf s).Res

/-- A user operation on the state of a key. -/
abbrev UserOp := (s : Slot K) × (sch.typeOf s).Op

/-- What a fetch asks for: some keys, for some states. -/
structure Request (K : Type) where
  keys : List K
  stateIDs : List Nat
  keys_ne : keys ≠ []
  stateIDs_ne : stateIDs ≠ []
  stateIDs_nodup : stateIDs.Nodup

/-- The slots of a fetch: the deduplicated keys for every requested state. -/
def Request.slots (req : Request K) : List (Slot K) :=
  req.stateIDs.flatMap fun stateID => req.keys.dedup.map fun key => ⟨stateID, key⟩

/-! ## Fetch, operations and flush -/

/-- `deserializeValue`: no bytes are an empty state. -/
def deserializeValue (t : StateType) (stored : Option Bytes) : Outcome StateAbort t.State :=
  match stored.getD [] with
  | [] => .ok t.new
  | b :: bytes => t.deserialize (b :: bytes)

/-- `FetchSimpleState`, `FetchWindowState`. -/
def fetch (b : Backend) (slots : List (Slot K)) : Outcome StateAbort (Cache sch) :=
  forEach slots (fun cache s => deserializeValue (sch.typeOf s) (b.get (sch.serializedKey s)) >>= fun value =>
    .ok (update cache s (some value))) fun _ => none

/-- One user operation on a cached state. -/
def userOp (r : Cache sch × Answers sch) (op : UserOp sch) : Outcome StateAbort (Cache sch × Answers sch) :=
  match r.1 op.1 with
  | some value => .ok (update r.1 op.1 (some ((sch.typeOf op.1).apply op.2 value)),
      update r.2 op.1 (r.2 op.1 ++ ((sch.typeOf op.1).answer op.2 value).toList))
  | none => .abort .notInCache

/-- What a flush does to one key of the backend. -/
inductive Write where
  | set (value : Bytes)
  | merge (value : Bytes)
  | delete
  deriving DecidableEq, Repr

variable (allowIncremental : Bool)

/-- The loop body of `GetSimpleStateFlushData` and `GetWindowStateFlushData`. -/
def flushData (t : StateType) (value : t.State) : Outcome StateAbort (Option Write) :=
  if !t.hasValue value then .ok none
  else if t.isDeleted value then .ok (some .delete)
  else if t.isUpdated value || (!allowIncremental && t.isAppended value) then
    t.serialize value >>= fun bytes => .ok (some (.set bytes))
  else if t.isAppended value then t.serializeInc value >>= fun bytes => .ok (some (.merge bytes))
  else .ok none

/-- One more slot of the requests for the state service. -/
def collectSlot (cache : Cache sch) (requests : List (Bytes × Write)) (s : Slot K) :
    Outcome StateAbort (List (Bytes × Write)) :=
  match cache s with
  | some value => flushData allowIncremental (sch.typeOf s) value >>= fun request =>
    .ok (requests ++ (request.map fun w => (sch.serializedKey s, w)).toList)
  | none => .abort .notInCache

/-- The requests collected from all caches. -/
def collect (cache : Cache sch) (slots : List (Slot K)) :
    Outcome StateAbort (List (Bytes × Write)) :=
  forEach slots (collectSlot sch allowIncremental cache) []

/-- The request overwrites its key. -/
def Write.toSet : Bytes × Write → Option (Bytes × Bytes)
  | (k, .set value) => some (k, value)
  | _ => none

/-- The request merges into its key. -/
def Write.toMerge : Bytes × Write → Option (Bytes × Bytes)
  | (k, .merge value) => some (k, value)
  | _ => none

/-- The request deletes its key. -/
def Write.toDelete : Bytes × Write → Option Bytes
  | (k, .delete) => some k
  | _ => none

/-- `SetManyMultiState`, then `MergeManyMultiState`, then `DeleteMany`. -/
def applyRequests (b : Backend) (requests : List (Bytes × Write)) : Backend :=
  ((b.setMany (requests.filterMap Write.toSet)).mergeMany (requests.filterMap Write.toMerge)).deleteMany
    (requests.filterMap Write.toDelete)

/-- `FlushSimpleState`, `FlushWindowState`. -/
def flush (b : Backend) (cache : Cache sch) (slots : List (Slot K)) : Outcome StateAbort Backend :=
  collect sch allowIncremental cache slots >>= fun requests => .ok (applyRequests b requests)

/-- One Fetch..Flush cycle around a sequence of user operations. -/
def cycle (slots : List (Slot K)) (r : Backend × Answers sch) (ops : List (UserOp sch)) :
    Outcome StateAbort (Backend × Answers sch) := do
  let cache ← fetch sch r.1 slots
  let (cache, answers) ← forEach ops (userOp sch) (cache, r.2)
  let b ← flush sch allowIncremental r.1 cache slots
  .ok (b, answers)

/-- Several cycles, one after the other. -/
def cycles (slots : List (Slot K)) (r : Backend × Answers sch)
    (batches : List (List (UserOp sch))) : Outcome StateAbort (Backend × Answers sch) :=
  forEach batches (cycle sch allowIncremental slots) r

/-! ## One slot -/

/-- What a request does to the stored bytes. -/
def Write.apply (stored : Option Bytes) : Option Write → Option Bytes
  | none => stored
  | some (.set value) => some value
  | some (.merge value) => some (stored.getD [] ++ value)
  | some .delete => none

/-- A run of user operations on one state. -/
def slotOps (t : StateType) : t.State → List t.Op → t.State × List t.Res
  | value, [] => (value, [])
  | value, op :: ops =>
    ((slotOps t (t.apply op value) ops).1, (t.answer op value).toList ++ (slotOps t (t.apply op value) ops).2)

/-- A cycle, as one slot sees it. -/
def slotCycle (t : StateType) (stored : Option Bytes) (ops : List t.Op) :
    Outcome StateAbort (Option Bytes × List t.Res) := do
  let value ← deserializeValue t stored
  let request ← flushData allowIncremental t (slotOps t value ops).1
  .ok (Write.apply stored request, (slotOps t value ops).2)

/-- The operations on one slot. -/
def opsAt (s : Slot K) (ops : List (UserOp sch)) : List (sch.typeOf s).Op :=
  ops.filterMap fun op => if h : op.1 = s then some (h ▸ op.2) else none

/-! ## A cycle is the cycles of its slots -/

theorem Request.slots_nodup (req : Request K) : req.slots.Nodup := by
  refine List.nodup_flatMap.mpr ⟨fun stateID _ => ?_, ?_⟩
  · exact (List.nodup_dedup _).map fun k k' h => (Slot.mk.inj h).2
  · refine req.stateIDs_nodup.imp fun {i j} hne => ?_
    intro s hi hj
    obtain ⟨k, -, rfl⟩ := List.mem_map.mp hi
    obtain ⟨k', -, heq⟩ := List.mem_map.mp hj
    exact hne (Slot.mk.inj heq).1.symm

variable {sch}

variable {b : Backend} {slots : List (Slot K)} {value : (s : Slot K) → (sch.typeOf s).State}

theorem fetch_spec
    (h : ∀ s ∈ slots, deserializeValue (sch.typeOf s) (b.get (sch.serializedKey s)) = .ok (value s)) :
    ∃ cache : Cache sch, fetch sch b slots = .ok cache ∧ ∀ s ∈ slots, cache s = some (value s) := by
  refine forEach_total (fun done (cache : Cache sch) => ∀ s ∈ done, cache s = some (value s)) (by simp) ?_
  intro done s rest cache hsplit hdone
  have hs : s ∈ slots := by rw [hsplit]; simp
  refine ⟨_, by rw [h s hs, ok_bind], fun s' hs' => ?_⟩
  by_cases heq : s' = s
  · subst heq
    exact update_self ..
  · rw [update_of_ne heq]
    exact hdone s' ((List.mem_append.mp hs').resolve_right (by simpa using heq))

theorem opsAt_cons_self (op : UserOp sch) (ops : List (UserOp sch)) :
    opsAt sch op.1 (op :: ops) = op.2 :: opsAt sch op.1 ops := by
  rw [opsAt, List.filterMap_cons, dif_pos rfl]
  rfl

theorem opsAt_cons_ne {s : Slot K} {op : UserOp sch} (h : op.1 ≠ s) (ops : List (UserOp sch)) :
    opsAt sch s (op :: ops) = opsAt sch s ops := by
  rw [opsAt, List.filterMap_cons, dif_neg h]
  rfl

theorem userOps_spec (ops : List (UserOp sch)) (cache : Cache sch) (answers : Answers sch)
    (hcached : ∀ op ∈ ops, (cache op.1).isSome) :
    ∃ cache' answers', forEach ops (userOp sch) (cache, answers) = .ok (cache', answers') ∧
      (∀ s value, cache s = some value → cache' s = some (slotOps (sch.typeOf s) value (opsAt sch s ops)).1 ∧
        answers' s = answers s ++ (slotOps (sch.typeOf s) value (opsAt sch s ops)).2) ∧
      ∀ s, (∀ op ∈ ops, op.1 ≠ s) → answers' s = answers s := by
  induction ops generalizing cache answers with
  | nil => exact ⟨cache, answers, rfl, fun s value hvalue => by simpa [slotOps, opsAt] using hvalue, fun _ _ => rfl⟩
  | cons op ops ih =>
    obtain ⟨hop, hrest⟩ := List.forall_mem_cons.mp hcached
    obtain ⟨value, hvalue⟩ := Option.isSome_iff_exists.mp hop
    have hfirst : userOp sch (cache, answers) op =
        .ok (update cache op.1 (some ((sch.typeOf op.1).apply op.2 value)), update answers op.1
            (answers op.1 ++ ((sch.typeOf op.1).answer op.2 value).toList)) := by
      simp only [userOp, hvalue]
    have hcached' : ∀ op' ∈ ops,
        (update cache op.1 (some ((sch.typeOf op.1).apply op.2 value)) op'.1).isSome := by
      intro op' hop'
      by_cases heq : op'.1 = op.1
      · rw [heq, update_self]
        rfl
      · rw [update_of_ne heq]
        exact hrest op' hop'
    obtain ⟨cache', answers', hrun, hslots, hothers⟩ := ih _
      (update answers op.1 (answers op.1 ++ ((sch.typeOf op.1).answer op.2 value).toList)) hcached'
    refine ⟨cache', answers', by rw [forEach_cons, hfirst, ok_bind, hrun], fun s v hs => ?_, fun s hs => ?_⟩
    · by_cases heq : s = op.1
      · subst heq
        obtain rfl : v = value := Option.some.inj (hs.symm.trans hvalue)
        obtain ⟨hcache, hanswers⟩ := hslots _ _ (update_self ..)
        rw [opsAt_cons_self, slotOps]
        refine ⟨hcache, ?_⟩
        rw [hanswers, update_self, List.append_assoc]
      · rw [opsAt_cons_ne (Ne.symm heq)]
        obtain ⟨hcache, hanswers⟩ := hslots s v (by rw [update_of_ne heq]; exact hs)
        refine ⟨hcache, ?_⟩
        rw [hanswers, update_of_ne heq]
    · obtain ⟨hne, hs⟩ := List.forall_mem_cons.mp hs
      rw [hothers s hs, update_of_ne (Ne.symm hne)]

/-- The requests of slots, in their order. -/
def requestsOf (sch : Schema K) (request : Slot K → Option Write) (slots : List (Slot K)) : List (Bytes × Write) :=
  slots.filterMap fun s => (request s).map fun w => (sch.serializedKey s, w)

variable (request : Slot K → Option Write)

omit [DecidableEq K] in
theorem mem_requestsOf {s : Slot K} {w : Write} (hs : s ∈ slots) :
    (sch.serializedKey s, w) ∈ requestsOf sch request slots ↔ request s = some w := by
  rw [requestsOf, List.mem_filterMap]
  constructor
  · rintro ⟨s', -, hw⟩
    obtain ⟨w', hw', heq⟩ := Option.map_eq_some_iff.mp hw
    obtain ⟨hkey, rfl⟩ := Prod.mk.inj heq
    rwa [sch.serializedKey_injective hkey] at hw'
  · exact fun hw => ⟨s, hs, by rw [hw]; rfl⟩

omit [DecidableEq K] in
theorem requestsOf_nodup (hnodup : slots.Nodup) :
    ((requestsOf sch request slots).map Prod.fst).Nodup := by
  have hsub : ((requestsOf sch request slots).map Prod.fst).Sublist (slots.map sch.serializedKey) := by
    clear hnodup
    induction slots with
    | nil => exact List.Sublist.refl _
    | cons s slots ih =>
      unfold requestsOf at ih ⊢
      cases hw : request s with
      | none =>
        rw [List.filterMap_cons_none (by rw [hw]; rfl)]
        exact ih.cons _
      | some w =>
        rw [List.filterMap_cons_some (by rw [hw]; rfl), List.map_cons, List.map_cons]
        exact ih.cons_cons _
  exact (hnodup.map sch.serializedKey_injective).sublist hsub

variable {allowIncremental : Bool} {cache : Cache sch}

omit [DecidableEq K] in
theorem collect_spec {request : Slot K → Option Write} (hcache : ∀ s ∈ slots, cache s = some (value s))
    (hflush : ∀ s ∈ slots, flushData allowIncremental (sch.typeOf s) (value s) = .ok (request s)) :
    collect sch allowIncremental cache slots = .ok (requestsOf sch request slots) := by
  refine forEach_eq (f := requestsOf sch request) fun done s rest hsplit => ?_
  have hs : s ∈ slots := by rw [hsplit]; simp
  simp only [collectSlot, hcache s hs, hflush s hs, ok_bind]
  rw [requestsOf, requestsOf, List.filterMap_append]
  cases hrequest : request s <;> simp [hrequest]

/-! ## What a flush does to the backend -/

theorem map_fst_filterMap_sublist {α β : Type} {f : Bytes × α → Option (Bytes × β)}
    (hf : ∀ r p, f r = some p → p.1 = r.1) (l : List (Bytes × α)) :
    ((l.filterMap f).map Prod.fst).Sublist (l.map Prod.fst) := by
  induction l with
  | nil => exact List.Sublist.refl _
  | cons r l ih =>
    cases hr : f r with
    | none =>
      rw [List.filterMap_cons_none hr]
      exact ih.cons _
    | some p =>
      rw [List.filterMap_cons_some hr, List.map_cons, List.map_cons, hf r p hr]
      exact ih.cons_cons _

theorem Write.toSet_fst (r : Bytes × Write) (p : Bytes × Bytes) (h : toSet r = some p) : p.1 = r.1 := by
  obtain ⟨k, w⟩ := r
  cases w <;> simp only [toSet, Option.some.injEq, reduceCtorEq] at h
  rw [← h]

theorem Write.toMerge_fst (r : Bytes × Write) (p : Bytes × Bytes) (h : toMerge r = some p) : p.1 = r.1 := by
  obtain ⟨k, w⟩ := r
  cases w <;> simp only [toMerge, Option.some.injEq, reduceCtorEq] at h
  rw [← h]

variable {requests : List (Bytes × Write)} {k v : Bytes}

theorem Write.mem_toSet : (k, v) ∈ requests.filterMap toSet ↔ (k, .set v) ∈ requests := by
  rw [List.mem_filterMap]
  constructor
  · rintro ⟨⟨k', w⟩, hmem, hw⟩
    cases w <;> simp only [toSet, Option.some.injEq, Prod.mk.injEq, reduceCtorEq] at hw
    obtain ⟨rfl, rfl⟩ := hw
    exact hmem
  · exact fun hmem => ⟨_, hmem, rfl⟩

theorem Write.mem_toMerge : (k, v) ∈ requests.filterMap toMerge ↔ (k, .merge v) ∈ requests := by
  rw [List.mem_filterMap]
  constructor
  · rintro ⟨⟨k', w⟩, hmem, hw⟩
    cases w <;> simp only [toMerge, Option.some.injEq, Prod.mk.injEq, reduceCtorEq] at hw
    obtain ⟨rfl, rfl⟩ := hw
    exact hmem
  · exact fun hmem => ⟨_, hmem, rfl⟩

theorem Write.mem_toDelete :
    k ∈ requests.filterMap toDelete ↔ (k, .delete) ∈ requests := by
  rw [List.mem_filterMap]
  constructor
  · rintro ⟨⟨k', w⟩, hmem, hw⟩
    cases w <;> simp only [toDelete, Option.some.injEq, reduceCtorEq] at hw
    subst hw
    exact hmem
  · exact fun hmem => ⟨_, hmem, rfl⟩

section

variable (b : Backend) {requests : List (Bytes × Write)} {k : Bytes}

theorem get_sets_of_none (hnodup : (requests.map Prod.fst).Nodup) (hnone : ∀ v, (k, .set v) ∉ requests) :
    (b.setMany (requests.filterMap Write.toSet)).get k = b.get k := by
  have hsub := map_fst_filterMap_sublist Write.toSet_fst requests
  rcases b.get_setMany _ (hnodup.sublist hsub) k with ⟨v, hmem, -⟩ | ⟨-, hget⟩
  · exact absurd (Write.mem_toSet.mp hmem) (hnone v)
  · exact hget

theorem get_merges_of_none (hnodup : (requests.map Prod.fst).Nodup) (hnone : ∀ v, (k, .merge v) ∉ requests) :
    (b.mergeMany (requests.filterMap Write.toMerge)).get k = b.get k := by
  have hsub := map_fst_filterMap_sublist Write.toMerge_fst requests
  rcases b.get_mergeMany _ (hnodup.sublist hsub) k with ⟨v, hmem, -⟩ | ⟨-, hget⟩
  · exact absurd (Write.mem_toMerge.mp hmem) (hnone v)
  · exact hget

theorem get_deletes_of_none (hnone : (k, .delete) ∉ requests) :
    (b.deleteMany (requests.filterMap Write.toDelete)).get k = b.get k := by
  rw [Backend.get_deleteMany, if_neg (mt Write.mem_toDelete.mp hnone)]

theorem get_applyRequests (hnodup : (requests.map Prod.fst).Nodup) {w : Write} (hmem : (k, w) ∈ requests) :
    (applyRequests b requests).get k = Write.apply (b.get k) (some w) := by
  have hunique : ∀ w', w' ≠ w → (k, w') ∉ requests := fun w' hne hw' =>
    hne (Prod.mk.inj (List.inj_on_of_nodup_map hnodup hw' hmem rfl)).2
  unfold applyRequests
  cases w with
  | set v =>
    rw [get_deletes_of_none _ (hunique _ (by simp)), get_merges_of_none _ hnodup fun _ => hunique _ (by simp)]
    have hsub := map_fst_filterMap_sublist Write.toSet_fst requests
    rcases b.get_setMany _ (hnodup.sublist hsub) k with ⟨v', hmem', hget⟩ | ⟨hnot, -⟩
    · rw [hget]
      by_cases hv : v' = v
      · rw [hv, Write.apply]
      · exact absurd (Write.mem_toSet.mp hmem') (hunique _ (by simpa using hv))
    · exact absurd (List.mem_map.mpr ⟨(k, v), Write.mem_toSet.mpr hmem, rfl⟩) hnot
  | merge v =>
    rw [get_deletes_of_none _ (hunique _ (by simp))]
    have hsub := map_fst_filterMap_sublist Write.toMerge_fst requests
    have hsets := get_sets_of_none b hnodup fun _ => hunique (.set _) (by simp)
    rcases (b.setMany (requests.filterMap Write.toSet)).get_mergeMany _ (hnodup.sublist hsub) k with
      ⟨v', hmem', hget⟩ | ⟨hnot, -⟩
    · rw [hget, hsets]
      by_cases hv : v' = v
      · rw [hv, Write.apply]
      · exact absurd (Write.mem_toMerge.mp hmem') (hunique _ (by simpa using hv))
    · exact absurd (List.mem_map.mpr ⟨(k, v), Write.mem_toMerge.mpr hmem, rfl⟩) hnot
  | delete => rw [Backend.get_deleteMany, if_pos (Write.mem_toDelete.mpr hmem), Write.apply]

theorem get_applyRequests_of_none (hnodup : (requests.map Prod.fst).Nodup) (hnone : ∀ w, (k, w) ∉ requests) :
    (applyRequests b requests).get k = b.get k := by
  unfold applyRequests
  rw [get_deletes_of_none _ (hnone _), get_merges_of_none _ hnodup fun v => hnone _,
    get_sets_of_none _ hnodup fun v => hnone _]

end

omit [DecidableEq K] in
/-- A flush applies to each slot the request of its state, and touches no other key. -/
theorem flush_spec (hnodup : slots.Nodup)
    {request : Slot K → Option Write} (hcache : ∀ s ∈ slots, cache s = some (value s))
    (hflush : ∀ s ∈ slots, flushData allowIncremental (sch.typeOf s) (value s) = .ok (request s)) :
    ∃ b', flush sch allowIncremental b cache slots = .ok b' ∧
      (∀ s ∈ slots, b'.get (sch.serializedKey s) = Write.apply (b.get (sch.serializedKey s)) (request s)) ∧
      ∀ k, (∀ s ∈ slots, sch.serializedKey s ≠ k) → b'.get k = b.get k := by
  have hkeys : ((requestsOf sch request slots).map Prod.fst).Nodup := requestsOf_nodup request hnodup
  refine ⟨applyRequests b (requestsOf sch request slots), ?_, fun s hs => ?_, fun k hk => ?_⟩
  · rw [flush, collect_spec hcache hflush, ok_bind]
  · cases hw : request s with
    | none =>
      refine get_applyRequests_of_none b hkeys fun w hw' => ?_
      rw [mem_requestsOf request hs, hw] at hw'
      cases hw'
    | some w => exact get_applyRequests b hkeys ((mem_requestsOf request hs).mpr hw)
  · refine get_applyRequests_of_none b hkeys fun w hw => ?_
    obtain ⟨s, hs, heq⟩ := List.mem_filterMap.mp hw
    obtain ⟨w', -, heq⟩ := Option.map_eq_some_iff.mp heq
    exact hk s hs (Prod.mk.inj heq).1

/-- **A cycle acts on each slot on its own**: if the cycle of every slot goes through, so does the whole, with
the same bytes and answers, and no other key is touched. -/
theorem cycle_spec (hnodup : slots.Nodup) (answers : Answers sch) {ops : List (UserOp sch)}
    (hops : ∀ op ∈ ops, op.1 ∈ slots) {result : (s : Slot K) → Option Bytes × List (sch.typeOf s).Res}
    (h : ∀ s ∈ slots, slotCycle allowIncremental (sch.typeOf s) (b.get (sch.serializedKey s)) (opsAt sch s ops) = .ok (result s)) :
    ∃ b' answers', cycle sch allowIncremental slots (b, answers) ops = .ok (b', answers') ∧
      (∀ s ∈ slots, b'.get (sch.serializedKey s) = (result s).1 ∧ answers' s = answers s ++ (result s).2) ∧
      (∀ k, (∀ s ∈ slots, sch.serializedKey s ≠ k) → b'.get k = b.get k) ∧
      ∀ s, s ∉ slots → answers' s = answers s := by
  have hslot : ∀ s, ∃ (value : (sch.typeOf s).State) (request : Option Write), s ∈ slots →
      deserializeValue (sch.typeOf s) (b.get (sch.serializedKey s)) = .ok value ∧
      flushData allowIncremental (sch.typeOf s) (slotOps (sch.typeOf s) value (opsAt sch s ops)).1 = .ok request ∧
      result s = (Write.apply (b.get (sch.serializedKey s)) request,
        (slotOps (sch.typeOf s) value (opsAt sch s ops)).2) := by
    intro s
    by_cases hs : s ∈ slots
    · obtain ⟨value, hvalue, hcycle⟩ := bind_eq_ok.mp (h s hs)
      obtain ⟨request, hrequest, hcycle⟩ := bind_eq_ok.mp hcycle
      exact ⟨value, request, fun _ => ⟨hvalue, hrequest, (ok.inj hcycle).symm⟩⟩
    · exact ⟨(sch.typeOf s).new, none, fun hin => absurd hin hs⟩
  choose value request hspec using hslot
  obtain ⟨cache, hfetch, hcache⟩ := fetch_spec fun s hs => (hspec s hs).1
  obtain ⟨cache', answers', hrun, hslots, hothers⟩ := userOps_spec ops cache answers fun op hop => by
    rw [hcache op.1 (hops op hop)]
    rfl
  obtain ⟨b', hflush, hstored, hkept⟩ :=
    flush_spec (b := b) hnodup (fun s hs => (hslots s _ (hcache s hs)).1) fun s hs => (hspec s hs).2.1
  refine ⟨b', answers', ?_, fun s hs => ?_, hkept, fun s hs => ?_⟩
  · simp only [cycle, hfetch, ok_bind, hrun, hflush]
  · rw [(hspec s hs).2.2]
    exact ⟨hstored s hs, (hslots s _ (hcache s hs)).2⟩
  · refine hothers s fun op hop heq => hs ?_
    rw [← heq]
    exact hops op hop

theorem slotCycle_of_cycle {answers : Answers sch} {ops : List (UserOp sch)} (hops : ∀ op ∈ ops, op.1 ∈ slots)
    (hvalue : ∀ s ∈ slots, deserializeValue (sch.typeOf s) (b.get (sch.serializedKey s)) = .ok (value s))
    {r : Backend × Answers sch} (h : cycle sch allowIncremental slots (b, answers) ops = .ok r) :
    ∀ s ∈ slots, ∃ r', slotCycle allowIncremental (sch.typeOf s) (b.get (sch.serializedKey s)) (opsAt sch s ops)
      = .ok r' := by
  intro s hs
  obtain ⟨cache, hfetch, hcache⟩ := fetch_spec hvalue
  obtain ⟨cache', answers', hrun, hslots, -⟩ := userOps_spec ops cache answers fun op hop => by
    rw [hcache op.1 (hops op hop)]
    rfl
  simp only [cycle, hfetch, ok_bind, hrun, flush] at h
  obtain ⟨b', hflush, -⟩ := bind_eq_ok.mp h
  obtain ⟨requests, hcollect, -⟩ := bind_eq_ok.mp hflush
  obtain ⟨before, after, hone⟩ := forEach_mem_ok hcollect hs
  rw [collectSlot, (hslots s _ (hcache s hs)).1] at hone
  obtain ⟨request, hrequest, -⟩ := bind_eq_ok.mp hone
  refine ⟨(Write.apply (b.get (sch.serializedKey s)) request,
    (slotOps (sch.typeOf s) (value s) (opsAt sch s ops)).2), ?_⟩
  rw [slotCycle, hvalue s hs, ok_bind, hrequest, ok_bind]

end StateClient
end Koala
