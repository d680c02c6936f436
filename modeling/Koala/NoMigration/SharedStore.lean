import Koala.Lib.Machine
import Koala.NoMigration.Grouping

/-!
# One store on many workers

Under the lazy protocol without migration the workers share a fixed bucket table, and an operation on state is a
call that sends every worker the keys it owns.  The machine interleaves the calls of all workers: a worker has one
call at a time, which it waits for; the goroutines of a call take the states of their groups one after the other, in
an order of the runtime's choosing, so that the next request can be any of those that are left.

`single` is the same sequence of operations, in the order they were issued, on one key-value store.  Calls that are
under way at the same time have no key in common (`Exclusive`).  Then the distributed store is the single one seen
through the requests that are still to be served (`Inv.pending`, `Inv.idle`), and every read returns what the single
store had when the read was issued (`sharedStore_reads`).
-/

namespace Koala
namespace NoMigration

open Lib Lib.Outcome
open Function (update update_self update_of_ne)
open Partition (WorkerID BucketID)
open State (Backend StateLists WorkerLists)

variable {lay : Layout}

/-! ## Operations -/

inductive Op (lay : Layout) where
  | read (op : ReadOp lay)
  | overwrite (op : WriteOp lay)
  | merge (op : WriteOp lay)
  | delete (op : DeleteOp lay)

namespace Op

def keys : Op lay → StateLists
  | read op => op.keys
  | overwrite op => op.keys
  | merge op => op.keys
  | delete op => op.keys

/-- A key of the operation. -/
def Touches (op : Op lay) (k : Bytes) : Prop := k ∈ keysOf op.keys (lay.stateOf k)

/-- The operation on one key-value store, state by state. -/
def apply (b : Backend) : Op lay → Backend
  | read _ => b
  | overwrite op => op.keys.pairs.foldl (fun b e => b.setMany (e.2.zip (keysOf op.values e.1))) b
  | merge op => op.keys.pairs.foldl (fun b e => b.mergeMany (e.2.zip (keysOf op.values e.1))) b
  | delete op => op.keys.pairs.foldl (fun b e => b.deleteMany e.2) b

end Op

/-- A sequence of operations on one key-value store. -/
def single (start : Backend) (ops : List (Op lay)) : Backend := ops.foldl Op.apply start

/-! ## The machine -/

/-- A call under way. -/
structure Call (lay : Layout) where
  op : Op lay
  /-- The groups of keys for which no request has been served. -/
  todo : WorkerLists
  values : WorkerLists
  tracker : IndexTracker
  /-- `resByWorker`. -/
  res : WorkerLists
  /-- The operations issued before this one; not in the code. -/
  before : List (Op lay)

/-- A read that has returned. -/
structure Answer (lay : Layout) where
  request : ReadOp lay
  res : StateLists
  before : List (Op lay)

structure Sys (lay : Layout) where
  backends : WorkerID → Backend
  calls : WorkerID → Option (Call lay)
  /-- Everything issued and every answer so far; not in the code. -/
  issued : List (Op lay)
  answers : List (Answer lay)

inductive Action (lay : Layout) where
  | issue (w : WorkerID) (op : Op lay) (orders : Nat → VisitOrder UInt16 (List Bytes))
  | serve (w target : WorkerID) (s : UInt16)
  | finish (w : WorkerID) (workers : VisitOrder WorkerID StateLists) (states : VisitOrder UInt16 (List Bytes))

variable (orders : Nat → VisitOrder UInt16 (List Bytes)) (before : List (Op lay))

/-- The grouping at the start of `remoteRead`, `remoteOverwrite`, `remoteMerge` and `remoteDelete`. -/
def Call.start : Op lay → Outcome Abort (Call lay)
  | .read op => do
    let (keysByWorker, tracker) ← groupRead orders lay.table op.keys op.bucketIDs
    pure ⟨.read op, keysByWorker, ∅, tracker, ∅, before⟩
  | .overwrite op => do
    let (keysByWorker, valuesByWorker) ← groupKeysAndValuesByWorker (orders 0) lay.table op.keys op.values op.bucketIDs
    pure ⟨.overwrite op, keysByWorker, valuesByWorker, ∅, ∅, before⟩
  | .merge op => do
    let (keysByWorker, valuesByWorker) ← groupKeysAndValuesByWorker (orders 0) lay.table op.keys op.values op.bucketIDs
    pure ⟨.merge op, keysByWorker, valuesByWorker, ∅, ∅, before⟩
  | .delete op => do
    let keysByWorker ← groupDelete (orders 0) lay.table op.keys op.bucketIDs
    pure ⟨.delete op, keysByWorker, ∅, ∅, ∅, before⟩

/-- The values of a group in `remoteOverwriteToWorker`, `overwriteLocalState` and their counterparts for merges. -/
def Call.valuesFor (c : Call lay) (w target : WorkerID) (s : UInt16) : Outcome Abort (List Bytes) :=
  match c.values.get target s with
  | none => .abort (if target = w then .valuesNotFound s else .missingValues s)
  | some vals => pure vals

/-- One request of a call, with the handler of the worker that serves it: what becomes of that worker's backend and
of the results. -/
def Call.request (c : Call lay) (w target : WorkerID) (s : UInt16) (keys : List Bytes) (b : Backend) :
    Outcome Abort (Backend × WorkerLists) :=
  match c.op with
  | .read _ => do
    let values := b.getMany keys
    check (target ≠ w ∧ values.length ≠ keys.length) (.valueCount values.length keys.length)
    pure (b, c.res.set target s values)
  | .overwrite _ => do
    let vals ← c.valuesFor w target s
    pure (b.setMany (keys.zip vals), c.res)
  | .merge _ => do
    let vals ← c.valuesFor w target s
    pure (b.mergeMany (keys.zip vals), c.res)
  | .delete _ => pure (b.deleteMany keys, c.res)

/-- All requests have been served: the wait group is down to zero. -/
def Call.served (c : Call lay) : Bool := (c.todo.entriesWhere fun _ => true).isEmpty

def step (st : Sys lay) : Action lay → Outcome Abort (Sys lay)
  | .issue w op orders =>
    match st.calls w with
    | some _ => .stuck
    | none => do
      let c ← Call.start orders st.issued op
      pure { st with calls := update st.calls w (some c), issued := st.issued ++ [op] }
  | .serve w target s =>
    match st.calls w with
    | none => .stuck
    | some c =>
      match c.todo.get target s with
      | none => .stuck
      | some keys => do
        let (b, res) ← c.request w target s keys (st.backends target)
        pure { st with
          backends := update st.backends target b
          calls := update st.calls w (some { c with todo := c.todo.delete target s, res := res }) }
  | .finish w workers states =>
    match st.calls w with
    | none => .stuck
    | some c =>
      if c.served = false then .stuck
      else
        match c.op with
        | .read op => do
          let res ← State.mergeResults .outOfRange workers states op.keys c.res
            fun target _ => (c.tracker.get target).getD []
          pure { st with
            calls := update st.calls w none
            answers := st.answers ++ [⟨op, res, c.before⟩] }
        | _ => pure { st with calls := update st.calls w none }

/-- The workers store what `start` has. -/
def Represents (lay : Layout) (backends : WorkerID → Backend) (start : Backend) : Prop :=
  ∀ k, ((backends (lay.owner k)).get k).getD [] = (start.get k).getD []

def machine (lay : Layout) (start : Backend) : Machine (Sys lay) (Action lay) Abort where
  init st := Represents lay st.backends start ∧ st.calls = (fun _ => none) ∧ st.issued = [] ∧ st.answers = []
  step := step

/-- One operation at a time for each key. -/
def Exclusive (st : Sys lay) : Action lay → Prop
  | .issue _ op _ => ∀ w c, st.calls w = some c → ∀ k, op.Touches k → ¬ c.op.Touches k
  | _ => True

/-! ## What an operation does to one key -/

namespace Op

/-- The pairs of a write with a given key. -/
def pairsOn (op : WriteOp lay) (k : Bytes) : List (Bytes × Bytes) :=
  ((keysOf op.keys (lay.stateOf k)).zip (keysOf op.values (lay.stateOf k))).filter fun p => decide (p.1 = k)

/-- The new value of a key. -/
def effect (op : Op lay) (k : Bytes) (v : Option Bytes) : Option Bytes :=
  match op with
  | read _ => v
  | overwrite op => (pairsOn op k).foldl (fun _ p => some p.2) v
  | merge op => (pairsOn op k).foldl (fun v p => some (v.getD [] ++ p.2)) v
  | delete op => if k ∈ keysOf op.keys (lay.stateOf k) then none else v

theorem sorted (op : Op lay) : lay.Sorted op.keys := by
  cases op with
  | read op | overwrite op | merge op | delete op => exact op.sorted

variable {k : Bytes}

theorem pairs_eq_nil {keys : List Bytes} (hk : k ∉ keys) (values : List Bytes) :
    (keys.zip values).filter (fun p => decide (p.1 = k)) = [] := by
  refine List.filter_eq_nil_iff.mpr fun p hp => ?_
  have hne : p.1 ≠ k := fun heq => hk (heq ▸ (List.of_mem_zip hp).1)
  simpa using hne

theorem effect_of_not_touches {op : Op lay} (hk : ¬ op.Touches k) (v : Option Bytes) :
    op.effect k v = v := by
  cases op with
  | read => rfl
  | overwrite op | merge op =>
    have hnil : pairsOn op k = [] := pairs_eq_nil hk _
    rw [effect, hnil, List.foldl_nil]
  | delete => exact if_neg hk

theorem effect_congr (op : Op lay) (k : Bytes) {v v' : Option Bytes} (h : v.getD [] = v'.getD []) :
    (op.effect k v).getD [] = (op.effect k v').getD [] := by
  cases op with
  | read => exact h
  | overwrite op =>
    simp only [effect]
    cases pairsOn op k with
    | nil => exact h
    | cons p pairs => rfl
  | merge op =>
    simp only [effect]
    cases pairsOn op k with
    | nil => exact h
    | cons p pairs => rw [List.foldl_cons, List.foldl_cons, h]
  | delete =>
    simp only [effect]
    split_ifs
    · rfl
    · exact h

/-- A loop over the states of a request, seen at a key that only one of them can change. -/
theorem get_foldl_states {f : Backend → UInt16 × List Bytes → Backend} {g : List Bytes → Option Bytes → Option Bytes}
    {s : UInt16} (keys : StateLists) (b : Backend) (hnil : ∀ v, g [] v = v)
    (hself : ∀ b keyList, (f b (s, keyList)).get k = g keyList (b.get k))
    (hother : ∀ b e, keys.get e.1 = some e.2 → e.1 ≠ s → (f b e).get k = b.get k) :
    (keys.pairs.foldl f b).get k = g (keysOf keys s) (b.get k) := by
  have hskip : ∀ (l : List (UInt16 × List Bytes)) (b : Backend),
      (∀ e ∈ l, keys.get e.1 = some e.2 ∧ e.1 ≠ s) → (l.foldl f b).get k = b.get k := by
    intro l
    induction l with
    | nil => exact fun b _ => rfl
    | cons e _ ih =>
      intro b hl
      obtain ⟨hget, hne⟩ := hl e (by simp)
      rw [List.foldl_cons, ih _ fun e' he' => hl e' (by simp [he']), hother b e hget hne]
  have hmem : ∀ e ∈ keys.pairs, keys.get e.1 = some e.2 := fun e he => (GoMap.mem_pairs keys e.1 e.2).mp he
  cases hget : keys.get s with
  | none =>
    rw [keysOf, hget, Option.getD_none, hnil]
    refine hskip _ _ fun e he => ⟨hmem e he, fun heq => ?_⟩
    rw [← heq, hmem e he] at hget
    cases hget
  | some keyList =>
    have hin : (s, keyList) ∈ keys.pairs := (GoMap.mem_pairs keys s keyList).mpr hget
    have hnodup : (keys.pairs.map Prod.fst).Nodup := by
      rw [GoMap.pairs_map_fst]
      exact AList.keys_nodup keys
    obtain ⟨l, l', hsplit⟩ := List.append_of_mem hin
    rw [hsplit, List.map_append, List.map_cons, List.nodup_append] at hnodup
    obtain ⟨-, hafter, hdisj⟩ := hnodup
    rw [hsplit] at hmem
    rw [hsplit, List.foldl_append, List.foldl_cons, keysOf, hget, Option.getD_some,
      hskip l' _ fun e he => ⟨hmem e (by simp [he]), fun heq => ?_⟩, hself,
      hskip l b fun e he => ⟨hmem e (by simp [he]), fun heq => ?_⟩]
    · exact hdisj e.1 (List.mem_map_of_mem he) s (by simp) heq
    · have hlater : e.1 ∈ l'.map Prod.fst := List.mem_map_of_mem he
      rw [heq] at hlater
      exact (List.nodup_cons.mp hafter).1 hlater

/-- **An operation on the single store**, key by key. -/
theorem get_apply (op : Op lay) (b : Backend) (k : Bytes) : (op.apply b).get k = op.effect k (b.get k) := by
  have hforeign : ∀ e : UInt16 × List Bytes, op.keys.get e.1 = some e.2 → e.1 ≠ lay.stateOf k → k ∉ e.2 :=
    fun e hget hne hk => hne (op.sorted e.1 e.2 hget k hk).symm
  cases op with
  | read => rfl
  | overwrite op =>
    refine get_foldl_states (f := fun b e => b.setMany (e.2.zip (keysOf op.values e.1)))
      (g := fun keyList v => ((keyList.zip (keysOf op.values (lay.stateOf k))).filter
        fun p => decide (p.1 = k)).foldl (fun _ p => some p.2) v) op.keys b
      (fun v => rfl) (fun b keyList => Backend.get_setMany_eq_foldl _ _ _) fun b e hget hne => ?_
    rw [Backend.get_setMany_eq_foldl, pairs_eq_nil (hforeign e hget hne), List.foldl_nil]
  | merge op =>
    refine get_foldl_states (f := fun b e => b.mergeMany (e.2.zip (keysOf op.values e.1)))
      (g := fun keyList v => ((keyList.zip (keysOf op.values (lay.stateOf k))).filter
        fun p => decide (p.1 = k)).foldl (fun v p => some (v.getD [] ++ p.2)) v) op.keys b
      (fun v => rfl) (fun b keyList => Backend.get_mergeMany_eq_foldl _ _ _) fun b e hget hne => ?_
    rw [Backend.get_mergeMany_eq_foldl, pairs_eq_nil (hforeign e hget hne), List.foldl_nil]
  | delete op =>
    refine get_foldl_states (f := fun b e => b.deleteMany e.2)
      (g := fun keyList v => if k ∈ keyList then none else v) op.keys b
      (fun v => by simp) (fun b keyList => Backend.get_deleteMany _ _ _) fun b e hget hne => ?_
    rw [Backend.get_deleteMany, if_neg (hforeign e hget hne)]

end Op

/-! ## Calls -/

/-- What holds of a call at all times.  For reads, `value` is what the result is to have. -/
structure CallOk (c : Call lay) (value : Bytes → Bytes) : Prop where
  /-- What is left are whole groups. -/
  left : ∀ target s keys, c.todo.get target s = some keys → keys = lay.share c.op.keys target s ∧ keys ≠ []
  paired : ∀ op, c.op = .overwrite op ∨ c.op = .merge op → ∀ target s keys, c.todo.get target s = some keys →
    ∃ vals, c.values.get target s = some vals ∧
      keys.zip vals = ((keysOf op.keys s).zip (keysOf op.values s)).filter fun p => decide (lay.owner p.1 = target)
  tracked : ∀ op, c.op = .read op → op.Tracked c.tracker
  results : ∀ op, c.op = .read op → ∀ target s values, c.res.get target s = some values →
    values = (lay.share op.keys target s).map value ∧ op.keys.get s ≠ none
  /-- A read has a result for every group that is not left. -/
  complete : ∀ op, c.op = .read op → ∀ target s, lay.share op.keys target s ≠ [] → c.todo.get target s = none →
    c.res.get target s ≠ none

variable {keys : StateLists} {keysByWorker : WorkerLists} {target : WorkerID} {s : UInt16} {group : List Bytes}

theorem Grouped.left (h : Grouped lay keys keysByWorker)
    (hget : keysByWorker.get target s = some group) :
    group = lay.share keys target s ∧ group ≠ [] := by
  refine ⟨?_, h.noEmpty target s group hget⟩
  rw [← h.group, NestedMap.group, hget, Option.getD_some]

theorem Grouped.get_ne_none (h : Grouped lay keys keysByWorker) (hne : lay.share keys target s ≠ []) :
    keysByWorker.get target s ≠ none := by
  rw [h.noEmpty.get_eq, h.group, if_neg hne]
  exact Option.some_ne_none _

theorem Paired.get {values : StateLists} {valuesByWorker : WorkerLists}
    (h : Paired lay keys values keysByWorker valuesByWorker)
    (hget : keysByWorker.get target s = some group) :
    ∃ vals, valuesByWorker.get target s = some vals ∧
      group.zip vals = ((keysOf keys s).zip (keysOf values s)).filter fun p => decide (lay.owner p.1 = target) := by
  have hsome := h.present target s
  rw [hget, Option.isSome_some, Option.isSome_iff_exists] at hsome
  obtain ⟨vals, hvals⟩ := hsome
  have hpairs := h.pairs target s
  rw [NestedMap.group, NestedMap.group, hget, hvals, Option.getD_some, Option.getD_some] at hpairs
  exact ⟨vals, hvals, hpairs⟩

/-- **A call starts** without an abort, with all its groups to be served. -/
theorem Call.start_ok (op : Op lay) (value : Bytes → Bytes) :
    ∃ c, Call.start orders before op = .ok c ∧ c.op = op ∧ c.before = before ∧ CallOk c value ∧
      ∀ target s, lay.share op.keys target s ≠ [] → c.todo.get target s ≠ none := by
  cases op with
  | read op =>
    obtain ⟨keysByWorker, tracker, hrun, hgrouped, htracked⟩ := op.groupRead_ok orders
    refine ⟨⟨.read op, keysByWorker, ∅, tracker, ∅, before⟩, ?_, rfl, rfl, ?_, fun _ _ => hgrouped.get_ne_none⟩
    · rw [Call.start, hrun]
      rfl
    · refine ⟨fun _ _ _ => hgrouped.left, ?_, ?_, ?_, ?_⟩
      · rintro op' (h | h) <;> cases h
      · rintro op' ⟨⟩
        exact htracked
      · intro op' _ target s values hget
        simp at hget
      · rintro op' ⟨⟩ target s hne hnone
        exact absurd hnone (hgrouped.get_ne_none hne)
  | overwrite op | merge op =>
    obtain ⟨keysByWorker, valuesByWorker, hrun, hgrouped, hpaired⟩ := op.groupKeysAndValuesByWorker_ok (orders 0)
    refine ⟨⟨_, keysByWorker, valuesByWorker, ∅, ∅, before⟩, ?_, rfl, rfl, ?_, fun _ _ => hgrouped.get_ne_none⟩
    · rw [Call.start, hrun]
      rfl
    · refine ⟨fun _ _ _ => hgrouped.left, ?_, by simp, by simp, by simp⟩
      rintro op' (⟨⟨⟩⟩ | ⟨⟨⟩⟩) target s keys hget
      exact hpaired.get hget
  | delete op =>
    obtain ⟨keysByWorker, hrun, hgrouped⟩ := groupDelete_ok op (orders 0)
    refine ⟨⟨.delete op, keysByWorker, ∅, ∅, ∅, before⟩, ?_, rfl, rfl, ?_, fun _ _ => hgrouped.get_ne_none⟩
    · rw [Call.start, hrun]
      rfl
    · refine ⟨fun _ _ _ => hgrouped.left, ?_, by simp, by simp, by simp⟩
      rintro op' (h | h) <;> cases h

variable {k : Bytes}

theorem mem_keysOf_state (h : lay.Sorted keys) (hk : k ∈ keysOf keys s) :
    lay.stateOf k = s := by
  unfold keysOf at hk
  cases hget : keys.get s with
  | none => simp [hget] at hk
  | some keyList =>
    rw [hget, Option.getD_some] at hk
    exact h s keyList hget k hk

theorem share_pairs (op : WriteOp lay) (k : Bytes) (s : UInt16) :
    ((((keysOf op.keys s).zip (keysOf op.values s)).filter fun p => decide (lay.owner p.1 = lay.owner k)).filter
        fun p => decide (p.1 = k))
      = if lay.stateOf k = s then Op.pairsOn op k else [] := by
  have hmerge : (((keysOf op.keys s).zip (keysOf op.values s)).filter
        fun p => decide (lay.owner p.1 = lay.owner k)).filter (fun p => decide (p.1 = k))
      = ((keysOf op.keys s).zip (keysOf op.values s)).filter fun p => decide (p.1 = k) := by
    rw [List.filter_filter]
    refine List.filter_congr fun p _ => ?_
    by_cases hp : p.1 = k
    · simp [hp]
    · simp [hp]
  rw [hmerge]
  split_ifs with hs
  · rw [← hs]
    rfl
  · exact Op.pairs_eq_nil (fun hk => hs (mem_keysOf_state op.sorted hk)) _

variable {c : Call lay} {value : Bytes → Bytes} {target' : WorkerID} {s' : UInt16}

theorem CallOk.todo_of_delete {keys : List Bytes} (hget : (c.todo.delete target s).get target' s' = some keys) :
    c.todo.get target' s' = some keys := by
  rw [NestedMap.get_delete] at hget
  split_ifs at hget
  exact hget

/-- A write has no results: it only has one group less to be served. -/
theorem CallOk.written (h : CallOk c value) (hop : ∀ op, c.op ≠ .read op) (target : WorkerID) (s : UInt16) :
    CallOk { c with todo := c.todo.delete target s } value where
  left _ _ _ hget := h.left _ _ _ (todo_of_delete hget)
  paired op hwrite _ _ _ hget := h.paired op hwrite _ _ _ (todo_of_delete hget)
  tracked op hread := absurd hread (hop op)
  results op hread := absurd hread (hop op)
  complete op hread := absurd hread (hop op)

/-- **A request is served** without an abort, and does to the keys of its group what the operation does to them. -/
theorem CallOk.request (h : CallOk c value) {keys : List Bytes} (hget : c.todo.get target s = some keys)
    (w : WorkerID) (b : Backend) (hvalue : ∀ op, c.op = .read op → ∀ k ∈ keys, (b.get k).getD [] = value k) :
    ∃ b' res, c.request w target s keys b = .ok (b', res) ∧
      CallOk { c with todo := c.todo.delete target s, res := res } value ∧
      ∀ k, lay.owner k = target →
        b'.get k = if lay.stateOf k = s then c.op.effect k (b.get k) else b.get k := by
  obtain ⟨op, todo, values, tracker, res, before⟩ := c
  obtain ⟨hkeys, hne⟩ := h.left target s keys hget
  simp only at hget hkeys
  cases op with
  | read op =>
    have hvalues : b.getMany keys = (lay.share op.keys target s).map value := by
      have hkeys' : keys = lay.share op.keys target s := hkeys
      rw [← hkeys']
      exact List.map_congr_left (hvalue op rfl)
    have hpresent : op.keys.get s ≠ none := by
      intro hnone
      refine hne (hkeys.trans ?_)
      have hnil : keysOf op.keys s = [] := by rw [keysOf, hnone, Option.getD_none]
      show (keysOf op.keys s).filter _ = []
      rw [hnil, List.filter_nil]
    refine ⟨b, res.set target s (b.getMany keys), ?_, ⟨fun _ _ _ hget' => h.left _ _ _ (todo_of_delete hget'), ?_, ?_, ?_, ?_⟩, ?_⟩
    · have hlen : ¬ (target ≠ w ∧ (b.getMany keys).length ≠ keys.length) := fun hbad => hbad.2 (List.length_map _)
      simp only [Call.request]
      rw [check_eq_ok hlen, ok_bind]
      rfl
    · rintro op' (h' | h') <;> cases h'
    · rintro op' ⟨⟩
      exact h.tracked op rfl
    · rintro op' ⟨⟩ target' s' values' hget'
      rw [NestedMap.get_set] at hget'
      split_ifs at hget' with heq
      · obtain ⟨rfl, rfl⟩ := Prod.mk.inj heq
        cases hget'
        exact ⟨hvalues, hpresent⟩
      · exact h.results op rfl target' s' values' hget'
    · rintro op' ⟨⟩ target' s' hshare hnone
      simp only at hnone ⊢
      rw [NestedMap.get_delete] at hnone
      rw [NestedMap.get_set]
      split_ifs at hnone ⊢ with heq
      · exact Option.some_ne_none _
      · exact h.complete op rfl target' s' hshare hnone
    · intro k _
      split_ifs <;> rfl
  | overwrite op =>
    obtain ⟨vals, hvals, hpairs⟩ := h.paired op (Or.inl rfl) target s keys hget
    refine ⟨b.setMany (keys.zip vals), res, ?_, h.written (by simp) target s, ?_⟩
    · simp only at hvals
      simp only [Call.request, Call.valuesFor, hvals]
      rfl
    · rintro k rfl
      rw [Backend.get_setMany_eq_foldl, hpairs, share_pairs]
      split_ifs <;> rfl
  | merge op =>
    obtain ⟨vals, hvals, hpairs⟩ := h.paired op (Or.inr rfl) target s keys hget
    refine ⟨b.mergeMany (keys.zip vals), res, ?_, h.written (by simp) target s, ?_⟩
    · simp only at hvals
      simp only [Call.request, Call.valuesFor, hvals]
      rfl
    · rintro k rfl
      rw [Backend.get_mergeMany_eq_foldl, hpairs, share_pairs]
      split_ifs <;> rfl
  | delete op =>
    refine ⟨b.deleteMany keys, res, rfl, h.written (by simp) target s, ?_⟩
    rintro k rfl
    have hmem : k ∈ keys ↔ lay.stateOf k = s ∧ k ∈ keysOf op.keys (lay.stateOf k) := by
      have hkeys' : keys = lay.share op.keys (lay.owner k) s := hkeys
      rw [hkeys', Layout.share, List.mem_filter, decide_eq_true_eq]
      constructor
      · rintro ⟨hk, -⟩
        have hstate := mem_keysOf_state op.sorted hk
        exact ⟨hstate, hstate ▸ hk⟩
      · rintro ⟨rfl, hk⟩
        exact ⟨hk, rfl⟩
    rw [Backend.get_deleteMany]
    simp only [hmem, Op.effect]
    by_cases hs : lay.stateOf k = s
    · simp only [hs, true_and, if_true]
    · simp only [hs, false_and, if_false]

theorem Call.todo_of_served (h : c.served = true) (target : WorkerID) (s : UInt16) :
    c.todo.get target s = none := by
  cases hget : c.todo.get target s with
  | none => rfl
  | some keys =>
    have hmem : (target, s, keys) ∈ c.todo.entriesWhere fun _ => true := NestedMap.mem_entriesWhere.mpr ⟨rfl, hget⟩
    rw [List.isEmpty_iff.mp h] at hmem
    cases hmem

/-- **A read returns** its values in the order of the request. -/
theorem CallOk.merge (h : CallOk c value) {op : ReadOp lay} (hop : c.op = .read op) (hserved : c.served = true)
    (workers : VisitOrder WorkerID StateLists) (states : VisitOrder UInt16 (List Bytes)) :
    ∃ res, State.mergeResults Abort.outOfRange workers states op.keys c.res
        (fun target _ => (c.tracker.get target).getD []) = .ok res ∧
      ∀ s, res.get s = (op.keys.get s).map (List.map value) := by
  have hmem : ∀ s, op.keys.get s ≠ none → ∀ w j, j ∈ (c.tracker.get w).getD [] ↔
      j < State.keyCount op.keys s ∧ lay.ownerAt op.keys s j = w := by
    intro s hs w j
    rw [h.tracked op hop s hs w, List.mem_filter, List.mem_range, decide_eq_true_eq]
  obtain ⟨res, hrun, hres⟩ := State.mergeResults_ok Abort.outOfRange workers states op.keys c.res
    (fun target _ => (c.tracker.get target).getD []) (fun s i => value (State.keyAt op.keys s i)) (by
      intro w s values hget
      obtain ⟨hvalues, hs⟩ := h.results op hop w s values hget
      constructor
      · rw [hvalues, share_eq, h.tracked op hop s hs w, List.map_map]
        rfl
      · intro j hj
        obtain ⟨keyList, hkeys⟩ := Option.ne_none_iff_exists'.mp hs
        refine ⟨keyList, hkeys, ?_⟩
        simpa [State.keyCount, hkeys] using ((hmem s hs w j).mp hj).1) (by
      intro s keyList hkeys j hj
      have hs : op.keys.get s ≠ none := by rw [hkeys]; exact Option.some_ne_none _
      have hlt : j < State.keyCount op.keys s := by simpa [State.keyCount, hkeys] using hj
      have hin : j ∈ (c.tracker.get (lay.ownerAt op.keys s j)).getD [] := (hmem s hs _ j).mpr ⟨hlt, rfl⟩
      have hshare : lay.share op.keys (lay.ownerAt op.keys s j) s ≠ [] := by
        rw [share_eq, ← h.tracked op hop s hs, Ne, List.map_eq_nil_iff]
        exact List.ne_nil_of_mem hin
      obtain ⟨values, hvalues⟩ := Option.ne_none_iff_exists'.mp
        (h.complete op hop _ s hshare (Call.todo_of_served hserved _ _))
      exact ⟨_, values, hvalues, hin⟩)
  refine ⟨res, hrun, fun s => ?_⟩
  rw [hres]
  cases hkeys : op.keys.get s with
  | none => rfl
  | some keyList =>
    have hlist : keyList = (List.range keyList.length).map (State.keyAt op.keys s) := by
      have h := keysOf_eq op.keys s
      simpa [keysOf, State.keyCount, hkeys] using h
    refine congrArg some ?_
    conv_rhs => rw [hlist, List.map_map]
    rfl

/-! ## The invariant -/

theorem single_snoc (start : Backend) (ops : List (Op lay)) (op : Op lay) :
    single start (ops ++ [op]) = op.apply (single start ops) := by
  rw [single, List.foldl_append]
  rfl

/-- What the worker that owns a key stores for it. -/
def Sys.view (st : Sys lay) (k : Bytes) : Option Bytes := (st.backends (lay.owner k)).get k

/-- A key whose request is still to be served. -/
def Call.Waits (c : Call lay) (k : Bytes) : Prop :=
  c.op.Touches k ∧ c.todo.get (lay.owner k) (lay.stateOf k) ≠ none

structure Inv (start : Backend) (st : Sys lay) : Prop where
  calls : ∀ w c, st.calls w = some c → CallOk c fun k => ((single start c.before).get k).getD []
  disjoint : ∀ w w' c c', st.calls w = some c → st.calls w' = some c' → w ≠ w' →
    ∀ k, c.op.Touches k → ¬ c'.op.Touches k
  history : ∀ w c, st.calls w = some c → ∃ rest, st.issued = c.before ++ c.op :: rest
  /-- Nothing issued after a call changes the keys of the call. -/
  stable : ∀ w c, st.calls w = some c → ∀ k, c.op.Touches k →
    (single start st.issued).get k = c.op.effect k ((single start c.before).get k)
  /-- Serving the request of a key brings it to the value of the single store. -/
  pending : ∀ w c, st.calls w = some c → ∀ k, c.Waits k →
    (c.op.effect k (st.view k)).getD [] = ((single start st.issued).get k).getD []
  /-- A key without a request has the value of the single store. -/
  idle : ∀ k, (∀ w c, st.calls w = some c → ¬ c.Waits k) →
    (st.view k).getD [] = ((single start st.issued).get k).getD []
  answers : ∀ a ∈ st.answers, (∃ rest, st.issued = a.before ++ .read a.request :: rest) ∧
    ∀ s, a.res.get s = (a.request.keys.get s).map (single start a.before).getMany

variable {start : Backend} {st : Sys lay}

theorem Inv.init (h : (machine lay start).init st) : Inv start st := by
  obtain ⟨hrep, hcalls, hissued, hanswers⟩ := h
  have hnone : ∀ w c, st.calls w ≠ some c := fun w c hc => by rw [hcalls] at hc; cases hc
  refine ⟨fun w c hc => absurd hc (hnone w c), fun w _ c _ hc => absurd hc (hnone w c),
    fun w c hc => absurd hc (hnone w c), fun w c hc => absurd hc (hnone w c), fun w c hc => absurd hc (hnone w c),
    fun k _ => ?_, fun a ha => ?_⟩
  · rw [hissued]
    exact hrep k
  · rw [hanswers] at ha
    cases ha

theorem Op.Touches.share_ne_nil {op : Op lay} (h : op.Touches k) :
    lay.share op.keys (lay.owner k) (lay.stateOf k) ≠ [] :=
  List.ne_nil_of_mem (List.mem_filter.mpr ⟨h, by simp⟩)

variable {calls : WorkerID → Option (Call lay)}

/-- What holds of a new call and of all others holds of all calls. -/
theorem forall_update_calls {p : WorkerID → Call lay → Prop} {w : WorkerID}
    (hself : p w c) (hother : ∀ w' c', w' ≠ w → calls w' = some c' → p w' c') (w' : WorkerID) (c' : Call lay)
    (h : update calls w (some c) w' = some c') : p w' c' := by
  by_cases hw : w' = w
  · subst hw
    rw [update_self] at h
    exact Option.some.inj h ▸ hself
  · rw [update_of_ne hw] at h
    exact hother w' c' hw h

theorem disjoint_update_calls {w : WorkerID}
    (h : ∀ w₁ w₂ c₁ c₂, calls w₁ = some c₁ → calls w₂ = some c₂ → w₁ ≠ w₂ → ∀ k, c₁.op.Touches k → ¬ c₂.op.Touches k)
    (hnew : ∀ w' c', w' ≠ w → calls w' = some c' → ∀ k, c.op.Touches k → ¬ c'.op.Touches k) (w₁ w₂ : WorkerID)
    (c₁ c₂ : Call lay) (h₁ : update calls w (some c) w₁ = some c₁)
    (h₂ : update calls w (some c) w₂ = some c₂) (hne : w₁ ≠ w₂) (k : Bytes) (hk : c₁.op.Touches k) :
    ¬ c₂.op.Touches k := by
  revert hne hk
  refine forall_update_calls (p := fun w₁ c₁ => w₁ ≠ w₂ → c₁.op.Touches k → ¬ c₂.op.Touches k) (fun hne hk => ?_)
    (fun w₁ c₁ hw₁ hold₁ hne hk => ?_) w₁ c₁ h₁
  · rw [update_of_ne hne.symm] at h₂
    exact hnew w₂ c₂ hne.symm h₂ k hk
  · refine forall_update_calls (p := fun w₂ c₂ => w₁ ≠ w₂ → ¬ c₂.op.Touches k) (fun _ hk' => hnew w₁ c₁ hw₁ hold₁ k hk' hk)
      (fun w₂ c₂ _ hold₂ hne => h w₁ w₂ c₁ c₂ hold₁ hold₂ hne k hk) w₂ c₂ h₂ hne

variable {w : WorkerID}

theorem Inv.issue (h : Inv start st) (hidle : st.calls w = none) {op : Op lay}
    (hexcl : ∀ w c, st.calls w = some c → ∀ k, op.Touches k → ¬ c.op.Touches k) (hop : c.op = op)
    (hbefore : c.before = st.issued) (hok : CallOk c fun k => ((single start st.issued).get k).getD [])
    (htodo : ∀ target s, lay.share op.keys target s ≠ [] → c.todo.get target s ≠ none) :
    Inv start { st with calls := update st.calls w (some c), issued := st.issued ++ [op] } := by
  have hsingle : ∀ k, (single start (st.issued ++ [op])).get k = op.effect k ((single start st.issued).get k) :=
    fun k => by rw [single_snoc, Op.get_apply]
  -- the keys of the new call are idle before it, those of the others are not changed by it
  have hfresh : ∀ k, op.Touches k → (st.view k).getD [] = ((single start st.issued).get k).getD [] :=
    fun k hk => h.idle k fun w' c' hc' hwaits => hexcl w' c' hc' k hk hwaits.1
  have hkeep : ∀ w' c', st.calls w' = some c' → ∀ k, c'.op.Touches k →
      (single start (st.issued ++ [op])).get k = (single start st.issued).get k := by
    intro w' c' hc' k hk
    rw [hsingle, Op.effect_of_not_touches fun htouch => hexcl w' c' hc' k htouch hk]
  refine ⟨forall_update_calls (hbefore ▸ hok) fun w' c' _ => h.calls w' c',
    disjoint_update_calls h.disjoint fun w' c' _ hold k hk => hexcl w' c' hold k (hop ▸ hk),
    forall_update_calls ⟨[], by rw [hbefore, hop]⟩ fun w' c' _ hold => ?_,
    forall_update_calls (fun k _ => by rw [hsingle, hbefore, hop]) fun w' c' _ hold k hk => ?_,
    forall_update_calls (fun k hwaits => ?_) fun w' c' _ hold k hwaits => ?_, ?_, ?_⟩
  · obtain ⟨rest, hrest⟩ := h.history w' c' hold
    exact ⟨rest ++ [op], by simp [hrest]⟩
  · rw [hkeep w' c' hold k hk]
    exact h.stable w' c' hold k hk
  · rw [hsingle, hop]
    exact Op.effect_congr op k (hfresh k (hop ▸ hwaits.1))
  · rw [hkeep w' c' hold k hwaits.1]
    exact h.pending w' c' hold k hwaits
  · intro k hnone
    have hnot : ¬ op.Touches k := fun hk => hnone w c (update_self _ _ _)
      ⟨hop ▸ hk, htodo _ _ hk.share_ne_nil⟩
    rw [hsingle, Op.effect_of_not_touches hnot]
    refine h.idle k fun w' c' hold => hnone w' c' ?_
    have hw : w' ≠ w := fun heq => by rw [heq, hidle] at hold; cases hold
    exact (update_of_ne hw _ _).trans hold
  · intro a ha
    obtain ⟨⟨rest, hrest⟩, hres⟩ := h.answers a ha
    exact ⟨⟨rest ++ [op], by simp [hrest]⟩, hres⟩

/-- The keys of a group are keys of the operation, all of one worker and one state. -/
theorem CallOk.mem_group (h : CallOk c value) {keys : List Bytes} (hget : c.todo.get target s = some keys)
    (hk : k ∈ keys) :
    lay.owner k = target ∧ lay.stateOf k = s ∧ c.op.Touches k := by
  rw [(h.left target s keys hget).1, Layout.share, List.mem_filter, decide_eq_true_eq] at hk
  have hstate := mem_keysOf_state c.op.sorted hk.1
  refine ⟨hk.2, hstate, ?_⟩
  rw [Op.Touches, hstate]
  exact hk.1

section

variable (h : Inv start st)
include h

theorem Inv.read_value (hc : st.calls w = some c) {op : ReadOp lay} (hop : c.op = .read op) (hwaits : c.Waits k) :
    (st.view k).getD [] = ((single start c.before).get k).getD [] := by
  have hpending := h.pending w c hc k hwaits
  rw [h.stable w c hc k hwaits.1, hop] at hpending
  exact hpending

theorem Inv.serve (hc : st.calls w = some c) {keys : List Bytes} (hget : c.todo.get target s = some keys) :
    ∃ b res, c.request w target s keys (st.backends target) = .ok (b, res) ∧
      Inv start { st with
        backends := update st.backends target b
        calls := update st.calls w (some { c with todo := c.todo.delete target s, res := res }) } := by
  have hok := h.calls w c hc
  obtain ⟨b, res, hreq, hok', heffect⟩ := hok.request hget w (st.backends target) (by
    intro op hop k hk
    obtain ⟨rfl, rfl, htouch⟩ := hok.mem_group hget hk
    exact h.read_value hc hop ⟨htouch, by rw [hget]; exact Option.some_ne_none _⟩)
  refine ⟨b, res, hreq, ?_⟩
  -- what the owner of each key stores afterwards
  have hview : ∀ k, (update st.backends target b (lay.owner k)).get k
      = if lay.owner k = target ∧ lay.stateOf k = s then c.op.effect k (st.view k) else st.view k := by
    intro k
    by_cases howner : lay.owner k = target
    · rw [howner, update_self, heffect k howner]
      simp only [true_and, Sys.view, howner]
    · rw [update_of_ne howner, if_neg fun hboth => howner hboth.1]
      rfl
  have hwaits : ∀ k, Call.Waits { c with todo := c.todo.delete target s, res := res } k →
      c.Waits k ∧ ¬ (lay.owner k = target ∧ lay.stateOf k = s) := by
    rintro k ⟨htouch, hne⟩
    simp only at htouch hne
    rw [NestedMap.get_delete] at hne
    split_ifs at hne with heq
    · exact absurd rfl hne
    · exact ⟨⟨htouch, hne⟩, fun hboth => heq (Prod.ext hboth.1 hboth.2)⟩
  refine ⟨forall_update_calls hok' fun w' c' _ => h.calls w' c',
    disjoint_update_calls h.disjoint fun w' c' hw hold => h.disjoint w w' c c' hc hold hw.symm,
    forall_update_calls (h.history w c hc) fun w' c' _ => h.history w' c',
    forall_update_calls (h.stable w c hc) fun w' c' _ => h.stable w' c',
    forall_update_calls (fun k hwaits' => ?_) fun w' c' hw hold k hwaits' => ?_, ?_, h.answers⟩
  · show (c.op.effect k ((update st.backends target b (lay.owner k)).get k)).getD [] = _
    obtain ⟨hold, hnot⟩ := hwaits k hwaits'
    rw [hview, if_neg hnot]
    exact h.pending w c hc k hold
  · show (c'.op.effect k ((update st.backends target b (lay.owner k)).get k)).getD [] = _
    rw [hview, Op.effect_of_not_touches (h.disjoint w' w c' c hold hc hw k hwaits'.1), ite_self]
    exact h.pending w' c' hold k hwaits'
  · intro k hnone
    show ((update st.backends target b (lay.owner k)).get k).getD [] = _
    rw [hview]
    have hothers : ∀ w' c', w' ≠ w → st.calls w' = some c' → ¬ c'.Waits k :=
      fun w' c' hw hold => hnone w' c' ((update_of_ne hw _ _).trans hold)
    by_cases hserved : (lay.owner k = target ∧ lay.stateOf k = s) ∧ c.op.Touches k
    · obtain ⟨⟨rfl, rfl⟩, htouch⟩ := hserved
      rw [if_pos ⟨rfl, rfl⟩]
      exact h.pending w c hc k ⟨htouch, by rw [hget]; exact Option.some_ne_none _⟩
    · have hsame : (if lay.owner k = target ∧ lay.stateOf k = s then c.op.effect k (st.view k) else st.view k)
          = st.view k := by
        split_ifs with hat
        · exact Op.effect_of_not_touches (fun htouch => hserved ⟨hat, htouch⟩) _
        · rfl
      rw [hsame]
      refine h.idle k fun w' c' hold hwaits' => ?_
      by_cases hw : w' = w
      · subst hw
        obtain rfl : c = c' := Option.some.inj (hc.symm.trans hold)
        refine hnone w' _ (update_self _ _ _) ⟨hwaits'.1, ?_⟩
        show (c.todo.delete target s).get (lay.owner k) (lay.stateOf k) ≠ none
        rw [NestedMap.get_delete, if_neg fun heq => hserved ⟨Prod.mk.inj heq, hwaits'.1⟩]
        exact hwaits'.2
      · exact hothers w' c' hw hold hwaits'

theorem Inv.finish (hc : st.calls w = some c) (hserved : c.served = true) {answers : List (Answer lay)}
    (hanswers : ∀ a ∈ answers, (∃ rest, st.issued = a.before ++ .read a.request :: rest) ∧ ∀ s, a.res.get s = (a.request.keys.get s).map (single start a.before).getMany) :
    Inv start { st with calls := update st.calls w none, answers := answers } := by
  have hold : ∀ w' c', update st.calls w none w' = some c' → st.calls w' = some c' := by
    intro w' c' hc'
    by_cases hw : w' = w
    · rw [hw, update_self] at hc'
      cases hc'
    · rwa [update_of_ne hw] at hc'
  refine ⟨fun w' c' hc' => h.calls w' c' (hold w' c' hc'),
    fun w₁ w₂ c₁ c₂ h₁ h₂ => h.disjoint w₁ w₂ c₁ c₂ (hold w₁ c₁ h₁) (hold w₂ c₂ h₂),
    fun w' c' hc' => h.history w' c' (hold w' c' hc'), fun w' c' hc' => h.stable w' c' (hold w' c' hc'),
    fun w' c' hc' => h.pending w' c' (hold w' c' hc'), fun k hnone => ?_, hanswers⟩
  refine h.idle k fun w' c' hc' hwaits => ?_
  by_cases hw : w' = w
  · subst hw
    obtain rfl : c = c' := Option.some.inj (hc.symm.trans hc')
    exact hwaits.2 (Call.todo_of_served hserved _ _)
  · exact hnone w' c' ((update_of_ne hw _ _).trans hc') hwaits

theorem Inv.finish_step (hc : st.calls w = some c) (hserved : c.served = true)
    (workers : VisitOrder WorkerID StateLists) (states : VisitOrder UInt16 (List Bytes)) :
    ∃ st', step st (.finish w workers states) = .ok st' ∧ Inv start st' := by
  cases hop : c.op with
  | read op =>
    obtain ⟨res, hmerge, hres⟩ := (h.calls w c hc).merge hop hserved workers states
    obtain ⟨rest, hrest⟩ := h.history w c hc
    refine ⟨{ st with
      calls := update st.calls w none
      answers := st.answers ++ [⟨op, res, c.before⟩] }, ?_, h.finish hc hserved fun a ha => ?_⟩
    · simp only [step, hc, hserved, Bool.true_eq_false, if_false, hop, hmerge, ok_bind, pure_eq_ok]
    · rcases List.mem_append.mp ha with hprev | hlast
      · exact h.answers a hprev
      · rw [List.mem_singleton.mp hlast]
        exact ⟨⟨rest, by rw [hrest, hop]⟩, hres⟩
  | overwrite | merge | delete =>
    exact ⟨_, by simp only [step, hc, hserved, Bool.true_eq_false, if_false, hop, pure_eq_ok], h.finish hc hserved h.answers⟩

/-- **One step**: it is not enabled, or it succeeds and keeps the invariant. -/
theorem Inv.step (a : Action lay) (hexcl : Exclusive st a) :
    NoMigration.step st a = .stuck ∨ ∃ st', NoMigration.step st a = .ok st' ∧ Inv start st' := by
  cases a with
  | issue w op orders =>
    cases hc : st.calls w with
    | some c => exact Or.inl (by simp only [NoMigration.step, hc])
    | none =>
      obtain ⟨c, hstart, hop, hbefore, hok, htodo⟩ := Call.start_ok orders st.issued op
        fun k => ((single start st.issued).get k).getD []
      refine Or.inr ⟨_, ?_, h.issue hc hexcl hop hbefore hok htodo⟩
      simp only [NoMigration.step, hc, hstart, ok_bind, pure_eq_ok]
  | serve w target s =>
    cases hc : st.calls w with
    | none => exact Or.inl (by simp only [NoMigration.step, hc])
    | some c =>
      cases hget : c.todo.get target s with
      | none => exact Or.inl (by simp only [NoMigration.step, hc, hget])
      | some keys =>
        obtain ⟨b, res, hreq, hinv⟩ := h.serve hc hget
        refine Or.inr ⟨_, ?_, hinv⟩
        simp only [NoMigration.step, hc, hget, hreq, ok_bind, pure_eq_ok]
  | finish w workers states =>
    cases hc : st.calls w with
    | none => exact Or.inl (by simp only [NoMigration.step, hc])
    | some c =>
      cases hserved : c.served with
      | false => exact Or.inl (by simp only [NoMigration.step, hc, hserved, if_true])
      | true => exact Or.inr (h.finish_step hc hserved workers states)

end

theorem Inv.run (hrun : (machine lay start).Run Exclusive st) : Inv start st := by
  refine hrun.invariant (Inv start) (fun _ => Inv.init) fun st a st' _ hinv hexcl hstep => ?_
  have hstep' : NoMigration.step st a = .ok st' := hstep
  rcases hinv.step a hexcl with hstuck | ⟨st'', hok, hinv'⟩
  · rw [hstuck] at hstep'
    cases hstep'
  · rw [hok] at hstep'
    cases hstep'
    exact hinv'

/-- Two workers; a key is its state, its bucket and the rest. -/
def evenOdd : Layout where
  table b := b % 2
  bucketOf k := (k.getD 1 0).toNat
  stateOf k := (k.getD 0 0).toUInt16

/-- Two keys of one state, in buckets of different workers. -/
def evenOddRead : ReadOp evenOdd where
  keys := GoMap.set ∅ 0 [[0, 1, 9], [0, 2]]
  bucketIDs := [1, 2]
  sorted := by
    intro s keyList hget k hk
    rw [GoMap.get_set] at hget
    split_ifs at hget with hs
    · cases hget
      rw [hs]
      revert k
      decide
    · cases hget
  buckets := by
    intro s keyList hget
    rw [GoMap.get_set] at hget
    split_ifs at hget
    · cases hget
      decide
    · cases hget

/-- Both keys are stored. -/
def evenOddStore : Backend := GoMap.set (GoMap.set ∅ [0, 1, 9] [5]) [0, 2] [6]

/-- Before anything is issued. -/
def evenOddFirst : Sys evenOdd := ⟨fun _ => evenOddStore, fun _ => none, [], []⟩

def evenOddIssue : Action evenOdd := .issue 0 (.read evenOddRead) fun _ => VisitOrder.asListed _ _

def serving : Action evenOdd → Bool
  | .issue _ _ _ => false
  | _ => true

end NoMigration
end Koala
