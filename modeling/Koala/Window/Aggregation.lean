import Koala.StateClient.Client

/-!
# Incremental aggregation of windows

The window operators (`api/dataflow/slidingWindow.go`, `tumblingWindow.go`) keep one accumulator per user key and
start time in the state service.  A batch of records is one Fetch..Flush cycle of the state client: the
accumulator of every record is initialised with `NewFunc` if it is empty, which also enters it in the operator's
index, and then updated with `AddFunc`.

`Panes` is the abstract store: a partial map from keys and start times to accumulators.  `Durable` says of an
aggregator that its accumulators survive the state client, and `processBatch_spec` that a batch then does to
the state service and to the index what `Panes.addAll` does to the abstract store.
-/

namespace Koala
namespace Window

open Lib Lib.Outcome State StateClient

/-- `Aggregator` (`api/dataflow/aggregator.go`). -/
structure Aggregator (t : StateType) (R OUT : Type) where
  newFunc : t.State
  addFunc : t.State → R → t.State
  outFunc : t.State → OUT
  mergeFunc : t.State → t.State → t.State

/-- How a window operator dies. -/
inductive WindowAbort where
  | state (e : StateAbort)
  /-- "Empty keys to fetch" -/
  | emptyKeys
  /-- "Duration must be a multiple of slide" -/
  | notMultiple
  /-- "Panes to be fired should exist, for windowToFire=%v" -/
  | noPanes
  /-- "DeleteManyAndFlush: Not all pairs to be deleted exists from the previous Fetch()." -/
  | notAllPairs
  deriving DecidableEq, Repr

/-- What both operators are built from: the state client with the one registered state, the key and the
timestamp of a record, and the aggregator. -/
structure Config (K R OUT : Type) where
  sch : Schema (K × Int64)
  stateID : Nat
  allowIncremental : Bool
  getKey : R → K
  getTimestamp : R → Int64
  aggregator : Aggregator (sch.type stateID) R OUT

variable {K R OUT I : Type}

namespace Config

/-- The type of the accumulators. -/
abbrev type (cfg : Config K R OUT) : StateType := cfg.sch.type cfg.stateID

variable (cfg : Config K R OUT)

/-- The accumulator of a key and a start time. -/
abbrev slot (x : K × Int64) : Slot (K × Int64) := ⟨cfg.stateID, x⟩

/-- The key under which the accumulator is stored. -/
def storeKey (x : K × Int64) : Bytes := cfg.sch.serializedKey (cfg.slot x)

theorem storeKey_injective : Function.Injective cfg.storeKey := fun _ _ h =>
  (Slot.mk.inj (cfg.sch.serializedKey_injective h)).2

variable [DecidableEq K] (keys : List (K × Int64))

/-- The deduplicated pairs of a fetch. -/
def slots : List (Slot (K × Int64)) := keys.dedup.map cfg.slot

theorem slots_nodup : (cfg.slots keys).Nodup :=
  (List.nodup_dedup _).map fun _ _ h => (Slot.mk.inj h).2

theorem mem_slots {keys : List (K × Int64)} {s : Slot (K × Int64)} :
    s ∈ cfg.slots keys ↔ ∃ x ∈ keys, cfg.slot x = s := by
  simp only [slots, List.mem_map, List.mem_dedup]

/-- `FetchWindowState`. -/
def fetchWindowState (b : Backend) (keys : List (K × Int64)) :
    Outcome WindowAbort (Cache cfg.sch) :=
  if keys = [] then .abort .emptyKeys else (fetch cfg.sch b (cfg.slots keys)).mapAbort .state

/-- The body of the loop of `ProcessBatch`. -/
def aggregateRecord (start : R → Int64) (addIndex : I → K × Int64 → Outcome WindowAbort I)
    (c : Cache cfg.sch × I) (record : R) : Outcome WindowAbort (Cache cfg.sch × I) :=
  let x := (cfg.getKey record, start record)
  match c.1 (cfg.slot x) with
  | none => .abort (.state .notInCache)
  | some curState =>
    if cfg.type.hasValue curState then
      .ok (Function.update c.1 (cfg.slot x) (some (cfg.aggregator.addFunc curState record)), c.2)
    else addIndex c.2 x >>= fun index =>
      .ok (Function.update c.1 (cfg.slot x) (some (cfg.aggregator.addFunc cfg.aggregator.newFunc record)), index)

/-- `ProcessBatch` of both operators, which differ in the start time of a record and in the index. -/
def processBatch (start : R → Int64) (addIndex : I → K × Int64 → Outcome WindowAbort I)
    (b : Backend) (index : I) (records : List R) : Outcome WindowAbort (Backend × I) := do
  let keys := records.map fun r => (cfg.getKey r, start r)
  let cache ← cfg.fetchWindowState b keys
  let (cache, index) ← forEach records (cfg.aggregateRecord start addIndex) (cache, index)
  let b ← (flush cfg.sch cfg.allowIncremental b cache (cfg.slots keys)).mapAbort .state
  .ok (b, index)

end Config

/-! ## Accumulators -/

/-- What an aggregator computes, apart from the bookkeeping flags of the state objects. -/
structure View {t : StateType} (agg : Aggregator t R OUT) (A : Type) where
  acc : t.State → A
  add : A → R → A
  merge : A → A → A
  out : A → OUT
  acc_add : ∀ s r, acc (agg.addFunc s r) = add (acc s) r
  acc_merge : ∀ s s', acc (agg.mergeFunc s s') = merge (acc s) (acc s')
  out_eq : ∀ s, agg.outFunc s = out (acc s)

namespace View

variable {t : StateType} {agg : Aggregator t R OUT} {A : Type}

/-- The accumulator of `NewFunc`. -/
def new (v : View agg A) : A := v.acc agg.newFunc

/-- The left fold of `AddFunc` over records. -/
def fold (v : View agg A) (records : List R) : A := records.foldl v.add v.new

end View

/-- What the body of `ProcessBatch` makes of an accumulator. -/
def Aggregator.absorb {t : StateType} (agg : Aggregator t R OUT) (s : t.State) (r : R) : t.State :=
  agg.addFunc (if t.hasValue s then s else agg.newFunc) r

/-- The bytes that batches of records can leave in the state service. -/
inductive Aggregator.Written {t : StateType} (agg : Aggregator t R OUT) (allowIncremental : Bool) :
    Option Bytes → Prop where
  | nothing : Written agg allowIncremental none
  | flush {stored : Option Bytes} {s : t.State} {records : List R} {w : Option Write} :
      Written agg allowIncremental stored → deserializeValue t stored = .ok s → records ≠ [] →
      flushData allowIncremental t (records.foldl agg.absorb s) = .ok w →
      Written agg allowIncremental (Write.apply stored w)

/-- The accumulators that `AddFunc` returns have a value, and flushed and fetched again they are the same. -/
structure Durable {t : StateType} {agg : Aggregator t R OUT} {A : Type} (v : View agg A) (allowIncremental : Bool) :
    Prop where
  new_empty : t.hasValue t.new = false
  hasValue : ∀ stored s records, agg.Written allowIncremental stored → deserializeValue t stored = .ok s →
    records ≠ [] → t.hasValue (records.foldl agg.absorb s) = true
  refetch : ∀ stored s records, agg.Written allowIncremental stored → deserializeValue t stored = .ok s →
    records ≠ [] → ∃ w s', flushData allowIncremental t (records.foldl agg.absorb s) = .ok w ∧
      deserializeValue t (Write.apply stored w) = .ok s' ∧ t.hasValue s' = true ∧
      v.acc s' = v.acc (records.foldl agg.absorb s)

/-- The bytes stand for an accumulator. -/
structure Holds {t : StateType} {agg : Aggregator t R OUT} {A : Type} (v : View agg A) (allowIncremental : Bool)
    (stored : Option Bytes) (a : A) (s : t.State) : Prop where
  written : agg.Written allowIncremental stored
  fetched : deserializeValue t stored = .ok s
  hasValue : t.hasValue s = true
  acc_eq : v.acc s = a

namespace Durable

variable {t : StateType} {agg : Aggregator t R OUT} {A : Type} {v : View agg A} {allowIncremental : Bool}

theorem acc_foldl_absorb (h : Durable v allowIncremental) {stored : Option Bytes} {s : t.State}
    (hwritten : agg.Written allowIncremental stored) (hs : deserializeValue t stored = .ok s)
    (records : List R) (hne : records ≠ []) :
    v.acc (records.foldl agg.absorb s) = records.foldl v.add (if t.hasValue s then v.acc s else v.new) := by
  induction records using List.reverseRecOn with
  | nil => exact absurd rfl hne
  | append_singleton records r ih =>
    rw [List.foldl_append, List.foldl_append, List.foldl_cons, List.foldl_cons, List.foldl_nil, List.foldl_nil,
      Aggregator.absorb, v.acc_add]
    rcases eq_or_ne records [] with rfl | hrecords
    · rw [List.foldl_nil, List.foldl_nil]
      split_ifs <;> rfl
    · rw [if_pos (h.hasValue stored s records hwritten hs hrecords), ih hrecords]

end Durable

/-! ## The abstract store -/

/-- The accumulators of the panes that exist. -/
abbrev Panes (K A : Type) : Type := K × Int64 → Option A

section Store

variable [DecidableEq K] {cfg : Config K R OUT} {A : Type} (v : View cfg.aggregator A)

/-- One more record for the pane of its key and start time. -/
def Panes.add (start : R → Int64) (panes : Panes K A) (r : R) : Panes K A :=
  Function.update panes (cfg.getKey r, start r)
    (some (v.add ((panes (cfg.getKey r, start r)).getD v.new) r))

/-- The records of a batch. -/
def Panes.addAll (start : R → Int64) (panes : Panes K A) (records : List R) : Panes K A :=
  records.foldl (Panes.add v start) panes

/-- The state service holds exactly the accumulators of the panes. -/
structure StoreRep (b : Backend) (panes : Panes K A) : Prop where
  holds : ∀ x a, panes x = some a → ∃ s, Holds v cfg.allowIncremental (b.get (cfg.storeKey x)) a s
  absent : ∀ x, panes x = none → b.get (cfg.storeKey x) = none
  others : ∀ k, (∀ x, cfg.storeKey x ≠ k) → b.get k = none

variable {v} {start : R → Int64}

theorem Panes.addAll_append (panes : Panes K A) (records : List R) (r : R) :
    Panes.addAll v start panes (records ++ [r]) = Panes.add v start (Panes.addAll v start panes records) r := by
  rw [addAll, addAll, List.foldl_append, List.foldl_cons, List.foldl_nil]

/-- The records of a batch that belong to a pane. -/
def Config.recordsAt (cfg : Config K R OUT) (start : R → Int64) (records : List R) (x : K × Int64) : List R :=
  records.filter fun r => (cfg.getKey r, start r) = x

theorem Config.recordsAt_append (records : List R) (r : R) (x : K × Int64) :
    cfg.recordsAt start (records ++ [r]) x =
      cfg.recordsAt start records x ++ if (cfg.getKey r, start r) = x then [r] else [] := by
  rw [recordsAt, recordsAt, List.filter_append, List.filter_cons, List.filter_nil]
  simp only [decide_eq_true_eq]

variable {records : List R}

theorem Config.recordsAt_eq_nil {x : K × Int64} :
    cfg.recordsAt start records x = [] ↔ x ∉ records.map fun r => (cfg.getKey r, start r) := by
  simp [recordsAt, List.filter_eq_nil_iff]

theorem Panes.addAll_apply (panes : Panes K A) (records : List R) (x : K × Int64) :
    Panes.addAll v start panes records x =
      if cfg.recordsAt start records x = [] then panes x
      else some ((cfg.recordsAt start records x).foldl v.add ((panes x).getD v.new)) := by
  induction records using List.reverseRecOn with
  | nil => rfl
  | append_singleton records r ih =>
    rw [addAll_append, add, Config.recordsAt_append]
    rcases eq_or_ne (cfg.getKey r, start r) x with rfl | hne
    · rw [Function.update_self, if_pos rfl, if_neg (by simp), ih, List.foldl_append]
      split_ifs with hnil
      · rw [hnil]
        rfl
      · rfl
    · rw [Function.update_of_ne hne.symm, if_neg hne, List.append_nil, ih]

variable {b : Backend} {panes : Panes K A}

omit [DecidableEq K] in
theorem StoreRep.fetched (hdur : Durable v cfg.allowIncremental) (h : StoreRep v b panes) (x : K × Int64) :
    ∃ s, cfg.aggregator.Written cfg.allowIncremental (b.get (cfg.storeKey x)) ∧
      deserializeValue cfg.type (b.get (cfg.storeKey x)) = .ok s ∧
      (cfg.type.hasValue s = true ↔ (panes x).isSome) ∧
      (if cfg.type.hasValue s then v.acc s else v.new) = (panes x).getD v.new := by
  cases hx : panes x with
  | none =>
    rw [h.absent x hx]
    refine ⟨cfg.type.new, .nothing, rfl, ?_, ?_⟩
    · simp [hdur.new_empty]
    · rw [hdur.new_empty]
      rfl
  | some a =>
    obtain ⟨s, hs⟩ := h.holds x a hx
    refine ⟨s, hs.written, hs.fetched, ?_, ?_⟩
    · simp [hs.hasValue]
    · rw [if_pos hs.hasValue, hs.acc_eq]
      rfl

/-- An index that lists the existing panes keeps listing them when the missing pane of a record is entered. -/
def Maintains (addIndex : I → K × Int64 → Outcome WindowAbort I) (rep : I → (K × Int64 → Prop) → Prop)
    (x : K × Int64) : Prop :=
  ∀ index dom, rep index dom → ¬ dom x → ∃ index', addIndex index x = .ok index' ∧
    rep index' fun y => dom y ∨ y = x

/-- The panes that exist. -/
def Panes.dom (panes : Panes K A) (x : K × Int64) : Prop := (panes x).isSome

theorem Panes.dom_add (panes : Panes K A) (r : R) :
    (Panes.add v start panes r).dom = fun y => panes.dom y ∨ y = (cfg.getKey r, start r) := by
  funext y
  rcases eq_or_ne y (cfg.getKey r, start r) with rfl | hne
  · simp [dom, add]
  · simp [dom, add, hne]

theorem Panes.dom_add_of_mem {r : R} (h : panes.dom (cfg.getKey r, start r)) :
    (Panes.add v start panes r).dom = panes.dom := by
  rw [dom_add]
  funext y
  simp only [eq_iff_iff, or_iff_left_iff_imp]
  rintro rfl
  exact h

section

variable (hdur : Durable v cfg.allowIncremental) {addIndex : I → K × Int64 → Outcome WindowAbort I}
  {rep : I → (K × Int64 → Prop) → Prop} {value : K × Int64 → cfg.type.State} {cache : Cache cfg.sch}
include hdur

/-- The loop of `ProcessBatch`: every cached accumulator absorbs its records, and the index follows the abstract
store. -/
theorem aggregate_spec (hstore : StoreRep v b panes)
    (hadd : ∀ r ∈ records, Maintains addIndex rep (cfg.getKey r, start r)) {index : I} (hrep : rep index panes.dom)
    (hcache : ∀ r ∈ records, cache (cfg.slot (cfg.getKey r, start r)) = some (value (cfg.getKey r, start r)))
    (hvalue : ∀ r ∈ records, deserializeValue cfg.type (b.get (cfg.storeKey (cfg.getKey r, start r))) = .ok (value (cfg.getKey r, start r))) :
    ∃ c, forEach records (cfg.aggregateRecord start addIndex) (cache, index) = .ok c ∧
      (∀ r ∈ records, c.1 (cfg.slot (cfg.getKey r, start r)) =
        some ((cfg.recordsAt start records (cfg.getKey r, start r)).foldl cfg.aggregator.absorb
          (value (cfg.getKey r, start r)))) ∧
      rep c.2 (Panes.addAll v start panes records).dom := by
  refine forEach_total (fun done (c : Cache cfg.sch × I) =>
    (∀ r ∈ records, c.1 (cfg.slot (cfg.getKey r, start r)) =
      some ((cfg.recordsAt start done (cfg.getKey r, start r)).foldl cfg.aggregator.absorb
        (value (cfg.getKey r, start r)))) ∧ rep c.2 (Panes.addAll v start panes done).dom) ⟨hcache, hrep⟩ ?_
  rintro done r rest ⟨cache₁, index₁⟩ hsplit ⟨hcache₁, hrep₁⟩
  have hr : r ∈ records := by rw [hsplit]; simp
  obtain ⟨s, hwritten, hfetched, hexists, -⟩ := hstore.fetched hdur (cfg.getKey r, start r)
  obtain rfl : s = value (cfg.getKey r, start r) := ok.inj (hfetched.symm.trans (hvalue r hr))
  -- the accumulator is empty exactly when the abstract store has no such pane
  have hempty : cfg.type.hasValue ((cfg.recordsAt start done (cfg.getKey r, start r)).foldl cfg.aggregator.absorb
      (value (cfg.getKey r, start r))) = true ↔
      (Panes.addAll v start panes done).dom (cfg.getKey r, start r) := by
    unfold Panes.dom
    rw [Panes.addAll_apply]
    split_ifs with hnil
    · rw [hnil]
      exact hexists
    · simp [hdur.hasValue _ _ _ hwritten hfetched hnil]
  have hupdate : ∀ s' : cfg.type.State,
      s' = cfg.aggregator.absorb ((cfg.recordsAt start done (cfg.getKey r, start r)).foldl cfg.aggregator.absorb
        (value (cfg.getKey r, start r))) r →
      ∀ r' ∈ records, Function.update cache₁ (cfg.slot (cfg.getKey r, start r)) (some s')
        (cfg.slot (cfg.getKey r', start r')) =
        some ((cfg.recordsAt start (done ++ [r]) (cfg.getKey r', start r')).foldl cfg.aggregator.absorb
          (value (cfg.getKey r', start r'))) := by
    rintro s' rfl r' hr'
    rw [Config.recordsAt_append]
    split_ifs with heq
    · rw [← heq, Function.update_self, List.foldl_append]
      rfl
    · rw [Function.update_of_ne (fun h => heq (Slot.mk.inj h).2.symm), List.append_nil]
      exact hcache₁ r' hr'
  have hcur : cache₁ (cfg.slot (cfg.getKey r, start r)) = some _ := hcache₁ r hr
  simp only [Config.aggregateRecord, hcur]
  split_ifs with hhas
  · refine ⟨_, rfl, hupdate _ (by rw [Aggregator.absorb, if_pos hhas]), ?_⟩
    rw [Panes.addAll_append, Panes.dom_add_of_mem (hempty.mp hhas)]
    exact hrep₁
  · obtain ⟨index₂, hindex, hrep₂⟩ := hadd r hr index₁ _ hrep₁ (mt hempty.mpr hhas)
    rw [hindex, ok_bind]
    refine ⟨_, rfl, hupdate _ (by rw [Aggregator.absorb, if_neg hhas]), ?_⟩
    rw [Panes.addAll_append, Panes.dom_add]
    exact hrep₂

/-- `FetchWindowState` fills the cache with what is stored. -/
theorem fetchWindowState_spec (hstore : StoreRep v b panes) {keys : List (K × Int64)} (hne : keys ≠ []) :
    ∃ (cache : Cache cfg.sch) (value : K × Int64 → cfg.type.State), cfg.fetchWindowState b keys = .ok cache ∧
      (∀ x ∈ keys, cache (cfg.slot x) = some (value x)) ∧
      ∀ x, deserializeValue cfg.type (b.get (cfg.storeKey x)) = .ok (value x) := by
  choose value _ hvalue _ using hstore.fetched hdur
  have hslots : ∀ s, ∃ value' : (cfg.sch.typeOf s).State, s ∈ cfg.slots keys →
      deserializeValue (cfg.sch.typeOf s) (b.get (cfg.sch.serializedKey s)) = .ok value' := by
    intro s
    by_cases hs : s ∈ cfg.slots keys
    · obtain ⟨x, -, rfl⟩ := cfg.mem_slots.mp hs
      exact ⟨value x, fun _ => hvalue x⟩
    · exact ⟨(cfg.sch.typeOf s).new, fun h => absurd h hs⟩
  choose value' hvalue' using hslots
  obtain ⟨cache, hfetch, hcache⟩ := fetch_spec hvalue'
  refine ⟨cache, value, ?_, fun x hx => ?_, hvalue⟩
  · rw [Config.fetchWindowState, if_neg hne, hfetch]
    rfl
  · have hx' : cfg.slot x ∈ cfg.slots keys := cfg.mem_slots.mpr ⟨x, hx, rfl⟩
    rw [hcache _ hx', ← ok.inj ((hvalue' _ hx').symm.trans (hvalue x))]

/-- `FlushWindowState` writes the accumulators of a batch. -/
theorem StoreRep.flush (hstore : StoreRep v b panes)
    (hvalue : ∀ x, deserializeValue cfg.type (b.get (cfg.storeKey x)) = .ok (value x))
    (hcache : ∀ r ∈ records, cache (cfg.slot (cfg.getKey r, start r)) = some ((cfg.recordsAt start records (cfg.getKey r, start r)).foldl cfg.aggregator.absorb (value (cfg.getKey r, start r)))) :
    ∃ b', StateClient.flush cfg.sch cfg.allowIncremental b cache
        (cfg.slots (records.map fun r => (cfg.getKey r, start r))) = .ok b' ∧
      StoreRep v b' (Panes.addAll v start panes records) := by
  set keys := records.map fun r => (cfg.getKey r, start r) with hkeys
  have hmem : ∀ x ∈ keys, cache (cfg.slot x) =
      some ((cfg.recordsAt start records x).foldl cfg.aggregator.absorb (value x)) := by
    intro x hx
    obtain ⟨r, hr, rfl⟩ := List.mem_map.mp hx
    exact hcache r hr
  have hrecords : ∀ x ∈ keys, cfg.recordsAt start records x ≠ [] := fun x hx =>
    mt Config.recordsAt_eq_nil.mp (not_not.mpr hx)
  have hrequest : ∀ s, ∃ request : Option Write, s ∈ cfg.slots keys →
      flushData cfg.allowIncremental (cfg.sch.typeOf s) ((cache s).getD (cfg.sch.typeOf s).new) = .ok request := by
    intro s
    by_cases hs : s ∈ cfg.slots keys
    · obtain ⟨x, hx, rfl⟩ := cfg.mem_slots.mp hs
      obtain ⟨s₀, hwritten, hfetched, -⟩ := hstore.fetched hdur x
      obtain ⟨w, -, hw, -⟩ := hdur.refetch _ _ _ hwritten hfetched (hrecords x hx)
      refine ⟨w, fun _ => ?_⟩
      rw [hmem x hx, Option.getD_some, ← ok.inj (hfetched.symm.trans (hvalue x))]
      exact hw
    · exact ⟨none, fun h => absurd h hs⟩
  choose request hrequest using hrequest
  have hcached : ∀ s ∈ cfg.slots keys, cache s = some ((cache s).getD (cfg.sch.typeOf s).new) := by
    intro s hs
    obtain ⟨x, hx, rfl⟩ := cfg.mem_slots.mp hs
    rw [hmem x hx]
    rfl
  obtain ⟨b', hflush, hwrote, hkept⟩ := flush_spec (b := b) (cfg.slots_nodup keys) hcached hrequest
  have hsame : ∀ x, x ∉ keys → b'.get (cfg.storeKey x) = b.get (cfg.storeKey x) := by
    intro x hx
    refine hkept _ fun s hs heq => hx ?_
    obtain ⟨y, hy, rfl⟩ := cfg.mem_slots.mp hs
    exact cfg.storeKey_injective heq ▸ hy
  refine ⟨b', hflush, ?_, ?_, ?_⟩
  · intro x a hx
    rw [Panes.addAll_apply] at hx
    by_cases hnil : cfg.recordsAt start records x = []
    · rw [if_pos hnil] at hx
      rw [hsame x (Config.recordsAt_eq_nil.mp hnil)]
      exact hstore.holds x a hx
    · rw [if_neg hnil] at hx
      have hxkeys : x ∈ keys := not_not.mp (mt Config.recordsAt_eq_nil.mpr hnil)
      obtain ⟨s, hwritten, hfetched, -, hacc⟩ := hstore.fetched hdur x
      obtain ⟨w, s', hw, hs', hhas, hacc'⟩ := hdur.refetch _ _ _ hwritten hfetched hnil
      have hslot : cfg.slot x ∈ cfg.slots keys := cfg.mem_slots.mpr ⟨x, hxkeys, rfl⟩
      have heq : request (cfg.slot x) = w := by
        have hflushed := hrequest _ hslot
        rw [hmem x hxkeys, Option.getD_some, ← ok.inj (hfetched.symm.trans (hvalue x))] at hflushed
        exact ok.inj (hflushed.symm.trans hw)
      have hget : b'.get (cfg.storeKey x) = Write.apply (b.get (cfg.storeKey x)) w := heq ▸ hwrote _ hslot
      rw [hget]
      refine ⟨s', .flush hwritten hfetched hnil hw, hs', hhas, ?_⟩
      rw [hacc', hdur.acc_foldl_absorb hwritten hfetched _ hnil, hacc]
      exact Option.some.inj hx
  · intro x hx
    rw [Panes.addAll_apply] at hx
    split_ifs at hx with hnil
    rw [hsame x (Config.recordsAt_eq_nil.mp hnil)]
    exact hstore.absent x hx
  · intro k hk
    rw [hkept k fun s hs heq => ?_]
    · exact hstore.others k hk
    · obtain ⟨y, -, rfl⟩ := cfg.mem_slots.mp hs
      exact hk y heq

/-- **A batch.**  The state service and the index follow the abstract store. -/
theorem processBatch_spec (hstore : StoreRep v b panes) (hne : records ≠ [])
    (hadd : ∀ r ∈ records, Maintains addIndex rep (cfg.getKey r, start r)) {index : I} (hrep : rep index panes.dom) :
    ∃ b' index', cfg.processBatch start addIndex b index records = .ok (b', index') ∧
      StoreRep v b' (Panes.addAll v start panes records) ∧
      rep index' (Panes.addAll v start panes records).dom := by
  have hkeys : (records.map fun r => (cfg.getKey r, start r)) ≠ [] := by simpa using hne
  obtain ⟨cache, value, hfetch, hcache, hvalue⟩ := fetchWindowState_spec hdur hstore hkeys
  obtain ⟨⟨cache', index'⟩, hloop, hcache', hrep'⟩ := aggregate_spec hdur hstore hadd hrep
    (fun r hr => hcache _ (List.mem_map_of_mem hr)) fun r _ => hvalue _
  obtain ⟨b', hflush, hstore'⟩ := hstore.flush hdur hvalue hcache'
  refine ⟨b', index', ?_, hstore', hrep'⟩
  simp only [Config.processBatch, hfetch, ok_bind, hloop, hflush, mapAbort]

end

/-- `DeleteMany` on the keys of some panes. -/
theorem StoreRep.deleteMany (hstore : StoreRep v b panes) (xs : List (K × Int64)) :
    StoreRep v (b.deleteMany (xs.map cfg.storeKey)) fun x => if x ∈ xs then none else panes x := by
  have hmem : ∀ x, cfg.storeKey x ∈ xs.map cfg.storeKey ↔ x ∈ xs := fun x =>
    List.mem_map_of_injective cfg.storeKey_injective
  refine ⟨fun x a hx => ?_, fun x hx => ?_, fun k hk => ?_⟩
  · split_ifs at hx with hin
    rw [Backend.get_deleteMany, if_neg (mt (hmem x).mp hin)]
    exact hstore.holds x a hx
  · rw [Backend.get_deleteMany]
    split_ifs with hin
    · rfl
    · rw [if_neg (mt (hmem x).mpr hin)] at hx
      exact hstore.absent x hx
  · rw [Backend.get_deleteMany, if_neg, hstore.others k hk]
    intro hin
    obtain ⟨x, -, heq⟩ := List.mem_map.mp hin
    exact hk x heq

omit [DecidableEq K] in
theorem StoreRep.fetched_acc (hstore : StoreRep v b panes) {x : K × Int64} {a : A} (hx : panes x = some a)
    {s : cfg.type.State} (hs : deserializeValue cfg.type (b.get (cfg.storeKey x)) = .ok s) : v.acc s = a := by
  obtain ⟨s', hs'⟩ := hstore.holds x a hx
  rw [← hs'.acc_eq, ok.inj (hs.symm.trans hs'.fetched)]

end Store

end Window
end Koala
