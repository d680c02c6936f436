import Koala.Metadata.Operators

/-!
# Extracting and inserting metadata

`FetchMetadataForMigration` and `ConstructFastForwardMetadata` go through the index, remove the entries that have to
go and write them as JSON; `InsertMigratedMetadata` and `ProcessFastForwardMetadata` add what they read to the index.
The index is changed while it is gone through, but only at the entry just visited.  The bucket or the owner of a key is
looked up once and remembered.

`encoding/json` is taken as it is specified: it refuses maps with keys of other kinds than strings and integers, it
coerces strings to valid UTF-8, and it lists the members of a map in an order that is here left open (`listing`).
-/

namespace Koala
namespace Metadata

open Lib Lib.Outcome Lib.Json Network
open Partition (WorkerID BucketID BucketRange)
open List (append_nil filter_nil foldl_append mem_append mem_cons mem_filter mem_map mem_singleton)

/-- The `log.Fatalln` calls of the operators and of the peer connection. -/
inductive MetadataAbort where
  /-- "Failed to serialize sliding window metadata:", "Failed to serialize window index for migration:",
  "Failed to serialize timers for migration:" -/
  | serialize
  /-- "Failed to deserialize sliding window metadata:", "Failed to deserialize migrated window index:",
  "Failed to deserialize migrated timers:" -/
  | deserialize
  /-- "Failed to encode FastForwardMetadata:" -/
  | encode
  /-- "Failed to decode FastForwardMetadata:" -/
  | decode
  | channel (e : ChannelAbort)
  deriving DecidableEq, Repr

/-- A type of keys, an operator, and how their metadata is written. -/
structure Setting where
  kind : Kind
  op : Operator
  mus : MusCodecs
  hash : Bytes → UInt64
  json : Text Int64 kind.Val (op.indexType kind.Val).Wire (jsonKey kind)

namespace Setting

variable (cfg : Setting)

abbrev Key : Type := cfg.kind.Val

abbrev ix : IndexType cfg.Key := cfg.op.indexType cfg.Key

abbrev Index : Type := NestedMap Int64 cfg.Key cfg.ix.Entry

abbrev Doc : Type := Json.Doc Int64 cfg.Key cfg.ix.Wire

/-- The order of the `range` loops over an index. -/
structure Order where
  times : VisitOrder Int64 (GoMap cfg.Key cfg.ix.Entry)
  keys : VisitOrder cfg.Key cfg.ix.Entry

/-- The order of the `range` loops over what was received. -/
structure WireOrder where
  times : VisitOrder Int64 (GoMap cfg.Key cfg.ix.Wire)
  keys : VisitOrder cfg.Key cfg.ix.Wire

/-- The bytes of a key. -/
def serializedKey (key : cfg.Key) : Bytes := encodeFuncFromKind cfg.mus cfg.kind key

variable (numBuckets : Nat)

/-- `GetBucketIdx`. -/
def getBucketIdx (key : cfg.Key) : BucketID := (cfg.hash (cfg.serializedKey key)).toNat % numBuckets

variable (routingTable : List WorkerID)

/-- `GetOwnerWorkerUponReconfig`, with `KeyToWorkerID`. -/
def getOwnerWorkerUponReconfig (key : cfg.Key) : WorkerID :=
  routingTable.getD ((cfg.hash (cfg.serializedKey key)).toNat % routingTable.length) 0

/-! ## JSON -/

/-- `json.Marshal` and the `Encode` of a `json.Encoder`, up to the line break. -/
def marshal (failed : MetadataAbort) (listing : cfg.Doc) (m : NestedMap Int64 cfg.Key cfg.ix.Wire) :
    Outcome MetadataAbort Bytes :=
  if isJsonKey cfg.kind = false ∧ AList.keys m ≠ [] then .abort failed
  else if listing.Lists m then .ok (cfg.json.print listing)
  else .stuck

/-- `json.Unmarshal` and the `Decode` of a `json.Decoder`. -/
def unmarshal (failed : MetadataAbort) (text : Bytes) : Outcome MetadataAbort (NestedMap Int64 cfg.Key cfg.ix.Wire) :=
  match cfg.json.parse text with
  | none => .abort failed
  | some doc => if isJsonKey cfg.kind = false ∧ doc ≠ [] then .abort failed else .ok doc.toMap

/-! ## Extracting -/

/-- The lookup of a key, remembered in `keysExamined`. -/
def examine {D : Type} (lookup : cfg.Key → D) (keysExamined : GoMap cfg.Key D) (key : cfg.Key) : D × GoMap cfg.Key D :=
  match keysExamined.get key with
  | some d => (d, keysExamined)
  | none => (lookup key, keysExamined.set key (lookup key))

/-- What the loops of `FetchMetadataForMigration` carry. -/
structure Fetching where
  keysExamined : GoMap cfg.Key BucketID
  toBeTransferred : NestedMap Int64 cfg.Key cfg.ix.Wire
  index : cfg.Index

variable (affectedBuckets : List BucketID)

/-- The body of the loops of `FetchMetadataForMigration`. -/
def fetchEntry (c : cfg.Fetching) (e : Int64 × cfg.Key × cfg.ix.Entry) : cfg.Fetching :=
  let (bucketId, keysExamined) := cfg.examine (cfg.getBucketIdx numBuckets) c.keysExamined e.2.1
  if bucketId ∈ affectedBuckets then
    ⟨keysExamined, cfg.ix.note c.toBeTransferred e.1 e.2.1 e.2.2, cfg.ix.remove c.index e.2.1 e.1⟩
  else ⟨keysExamined, c.toBeTransferred, c.index⟩

/-- `FetchMetadataForMigration`. -/
def fetchMetadataForMigration (order : cfg.Order)
    (listing : cfg.Doc) (index : cfg.Index) : Outcome MetadataAbort (Bytes × cfg.Index) := do
  let c := (index.visitAll order.times order.keys).foldl (cfg.fetchEntry numBuckets affectedBuckets) ⟨∅, ∅, index⟩
  let metadata ← cfg.marshal .serialize listing c.toBeTransferred
  pure (metadata, c.index)

/-- What the loops of `ConstructFastForwardMetadata` carry. -/
structure Forwarding where
  keysExamined : GoMap cfg.Key WorkerID
  toBeTransferred : GoMap WorkerID (NestedMap Int64 cfg.Key cfg.ix.Wire)
  index : cfg.Index

variable (workerId : WorkerID)

/-- The body of the loops of `ConstructFastForwardMetadata`. -/
def forwardEntry (c : cfg.Forwarding) (e : Int64 × cfg.Key × cfg.ix.Entry) : cfg.Forwarding :=
  let (destWorker, keysExamined) := cfg.examine (cfg.getOwnerWorkerUponReconfig routingTable) c.keysExamined e.2.1
  if destWorker ≠ workerId then
    ⟨keysExamined,
      c.toBeTransferred.set destWorker (cfg.ix.note ((c.toBeTransferred.get destWorker).getD ∅) e.1 e.2.1 e.2.2),
      cfg.ix.remove c.index e.2.1 e.1⟩
  else ⟨keysExamined, c.toBeTransferred, c.index⟩

/-- The message around a text: work unit type, length, and the text with a line break behind it. -/
def frame (text : Bytes) : Bytes :=
  cfg.mus.rawUint16.marshal fastForwardMetadataWorkUnit
    ++ (cfg.mus.rawUint32.marshal (UInt32.ofNat (text ++ [newline]).length) ++ (text ++ [newline]))

/-- `SerializeToFastForwardMetadata`. -/
def serializeToFastForwardMetadata (listing : cfg.Doc) (m : NestedMap Int64 cfg.Key cfg.ix.Wire) :
    Outcome MetadataAbort Bytes := do
  let text ← cfg.marshal .encode listing m
  pure (cfg.frame text)

/-- `ConstructFastForwardMetadata`; the text for each destination has a listing of its own. -/
def constructFastForwardMetadata (order : cfg.Order)
    (listing : WorkerID → cfg.Doc) (index : cfg.Index) : Outcome MetadataAbort (GoMap WorkerID Bytes × cfg.Index) := do
  let c := (index.visitAll order.times order.keys).foldl (cfg.forwardEntry routingTable workerId) ⟨∅, ∅, index⟩
  let res ← forEach c.toBeTransferred.pairs (fun res e => do
    let message ← cfg.serializeToFastForwardMetadata (listing e.1) e.2
    pure (res.set e.1 message)) ∅
  pure (res, c.index)

/-! ## Inserting -/

variable (order : cfg.WireOrder)

/-- The loops that add what was received. -/
def insertAll (received : NestedMap Int64 cfg.Key cfg.ix.Wire) (index : cfg.Index) : cfg.Index :=
  (received.visitAll order.times order.keys).foldl (fun index e => cfg.ix.add index e.2.1 e.1 e.2.2) index

/-- `InsertMigratedMetadata`. -/
def insertMigratedMetadata (metadata : Bytes) (index : cfg.Index) :
    Outcome MetadataAbort cfg.Index := do
  let received ← cfg.unmarshal .deserialize metadata
  pure (cfg.insertAll order received index)

/-- The reader of the peer connection. -/
def readMetadata (message : Bytes) : Outcome ChannelAbort Bytes := do
  let (_, stream) ← readHeader cfg.mus.rawUint16 message
  let (metadataSize, stream) ← readHeader cfg.mus.rawUint32 stream
  let (metadata, _) ← readAll metadataSize.toNat stream
  pure metadata

/-- `ProcessFastForwardMetadata`, of a message as it stands on the wire. -/
def processFastForwardMetadata (message : Bytes) (index : cfg.Index) :
    Outcome MetadataAbort cfg.Index := do
  let metadata ← mapAbort .channel (cfg.readMetadata message)
  let received ← cfg.unmarshal .decode metadata
  pure (cfg.insertAll order received index)

/-! ## Noting, removing and adding lists of entries -/

section Lists

variable {cfg} (es : List (Int64 × cfg.Key × cfg.ix.Entry))

/-- Entries put into a fresh map. -/
def noteAll : NestedMap Int64 cfg.Key cfg.ix.Wire :=
  es.foldl (fun m e => cfg.ix.note m e.1 e.2.1 e.2.2) ∅

/-- Entries removed from an index. -/
def removeAll (index : cfg.Index) : cfg.Index :=
  es.foldl (fun index e => cfg.ix.remove index e.2.1 e.1) index

/-- The entries are what they may be, and no two are for the same key and time. -/
structure Proper (es : List (Int64 × cfg.Key × cfg.ix.Entry)) : Prop where
  nodup : (es.map fun e => (e.1, e.2.1)).Nodup
  good : ∀ e ∈ es, cfg.op.Good cfg.Key e.2.1 e.2.2

theorem Proper.filter {es : List (Int64 × cfg.Key × cfg.ix.Entry)} (h : Proper es) (p : Int64 × cfg.Key × cfg.ix.Entry → Bool) :
    Proper (es.filter p) :=
  ⟨h.nodup.sublist ((List.filter_sublist).map _), fun e he => h.good e (mem_filter.mp he).1⟩

theorem noteAll_spec {es : List (Int64 × cfg.Key × cfg.ix.Entry)} (h : Proper es) :
    NoEmptyInner (noteAll es) ∧ ∀ t k w, (noteAll es).get t k = some w ↔
      ∃ v, (t, k, v) ∈ es ∧ cfg.op.toWire cfg.Key v = w := by
  induction es using List.reverseRecOn with
  | nil => exact ⟨nofun, fun t k w => by simp [noteAll]⟩
  | append_singleton es e ih =>
    obtain ⟨t, k, v⟩ := e
    have hes : Proper es := ⟨h.nodup.sublist ((List.sublist_append_left es _).map _),
      fun e he => h.good e (List.mem_append_left _ he)⟩
    obtain ⟨hinner, hget⟩ := ih hes
    have hgood : cfg.op.Good cfg.Key k v := h.good (t, k, v) (by simp)
    -- the entry was not noted before
    have hfresh : ∀ v', (t, k, v') ∉ es := by
      intro v' hin
      have hnodup := h.nodup
      rw [List.map_append, List.nodup_append] at hnodup
      exact hnodup.2.2 (t, k) (mem_map.mpr ⟨_, hin, rfl⟩) (t, k) (by simp) rfl
    have hnone : (noteAll es).get t k = none := by
      refine Option.eq_none_iff_forall_ne_some.mpr fun w hw => ?_
      obtain ⟨v', hin, -⟩ := (hget t k w).mp hw
      exact hfresh v' hin
    have hlast : noteAll (es ++ [(t, k, v)]) = cfg.ix.note (noteAll es) t k v := by
      rw [noteAll, foldl_append]
      rfl
    rw [hlast]
    refine ⟨(cfg.op.lawful).note_noEmpty _ t k v hinner hgood, fun t' k' w => ?_⟩
    rw [(cfg.op.lawful).get_note _ t k v hnone hgood t' k']
    split_ifs with hkeys
    · obtain ⟨rfl, rfl⟩ := Prod.mk.inj hkeys
      constructor
      · intro hw
        exact ⟨v, by simp, Option.some.inj hw⟩
      · rintro ⟨v', hin, rfl⟩
        rcases mem_append.mp hin with hold | hnew
        · exact absurd hold (hfresh v')
        · obtain ⟨-, -, rfl⟩ : t' = t' ∧ k' = k' ∧ v' = v := by simpa using hnew
          rfl
    · rw [hget]
      refine exists_congr fun v' => and_congr_left fun _ => ?_
      rw [mem_append, mem_singleton, Prod.mk.injEq, Prod.mk.injEq]
      constructor
      · exact .inl
      · rintro (hold | ⟨rfl, rfl, -⟩)
        · exact hold
        · exact absurd rfl hkeys

theorem get_removeAll (index : cfg.Index) (t : Int64) (k : cfg.Key) :
    (removeAll es index).get t k
      = if (t, k) ∈ es.map (fun e => (e.1, e.2.1)) then none else index.get t k := by
  induction es generalizing index with
  | nil => simp [removeAll]
  | cons e es ih =>
    have hrest := ih (cfg.ix.remove index e.2.1 e.1)
    rw [(cfg.op.lawful).get_remove] at hrest
    refine hrest.trans ?_
    rw [List.map_cons]
    by_cases hin : (t, k) ∈ es.map fun e => (e.1, e.2.1)
    · rw [if_pos hin, if_pos (List.mem_cons_of_mem _ hin)]
    · rw [if_neg hin]
      by_cases heq : (t, k) = (e.1, e.2.1)
      · rw [if_pos heq, if_pos (mem_cons.mpr (.inl heq))]
      · rw [if_neg heq, if_neg fun hmem => (mem_cons.mp hmem).elim heq hin]

theorem get_foldl_add {es : List (Int64 × cfg.Key × cfg.ix.Wire)} (hnodup : (es.map fun e => (e.1, e.2.1)).Nodup)
    {content : Int64 → cfg.Key → Option cfg.ix.Entry} {index : cfg.Index}
    (hsent : ∀ e ∈ es, ∃ v, content e.1 e.2.1 = some v ∧ cfg.op.Good cfg.Key e.2.1 v ∧ cfg.op.toWire cfg.Key v = e.2.2)
    (habsent : ∀ e ∈ es, index.get e.1 e.2.1 = none) (t : Int64) (k : cfg.Key) :
    NestedMap.get (es.foldl (fun index e => cfg.ix.add index e.2.1 e.1 e.2.2) index) t k
      = if (t, k) ∈ es.map (fun e => (e.1, e.2.1)) then content t k else index.get t k := by
  induction es generalizing index with
  | nil => simp
  | cons e es ih =>
    obtain ⟨hfresh, hnodup⟩ := List.nodup_cons.mp hnodup
    obtain ⟨hhead, hsent⟩ := List.forall_mem_cons.mp hsent
    obtain ⟨hnone, habsent⟩ := List.forall_mem_cons.mp habsent
    obtain ⟨v, hcontent, hgood, hwire⟩ := hhead
    have hget : ∀ t' k', NestedMap.get (cfg.ix.add index e.2.1 e.1 e.2.2) t' k'
        = if (t', k') = (e.1, e.2.1) then some v else index.get t' k' := by
      rw [← hwire]
      exact (cfg.op.lawful).get_add index e.2.1 e.1 v hnone hgood
    have habsent' : ∀ e' ∈ es, NestedMap.get (cfg.ix.add index e.2.1 e.1 e.2.2) e'.1 e'.2.1 = none := by
      intro e' he'
      have hne : (e'.1, e'.2.1) ≠ (e.1, e.2.1) := fun heq => hfresh (mem_map.mpr ⟨e', he', heq⟩)
      rw [hget, if_neg hne]
      exact habsent e' he'
    refine (ih hnodup hsent habsent').trans ?_
    rw [hget, List.map_cons]
    by_cases hin : (t, k) ∈ es.map fun e => (e.1, e.2.1)
    · rw [if_pos hin, if_pos (List.mem_cons_of_mem _ hin)]
    · rw [if_neg hin]
      by_cases heq : (t, k) = (e.1, e.2.1)
      · obtain ⟨rfl, rfl⟩ := Prod.mk.inj heq
        rw [if_pos rfl, if_pos List.mem_cons_self, hcontent]
      · rw [if_neg heq, if_neg fun hmem => (mem_cons.mp hmem).elim heq hin]

theorem get_foldl_add_of_ne {es : List (Int64 × cfg.Key × cfg.ix.Wire)} {k : cfg.Key} (hk : ∀ e ∈ es, e.2.1 ≠ k)
    (index : cfg.Index) (t : Int64) :
    NestedMap.get (es.foldl (fun index e => cfg.ix.add index e.2.1 e.1 e.2.2) index) t k = index.get t k := by
  induction es generalizing index with
  | nil => rfl
  | cons e es ih =>
    obtain ⟨hne, hk⟩ := List.forall_mem_cons.mp hk
    exact (ih hk _).trans ((cfg.op.lawful).get_add_of_ne index e.2.1 e.1 e.2.2 t k (Ne.symm hne))

end Lists

/-! ## The loops -/

section Loops

variable {cfg}

/-- What is remembered is what would be looked up. -/
def Remembers {D : Type} (lookup : cfg.Key → D) (keysExamined : GoMap cfg.Key D) : Prop :=
  ∀ k d, keysExamined.get k = some d → d = lookup k

theorem examine_spec {D : Type} {lookup : cfg.Key → D} {keysExamined : GoMap cfg.Key D}
    (h : Remembers lookup keysExamined) (key : cfg.Key) :
    (cfg.examine lookup keysExamined key).1 = lookup key ∧ Remembers lookup (cfg.examine lookup keysExamined key).2 := by
  unfold examine
  cases hget : keysExamined.get key with
  | some d => exact ⟨h key d hget, h⟩
  | none =>
    refine ⟨rfl, fun k d hset => ?_⟩
    rw [GoMap.get_set] at hset
    split_ifs at hset with hk
    · rw [hk, ← Option.some.inj hset]
    · exact h k d hset

variable (index : cfg.Index) (es : List (Int64 × cfg.Key × cfg.ix.Entry))

theorem foldl_fetchEntry :
    let moved := es.filter fun e => decide (cfg.getBucketIdx numBuckets e.2.1 ∈ affectedBuckets)
    let c := es.foldl (cfg.fetchEntry numBuckets affectedBuckets) ⟨∅, ∅, index⟩
    Remembers (cfg.getBucketIdx numBuckets) c.keysExamined ∧ c.toBeTransferred = noteAll moved ∧
      c.index = removeAll moved index := by
  induction es using List.reverseRecOn with
  | nil => exact ⟨nofun, rfl, rfl⟩
  | append_singleton es e ih =>
    obtain ⟨hremembers, hnoted, hindex⟩ := ih
    obtain ⟨hbucket, hremembers'⟩ := examine_spec hremembers e.2.1
    simp only [foldl_append, List.foldl_cons, List.foldl_nil, List.filter_append, fetchEntry, hbucket]
    by_cases haffected : cfg.getBucketIdx numBuckets e.2.1 ∈ affectedBuckets
    · rw [if_pos haffected, List.filter_cons_of_pos (by simpa using haffected), filter_nil]
      refine ⟨hremembers', ?_, ?_⟩
      · rw [noteAll, foldl_append, hnoted]
        rfl
      · rw [removeAll, foldl_append, hindex]
        rfl
    · rw [if_neg haffected, List.filter_cons_of_neg (by simpa using haffected), filter_nil, append_nil]
      exact ⟨hremembers', hnoted, hindex⟩

theorem getD_noteAll : (if es = [] then none else some (noteAll es)).getD ∅ = noteAll es := by
  split_ifs with hnil
  · rw [hnil]
    rfl
  · rfl

theorem foldl_forwardEntry :
    let movedTo d := es.filter fun e =>
      decide (cfg.getOwnerWorkerUponReconfig routingTable e.2.1 = d ∧ d ≠ workerId)
    let moved := es.filter fun e => decide (cfg.getOwnerWorkerUponReconfig routingTable e.2.1 ≠ workerId)
    let c := es.foldl (cfg.forwardEntry routingTable workerId) ⟨∅, ∅, index⟩
    Remembers (cfg.getOwnerWorkerUponReconfig routingTable) c.keysExamined ∧
      (∀ d, c.toBeTransferred.get d = if movedTo d = [] then none else some (noteAll (movedTo d))) ∧
      c.index = removeAll moved index := by
  induction es using List.reverseRecOn with
  | nil => exact ⟨nofun, fun _ => rfl, rfl⟩
  | append_singleton es e ih =>
    obtain ⟨hremembers, hnoted, hindex⟩ := ih
    obtain ⟨howner, hremembers'⟩ := examine_spec hremembers e.2.1
    simp only [foldl_append, List.foldl_cons, List.foldl_nil, List.filter_append, forwardEntry, howner]
    by_cases hmoves : cfg.getOwnerWorkerUponReconfig routingTable e.2.1 ≠ workerId
    · rw [if_pos hmoves]
      refine ⟨hremembers', fun d => ?_, ?_⟩
      · dsimp only
        rw [GoMap.get_set]
        by_cases hd : d = cfg.getOwnerWorkerUponReconfig routingTable e.2.1
        · -- the map of this destination grows, and is made if it is the first entry for it
          rw [if_pos hd, ← hd, hnoted d, getD_noteAll, List.filter_cons_of_pos (by simp [hd, hmoves]), filter_nil,
            if_neg (by simp), noteAll, noteAll, foldl_append]
          rfl
        · rw [if_neg hd, List.filter_cons_of_neg (by simp [Ne.symm hd]), filter_nil, append_nil]
          exact hnoted d
      · rw [List.filter_cons_of_pos (by simpa using hmoves), filter_nil, removeAll, foldl_append, hindex]
        rfl
    · rw [if_neg hmoves]
      refine ⟨hremembers', fun d => ?_, ?_⟩
      · have hskip : ¬ (cfg.getOwnerWorkerUponReconfig routingTable e.2.1 = d ∧ d ≠ workerId) :=
          fun hboth => hmoves fun heq => hboth.2 (hboth.1.symm.trans heq)
        rw [List.filter_cons_of_neg (by simpa using hskip), filter_nil, append_nil]
        exact hnoted d
      · rw [List.filter_cons_of_neg (by simpa using hmoves), filter_nil, append_nil]
        exact hindex

/-! ## What the loops leave and take -/

theorem proper_visitAll {index : cfg.Index} (hgood : GoodIndex cfg.op index) (order : cfg.Order) :
    Proper (index.visitAll order.times order.keys) :=
  ⟨NestedMap.visitAll_keys_nodup _ _ index, fun e he => hgood e.1 e.2.1 e.2.2 (NestedMap.mem_visitAll.mp he)⟩

theorem get_noteAll_filter {index : cfg.Index} (hgood : GoodIndex cfg.op index) (order : cfg.Order)
    (p : cfg.Key → Prop) [DecidablePred p] :
    NoEmptyInner (noteAll ((index.visitAll order.times order.keys).filter fun e => decide (p e.2.1))) ∧
    ∀ t k, (noteAll ((index.visitAll order.times order.keys).filter fun e => decide (p e.2.1))).get t k
      = if p k then (index.get t k).map (cfg.op.toWire cfg.Key) else none := by
  obtain ⟨hinner, hget⟩ := noteAll_spec ((proper_visitAll hgood order).filter fun e => decide (p e.2.1))
  refine ⟨hinner, fun t k => Option.ext fun w => ?_⟩
  rw [hget]
  constructor
  · rintro ⟨v, hin, rfl⟩
    obtain ⟨hvisit, hp⟩ := mem_filter.mp hin
    rw [if_pos (of_decide_eq_true hp), NestedMap.mem_visitAll.mp hvisit, Option.map_some]
  · intro hw
    split_ifs at hw with hp
    obtain ⟨v, hv, rfl⟩ := Option.map_eq_some_iff.mp hw
    exact ⟨v, mem_filter.mpr ⟨NestedMap.mem_visitAll.mpr hv, decide_eq_true hp⟩, rfl⟩

theorem get_removeAll_filter (order : cfg.Order) (p : cfg.Key → Prop) [DecidablePred p]
    (t : Int64) (k : cfg.Key) :
    (removeAll ((index.visitAll order.times order.keys).filter fun e => decide (p e.2.1)) index).get t k
      = if p k then none else index.get t k := by
  rw [get_removeAll]
  by_cases hin : (t, k) ∈ ((index.visitAll order.times order.keys).filter fun e => decide (p e.2.1)).map
      fun e => (e.1, e.2.1)
  · obtain ⟨e, he, heq⟩ := mem_map.mp hin
    obtain ⟨-, rfl⟩ := Prod.mk.inj heq
    rw [if_pos hin, if_pos (of_decide_eq_true (mem_filter.mp he).2)]
  · rw [if_neg hin]
    split_ifs with hp
    · -- what was not visited was not there
      refine Option.eq_none_iff_forall_ne_some.mpr fun v hv => hin ?_
      exact mem_map.mpr ⟨(t, k, v), mem_filter.mpr ⟨NestedMap.mem_visitAll.mpr hv, decide_eq_true hp⟩, rfl⟩
    · rfl

end Loops

/-! ## Extraction -/

section Extraction

variable {cfg}

/-- What of an index goes to a worker. -/
def content (cfg : Setting) (dest : cfg.Key → Option WorkerID) (index : cfg.Index) (d : WorkerID) (t : Int64)
    (k : cfg.Key) : Option cfg.ix.Wire :=
  if dest k = some d then (index.get t k).map (cfg.op.toWire cfg.Key) else none

/-- Nothing of the index has to go. -/
def Stays (dest : cfg.Key → Option WorkerID) (index : cfg.Index) : Prop :=
  ∀ t k, dest k ≠ none → index.get t k = none

/-- The index and the messages after an extraction. -/
structure Extracted (dest : cfg.Key → Option WorkerID) (wrap : Bytes → Bytes) (index : cfg.Index)
    (messages : GoMap WorkerID Bytes) (index' : cfg.Index) : Prop where
  kept : ∀ t k, index'.get t k = if dest k = none then index.get t k else none
  sent : ∀ d message, messages.get d = some message →
    ∃ doc : cfg.Doc, message = wrap (cfg.json.print doc) ∧ doc.Describes (content cfg dest index d)
  unsent : ∀ d, messages.get d = none → ∀ t k, content cfg dest index d t k = none

/-- An extraction sends each entry that has to go to its destination, unless JSON refuses its key. -/
structure Extracts (dest : cfg.Key → Option WorkerID) (wrap : Bytes → Bytes)
    (extract : cfg.Order → (WorkerID → cfg.Doc) → cfg.Index → Outcome MetadataAbort (GoMap WorkerID Bytes × cfg.Index)) :
    Prop where
  of_ok : ∀ order listing index messages index', GoodIndex cfg.op index →
    extract order listing index = .ok (messages, index') → Extracted dest wrap index messages index'
  no_abort : ∀ order listing index e, GoodIndex cfg.op index → isJsonKey cfg.kind = true ∨ Stays dest index →
    extract order listing index ≠ .abort e
  refused : ∀ order listing index, GoodIndex cfg.op index → isJsonKey cfg.kind = false → ¬ Stays dest index →
    ∃ e, extract order listing index = .abort e
  listed : ∀ order listing index, GoodIndex cfg.op index → isJsonKey cfg.kind = true ∨ Stays dest index →
    (∀ d, (listing d).Describes (content cfg dest index d)) →
    ∃ messages index', extract order listing index = .ok (messages, index') ∧
      ∀ d message, messages.get d = some message → message = wrap (cfg.json.print (listing d))

variable {m : NestedMap Int64 cfg.Key cfg.ix.Wire}

theorem keys_eq_nil_iff (hinner : NoEmptyInner m) :
    AList.keys m = [] ↔ ∀ t k, m.get t k = none := by
  constructor
  · intro hnil t k
    have hget : GoMap.get m t = none := by
      rw [← Option.not_isSome_iff_eq_none, ← GoMap.mem_keys_iff, hnil]
      exact List.not_mem_nil
    rw [NestedMap.get, hget]
    rfl
  · intro hnone
    refine List.eq_nil_iff_forall_not_mem.mpr fun t ht => ?_
    obtain ⟨inner, hget⟩ := Option.isSome_iff_exists.mp ((GoMap.mem_keys_iff m t).mp ht)
    obtain ⟨⟨k, w⟩, hin⟩ := List.exists_mem_of_ne_nil _ (hinner t inner hget)
    have hsome : m.get t k = some w := by
      rw [NestedMap.get, hget, Option.bind_some]
      exact (GoMap.mem_pairs inner k w).mp hin
    rw [hnone] at hsome
    cases hsome

variable {failed : MetadataAbort} {listing : cfg.Doc}

/-- `marshal` writes a listing, unless JSON refuses the keys. -/
theorem marshal_eq_ok {text : Bytes} (hinner : NoEmptyInner m) (h : cfg.marshal failed listing m = .ok text) :
    text = cfg.json.print listing ∧ listing.Describes m.get := by
  unfold marshal at h
  split_ifs at h with hrefused hlists
  cases h
  exact ⟨rfl, hlists.describes hinner⟩

theorem marshal_of_describes (failed : MetadataAbort) (hinner : NoEmptyInner m)
    (haccepted : isJsonKey cfg.kind = true ∨ AList.keys m = []) (hlisting : listing.Describes m.get) :
    cfg.marshal failed listing m = .ok (cfg.json.print listing) := by
  unfold marshal
  rw [if_neg, if_pos (hlisting.lists hinner)]
  rintro ⟨hkind, hkeys⟩
  exact haccepted.elim (fun h => by rw [hkind] at h; cases h) hkeys

theorem marshal_ne_abort {e : MetadataAbort} (haccepted : isJsonKey cfg.kind = true ∨ AList.keys m = []) :
    cfg.marshal failed listing m ≠ .abort e := by
  unfold marshal
  rw [if_neg]
  · split_ifs <;> nofun
  · rintro ⟨hkind, hkeys⟩
    exact haccepted.elim (fun h => by rw [hkind] at h; cases h) hkeys

theorem marshal_refused (hkind : isJsonKey cfg.kind = false) (hkeys : AList.keys m ≠ []) :
    cfg.marshal failed listing m = .abort failed :=
  if_pos ⟨hkind, hkeys⟩

/-! ### One text for each destination -/

section Maps

variable {dest : cfg.Key → Option WorkerID} {index : cfg.Index} {wrap : Bytes → Bytes} {listing : WorkerID → cfg.Doc}
  {maps : List (WorkerID × NestedMap Int64 cfg.Key cfg.ix.Wire)} {res : GoMap WorkerID Bytes}

/-- The maps to be transferred hold what has to go; only a map that is alone may be empty. -/
structure Maps (dest : cfg.Key → Option WorkerID) (index : cfg.Index)
    (maps : List (WorkerID × NestedMap Int64 cfg.Key cfg.ix.Wire)) : Prop where
  nodup : (maps.map Prod.fst).Nodup
  inner : ∀ e ∈ maps, NoEmptyInner e.2
  content : ∀ e ∈ maps, e.2.get = content cfg dest index e.1
  rest : ∀ d, d ∉ maps.map Prod.fst → ∀ t k, Setting.content cfg dest index d t k = none
  first : ∀ e rest, maps = e :: rest → AList.keys e.2 = [] → rest = []

theorem Maps.stays_iff (h : Maps dest index maps) : Stays dest index ↔ ∀ e ∈ maps, AList.keys e.2 = [] := by
  constructor
  · intro hstays e he
    refine (keys_eq_nil_iff (h.inner e he)).mpr fun t k => ?_
    rw [h.content e he, Setting.content]
    split_ifs with hd
    · rw [hstays t k (by rw [hd]; simp)]
      rfl
    · rfl
  · intro hnil t k hdest
    obtain ⟨d, hd⟩ := Option.ne_none_iff_exists'.mp hdest
    have hnone : Setting.content cfg dest index d t k = none := by
      by_cases hin : d ∈ maps.map Prod.fst
      · obtain ⟨e, he, rfl⟩ := mem_map.mp hin
        rw [← h.content e he]
        exact (keys_eq_nil_iff (h.inner e he)).mp (hnil e he) t k
      · exact h.rest d hin t k
    rw [Setting.content, if_pos hd] at hnone
    exact Option.map_eq_none_iff.mp hnone

/-- The loop that serializes the maps of all destinations. -/
def serializeMaps (cfg : Setting) (failed : MetadataAbort) (wrap : Bytes → Bytes) (listing : WorkerID → cfg.Doc)
    (maps : List (WorkerID × NestedMap Int64 cfg.Key cfg.ix.Wire)) (res : GoMap WorkerID Bytes) :
    Outcome MetadataAbort (GoMap WorkerID Bytes) :=
  forEach maps (fun res e => cfg.marshal failed (listing e.1) e.2 >>= fun text => .ok (res.set e.1 (wrap text))) res

theorem serializeMaps_eq_ok (hmaps : Maps dest index maps) (h : cfg.serializeMaps failed wrap listing maps ∅ = .ok res) :
    (∀ e ∈ maps, (listing e.1).Describes e.2.get) ∧ (∀ d, d ∉ maps.map Prod.fst → res.get d = none) ∧
      ∀ e ∈ maps, res.get e.1 = some (wrap (cfg.json.print (listing e.1))) := by
  have hnodup := hmaps.nodup
  unfold serializeMaps at h
  refine forEach_partial (fun (done : List (WorkerID × NestedMap Int64 cfg.Key cfg.ix.Wire)) (res : GoMap WorkerID Bytes) =>
    (∀ e ∈ done, (listing e.1).Describes e.2.get) ∧ (∀ d, d ∉ done.map Prod.fst → res.get d = none) ∧
      ∀ e ∈ done, res.get e.1 = some (wrap (cfg.json.print (listing e.1)))) ⟨nofun, fun _ _ => rfl, nofun⟩ ?_ h
  rintro done e rest res res' hsplit ⟨hlisted, habsent, hsent⟩ hbody
  obtain ⟨text, htext, hset⟩ := bind_eq_ok.mp hbody
  cases hset
  obtain ⟨rfl, hdescribes⟩ := marshal_eq_ok (hmaps.inner e (by rw [hsplit]; simp)) htext
  refine ⟨?_, fun d hd => ?_, fun e' he' => ?_⟩
  · intro e' he'
    rcases mem_append.mp he' with hold | hnew
    · exact hlisted e' hold
    · rw [mem_singleton.mp hnew]
      exact hdescribes
  · rw [List.map_append, mem_append, not_or] at hd
    rw [GoMap.get_set_ne _ _ (fun heq => hd.2 (by simp [heq]))]
    exact habsent d hd.1
  · rcases mem_append.mp he' with hold | hnew
    · -- destinations are not repeated
      have hne : e'.1 ≠ e.1 := fun heq => notMem_map_done hnodup hsplit (heq ▸ List.mem_map_of_mem hold)
      rw [GoMap.get_set_ne _ _ hne]
      exact hsent e' hold
    · rw [mem_singleton.mp hnew, GoMap.get_set_self]

/-- **An extraction that serializes the maps of what has to go** is one. -/
theorem extracts_of_maps (failed : MetadataAbort)
    {extract : cfg.Order → (WorkerID → cfg.Doc) → cfg.Index → Outcome MetadataAbort (GoMap WorkerID Bytes × cfg.Index)}
    (h : ∀ order listing index, GoodIndex cfg.op index → ∃ (maps : List _) (index' : cfg.Index), Maps dest index maps ∧
      (∀ t k, index'.get t k = if dest k = none then index.get t k else none) ∧
      extract order listing index = cfg.serializeMaps failed wrap listing maps ∅ >>= fun res => .ok (res, index')) :
    Extracts dest wrap extract := by
  refine ⟨?_, ?_, ?_, ?_⟩
  · intro order listing index messages index' hgood hok
    obtain ⟨maps, index₁, hmaps, hindex₁, heq⟩ := h order listing index hgood
    rw [heq] at hok
    obtain ⟨res, hres, hok⟩ := bind_eq_ok.mp hok
    cases hok
    obtain ⟨hlisted, habsent, hsent⟩ := serializeMaps_eq_ok hmaps hres
    refine ⟨hindex₁, fun d message hmessage => ?_, fun d hmessage t k => ?_⟩
    · by_cases hd : d ∈ maps.map Prod.fst
      · obtain ⟨e, he, rfl⟩ := mem_map.mp hd
        rw [hsent e he] at hmessage
        cases hmessage
        exact ⟨listing e.1, rfl, hmaps.content e he ▸ hlisted e he⟩
      · rw [habsent d hd] at hmessage
        cases hmessage
    · refine hmaps.rest d (fun hd => ?_) t k
      obtain ⟨e, he, rfl⟩ := mem_map.mp hd
      rw [hsent e he] at hmessage
      cases hmessage
  · intro order listing index e hgood haccepted habort
    obtain ⟨maps, index₁, hmaps, -, heq⟩ := h order listing index hgood
    rw [heq] at habort
    rcases bind_eq_abort.mp habort with hserialize | ⟨res, -, hok⟩
    · obtain ⟨res', e', he', hbody⟩ := forEach_eq_abort hserialize
      rcases bind_eq_abort.mp hbody with hmarshal | ⟨text, -, hset⟩
      · exact marshal_ne_abort (haccepted.imp_right fun hstays => hmaps.stays_iff.mp hstays e' he') hmarshal
      · cases hset
    · cases hok
  · intro order listing index hgood hkind hmoves
    obtain ⟨maps, index₁, hmaps, -, heq⟩ := h order listing index hgood
    refine ⟨failed, ?_⟩
    rw [heq]
    cases maps with
    | nil => exact absurd (hmaps.stays_iff.mpr nofun) hmoves
    | cons e rest =>
      rw [serializeMaps, forEach_cons, marshal_refused hkind]
      · rfl
      · intro hnil
        obtain rfl := hmaps.first e rest rfl hnil
        exact hmoves (hmaps.stays_iff.mpr fun e' he' => by rwa [mem_singleton.mp he'])
  · intro order listing index hgood haccepted hlisting
    obtain ⟨maps, index₁, hmaps, -, heq⟩ := h order listing index hgood
    have hloop : ∃ res, cfg.serializeMaps failed wrap listing maps ∅ = .ok res ∧ True := by
      refine forEach_total (fun _ _ => True) trivial ?_
      intro done e rest res hsplit _
      have he : e ∈ maps := by rw [hsplit]; simp
      refine ⟨res.set e.1 (wrap (cfg.json.print (listing e.1))), ?_, trivial⟩
      rw [marshal_of_describes failed (hmaps.inner e he)
        (haccepted.imp_right fun hstays => hmaps.stays_iff.mp hstays e he) (hmaps.content e he ▸ hlisting e.1)]
      rfl
    obtain ⟨res, hres, -⟩ := hloop
    obtain ⟨-, habsent, hsent⟩ := serializeMaps_eq_ok hmaps hres
    refine ⟨res, index₁, by rw [heq, hres]; rfl, fun d message hmessage => ?_⟩
    by_cases hd : d ∈ maps.map Prod.fst
    · obtain ⟨e, he, rfl⟩ := mem_map.mp hd
      rw [hsent e he] at hmessage
      exact (Option.some.inj hmessage).symm
    · rw [habsent d hd] at hmessage
      cases hmessage

end Maps

/-- The destination of a fetch: the caller, for keys of the affected buckets. -/
def fetchDest (cfg : Setting) (numBuckets : Nat) (affectedBuckets : List BucketID) (receiver : WorkerID)
    (k : cfg.Key) : Option WorkerID :=
  if cfg.getBucketIdx numBuckets k ∈ affectedBuckets then some receiver else none

/-- **Stop-and-restart** extraction. -/
theorem fetchMetadataForMigration_extracts (receiver : WorkerID) :
    Extracts (cfg.fetchDest numBuckets affectedBuckets receiver) id fun order listing index =>
      cfg.fetchMetadataForMigration numBuckets affectedBuckets order (listing receiver) index >>= fun r =>
        .ok ((∅ : GoMap WorkerID Bytes).set receiver r.1, r.2) := by
  refine extracts_of_maps .serialize fun order listing index hgood => ?_
  obtain ⟨-, hnoted, hindex⟩ := foldl_fetchEntry numBuckets affectedBuckets index (index.visitAll order.times order.keys)
  obtain ⟨hinner, hget⟩ := get_noteAll_filter hgood order fun k => cfg.getBucketIdx numBuckets k ∈ affectedBuckets
  have hremoved := get_removeAll_filter index order fun k => cfg.getBucketIdx numBuckets k ∈ affectedBuckets
  refine ⟨[(receiver, noteAll ((index.visitAll order.times order.keys).filter fun e =>
    decide (cfg.getBucketIdx numBuckets e.2.1 ∈ affectedBuckets)))], _, ⟨by simp, ?_, ?_, fun d hd t k => if_neg fun hdest => ?_, ?_⟩,
    fun t k => (hremoved t k).trans ?_, ?_⟩
  · exact fun e he => by rw [mem_singleton.mp he]; exact hinner
  · intro e he
    rw [mem_singleton.mp he]
    refine funext fun t => funext fun k => (hget t k).trans ?_
    unfold content fetchDest
    by_cases hk : cfg.getBucketIdx numBuckets k ∈ affectedBuckets <;> simp [hk]
  · -- all that goes, goes to the caller
    unfold fetchDest at hdest
    split_ifs at hdest
    exact hd (by simp [Option.some.inj hdest])
  · rintro _ _ ⟨⟩ -
    rfl
  · unfold fetchDest
    by_cases hk : cfg.getBucketIdx numBuckets k ∈ affectedBuckets <;> simp [hk]
  · rw [fetchMetadataForMigration, hnoted, hindex, serializeMaps, forEach_cons, bind_bind, bind_bind, bind_bind]
    rfl

/-- The destination of a fast-forward: the new owner, if it is another worker. -/
def forwardDest (cfg : Setting) (routingTable : List WorkerID) (workerId : WorkerID) (k : cfg.Key) : Option WorkerID :=
  if cfg.getOwnerWorkerUponReconfig routingTable k ≠ workerId then some (cfg.getOwnerWorkerUponReconfig routingTable k)
  else none

variable {index : cfg.Index} {routingTable : List WorkerID} {workerId d : WorkerID}

theorem forwardDest_eq_some {k : cfg.Key} :
    cfg.forwardDest routingTable workerId k = some d ↔
      cfg.getOwnerWorkerUponReconfig routingTable k = d ∧ d ≠ workerId := by
  unfold forwardDest
  split_ifs with hne
  · rw [Option.some.injEq]
    exact ⟨fun h => ⟨h, h ▸ hne⟩, And.left⟩
  · rw [not_not] at hne
    exact iff_of_false nofun fun h => h.2 (h.1.symm.trans hne)

theorem forwardDest_eq_none {k : cfg.Key} :
    cfg.forwardDest routingTable workerId k = none ↔ cfg.getOwnerWorkerUponReconfig routingTable k = workerId := by
  unfold forwardDest
  split_ifs with hne
  · exact iff_of_false nofun hne
  · exact iff_of_true rfl (not_not.mp hne)

theorem constructFastForwardMetadata_eq (routingTable : List WorkerID) (workerId : WorkerID) (order : cfg.Order)
    (listing : WorkerID → cfg.Doc) (hgood : GoodIndex cfg.op index) :
    ∃ (maps : List (WorkerID × NestedMap Int64 cfg.Key cfg.ix.Wire)) (index' : cfg.Index),
      Maps (cfg.forwardDest routingTable workerId) index maps ∧ (∀ e ∈ maps, AList.keys e.2 ≠ []) ∧
      (∀ t k, NestedMap.get index' t k
        = if cfg.forwardDest routingTable workerId k = none then index.get t k else none) ∧
      cfg.constructFastForwardMetadata routingTable workerId order listing index
        = cfg.serializeMaps .encode cfg.frame listing maps ∅ >>= fun res => .ok (res, index') := by
  obtain ⟨-, hnoted, hindex⟩ := foldl_forwardEntry routingTable workerId index (index.visitAll order.times order.keys)
  have hget : ∀ d, NoEmptyInner (noteAll ((index.visitAll order.times order.keys).filter fun e =>
      decide (cfg.getOwnerWorkerUponReconfig routingTable e.2.1 = d ∧ d ≠ workerId))) ∧ (noteAll
      ((index.visitAll order.times order.keys).filter fun e =>
        decide (cfg.getOwnerWorkerUponReconfig routingTable e.2.1 = d ∧ d ≠ workerId))).get
        = content cfg (cfg.forwardDest routingTable workerId) index d := by
    intro d
    obtain ⟨hinner, hget⟩ := get_noteAll_filter hgood order fun k =>
      cfg.getOwnerWorkerUponReconfig routingTable k = d ∧ d ≠ workerId
    refine ⟨hinner, funext fun t => funext fun k => (hget t k).trans ?_⟩
    unfold content
    simp only [forwardDest_eq_some]
  have hremoved := get_removeAll_filter index order fun k => cfg.getOwnerWorkerUponReconfig routingTable k ≠ workerId
  dsimp only at hnoted
  set toBeTransferred := ((index.visitAll order.times order.keys).foldl (cfg.forwardEntry routingTable workerId)
    ⟨∅, ∅, index⟩).toBeTransferred
  have hsome : ∀ e ∈ toBeTransferred.pairs, NoEmptyInner e.2 ∧ AList.keys e.2 ≠ [] ∧
      e.2.get = content cfg (cfg.forwardDest routingTable workerId) index e.1 := by
    rintro ⟨d, m⟩ he
    rw [GoMap.mem_pairs, hnoted] at he
    split_ifs at he with hnil
    cases he
    obtain ⟨hinner, hcontent⟩ := hget d
    refine ⟨hinner, fun hkeys => hnil ?_, hcontent⟩
    -- an entry that was noted is there
    refine List.eq_nil_iff_forall_not_mem.mpr fun e he => ?_
    have hnone := (keys_eq_nil_iff hinner).mp hkeys e.1 e.2.1
    have hsome := ((noteAll_spec ((proper_visitAll hgood order).filter _)).2 e.1 e.2.1 _).mpr ⟨e.2.2, he, rfl⟩
    rw [hnone] at hsome
    cases hsome
  refine ⟨toBeTransferred.pairs, _, ⟨?_, fun e he => (hsome e he).1, fun e he => (hsome e he).2.2, fun d hd t k => ?_,
    fun e rest hpairs hkeys => ?_⟩, fun e he => (hsome e he).2.1, fun t k => (hremoved t k).trans ?_, ?_⟩
  · rw [GoMap.pairs_map_fst]
    exact AList.keys_nodup _
  · rw [GoMap.pairs_map_fst, GoMap.mem_keys_iff, Option.not_isSome_iff_eq_none, hnoted] at hd
    split_ifs at hd with hnil
    rw [← (hget d).2, hnil]
    rfl
  · exact absurd hkeys (hsome e (by rw [hpairs]; exact List.mem_cons_self)).2.1
  · simp only [forwardDest_eq_none]
    by_cases hk : cfg.getOwnerWorkerUponReconfig routingTable k = workerId <;> simp [hk]
  · rw [constructFastForwardMetadata, hindex, serializeMaps]
    simp only [serializeToFastForwardMetadata, bind_bind]
    rfl

/-- **Fast-forward** extraction. -/
theorem constructFastForwardMetadata_extracts (routingTable : List WorkerID) (workerId : WorkerID) :
    Extracts (cfg.forwardDest routingTable workerId) cfg.frame
      (cfg.constructFastForwardMetadata routingTable workerId) := by
  refine extracts_of_maps .encode fun order listing index hgood => ?_
  obtain ⟨maps, index', hmaps, -, hindex, heq⟩ :=
    constructFastForwardMetadata_eq routingTable workerId order listing hgood
  exact ⟨maps, index', hmaps, hindex, heq⟩

theorem constructFastForwardMetadata_content {order : cfg.Order} {listing : WorkerID → cfg.Doc} {index' : cfg.Index}
    {messages : GoMap WorkerID Bytes} (hgood : GoodIndex cfg.op index)
    (hok : cfg.constructFastForwardMetadata routingTable workerId order listing index = .ok (messages, index')) (hd : messages.get d ≠ none) :
    ∃ t k, content cfg (cfg.forwardDest routingTable workerId) index d t k ≠ none := by
  obtain ⟨maps, index₁, hmaps, hkeys, -, heq⟩ :=
    constructFastForwardMetadata_eq routingTable workerId order listing hgood
  rw [heq] at hok
  obtain ⟨res, hres, hok⟩ := bind_eq_ok.mp hok
  cases hok
  obtain ⟨-, habsent, -⟩ := serializeMaps_eq_ok hmaps hres
  obtain ⟨e, he, rfl⟩ := mem_map.mp (not_not.mp (mt (habsent d) hd))
  rw [← hmaps.content e he]
  by_contra hnone
  simp only [not_exists, not_not] at hnone
  exact hkeys e he ((keys_eq_nil_iff (hmaps.inner e he)).mpr hnone)

end Extraction

/-! ## Insertion -/

section Insertion

variable {cfg} {received : NestedMap Int64 cfg.Key cfg.ix.Wire} {index : cfg.Index}

/-- What was sent as the entries `sent` comes back as these entries. -/
theorem get_insertAll {sent : Int64 → cfg.Key → Option cfg.ix.Entry} (hreceived : ∀ t k, received.get t k = (sent t k).map (cfg.op.toWire cfg.Key))
    (hgood : ∀ t k v, sent t k = some v → cfg.op.Good cfg.Key k v)
    (habsent : ∀ t k, sent t k ≠ none → index.get t k = none) (order : cfg.WireOrder) (t : Int64) (k : cfg.Key) :
    (cfg.insertAll order received index).get t k = (sent t k).or (index.get t k) := by
  have hmem : ∀ e ∈ received.visitAll order.times order.keys, ∃ v, sent e.1 e.2.1 = some v ∧
      cfg.op.toWire cfg.Key v = e.2.2 := by
    intro e he
    have hget := NestedMap.mem_visitAll.mp he
    rw [hreceived] at hget
    exact Option.map_eq_some_iff.mp hget
  have hsent : ∀ e ∈ received.visitAll order.times order.keys, ∃ v, sent e.1 e.2.1 = some v ∧
      cfg.op.Good cfg.Key e.2.1 v ∧ cfg.op.toWire cfg.Key v = e.2.2 := by
    intro e he
    obtain ⟨v, hv, hwire⟩ := hmem e he
    exact ⟨v, hv, hgood _ _ v hv, hwire⟩
  have habsent' : ∀ e ∈ received.visitAll order.times order.keys, index.get e.1 e.2.1 = none := by
    intro e he
    obtain ⟨v, hv, -⟩ := hmem e he
    exact habsent _ _ (by rw [hv]; nofun)
  refine (get_foldl_add (NestedMap.visitAll_keys_nodup _ _ _) hsent habsent' t k).trans ?_
  split_ifs with hin
  · obtain ⟨e, he, heq⟩ := mem_map.mp hin
    obtain ⟨rfl, rfl⟩ := Prod.mk.inj heq
    obtain ⟨v, hv, -⟩ := hmem e he
    rw [hv, Option.some_or]
  · cases hv : sent t k with
    | none => rw [Option.none_or]
    | some v =>
      refine absurd (mem_map.mpr ⟨(t, k, cfg.op.toWire cfg.Key v), NestedMap.mem_visitAll.mpr ?_, rfl⟩) hin
      rw [hreceived, hv, Option.map_some]

theorem get_insertAll_of_ne {k : cfg.Key}
    (hk : ∀ t, received.get t k = none) (order : cfg.WireOrder) (index : cfg.Index) (t : Int64) :
    (cfg.insertAll order received index).get t k = index.get t k := by
  refine get_foldl_add_of_ne (fun e he heq => ?_) index t
  have hget := NestedMap.mem_visitAll.mp he
  rw [heq, hk] at hget
  cases hget

theorem goodIndex_insertAll (hgood : GoodIndex cfg.op index) (order : cfg.WireOrder)
    (received : NestedMap Int64 cfg.Key cfg.ix.Wire) : GoodIndex cfg.op (cfg.insertAll order received index) := by
  unfold insertAll
  generalize received.visitAll order.times order.keys = es
  induction es generalizing index with
  | nil => exact hgood
  | cons e es ih => exact ih ((cfg.op.lawful).add_good index e.2.1 e.1 e.2.2 hgood)

/-- An insertion adds what a message says, if the text arrives whole and JSON accepts its keys. -/
def Inserts (cfg : Setting) (wrap : Bytes → Bytes) (fits : Bytes → Prop) (failed : MetadataAbort)
    (insert : cfg.WireOrder → Bytes → cfg.Index → Outcome MetadataAbort cfg.Index) : Prop :=
  ∀ order (doc : cfg.Doc) index,
    (fits (cfg.json.print doc) → (isJsonKey cfg.kind = true ∨ doc = []) →
      insert order (wrap (cfg.json.print doc)) index
        = .ok (cfg.insertAll order (doc.mapKeys (jsonKey cfg.kind)).toMap index)) ∧
    (¬ (fits (cfg.json.print doc) ∧ (isJsonKey cfg.kind = true ∨ doc = [])) →
      insert order (wrap (cfg.json.print doc)) index = .abort failed)

theorem unmarshal_of_parse {failed : MetadataAbort} {text : Bytes} {doc : cfg.Doc}
    (h : cfg.json.parse text = some (doc.mapKeys (jsonKey cfg.kind))) :
    cfg.unmarshal failed text = if isJsonKey cfg.kind = true ∨ doc = [] then
      .ok (doc.mapKeys (jsonKey cfg.kind)).toMap else .abort failed := by
  unfold unmarshal
  rw [h]
  have hnil : doc.mapKeys (jsonKey cfg.kind) = [] ↔ doc = [] := List.map_eq_nil_iff
  dsimp only
  by_cases hdoc : doc = []
  · rw [if_neg fun hboth => hboth.2 (hnil.mpr hdoc), if_pos (.inr hdoc)]
  · cases hkind : isJsonKey cfg.kind with
    | true => rw [if_neg nofun, if_pos (.inl rfl)]
    | false => rw [if_pos ⟨rfl, mt hnil.mp hdoc⟩, if_neg fun hor => hor.elim nofun hdoc]

/-- **Stop-and-restart** insertion. -/
theorem insertMigratedMetadata_inserts : Inserts cfg id (fun _ => True) .deserialize cfg.insertMigratedMetadata := by
  intro order doc index
  unfold insertMigratedMetadata
  rw [id, unmarshal_of_parse (cfg.json.parse_print doc)]
  refine ⟨fun _ haccepted => by rw [if_pos haccepted]; rfl, fun hrefused => ?_⟩
  rw [if_neg fun haccepted => hrefused ⟨trivial, haccepted⟩]
  rfl

/-- The length of a text with its line break fits into four bytes. -/
def FitsFrame (text : Bytes) : Prop := text.length + 1 < 2 ^ 32

theorem readMetadata_frame (text : Bytes) :
    cfg.readMetadata (cfg.frame text) = .ok ((text ++ [newline]).take ((text.length + 1) % 2 ^ 32)) := by
  have hsize : (UInt32.ofNat (text ++ [newline]).length).toNat = (text.length + 1) % 2 ^ 32 := by
    rw [UInt32.toNat_ofNat', List.length_append]
    rfl
  have hread : readAll ((text.length + 1) % 2 ^ 32) (text ++ [newline])
      = .ok ((text ++ [newline]).take ((text.length + 1) % 2 ^ 32),
        (text ++ [newline]).drop ((text.length + 1) % 2 ^ 32)) := by
    refine if_pos ?_
    rw [List.length_append]
    exact Nat.mod_le _ _
  rw [readMetadata, frame, readHeader_marshal, ok_bind]
  dsimp only
  rw [readHeader_marshal, ok_bind]
  dsimp only
  rw [hsize, hread]
  rfl

/-- **Fast-forward** insertion: a text whose length does not fit is cut off and does not decode. -/
theorem processFastForwardMetadata_inserts :
    Inserts cfg cfg.frame FitsFrame .decode cfg.processFastForwardMetadata := by
  intro order doc index
  unfold processFastForwardMetadata
  rw [readMetadata_frame]
  by_cases hfits : FitsFrame (cfg.json.print doc)
  · have hwhole : (cfg.json.print doc ++ [newline]).take (((cfg.json.print doc).length + 1) % 2 ^ 32)
        = cfg.json.print doc ++ [newline] := by
      rw [Nat.mod_eq_of_lt hfits]
      exact List.take_of_length_le (by simp)
    rw [hwhole]
    refine ⟨fun _ haccepted => ?_, fun hrefused => ?_⟩
    · show (cfg.unmarshal .decode _ >>= _) = _
      rw [unmarshal_of_parse (cfg.json.parse_line doc), if_pos haccepted]
      rfl
    · show (cfg.unmarshal .decode _ >>= _) = _
      rw [unmarshal_of_parse (cfg.json.parse_line doc), if_neg fun haccepted => hrefused ⟨hfits, haccepted⟩]
      rfl
  · refine ⟨fun hfits' => absurd hfits' hfits, fun _ => ?_⟩
    have hlarge : 2 ^ 32 ≤ (cfg.json.print doc).length + 1 := Nat.le_of_not_lt hfits
    -- at least 2 ^ 32 bytes are missing
    have hshort : ((cfg.json.print doc).length + 1) % 2 ^ 32 < (cfg.json.print doc).length := by
      have hmod := Nat.mod_lt ((cfg.json.print doc).length + 1) (show 0 < 2 ^ 32 by decide)
      have hdiv := Nat.mod_add_div ((cfg.json.print doc).length + 1) (2 ^ 32)
      have hone : 1 ≤ ((cfg.json.print doc).length + 1) / 2 ^ 32 := (Nat.one_le_div_iff (by decide)).mpr hlarge
      omega
    have hcut : (cfg.json.print doc ++ [newline]).take (((cfg.json.print doc).length + 1) % 2 ^ 32)
        = (cfg.json.print doc).take (((cfg.json.print doc).length + 1) % 2 ^ 32) :=
      List.take_append_of_le_length hshort.le
    have hne : (cfg.json.print doc).take (((cfg.json.print doc).length + 1) % 2 ^ 32) ≠ cfg.json.print doc := by
      intro heq
      have hlen := congrArg List.length heq
      rw [List.length_take] at hlen
      omega
    show (cfg.unmarshal .decode _ >>= _) = _
    rw [hcut, unmarshal, cfg.json.parse_truncated doc _ ⟨_, List.take_append_drop _ _⟩ hne]
    rfl

end Insertion

end Setting

end Metadata
end Koala
