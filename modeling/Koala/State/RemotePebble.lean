import Koala.Lib.Outcome
import Koala.State.Backend

/-!
# State sharded over remote Pebble servers

`state/stateBackend/remotePebble.go`: the buckets are dealt out to the servers round-robin, and every call is split
into one request for each server.  The requests of a call are made by one goroutine each; `order` is the order in which
they are served.  The values of a read are written back to the positions of their keys.

A server is named by its address, and two shards may have the same one.  That the servers together behave like one
store (`Represents`) rests on two facts: what a write does to a key depends on that key's items only
(`get_foldl`), and all items of a key are in one request, in their order (`Shards.split_eq`).
-/

namespace Koala
namespace State

open Lib Lib.Outcome

inductive RemoteAbort where
  /-- "Key is too short to contain bucket index" -/
  | keyTooShort
  /-- "SetMany(): keys or values is nil or length mismatch", "MergeMany(): …" -/
  | lengthMismatch
  /-- "Remote read returned %d values, expected %d" -/
  | wrongCount
  /-- Go's bounds checks. -/
  | indexOutOfRange
  deriving DecidableEq, Repr

/-- `RemotePebbleStateBackend`, as `NewRemotePebbleStateBackend` makes it. -/
structure RemotePebble (Addr : Type) where
  shards : List Addr
  numBuckets : Nat
  shards_ne : shards ≠ []
  numBuckets_pos : 0 < numBuckets

/-- `buildRemotePebbleRoutingTable`. -/
def buildRemotePebbleRoutingTable (numBuckets numShards : Nat) : List Nat :=
  (List.range numBuckets).map (· % numShards)

namespace RemotePebble

variable {Addr : Type} (r : RemotePebble Addr) (key : Bytes)

def bucketIdxForKey : Outcome RemoteAbort Nat :=
  if key.length < 8 then .abort .keyTooShort else .ok (getUint32 (key.drop 2))

/-- The index of the shard, as all four calls look it up. -/
def shardIdxForKey : Outcome RemoteAbort Nat := do
  let bucketIdx ← bucketIdxForKey key
  match (buildRemotePebbleRoutingTable r.numBuckets r.shards.length)[bucketIdx]? with
  | none => .abort .indexOutOfRange
  | some shardIdx => .ok shardIdx

/-- The loop that appends each item of a call to the batch of its shard. -/
def split {α : Type} (key : α → Bytes) (items : List α) : Outcome RemoteAbort (List (List α)) :=
  forEach items (fun batches x => do
    let shardIdx ← r.shardIdxForKey (key x)
    check (batches.length ≤ shardIdx) .indexOutOfRange
    pure (batches.set shardIdx (batches.getD shardIdx [] ++ [x]))) (List.replicate r.shards.length [])

/-- A call: the batches are made, then the goroutines do their requests, in some order. -/
def requests {α σ : Type} (key : α → Bytes) (items : List α) (body : σ → Addr → List α → Outcome RemoteAbort σ)
    (order : List Nat) (s : σ) : Outcome RemoteAbort σ := do
  let batches ← r.split key items
  forEach order (fun s i =>
    match r.shards[i]?, batches[i]? with
    | some shard, some batch => body s shard batch
    | _, _ => .abort .indexOutOfRange) s

def write [DecidableEq Addr] {α : Type} (op : KeyedOp α) (items : List α) (order : List Nat)
    (stores : Addr → Backend) : Outcome RemoteAbort (Addr → Backend) :=
  r.requests op.key items (fun stores shard batch =>
    .ok (Function.update stores shard (batch.foldl op.apply (stores shard)))) order stores

def setMany [DecidableEq Addr] (keys values : List Bytes) (order : List Nat) (stores : Addr → Backend) :
    Outcome RemoteAbort (Addr → Backend) := do
  check (keys.length ≠ values.length) .lengthMismatch
  r.write .set (keys.zip values) order stores

def mergeMany [DecidableEq Addr] (keys values : List Bytes) (order : List Nat) (stores : Addr → Backend) :
    Outcome RemoteAbort (Addr → Backend) := do
  check (keys.length ≠ values.length) .lengthMismatch
  r.write .merge (keys.zip values) order stores

def deleteMany [DecidableEq Addr] (keys : List Bytes) (order : List Nat) (stores : Addr → Backend) :
    Outcome RemoteAbort (Addr → Backend) :=
  r.write .delete keys order stores

/-- `result[idx] = values[j]`. -/
def writeBack (values result : List Bytes) (e : Nat × Nat) : Outcome RemoteAbort (List Bytes) :=
  match values[e.2]? with
  | none => .abort .indexOutOfRange
  | some v => if e.1 < result.length then .ok (result.set e.1 v) else .abort .indexOutOfRange

/-- A goroutine of `GetMany`: the request, and its values written to the positions of their keys. -/
def readShard (shard : Backend) (batch : List (Bytes × Nat)) (result : List Bytes) :
    Outcome RemoteAbort (List Bytes) := do
  let values := shard.getMany (batch.map Prod.fst)
  check (values.length ≠ batch.length) .wrongCount
  forEach (batch.map Prod.snd).zipIdx (writeBack values) result

def getMany (keys : List Bytes) (order : List Nat) (stores : Addr → Backend) : Outcome RemoteAbort (List Bytes) :=
  r.requests Prod.fst keys.zipIdx (fun result shard batch => readShard (stores shard) batch result) order
    (List.replicate keys.length [])

/-! ## One store -/

/-- A key with the prefix of a state key and a bucket of the deployment. -/
def ValidKey : Prop := 8 ≤ key.length ∧ getUint32 (key.drop 2) < r.numBuckets

/-- The shard of a key. -/
def shardOf : Nat := getUint32 (key.drop 2) % r.shards.length

theorem shardOf_lt : r.shardOf key < r.shards.length :=
  Nat.mod_lt _ (List.length_pos_of_ne_nil r.shards_ne)

/-- The shards that get a request. -/
def busy (keys : List Bytes) : List Nat :=
  (List.range r.shards.length).filter fun i => keys.any fun k => decide (r.shardOf k = i)

variable {r}

theorem shardIdxForKey_ok {key : Bytes} (h : r.ValidKey key) : r.shardIdxForKey key = .ok (r.shardOf key) := by
  have hroute : (buildRemotePebbleRoutingTable r.numBuckets r.shards.length)[getUint32 (key.drop 2)]?
      = some (r.shardOf key) := by
    simp [buildRemotePebbleRoutingTable, List.getElem?_range h.2, shardOf]
  rw [shardIdxForKey, bucketIdxForKey, if_neg (Nat.not_lt.mpr h.1), ok_bind]
  simp only [hroute]

/-- **Splitting**: the batch of a shard has the items of its keys, in their order. -/
theorem split_ok {α : Type} {key : α → Bytes} {items : List α} (h : ∀ x ∈ items, r.ValidKey (key x)) :
    ∃ batches, r.split key items = .ok batches ∧ batches.length = r.shards.length ∧
      ∀ i < r.shards.length, batches[i]? = some (items.filter fun x => decide (r.shardOf (key x) = i)) := by
  refine forEach_total (fun done (batches : List (List α)) => batches.length = r.shards.length ∧
    ∀ i < r.shards.length, batches[i]? = some (done.filter fun x => decide (r.shardOf (key x) = i)))
    ⟨List.length_replicate, fun i hi => by simp [hi]⟩ ?_
  intro done x rest batches hsplit ⟨hlen, hbatches⟩
  have hlt := r.shardOf_lt (key x)
  refine ⟨batches.set (r.shardOf (key x)) (batches.getD (r.shardOf (key x)) [] ++ [x]), ?_,
    by rw [List.length_set, hlen], fun i hi => ?_⟩
  · rw [shardIdxForKey_ok (h x (by simp [hsplit])), ok_bind, check_eq_ok (by omega), ok_bind]
    rfl
  · by_cases hx : r.shardOf (key x) = i
    · subst hx
      have hold := hbatches _ hlt
      rw [List.getElem?_set_self (hlen ▸ hlt), List.getD, hold]
      simp [List.filter_append]
    · simp [hx, hbatches i hi, List.filter_append]

/-- What one request of `GetMany` writes. -/
theorem readShard_ok (shard : Backend) {batch : List (Bytes × Nat)} (result : List Bytes) (f : Nat → Bytes)
    (hf : ∀ p ∈ batch, (shard.get p.1).getD [] = f p.2) (hlt : ∀ p ∈ batch, p.2 < result.length) :
    ∃ result', readShard shard batch result = .ok result' ∧ result'.length = result.length ∧
      ∀ j < result.length, result'[j]? = if j ∈ batch.map Prod.snd then some (f j) else result[j]? := by
  have hvalues : shard.getMany (batch.map Prod.fst) = (batch.map Prod.snd).map f := by
    rw [Backend.getMany, List.map_map, List.map_map]
    exact List.map_congr_left hf
  have hloop : ∃ result', forEach (batch.map Prod.snd).zipIdx (writeBack ((batch.map Prod.snd).map f)) result
      = .ok result' ∧ result'.length = result.length ∧ ∀ j < result.length, result'[j]? =
        if j ∈ (batch.map Prod.snd).zipIdx.map Prod.fst then some (f j) else result[j]? := by
    refine forEach_total (fun done (res : List Bytes) => res.length = result.length ∧
      ∀ j < result.length, res[j]? = if j ∈ done.map Prod.fst then some (f j) else result[j]?) ⟨rfl, by simp⟩ ?_
    intro done e rest res hsplit ⟨hlen, hat⟩
    have hmem : (batch.map Prod.snd)[e.2]? = some e.1 := List.mem_zipIdx_iff_getElem?.mp (by simp [hsplit])
    have hvalue : ((batch.map Prod.snd).map f)[e.2]? = some (f e.1) := by
      rw [List.getElem?_map, hmem]
      rfl
    obtain ⟨p, hp, hpe⟩ := List.mem_map.mp (List.mem_of_getElem? hmem)
    have he : e.1 < result.length := hpe ▸ hlt p hp
    refine ⟨res.set e.1 (f e.1), ?_, by rw [List.length_set, hlen], fun j hj => ?_⟩
    · simp only [writeBack, hvalue, hlen, he, if_true]
    · rw [List.getElem?_set, hlen]
      by_cases hej : e.1 = j
      · subst hej
        simp [he]
      · rw [if_neg hej, hat j hj]
        simp only [List.map_append, List.mem_append, List.map_singleton, List.mem_singleton, Ne.symm hej, or_false]
  rw [List.zipIdx_map_fst] at hloop
  unfold readShard
  simp only [hvalues]
  rw [check_eq_ok (by simp), ok_bind]
  exact hloop

variable {order : List Nat}

/-- **The requests of a call**, one for each shard that has items, in any order. -/
theorem requests_total {α σ : Type} {key : α → Bytes} {items : List α} (h : ∀ x ∈ items, r.ValidKey (key x)) (horder : order.Perm (r.busy (items.map key))) {body : σ → Addr → List α → Outcome RemoteAbort σ}
    {s : σ} (inv : List Nat → σ → Prop) (hinit : inv [] s)
    (hstep : ∀ done i s shard, i ∉ done → r.shards[i]? = some shard → inv done s →
      ∃ s', body s shard (items.filter fun x => decide (r.shardOf (key x) = i)) = .ok s' ∧ inv (done ++ [i]) s') :
    ∃ s', r.requests key items body order s = .ok s' ∧ inv order s' := by
  obtain ⟨batches, hsplit, -, hbatches⟩ := split_ok h
  have hnodup : order.Nodup := horder.nodup_iff.mpr (List.nodup_range.filter _)
  unfold requests
  rw [hsplit, ok_bind]
  refine forEach_total inv hinit fun done i rest s horder' hinv => ?_
  have hi : i < r.shards.length := by
    have hmem : i ∈ r.busy (items.map key) := horder.mem_iff.mp (by simp [horder'])
    exact List.mem_range.mp (List.mem_filter.mp hmem).1
  have hfresh := notMem_done hnodup horder'
  obtain ⟨s', hbody, hinv'⟩ := hstep done i s r.shards[i] hfresh (List.getElem?_eq_getElem hi) hinv
  exact ⟨s', by simp only [List.getElem?_eq_getElem hi, hbatches i hi, hbody], hinv'⟩

theorem shardOf_mem_order {α : Type} {key : α → Bytes} {items : List α}
    (horder : order.Perm (r.busy (items.map key))) {x : α} (hx : x ∈ items) : r.shardOf (key x) ∈ order := by
  rw [horder.mem_iff, busy, List.mem_filter, List.mem_range]
  exact ⟨r.shardOf_lt _, List.any_eq_true.mpr ⟨key x, List.mem_map_of_mem hx, by simp⟩⟩

/-- The servers hold for every valid key what one store holds. -/
def Represents (r : RemotePebble Addr) (stores : Addr → Backend) (b : Backend) : Prop :=
  ∀ k, r.ValidKey k → ∀ shard, r.shards[r.shardOf k]? = some shard → (stores shard).get k = b.get k

variable {stores : Addr → Backend} {b : Backend} {keys : List Bytes}

/-- **A read** gives what one store would answer. -/
theorem getMany_ok (h : r.Represents stores b)
    (hkeys : ∀ k ∈ keys, r.ValidKey k) (horder : order.Perm (r.busy (keys.zipIdx.map Prod.fst))) :
    r.getMany keys order stores = .ok (b.getMany keys) := by
  have hentry : ∀ p ∈ keys.zipIdx, keys[p.2]? = some p.1 ∧ p.1 ∈ keys ∧ p.2 < keys.length := fun p hp => by
    have hget := List.mem_zipIdx_iff_getElem?.mp hp
    exact ⟨hget, List.mem_of_getElem? hget, (List.getElem?_eq_some_iff.mp hget).1⟩
  have hread : ∃ result, r.getMany keys order stores = .ok result ∧ result.length = keys.length ∧
      ∀ (j : Nat) (k : Bytes), keys[j]? = some k → result[j]? = some (if r.shardOf k ∈ order then (b.get k).getD [] else []) := by
    refine requests_total (fun p hp => hkeys p.1 (hentry p hp).2.1) horder
      (fun done (result : List Bytes) => result.length = keys.length ∧ ∀ (j : Nat) (k : Bytes), keys[j]? = some k →
        result[j]? = some (if r.shardOf k ∈ done then (b.get k).getD [] else [])) ⟨List.length_replicate, ?_⟩ ?_
    · intro j k hk
      simp [(List.getElem?_eq_some_iff.mp hk).1]
    · intro done i result shard hfresh hshard ⟨hlen, hat⟩
      have hmem : ∀ p, p ∈ (keys.zipIdx.filter fun p => decide (r.shardOf p.1 = i)) ↔
          keys[p.2]? = some p.1 ∧ r.shardOf p.1 = i := fun p => by
        rw [List.mem_filter, List.mem_zipIdx_iff_getElem?, decide_eq_true_eq]
      obtain ⟨result', hrun, hlen', hat'⟩ := readShard_ok (stores shard) result
        (fun j => (keys[j]?.elim [] fun k => (b.get k).getD [])) (fun p hp => by
          obtain ⟨hget, rfl⟩ := (hmem p).mp hp
          rw [h p.1 (hkeys _ (List.mem_of_getElem? hget)) shard hshard, hget]
          rfl) fun p hp => hlen ▸ (List.getElem?_eq_some_iff.mp ((hmem p).mp hp).1).1
      refine ⟨result', hrun, hlen'.trans hlen, fun j k hk => ?_⟩
      have hin : j ∈ (keys.zipIdx.filter fun p => decide (r.shardOf p.1 = i)).map Prod.snd ↔ r.shardOf k = i := by
        constructor
        · intro hj
          obtain ⟨p, hp, rfl⟩ := List.mem_map.mp hj
          obtain ⟨hp, hi⟩ := (hmem p).mp hp
          rwa [Option.some.inj (hk.symm.trans hp)]
        · exact fun hi => List.mem_map.mpr ⟨(k, j), (hmem (k, j)).mpr ⟨hk, hi⟩, rfl⟩
      rw [hat' j (hlen ▸ (List.getElem?_eq_some_iff.mp hk).1), hat j k hk]
      by_cases hi : r.shardOf k = i
      · rw [if_pos (hin.mpr hi), if_pos (by simp [hi]), hk]
        rfl
      · simp [hin, hi]
  obtain ⟨result, hrun, hlen, hat⟩ := hread
  rw [hrun]
  refine congrArg _ (List.ext_getElem? fun j => ?_)
  cases hk : keys[j]? with
  | none =>
    have hj : keys.length ≤ j := List.getElem?_eq_none_iff.mp hk
    rw [List.getElem?_eq_none (hlen ▸ hj), List.getElem?_eq_none (by rw [Backend.getMany, List.length_map]; exact hj)]
  | some k =>
    have hin : r.shardOf k ∈ order := shardOf_mem_order (x := (k, j)) horder (List.mem_zipIdx_iff_getElem?.mpr hk)
    rw [hat j k hk, if_pos hin, Backend.getMany, List.getElem?_map, hk]
    rfl

/-- **A write** does to every key what it does in one store. -/
theorem write_ok [DecidableEq Addr] (h : r.Represents stores b) {α : Type} (op : KeyedOp α) {items : List α} (hitems : items.map op.key = keys) (hkeys : ∀ k ∈ keys, r.ValidKey k)
    (horder : order.Perm (r.busy keys)) :
    ∃ stores', r.write op items order stores = .ok stores' ∧ r.Represents stores' (items.foldl op.apply b) := by
  subst hitems
  have hserved : ∃ stores', r.write op items order stores = .ok stores' ∧ ∀ k, r.ValidKey k →
      ∀ shard, r.shards[r.shardOf k]? = some shard → (stores' shard).get k =
        if r.shardOf k ∈ order then (items.foldl op.apply b).get k else b.get k := by
    refine requests_total (List.forall_mem_map.mp hkeys) horder (fun done (stores' : Addr → Backend) => ∀ k, r.ValidKey k →
      ∀ shard, r.shards[r.shardOf k]? = some shard → (stores' shard).get k =
        if r.shardOf k ∈ done then (items.foldl op.apply b).get k else b.get k) (fun k hk shard hshard => ?_) ?_
    · rw [if_neg List.not_mem_nil]
      exact h k hk shard hshard
    · intro done i stores₁ a hfresh ha hinv
      refine ⟨_, rfl, fun k hk shard hshard => ?_⟩
      -- the items of a key are in the batch of its shard
      have hfilter : ((items.filter fun x => decide (r.shardOf (op.key x) = i)).filter fun x => decide (op.key x = k))
          = if r.shardOf k = i then items.filter fun x => decide (op.key x = k) else [] := by
        rw [List.filter_filter]
        split_ifs with hi
        · refine List.filter_congr fun x _ => ?_
          by_cases hx : op.key x = k <;> simp [hx, hi]
        · refine List.filter_eq_nil_iff.mpr fun x _ hx => ?_
          simp only [Bool.and_eq_true, decide_eq_true_eq] at hx
          exact hi (hx.1 ▸ hx.2)
      have hold := hinv k hk shard hshard
      by_cases hi : r.shardOf k = i
      · obtain rfl : shard = a := Option.some.inj (hshard.symm.trans (hi ▸ ha))
        rw [if_neg (hi ▸ hfresh)] at hold
        rw [Function.update_self, op.get_foldl, hfilter, if_pos hi, hold, ← op.get_foldl, if_pos (by simp [hi])]
      · have hsame : (Function.update stores₁ a ((items.filter fun x => decide (r.shardOf (op.key x) = i)).foldl
            op.apply (stores₁ a)) shard).get k = (stores₁ shard).get k := by
          by_cases ha : shard = a
          · subst ha
            rw [Function.update_self, op.get_foldl, hfilter, if_neg hi]
            rfl
          · rw [Function.update_of_ne ha]
        rw [hsame, hold]
        simp [hi]
  obtain ⟨stores', hrun, hinv⟩ := hserved
  refine ⟨stores', hrun, fun k hk shard hshard => ?_⟩
  rw [hinv k hk shard hshard]
  split_ifs with hin
  · rfl
  · have hnone : (items.filter fun x => decide (op.key x = k)) = [] :=
      List.filter_eq_nil_iff.mpr fun x hx hkey => hin (of_decide_eq_true hkey ▸ shardOf_mem_order horder hx)
    rw [op.get_foldl, hnone]
    rfl

end RemotePebble

/-- The calls of the backend interface. -/
inductive BackendCall where
  | getMany (keys : List Bytes)
  | setMany (keys values : List Bytes)
  | mergeMany (keys values : List Bytes)
  | deleteMany (keys : List Bytes)

namespace BackendCall

/-- A call to one local store: the store afterwards and what the call returns. -/
def onStore (b : Backend) : BackendCall → Backend × List Bytes
  | getMany keys => (b, b.getMany keys)
  | setMany keys values => (b.setMany (keys.zip values), [])
  | mergeMany keys values => (b.mergeMany (keys.zip values), [])
  | deleteMany keys => (b.deleteMany keys, [])

/-- The results of a sequence of calls to one local store. -/
def onStores (b : Backend) : List BackendCall → List (List Bytes)
  | [] => []
  | c :: calls => (c.onStore b).2 :: onStores (c.onStore b).1 calls

def keys : BackendCall → List Bytes
  | getMany keys | setMany keys _ | mergeMany keys _ | deleteMany keys => keys

/-- There is a value for each key that is written. -/
def Paired : BackendCall → Prop
  | setMany keys values | mergeMany keys values => keys.length = values.length
  | _ => True

variable {Addr : Type} [DecidableEq Addr] (r : RemotePebble Addr)

/-- A call to the remote servers, which are reached in some order. -/
def remote (order : List Nat) (stores : Addr → Backend) : BackendCall → Outcome RemoteAbort ((Addr → Backend) × List Bytes)
  | getMany keys => do return (stores, ← r.getMany keys order stores)
  | setMany keys values => do return (← r.setMany keys values order stores, [])
  | mergeMany keys values => do return (← r.mergeMany keys values order stores, [])
  | deleteMany keys => do return (← r.deleteMany keys order stores, [])

/-- The results of a sequence of calls to the remote servers. -/
def remotes (stores : Addr → Backend) : List (BackendCall × List Nat) → Outcome RemoteAbort (List (List Bytes))
  | [] => .ok []
  | c :: calls => do
    let (stores, result) ← c.1.remote r c.2 stores
    let results ← remotes stores calls
    return result :: results

variable {r}

theorem remote_ok {stores : Addr → Backend} {b : Backend} (h : r.Represents stores b) {c : BackendCall}
    {order : List Nat} (hpaired : c.Paired) (hkeys : ∀ k ∈ c.keys, r.ValidKey k)
    (horder : order.Perm (r.busy c.keys)) :
    ∃ stores', c.remote r order stores = .ok (stores', (c.onStore b).2) ∧ r.Represents stores' (c.onStore b).1 := by
  cases c with
  | getMany keys =>
    have hread : r.getMany keys order stores = .ok (b.getMany keys) :=
      RemotePebble.getMany_ok h hkeys (by rw [List.zipIdx_map_fst]; exact horder)
    refine ⟨stores, ?_, h⟩
    rw [remote, hread]
    rfl
  | setMany keys values =>
    have hlen : keys.length = values.length := hpaired
    obtain ⟨stores', hrun, hnext⟩ := RemotePebble.write_ok h .set (List.map_fst_zip hlen.le) hkeys horder
    refine ⟨stores', ?_, hnext⟩
    rw [remote, RemotePebble.setMany, check_eq_ok (not_not.mpr hlen), ok_bind, hrun]
    rfl
  | mergeMany keys values =>
    have hlen : keys.length = values.length := hpaired
    obtain ⟨stores', hrun, hnext⟩ := RemotePebble.write_ok h .merge (List.map_fst_zip hlen.le) hkeys horder
    refine ⟨stores', ?_, hnext⟩
    rw [remote, RemotePebble.mergeMany, check_eq_ok (not_not.mpr hlen), ok_bind, hrun]
    rfl
  | deleteMany keys =>
    obtain ⟨stores', hrun, hnext⟩ := RemotePebble.write_ok h .delete (List.map_id keys) hkeys horder
    refine ⟨stores', ?_, hnext⟩
    rw [remote, RemotePebble.deleteMany, hrun]
    rfl

/-- **Sharding is transparent.**  Whatever the servers and the order in which they are reached, every call returns what
it returns on one local store. -/
theorem remotePebble_transparent (r : RemotePebble Addr) (calls : List (BackendCall × List Nat))
    (hpaired : ∀ c ∈ calls, c.1.Paired) (hkeys : ∀ c ∈ calls, ∀ k ∈ c.1.keys, r.ValidKey k)
    (horder : ∀ c ∈ calls, c.2.Perm (r.busy c.1.keys)) :
    remotes r (fun _ => ∅) calls = .ok (onStores ∅ (calls.map Prod.fst)) := by
  suffices hall : ∀ stores b, r.Represents stores b → remotes r stores calls = .ok (onStores b (calls.map Prod.fst)) from
    hall _ _ fun k hk shard hshard => rfl
  induction calls with
  | nil => exact fun stores b h => rfl
  | cons c calls ih =>
    intro stores b h
    obtain ⟨stores', hcall, hnext⟩ := remote_ok h (hpaired c (by simp)) (hkeys c (by simp)) (horder c (by simp))
    have hrest := ih (fun c' hc => hpaired c' (by simp [hc])) (fun c' hc => hkeys c' (by simp [hc]))
      (fun c' hc => horder c' (by simp [hc])) stores' _ hnext
    rw [remotes, hcall, ok_bind]
    simp only [hrest, ok_bind]
    rfl

/-- Two servers and three buckets. -/
def twoServers : RemotePebble Bool := ⟨[true, false], 3, nofun, by decide⟩

theorem remotePebble_transparent_setGet :
    remotes twoServers (fun _ => ∅)
      [(.setMany [[0, 1, 0, 0, 0, 0, 0, 0], [0, 1, 0, 0, 0, 1, 0, 0]] [[7], [8]], [1, 0]),
        (.getMany [[0, 1, 0, 0, 0, 1, 0, 0], [0, 1, 0, 0, 0, 0, 0, 0]], [0, 1])]
      = .ok [[], [[8], [7]]] := by
  refine (remotePebble_transparent twoServers _ ?_ ?_ ?_).trans (by decide +kernel)
  · simp [Paired]
  · simp [keys, RemotePebble.ValidKey, twoServers, getUint32]
  · simp only [List.forall_mem_cons, keys]
    decide +kernel

end BackendCall

end State
end Koala
