import Koala.Lib.Outcome
import Koala.Partition.OwnerChanges
import Mathlib.Logic.Function.Basic

/-!
# The per-key location table

Every worker of a stateful operator keeps one `KeyLookupTableV2`.  A bucket the worker owns has a key map: for
each key with state, the worker whose backend holds the value.  A key without an entry is a new key and
belongs to the owner of the bucket.  The map of a bucket owned elsewhere is nil.

When a worker hands buckets over, `serializeMigratingKeyMaps` takes their maps out of the table, one message
per new owner, and `deserializeMigratingKeyMaps` installs a message at the receiver.  The two specification
theorems at the end say which buckets travel and what each table looks like afterwards.
-/

namespace Koala
namespace Keyby

open Lib Lib.Outcome
open Partition (WorkerID BucketID)

/-- Where the value of each key of one bucket is stored. -/
abbrev KeyMap (K : Type) : Type := GoMap K WorkerID

/-- One bucket of the table; `map = none` is Go's nil map. -/
structure BucketV2 (K : Type) where
  workerID : WorkerID
  map : Option (KeyMap K)

/-- The bucket slice of `KeyLookupTableV2`.  Only the first `NumBuckets` positions are used. -/
abbrev KeyLookupTableV2 (K : Type) : Type := BucketID → BucketV2 K

/-- A partition table (`PartitionTable.Buckets`): the owner of each bucket. -/
abbrev PartitionTable : Type := BucketID → WorkerID

/-- The aborts of the table's methods. -/
inductive TableAbort where
  | nilOnRequest (b : BucketID)
  | nilOnUpdate (b : BucketID)
  | notFoundOnUpdate (b : BucketID)
  | nilOnInsert (b : BucketID)
  | nilOnRemove (b : BucketID)
  | notFoundOnRemove (b : BucketID)
  | nonEmptyOnReceive (b : BucketID)
  | nilOnSerialize (b : BucketID)
  deriving DecidableEq, Repr

/-- The message each abort logs. -/
def TableAbort.message : TableAbort → String
  | nilOnRequest b => s!"Key map nil for requesting key with bucket {b}\n"
  | nilOnUpdate b => s!"Key map nil for updating key with bucket {b}\n"
  | notFoundOnUpdate b => s!"Key not found in key map for updating key with bucket {b}\n"
  | nilOnInsert b => s!"Key map nil for inserting/updating key with bucket {b}\n"
  | nilOnRemove b => s!"Key map nil for removing key with bucket {b}\n"
  | notFoundOnRemove b => s!"Key not found in key map for removing key with bucket {b}\n"
  | nonEmptyOnReceive b =>
    s!"Bucket {b} already has a non-empty key map when receiving migrating keys\n"
  | nilOnSerialize b => s!"Bucket {b} key map should not be nil\n"

/-- The bucket maps travelling to one worker. -/
abbrev MigratingKeyMap (K : Type) : Type := List (BucketID × KeyMap K)

namespace KeyLookupTableV2

variable {K : Type}

/-- `DeserializeKeyLookupTableV2`: the table of a freshly deployed task. -/
def deserialize (owners : PartitionTable) (localWorker : WorkerID) : KeyLookupTableV2 K := fun b =>
  ⟨owners b, if owners b = localWorker then some ∅ else none⟩

variable (table : KeyLookupTableV2 K)

/-- Replace the key map of one bucket. -/
def withMap (b : BucketID) (m : KeyMap K) : KeyLookupTableV2 K :=
  Function.update table b ⟨(table b).workerID, some m⟩

@[simp] theorem withMap_self (b : BucketID) (m : KeyMap K) :
    table.withMap b m b = ⟨(table b).workerID, some m⟩ := by
  simp [withMap]

@[simp] theorem withMap_ne {b b' : BucketID} (m : KeyMap K) (h : b' ≠ b) :
    table.withMap b m b' = table b' := by
  simp [withMap, h]

section KeyOperations

variable [DecidableEq K] (k : K) (b : BucketID)

/-- `GetWorkerID`. -/
def getWorkerID : Outcome TableAbort WorkerID :=
  match (table b).map with
  | none => .abort (.nilOnRequest b)
  | some m => .ok ((m.get k).getD (table b).workerID)

/-- `UpdateKey`. -/
def updateKey (w : WorkerID) : Outcome TableAbort (KeyLookupTableV2 K) :=
  match (table b).map with
  | none => .abort (.nilOnUpdate b)
  | some m => if (m.get k).isNone then .abort (.notFoundOnUpdate b) else .ok (table.withMap b (m.set k w))

/-- `InsertOrUpdateKey`. -/
def insertOrUpdateKey (w : WorkerID) : Outcome TableAbort (KeyLookupTableV2 K) :=
  match (table b).map with
  | none => .abort (.nilOnInsert b)
  | some m => .ok (table.withMap b (m.set k w))

/-- `RemoveKey`. -/
def removeKey : Outcome TableAbort (KeyLookupTableV2 K) :=
  match (table b).map with
  | none => .abort (.nilOnRemove b)
  | some m => if (m.get k).isNone then .abort (.notFoundOnRemove b) else .ok (table.withMap b (m.delete k))

variable {table : KeyLookupTableV2 K} {k : K} {b : BucketID} {w : WorkerID}

theorem getWorkerID_eq_ok :
    table.getWorkerID k b = .ok w ↔ ∃ m, (table b).map = some m ∧ (m.get k).getD (table b).workerID = w := by
  unfold getWorkerID
  cases (table b).map <;> simp

variable {table' : KeyLookupTableV2 K}

theorem updateKey_eq_ok :
    table.updateKey k b w = .ok table' ↔
      ∃ m, (table b).map = some m ∧ (m.get k).isSome ∧ table.withMap b (m.set k w) = table' := by
  unfold updateKey
  cases (table b).map with
  | none => simp
  | some m => cases hget : m.get k <;> simp [hget]

theorem insertOrUpdateKey_eq_ok :
    table.insertOrUpdateKey k b w = .ok table' ↔
      ∃ m, (table b).map = some m ∧ table.withMap b (m.set k w) = table' := by
  unfold insertOrUpdateKey
  cases (table b).map <;> simp

theorem removeKey_eq_ok :
    table.removeKey k b = .ok table' ↔
      ∃ m, (table b).map = some m ∧ (m.get k).isSome ∧ table.withMap b (m.delete k) = table' := by
  unfold removeKey
  cases (table b).map with
  | none => simp
  | some m => cases hget : m.get k <;> simp [hget]

end KeyOperations

/-- The messages of one handover, by destination. -/
abbrev Outgoing (K : Type) : Type := GoMap WorkerID (MigratingKeyMap K)

/-- The maps bound for `dst`. -/
def Outgoing.to (out : Outgoing K) (dst : WorkerID) : MigratingKeyMap K := (out.get dst).getD []

/-- The table gives bucket `b` away: it is local and the routing table has another owner for it. -/
def Leaves (table : KeyLookupTableV2 K) (localWorker : WorkerID) (routing : PartitionTable) (b : BucketID) :
    Prop :=
  (table b).workerID = localWorker ∧ routing b ≠ localWorker

instance (table : KeyLookupTableV2 K) (localWorker : WorkerID) (routing : PartitionTable) (b : BucketID) :
    Decidable (table.Leaves localWorker routing b) :=
  inferInstanceAs (Decidable (_ ∧ _))

variable (localWorker : WorkerID) (routing : PartitionTable)

/-- One iteration of `SerializeMigratingKeyMaps`: a local bucket that is reassigned leaves the table. -/
def serializeBucket (st : KeyLookupTableV2 K × Outgoing K)
    (b : BucketID) : Outcome TableAbort (KeyLookupTableV2 K × Outgoing K) :=
  if st.1.Leaves localWorker routing b then
    match (st.1 b).map with
    | none => .abort (.nilOnSerialize b)
    | some m =>
      .ok (Function.update st.1 b ⟨routing b, none⟩, st.2.set (routing b) (Outgoing.to st.2 (routing b) ++ [(b, m)]))
  else .ok st

/-- `SerializeMigratingKeyMaps`. -/
def serializeMigratingKeyMaps (numBuckets : Nat) (localWorker : WorkerID) (routing : PartitionTable)
    (table : KeyLookupTableV2 K) : Outcome TableAbort (KeyLookupTableV2 K × Outgoing K) :=
  forEach (List.range numBuckets) (serializeBucket localWorker routing) (table, ∅)

/-- `DeserializeMigratingKeyMaps`.  The goroutines write different buckets, so their order does not matter. -/
def deserializeMigratingKeyMaps (entries : MigratingKeyMap K)
    (table : KeyLookupTableV2 K) : Outcome TableAbort (KeyLookupTableV2 K) :=
  forEach entries (fun t e =>
    match (t e.1).map with
    | some (m : KeyMap K) =>
      if m.entries.length ≠ 0 then .abort (.nonEmptyOnReceive e.1)
      else .ok (Function.update t e.1 ⟨localWorker, some e.2⟩)
    | none => .ok (Function.update t e.1 ⟨localWorker, some e.2⟩)) table

/-- What a handover over the buckets `bs` does: the maps of the leaving buckets, and only those, are in the
messages to their new owners, and the table has given them up. -/
structure Serialized (bs : List BucketID) (localWorker : WorkerID) (routing : PartitionTable)
    (table table' : KeyLookupTableV2 K) (out : Outgoing K) : Prop where
  table_eq : ∀ b, table' b = if b ∈ bs ∧ table.Leaves localWorker routing b then ⟨routing b, none⟩ else table b
  mem_to : ∀ dst b m, (b, m) ∈ out.to dst ↔
    b ∈ bs ∧ table.Leaves localWorker routing b ∧ routing b = dst ∧ (table b).map = some m
  nodup : ∀ dst, ((out.to dst).map Prod.fst).Nodup
  nonempty : ∀ dst, out.get dst ≠ some []
  map_isSome : ∀ b ∈ bs, table.Leaves localWorker routing b → (table b).map.isSome

theorem Outgoing.to_set (out : Outgoing K) (dst dst' : WorkerID) (entries : MigratingKeyMap K) :
    Outgoing.to (out.set dst entries) dst' = if dst' = dst then entries else out.to dst' := by
  unfold Outgoing.to
  rw [GoMap.get_set]
  split_ifs <;> rfl

theorem Serialized.nil (table : KeyLookupTableV2 K) :
    Serialized [] localWorker routing table table ∅ := by
  refine ⟨fun b => by simp, fun dst b m => ?_, fun dst => ?_, fun dst => ?_, by simp⟩ <;> simp [Outgoing.to]

variable {localWorker : WorkerID} {routing : PartitionTable} {table : KeyLookupTableV2 K}

theorem Serialized.step {bs : List BucketID} {st st' : KeyLookupTableV2 K × Outgoing K} {b : BucketID}
    (hfresh : b ∉ bs) (h : Serialized bs localWorker routing table st.1 st.2)
    (hstep : serializeBucket localWorker routing st b = .ok st') :
    Serialized (bs ++ [b]) localWorker routing table st'.1 st'.2 := by
  have hsame : st.1 b = table b := by
    rw [h.table_eq b, if_neg (fun hb => hfresh hb.1)]
  have hleave_iff : st.1.Leaves localWorker routing b ↔ table.Leaves localWorker routing b := by
    unfold Leaves
    rw [hsame]
  unfold serializeBucket at hstep
  simp only [hleave_iff, hsame] at hstep
  by_cases hleave : table.Leaves localWorker routing b
  · rw [if_pos hleave] at hstep
    cases hmap : (table b).map with
    | none => simp [hmap] at hstep
    | some m =>
      rw [hmap] at hstep
      cases hstep
      refine ⟨fun b' => ?_, fun dst b' m' => ?_, fun dst => ?_, fun dst => ?_, fun b' hb' hleave' => ?_⟩
      · by_cases hb : b' = b
        · subst hb
          simp [hleave]
        · simp [hb, h.table_eq b']
      · rw [Outgoing.to_set]
        by_cases hdst : dst = routing b
        · subst hdst
          rw [if_pos rfl, List.mem_append, h.mem_to, List.mem_singleton, List.mem_append,
            List.mem_singleton, Prod.mk.injEq]
          constructor
          · rintro (⟨hmem, hrest⟩ | ⟨rfl, rfl⟩)
            · exact ⟨.inl hmem, hrest⟩
            · exact ⟨.inr rfl, hleave, rfl, hmap⟩
          · rintro ⟨hmem | rfl, hrest⟩
            · exact .inl ⟨hmem, hrest⟩
            · exact .inr ⟨rfl, Option.some.inj (hrest.2.2.symm.trans hmap)⟩
        · rw [if_neg hdst, h.mem_to, List.mem_append, List.mem_singleton]
          constructor
          · rintro ⟨hmem, hrest⟩
            exact ⟨.inl hmem, hrest⟩
          · rintro ⟨hmem | rfl, hrest⟩
            · exact ⟨hmem, hrest⟩
            · exact absurd hrest.2.1.symm hdst
      · rw [Outgoing.to_set]
        split_ifs with hdst
        · rw [List.map_append, List.nodup_append]
          refine ⟨h.nodup _, by simp, ?_⟩
          rintro x hx y hy rfl
          obtain ⟨⟨b', m'⟩, hmem, rfl⟩ := List.mem_map.mp hx
          have hb : b' = b := by simpa using hy
          exact hfresh (hb ▸ ((h.mem_to _ _ _).mp hmem).1)
        · exact h.nodup dst
      · rw [GoMap.get_set]
        split_ifs
        · simp
        · exact h.nonempty dst
      · rcases List.mem_append.mp hb' with hold | hnew
        · exact h.map_isSome b' hold hleave'
        · rw [List.mem_singleton.mp hnew, hmap]
          rfl
  · rw [if_neg hleave] at hstep
    cases hstep
    have hmem : ∀ b', (b' ∈ bs ++ [b] ∧ table.Leaves localWorker routing b')
        ↔ (b' ∈ bs ∧ table.Leaves localWorker routing b') := by
      intro b'
      rw [List.mem_append, List.mem_singleton]
      constructor
      · rintro ⟨hb | rfl, hl⟩
        · exact ⟨hb, hl⟩
        · exact absurd hl hleave
      · exact fun hb => ⟨.inl hb.1, hb.2⟩
    refine ⟨fun b' => ?_, fun dst b' m' => ?_, h.nodup, h.nonempty, fun b' hb' hl => ?_⟩
    · simp only [hmem b', h.table_eq b']
    · rw [h.mem_to, ← and_assoc, ← hmem b', and_assoc]
    · exact h.map_isSome b' ((hmem b').mp ⟨hb', hl⟩).1 hl

variable {numBuckets : Nat}

variable {table' : KeyLookupTableV2 K}

/-- **A handover that returns** moves exactly the reassigned local buckets. -/
theorem serializeMigratingKeyMaps_spec {out : Outgoing K}
    (h : serializeMigratingKeyMaps numBuckets localWorker routing table = .ok (table', out)) :
    Serialized (List.range numBuckets) localWorker routing table table' out := by
  refine forEach_partial (fun bs st => Serialized bs localWorker routing table st.1 st.2)
    (Serialized.nil localWorker routing table) ?_ h
  intro done b rest st st' hsplit hinv hstep
  exact hinv.step (notMem_done List.nodup_range hsplit) hstep

/-- What installing a message does to the table: the buckets of the message become local with the received
maps, the others stay. -/
def Installed (localWorker : WorkerID) (entries : MigratingKeyMap K) (table table' : KeyLookupTableV2 K) :
    Prop :=
  (∀ b m, (b, m) ∈ entries → table' b = ⟨localWorker, some m⟩) ∧
    ∀ b, b ∉ entries.map Prod.fst → table' b = table b

variable {entries : MigratingKeyMap K}

private theorem Installed.step {e : BucketID × KeyMap K} (hfresh : e.1 ∉ entries.map Prod.fst)
    (h : Installed localWorker entries table table') :
    Installed localWorker (entries ++ [e]) table (Function.update table' e.1 ⟨localWorker, some e.2⟩) := by
  refine ⟨fun b m hmem => ?_, fun b hb => ?_⟩
  · rcases List.mem_append.mp hmem with hold | hnew
    · have hne : b ≠ e.1 := fun heq => hfresh (heq ▸ List.mem_map_of_mem hold)
      rw [Function.update_of_ne hne, h.1 b m hold]
    · obtain rfl : (b, m) = e := List.mem_singleton.mp hnew
      simp
  · rw [List.map_append, List.mem_append, not_or] at hb
    have hne : b ≠ e.1 := fun heq => hb.2 (by simp [heq])
    rw [Function.update_of_ne hne, h.2 b hb.1]

theorem deserializeMigratingKeyMaps_spec (hnodup : (entries.map Prod.fst).Nodup)
    (h : deserializeMigratingKeyMaps localWorker entries table = .ok table') :
    Installed localWorker entries table table' := by
  refine forEach_partial (fun done t => Installed localWorker done table t) ⟨by simp, by simp⟩ ?_ h
  intro done e rest t t' hsplit hinv hstep
  have hfresh := notMem_map_done hnodup hsplit
  have hupdate : t' = Function.update t e.1 ⟨localWorker, some e.2⟩ := by
    cases hmap : (t e.1).map with
    | none =>
      rw [hmap] at hstep
      exact (Outcome.ok.inj hstep).symm
    | some m =>
      rw [hmap] at hstep
      dsimp only at hstep
      split_ifs at hstep
      exact (Outcome.ok.inj hstep).symm
  rw [hupdate]
  exact hinv.step hfresh

/-- A message is accepted when every bucket it brings is nil or empty at the receiver. -/
theorem deserializeMigratingKeyMaps_total (hnodup : (entries.map Prod.fst).Nodup)
    (hfree : ∀ b ∈ entries.map Prod.fst, ∀ m, (table b).map = some m → m.entries = []) :
    ∃ table', deserializeMigratingKeyMaps localWorker entries table = .ok table' := by
  suffices hloop : ∃ table', deserializeMigratingKeyMaps localWorker entries table = .ok table' ∧
      Installed localWorker entries table table' from hloop.imp fun _ h => h.1
  refine forEach_total (fun done t => Installed localWorker done table t) ⟨by simp, by simp⟩ ?_
  intro done e rest t hsplit hinv
  have hfresh := notMem_map_done hnodup hsplit
  refine ⟨_, ?_, hinv.step hfresh⟩
  have hsame : t e.1 = table e.1 := hinv.2 e.1 hfresh
  have hmem : e.1 ∈ entries.map Prod.fst := by simp [hsplit]
  rw [hsame]
  cases hmap : (table e.1).map with
  | none => rfl
  | some m => simp [hfree e.1 hmem m hmap]

theorem serializeMigratingKeyMaps_eq_abort {e : TableAbort}
    (h : serializeMigratingKeyMaps numBuckets localWorker routing table = .abort e) :
    ∃ b, e = .nilOnSerialize b := by
  obtain ⟨st, b, -, hbody⟩ := forEach_eq_abort h
  unfold serializeBucket at hbody
  split_ifs at hbody
  cases hmap : (st.1 b).map with
  | none =>
    rw [hmap] at hbody
    exact ⟨b, (Outcome.abort.inj hbody).symm⟩
  | some m => simp [hmap] at hbody

theorem deserializeMigratingKeyMaps_eq_abort {e : TableAbort}
    (h : deserializeMigratingKeyMaps localWorker entries table = .abort e) : ∃ b, e = .nonEmptyOnReceive b := by
  obtain ⟨t, x, -, hbody⟩ := forEach_eq_abort h
  cases hmap : (t x.1).map with
  | none => simp [hmap] at hbody
  | some m =>
    rw [hmap] at hbody
    dsimp only at hbody
    split_ifs at hbody
    exact ⟨x.1, (Outcome.abort.inj hbody).symm⟩

end KeyLookupTableV2

end Keyby
end Koala
