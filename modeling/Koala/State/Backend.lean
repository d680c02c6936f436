import Koala.Lib.GoMap
import Koala.State.StateKey
import Mathlib.Data.List.Sort

/-!
# The embedded state backend

`state/stateBackend`: a key-value map over byte strings.  Merging appends to the stored value, as the list
states expect.  `RangeQuery` is that of the Pebble backend, an iteration over `[lower, upper)` in key order; the
in-memory backend kills the process there, so a migration never gets past it.
-/

namespace Koala
namespace State

open Lib

/-- The content of a state backend. -/
abbrev Backend := GoMap Bytes Bytes

namespace Backend

variable (b : Backend) (pairs : List (Bytes × Bytes))

/-- `SetMany`. -/
def setMany : Backend :=
  pairs.foldl (fun b p => b.set p.1 p.2) b

/-- `MergeMany`. -/
def mergeMany : Backend :=
  pairs.foldl (fun b p => b.set p.1 ((b.get p.1).getD [] ++ p.2)) b

/-- `DeleteMany`. -/
def deleteMany (keys : List Bytes) : Backend :=
  keys.foldl (fun b k => b.delete k) b

/-- `GetMany`: the values in the order of the keys; an absent key gives nil, which is no different from an empty
value to its callers. -/
def getMany (keys : List Bytes) : List Bytes := keys.map fun k => (b.get k).getD []

/-- `RangeQuery`: the pairs with `lower ≤ key < upper`, in key order. -/
def rangeQuery (lower upper : Bytes) : List (Bytes × Bytes) :=
  ((b.entries.map fun e => (e.1, e.2)).filter
    fun p => decide (lower ≤ p.1 ∧ p.1 < upper)).insertionSort fun p q => p.1 ≤ q.1

theorem mem_rangeQuery (lower upper k v : Bytes) :
    (k, v) ∈ b.rangeQuery lower upper ↔ b.get k = some v ∧ lower ≤ k ∧ k < upper := by
  rw [rangeQuery, List.mem_insertionSort, List.mem_filter]
  have hentry : (k, v) ∈ (b.entries.map fun e => (e.1, e.2)) ↔ b.get k = some v := by
    rw [← GoMap.mem_entries_iff, List.mem_map]
    constructor
    · rintro ⟨⟨k', v'⟩, hmem, heq⟩
      obtain ⟨rfl, rfl⟩ := Prod.mk.inj heq
      exact hmem
    · exact fun hmem => ⟨⟨k, v⟩, hmem, rfl⟩
  rw [hentry, decide_eq_true_eq]

theorem rangeQuery_keys_nodup (lower upper : Bytes) :
    ((b.rangeQuery lower upper).map Prod.fst).Nodup := by
  have hkeys : ((b.entries.map fun e => (e.1, e.2)).map Prod.fst).Nodup := by
    rw [List.map_map]
    exact AList.keys_nodup b
  have hperm := List.perm_insertionSort (fun p q : Bytes × Bytes => p.1 ≤ q.1)
    ((b.entries.map fun e => (e.1, e.2)).filter fun p => decide (lower ≤ p.1 ∧ p.1 < upper))
  exact (hperm.map Prod.fst).nodup_iff.mpr (hkeys.sublist (List.filter_sublist.map _))

theorem rangeQuery_sorted (lower upper : Bytes) :
    (b.rangeQuery lower upper).Pairwise fun p q => p.1 ≤ q.1 := by
  have htotal : Std.Total fun p q : Bytes × Bytes => p.1 ≤ q.1 := ⟨fun p q => List.le_total p.1 q.1⟩
  have htrans : IsTrans (Bytes × Bytes) fun p q => p.1 ≤ q.1 := ⟨fun p q r => List.le_trans⟩
  exact List.pairwise_insertionSort _ _

/-- A range query depends only on what is stored under the keys of the range. -/
theorem rangeQuery_congr {b b' : Backend} {lower upper : Bytes}
    (h : ∀ k, lower ≤ k → k < upper → b.get k = b'.get k) :
    b.rangeQuery lower upper = b'.rangeQuery lower upper := by
  have hmem : ∀ p, p ∈ b.rangeQuery lower upper ↔ p ∈ b'.rangeQuery lower upper := by
    rintro ⟨k, v⟩
    rw [mem_rangeQuery, mem_rangeQuery]
    constructor
    · rintro ⟨hget, hlow, hup⟩
      exact ⟨h k hlow hup ▸ hget, hlow, hup⟩
    · rintro ⟨hget, hlow, hup⟩
      exact ⟨(h k hlow hup).symm ▸ hget, hlow, hup⟩
  have hperm : (b.rangeQuery lower upper).Perm (b'.rangeQuery lower upper) :=
    (List.perm_ext_iff_of_nodup (rangeQuery_keys_nodup b lower upper).of_map
      (rangeQuery_keys_nodup b' lower upper).of_map).mpr hmem
  refine hperm.eq_of_pairwise ?_ (rangeQuery_sorted b lower upper) (rangeQuery_sorted b' lower upper)
  rintro ⟨k, v⟩ ⟨k', v'⟩ hp hp' hle hge
  obtain rfl : k = k' := List.le_antisymm hle hge
  rw [hmem, mem_rangeQuery] at hp
  rw [mem_rangeQuery] at hp'
  rw [hp.1] at hp'
  rw [Option.some.inj hp'.1]

end Backend

/-! ## Writes, key by key -/

/-- A store operation that changes one key, by what was stored there. -/
structure KeyedOp (α : Type) where
  key : α → Bytes
  apply : Backend → α → Backend
  change : α → Option Bytes → Option Bytes
  get_apply : ∀ b x k, (apply b x).get k = if k = key x then change x (b.get k) else b.get k

namespace KeyedOp

variable {α : Type} (op : KeyedOp α)

/-- What a list of operations leaves at a key is decided by the operations on it. -/
theorem get_foldl (items : List α) (b : Backend) (k : Bytes) : (items.foldl op.apply b).get k
      = (items.filter fun x => decide (op.key x = k)).foldl (fun v x => op.change x v) (b.get k) := by
  induction items generalizing b with
  | nil => rfl
  | cons x items ih =>
    rw [List.foldl_cons, ih, op.get_apply]
    by_cases hx : op.key x = k
    · simp [hx]
    · simp [hx, Ne.symm hx]

/-- Operations on distinct keys: each takes effect on what was stored, the other keys are unchanged. -/
theorem get_foldl_of_nodup {items : List α} (hnodup : (items.map op.key).Nodup) (b : Backend) (k : Bytes) :
    (∃ x ∈ items, op.key x = k ∧ (items.foldl op.apply b).get k = op.change x (b.get k)) ∨
      (k ∉ items.map op.key ∧ (items.foldl op.apply b).get k = b.get k) := by
  induction items generalizing b with
  | nil => exact Or.inr ⟨by simp, rfl⟩
  | cons x items ih =>
    obtain ⟨hfresh, hnodup⟩ := List.nodup_cons.mp hnodup
    rw [List.foldl_cons]
    by_cases hx : k = op.key x
    · rcases ih hnodup (op.apply b x) with ⟨y, hy, hkey, -⟩ | ⟨-, hget⟩
      · exact absurd (List.mem_map.mpr ⟨y, hy, hkey.trans hx⟩) hfresh
      · exact Or.inl ⟨x, by simp, hx.symm, by rw [hget, op.get_apply, if_pos hx]⟩
    · have hb : (op.apply b x).get k = b.get k := by rw [op.get_apply, if_neg hx]
      rcases ih hnodup (op.apply b x) with ⟨y, hy, hkey, hget⟩ | ⟨hnot, hget⟩
      · exact Or.inl ⟨y, List.mem_cons_of_mem _ hy, hkey, by rw [hget, hb]⟩
      · exact Or.inr ⟨by simp [hx, hnot], by rw [hget, hb]⟩

def set : KeyedOp (Bytes × Bytes) where
  key := Prod.fst
  apply b p := b.set p.1 p.2
  change p _ := some p.2
  get_apply _ _ _ := GoMap.get_set ..

def merge : KeyedOp (Bytes × Bytes) where
  key := Prod.fst
  apply b p := b.set p.1 ((b.get p.1).getD [] ++ p.2)
  change p old := some (old.getD [] ++ p.2)
  get_apply b p k := by
    rw [GoMap.get_set]
    split_ifs with hk
    · rw [hk]
    · rfl

def delete : KeyedOp Bytes where
  key := id
  apply b k := b.delete k
  change _ _ := none
  get_apply _ _ _ := GoMap.get_delete ..

end KeyedOp

namespace Backend

variable (b : Backend) (pairs : List (Bytes × Bytes))

/-- Writing pairs with distinct keys: the written keys read back, the others are unchanged. -/
theorem get_setMany (hnodup : (pairs.map Prod.fst).Nodup) (k : Bytes) :
    (∃ v, (k, v) ∈ pairs ∧ (b.setMany pairs).get k = some v) ∨
      (k ∉ pairs.map Prod.fst ∧ (b.setMany pairs).get k = b.get k) := by
  rcases KeyedOp.set.get_foldl_of_nodup hnodup b k with ⟨p, hp, rfl, hget⟩ | hsame
  · exact Or.inl ⟨p.2, hp, hget⟩
  · exact Or.inr hsame

/-- Merging pairs with distinct keys: each value goes behind what is stored, the others are unchanged. -/
theorem get_mergeMany (hnodup : (pairs.map Prod.fst).Nodup) (k : Bytes) :
    (∃ v, (k, v) ∈ pairs ∧ (b.mergeMany pairs).get k = some ((b.get k).getD [] ++ v)) ∨
      (k ∉ pairs.map Prod.fst ∧ (b.mergeMany pairs).get k = b.get k) := by
  rcases KeyedOp.merge.get_foldl_of_nodup hnodup b k with ⟨p, hp, rfl, hget⟩ | hsame
  · exact Or.inl ⟨p.2, hp, hget⟩
  · exact Or.inr hsame

theorem get_deleteMany (ks : List Bytes) (k : Bytes) :
    (b.deleteMany ks).get k = if k ∈ ks then none else b.get k := by
  induction ks generalizing b with
  | nil => simp [deleteMany]
  | cons k' ks ih =>
    have hstep : b.deleteMany (k' :: ks) = deleteMany (b.delete k') ks := rfl
    rw [hstep, ih, GoMap.get_delete]
    by_cases hk : k = k'
    · simp [hk]
    · simp [hk]

/-- What `SetMany` does to one key, whether or not the keys are distinct. -/
theorem get_setMany_eq_foldl (k : Bytes) : (b.setMany pairs).get k
      = (pairs.filter fun p => decide (p.1 = k)).foldl (fun _ p => some p.2) (b.get k) :=
  KeyedOp.set.get_foldl pairs b k

/-- What `MergeMany` does to one key, whether or not the keys are distinct. -/
theorem get_mergeMany_eq_foldl (k : Bytes) : (b.mergeMany pairs).get k
      = (pairs.filter fun p => decide (p.1 = k)).foldl (fun v p => some (v.getD [] ++ p.2)) (b.get k) :=
  KeyedOp.merge.get_foldl pairs b k

theorem setMany_append (xs ys : List (Bytes × Bytes)) :
    b.setMany (xs ++ ys) = (b.setMany xs).setMany ys :=
  List.foldl_append

end Backend

end State
end Koala
