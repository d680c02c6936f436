import Mathlib.Data.List.AList
import Mathlib.Data.List.Induction

/-!
# Go maps

A Go `map[K]V` is a finite association without duplicate keys, which is Mathlib's `AList` at a constant
value type.  The operations below give it Go's reading: a lookup reports whether the key is present, a store
overwrites, a delete of an absent key does nothing.
-/

namespace Koala
namespace Lib

/-- A Go `map[K]V`. -/
abbrev GoMap (K V : Type) : Type := AList (fun _ : K => V)

namespace GoMap

variable {K V : Type} [DecidableEq K] (m : GoMap K V) (k : K)

/-- `v, ok := m[k]`. -/
def get : Option V := AList.lookup k m

/-- `m[k] = v`. -/
def set (v : V) : GoMap K V := AList.insert k v m

/-- `delete(m, k)`. -/
def delete : GoMap K V := AList.erase k m

@[simp] theorem get_empty : get (∅ : GoMap K V) k = none := rfl

@[simp] theorem get_set_self (v : V) : (m.set k v).get k = some v :=
  AList.lookup_insert m

@[simp] theorem get_set_ne {k k' : K} (v : V) (h : k' ≠ k) : (m.set k v).get k' = m.get k' :=
  AList.lookup_insert_ne h

theorem get_set (k k' : K) (v : V) : (m.set k v).get k' = if k' = k then some v else m.get k' := by
  by_cases h : k' = k
  · subst h; simp
  · simp [h]

@[simp] theorem get_delete_self : (m.delete k).get k = none :=
  AList.lookup_erase k m

@[simp] theorem get_delete_ne {k k' : K} (h : k' ≠ k) : (m.delete k).get k' = m.get k' :=
  AList.lookup_erase_ne h

theorem get_delete (k k' : K) : (m.delete k).get k' = if k' = k then none else m.get k' := by
  by_cases h : k' = k
  · subst h; simp
  · simp [h]

/-- Apply a function to every value, as a `range` loop that rewrites the values in place does. -/
def mapValues {W : Type} (f : V → W) (m : GoMap K V) : GoMap K W where
  entries := m.entries.map fun e => ⟨e.1, f e.2⟩
  nodupKeys := by
    have hkeys : (m.entries.map fun e => (⟨e.1, f e.2⟩ : Sigma fun _ : K => W)).keys = m.entries.keys := by
      simp [List.keys, Function.comp_def]
    rw [List.NodupKeys, hkeys]
    exact m.nodupKeys

@[simp] theorem get_mapValues {W : Type} (f : V → W) (m : GoMap K V) (k : K) :
    (m.mapValues f).get k = (m.get k).map f := by
  change List.dlookup k (m.entries.map fun e => (⟨e.1, f e.2⟩ : Sigma fun _ : K => W))
    = (List.dlookup k m.entries).map f
  induction m.entries with
  | nil => rfl
  | cons e rest ih =>
    obtain ⟨a, v⟩ := e
    by_cases h : k = a
    · subst h
      rw [List.map_cons, List.dlookup_cons_eq, List.dlookup_cons_eq, Option.map_some]
    · have hleft := List.dlookup_cons_ne (β := fun _ : K => W)
        (rest.map fun e => ⟨e.1, f e.2⟩) ⟨a, f v⟩ h
      have hright := List.dlookup_cons_ne rest ⟨a, v⟩ h
      rw [List.map_cons, hleft, hright, ih]

/-- The keys Go's `range` visits are those with an entry. -/
theorem mem_keys_iff : k ∈ m.keys ↔ (m.get k).isSome := by
  rw [← AList.mem_keys]
  exact AList.lookup_isSome.symm

theorem length_keys_delete_lt {m : GoMap K V} {k : K} (h : m.get k ≠ none) :
    (AList.keys (m.delete k)).length < (AList.keys m).length := by
  have hin : k ∈ AList.keys m := (mem_keys_iff m k).mpr (Option.isSome_iff_ne_none.mpr h)
  unfold delete
  rw [AList.keys_erase, List.length_erase_of_mem hin]
  have hpos := List.length_pos_of_mem hin
  omega

theorem mem_entries_iff (v : V) : (⟨k, v⟩ : Sigma fun _ : K => V) ∈ m.entries ↔ m.get k = some v :=
  (AList.mem_lookup_iff (a := k) (b := v) (s := m)).symm

theorem get_foldl_set_of_notMem {ι : Type} (key : ι → K) (val : ι → V) (l : List ι) (m : GoMap K V) (k : K)
    (hk : k ∉ l.map key) : (l.foldl (fun m x => m.set (key x) (val x)) m).get k = m.get k := by
  induction l generalizing m with
  | nil => rfl
  | cons x l ih =>
    rw [List.map_cons, List.mem_cons, not_or] at hk
    rw [List.foldl_cons, ih _ hk.2, get_set_ne _ _ hk.1]

theorem mem_of_get_foldl_set {ι : Type} {key : ι → K} {val : ι → V} {l : List ι} {m : GoMap K V} {k : K} {v : V}
    (h : (l.foldl (fun m x => m.set (key x) (val x)) m).get k = some v) :
    m.get k = some v ∨ ∃ x ∈ l, key x = k ∧ val x = v := by
  induction l generalizing m with
  | nil => exact .inl h
  | cons x l ih =>
    rcases ih h with hset | ⟨y, hy, hyk⟩
    · rw [get_set] at hset
      split_ifs at hset with hk
      · exact .inr ⟨x, List.mem_cons_self, hk.symm, Option.some.inj hset⟩
      · exact .inl hset
    · exact .inr ⟨y, List.mem_cons_of_mem _ hy, hyk⟩

/-- Appending to the entries of a map, item by item: each list holds its items in order. -/
theorem getD_foldl_append {ι X : Type} (key : ι → K) (val : ι → X) (l : List ι) (k : K) :
    ((l.foldl (fun (m : GoMap K (List X)) x => m.set (key x) ((m.get (key x)).getD [] ++ [val x])) ∅).get k).getD []
      = (l.filter fun x => decide (key x = k)).map val := by
  induction l using List.reverseRecOn with
  | nil => rfl
  | append_singleton l y ih =>
    rw [List.foldl_append, List.foldl_cons, List.foldl_nil, List.filter_append, List.map_append, get_set]
    by_cases hy : key y = k
    · subst hy
      rw [if_pos rfl, Option.getD_some, ih]
      simp
    · rw [if_neg (Ne.symm hy), ih]
      simp [hy]

/-- Storing a list of entries with distinct keys makes each of them readable. -/
theorem get_foldl_set {ι : Type} (key : ι → K) (val : ι → V) (l : List ι) (hnodup : (l.map key).Nodup)
    (m : GoMap K V) (x : ι) (hx : x ∈ l) :
    (l.foldl (fun m x => m.set (key x) (val x)) m).get (key x) = some (val x) := by
  induction l using List.reverseRecOn with
  | nil => simp at hx
  | append_singleton l y ih =>
    rw [List.foldl_append, List.foldl_cons, List.foldl_nil]
    rw [List.map_append, List.nodup_append] at hnodup
    obtain ⟨hnodupL, -, hdisj⟩ := hnodup
    rcases List.mem_append.mp hx with hxl | hxy
    · have hne : key x ≠ key y := hdisj (key x) (List.mem_map_of_mem hxl) (key y) (by simp)
      rw [get_set_ne _ _ hne]
      exact ih hnodupL hxl
    · rw [List.mem_singleton.mp hxy, get_set_self]

/-! ## Visiting a map -/

/-- The entries as pairs. -/
def pairs : List (K × V) := m.entries.map fun e => (e.1, e.2)

omit [DecidableEq K] in
theorem pairs_map_fst : m.pairs.map Prod.fst = m.keys := by
  rw [pairs, List.map_map]
  rfl

theorem mem_pairs (v : V) : (k, v) ∈ m.pairs ↔ m.get k = some v := by
  rw [← mem_entries_iff, pairs, List.mem_map]
  constructor
  · rintro ⟨⟨k', v'⟩, hmem, heq⟩
    obtain ⟨rfl, rfl⟩ := Prod.mk.inj heq
    exact hmem
  · exact fun hmem => ⟨⟨k, v⟩, hmem, rfl⟩

end GoMap

/-- An order in which `range` visits a Go map; the language leaves it open. -/
structure VisitOrder (K V : Type) where
  visit : GoMap K V → List (K × V)
  perm : ∀ m, (visit m).Perm m.pairs

namespace VisitOrder

variable {K V : Type} (o : VisitOrder K V) (m : GoMap K V)

/-- The order of the underlying list. -/
def asListed (K V : Type) : VisitOrder K V := ⟨GoMap.pairs, fun _ => List.Perm.refl _⟩

theorem keys_nodup : ((o.visit m).map Prod.fst).Nodup := by
  rw [((o.perm m).map Prod.fst).nodup_iff, GoMap.pairs_map_fst]
  exact AList.keys_nodup m

theorem length_visit : (o.visit m).length = m.entries.length := by
  rw [(o.perm m).length_eq, GoMap.pairs, List.length_map]

variable [DecidableEq K]

theorem mem_visit (k : K) (v : V) : (k, v) ∈ o.visit m ↔ m.get k = some v := by
  rw [(o.perm m).mem_iff, GoMap.mem_pairs]

theorem mem_keys_visit (k : K) : k ∈ (o.visit m).map Prod.fst ↔ (m.get k).isSome := by
  rw [((o.perm m).map Prod.fst).mem_iff, GoMap.pairs_map_fst, GoMap.mem_keys_iff]

/-- **Copying a map** entry by entry, in whatever order, gives a map with the same lookups. -/
theorem get_copy (k : K) : ((o.visit m).foldl (fun acc e => acc.set e.1 e.2) (∅ : GoMap K V)).get k = m.get k := by
  cases hget : m.get k with
  | none =>
    have hnot : k ∉ (o.visit m).map Prod.fst := by
      rw [o.mem_keys_visit, hget]
      simp
    rw [GoMap.get_foldl_set_of_notMem Prod.fst Prod.snd _ _ _ hnot, GoMap.get_empty]
  | some v =>
    exact GoMap.get_foldl_set Prod.fst Prod.snd _ (o.keys_nodup m) ∅ (k, v) ((o.mem_visit m k v).mpr hget)

/-- In a list of entries with distinct keys, what comes from one key is what comes from its entry. -/
theorem filter_flatMap_entries {X : Type} (entries : List (K × V)) (hnodup : (entries.map Prod.fst).Nodup)
    (h : V → List X) {k : K} {v : V} (hmem : (k, v) ∈ entries) :
    (entries.flatMap fun e => (h e.2).map fun x => (e.1, x)).filter (fun p => decide (p.1 = k))
      = (h v).map fun x => (k, x) := by
  have hother : ∀ l : List (K × V), k ∉ l.map Prod.fst →
      (l.flatMap fun e => (h e.2).map fun x => (e.1, x)).filter (fun p => decide (p.1 = k)) = [] := by
    intro l hk
    refine List.filter_eq_nil_iff.mpr fun p hp => ?_
    obtain ⟨e, he, hx⟩ := List.mem_flatMap.mp hp
    obtain ⟨x, -, rfl⟩ := List.mem_map.mp hx
    have hne : e.1 ≠ k := fun heq => hk (heq ▸ List.mem_map_of_mem he)
    simpa using hne
  obtain ⟨before, after, rfl⟩ := List.append_of_mem hmem
  rw [List.map_append, List.map_cons, List.nodup_append] at hnodup
  obtain ⟨-, hafter, hdisj⟩ := hnodup
  have hbefore : k ∉ before.map Prod.fst := fun hk => hdisj k hk k (by simp) rfl
  have hself : ((h v).map fun x => (k, x)).filter (fun p => decide (p.1 = k)) = (h v).map fun x => (k, x) := by
    refine List.filter_eq_self.mpr fun p hp => ?_
    obtain ⟨x, -, rfl⟩ := List.mem_map.mp hp
    simp
  rw [List.flatMap_append, List.flatMap_cons, List.filter_append, List.filter_append, hother before hbefore,
    hother after (List.nodup_cons.mp hafter).1, hself, List.nil_append, List.append_nil]

theorem filter_flatMap_visit {X : Type} (h : V → List X) {k : K} {v : V} (hget : m.get k = some v) :
    ((o.visit m).flatMap fun e => (h e.2).map fun x => (e.1, x)).filter (fun p => decide (p.1 = k))
      = (h v).map fun x => (k, x) :=
  filter_flatMap_entries (o.visit m) (o.keys_nodup m) h ((o.mem_visit m k v).mpr hget)

end VisitOrder

end Lib
end Koala
