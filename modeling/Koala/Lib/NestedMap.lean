import Koala.Lib.GoMap
import Mathlib.Data.List.Nodup
import Mathlib.Data.List.Perm.Basic

/-!
# Go maps of maps

A Go `map[A]map[B]V` whose inner maps are made when first needed and dropped when empty, so that it is read as
one map with two keys.
-/

namespace Koala
namespace Lib

/-- A Go `map[A]map[B]V`. -/
abbrev NestedMap (A B V : Type) : Type := GoMap A (GoMap B V)

namespace NestedMap

variable {A B V : Type} [DecidableEq A] [DecidableEq B]

/-- `v, ok := m[a][b]`. -/
def get (m : NestedMap A B V) (a : A) (b : B) : Option V := (GoMap.get m a).bind fun inner => inner.get b

/-- `m[a][b] = v`, making `m[a]` if necessary. -/
def set (m : NestedMap A B V) (a : A) (b : B) (v : V) : NestedMap A B V :=
  GoMap.set m a (((GoMap.get m a).getD ∅).set b v)

/-- `delete(m[a], b)`, and `delete(m, a)` if nothing is left. -/
def delete (m : NestedMap A B V) (a : A) (b : B) : NestedMap A B V :=
  match GoMap.get m a with
  | none => m
  | some inner =>
    if (inner.delete b).entries = [] then GoMap.delete m a else GoMap.set m a (inner.delete b)

/-- The entries whose first key passes a test, in the order of the two `range` loops. -/
def entriesWhere (m : NestedMap A B V) (p : A → Bool) : List (A × B × V) :=
  m.entries.flatMap fun e => if p e.1 then e.2.entries.map fun e' => (e.1, e'.1, e'.2) else []

@[simp] theorem get_empty (a : A) (b : B) : get (∅ : NestedMap A B V) a b = none := rfl

theorem get_set (m : NestedMap A B V) (a a' : A) (b b' : B) (v : V) :
    (m.set a b v).get a' b' = if (a', b') = (a, b) then some v else m.get a' b' := by
  simp only [get, set, GoMap.get_set, Prod.mk.injEq]
  by_cases ha : a' = a
  · subst ha
    by_cases hb : b' = b
    · simp [hb]
    · cases hm : GoMap.get m a' <;> simp [hb]
  · simp [ha]

theorem get_delete (m : NestedMap A B V) (a a' : A) (b b' : B) :
    (m.delete a b).get a' b' = if (a', b') = (a, b) then none else m.get a' b' := by
  unfold delete
  cases hm : GoMap.get m a with
  | none =>
    split_ifs with heq
    · obtain ⟨rfl, rfl⟩ := Prod.mk.inj heq
      simp [get, hm]
    · rfl
  | some inner =>
    have hinner : ∀ b'', (inner.delete b).get b'' = if b'' = b then none else inner.get b'' :=
      fun b'' => GoMap.get_delete inner b b''
    by_cases ha : a' = a
    · subst ha
      have hb' : (inner.delete b).get b' = if (a', b') = (a', b) then none else m.get a' b' := by
        rw [hinner, get, hm]
        simp
      rw [← hb']
      dsimp only
      split_ifs with hempty
      · have hnone : (inner.delete b).get b' = none := by
          cases hget : (inner.delete b).get b' with
          | none => rfl
          | some v =>
            have hmem := (GoMap.mem_entries_iff _ _ _).mpr hget
            rw [hempty] at hmem
            cases hmem
        rw [hnone, get, GoMap.get_delete_self]
        rfl
      · rw [get, GoMap.get_set_self]
        rfl
    · dsimp only
      split_ifs with hempty heq heq
      · exact absurd (Prod.mk.inj heq).1 ha
      · simp [get, ha]
      · exact absurd (Prod.mk.inj heq).1 ha
      · simp [get, ha]

theorem get_foldl_delete (xs : List (B × A)) (m : NestedMap A B V) (y : B × A) :
    get (xs.foldl (fun m x => delete m x.2 x.1) m) y.2 y.1 = if y ∈ xs then none else m.get y.2 y.1 := by
  induction xs generalizing m with
  | nil => simp
  | cons x xs ih =>
    rw [List.foldl_cons, ih, get_delete]
    by_cases hy : y = x
    · simp [hy]
    · have hne : (y.2, y.1) ≠ (x.2, x.1) := fun h => hy (Prod.ext (Prod.mk.inj h).2 (Prod.mk.inj h).1)
      simp [hy, hne]

theorem mem_entriesWhere {m : NestedMap A B V} {p : A → Bool} {a : A} {b : B} {v : V} :
    (a, b, v) ∈ m.entriesWhere p ↔ p a = true ∧ m.get a b = some v := by
  unfold entriesWhere get
  rw [List.mem_flatMap]
  constructor
  · rintro ⟨⟨a', inner⟩, hmem, hin⟩
    split_ifs at hin with hp
    · obtain ⟨⟨b', v'⟩, hmem', heq⟩ := List.mem_map.mp hin
      obtain ⟨rfl, rfl, rfl⟩ : a' = a ∧ b' = b ∧ v' = v := by simpa using heq
      rw [GoMap.mem_entries_iff] at hmem hmem'
      exact ⟨hp, by rw [hmem, Option.bind_some, hmem']⟩
    · cases hin
  · rintro ⟨hp, hget⟩
    obtain ⟨inner, hm, hinner⟩ := Option.bind_eq_some_iff.mp hget
    refine ⟨⟨a, inner⟩, (GoMap.mem_entries_iff _ _ _).mpr hm, ?_⟩
    rw [if_pos hp]
    exact List.mem_map.mpr ⟨⟨b, v⟩, (GoMap.mem_entries_iff _ _ _).mpr hinner, rfl⟩

omit [DecidableEq A] [DecidableEq B] in
theorem entriesWhere_keys_nodup (m : NestedMap A B V) (p : A → Bool) :
    ((m.entriesWhere p).map fun e => (e.1, e.2.1)).Nodup := by
  unfold entriesWhere
  rw [List.map_flatMap, List.nodup_flatMap]
  constructor
  · rintro ⟨a, inner⟩ -
    split_ifs
    · rw [List.map_map]
      have hkeys := inner.nodupKeys
      have hmap : (inner.entries.map ((fun e : A × B × V => (e.1, e.2.1)) ∘ fun e' => (a, e'.1, e'.2)))
          = (inner.entries.map Sigma.fst).map fun b => (a, b) := by
        rw [List.map_map]
        rfl
      rw [hmap]
      exact List.Nodup.map (fun _ _ h => (Prod.mk.inj h).2) hkeys
    · exact List.nodup_nil
  · have hkeys : m.entries.Pairwise fun e e' => e.1 ≠ e'.1 := List.pairwise_map.mp m.nodupKeys
    have hfst : ∀ (e : Sigma fun _ : A => GoMap B V) (x : A × B),
        x ∈ (if p e.1 then e.2.entries.map fun e' => (e.1, e'.1, e'.2) else []).map (fun e => (e.1, e.2.1)) →
        x.1 = e.1 := by
      intro e x hx
      split_ifs at hx
      · obtain ⟨y, hy, rfl⟩ := List.mem_map.mp hx
        obtain ⟨e', -, rfl⟩ := List.mem_map.mp hy
        rfl
      · cases hx
    exact hkeys.imp fun {e e'} hne x hx hx' => hne ((hfst e x hx).symm.trans (hfst e' x hx'))

/-! ## Grouping -/

variable (m : NestedMap A B (List V))

/-- `m[a][b] = append(m[a][b], v)`, making `m[a]` if necessary. -/
def push (a : A) (b : B) (v : V) : NestedMap A B (List V) :=
  m.set a b ((m.get a b).getD [] ++ [v])

/-- The list grouped under two keys. -/
def group (a : A) (b : B) : List V := (m.get a b).getD []

theorem group_push (a a' : A) (b b' : B) (v : V) :
    (m.push a b v).group a' b' = if (a', b') = (a, b) then m.group a b ++ [v] else m.group a' b' := by
  unfold group push
  rw [get_set]
  split_ifs <;> rfl

/-- A grouping without empty lists. -/
def NoEmptyGroup : Prop := ∀ a b vs, m.get a b = some vs → vs ≠ []

theorem NoEmptyGroup.empty : NoEmptyGroup (∅ : NestedMap A B (List V)) := fun a b vs h => by simp at h

theorem NoEmptyGroup.push {m : NestedMap A B (List V)} (h : m.NoEmptyGroup) (a : A) (b : B) (v : V) :
    (m.push a b v).NoEmptyGroup := by
  intro a' b' vs hget
  rw [NestedMap.push, get_set] at hget
  split_ifs at hget
  · cases hget
    simp
  · exact h a' b' vs hget

theorem NoEmptyGroup.get_eq {m : NestedMap A B (List V)} (h : m.NoEmptyGroup) (a : A) (b : B) :
    m.get a b = if m.group a b = [] then none else some (m.group a b) := by
  unfold group
  cases hget : m.get a b with
  | none => simp
  | some vs => simp [h a b vs hget]

/-- **Grouping a list** entry by entry: each group holds its entries in order. -/
theorem group_foldl_push {ι : Type} (a : ι → A) (b : ι → B) (v : ι → V) (items : List ι) (x : A) (y : B) :
    (items.foldl (fun m i => m.push (a i) (b i) (v i)) (∅ : NestedMap A B (List V))).group x y
      = (items.filter fun i => decide (a i = x ∧ b i = y)).map v := by
  induction items using List.reverseRecOn with
  | nil => rfl
  | append_singleton items i ih =>
    rw [List.foldl_append, List.foldl_cons, List.foldl_nil, group_push, List.filter_append, List.map_append]
    by_cases hi : a i = x ∧ b i = y
    · obtain ⟨rfl, rfl⟩ := hi
      rw [if_pos rfl, ih]
      simp
    · have hne : (x, y) ≠ (a i, b i) := fun heq => hi ⟨(Prod.mk.inj heq).1.symm, (Prod.mk.inj heq).2.symm⟩
      rw [if_neg hne, ih]
      simp [hi]

theorem noEmptyGroup_foldl_push {ι : Type} (a : ι → A) (b : ι → B) (v : ι → V) (items : List ι) :
    NoEmptyGroup (items.foldl (fun m i => m.push (a i) (b i) (v i)) (∅ : NestedMap A B (List V))) := by
  induction items using List.reverseRecOn with
  | nil => exact NoEmptyGroup.empty
  | append_singleton items i ih =>
    rw [List.foldl_append, List.foldl_cons, List.foldl_nil]
    exact ih.push _ _ _

/-! ## Visiting both levels -/

variable (outer : VisitOrder A (GoMap B V)) (inner : VisitOrder B V)

/-- The entries in the order of two nested `range` loops. -/
def visitAll (m : NestedMap A B V) : List (A × B × V) :=
  (outer.visit m).flatMap fun e => (inner.visit e.2).map fun e' => (e.1, e'.1, e'.2)

theorem mem_visitAll {outer : VisitOrder A (GoMap B V)} {inner : VisitOrder B V} {m : NestedMap A B V} {a : A} {b : B}
    {v : V} : (a, b, v) ∈ m.visitAll outer inner ↔ m.get a b = some v := by
  unfold visitAll get
  rw [List.mem_flatMap]
  constructor
  · rintro ⟨⟨a', m'⟩, hmem, hin⟩
    obtain ⟨⟨b', v'⟩, hmem', heq⟩ := List.mem_map.mp hin
    obtain ⟨rfl, rfl, rfl⟩ : a' = a ∧ b' = b ∧ v' = v := by simpa using heq
    rw [(outer.mem_visit m a' m').mp hmem, Option.bind_some, (inner.mem_visit m' b' v').mp hmem']
  · intro hget
    obtain ⟨m', hm, hm'⟩ := Option.bind_eq_some_iff.mp hget
    exact ⟨(a, m'), (outer.mem_visit m a m').mpr hm, List.mem_map.mpr ⟨(b, v), (inner.mem_visit m' b v).mpr hm', rfl⟩⟩

omit [DecidableEq A] [DecidableEq B] in
theorem visitAll_perm (m : NestedMap A B V) :
    (m.visitAll outer inner).Perm (m.entriesWhere fun _ => true) := by
  have hlisted : (m.entriesWhere fun _ => true)
      = (GoMap.pairs m).flatMap fun e => e.2.pairs.map fun e' => (e.1, e'.1, e'.2) := by
    simp only [entriesWhere, GoMap.pairs, if_true, List.flatMap_map, List.map_map]
    rfl
  rw [hlisted]
  exact (outer.perm m).flatMap fun e _ => (inner.perm e.2).map _

omit [DecidableEq A] [DecidableEq B] in
theorem visitAll_keys_nodup (m : NestedMap A B V) :
    ((m.visitAll outer inner).map fun e => (e.1, e.2.1)).Nodup :=
  ((m.visitAll_perm outer inner).map _).nodup_iff.mpr (m.entriesWhere_keys_nodup fun _ => true)

end NestedMap

end Lib
end Koala
