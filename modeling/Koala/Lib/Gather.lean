import Koala.Lib.GoMap
import Koala.Lib.Outcome

/-!
# Reassembling scattered lists

Lists that were split over several places, each part with the positions its elements came from, are put together
again by writing every element back to its position.  Whatever the order of the parts, the result has at every
position that occurs in a part the element that belongs there (`gather_ok`).
-/

namespace Koala
namespace Lib

open Outcome

namespace Gather

variable {ε S α : Type} [DecidableEq S] (oob : ε)

/-- `res[s][j] = v`. -/
def write (res : GoMap S (List α)) (w : S × Nat × α) : Outcome ε (GoMap S (List α)) :=
  match res.get w.1 with
  | none => .abort oob
  | some cur => if w.2.1 < cur.length then .ok (res.set w.1 (cur.set w.2.1 w.2.2)) else .abort oob

/-- The body of a loop `for i, v := range values` that uses `indices[i]` in the place of `i`. -/
def tracked {β : Type} (oob : ε) (indices : List Nat) (body : β → Nat × α → Outcome ε β) (s : β) (v : α × Nat) :
    Outcome ε β :=
  match indices[v.2]? with
  | none => .abort oob
  | some j => body s (j, v.1)

omit [DecidableEq S] in
/-- When there is one value for each index, the loop is one over the indices. -/
theorem forEach_tracked {β : Type} (indices : List Nat) (f : Nat → α)
    (body : β → Nat × α → Outcome ε β) (s : β) :
    forEach (indices.map f).zipIdx (tracked oob indices body) s = forEach (indices.map fun j => (j, f j)) body s := by
  suffices h : ∀ done rest (s : β), indices = done ++ rest →
      forEach ((rest.map f).zipIdx done.length) (tracked oob indices body) s
      = forEach (rest.map fun j => (j, f j)) body s from h [] indices s rfl
  intro done rest
  induction rest generalizing done with
  | nil => intro s _; rfl
  | cons j rest ih =>
    intro s hsplit
    have hj : indices[done.length]? = some j := by rw [hsplit]; simp
    have hfirst : tracked oob indices body s (f j, done.length) = body s (j, f j) := by
      rw [tracked, hj]
    have hnext := ih (done ++ [j])
    rw [List.length_append, List.length_singleton] at hnext
    rw [List.map_cons, List.zipIdx_cons, List.map_cons, forEach_cons, forEach_cons, hfirst]
    cases body s (j, f j) with
    | ok s' => exact hnext s' (by rw [hsplit, List.append_assoc, List.singleton_append])
    | abort e => rfl
    | stuck => rfl

/-- `for i, v := range values { res[s][indices[i]] = v }`. -/
def place (s : S) (indices : List Nat) (values : List α) (res : GoMap S (List α)) :
    Outcome ε (GoMap S (List α)) :=
  forEach values.zipIdx (tracked oob indices fun res v => write oob res (s, v)) res

theorem place_eq (s : S) (indices : List Nat) (f : Nat → α) (res : GoMap S (List α)) :
    place oob s indices (indices.map f) res = forEach (indices.map fun j => (s, j, f j)) (write oob) res := by
  rw [place, forEach_tracked, forEach_map, forEach_map]

/-- The lists after some positions have been written: `f s j` there, the old element elsewhere. -/
def Written (f : S → Nat → α) (positions : List (S × Nat)) (res res' : GoMap S (List α)) : Prop :=
  (∀ s, res.get s = none → res'.get s = none) ∧
    ∀ s cur, res.get s = some cur → ∃ cur', res'.get s = some cur' ∧ cur'.length = cur.length ∧
      ∀ j < cur.length, cur'[j]? = if (s, j) ∈ positions then some (f s j) else cur[j]?

/-- **Writing a list of positions** that all exist. -/
theorem forEach_write {f : S → Nat → α} (positions : List (S × Nat)) {res : GoMap S (List α)}
    (h : ∀ p ∈ positions, ∃ cur, res.get p.1 = some cur ∧ p.2 < cur.length) :
    ∃ res', forEach (positions.map fun p => (p.1, p.2, f p.1 p.2)) (write oob) res = .ok res' ∧
      Written f positions res res' := by
  induction positions using List.reverseRecOn with
  | nil => exact ⟨res, rfl, fun _ hnone => hnone, fun s cur hget => ⟨cur, hget, rfl, by simp⟩⟩
  | append_singleton positions p ih =>
    obtain ⟨res', hrun, hnone, hsome⟩ := ih fun q hq => h q (List.mem_append_left _ hq)
    obtain ⟨s, j⟩ := p
    obtain ⟨cur, hcur, hj⟩ := h (s, j) (by simp)
    obtain ⟨cur', hcur', hlen, hat⟩ := hsome s cur hcur
    simp only at hcur hj
    refine ⟨res'.set s (cur'.set j (f s j)), ?_, ?_, ?_⟩
    · rw [List.map_append, forEach_append, hrun]
      simp only [List.map_singleton, ok_bind, forEach_cons, write, hcur', hlen, hj, if_true]
      rfl
    · intro s' hs'
      have hne : s' ≠ s := fun heq => by rw [heq, hcur] at hs'; cases hs'
      rw [GoMap.get_set_ne _ _ hne, hnone s' hs']
    · intro s' cur₁ hcur₁
      by_cases hs : s' = s
      · subst hs
        obtain rfl : cur = cur₁ := Option.some.inj (hcur.symm.trans hcur₁)
        refine ⟨_, GoMap.get_set_self _ _ _, by rw [List.length_set, hlen], fun i hi => ?_⟩
        rw [List.getElem?_set, hlen]
        by_cases hij : j = i
        · subst hij
          simp [hi]
        · rw [if_neg hij, hat i hi]
          have hne : (s', i) ≠ (s', j) := fun heq => hij (Prod.mk.inj heq).2.symm
          simp only [List.mem_append, List.mem_singleton, hne, or_false]
      · obtain ⟨cur₂, hcur₂, hlen₂, hat₂⟩ := hsome s' cur₁ hcur₁
        refine ⟨cur₂, by rw [GoMap.get_set_ne _ _ hs, hcur₂], hlen₂, fun i hi => ?_⟩
        rw [hat₂ i hi]
        have hne : (s', i) ≠ (s, j) := fun heq => hs (Prod.mk.inj heq).1
        simp only [List.mem_append, List.mem_singleton, hne, or_false]

/-- All parts, one after the other: each part has a name, the list it belongs to, and its elements. -/
def gather {W : Type} (oob : ε) (indices : W → S → List Nat) (parts : List (W × S × List α)) (res : GoMap S (List α)) :
    Outcome ε (GoMap S (List α)) :=
  forEach parts (fun res part => place oob part.2.1 (indices part.1 part.2.1) part.2.2 res) res

/-- **Reassembly.**  When every part holds the elements of its positions, and these exist, all of them end at
their positions. -/
theorem gather_ok {W : Type} {f : S → Nat → α} {indices : W → S → List Nat}
    {parts : List (W × S × List α)} {res : GoMap S (List α)}
    (hparts : ∀ part ∈ parts, part.2.2 = (indices part.1 part.2.1).map (f part.2.1))
    (hrange : ∀ part ∈ parts, ∀ j ∈ indices part.1 part.2.1, ∃ cur, res.get part.2.1 = some cur ∧ j < cur.length) :
    ∃ res', gather oob indices parts res = .ok res' ∧
      Written f (parts.flatMap fun part => (indices part.1 part.2.1).map fun j => (part.2.1, j)) res res' := by
  obtain ⟨res', hrun, hwritten⟩ := forEach_write (f := f) oob
    (parts.flatMap fun part => (indices part.1 part.2.1).map fun j => (part.2.1, j)) (by
      rintro ⟨s, j⟩ hp
      obtain ⟨part, hpart, hin⟩ := List.mem_flatMap.mp hp
      obtain ⟨i, hi, heq⟩ := List.mem_map.mp hin
      obtain ⟨rfl, rfl⟩ := Prod.mk.inj heq
      exact hrange part hpart i hi)
  refine ⟨res', ?_, hwritten⟩
  rw [← hrun, List.map_flatMap, forEach_flatMap]
  unfold gather
  refine forEach_congr fun part hpart res => ?_
  rw [hparts part hpart, place_eq, List.map_map]
  rfl

end Gather

end Lib
end Koala
