import Mathlib

/-!
# Counting owners in an assignment

An assignment gives every position of a list an owner.  The lemmas below count: how many positions each
owner has, how many positions two assignments of the same length disagree on (`movedCount`), and how few they
can disagree on when their per-owner counts are prescribed (`movedCount_le_of_count_eq`).
-/

namespace Koala
namespace Lib

section Sums

variable {α : Type} [DecidableEq α] (ws : List α)

/-- Over a duplicate-free list of owners, the indicator of `x` sums to its membership. -/
theorem sum_indicator (hnodup : ws.Nodup) (x : α) (n : Nat) :
    (ws.map fun w => if x = w then n else 0).sum = if x ∈ ws then n else 0 := by
  induction ws with
  | nil => simp
  | cons w ws ih =>
    obtain ⟨hnot, hrest⟩ := List.nodup_cons.mp hnodup
    rw [List.map_cons, List.sum_cons, ih hrest]
    by_cases hxw : x = w
    · subst hxw
      simp [hnot]
    · simp [hxw]

/-- Counting by owner: the counts of the owners in `ws` add up to the positions owned by them. -/
theorem sum_count (hnodup : ws.Nodup) (l : List α) :
    (ws.map fun w => l.count w).sum = l.countP (fun x => decide (x ∈ ws)) := by
  induction l with
  | nil => simp
  | cons x l ih =>
    have hsplit : (ws.map fun w => (x :: l).count w)
        = ws.map fun w => l.count w + if x = w then 1 else 0 := by
      refine List.map_congr_left fun w _ => ?_
      rw [List.count_cons]
      simp
    rw [hsplit, List.sum_map_add, ih, sum_indicator ws hnodup, List.countP_cons]
    simp

/-- Conversely, counts that add up to the number of positions leave no position for other owners. -/
theorem mem_of_sum_count (hnodup : ws.Nodup) (l : List α)
    (hsum : (ws.map fun w => l.count w).sum = l.length) : ∀ x ∈ l, x ∈ ws := by
  intro x hx
  rw [sum_count ws hnodup, List.countP_eq_length] at hsum
  simpa using hsum x hx

theorem sum_map_lower (hnodup : ws.Nodup) (f g : α → Nat) (d : α) (hd : d ∈ ws)
    (hat : g d + 1 = f d) (hother : ∀ w, w ≠ d → g w = f w) : (ws.map g).sum + 1 = (ws.map f).sum := by
  have hf : ws.map f = ws.map fun w => g w + if d = w then 1 else 0 := by
    refine List.map_congr_left fun w _ => ?_
    by_cases hw : w = d
    · subst hw
      simp [hat]
    · rw [hother w hw, if_neg (fun h => hw h.symm), Nat.add_zero]
  rw [hf, List.sum_map_add, sum_indicator ws hnodup, if_pos hd]

/-- Turning a predicate on at one position of a duplicate-free list counts one more. -/
theorem countP_turn_on {l : List α} (hnodup : l.Nodup) {x : α} (hx : x ∈ l) {p q : α → Bool} (hp : p x = false)
    (hq : q x = true) (hrest : ∀ y ∈ l, y ≠ x → q y = p y) : l.countP q = l.countP p + 1 := by
  induction l with
  | nil => cases hx
  | cons y l ih =>
    obtain ⟨hy, hl⟩ := List.nodup_cons.mp hnodup
    rw [List.countP_cons, List.countP_cons]
    by_cases hyx : y = x
    · subst hyx
      have hsame : l.countP q = l.countP p :=
        List.countP_congr fun z hz => by
          rw [hrest z (List.mem_cons_of_mem y hz) fun heq => hy (heq ▸ hz)]
      rw [hsame, hp, hq]
      simp
    · have hxl : x ∈ l := (List.mem_cons.mp hx).resolve_left fun heq => hyx heq.symm
      rw [ih hl hxl fun z hz => hrest z (List.mem_cons_of_mem y hz), hrest y List.mem_cons_self hyx]
      omega

end Sums

section Moved

variable {α : Type} [DecidableEq α]

/-- The number of positions on which two assignments differ. -/
def movedCount (old new : List α) : Nat :=
  (old.zip new).countP fun p => decide (p.1 ≠ p.2)

/-- Positions that `w` owns before and not after. -/
def lossCount (w : α) (old new : List α) : Nat :=
  (old.zip new).countP fun p => decide (p.1 = w ∧ p.2 ≠ w)

/-- Positions that `w` owns after and not before. -/
def gainCount (w : α) (old new : List α) : Nat :=
  (old.zip new).countP fun p => decide (p.1 ≠ w ∧ p.2 = w)

/-- The balance of an owner: what it had plus what it gained is what it has plus what it lost. -/
theorem count_add_gain (w : α) (old new : List α) (hlen : old.length = new.length) :
    old.count w + gainCount w old new = new.count w + lossCount w old new := by
  induction old generalizing new with
  | nil =>
    have hnil : new = [] := List.length_eq_zero_iff.mp hlen.symm
    simp [hnil, gainCount, lossCount]
  | cons x old ih =>
    cases new with
    | nil => simp at hlen
    | cons y new =>
      have hih := ih new (by simpa using hlen)
      simp only [gainCount, lossCount, List.zip_cons_cons, List.countP_cons, List.count_cons,
        decide_eq_true_eq, beq_iff_eq] at hih ⊢
      split_ifs <;> first | omega | (exfalso; tauto)

theorem sum_lossCount (ws : List α) (hnodup : ws.Nodup) (old new : List α) : (ws.map fun w => lossCount w old new).sum
      = (old.zip new).countP fun p => decide (p.1 ∈ ws ∧ p.1 ≠ p.2) := by
  unfold lossCount
  induction old.zip new with
  | nil => simp
  | cons p l ih =>
    have hsplit : (ws.map fun w => (p :: l).countP fun q => decide (q.1 = w ∧ q.2 ≠ w))
        = ws.map fun w => (l.countP fun q => decide (q.1 = w ∧ q.2 ≠ w))
            + if p.1 = w then (if p.1 ≠ p.2 then 1 else 0) else 0 := by
      refine List.map_congr_left fun w _ => ?_
      rw [List.countP_cons]
      congr 1
      by_cases hw : p.1 = w
      · subst hw
        by_cases hp : p.2 = p.1
        · simp [hp]
        · simp [hp, Ne.symm hp]
      · simp [hw]
    rw [hsplit, List.sum_map_add, ih, sum_indicator ws hnodup, List.countP_cons]
    congr 1
    by_cases hmem : p.1 ∈ ws <;> by_cases hne : p.1 = p.2 <;> simp [hmem, hne]

/-- **Fewest moves.**  If `new` moves positions only away from the owners in `ws` and never to them, then no
assignment that leaves the owners in `ws` the same counts moves fewer positions. -/
theorem movedCount_le_of_count_eq (ws : List α) (hnodup : ws.Nodup) (old new alt : List α)
    (hlen : old.length = new.length) (hlenAlt : old.length = alt.length)
    (hfrom : ∀ p ∈ old.zip new, p.1 ≠ p.2 → p.1 ∈ ws ∧ p.2 ∉ ws) (hcount : ∀ w ∈ ws, alt.count w = new.count w) :
    movedCount old new ≤ movedCount old alt := by
  have hmoved : movedCount old new = (ws.map fun w => lossCount w old new).sum := by
    rw [sum_lossCount ws hnodup]
    refine List.countP_congr fun p hp => ?_
    simp only [decide_eq_true_eq]
    exact ⟨fun hne => ⟨(hfrom p hp hne).1, hne⟩, fun h => h.2⟩
  have hloss : ∀ w ∈ ws, lossCount w old new ≤ lossCount w old alt := by
    intro w hw
    have hgain : gainCount w old new = 0 := by
      refine List.countP_eq_zero.mpr fun p hp => ?_
      simp only [decide_eq_true_eq, not_and]
      intro hne heq
      have hpne : p.1 ≠ p.2 := fun h => hne (h.trans heq)
      exact (hfrom p hp hpne).2 (heq ▸ hw)
    have hbalance := count_add_gain w old new hlen
    have hbalanceAlt := count_add_gain w old alt hlenAlt
    have := hcount w hw
    omega
  calc movedCount old new
      = (ws.map fun w => lossCount w old new).sum := hmoved
    _ ≤ (ws.map fun w => lossCount w old alt).sum := List.sum_le_sum hloss
    _ = (old.zip alt).countP fun p => decide (p.1 ∈ ws ∧ p.1 ≠ p.2) := sum_lossCount ws hnodup old alt
    _ ≤ movedCount old alt := by
        refine List.countP_mono_left fun p _ hp => ?_
        simp only [decide_eq_true_eq] at hp ⊢
        exact hp.2

end Moved

section Positions

variable {α : Type} [DecidableEq α]

/-- The positions of `w`, in ascending order. -/
def positionsOf (w : α) (l : List α) : List Nat :=
  (List.range l.length).filter fun i => decide (l[i]? = some w)

theorem mem_positionsOf {w : α} {l : List α} {i : Nat} : i ∈ positionsOf w l ↔ l[i]? = some w := by
  simp only [positionsOf, List.mem_filter, List.mem_range, decide_eq_true_eq, and_iff_right_iff_imp]
  intro h
  exact (List.getElem?_eq_some_iff.mp h).1

theorem positionsOf_nodup (w : α) (l : List α) : (positionsOf w l).Nodup :=
  List.nodup_range.filter _

/-- Appending one element appends its position to the positions of its own value only. -/
theorem positionsOf_concat (w x : α) (l : List α) :
    positionsOf w (l ++ [x]) = positionsOf w l ++ if x = w then [l.length] else [] := by
  have hold : (List.range l.length).filter (fun i => decide ((l ++ [x])[i]? = some w))
      = positionsOf w l := by
    refine List.filter_congr fun i hi => ?_
    rw [List.getElem?_append_left (List.mem_range.mp hi)]
  unfold positionsOf at hold ⊢
  rw [List.length_append, List.length_singleton, List.range_succ, List.filter_append, hold]
  congr 1
  by_cases hx : x = w <;> simp [hx]

theorem length_positionsOf (w : α) (l : List α) : (positionsOf w l).length = l.count w := by
  induction l using List.reverseRecOn with
  | nil => rfl
  | append_singleton l x ih =>
    rw [positionsOf_concat, List.length_append, ih, List.count_append]
    by_cases hx : x = w <;> simp [hx]

end Positions

/-- Grouping the elements of a list by a key and listing some groups one after the other. -/
theorem flatMap_filter_perm {α β : Type} [DecidableEq β] (f : α → β) (l : List α) {keys : List β}
    (hnodup : keys.Nodup) :
    (keys.flatMap fun k => l.filter fun a => f a = k).Perm (l.filter fun a => f a ∈ keys) := by
  induction keys with
  | nil => simp
  | cons k keys ih =>
    obtain ⟨hk, hkeys⟩ := List.nodup_cons.mp hnodup
    have hfirst : l.filter (fun a => f a = k) = (l.filter fun a => f a ∈ k :: keys).filter fun a => f a = k := by
      rw [List.filter_filter]
      refine List.filter_congr fun a _ => ?_
      by_cases ha : f a = k <;> simp [ha]
    have hrest : l.filter (fun a => f a ∈ keys) =
        (l.filter fun a => f a ∈ k :: keys).filter fun a => !decide (f a = k) := by
      rw [List.filter_filter]
      refine List.filter_congr fun a _ => ?_
      by_cases ha : f a = k
      · simp [ha, hk]
      · simp [ha]
    rw [List.flatMap_cons]
    refine ((ih hkeys).append_left _).trans ?_
    rw [hfirst, hrest]
    exact List.filter_append_perm _ _

end Lib
end Koala
