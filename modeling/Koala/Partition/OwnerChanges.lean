import Koala.Lib.GoMap
import Mathlib.Data.List.Induction
import Mathlib.Data.List.Sort

/-!
# Owner changes

Every partition policy reports, next to the new assignment, which buckets change hands: a map from source worker
to destination worker to the ascending list of moved buckets.  The coordinator derives the migration plan, the
peers of the lazy protocol and the ownership history from it.  `ExactChanges` says that such a map is exactly the
difference of the two assignments; `computeBucketOwnerChanges` is the loop that computes it from them.
-/

namespace Koala
namespace Partition

open Lib

/-- `uint16` worker identifiers; no arithmetic is done on them. -/
abbrev WorkerID := Nat

/-- Position of a bucket in the bucket slice. -/
abbrev BucketID := Nat

/-- `map[sourceWorkerID]map[destWorkerID][]bucketID`. -/
abbrev OwnerChanges := GoMap WorkerID (GoMap WorkerID (List BucketID))

variable (changes : OwnerChanges)

/-- The buckets recorded as moved from `src` to `dst`. -/
def OwnerChanges.moved (src dst : WorkerID) : List BucketID :=
  ((changes.get src).bind fun dests => dests.get dst).getD []

/-- Record the move of one bucket, creating the inner map on first use. -/
def OwnerChanges.record (src dst : WorkerID) (b : BucketID) : OwnerChanges :=
  let dests := (changes.get src).getD ∅
  changes.set src (dests.set dst ((dests.get dst).getD [] ++ [b]))

/-- `sort.Ints` on every recorded bucket list. -/
def OwnerChanges.sorted : OwnerChanges :=
  changes.mapValues fun dests => dests.mapValues fun buckets => buckets.insertionSort (· ≤ ·)

theorem OwnerChanges.moved_record (src dst src' dst' : WorkerID) (b : BucketID) :
    (changes.record src dst b).moved src' dst'
      = changes.moved src' dst' ++ if src' = src ∧ dst' = dst then [b] else [] := by
  simp only [OwnerChanges.moved, OwnerChanges.record, GoMap.get_set]
  by_cases hsrc : src' = src
  · subst hsrc
    cases hget : changes.get src' with
    | none =>
      by_cases hdst : dst' = dst
      · simp [hdst]
      · simp [hdst]
    | some dests =>
      by_cases hdst : dst' = dst
      · simp [hdst]
      · simp [hdst]
  · simp [hsrc]

theorem OwnerChanges.moved_sorted (src dst : WorkerID) :
    changes.sorted.moved src dst = (changes.moved src dst).insertionSort (· ≤ ·) := by
  simp only [OwnerChanges.moved, OwnerChanges.sorted, GoMap.get_mapValues]
  cases hsrc : changes.get src with
  | none => rfl
  | some dests =>
    simp only [Option.map_some, Option.bind_some, GoMap.get_mapValues]
    cases dests.get dst with
    | none => rfl
    | some buckets => rfl

/-- The inner lists are created by appending, so none of them is empty. -/
def OwnerChanges.NoEmptyEntry : Prop :=
  ∀ src dests, changes.get src = some dests → ∀ dst buckets, dests.get dst = some buckets → buckets ≠ []

theorem OwnerChanges.NoEmptyEntry.record {changes : OwnerChanges} (h : changes.NoEmptyEntry)
    (src dst : WorkerID) (b : BucketID) : (changes.record src dst b).NoEmptyEntry := by
  intro src' dests hsrc dst' buckets hdst
  simp only [OwnerChanges.record, GoMap.get_set] at hsrc
  split_ifs at hsrc with hsame
  · cases hsrc
    rw [GoMap.get_set] at hdst
    split_ifs at hdst with hto
    · cases hdst
      simp
    · cases hget : changes.get src with
      | none => simp [hget] at hdst
      | some old => exact h src old hget dst' buckets (by simpa [hget] using hdst)
  · exact h src' dests hsrc dst' buckets hdst

theorem OwnerChanges.NoEmptyEntry.sorted {changes : OwnerChanges} (h : changes.NoEmptyEntry) :
    changes.sorted.NoEmptyEntry := by
  intro src dests hsrc dst buckets hdst
  rw [OwnerChanges.sorted, GoMap.get_mapValues, Option.map_eq_some_iff] at hsrc
  obtain ⟨inner, hinner, rfl⟩ := hsrc
  rw [GoMap.get_mapValues, Option.map_eq_some_iff] at hdst
  obtain ⟨unsorted, hunsorted, rfl⟩ := hdst
  have hne := h src inner hinner dst unsorted hunsorted
  rw [← List.length_pos_iff] at hne ⊢
  rwa [List.length_insertionSort]

/-- A report of owner changes that is exactly the difference of two assignments. -/
structure ExactChanges (old new : List WorkerID) (changes : OwnerChanges) : Prop where
  moved_iff : ∀ src dst b, b ∈ changes.moved src dst ↔
    old[b]? = some src ∧ new[b]? = some dst ∧ src ≠ dst
  sorted : ∀ src dst, (changes.moved src dst).Pairwise (· < ·)
  noEmpty : changes.NoEmptyEntry

/-- `computeBucketOwnerChanges`: the changes read off two assignments, bucket by bucket. -/
def computeBucketOwnerChanges (old new : List WorkerID) : OwnerChanges :=
  (old.zip new).zipIdx.foldl
    (fun changes p => if p.1.1 ≠ p.1.2 then changes.record p.1.1 p.1.2 p.2 else changes) ∅

/-- The scan after the pairs `seen` of old and new owners. -/
private theorem computeBucketOwnerChanges_scan (seen : List (WorkerID × WorkerID)) :
    let changes := seen.zipIdx.foldl
      (fun changes p => if p.1.1 ≠ p.1.2 then OwnerChanges.record changes p.1.1 p.1.2 p.2 else changes) ∅
    (∀ src dst b, b ∈ changes.moved src dst ↔ seen[b]? = some (src, dst) ∧ src ≠ dst) ∧
      (∀ src dst, (changes.moved src dst).Pairwise (· < ·)) ∧ changes.NoEmptyEntry := by
  induction seen using List.reverseRecOn with
  | nil =>
    refine ⟨?_, ?_, ?_⟩
    · intro src dst b
      simp [OwnerChanges.moved]
    · intro src dst
      exact List.Pairwise.nil
    · intro src dests hsrc
      simp at hsrc
  | append_singleton seen p ih =>
    obtain ⟨o, n⟩ := p
    obtain ⟨hiff, hsorted, hnoEmpty⟩ := ih
    simp only [List.zipIdx_append, List.foldl_append, List.zipIdx_cons, List.zipIdx_nil, List.foldl_cons,
      List.foldl_nil, Nat.zero_add]
    have hlast : ∀ b src dst, (seen ++ [(o, n)])[b]? = some (src, dst) ↔
        seen[b]? = some (src, dst) ∨ (b = seen.length ∧ src = o ∧ dst = n) := by
      intro b src dst
      rcases Nat.lt_trichotomy b seen.length with hlt | heq | hgt
      · rw [List.getElem?_append_left hlt]
        simp [Nat.ne_of_lt hlt]
      · subst heq
        simp [eq_comm]
      · rw [List.getElem?_eq_none (by simp; omega), List.getElem?_eq_none (by omega)]
        simp [Nat.ne_of_gt hgt]
    split_ifs with hne
    · refine ⟨?_, ?_, hnoEmpty.record o n _⟩
      · intro src dst b
        rw [OwnerChanges.moved_record, List.mem_append, hiff, hlast]
        by_cases hpair : src = o ∧ dst = n
        · obtain ⟨rfl, rfl⟩ := hpair
          simp [hne]
        · simp [hpair]
      · intro src dst
        rw [OwnerChanges.moved_record]
        split_ifs with hpair
        · refine List.pairwise_append.mpr ⟨hsorted src dst, List.pairwise_singleton _ _, ?_⟩
          intro a ha b hb
          rw [List.mem_singleton.mp hb]
          exact (List.getElem?_eq_some_iff.mp ((hiff src dst a).mp ha).1).1
        · simpa using hsorted src dst
    · refine ⟨?_, hsorted, hnoEmpty⟩
      intro src dst b
      rw [hiff, hlast]
      constructor
      · exact fun h => ⟨Or.inl h.1, h.2⟩
      · rintro ⟨hin | ⟨-, rfl, rfl⟩, hdiff⟩
        · exact ⟨hin, hdiff⟩
        · exact absurd (not_not.mp hne) hdiff

theorem computeBucketOwnerChanges_exact (old new : List WorkerID) :
    ExactChanges old new (computeBucketOwnerChanges old new) := by
  obtain ⟨hiff, hsorted, hnoEmpty⟩ := computeBucketOwnerChanges_scan (old.zip new)
  refine ⟨?_, hsorted, hnoEmpty⟩
  intro src dst b
  rw [computeBucketOwnerChanges, hiff, List.getElem?_zip_eq_some, and_assoc]

/-- A worker is listed as a source only with a destination. -/
def OwnerChanges.NoEmptySource : Prop :=
  ∀ src dests, changes.get src = some dests → ∃ dst, (dests.get dst).isSome

theorem computeBucketOwnerChanges_noEmptySource (old new : List WorkerID) :
    (computeBucketOwnerChanges old new).NoEmptySource := by
  unfold computeBucketOwnerChanges
  generalize (old.zip new).zipIdx = pairs
  suffices hscan : ∀ changes : OwnerChanges, changes.NoEmptySource →
      (pairs.foldl (fun changes p => if p.1.1 ≠ p.1.2 then changes.record p.1.1 p.1.2 p.2 else changes)
        changes).NoEmptySource by
    exact hscan ∅ fun src dests hsrc => by simp at hsrc
  induction pairs with
  | nil => exact fun changes h => h
  | cons p rest ih =>
    intro changes h
    rw [List.foldl_cons]
    refine ih _ ?_
    split_ifs
    · intro src dests hsrc
      simp only [OwnerChanges.record, GoMap.get_set] at hsrc
      split_ifs at hsrc
      · cases hsrc
        exact ⟨p.1.2, by simp⟩
      · exact h src dests hsrc
    · exact h

end Partition
end Koala
