import Koala.Lib.Outcome
import Koala.Partition.OwnerChanges

/-!
# The migration plan

`GenerateMigrationPlan` (`coordinator/apiServiceUtil.go`) turns the owner changes into, per destination worker,
the sources to pull from and the bucket ranges to ask each of them for.  Consecutive buckets are merged into one
closed range.  `rangesFrom_spec` says that the ranges cover exactly the listed buckets and are disjoint and
ascending; `generateMigrationPlan_ok` that every source of a destination appears in its list exactly once.
-/

namespace Koala
namespace Partition

open Lib Lib.Outcome
open List (mem_cons mem_map pairwise_cons)

/-- A closed range of buckets, `pb.BucketRange` without the owner field. -/
structure BucketRange where
  lowerBucketIdx : Nat
  upperBucketIdx : Nat
  deriving DecidableEq, Repr

/-- `pb.MigrationInfo`; the source is named by its worker id in place of its address. -/
structure MigrationInfo where
  source : WorkerID
  bucketRanges : List BucketRange
  deriving DecidableEq, Repr

/-- Go's bounds check on `bucketIndices[0]`. -/
inductive PlanAbort where
  | indexOutOfRange
  deriving DecidableEq, Repr

/-- The loop over the remaining bucket indices, with the range `[start, stop]` still open. -/
def rangesFrom (start stop : Nat) : List Nat → List BucketRange
  | [] => [⟨start, stop⟩]
  | b :: rest => if b = stop + 1 then rangesFrom start b rest else ⟨start, stop⟩ :: rangesFrom b b rest

/-- Bucket indices to bucket ranges. -/
def toBucketRanges : List Nat → Outcome PlanAbort (List BucketRange)
  | [] => .abort .indexOutOfRange
  | b :: rest => .ok (rangesFrom b b rest)

/-- The inner loop body: add one source to the list of one destination. -/
def addMigration (source : WorkerID) (plan : GoMap WorkerID (List MigrationInfo))
    (dest : WorkerID × List Nat) : Outcome PlanAbort (GoMap WorkerID (List MigrationInfo)) := do
  let bucketRanges ← toBucketRanges dest.2
  pure (plan.set dest.1 ((plan.get dest.1).getD [] ++ [⟨source, bucketRanges⟩]))

/-- The entries of a map, in the order `range` visits them. -/
def visit {V : Type} (m : GoMap WorkerID V) : List (WorkerID × V) := m.entries.map fun e => (e.1, e.2)

/-- `GenerateMigrationPlan`. -/
def generateMigrationPlan (changes : OwnerChanges) :
    Outcome PlanAbort (GoMap WorkerID (List MigrationInfo)) :=
  forEach (visit changes) (fun plan src => forEach (visit src.2) (addMigration src.1) plan) ∅

/-! ## Ranges -/

/-- A bucket lies in one of the ranges. -/
def Covered (ranges : List BucketRange) (b : Nat) : Prop :=
  ∃ r ∈ ranges, r.lowerBucketIdx ≤ b ∧ b ≤ r.upperBucketIdx

/-- **The ranges of an ascending list** cover exactly its members and follow each other without overlap. -/
theorem rangesFrom_spec (start stop : Nat) (rest : List Nat) (hle : start ≤ stop)
    (hgt : ∀ b ∈ rest, stop < b) (hsorted : rest.Pairwise (· < ·)) :
    (∀ b, Covered (rangesFrom start stop rest) b ↔ (start ≤ b ∧ b ≤ stop) ∨ b ∈ rest) ∧
      (∀ r ∈ rangesFrom start stop rest, start ≤ r.lowerBucketIdx ∧ r.lowerBucketIdx ≤ r.upperBucketIdx) ∧
      (rangesFrom start stop rest).Pairwise (fun r r' => r.upperBucketIdx < r'.lowerBucketIdx) := by
  induction rest generalizing start stop with
  | nil =>
    refine ⟨fun b => by simp [rangesFrom, Covered], ?_, by simp [rangesFrom]⟩
    intro r hr
    obtain rfl : r = ⟨start, stop⟩ := by simpa [rangesFrom] using hr
    exact ⟨Nat.le_refl _, hle⟩
  | cons b rest ih =>
    obtain ⟨hfirst, hrest⟩ := pairwise_cons.mp hsorted
    have hb : stop < b := hgt b (by simp)
    by_cases hnext : b = stop + 1
    · -- the open range grows by one bucket
      obtain ⟨hcover, hbounds, hapart⟩ := ih start b (Nat.le_of_lt (Nat.lt_of_le_of_lt hle hb)) hfirst hrest
      rw [rangesFrom, if_pos hnext]
      refine ⟨fun c => ?_, hbounds, hapart⟩
      rw [hcover c, mem_cons]
      constructor
      · rintro (⟨hlow, hup⟩ | hin)
        · rcases Nat.lt_or_ge stop c with hlt | hge
          · exact Or.inr (Or.inl (by omega))
          · exact Or.inl ⟨hlow, hge⟩
        · exact Or.inr (Or.inr hin)
      · rintro (⟨hlow, hup⟩ | rfl | hin)
        · exact Or.inl ⟨hlow, by omega⟩
        · exact Or.inl ⟨by omega, Nat.le_refl _⟩
        · exact Or.inr hin
    · -- a gap closes the open range and opens the next one at `b`
      obtain ⟨hcover, hbounds, hapart⟩ := ih b b (Nat.le_refl _) hfirst hrest
      rw [rangesFrom, if_neg hnext]
      refine ⟨fun c => ?_, fun r hr => ?_, pairwise_cons.mpr ⟨fun r hr => ?_, hapart⟩⟩
      · have hsplit : Covered (⟨start, stop⟩ :: rangesFrom b b rest) c ↔
            (start ≤ c ∧ c ≤ stop) ∨ Covered (rangesFrom b b rest) c := by
          simp [Covered]
        have hsingle : b ≤ c ∧ c ≤ b ↔ c = b := by omega
        rw [hsplit, hcover c, hsingle, mem_cons]
      · rcases mem_cons.mp hr with rfl | hin
        · exact ⟨Nat.le_refl _, hle⟩
        · obtain ⟨hlow, hlu⟩ := hbounds r hin
          exact ⟨by omega, hlu⟩
      · obtain ⟨hlow, -⟩ := hbounds r hr
        exact Nat.lt_of_lt_of_le hb hlow

/-- What the ranges of a migration must look like for the list of buckets they stand for. -/
structure RangesOf (buckets : List Nat) (ranges : List BucketRange) : Prop where
  covered_iff : ∀ b, Covered ranges b ↔ b ∈ buckets
  le : ∀ r ∈ ranges, r.lowerBucketIdx ≤ r.upperBucketIdx
  apart : ranges.Pairwise fun r r' => r.upperBucketIdx < r'.lowerBucketIdx

/-- The buckets a range stands for, ascending. -/
def BucketRange.buckets (r : BucketRange) : List Nat :=
  List.range' r.lowerBucketIdx (r.upperBucketIdx + 1 - r.lowerBucketIdx)

/-- Written out one after the other, the ranges are the open range followed by the remaining buckets. -/
theorem rangesFrom_expand (start stop : Nat) (rest : List Nat) (hle : start ≤ stop) :
    (rangesFrom start stop rest).flatMap BucketRange.buckets = List.range' start (stop + 1 - start) ++ rest := by
  induction rest generalizing start stop with
  | nil => simp [rangesFrom, BucketRange.buckets]
  | cons b rest ih =>
    by_cases hnext : b = stop + 1
    · have hgrow : List.range' start (b + 1 - start) = List.range' start (stop + 1 - start) ++ [b] := by
        rw [show b + 1 - start = (stop + 1 - start) + 1 by omega, List.range'_concat]
        congr 2
        omega
      rw [rangesFrom, if_pos hnext, ih start b (by omega), hgrow, List.append_assoc, List.singleton_append]
    · rw [rangesFrom, if_neg hnext, List.flatMap_cons, ih b b (Nat.le_refl _), Nat.add_sub_cancel_left,
        List.range'_one, List.singleton_append]
      rfl

/-- Between two ranges at least one bucket is missing, so no two of them can be merged. -/
theorem rangesFrom_gap (start stop : Nat) (rest : List Nat) (hle : start ≤ stop)
    (hgt : ∀ b ∈ rest, stop < b) (hsorted : rest.Pairwise (· < ·)) :
    (rangesFrom start stop rest).Pairwise (fun r r' => r.upperBucketIdx + 1 < r'.lowerBucketIdx) := by
  induction rest generalizing start stop with
  | nil => simp [rangesFrom]
  | cons b rest ih =>
    obtain ⟨hfirst, hrest⟩ := pairwise_cons.mp hsorted
    have hb : stop < b := hgt b (by simp)
    by_cases hnext : b = stop + 1
    · rw [rangesFrom, if_pos hnext]
      exact ih start b (by omega) hfirst hrest
    · rw [rangesFrom, if_neg hnext]
      refine pairwise_cons.mpr ⟨fun r hr => ?_, ih b b (Nat.le_refl _) hfirst hrest⟩
      have hlow := ((rangesFrom_spec b b rest (Nat.le_refl _) hfirst hrest).2.1 r hr).1
      show stop + 1 < r.lowerBucketIdx
      omega

/-- **The ranges are the list, and as few as possible**: expanded they give the list back, and between two of
them a bucket is missing. -/
theorem toBucketRanges_expand {buckets : List Nat} {ranges : List BucketRange}
    (h : toBucketRanges buckets = .ok ranges) (hsorted : buckets.Pairwise (· < ·)) :
    ranges.flatMap BucketRange.buckets = buckets ∧
      ranges.Pairwise (fun r r' => r.upperBucketIdx + 1 < r'.lowerBucketIdx) := by
  cases buckets with
  | nil => nomatch h
  | cons b rest =>
    obtain ⟨hfirst, hrest⟩ := pairwise_cons.mp hsorted
    cases h
    refine ⟨?_, rangesFrom_gap b b rest (Nat.le_refl _) hfirst hrest⟩
    rw [rangesFrom_expand b b rest (Nat.le_refl _), Nat.add_sub_cancel_left, List.range'_one, List.singleton_append]

theorem toBucketRanges_ok (buckets : List Nat) (hne : buckets ≠ []) (hsorted : buckets.Pairwise (· < ·)) :
    ∃ ranges, toBucketRanges buckets = .ok ranges ∧ RangesOf buckets ranges := by
  cases buckets with
  | nil => exact absurd rfl hne
  | cons b rest =>
    obtain ⟨hfirst, hrest⟩ := pairwise_cons.mp hsorted
    obtain ⟨hcover, hbounds, hapart⟩ := rangesFrom_spec b b rest (Nat.le_refl _) hfirst hrest
    refine ⟨rangesFrom b b rest, rfl, fun c => ?_, fun r hr => (hbounds r hr).2, hapart⟩
    have hsingle : b ≤ c ∧ c ≤ b ↔ c = b := by omega
    rw [hcover c, hsingle, mem_cons]

/-! ## The plan -/

theorem mem_visit {V : Type} (m : GoMap WorkerID V) (w : WorkerID) (v : V) : (w, v) ∈ visit m ↔ m.get w = some v := by
  rw [← GoMap.mem_entries_iff, visit, mem_map]
  constructor
  · rintro ⟨⟨w', v'⟩, hmem, heq⟩
    obtain ⟨rfl, rfl⟩ := Prod.mk.inj heq
    exact hmem
  · exact fun hmem => ⟨⟨w, v⟩, hmem, rfl⟩

theorem visit_keys_nodup {V : Type} (m : GoMap WorkerID V) : ((visit m).map Prod.fst).Nodup := by
  rw [visit, List.map_map]
  exact AList.keys_nodup m

/-- The infos planned for a destination. -/
def plannedFor (plan : GoMap WorkerID (List MigrationInfo)) (dst : WorkerID) : List MigrationInfo :=
  (plan.get dst).getD []

/-- The plan after the (source, destination) pairs in `done`. -/
structure PlanInv (changes : OwnerChanges) (done : List (WorkerID × WorkerID))
    (plan : GoMap WorkerID (List MigrationInfo)) : Prop where
  mem_done : ∀ dst info, info ∈ plannedFor plan dst →
    (info.source, dst) ∈ done ∧ changes.moved info.source dst ≠ [] ∧
      toBucketRanges (changes.moved info.source dst) = .ok info.bucketRanges
  planned : ∀ src dst, (src, dst) ∈ done → ∃ info ∈ plannedFor plan dst, info.source = src
  sources_nodup : ∀ dst, ((plannedFor plan dst).map MigrationInfo.source).Nodup

variable {changes : OwnerChanges} {plan : GoMap WorkerID (List MigrationInfo)}

theorem PlanInv.add {done : List (WorkerID × WorkerID)} (h : PlanInv changes done plan) {src dst : WorkerID}
    {buckets : List Nat} (hnew : (src, dst) ∉ done) (hbuckets : changes.moved src dst = buckets) (hne : buckets ≠ [])
    (hsorted : buckets.Pairwise (· < ·)) :
    ∃ plan', addMigration src plan (dst, buckets) = .ok plan' ∧
      PlanInv changes (done ++ [(src, dst)]) plan' := by
  obtain ⟨ranges, hranges, -⟩ := toBucketRanges_ok buckets hne hsorted
  refine ⟨_, by rw [addMigration, hranges, ok_bind, pure_eq_ok], ?_⟩
  have hplanned : ∀ d, plannedFor (plan.set dst ((plan.get dst).getD [] ++ [⟨src, ranges⟩])) d
      = plannedFor plan d ++ if d = dst then [⟨src, ranges⟩] else [] := by
    intro d
    simp only [plannedFor, GoMap.get_set]
    by_cases hd : d = dst
    · simp [hd]
    · simp [hd]
  refine ⟨?_, ?_, ?_⟩
  · intro d info hinfo
    rw [hplanned, List.mem_append] at hinfo
    rcases hinfo with hold | hlast
    · obtain ⟨hin, hr⟩ := h.mem_done d info hold
      exact ⟨List.mem_append_left _ hin, hr⟩
    · split_ifs at hlast with hd
      · obtain rfl := List.mem_singleton.mp hlast
        rw [hd]
        exact ⟨by simp, hbuckets ▸ hne, hbuckets ▸ hranges⟩
      · simp at hlast
  · intro s d hin
    rw [hplanned]
    rcases List.mem_append.mp hin with hold | hlast
    · obtain ⟨info, hinfo, hsrc⟩ := h.planned s d hold
      exact ⟨info, List.mem_append_left _ hinfo, hsrc⟩
    · obtain ⟨rfl, rfl⟩ := Prod.mk.inj (List.mem_singleton.mp hlast)
      exact ⟨⟨s, ranges⟩, by simp, rfl⟩
  · intro d
    rw [hplanned]
    split_ifs with hd
    · subst hd
      rw [List.map_append]
      refine (h.sources_nodup d).append (List.nodup_singleton _) ?_
      intro s hs hs'
      obtain rfl : s = src := by simpa using hs'
      obtain ⟨info, hinfo, rfl⟩ := mem_map.mp hs
      exact hnew (h.mem_done d info hinfo).1
    · simpa using h.sources_nodup d

variable {old new : List WorkerID}

/-- **The plan of an exact report** asks every destination, once per source, for the buckets that move between
the two. -/
theorem generateMigrationPlan_ranges (h : ExactChanges old new changes) :
    ∃ plan, generateMigrationPlan changes = .ok plan ∧
      (∀ dst info, info ∈ plannedFor plan dst → changes.moved info.source dst ≠ [] ∧
        toBucketRanges (changes.moved info.source dst) = .ok info.bucketRanges) ∧
      (∀ src dst, changes.moved src dst ≠ [] → ∃ info ∈ plannedFor plan dst, info.source = src) ∧
      ∀ dst, ((plannedFor plan dst).map MigrationInfo.source).Nodup := by
  -- the pairs handled by the outer loop after the sources in `done`
  obtain ⟨plan, hrun, hinv⟩ : ∃ plan, generateMigrationPlan changes = .ok plan ∧
      PlanInv changes ((visit changes).flatMap fun s => (visit s.2).map fun d => (s.1, d.1)) plan := by
    refine forEach_total (fun (done : List (WorkerID × GoMap WorkerID (List Nat))) plan =>
      PlanInv changes (done.flatMap fun s => (visit s.2).map fun d => (s.1, d.1)) plan) ?_ ?_
    · refine ⟨?_, by simp, fun dst => List.nodup_nil⟩
      intro dst info hinfo
      simp [plannedFor] at hinfo
    · rintro done ⟨src, dests⟩ rest plan hsplit hplan
      have hsrc : changes.get src = some dests := (mem_visit changes src dests).mp (by rw [hsplit]; simp)
      have hsrcNew : src ∉ done.map Prod.fst := notMem_map_done (visit_keys_nodup changes) hsplit
      rw [List.flatMap_append]
      simp only [List.flatMap_cons, List.flatMap_nil, List.append_nil]
      refine forEach_total (fun (doneDests : List (WorkerID × List Nat)) plan => PlanInv changes
        ((done.flatMap fun s => (visit s.2).map fun d => (s.1, d.1)) ++ doneDests.map fun d => (src, d.1))
        plan) (by simpa using hplan) ?_
      rintro doneDests ⟨dst, buckets⟩ restDests plan hsplitDests hplanDests
      have hdst : dests.get dst = some buckets :=
        (mem_visit dests dst buckets).mp (by rw [hsplitDests]; simp)
      have hmoved : changes.moved src dst = buckets := by simp [OwnerChanges.moved, hsrc, hdst]
      have hnew : (src, dst) ∉ (done.flatMap fun s => (visit s.2).map fun d => (s.1, d.1))
          ++ doneDests.map fun d => (src, d.1) := by
        rw [List.mem_append, not_or]
        constructor
        · intro hmem
          obtain ⟨s, hs, hpair⟩ := List.mem_flatMap.mp hmem
          obtain ⟨d, -, heq⟩ := mem_map.mp hpair
          exact hsrcNew (mem_map.mpr ⟨s, hs, (Prod.mk.inj heq).1⟩)
        · intro hmem
          obtain ⟨d, hd, heq⟩ := mem_map.mp hmem
          exact notMem_map_done (visit_keys_nodup dests) hsplitDests (mem_map.mpr ⟨d, hd, (Prod.mk.inj heq).2⟩)
      obtain ⟨plan', hadd, hplan'⟩ := hplanDests.add hnew hmoved (h.noEmpty src dests hsrc dst buckets hdst)
        (hmoved ▸ h.sorted src dst)
      refine ⟨plan', hadd, ?_⟩
      rw [List.map_append, ← List.append_assoc]
      exact hplan'
  refine ⟨plan, hrun, fun dst info hinfo => (hinv.mem_done dst info hinfo).2, ?_, hinv.sources_nodup⟩
  intro src dst hne
  refine hinv.planned src dst (List.mem_flatMap.mpr ?_)
  cases hsrc : changes.get src with
  | none => simp [OwnerChanges.moved, hsrc] at hne
  | some dests =>
    cases hdst : dests.get dst with
    | none => simp [OwnerChanges.moved, hsrc, hdst] at hne
    | some buckets =>
      exact ⟨(src, dests), (mem_visit changes src dests).mpr hsrc,
        mem_map.mpr ⟨(dst, buckets), (mem_visit dests dst buckets).mpr hdst, rfl⟩⟩

theorem generateMigrationPlan_ok (h : ExactChanges old new changes) :
    ∃ plan, generateMigrationPlan changes = .ok plan ∧
      (∀ dst info, info ∈ plannedFor plan dst → changes.moved info.source dst ≠ [] ∧
        RangesOf (changes.moved info.source dst) info.bucketRanges) ∧
      (∀ src dst, changes.moved src dst ≠ [] → ∃ info ∈ plannedFor plan dst, info.source = src) ∧
      ∀ dst, ((plannedFor plan dst).map MigrationInfo.source).Nodup := by
  obtain ⟨plan, hrun, hranges, hplanned, hnodup⟩ := generateMigrationPlan_ranges h
  refine ⟨plan, hrun, fun dst info hinfo => ?_, hplanned, hnodup⟩
  obtain ⟨hne, hok⟩ := hranges dst info hinfo
  obtain ⟨ranges, hok', hspec⟩ := toBucketRanges_ok _ hne (h.sorted info.source dst)
  obtain rfl := Outcome.ok.inj (hok.symm.trans hok')
  exact ⟨hne, hspec⟩

/-- A plan that is the given owner changes: every destination is told each of its sources once, with ranges that
expand to exactly the buckets moving between the two and that leave a gap between any two of them. -/
structure PlanOf (changes : OwnerChanges) (plan : GoMap WorkerID (List MigrationInfo)) : Prop where
  sources : ∀ src dst, (∃ info ∈ plannedFor plan dst, info.source = src) ↔ changes.moved src dst ≠ []
  once : ∀ dst, ((plannedFor plan dst).map MigrationInfo.source).Nodup
  expand : ∀ dst, ∀ info ∈ plannedFor plan dst,
    info.bucketRanges.flatMap BucketRange.buckets = changes.moved info.source dst
  le : ∀ dst, ∀ info ∈ plannedFor plan dst, ∀ r ∈ info.bucketRanges, r.lowerBucketIdx ≤ r.upperBucketIdx
  gaps : ∀ dst, ∀ info ∈ plannedFor plan dst,
    info.bucketRanges.Pairwise fun r r' => r.upperBucketIdx + 1 < r'.lowerBucketIdx

theorem generateMigrationPlan_planOf (h : ExactChanges old new changes) :
    ∃ plan, generateMigrationPlan changes = .ok plan ∧ PlanOf changes plan := by
  obtain ⟨plan, hrun, hranges, hplanned, hnodup⟩ := generateMigrationPlan_ranges h
  refine ⟨plan, hrun, fun src dst => ⟨?_, hplanned src dst⟩, hnodup, ?_, ?_, ?_⟩
  · rintro ⟨info, hinfo, rfl⟩
    exact (hranges dst info hinfo).1
  · intro dst info hinfo
    exact (toBucketRanges_expand (hranges dst info hinfo).2 (h.sorted _ _)).1
  · intro dst info hinfo
    obtain ⟨hne, hok⟩ := hranges dst info hinfo
    obtain ⟨ranges, hok', hspec⟩ := toBucketRanges_ok _ hne (h.sorted info.source dst)
    obtain rfl := Outcome.ok.inj (hok.symm.trans hok')
    exact hspec.le
  · intro dst info hinfo
    exact (toBucketRanges_expand (hranges dst info hinfo).2 (h.sorted _ _)).2

/-- Two exact reports of the same change name the same buckets, so a plan of one is a plan of the other. -/
theorem PlanOf.congr {changes' : OwnerChanges} (h : ExactChanges old new changes) (h' : ExactChanges old new changes')
    (hplan : PlanOf changes' plan) : PlanOf changes plan := by
  have hsame : ∀ src dst, changes'.moved src dst = changes.moved src dst := by
    intro src dst
    have hperm : (changes'.moved src dst).Perm (changes.moved src dst) := by
      refine (List.perm_ext_iff_of_nodup (h'.sorted src dst).nodup (h.sorted src dst).nodup).mpr fun b => ?_
      rw [h'.moved_iff, h.moved_iff]
    have hasymm : ∀ a b : Nat, a < b → b < a → a = b := by omega
    exact hperm.eq_of_pairwise (fun a b _ _ => hasymm a b) (h'.sorted src dst) (h.sorted src dst)
  refine ⟨fun src dst => ?_, hplan.once, fun dst info hinfo => ?_, hplan.le, hplan.gaps⟩
  · rw [hplan.sources, hsame]
  · rw [hplan.expand dst info hinfo, hsame]

theorem generateMigrationPlan_get_ne_nil (h : generateMigrationPlan changes = .ok plan) (dst : WorkerID) :
    plan.get dst ≠ some [] := by
  refine forEach_partial (fun _ (plan : GoMap WorkerID (List MigrationInfo)) => ∀ dst, plan.get dst ≠ some [])
    (by simp) ?_ h dst
  intro done src rest plan plan' hsplit hinv hinner
  refine forEach_partial (fun _ (plan : GoMap WorkerID (List MigrationInfo)) => ∀ dst, plan.get dst ≠ some [])
    hinv ?_ hinner
  intro done' dest rest' plan₁ plan₂ hsplit' hinv' hadd dst'
  obtain ⟨ranges, -, hset⟩ := bind_eq_ok.mp hadd
  cases hset
  rw [GoMap.get_set]
  split_ifs
  · simp
  · exact hinv' dst'

end Partition
end Koala
