import Koala.Window.SlidingWindow

/-!
# Runs of the sliding window operator

`SlidingWindow.Inv` ties the index and the state service to the events so far: the state service holds the live
panes, the index the panes of the windows that are not fired.  `SlidingWindow.run_spec` says what a whole run
emits and leaves behind, for aggregators that get the fold of a window from those of its panes.
-/

namespace Koala
namespace Window

open Lib Lib.Outcome State StateClient
open SlidingWindowIndex (addPane remove)

variable {K R OUT : Type} [DecidableEq K]

namespace SlidingWindow

/-! ## Invariant -/

section Invariant

variable {cfg : Config K R OUT} {fuel : Nat} {duration slide : Int64} {A : Type} {v : View cfg.aggregator A}

/-- No watermark has reached the end of the window. -/
def Unfired (duration : Int64) (events : List (Event K R)) (w : Int64) : Prop :=
  ∀ wm ∈ watermarks events, wm.toInt < w.toInt + duration.toInt

variable (cfg duration slide v) in
/-- The state service holds the live panes, the index the panes of the windows that are not fired. -/
def Inv (events : List (Event K R)) (sw : SlidingWindow K) : Prop :=
  ∃ panes, StoreRep v sw.backend panes ∧ Lists duration slide (Unfired duration events) sw.index panes.dom ∧
    Tracks cfg (getPaneStartTime cfg slide) duration v events panes

theorem inv_new : Inv cfg duration slide v [] (new : SlidingWindow K) := by
  refine ⟨fun _ => none, ⟨by simp, fun _ _ => rfl, fun _ _ => rfl⟩, ⟨fun x => ?_, fun x => ?_, fun x y => ?_⟩,
    Tracks.nil⟩
  · simp [new]
  · simp [new, SlidingWindowIndex.panesOf]
  · simp [new, SlidingWindowIndex.panesOf, Panes.dom]

/-- The end of the pane of a record does not overflow. -/
def RecordsInRange (cfg : Config K R OUT) (slide : Int64) : Event K R → Prop
  | .batch rs => ∀ r ∈ rs, (cfg.getTimestamp r).toInt + slide.toInt < 2 ^ 63
  | .watermark _ _ => True

variable {past : List (Event K R)} {sw : SlidingWindow K}

theorem Inv.batch (h : Slides duration slide) (hfuel : duration.toInt / slide.toInt ≤ fuel)
    (hdur : Durable v cfg.allowIncremental) {rs : List R} (hinv : Inv cfg duration slide v past sw)
    (hadm : Admissible cfg past (.batch rs)) (hrange : RecordsInRange cfg slide (.batch rs : Event K R)) :
    ∃ sw', step cfg fuel duration slide sw (.batch rs) = .ok (sw', []) ∧
      Inv cfg duration slide v (past ++ [.batch rs]) sw' := by
  obtain ⟨panes, hstore, hlists, htracks⟩ := hinv
  have hmaintains : ∀ r ∈ rs, Maintains (addPane fuel duration slide)
      (Lists duration slide (Unfired duration past)) (cfg.getKey r, getPaneStartTime cfg slide r) := by
    intro r hr
    obtain ⟨hnonneg, hwm⟩ := hadm.2 r hr
    obtain ⟨-, hle, hlt⟩ := startTime_spec (.inl hnonneg) h.slide_pos
    have hr' := hrange r hr
    refine lists_addPane h hfuel (startTime_nonneg hnonneg h.slide_pos) ?_ fun w hcovers wm hmem => ?_
    · change (startTime (cfg.getTimestamp r) slide).toInt + _ < _
      omega
    · have hend := hcovers.add_slide_le h
      have hwm' := Int64.le_iff_toInt_le.mp (hwm wm hmem)
      change (startTime (cfg.getTimestamp r) slide).toInt + _ ≤ _ at hend
      omega
  obtain ⟨b', index', hbatch, hstore', hlists'⟩ := processBatch_spec hdur hstore hadm.1 hmaintains hlists
  refine ⟨⟨b', index'⟩, ?_, _, hstore', ?_, htracks.batch hadm fun r hr => ?_⟩
  · simp only [step, processBatch, hbatch, ok_bind]
  · have hsame : Unfired duration (past ++ [(.batch rs : Event K R)]) = Unfired duration past := by
      funext w
      simp [Unfired]
    rw [hsame]
    exact hlists'
  · have hlt := (startTime_spec (.inl (hadm.2 r hr).1) h.slide_pos).2.2
    have hle := h.slide_le
    change _ < (startTime (cfg.getTimestamp r) slide).toInt + _
    omega

/-! ## Firing -/

section Firing

variable {cache : Cache cfg.sch} {value : K × Int64 → cfg.type.State} {wm : Int64}

/-- The panes to remove after another pane. -/
def noteRemoval (duration wm : Int64) (panesToRemove : List (K × Int64)) (pane : K × Int64) : List (K × Int64) :=
  if pane.2 ≤ wm - duration then panesToRemove.insert pane else panesToRemove

theorem mem_foldl_noteRemoval (ps panesToRemove : List (K × Int64)) (y : K × Int64) :
    y ∈ ps.foldl (noteRemoval duration wm) panesToRemove ↔
      y ∈ panesToRemove ∨ (y ∈ ps ∧ y.2 ≤ wm - duration) := by
  induction ps generalizing panesToRemove with
  | nil => simp
  | cons p ps ih =>
    rw [List.foldl_cons, ih, noteRemoval]
    split_ifs with hle
    · rw [List.mem_insert_iff, List.mem_cons]
      constructor
      · rintro ((rfl | h) | h)
        · exact .inr ⟨.inl rfl, hle⟩
        · exact .inl h
        · exact .inr ⟨.inr h.1, h.2⟩
      · rintro (h | ⟨rfl | h, hle'⟩)
        · exact .inl (.inr h)
        · exact .inl (.inl rfl)
        · exact .inr ⟨h, hle'⟩
    · rw [List.mem_cons]
      constructor
      · rintro (h | h)
        · exact .inl h
        · exact .inr ⟨.inr h.1, h.2⟩
      · rintro (h | ⟨rfl | h, hle'⟩)
        · exact .inl h
        · exact absurd hle' hle
        · exact .inr ⟨h, hle'⟩

theorem mergePanes_spec {ps : List (K × Int64)} (hcache : ∀ y ∈ ps, cache (cfg.slot y) = some (value y))
    (s : cfg.type.State) (panesToRemove : List (K × Int64)) :
    forEach ps (mergePane cfg duration cache wm) (s, panesToRemove) =
      .ok (ps.foldl (fun s y => cfg.aggregator.mergeFunc s (value y)) s,
        ps.foldl (noteRemoval duration wm) panesToRemove) := by
  induction ps generalizing s panesToRemove with
  | nil => rfl
  | cons p ps ih =>
    obtain ⟨hp, hps⟩ := List.forall_mem_cons.mp hcache
    rw [forEach_cons, mergePane, hp]
    exact ih hps _ _

omit [DecidableEq K] in
theorem acc_foldl_merge (ps : List (K × Int64)) (s : cfg.type.State) :
    v.acc (ps.foldl (fun s y => cfg.aggregator.mergeFunc s (value y)) s) =
      ps.foldl (fun a y => v.merge a (v.acc (value y))) (v.acc s) := by
  induction ps generalizing s with
  | nil => rfl
  | cons p ps ih => rw [List.foldl_cons, List.foldl_cons, ih, v.acc_merge]

theorem fires_spec {index₀ : SlidingWindowIndex K} {xs : List (K × Int64)}
    (hcache : ∀ x ∈ xs, ∀ y ∈ index₀.panesOf x, cache (cfg.slot y) = some (value y)) :
    forEach (xs.map fun x => ⟨x.1, x.2, index₀.panesOf x⟩) (fire cfg duration cache wm) ⟨index₀, [], []⟩ =
      .ok ⟨xs.foldl remove index₀, (xs.flatMap index₀.panesOf).foldl (noteRemoval duration wm) [],
        xs.map fun x => (x.2 + duration, cfg.aggregator.outFunc
          ((index₀.panesOf x).foldl (fun s y => cfg.aggregator.mergeFunc s (value y)) cfg.aggregator.newFunc))⟩ := by
  suffices h : ∀ c : Firing K OUT,
      forEach (xs.map fun x => ⟨x.1, x.2, index₀.panesOf x⟩) (fire cfg duration cache wm) c =
        .ok ⟨xs.foldl remove c.index,
          (xs.flatMap index₀.panesOf).foldl (noteRemoval duration wm) c.panesToRemove,
          c.out ++ xs.map fun x => (x.2 + duration, cfg.aggregator.outFunc
            ((index₀.panesOf x).foldl (fun s y => cfg.aggregator.mergeFunc s (value y)) cfg.aggregator.newFunc))⟩ by
    rw [h]
    rfl
  induction xs with
  | nil =>
    intro c
    simp
  | cons x xs ih =>
    intro c
    obtain ⟨hx, hxs⟩ := List.forall_mem_cons.mp hcache
    rw [List.map_cons, forEach_cons, fire, mergePanes_spec hx, ok_bind, ok_bind, ih hxs]
    simp [List.foldl_append]

end Firing

variable (cfg duration slide) in
/-- The panes of a window that have records. -/
def HasPane (events : List (Event K R)) (x y : K × Int64) : Prop :=
  y.1 = x.1 ∧ cfg.recordsAt (getPaneStartTime cfg slide) (records events) y ≠ [] ∧ Covers duration slide x.2 y.2

variable {index : SlidingWindowIndex K} {panes : Panes K A}

theorem mem_panesOf_iff (hlists : Lists duration slide (Unfired duration past) index panes.dom)
    (htracks : Tracks cfg (getPaneStartTime cfg slide) duration v past panes) (x y : K × Int64) :
    y ∈ index.panesOf x ↔ HasPane cfg duration slide past x y ∧ Unfired duration past x.2 := by
  rw [hlists.mem, htracks.dom_iff, Live, HasPane]
  constructor
  · rintro ⟨h1, ⟨h2, -⟩, h3, h4⟩
    exact ⟨⟨h1, h2, h3⟩, h4⟩
  · rintro ⟨⟨h1, h2, h3⟩, h4⟩
    refine ⟨h1, ⟨h2, fun wm hwm => ?_⟩, h3, h4⟩
    have hlt := h4 wm hwm
    have hle := h3.2.1
    omega

/-- The windows a watermark fires: those it reaches that have an existing pane. -/
theorem mem_keys_iff {unfired : Int64 → Prop} {dom : K × Int64 → Prop}
    (hlists : Lists duration slide unfired index dom) (wm : Int64) (x : K × Int64) :
    x ∈ (NestedMap.entriesWhere index fun windowStartTime => windowStartTime ≤ wm - duration).map
        (fun e => (e.2.1, e.1)) ↔ x.2 ≤ wm - duration ∧ ∃ y, y ∈ index.panesOf x := by
  rw [List.mem_map]
  constructor
  · rintro ⟨⟨w, k, ps⟩, hmem, rfl⟩
    obtain ⟨hle, hget⟩ := NestedMap.mem_entriesWhere.mp hmem
    refine ⟨of_decide_eq_true hle, ?_⟩
    have hne : ps ≠ [] := by
      rintro rfl
      exact hlists.nonempty (k, w) hget
    obtain ⟨y, hy⟩ := List.exists_mem_of_ne_nil ps hne
    exact ⟨y, by rw [SlidingWindowIndex.panesOf, hget]; exact hy⟩
  · rintro ⟨hle, y, hy⟩
    rw [SlidingWindowIndex.panesOf] at hy
    cases hget : NestedMap.get index x.2 x.1 with
    | none => simp [hget] at hy
    | some ps => exact ⟨(x.2, x.1, ps), NestedMap.mem_entriesWhere.mpr ⟨decide_eq_true hle, hget⟩, rfl⟩

variable {wm : Int64} {xs : List (K × Int64)}

theorem Lists.watermark (hpos : 0 < duration.toInt) (hrange : -2 ^ 63 ≤ wm.toInt - duration.toInt)
    (hlists : Lists duration slide (Unfired duration past) index panes.dom)
    (hxs : ∀ x, x ∈ xs ↔ x.2 ≤ wm - duration ∧ ∃ y, y ∈ index.panesOf x) {panes' : Panes K A}
    (hkept : ∀ y : K × Int64, wm.toInt < y.2.toInt + duration.toInt → panes' y = panes y)
    (order : Reordering (K × Int64)) :
    Lists duration slide (Unfired duration (past ++ [(.watermark wm order : Event K R)]))
      (xs.foldl remove index) panes'.dom := by
  have hget : ∀ x : K × Int64, NestedMap.get (xs.foldl remove index) x.2 x.1 =
      if x ∈ xs then none else NestedMap.get index x.2 x.1 := NestedMap.get_foldl_delete xs index
  have hpanes : ∀ x, (xs.foldl remove index).panesOf x =
      if x ∈ xs then [] else index.panesOf x := by
    intro x
    rw [SlidingWindowIndex.panesOf, hget]
    split_ifs <;> rfl
  have hunfired : ∀ w, Unfired duration (past ++ [(.watermark wm order : Event K R)]) w ↔
      Unfired duration past w ∧ wm.toInt < w.toInt + duration.toInt := by
    intro w
    simp only [Unfired, watermarks_append, watermarks_watermark, List.mem_append, List.mem_singleton, or_imp,
      forall_and, forall_eq]
  refine ⟨fun x => ?_, fun x => ?_, fun x y => ?_⟩
  · rw [hget]
    split_ifs
    · simp
    · exact hlists.nonempty x
  · rw [hpanes]
    split_ifs
    · exact List.nodup_nil
    · exact hlists.nodup x
  · rw [hpanes, hunfired]
    split_ifs with hx
    · have hle := (le_sub_iff hpos hrange).mp ((hxs x).mp hx).1
      simp only [List.not_mem_nil, false_iff]
      rintro ⟨-, -, -, -, hlt⟩
      omega
    · rw [hlists.mem]
      have hdom : Covers duration slide x.2 y.2 → wm.toInt < x.2.toInt + duration.toInt →
          (panes'.dom y ↔ panes.dom y) := by
        intro hcovers hlt
        have hle := hcovers.2.1
        rw [Panes.dom, Panes.dom, hkept y (by omega)]
      constructor
      · rintro ⟨h1, h2, h3, h4⟩
        have hlt : wm.toInt < x.2.toInt + duration.toInt := by
          by_contra hge
          exact hx ((hxs x).mpr ⟨(le_sub_iff hpos hrange).mpr (by omega), y, (hlists.mem x y).mpr ⟨h1, h2, h3, h4⟩⟩)
        exact ⟨h1, (hdom h3 hlt).mpr h2, h3, h4, hlt⟩
      · rintro ⟨h1, h2, h3, h4, hlt⟩
        exact ⟨h1, (hdom h3 hlt).mp h2, h3, h4⟩

variable (cfg duration slide v) in
/-- Merging the folds of the panes of a window gives the fold of its records. -/
def MergesPanes : Prop :=
  ∀ events x ps, Input cfg events → slide.toInt ∣ x.2.toInt → ps.Nodup → ps ≠ [] →
    (∀ y, y ∈ ps ↔ HasPane cfg duration slide events x y) →
    ps.foldl (fun a y => v.merge a (v.fold (cfg.recordsAt (getPaneStartTime cfg slide) (records events) y))) v.new =
      v.fold (windowRecords cfg duration (records events) x)

variable (h : Slides duration slide)
include h

/-- A pane is removed exactly when the watermark reaches the end of its last window. -/
theorem mem_panesToRemove_iff (hrange : -2 ^ 63 ≤ wm.toInt - duration.toInt)
    (hlists : Lists duration slide (Unfired duration past) index panes.dom)
    (htracks : Tracks cfg (getPaneStartTime cfg slide) duration v past panes)
    (hxs : ∀ x, x ∈ xs ↔ x.2 ≤ wm - duration ∧ ∃ y, y ∈ index.panesOf x) (y : K × Int64) :
    y ∈ (xs.flatMap index.panesOf).foldl (noteRemoval duration wm) [] ↔
      panes.dom y ∧ y.2.toInt + duration.toInt ≤ wm.toInt := by
  rw [mem_foldl_noteRemoval, List.mem_flatMap, le_sub_iff h.duration_pos hrange]
  constructor
  · rintro (hnil | ⟨⟨x, -, hy⟩, hle⟩)
    · cases hnil
    · exact ⟨((hlists.mem x y).mp hy).2.1, hle⟩
  · rintro ⟨hdom, hle⟩
    -- the last window of the pane starts with it
    have hunfired : Unfired duration past y.2 := ((htracks.dom_iff y).mp hdom).2
    have hy : y ∈ index.panesOf y := (hlists.mem y y).mpr ⟨rfl, hdom, Covers.refl h y.2, hunfired⟩
    exact .inr ⟨⟨y, (hxs y).mpr ⟨(le_sub_iff h.duration_pos hrange).mpr hle, y, hy⟩, hy⟩, hle⟩

/-- A watermark fires the windows it has reached, merging their panes, and closes the panes no other window
needs. -/
theorem Inv.watermark (hdur : Durable v cfg.allowIncremental)
    {order : Reordering (K × Int64)} (hinv : Inv cfg duration slide v past sw)
    (hrange : -2 ^ 63 ≤ wm.toInt - duration.toInt) :
    ∃ sw', ∃ fired : List (K × Int64), ∃ panesOf : K × Int64 → List (K × Int64),
      step cfg fuel duration slide sw (.watermark wm order) = .ok (sw', fired.map fun x =>
        (x.2 + duration, v.out ((panesOf x).foldl
          (fun a y => v.merge a (v.fold (cfg.recordsAt (getPaneStartTime cfg slide) (records past) y))) v.new))) ∧
      Inv cfg duration slide v (past ++ [.watermark wm order]) sw' ∧ fired.Nodup ∧
      (∀ x ∈ fired, (panesOf x).Nodup ∧ ∀ y, y ∈ panesOf x ↔ HasPane cfg duration slide past x y) ∧
      ∀ x, x ∈ fired ↔ (∃ y, HasPane cfg duration slide past x y) ∧ Unfired duration past x.2 ∧
        x.2.toInt + duration.toInt ≤ wm.toInt := by
  obtain ⟨panes, hstore, hlists, htracks⟩ := hinv
  set keys := (NestedMap.entriesWhere sw.index fun windowStartTime => windowStartTime ≤ wm - duration).map
    fun e => (e.2.1, e.1) with hkeys
  have hperm := order.perm keys
  set xs := order.apply keys with hxsdef
  have hxs : ∀ x, x ∈ xs ↔ x.2 ≤ wm - duration ∧ ∃ y, y ∈ sw.index.panesOf x := fun x => by
    rw [hperm.mem_iff, mem_keys_iff hlists]
  have hnodup : xs.Nodup := by
    refine hperm.nodup_iff.mpr ?_
    have hpairs := NestedMap.entriesWhere_keys_nodup sw.index fun windowStartTime => windowStartTime ≤ wm - duration
    have hswap := hpairs.map Prod.swap_injective
    rwa [List.map_map] at hswap
  have hpanes := mem_panesOf_iff hlists htracks
  have hfired : ∀ x, x ∈ xs ↔ (∃ y, HasPane cfg duration slide past x y) ∧ Unfired duration past x.2 ∧
      x.2.toInt + duration.toInt ≤ wm.toInt := by
    intro x
    rw [hxs, le_sub_iff h.duration_pos hrange]
    simp only [hpanes, exists_and_right]
    tauto
  have hmem : ∀ x ∈ xs, (sw.index.panesOf x).Nodup ∧
      ∀ y, y ∈ sw.index.panesOf x ↔ HasPane cfg duration slide past x y := fun x hx =>
    ⟨hlists.nodup x, fun y => by rw [hpanes]; exact and_iff_left ((hfired x).mp hx).2.1⟩
  have hremove := mem_panesToRemove_iff h hrange hlists htracks hxs
  set removed := (xs.flatMap sw.index.panesOf).foldl (noteRemoval duration wm) [] with hremoved
  -- the panes that are left
  have hkept : ∀ y : K × Int64, wm.toInt < y.2.toInt + duration.toInt →
      (if y ∈ removed then none else panes y) = panes y := by
    intro y hlt
    refine if_neg fun hin => ?_
    have := ((hremove y).mp hin).2
    omega
  have hclosed : Tracks cfg (getPaneStartTime cfg slide) duration v (past ++ [.watermark wm order])
      fun y => if y ∈ removed then none else panes y := by
    refine htracks.watermark hkept fun y hle => ?_
    split_ifs with hin
    · rfl
    · exact htracks.gone y fun hlive => hin ((hremove y).mpr ⟨(htracks.dom_iff y).mpr hlive, hle⟩)
  have hlists' := hlists.watermark h.duration_pos hrange hxs hkept order
  have hwindows : (xs.map fun x => (⟨x.1, x.2, sw.index.panesOf x⟩ : WindowsToBeFired K)).flatMap (·.panes) =
      xs.flatMap sw.index.panesOf := by
    rw [List.flatMap_map]
  simp only [step, processProgressedWatermark, SlidingWindowIndex.getWindowsToBeFired, ← hkeys, ← hxsdef,
    List.isEmpty_iff, List.map_eq_nil_iff, hwindows]
  by_cases hnil : xs = []
  · have hnone : removed = [] := by rw [hremoved, hnil]; rfl
    rw [if_pos hnil]
    refine ⟨sw, [], sw.index.panesOf, rfl, ⟨panes, hstore, ?_, ?_⟩, List.nodup_nil, by simp, fun x => ?_⟩
    · simpa [hnone, hnil] using hlists'
    · simpa [hnone] using hclosed
    · rw [← hfired, hnil]
  · have hsome : (xs.flatMap sw.index.panesOf).dedup ≠ [] := by
      obtain ⟨x, hx⟩ := List.exists_mem_of_ne_nil xs hnil
      obtain ⟨y, hy⟩ := ((hxs x).mp hx).2
      exact List.ne_nil_of_mem (List.mem_dedup.mpr (List.mem_flatMap.mpr ⟨x, hx, hy⟩))
    obtain ⟨cache, value, hfetch, hcache, hvalue⟩ := fetchWindowState_spec hdur hstore hsome
    have hcached : ∀ x ∈ xs, ∀ y ∈ sw.index.panesOf x, cache (cfg.slot y) = some (value y) := fun x hx y hy =>
      hcache y (List.mem_dedup.mpr (List.mem_flatMap.mpr ⟨x, hx, hy⟩))
    rw [if_neg hnil, check_eq_ok hsome, ok_bind, hfetch, ok_bind, fires_spec hcached, ok_bind, ← hremoved]
    dsimp only
    have hout : (xs.map fun x => (x.2 + duration, cfg.aggregator.outFunc ((sw.index.panesOf x).foldl
          (fun s y => cfg.aggregator.mergeFunc s (value y)) cfg.aggregator.newFunc))) =
        xs.map fun x => (x.2 + duration, v.out ((sw.index.panesOf x).foldl (fun a y => v.merge a
          (v.fold (cfg.recordsAt (getPaneStartTime cfg slide) (records past) y))) v.new)) := by
      refine List.map_congr_left fun x hx => ?_
      rw [v.out_eq, acc_foldl_merge]
      refine congrArg (fun a => (x.2 + duration, v.out a)) (List.foldl_ext _ _ _ fun a y hy => ?_)
      have hlive := (htracks.dom_iff y).mp ((hlists.mem x y).mp hy).2.1
      rw [hstore.fetched_acc (htracks.live y hlive) (hvalue y)]
    rw [hout]
    split_ifs with hnone
    · refine ⟨⟨sw.backend, xs.foldl remove sw.index⟩, xs, sw.index.panesOf, rfl,
        ⟨_, ?_, hlists', hclosed⟩, hnodup, hmem, hfired⟩
      simpa [hnone] using hstore
    · have hfetched : ∀ y ∈ removed, y ∈ (xs.flatMap sw.index.panesOf).dedup := by
        intro y hy
        rw [hremoved, mem_foldl_noteRemoval] at hy
        exact List.mem_dedup.mpr (hy.resolve_left (by simp)).1
      have hdeleted : ∀ y, y ∈ (xs.flatMap sw.index.panesOf).dedup.dedup.filter (· ∈ removed) ↔ y ∈ removed := by
        intro y
        rw [List.mem_filter, List.mem_dedup, decide_eq_true_eq]
        exact and_iff_right_of_imp (hfetched y)
      rw [deleteManyAndFlush, check_eq_ok (not_not.mpr hfetched), ok_bind, ok_bind]
      refine ⟨⟨_, xs.foldl remove sw.index⟩, xs, sw.index.panesOf, rfl,
        ⟨_, ?_, hlists', hclosed⟩, hnodup, hmem, hfired⟩
      simpa only [hdeleted] using hstore.deleteMany
        ((xs.flatMap sw.index.panesOf).dedup.dedup.filter (· ∈ removed))

/-! ## Runs -/

theorem covers_startTime_iff {timestamp w : Int64}
    (hfloor : 0 ≤ timestamp ∨ slide.toInt ∣ timestamp.toInt) (hw : slide.toInt ∣ w.toInt) : Covers duration slide w (startTime timestamp slide) ↔
      w.toInt ≤ timestamp.toInt ∧ timestamp.toInt < w.toInt + duration.toInt := by
  obtain ⟨hdvd, hle, hlt⟩ := startTime_spec hfloor h.slide_pos
  have hslide := h.slide_pos
  constructor
  · intro hcovers
    have hend := hcovers.add_slide_le h
    have hlow := hcovers.2.1
    omega
  · rintro ⟨hlow, hhigh⟩
    refine ⟨Int.dvd_sub hdvd hw, ?_, by omega⟩
    by_contra hgt
    have hgap := Int.le_of_dvd (by omega) (Int.dvd_sub hw hdvd)
    omega

variable {events : List (Event K R)}

theorem windowRecords_eq (hinput : Input cfg events) {x : K × Int64}
    (hx : slide.toInt ∣ x.2.toInt) {ps : List (K × Int64)} (hps : ∀ y, y ∈ ps ↔ HasPane cfg duration slide events x y) :
    windowRecords cfg duration (records events) x =
      (records events).filter fun r => (cfg.getKey r, getPaneStartTime cfg slide r) ∈ ps := by
  refine List.filter_congr fun r hr => Bool.decide_congr ?_
  rw [hps, HasPane, ← covers_startTime_iff h (.inl (hinput.timestamp_nonneg hr)) hx]
  have hmem : cfg.recordsAt (getPaneStartTime cfg slide) (records events)
      (cfg.getKey r, getPaneStartTime cfg slide r) ≠ [] :=
    List.ne_nil_of_mem (List.mem_filter.mpr ⟨hr, decide_eq_true rfl⟩)
  constructor
  · rintro ⟨hkey, hcovers⟩
    exact ⟨hkey, hmem, hcovers⟩
  · rintro ⟨hkey, -, hcovers⟩
    exact ⟨hkey, hcovers⟩

theorem exists_hasPane_iff (hinput : Input cfg events) (x : K × Int64) :
    (∃ y, HasPane cfg duration slide events x y) ↔
      slide.toInt ∣ x.2.toInt ∧ windowRecords cfg duration (records events) x ≠ [] := by
  constructor
  · rintro ⟨y, hkey, hne, hcovers⟩
    have hdvd : slide.toInt ∣ y.2.toInt := hinput.dvd_of_recordsAt h.slide_pos hne
    have hx : slide.toInt ∣ x.2.toInt := by
      have := Int.dvd_sub hdvd hcovers.1
      rwa [sub_sub_cancel] at this
    refine ⟨hx, ?_⟩
    obtain ⟨r, hr⟩ := List.exists_mem_of_ne_nil _ hne
    obtain ⟨hr, hat⟩ := List.mem_filter.mp hr
    have hpane := of_decide_eq_true hat
    refine List.ne_nil_of_mem (List.mem_filter.mpr ⟨hr, decide_eq_true ⟨?_, ?_⟩⟩)
    · exact hkey ▸ congrArg Prod.fst hpane
    · rw [← covers_startTime_iff h (.inl (hinput.timestamp_nonneg hr)) hx]
      have hstart : startTime (cfg.getTimestamp r) slide = y.2 := congrArg Prod.snd hpane
      rwa [hstart]
  · rintro ⟨hx, hne⟩
    obtain ⟨r, hr⟩ := List.exists_mem_of_ne_nil _ hne
    obtain ⟨hr, hin⟩ := List.mem_filter.mp hr
    obtain ⟨hkey, hwindow⟩ := of_decide_eq_true hin
    refine ⟨(cfg.getKey r, getPaneStartTime cfg slide r), hkey,
      List.ne_nil_of_mem (List.mem_filter.mpr ⟨hr, decide_eq_true rfl⟩), ?_⟩
    exact (covers_startTime_iff h (.inl (hinput.timestamp_nonneg hr)) hx).mpr hwindow

/-- What one event does: it goes through, keeps the invariant and emits what is due. -/
theorem step_spec (hfuel : duration.toInt / slide.toInt ≤ fuel)
    (hdur : Durable v cfg.allowIncremental) (hmerge : MergesPanes cfg duration slide v) {e : Event K R}
    (hinput : Input cfg past) (hadm : Admissible cfg past e)
    (hrange : WatermarkInRange duration e ∧ RecordsInRange cfg slide e) (hinv : Inv cfg duration slide v past sw) :
    ∃ sw' out, step cfg fuel duration slide sw e = .ok (sw', out) ∧
      Inv cfg duration slide v (past ++ [e]) sw' ∧
      EmitsDue cfg duration slide past past e
        (fun x => v.out (v.fold (windowRecords cfg duration (records past) x))) out := by
  cases e with
  | batch rs =>
    obtain ⟨sw', hstep, hinv'⟩ := hinv.batch h hfuel hdur hadm hrange.2
    exact ⟨sw', [], hstep, hinv', [], List.nodup_nil, fun x => by simp [Due], rfl⟩
  | watermark wm order =>
    obtain ⟨sw', fired, panesOf, hstep, hinv', hnodup, hpanes, hfired⟩ := hinv.watermark h hdur hrange.1
    refine ⟨sw', _, hstep, hinv', fired, hnodup, fun x => ?_, ?_⟩
    · rw [hfired, exists_hasPane_iff h hinput, Due, Unfired]
      tauto
    · rw [List.map_map]
      refine List.map_congr_left fun x hx => ?_
      obtain ⟨hexists, -, hle⟩ := (hfired x).mp hx
      obtain ⟨hps, hmem⟩ := hpanes x hx
      have hne : panesOf x ≠ [] := by
        obtain ⟨y, hy⟩ := hexists
        exact List.ne_nil_of_mem ((hmem y).mpr hy)
      have hlow := x.2.le_toInt
      have hhigh := wm.toInt_lt
      have hduration := h.duration_pos
      have hend : (x.2 + duration).toInt = x.2.toInt + duration.toInt :=
        toInt_add_of_range (by omega) (by omega)
      have hdvd := ((exists_hasPane_iff h hinput x).mp hexists).1
      simp only [Function.comp_apply, hend, hmerge past x _ hinput hdvd hps hne hmem]

theorem run_spec (hfuel : duration.toInt / slide.toInt ≤ fuel)
    (hdur : Durable v cfg.allowIncremental) (hmerge : MergesPanes cfg duration slide v) (hinput : Input cfg events)
    (hrange : ∀ e ∈ events, WatermarkInRange duration e ∧ RecordsInRange cfg slide e) :
    ∃ sw outs, runEvents (step cfg fuel duration slide) new events = .ok (sw, outs) ∧
      outs.length = events.length ∧
      (∀ past e rest, events = past ++ e :: rest → ∃ out, outs[past.length]? = some out ∧
        EmitsDue cfg duration slide events past e
          (fun x => v.out (v.fold (windowRecords cfg duration (records events) x))) out) ∧
      Inv cfg duration slide v events sw := by
  obtain ⟨sw, outs, hrun, hinv, hlength, hemits⟩ := runEvents_rule (Inv cfg duration slide v)
    (fun past e => EmitsDue cfg duration slide past past e
      fun x => v.out (v.fold (windowRecords cfg duration (records past) x)))
    inv_new (fun past e sw hpast hadm hgood hinv => step_spec h hfuel hdur hmerge hpast hadm hgood hinv)
    hinput hrange
  refine ⟨sw, outs, hrun, hlength, fun past e rest hsplit => ?_, hinv⟩
  obtain ⟨out, hout, hdue⟩ := hemits past e rest hsplit
  subst hsplit
  exact ⟨out, hout, EmitsDue.of_past (fun rs => v.out (v.fold rs)) hinput hdue⟩

end Invariant

end SlidingWindow

end Window
end Koala
