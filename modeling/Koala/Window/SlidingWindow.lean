import Koala.Lib.NestedMap
import Koala.Window.Events

/-!
# The sliding window operator

`api/dataflow/slidingWindow.go`.  A pane is a partial window as long as a slide.  The accumulator of a pane is
stored once; the index lists, for every active window, the panes that have records.  A watermark fires the
windows it has reached by merging the accumulators of their panes, and deletes the panes no later window needs.

The loop of `GetSlidingWindowStartTimes` steps through `int64` start times; `fuel` bounds its iterations.
-/

namespace Koala
namespace Window

open Lib Lib.Outcome State StateClient
open NestedMap (get set)

variable {K R OUT : Type} [DecidableEq K]

/-- `WindowsToBeFired`. -/
structure WindowsToBeFired (K : Type) where
  key : K
  startTime : Int64
  panes : List (K × Int64)

/-- `GetSlidingWindowStartTimes`. -/
def getSlidingWindowStartTimes (fuel : Nat) (paneStartTime windowDuration windowSlide : Int64) :
    Outcome WindowAbort (List Int64) := do
  check (windowDuration % windowSlide ≠ 0) .notMultiple
  let lower := paneStartTime - windowDuration + windowSlide
  let s ← whileLoop (fun s : Int64 × List Int64 => s.1 ≤ paneStartTime)
    (fun s => .ok (s.1 + windowSlide, s.2 ++ [s.1])) fuel (lower, [])
  .ok s.2

/-- `SlidingWindowIndex`: the panes of the active windows by start time and key. -/
abbrev SlidingWindowIndex (K : Type) : Type := NestedMap Int64 K (List (K × Int64))

namespace SlidingWindowIndex

variable (index : SlidingWindowIndex K)

/-- The panes listed for a window. -/
def panesOf (x : K × Int64) : List (K × Int64) :=
  (get index x.2 x.1).getD []

/-- The loop of `AddPane`. -/
def appendTo (pane : K × Int64) (index : SlidingWindowIndex K) (windowStartTime : Int64) : SlidingWindowIndex K :=
  set index windowStartTime pane.1 (index.panesOf (pane.1, windowStartTime) ++ [pane])

/-- `AddPane`. -/
def addPane (fuel : Nat) (duration slide : Int64) (index : SlidingWindowIndex K) (pane : K × Int64) :
    Outcome WindowAbort (SlidingWindowIndex K) := do
  let windowStartTimes ← getSlidingWindowStartTimes fuel pane.2 duration slide
  .ok (windowStartTimes.foldl (appendTo pane) index)

/-- `Remove`. -/
def remove (x : K × Int64) : SlidingWindowIndex K := NestedMap.delete index x.2 x.1

/-- `GetWindowsToBeFired`, with the order of its `range` loops. -/
def getWindowsToBeFired (wm duration : Int64) (order : Reordering (K × Int64)) :
    List (WindowsToBeFired K) × List (K × Int64) :=
  let keys := (NestedMap.entriesWhere index fun windowStartTime => windowStartTime ≤ wm - duration).map
    fun e => (e.2.1, e.1)
  let windowsToBeFired := (order.apply keys).map fun x => ⟨x.1, x.2, index.panesOf x⟩
  (windowsToBeFired, (windowsToBeFired.flatMap (·.panes)).dedup)

end SlidingWindowIndex

/-- The operator's index and its part of the state service. -/
structure SlidingWindow (K : Type) where
  backend : Backend
  index : SlidingWindowIndex K

namespace SlidingWindow

variable (cfg : Config K R OUT) (fuel : Nat) (duration slide : Int64)

/-- `GetPaneStartTime`. -/
def getPaneStartTime (r : R) : Int64 := startTime (cfg.getTimestamp r) slide

/-- `ProcessBatch`. -/
def processBatch (sw : SlidingWindow K) (rs : List R) : Outcome WindowAbort (SlidingWindow K) :=
  cfg.processBatch (getPaneStartTime cfg slide) (SlidingWindowIndex.addPane fuel duration slide)
    sw.backend sw.index rs >>= fun r => .ok ⟨r.1, r.2⟩

/-- The inner loop of the firing: merge a pane, and note it if it is never needed again. -/
def mergePane (cache : Cache cfg.sch) (wm : Int64) (c : cfg.type.State × List (K × Int64)) (pane : K × Int64) :
    Outcome WindowAbort (cfg.type.State × List (K × Int64)) :=
  match cache (cfg.slot pane) with
  | none => .abort (.state .notInCache)
  | some paneState =>
    .ok (cfg.aggregator.mergeFunc c.1 paneState, if pane.2 ≤ wm - duration then c.2.insert pane else c.2)

/-- What the firing loop carries: the index, the panes to remove and the emitted records. -/
structure Firing (K OUT : Type) where
  index : SlidingWindowIndex K
  panesToRemove : List (K × Int64)
  out : List (Int64 × OUT)

/-- The body of the firing loop. -/
def fire (cache : Cache cfg.sch) (wm : Int64) (c : Firing K OUT) (window : WindowsToBeFired K) :
    Outcome WindowAbort (Firing K OUT) := do
  let (result, panesToRemove) ←
    forEach window.panes (mergePane cfg duration cache wm) (cfg.aggregator.newFunc, c.panesToRemove)
  .ok ⟨c.index.remove (window.key, window.startTime), panesToRemove,
    c.out ++ [(window.startTime + duration, cfg.aggregator.outFunc result)]⟩

/-- `DeleteManyAndFlush` after a fetch of `fetched`. -/
def deleteManyAndFlush (b : Backend) (fetched pairs : List (K × Int64)) : Outcome WindowAbort Backend := do
  check (¬ ∀ x ∈ pairs, x ∈ fetched) .notAllPairs
  .ok (b.deleteMany ((fetched.dedup.filter (· ∈ pairs)).map cfg.storeKey))

/-- `ProcessProgressedWatermark`. -/
def processProgressedWatermark (sw : SlidingWindow K) (wm : Int64) (order : Reordering (K × Int64)) :
    Outcome WindowAbort (SlidingWindow K × List (Int64 × OUT)) :=
  let (windowsToFire, panes) := sw.index.getWindowsToBeFired wm duration order
  if windowsToFire.isEmpty then .ok (sw, [])
  else do
    check (panes = []) .noPanes
    let cache ← cfg.fetchWindowState sw.backend panes
    let c ← forEach windowsToFire (fire cfg duration cache wm) ⟨sw.index, [], []⟩
    if c.panesToRemove = [] then .ok (⟨sw.backend, c.index⟩, c.out)
    else do
      let b ← deleteManyAndFlush cfg sw.backend panes c.panesToRemove
      .ok (⟨b, c.index⟩, c.out)

def step (sw : SlidingWindow K) : Event K R → Outcome WindowAbort (SlidingWindow K × List (Int64 × OUT))
  | .batch rs => processBatch cfg fuel duration slide sw rs >>= fun sw => .ok (sw, [])
  | .watermark wm order => processProgressedWatermark cfg duration sw wm order

/-- A new operator. -/
def new : SlidingWindow K := ⟨∅, ∅⟩

end SlidingWindow

/-! ## Windows and panes -/

/-- The window that starts at `w` has the pane that starts at `p`. -/
def Covers (duration slide : Int64) (w p : Int64) : Prop :=
  slide.toInt ∣ p.toInt - w.toInt ∧ w.toInt ≤ p.toInt ∧ p.toInt < w.toInt + duration.toInt

/-- A duration is a positive number of slides. -/
structure Slides (duration slide : Int64) : Prop where
  duration_pos : 0 < duration.toInt
  slide_pos : 0 < slide.toInt
  multiple : duration % slide = 0

namespace Slides

variable {duration slide : Int64}

theorem refl (hpos : 0 < duration.toInt) : Slides duration duration :=
  ⟨hpos, hpos, Int64.toInt_inj.mp (by rw [Int64.toInt_mod, Int.tmod_self, Int64.toInt_zero])⟩

theorem dvd (h : Slides duration slide) : slide.toInt ∣ duration.toInt := by
  have hmod := congrArg Int64.toInt h.multiple
  rw [Int64.toInt_mod, Int64.toInt_zero] at hmod
  exact Int.dvd_of_tmod_eq_zero hmod

theorem slide_le (h : Slides duration slide) : slide.toInt ≤ duration.toInt :=
  Int.le_of_dvd h.duration_pos h.dvd

end Slides

section StartTimes

variable {duration slide p : Int64} {fuel : Nat}

/-- The start times the loop goes through. -/
def startAt (duration slide p : Int64) (j : Nat) : Int :=
  p.toInt - duration.toInt + slide.toInt + j * slide.toInt

theorem startAt_succ (j : Nat) : startAt duration slide p (j + 1) = startAt duration slide p j + slide.toInt := by
  simp only [startAt, Nat.cast_add, Nat.cast_one]
  ring

section

variable (h : Slides duration slide)
include h

theorem startTimes_loop (hlow : -2 ^ 63 ≤ p.toInt - duration.toInt) (hrange : p.toInt + slide.toInt < 2 ^ 63)
    {n : Nat} (hn : duration.toInt = n * slide.toInt) (hfuel : n ≤ fuel) :
    ∃ s : Int64 × List Int64, whileLoop (fun s : Int64 × List Int64 => s.1 ≤ p)
        (fun s => (.ok (s.1 + slide, s.2 ++ [s.1]) : Outcome WindowAbort (Int64 × List Int64))) fuel
        (p - duration + slide, []) = .ok s ∧
      s.2.map Int64.toInt = (List.range n).map (startAt duration slide p) := by
  have hslide := h.slide_pos
  have hduration := h.duration_pos
  have hupper := p.toInt_lt
  have hdupper := duration.toInt_lt
  have hdle := h.slide_le
  -- after `j` iterations
  let inv (m : Nat) (s : Int64 × List Int64) : Prop := ∃ j, j + m = n ∧ s.1.toInt = startAt duration slide p j ∧
    s.2.map Int64.toInt = (List.range j).map (startAt duration slide p)
  have hbound : ∀ j m : Nat, j + m = n → startAt duration slide p j + m * slide.toInt = p.toInt + slide.toInt := by
    intro j m hjm
    rw [startAt, hn, ← hjm]
    push_cast
    ring
  have hfirst : (p - duration + slide).toInt = startAt duration slide p 0 := by
    have hsub : (p - duration).toInt = p.toInt - duration.toInt := toInt_sub_of_range (by omega) (by omega)
    rw [startAt, toInt_add_of_range (by omega) (by omega), hsub]
    simp
  have hstep : ∀ m (s : Int64 × List Int64), inv m s → decide (s.1 ≤ p) = true → ∃ s' m',
      (.ok (s.1 + slide, s.2 ++ [s.1]) : Outcome WindowAbort (Int64 × List Int64)) = .ok s' ∧ m' < m ∧
        inv m' s' := by
    rintro m s ⟨j, hjm, hs, hacc⟩ hcond
    have hle : s.1.toInt ≤ p.toInt := Int64.le_iff_toInt_le.mp (of_decide_eq_true hcond)
    have hb := hbound j m hjm
    cases m with
    | zero =>
      simp only [Nat.cast_zero, zero_mul, add_zero] at hb
      omega
    | succ m =>
      have hj : 0 ≤ (j : Int) * slide.toInt := Int.mul_nonneg (Int.natCast_nonneg j) hslide.le
      have hnext : (s.1 + slide).toInt = s.1.toInt + slide.toInt :=
        toInt_add_of_range (by rw [hs, startAt]; omega) (by omega)
      refine ⟨_, m, rfl, Nat.lt_succ_self m, j + 1, by omega, ?_, ?_⟩
      · rw [hnext, hs, startAt_succ]
      · rw [List.map_append, hacc, List.range_succ, List.map_append, List.map_cons, List.map_cons, hs]
        rfl
  obtain ⟨s, m, hloop, hexit, j, hjm, hs, hacc⟩ :=
    whileLoop_total inv hstep n (p - duration + slide, []) ⟨0, by omega, hfirst, rfl⟩ fuel hfuel
  have hgt : p.toInt < s.1.toInt := by
    have := of_decide_eq_false hexit
    rw [Int64.le_iff_toInt_le] at this
    omega
  have hm : m = 0 := by
    by_contra hne
    have hb := hbound j m hjm
    have h1 : (1 : Int) * slide.toInt ≤ m * slide.toInt :=
      Int.mul_le_mul_of_nonneg_right (by omega) hslide.le
    omega
  subst hm
  obtain rfl : j = n := by omega
  exact ⟨s, hloop, hacc⟩

theorem mem_startAt_iff {n : Nat} (hn : duration.toInt = n * slide.toInt) (w : Int64) :
    w.toInt ∈ (List.range n).map (startAt duration slide p) ↔ Covers duration slide w p := by
  have hslide := h.slide_pos
  rw [List.mem_map]
  constructor
  · rintro ⟨j, hj, hw⟩
    rw [List.mem_range] at hj
    have hdist : p.toInt - w.toInt = ((n - 1 - j : Nat) : Int) * slide.toInt := by
      rw [← hw, startAt, hn]
      push_cast [Nat.cast_sub (by omega : j ≤ n - 1), Nat.cast_sub (by omega : 1 ≤ n)]
      ring
    have hnonneg : 0 ≤ ((n - 1 - j : Nat) : Int) * slide.toInt :=
      Int.mul_nonneg (Int.natCast_nonneg _) hslide.le
    have hlt : ((n - 1 - j : Nat) : Int) * slide.toInt < n * slide.toInt :=
      Int.mul_lt_mul_of_pos_right (by omega) hslide
    refine ⟨⟨_, by rw [hdist, mul_comm]⟩, by omega, by omega⟩
  · rintro ⟨⟨q, hq⟩, hle, hlt⟩
    have hq0 : 0 ≤ q := by
      by_contra hneg
      have := Int.mul_neg_of_pos_of_neg hslide (by omega : q < 0)
      omega
    have hqn : q < n := by
      have : slide.toInt * q < slide.toInt * n := by rw [mul_comm slide.toInt n]; omega
      exact lt_of_mul_lt_mul_left this hslide.le
    refine ⟨n - 1 - q.toNat, List.mem_range.mpr (by omega), ?_⟩
    have hcast : ((n - 1 - q.toNat : Nat) : Int) = n - 1 - q := by omega
    have hmul : slide.toInt * q = q * slide.toInt := mul_comm _ _
    rw [startAt, hcast, hn, sub_mul, sub_mul, one_mul]
    omega

/-- `GetSlidingWindowStartTimes` returns the windows that have the pane, the earliest first. -/
theorem getSlidingWindowStartTimes_spec (hlow : -2 ^ 63 ≤ p.toInt - duration.toInt)
    (hrange : p.toInt + slide.toInt < 2 ^ 63) (hfuel : duration.toInt / slide.toInt ≤ fuel) :
    ∃ starts, getSlidingWindowStartTimes fuel p duration slide = .ok starts ∧
      (starts.map Int64.toInt).Pairwise (· < ·) ∧ (starts.length : Int) = duration.toInt / slide.toInt ∧
        ∀ w, w ∈ starts ↔ Covers duration slide w p := by
  have hslide := h.slide_pos
  obtain ⟨n, hn⟩ := Int.eq_ofNat_of_zero_le (Int.ediv_nonneg h.duration_pos.le hslide.le)
  have hduration : duration.toInt = n * slide.toInt := by rw [← hn, Int.ediv_mul_cancel h.dvd]
  obtain ⟨s, hloop, hs⟩ := startTimes_loop h hlow hrange hduration (by omega : n ≤ fuel)
  refine ⟨s.2, ?_, ?_, ?_, fun w => ?_⟩
  · rw [getSlidingWindowStartTimes, check_eq_ok (not_not.mpr h.multiple), ok_bind]
    dsimp only
    rw [hloop, ok_bind]
  · rw [hs, List.pairwise_map]
    refine List.pairwise_lt_range.imp fun {j j'} hlt => ?_
    have hmul : (j : Int) * slide.toInt < j' * slide.toInt := Int.mul_lt_mul_of_pos_right (by omega) hslide
    simp only [startAt]
    omega
  · rw [hn, ← List.length_map Int64.toInt, hs, List.length_map, List.length_range]
  · rw [← mem_startAt_iff h hduration, ← hs, List.mem_map_of_injective fun _ _ heq => Int64.toInt_inj.mp heq]

theorem Covers.add_slide_le {w : Int64} (hcovers : Covers duration slide w p) :
    p.toInt + slide.toInt ≤ w.toInt + duration.toInt := by
  obtain ⟨hdvd, -, hlt⟩ := hcovers
  have hgap := Int.le_of_dvd (by omega) (Int.dvd_sub h.dvd hdvd)
  omega

theorem Covers.refl (w : Int64) : Covers duration slide w w :=
  ⟨by simp, le_rfl, by have := h.duration_pos; omega⟩

end

end StartTimes

namespace SlidingWindow

/-! ## The index -/

section Index

variable (duration slide : Int64)

/-- The index lists, for every window that is not fired, the existing panes that it has. -/
structure Lists (unfired : Int64 → Prop) (index : SlidingWindowIndex K) (dom : K × Int64 → Prop) : Prop where
  nonempty : ∀ x : K × Int64, get index x.2 x.1 ≠ some []
  nodup : ∀ x, (index.panesOf x).Nodup
  mem : ∀ x y, y ∈ index.panesOf x ↔ y.1 = x.1 ∧ dom y ∧ Covers duration slide x.2 y.2 ∧ unfired x.2

variable {duration slide}

theorem get_foldl_appendTo (pane : K × Int64) (starts : List Int64) (hnodup : starts.Nodup)
    (index : SlidingWindowIndex K) (x : K × Int64) :
    get (starts.foldl (SlidingWindowIndex.appendTo pane) index) x.2 x.1 =
      if x.1 = pane.1 ∧ x.2 ∈ starts then some (index.panesOf x ++ [pane]) else get index x.2 x.1 := by
  induction starts generalizing index with
  | nil => simp
  | cons w rest ih =>
    obtain ⟨hw, hrest⟩ := List.nodup_cons.mp hnodup
    have hfirst : get (index.appendTo pane w) x.2 x.1 =
        if (x.2, x.1) = (w, pane.1) then some (index.panesOf (pane.1, w) ++ [pane])
        else get index x.2 x.1 := NestedMap.get_set ..
    rw [List.foldl_cons, ih hrest, SlidingWindowIndex.panesOf, hfirst]
    by_cases hx1 : x.1 = pane.1
    · by_cases hx2 : x.2 = w
      · have hx : x = (pane.1, w) := Prod.ext hx1 hx2
        subst hx
        simp [hw]
      · simp [hx1, hx2, SlidingWindowIndex.panesOf]
    · simp [hx1]

/-- `AddPane` enters a new pane in all its windows, provided none of them is fired. -/
theorem lists_addPane (h : Slides duration slide) {fuel : Nat} (hfuel : duration.toInt / slide.toInt ≤ fuel)
    {unfired : Int64 → Prop} {x : K × Int64} (hx : 0 ≤ x.2.toInt) (hrange : x.2.toInt + slide.toInt < 2 ^ 63)
    (hunfired : ∀ w, Covers duration slide w x.2 → unfired w) :
    Maintains (SlidingWindowIndex.addPane fuel duration slide) (Lists duration slide unfired) x := by
  intro index dom hlists hnew
  have hupper := duration.toInt_lt
  obtain ⟨starts, hstarts, hsorted, -, hmem⟩ := getSlidingWindowStartTimes_spec h (by omega) hrange hfuel
  have hnodup := List.Nodup.of_map _ (hsorted.imp ne_of_lt)
  refine ⟨starts.foldl (SlidingWindowIndex.appendTo x) index, ?_, ?_⟩
  · rw [SlidingWindowIndex.addPane, hstarts, ok_bind]
  have hpanes : ∀ w, (starts.foldl (SlidingWindowIndex.appendTo x) index).panesOf w =
      if w.1 = x.1 ∧ w.2 ∈ starts then index.panesOf w ++ [x] else index.panesOf w := by
    intro w
    rw [SlidingWindowIndex.panesOf, get_foldl_appendTo x starts hnodup]
    split_ifs <;> rfl
  have hfresh : ∀ w, x ∉ index.panesOf w := fun w hin => hnew ((hlists.mem w x).mp hin).2.1
  refine ⟨fun w => ?_, fun w => ?_, fun w y => ?_⟩
  · rw [get_foldl_appendTo x starts hnodup]
    split_ifs
    · simp
    · exact hlists.nonempty w
  · rw [hpanes]
    split_ifs
    · exact List.nodup_append.mpr ⟨hlists.nodup w, by simp, by
        intro y hy z hz
        rw [List.mem_singleton] at hz
        exact fun heq => hfresh w (hz ▸ heq ▸ hy)⟩
    · exact hlists.nodup w
  · rw [hpanes]
    have hold := hlists.mem w y
    split_ifs with hin
    · rw [List.mem_append, List.mem_singleton, hold]
      have hcovers := (hmem w.2).mp hin.2
      constructor
      · rintro (⟨h1, h2, h3, h4⟩ | rfl)
        · exact ⟨h1, .inl h2, h3, h4⟩
        · exact ⟨hin.1.symm, .inr rfl, hcovers, hunfired _ hcovers⟩
      · rintro ⟨h1, h2 | rfl, h3, h4⟩
        · exact .inl ⟨h1, h2, h3, h4⟩
        · exact .inr rfl
    · rw [hold]
      constructor
      · rintro ⟨h1, h2, h3, h4⟩
        exact ⟨h1, .inl h2, h3, h4⟩
      · rintro ⟨h1, h2 | rfl, h3, h4⟩
        · exact ⟨h1, h2, h3, h4⟩
        · exact absurd ⟨h1.symm, (hmem w.2).mpr h3⟩ hin

end Index

end SlidingWindow

end Window
end Koala
