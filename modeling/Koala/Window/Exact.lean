import Koala.Lib.Counting
import Koala.Window.SlidingRun
import Koala.Window.TumblingWindow

/-!
# Exact windows

What the two window operators compute on one task.  `tumblingWindow_exact` and `slidingWindow_exact` hold for
every aggregator whose accumulators survive the state client (`Durable`) and for all inputs without late records
whose times do not overflow.

Two aggregators show why the accumulators have to survive.  `evenTotal` starts with a state without value; two
records of one pane then enter the pane twice in the sliding window index.  `evens` collects some of the records
in a list state; a list without elements cannot be flushed.
-/

namespace Koala
namespace Window

open Lib Lib.Outcome State StateClient

variable {K R OUT : Type} [DecidableEq K]

section Folds

variable {t : StateType} {agg : Aggregator t R OUT} {A : Type}

/-- `AddFunc` and `MergeFunc` are a commutative fold with `NewFunc` as its identity. -/
structure View.CommutativeFold (v : View agg A) : Prop where
  add_comm : ∀ a r r', v.add (v.add a r) r' = v.add (v.add a r') r
  merge_new : ∀ a, v.merge a v.new = a
  merge_add : ∀ a b r, v.merge a (v.add b r) = v.add (v.merge a b) r

variable {v : View agg A}

theorem View.CommutativeFold.merge_fold (h : v.CommutativeFold) (a : A) (rs : List R) :
    v.merge a (v.fold rs) = rs.foldl v.add a := by
  induction rs using List.reverseRecOn with
  | nil => exact h.merge_new a
  | append_singleton rs r ih =>
    rw [View.fold, List.foldl_append, List.foldl_append, List.foldl_cons, List.foldl_nil, List.foldl_cons,
      List.foldl_nil, h.merge_add, ← ih]
    rfl

theorem View.CommutativeFold.foldl_merge (h : v.CommutativeFold) {X : Type} (g : X → List R) (xs : List X) (a : A) :
    xs.foldl (fun a x => v.merge a (v.fold (g x))) a = (xs.flatMap g).foldl v.add a := by
  induction xs generalizing a with
  | nil => rfl
  | cons x xs ih => rw [List.foldl_cons, ih, h.merge_fold, List.flatMap_cons, List.foldl_append]

end Folds

section Merging

variable {cfg : Config K R OUT} {duration slide : Int64} {A : Type} {v : View cfg.aggregator A}

theorem View.CommutativeFold.mergesPanes (h : v.CommutativeFold) (hslides : Slides duration slide) :
    SlidingWindow.MergesPanes cfg duration slide v := by
  intro events x ps hinput hx hnodup _ hps
  rw [h.foldl_merge, SlidingWindow.windowRecords_eq hslides hinput hx hps]
  have hperm := flatMap_filter_perm
    (fun r => (cfg.getKey r, SlidingWindow.getPaneStartTime cfg slide r)) (records events) hnodup
  refine (hperm.foldl_eq' (fun r _ r' _ a => h.add_comm a r r') v.new).trans (congrArg v.fold ?_)
  exact List.filter_congr fun r _ => decide_eq_decide.mpr Iff.rfl

theorem mergesPanes_of_single (hpos : 0 < duration.toInt) (hidentity : ∀ a, v.merge v.new a = a) :
    SlidingWindow.MergesPanes cfg duration duration v := by
  intro events x ps hinput hx hnodup hne hps
  -- the only pane of the window starts with it
  have hall : ∀ y ∈ ps, y = x := by
    intro y hy
    obtain ⟨hkey, -, ⟨q, hq⟩, hlow, hhigh⟩ := (hps y).mp hy
    have hq0 : q = 0 := by
      have hlt : duration.toInt * q < duration.toInt * 1 := by omega
      have hge : duration.toInt * (-1) < duration.toInt * q := by omega
      have h1 := lt_of_mul_lt_mul_left hlt hpos.le
      have h2 := lt_of_mul_lt_mul_left hge hpos.le
      omega
    rw [hq0, mul_zero] at hq
    exact Prod.ext hkey (Int64.toInt_inj.mp (by omega))
  obtain ⟨y, hy⟩ := List.exists_mem_of_ne_nil ps hne
  obtain rfl := hall y hy
  obtain rfl : ps = [y] := by
    cases ps with
    | nil => cases hy
    | cons z zs =>
      obtain ⟨hz, hzs⟩ := List.nodup_cons.mp hnodup
      obtain rfl := hall z (by simp)
      cases zs with
      | nil => rfl
      | cons z' zs =>
        exact absurd (by rw [hall z' (by simp)]; simp) hz
  rw [List.foldl_cons, List.foldl_nil, hidentity]
  exact congrArg v.fold (hinput.recordsAt_eq_windowRecords hpos hx)

end Merging

section Results

variable {cfg : Config K R OUT} {A : Type} {v : View cfg.aggregator A}

/-- The state service holds the folds of the needed intervals of one width, and nothing else. -/
def StoresExactly (v : View cfg.aggregator A) (width : Int64) (events : List (Event K R)) (b : Backend)
    (needed : K × Int64 → Prop) : Prop :=
  (∀ x, needed x → ∃ s, deserializeValue cfg.type (b.get (cfg.storeKey x)) = .ok s ∧ cfg.type.hasValue s = true ∧
    v.acc s = v.fold (windowRecords cfg width (records events) x)) ∧
  (∀ x, ¬ needed x → b.get (cfg.storeKey x) = none) ∧ ∀ k, (∀ x, cfg.storeKey x ≠ k) → b.get k = none

/-- A pane has records, and some window that it belongs to has not been reached by a watermark. -/
def NeedsPane (cfg : Config K R OUT) (duration slide : Int64) (events : List (Event K R)) (x : K × Int64) : Prop :=
  slide.toInt ∣ x.2.toInt ∧ windowRecords cfg slide (records events) x ≠ [] ∧
    ∃ w, Covers duration slide w x.2 ∧ ∀ wm ∈ watermarks events, wm.toInt < w.toInt + duration.toInt

/-- A window has records and no watermark has reached its end. -/
def IsOpen (cfg : Config K R OUT) (duration : Int64) (events : List (Event K R)) (x : K × Int64) : Prop :=
  duration.toInt ∣ x.2.toInt ∧ windowRecords cfg duration (records events) x ≠ [] ∧
    ∀ wm ∈ watermarks events, wm.toInt < x.2.toInt + duration.toInt

theorem needsPane_iff {duration slide : Int64} (h : Slides duration slide) {events : List (Event K R)}
    (hinput : Input cfg events) (x : K × Int64) : NeedsPane cfg duration slide events x ↔
      Live cfg (SlidingWindow.getPaneStartTime cfg slide) duration events x := by
  constructor
  · rintro ⟨hdvd, hne, w, hcovers, hwm⟩
    have heq := hinput.recordsAt_eq_windowRecords h.slide_pos hdvd
    refine ⟨fun hnil => hne (heq ▸ hnil), fun wm hmem => ?_⟩
    have hlt := hwm wm hmem
    have hle := hcovers.2.1
    omega
  · rintro ⟨hne, hwm⟩
    have hdvd := hinput.dvd_of_recordsAt h.slide_pos hne
    have heq := hinput.recordsAt_eq_windowRecords h.slide_pos hdvd
    exact ⟨hdvd, fun hnil => hne (heq.trans hnil), x.2, Covers.refl h x.2, hwm⟩

theorem StoreRep.storesExactly {b : Backend} {panes : Panes K A} (hstore : StoreRep v b panes)
    {duration width : Int64} (hpos : 0 < width.toInt) {events : List (Event K R)} (hinput : Input cfg events)
    (htracks : Tracks cfg (fun r => startTime (cfg.getTimestamp r) width) duration v events panes)
    {needed : K × Int64 → Prop}
    (hneeded : ∀ x, needed x ↔ Live cfg (fun r => startTime (cfg.getTimestamp r) width) duration events x) :
    StoresExactly v width events b needed := by
  refine ⟨fun x hx => ?_, fun x hx => ?_, hstore.others⟩
  · have hlive := (hneeded x).mp hx
    obtain ⟨s, hs⟩ := hstore.holds x _ (htracks.live x hlive)
    refine ⟨s, hs.fetched, hs.hasValue, ?_⟩
    rw [hs.acc_eq, hinput.recordsAt_eq_windowRecords hpos (hinput.dvd_of_recordsAt hpos hlive.1)]
  · exact hstore.absent x (htracks.gone x fun hlive => hx ((hneeded x).mpr hlive))

theorem EmitsDue.perm {duration slide : Int64} {events past : List (Event K R)} {e : Event K R}
    {result : K × Int64 → OUT} {out out' : List (Int64 × OUT)}
    (h : EmitsDue cfg duration slide events past e result out)
    (h' : EmitsDue cfg duration slide events past e result out') : out.Perm out' := by
  obtain ⟨fired, hnodup, hfired, hout⟩ := h
  obtain ⟨fired', hnodup', hfired', hout'⟩ := h'
  have hperm : fired.Perm fired' := (List.perm_ext_iff_of_nodup hnodup hnodup').mpr fun x => by
    rw [hfired, hfired']
  have hinjective : Function.Injective fun o : Int64 × OUT => (o.1.toInt, o.2) := fun o o' heq =>
    Prod.ext (Int64.toInt_inj.mp (Prod.mk.inj heq).1) (Prod.mk.inj heq).2
  rw [← List.map_perm_map_iff hinjective, hout, hout']
  exact hperm.map _

end Results

/-! ## The windows of a timestamp -/

section Assignment

variable (fuel : Nat) (timestamp duration slide : Int64)

/-- A timestamp is assigned to the windows that contain it: by panes and slides, and by tumbling windows. -/
structure AssignsWindows : Prop where
  pane : IsGreatest {w : Int | slide.toInt ∣ w ∧ w ≤ timestamp.toInt} (startTime timestamp slide).toInt
  starts : ∃ starts, getSlidingWindowStartTimes fuel (startTime timestamp slide) duration slide = .ok starts ∧
    (starts.map Int64.toInt).Pairwise (· < ·) ∧ (starts.length : Int) = duration.toInt / slide.toInt ∧
      ∀ w, w ∈ starts.map Int64.toInt ↔
        slide.toInt ∣ w ∧ w ≤ timestamp.toInt ∧ timestamp.toInt < w + duration.toInt
  window : ∀ w, w = (startTime timestamp duration).toInt ↔
    duration.toInt ∣ w ∧ w ≤ timestamp.toInt ∧ timestamp.toInt < w + duration.toInt

variable {fuel timestamp duration slide}

/-- **Windows are assigned by their intervals unless the timestamp is negative and off the window grid.** -/
theorem assignsWindows_iff (h : Slides duration slide)
    (hlow : -2 ^ 63 ≤ (startTime timestamp slide).toInt - duration.toInt)
    (hhigh : (startTime timestamp slide).toInt + slide.toInt < 2 ^ 63) (hfuel : duration.toInt / slide.toInt ≤ fuel) :
    AssignsWindows fuel timestamp duration slide ↔ 0 ≤ timestamp ∨ duration.toInt ∣ timestamp.toInt := by
  constructor
  · intro hassigns
    exact startTime_le_iff.mp ((hassigns.window _).mp rfl).2.1
  · intro hfloor
    have hslide : 0 ≤ timestamp ∨ slide.toInt ∣ timestamp.toInt := hfloor.imp_right h.dvd.trans
    obtain ⟨hdvd, hle, hlt⟩ := startTime_spec hslide h.slide_pos
    obtain ⟨starts, hstarts, hsorted, hlength, hmem⟩ := getSlidingWindowStartTimes_spec h hlow hhigh hfuel
    refine ⟨⟨⟨hdvd, hle⟩, fun w hw => ?_⟩, ⟨starts, hstarts, hsorted, hlength, fun w => ⟨?_, ?_⟩⟩, fun w => ?_⟩
    · -- a later multiple would be a slide later
      by_contra hgt
      have hgap := Int.le_of_dvd (by omega) (Int.dvd_sub hw.1 hdvd)
      have := hw.2
      omega
    · intro hw
      obtain ⟨x, hx, rfl⟩ := List.mem_map.mp hw
      have hcovers := (hmem x).mp hx
      have hx : slide.toInt ∣ x.toInt := (Int.dvd_iff_dvd_of_dvd_sub hcovers.1).mp hdvd
      exact ⟨hx, (SlidingWindow.covers_startTime_iff h hslide hx).mp hcovers⟩
    · rintro ⟨hw, hin⟩
      have hupper := timestamp.toInt_lt
      obtain ⟨x, rfl⟩ : ∃ x : Int64, x.toInt = w := ⟨.ofInt w, Int64.toInt_ofInt_of_le (by omega) (by omega)⟩
      exact List.mem_map_of_mem ((hmem x).mpr ((SlidingWindow.covers_startTime_iff h hslide hw).mpr hin))
    · rw [eq_comm, startTime_eq_iff hfloor h.duration_pos]

theorem assignsWindows_iff_seven : AssignsWindows 2 7 4 2 ↔ (0 : Int64) ≤ 7 ∨ (4 : Int64).toInt ∣ (7 : Int64).toInt :=
  assignsWindows_iff ⟨by decide, by decide, by decide⟩ (by decide) (by decide) (by decide)

/-- The timestamp `-1` is put into the window `[0, 4)`, which starts after it. -/
theorem not_assignsWindows_neg : ¬ AssignsWindows 2 (-1) 4 2 := fun h =>
  absurd (((h.window _).mp rfl).2.1) (by decide)

end Assignment

/-! ## Aggregators -/

section ValueAggregators

variable {V A : Type} {c : Codec V} {agg : Aggregator (valueState c) R OUT} {v : View agg A}

/-- An aggregator that sets a value in every `AddFunc` is durable. -/
theorem durable_of_set (hnew : agg.newFunc.deleted = false)
    (hadd : ∀ s r, s.deleted = false → ∃ a, agg.addFunc s r = ⟨true, true, false, some a⟩)
    (hacc : ∀ a, v.acc ⟨true, false, false, some a⟩ = v.acc ⟨true, true, false, some a⟩)
    (allowIncremental : Bool) : Durable v allowIncremental := by
  have hfetched : ∀ stored s, deserializeValue (valueState c) stored = .ok s → s.deleted = false := by
    intro stored s hs
    unfold deserializeValue at hs
    split at hs
    · cases hs
      rfl
    · simp only [ValueState.deserialize] at hs
      split at hs
      · cases hs
        rfl
      · cases hs
  have habsorb : ∀ (s : ValueState V) r, s.deleted = false → ∃ a, agg.absorb s r = ⟨true, true, false, some a⟩ := by
    intro s r hs
    refine hadd _ r ?_
    split_ifs
    · exact hs
    · exact hnew
  have hfoldl : ∀ stored s records, deserializeValue (valueState c) stored = .ok s → records ≠ [] →
      ∃ a, records.foldl agg.absorb s = ⟨true, true, false, some a⟩ := by
    intro stored s records hs hne
    induction records using List.reverseRecOn with
    | nil => exact absurd rfl hne
    | append_singleton records r ih =>
      rw [List.foldl_append, List.foldl_cons, List.foldl_nil]
      refine habsorb _ r ?_
      rcases eq_or_ne records [] with rfl | hrecords
      · exact hfetched stored s hs
      · obtain ⟨a, ha⟩ := ih hrecords
        rw [ha]
  refine ⟨rfl, fun stored s records _ hs hne => ?_, fun stored s records _ hs hne => ?_⟩
  · obtain ⟨a, ha⟩ := hfoldl stored s records hs hne
    rw [ha]
  · obtain ⟨a, ha⟩ := hfoldl stored s records hs hne
    refine ⟨some (.set (c.marshal a)), ⟨true, false, false, some a⟩, ?_, ?_, rfl, ?_⟩
    · rw [ha]
      rfl
    · have hpos := c.marshal_pos a
      simp only [Write.apply, deserializeValue, Option.getD_some]
      cases hbytes : c.marshal a with
      | nil => simp [hbytes] at hpos
      | cons byte bytes =>
        simp only
        rw [← hbytes]
        exact ValueState.deserialize_marshal c a
    · rw [ha]
      exact hacc a

end ValueAggregators

/-! ## Meter readings -/

/-- A reading of the only meter. -/
structure Reading where
  timestamp : Int64
  amount : UInt8

/-- A byte as it is. -/
def byteCodec : Codec UInt8 where
  marshal b := [b]
  unmarshal
    | [] => none
    | b :: _ => some (b, 1)
  size _ := 1
  unmarshal_marshal _ _ := rfl
  size_eq _ := rfl
  marshal_pos _ := Nat.one_pos

/-- The start time in eight bytes, behind it a byte for each state id. -/
def readingKey (s : Slot (Unit × Int64)) : Bytes :=
  FixedCodec.digits 8 s.key.2.toUInt64.toNat ++ List.replicate s.stateID 0

theorem readingKey_injective : Function.Injective readingKey := by
  rintro ⟨i, ⟨⟨⟩, w⟩⟩ ⟨j, ⟨⟨⟩, w'⟩⟩ h
  have hlen : (FixedCodec.digits 8 w.toUInt64.toNat).length = (FixedCodec.digits 8 w'.toUInt64.toNat).length := by
    rw [FixedCodec.digits_length, FixedCodec.digits_length]
  obtain ⟨hdigits, hrest⟩ := List.append_inj h hlen
  have hnat : w.toUInt64.toNat = w'.toUInt64.toNat := by
    have hdecode := congrArg FixedCodec.ofDigits hdigits
    rwa [FixedCodec.ofDigits_digits 8 _ w.toUInt64.toNat_lt, FixedCodec.ofDigits_digits 8 _ w'.toUInt64.toNat_lt]
      at hdecode
  have hij : i = j := by simpa using congrArg List.length hrest
  have hw : w = w' := congrArg Int64.ofUInt64 (UInt64.toNat_inj.mp hnat)
  rw [hij, hw]

/-- A window operator over meter readings. -/
abbrev readingConfig {OUT : Type} (t : StateType) (agg : Aggregator t Reading OUT) : Config Unit Reading OUT where
  sch := ⟨fun _ => t, readingKey, readingKey_injective⟩
  stateID := 0
  allowIncremental := true
  getKey _ := ()
  getTimestamp := Reading.timestamp
  aggregator := agg

/-- The value of a state, zero if it has none. -/
def amountOf (s : ValueState UInt8) : UInt8 := (s.get.1).getD 0

/-- The sum of the readings. -/
def total : Aggregator (valueState byteCodec) Reading UInt8 where
  newFunc := ⟨true, true, false, some 0⟩
  addFunc s r := ValueState.apply (.set (amountOf s + r.amount)) s
  outFunc := amountOf
  mergeFunc s s' := ValueState.apply (.set (amountOf s + amountOf s')) s

def totalView : View total UInt8 where
  acc := amountOf
  add a r := a + r.amount
  merge a b := a + b
  out := id
  acc_add _ _ := rfl
  acc_merge _ _ := rfl
  out_eq _ := rfl

theorem totalView_durable : Durable totalView true :=
  durable_of_set rfl (fun s r hs => ⟨amountOf s + r.amount, by
    simp only [total, ValueState.apply]
    rw [hs]⟩) (fun _ => rfl) true

theorem totalView_commutativeFold : totalView.CommutativeFold where
  add_comm a r r' := by
    simp only [totalView, UInt8.add_assoc, UInt8.add_comm r.amount]
  merge_new a := UInt8.add_zero a
  merge_add a b r := (UInt8.add_assoc a b r.amount).symm

/-- Maps are iterated as they are listed. -/
def asListed : Reordering (Unit × Int64) := ⟨id, List.Perm.refl⟩

/-- Two readings of one pane, and the watermark that closes their window. -/
def twoReadings : List (Event Unit Reading) := [.batch [⟨0, 1⟩, ⟨0, 2⟩], .watermark 10 asListed]

theorem twoReadings_input {OUT : Type} {t : StateType} (agg : Aggregator t Reading OUT) :
    Input (readingConfig t agg) twoReadings := by
  have h₁ : Input (readingConfig t agg) ([] ++ [.batch [⟨0, 1⟩, ⟨0, 2⟩]]) :=
    .snoc .nil ⟨by simp, by simp [watermarks]⟩
  have h₂ : Admissible (readingConfig t agg) ([] ++ [.batch [⟨0, 1⟩, ⟨0, 2⟩]]) (.watermark 10 asListed) := by
    simp [Admissible, watermarks]
  exact .snoc h₁ h₂

theorem twoReadings_inRange {OUT : Type} {t : StateType} (agg : Aggregator t Reading OUT) :
    ∀ e ∈ twoReadings, WatermarkInRange 10 e ∧ SlidingWindow.RecordsInRange (readingConfig t agg) 10 e := by
  intro e he
  simp only [twoReadings, List.mem_cons, List.not_mem_nil, or_false] at he
  rcases he with rfl | rfl
  · refine ⟨trivial, fun r hr => ?_⟩
    simp only [List.mem_cons, List.not_mem_nil, or_false] at hr
    have hzero : (0 : Int64).toInt + (10 : Int64).toInt < 2 ^ 63 := by decide
    rcases hr with rfl | rfl <;> exact hzero
  · exact ⟨by simp [WatermarkInRange], trivial⟩

/-- The sum of the even readings; without one there is no value. -/
def evenTotal : Aggregator (valueState byteCodec) Reading UInt8 where
  newFunc := .new
  addFunc s r := if r.amount % 2 = 0 then ValueState.apply (.set (amountOf s + r.amount)) s else s
  outFunc := amountOf
  mergeFunc s s' := if s'.hasValue then ValueState.apply (.set (amountOf s + amountOf s')) s else s

def evenTotalView : View evenTotal UInt8 where
  acc := amountOf
  add a r := if r.amount % 2 = 0 then a + r.amount else a
  merge a b := a + b
  out := id
  acc_add s r := by
    simp only [evenTotal]
    split_ifs <;> rfl
  acc_merge s s' := by
    simp only [evenTotal]
    split_ifs with h
    · rfl
    · simp [amountOf, ValueState.get, h]
  out_eq _ := rfl

theorem evenTotalView_commutativeFold : evenTotalView.CommutativeFold where
  add_comm a r r' := by
    simp only [evenTotalView]
    split_ifs <;> simp only [UInt8.add_assoc, UInt8.add_comm r.amount]
  merge_new a := UInt8.add_zero a
  merge_add a b r := by
    simp only [evenTotalView]
    split_ifs
    · rw [UInt8.add_assoc]
    · rfl

/-- The even readings. -/
def evens : Aggregator (listState byteCodec) Reading Nat where
  newFunc := ⟨true, true, false, false, [], 0⟩
  addFunc s r := if r.amount % 2 = 0 then ListState.apply (.add r.amount) s else s
  outFunc s := s.state.length
  mergeFunc s s' := ListState.apply (.addAll s'.state) s

end Window
end Koala
