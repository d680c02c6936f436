import Koala.Lib.NestedMap
import Koala.Window.Events

/-!
# The tumbling window operator

`api/dataflow/tumblingWindow.go`.  The accumulator of a window is stored under its key and start time; the index
lists the active windows by start time.  A watermark fires the windows it has reached: it fetches their
accumulators, emits the results, drops them from the index and deletes what it fetched.

`TumblingWindow.Inv` ties index and state service to the events so far; `TumblingWindow.run_spec` says what a
whole run emits and leaves behind.
-/

namespace Koala
namespace Window

open Lib Lib.Outcome State StateClient

variable {K R OUT : Type} [DecidableEq K]

/-- `TumblingWindowIndex`: the keys of the active windows by start time. -/
abbrev TumblingWindowIndex (K : Type) : Type := NestedMap Int64 K Unit

namespace TumblingWindowIndex

variable (index : TumblingWindowIndex K)

/-- `Add`. -/
def add (x : K × Int64) : TumblingWindowIndex K := NestedMap.set index x.2 x.1 ()

/-- `Remove`. -/
def remove (x : K × Int64) : TumblingWindowIndex K :=
  NestedMap.delete index x.2 x.1

/-- `GetWindowsToBeFired`. -/
def getWindowsToBeFired (curTime winDuration : Int64) : List (K × Int64) :=
  (NestedMap.entriesWhere index fun winStartTime => winStartTime ≤ curTime - winDuration).map fun e => (e.2.1, e.1)

end TumblingWindowIndex

/-- The operator's index and its part of the state service. -/
structure TumblingWindow (K : Type) where
  backend : Backend
  index : TumblingWindowIndex K

namespace TumblingWindow

variable (cfg : Config K R OUT) (duration : Int64)

/-- `getWindowStartTime`. -/
def getWindowStartTime (r : R) : Int64 := startTime (cfg.getTimestamp r) duration

/-- `ProcessBatch`. -/
def processBatch (tw : TumblingWindow K) (rs : List R) : Outcome WindowAbort (TumblingWindow K) :=
  cfg.processBatch (getWindowStartTime cfg duration) (fun index x => .ok (TumblingWindowIndex.add index x))
    tw.backend tw.index rs >>= fun r => .ok ⟨r.1, r.2⟩

/-- The body of the firing loop. -/
def fire (cache : Cache cfg.sch) (c : TumblingWindowIndex K × List (Int64 × OUT)) (x : K × Int64) :
    Outcome WindowAbort (TumblingWindowIndex K × List (Int64 × OUT)) :=
  match cache (cfg.slot x) with
  | none => .abort (.state .notInCache)
  | some closedWindow =>
    .ok (TumblingWindowIndex.remove c.1 x, c.2 ++ [(x.2 + duration, cfg.aggregator.outFunc closedWindow)])

/-- `ProcessProgressedWatermark`. -/
def processProgressedWatermark (tw : TumblingWindow K) (wm : Int64) (order : Reordering (K × Int64)) :
    Outcome WindowAbort (TumblingWindow K × List (Int64 × OUT)) :=
  let windows := order.apply (TumblingWindowIndex.getWindowsToBeFired tw.index wm duration)
  if windows = [] then .ok (tw, [])
  else do
    let cache ← cfg.fetchWindowState tw.backend windows
    let (index, out) ← forEach windows (fire cfg duration cache) (tw.index, [])
    .ok (⟨tw.backend.deleteMany (windows.dedup.map cfg.storeKey), index⟩, out)

def step (tw : TumblingWindow K) : Event K R → Outcome WindowAbort (TumblingWindow K × List (Int64 × OUT))
  | .batch rs => processBatch cfg duration tw rs >>= fun tw => .ok (tw, [])
  | .watermark wm order => processProgressedWatermark cfg duration tw wm order

/-- A new operator. -/
def new : TumblingWindow K := ⟨∅, ∅⟩

/-! ## Invariant -/

variable (index : TumblingWindowIndex K)

/-- The index lists the windows of a set. -/
def Lists (dom : K × Int64 → Prop) : Prop :=
  ∀ x, (NestedMap.get index x.2 x.1).isSome ↔ dom x

theorem lists_add (x : K × Int64) :
    Maintains (fun index x => .ok (TumblingWindowIndex.add index x)) (Lists (K := K)) x := by
  intro index dom hlists _
  refine ⟨_, rfl, fun y => ?_⟩
  rw [TumblingWindowIndex.add, NestedMap.get_set]
  by_cases hy : y = x
  · simp [hy]
  · have hne : (y.2, y.1) ≠ (x.2, x.1) := fun h => hy (Prod.ext (Prod.mk.inj h).2 (Prod.mk.inj h).1)
    rw [if_neg hne, hlists y]
    simp [hy]

variable {cfg duration} {A : Type} {v : View cfg.aggregator A}

variable (cfg duration v) in
/-- Index and state service hold the live windows. -/
def Inv (events : List (Event K R)) (tw : TumblingWindow K) : Prop :=
  ∃ panes, StoreRep v tw.backend panes ∧ Lists tw.index panes.dom ∧
    Tracks cfg (getWindowStartTime cfg duration) duration v events panes

theorem inv_new : Inv cfg duration v [] (new : TumblingWindow K) :=
  ⟨fun _ => none, ⟨by simp, fun _ _ => rfl, fun _ _ => rfl⟩, fun _ => by simp [new, Panes.dom], Tracks.nil⟩

variable {past : List (Event K R)} {tw : TumblingWindow K}

theorem Inv.batch (hpos : 0 < duration.toInt) (hdur : Durable v cfg.allowIncremental) {rs : List R}
    (h : Inv cfg duration v past tw) (hadm : Admissible cfg past (.batch rs)) :
    ∃ tw', step cfg duration tw (.batch rs) = .ok (tw', []) ∧ Inv cfg duration v (past ++ [.batch rs]) tw' := by
  obtain ⟨panes, hstore, hlists, htracks⟩ := h
  obtain ⟨b', index', hbatch, hstore', hlists'⟩ :=
    processBatch_spec hdur hstore hadm.1 (fun r _ => lists_add (cfg.getKey r, getWindowStartTime cfg duration r)) hlists
  refine ⟨⟨b', index'⟩, ?_, _, hstore', hlists', htracks.batch hadm fun r hr => ?_⟩
  · simp only [step, processBatch, hbatch, ok_bind]
  · exact (startTime_spec (.inl (hadm.2 r hr).1) hpos).2.2

theorem fires_spec {cache : Cache cfg.sch} {value : K × Int64 → cfg.type.State} {windows : List (K × Int64)}
    (hcache : ∀ x ∈ windows, cache (cfg.slot x) = some (value x)) (index : TumblingWindowIndex K) :
    forEach windows (fire cfg duration cache) (index, []) =
      .ok (windows.foldl TumblingWindowIndex.remove index,
        windows.map fun x => (x.2 + duration, cfg.aggregator.outFunc (value x))) := by
  refine forEach_eq (f := fun done => (done.foldl TumblingWindowIndex.remove index,
    done.map fun x => (x.2 + duration, cfg.aggregator.outFunc (value x)))) fun done x rest hsplit => ?_
  have hx := hcache x (by rw [hsplit]; simp)
  simp only [fire, hx]
  rw [List.foldl_append, List.map_append]
  rfl

theorem mem_getWindowsToBeFired {index : TumblingWindowIndex K} {dom : K × Int64 → Prop} (hlists : Lists index dom)
    {wm : Int64} (x : K × Int64) :
    x ∈ index.getWindowsToBeFired wm duration ↔ x.2 ≤ wm - duration ∧ dom x := by
  rw [← hlists x, TumblingWindowIndex.getWindowsToBeFired, List.mem_map, Option.isSome_iff_exists]
  constructor
  · rintro ⟨⟨w, k, u⟩, hmem, rfl⟩
    obtain ⟨hle, hget⟩ := NestedMap.mem_entriesWhere.mp hmem
    exact ⟨of_decide_eq_true hle, u, hget⟩
  · rintro ⟨hle, u, hget⟩
    exact ⟨(x.2, x.1, u), NestedMap.mem_entriesWhere.mpr ⟨decide_eq_true hle, hget⟩, rfl⟩

omit [DecidableEq K] in
theorem getWindowsToBeFired_nodup (wm : Int64) : (index.getWindowsToBeFired wm duration).Nodup := by
  have hkeys := NestedMap.entriesWhere_keys_nodup index fun winStartTime => winStartTime ≤ wm - duration
  have hswap := hkeys.map Prod.swap_injective
  rwa [List.map_map] at hswap

section

variable (hpos : 0 < duration.toInt)
include hpos

theorem Inv.watermark (hdur : Durable v cfg.allowIncremental) {wm : Int64}
    {order : Reordering (K × Int64)} (h : Inv cfg duration v past tw) (hrange : -2 ^ 63 ≤ wm.toInt - duration.toInt) :
    ∃ tw', ∃ fired : List (K × Int64), step cfg duration tw (.watermark wm order) = .ok (tw', fired.map fun x =>
        (x.2 + duration, v.out (v.fold (cfg.recordsAt (getWindowStartTime cfg duration) (records past) x)))) ∧
      Inv cfg duration v (past ++ [.watermark wm order]) tw' ∧ fired.Nodup ∧
      ∀ x, x ∈ fired ↔ Live cfg (getWindowStartTime cfg duration) duration past x ∧
        x.2.toInt + duration.toInt ≤ wm.toInt := by
  obtain ⟨panes, hstore, hlists, htracks⟩ := h
  set windows := order.apply (TumblingWindowIndex.getWindowsToBeFired tw.index wm duration) with hwindows
  have hperm : windows.Perm (tw.index.getWindowsToBeFired wm duration) := order.perm _
  have hfired : ∀ x, x ∈ windows ↔ Live cfg (getWindowStartTime cfg duration) duration past x ∧
      x.2.toInt + duration.toInt ≤ wm.toInt := by
    intro x
    rw [hperm.mem_iff, mem_getWindowsToBeFired hlists, htracks.dom_iff, le_sub_iff hpos hrange, and_comm]
  have hnodup : windows.Nodup := hperm.nodup_iff.mpr (getWindowsToBeFired_nodup tw.index wm)
  have hclosed : Tracks cfg (getWindowStartTime cfg duration) duration v (past ++ [.watermark wm order])
      fun x => if x ∈ windows.dedup then none else panes x := by
    refine htracks.watermark (fun x hlt => if_neg ?_) fun x hle => ?_
    · rw [List.mem_dedup, hfired]
      omega
    · split_ifs with hin
      · rfl
      · rw [List.mem_dedup, hfired] at hin
        exact htracks.gone x fun hlive => hin ⟨hlive, hle⟩
  simp only [step, processProgressedWatermark, ← hwindows]
  split_ifs with hnil
  · refine ⟨tw, [], rfl, ⟨panes, hstore, hlists, ?_⟩, List.nodup_nil, fun x => ?_⟩
    · simpa [hnil] using hclosed
    · rw [← hfired, hnil]
  · obtain ⟨cache, value, hfetch, hcache, hvalue⟩ := fetchWindowState_spec hdur hstore hnil
    rw [hfetch, ok_bind, fires_spec hcache, ok_bind]
    refine ⟨⟨tw.backend.deleteMany (windows.dedup.map cfg.storeKey),
        windows.foldl TumblingWindowIndex.remove tw.index⟩, windows, ?_,
      ⟨_, hstore.deleteMany windows.dedup, ?_, hclosed⟩, hnodup, hfired⟩
    · refine congrArg (fun out => ok (_, out)) (List.map_congr_left fun x hx => ?_)
      rw [v.out_eq, hstore.fetched_acc (htracks.live x ((hfired x).mp hx).1) (hvalue x)]
    · intro x
      have hremoved : NestedMap.get (windows.foldl TumblingWindowIndex.remove tw.index) x.2 x.1 =
          if x ∈ windows then none else NestedMap.get tw.index x.2 x.1 :=
        NestedMap.get_foldl_delete windows tw.index x
      rw [hremoved]
      simp only [Panes.dom, List.mem_dedup]
      split_ifs
      · simp
      · exact hlists x

theorem live_iff {events : List (Event K R)} (hinput : Input cfg events)
    (x : K × Int64) : Live cfg (getWindowStartTime cfg duration) duration events x ↔
      duration.toInt ∣ x.2.toInt ∧ windowRecords cfg duration (records events) x ≠ [] ∧
        ∀ wm ∈ watermarks events, wm.toInt < x.2.toInt + duration.toInt := by
  unfold Live getWindowStartTime
  constructor
  · rintro ⟨hne, hwm⟩
    have hdvd := hinput.dvd_of_recordsAt hpos hne
    rw [hinput.recordsAt_eq_windowRecords hpos hdvd] at hne
    exact ⟨hdvd, hne, hwm⟩
  · rintro ⟨hdvd, hne, hwm⟩
    rw [hinput.recordsAt_eq_windowRecords hpos hdvd]
    exact ⟨hne, hwm⟩

/-- What one event does: it goes through, keeps the invariant and emits what is due. -/
theorem step_spec (hdur : Durable v cfg.allowIncremental) {e : Event K R}
    (hinput : Input cfg past) (hadm : Admissible cfg past e) (hrange : WatermarkInRange duration e)
    (h : Inv cfg duration v past tw) :
    ∃ tw' out, step cfg duration tw e = .ok (tw', out) ∧ Inv cfg duration v (past ++ [e]) tw' ∧
      EmitsDue cfg duration duration past past e
        (fun x => v.out (v.fold (windowRecords cfg duration (records past) x))) out := by
  cases e with
  | batch rs =>
    obtain ⟨tw', hstep, hinv⟩ := h.batch hpos hdur hadm
    exact ⟨tw', [], hstep, hinv, [], List.nodup_nil, fun x => by simp [Due], rfl⟩
  | watermark wm order =>
    obtain ⟨tw', fired, hstep, hinv, hnodup, hfired⟩ := h.watermark hpos hdur hrange
    refine ⟨tw', _, hstep, hinv, fired, hnodup, fun x => ?_, ?_⟩
    · rw [hfired, live_iff hpos hinput, Due]
      tauto
    · rw [List.map_map]
      refine List.map_congr_left fun x hx => ?_
      obtain ⟨hlive, hle⟩ := (hfired x).mp hx
      have hlow := x.2.le_toInt
      have hhigh := wm.toInt_lt
      have hend : (x.2 + duration).toInt = x.2.toInt + duration.toInt :=
        toInt_add_of_range (by omega) (by omega)
      have hrecords : cfg.recordsAt (getWindowStartTime cfg duration) (records past) x =
          windowRecords cfg duration (records past) x :=
        hinput.recordsAt_eq_windowRecords hpos ((live_iff hpos hinput x).mp hlive).1
      simp only [Function.comp_apply, hend, hrecords]

/-- **A run of the tumbling window operator**: no abort, each window with records is emitted by the first
watermark that reaches its end, with the left fold of its records, and index and state service hold the open
windows. -/
theorem run_spec (hdur : Durable v cfg.allowIncremental)
    {events : List (Event K R)} (hinput : Input cfg events) (hrange : ∀ e ∈ events, WatermarkInRange duration e) :
    ∃ tw outs, runEvents (step cfg duration) new events = .ok (tw, outs) ∧ outs.length = events.length ∧
      (∀ past e rest, events = past ++ e :: rest → ∃ out, outs[past.length]? = some out ∧
        EmitsDue cfg duration duration events past e
          (fun x => v.out (v.fold (windowRecords cfg duration (records events) x))) out) ∧
      Inv cfg duration v events tw := by
  obtain ⟨tw, outs, hrun, hinv, hlength, hemits⟩ := runEvents_rule (Inv cfg duration v)
    (fun past e => EmitsDue cfg duration duration past past e
      fun x => v.out (v.fold (windowRecords cfg duration (records past) x)))
    inv_new (fun past e tw hpast hadm hgood h => step_spec hpos hdur hpast hadm hgood h) hinput hrange
  refine ⟨tw, outs, hrun, hlength, fun past e rest hsplit => ?_, hinv⟩
  obtain ⟨out, hout, hdue⟩ := hemits past e rest hsplit
  subst hsplit
  exact ⟨out, hout, EmitsDue.of_past (fun rs => v.out (v.fold rs)) hinput hdue⟩

end

end TumblingWindow

end Window
end Koala
