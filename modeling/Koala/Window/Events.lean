import Koala.Window.Aggregation
import Mathlib.Algebra.Order.Ring.Int
import Mathlib.Tactic.Ring

/-!
# What a window operator is given

A task of a window operator processes batches of records and progressed watermarks.  Go's map iteration decides
in which order the windows of one watermark are fired, so a watermark comes with an arbitrary reordering.

`Input` are the sequences without late records: a record is not older than a watermark before it, and
watermarks increase.  `Tracks` ties the abstract store of an operator to the events so far; a batch
(`Tracks.batch`) and the removal of what a watermark closes (`Tracks.watermark`) keep it.
-/

namespace Koala
namespace Window

open Lib Lib.Outcome

variable {K R OUT : Type}

/-- An order in which a Go map may be iterated. -/
structure Reordering (α : Type) where
  apply : List α → List α
  perm : ∀ l, (apply l).Perm l

/-- The work of a task: `ProcessBatch` and `ProcessProgressedWatermark`. -/
inductive Event (K R : Type) where
  | batch (records : List R)
  | watermark (timestamp : Int64) (order : Reordering (K × Int64))

/-- The records so far, in the order of their arrival. -/
def records (events : List (Event K R)) : List R :=
  events.flatMap fun
    | .batch rs => rs
    | .watermark _ _ => []

/-- The watermarks so far. -/
def watermarks (events : List (Event K R)) : List Int64 :=
  events.filterMap fun
    | .batch _ => none
    | .watermark timestamp _ => some timestamp

@[simp] theorem records_append (es es' : List (Event K R)) : records (es ++ es') = records es ++ records es' :=
  List.flatMap_append

@[simp] theorem watermarks_append (es es' : List (Event K R)) :
    watermarks (es ++ es') = watermarks es ++ watermarks es' :=
  List.filterMap_append

@[simp] theorem records_batch (rs : List R) : records [(.batch rs : Event K R)] = rs := by simp [records]

@[simp] theorem records_watermark (wm : Int64) (order : Reordering (K × Int64)) :
    records [(.watermark wm order : Event K R)] = [] := by
  simp [records]

@[simp] theorem watermarks_batch (rs : List R) : watermarks [(.batch rs : Event K R)] = [] := by
  simp [watermarks]

@[simp] theorem watermarks_watermark (wm : Int64) (order : Reordering (K × Int64)) :
    watermarks [(.watermark wm order : Event K R)] = [wm] := by
  simp [watermarks]

/-- An event may follow the events so far: a batch has records, none of them is negative or below an earlier
watermark, and watermarks increase. -/
def Admissible (cfg : Config K R OUT) (past : List (Event K R)) : Event K R → Prop
  | .batch rs => rs ≠ [] ∧ ∀ r ∈ rs, 0 ≤ cfg.getTimestamp r ∧ ∀ wm ∈ watermarks past, wm ≤ cfg.getTimestamp r
  | .watermark timestamp _ => ∀ wm ∈ watermarks past, wm < timestamp

/-- The sequences without late records. -/
inductive Input (cfg : Config K R OUT) : List (Event K R) → Prop where
  | nil : Input cfg []
  | snoc {past : List (Event K R)} {e : Event K R} : Input cfg past → Admissible cfg past e →
      Input cfg (past ++ [e])

/-- `wm.Timestamp - Duration` does not overflow. -/
def WatermarkInRange (duration : Int64) : Event K R → Prop
  | .batch _ => True
  | .watermark wm _ => -2 ^ 63 ≤ wm.toInt - duration.toInt

/-- Run an operator: its last state, and what each event emitted. -/
def runEvents {S ε : Type} (step : S → Event K R → Outcome ε (S × List (Int64 × OUT))) :
    S → List (Event K R) → Outcome ε (S × List (List (Int64 × OUT)))
  | s, [] => .ok (s, [])
  | s, e :: es => step s e >>= fun r => runEvents step r.1 es >>= fun r' => .ok (r'.1, r.2 :: r'.2)

theorem runEvents_snoc {S ε : Type} {step : S → Event K R → Outcome ε (S × List (Int64 × OUT))} {s s' s'' : S}
    {es : List (Event K R)} {outs : List (List (Int64 × OUT))} {e : Event K R} {out : List (Int64 × OUT)}
    (hrun : runEvents step s es = .ok (s', outs)) (hstep : step s' e = .ok (s'', out)) :
    runEvents step s (es ++ [e]) = .ok (s'', outs ++ [out]) := by
  induction es generalizing s outs with
  | nil =>
    cases hrun
    rw [List.nil_append, runEvents, hstep, ok_bind]
    rfl
  | cons e' es ih =>
    rw [runEvents] at hrun
    obtain ⟨r, hfirst, hrest⟩ := bind_eq_ok.mp hrun
    obtain ⟨⟨s₁, outs₁⟩, htail, heq⟩ := bind_eq_ok.mp hrest
    cases heq
    rw [List.cons_append, runEvents, hfirst, ok_bind, ih htail, ok_bind]
    rfl

/-- **The rule for runs.**  If every admissible event goes through, keeps the invariant and emits what it should,
so does a whole input. -/
theorem runEvents_rule {S ε : Type} {cfg : Config K R OUT}
    {step : S → Event K R → Outcome ε (S × List (Int64 × OUT))} {good : Event K R → Prop} {s₀ : S}
    (inv : List (Event K R) → S → Prop) (emits : List (Event K R) → Event K R → List (Int64 × OUT) → Prop)
    (hinit : inv [] s₀) (hstep : ∀ past e s, Input cfg past → Admissible cfg past e → good e → inv past s →
      ∃ s' out, step s e = .ok (s', out) ∧ inv (past ++ [e]) s' ∧ emits past e out)
    {events : List (Event K R)} (hinput : Input cfg events) (hgood : ∀ e ∈ events, good e) :
    ∃ s outs, runEvents step s₀ events = .ok (s, outs) ∧ inv events s ∧ outs.length = events.length ∧
      ∀ past e rest, events = past ++ e :: rest → ∃ out, outs[past.length]? = some out ∧ emits past e out := by
  induction hinput with
  | nil => exact ⟨s₀, [], rfl, hinit, rfl, fun past e rest h => by simp at h⟩
  | @snoc past e hpast hadmissible ih =>
    obtain ⟨s, outs, hrun, hinv, hlength, hemits⟩ := ih fun e' he' => hgood e' (by simp [he'])
    obtain ⟨s', out, hs', hinv', hout⟩ := hstep past e s hpast hadmissible (hgood e (by simp)) hinv
    refine ⟨s', outs ++ [out], runEvents_snoc hrun hs', hinv', by simp [hlength], ?_⟩
    intro past' e' rest hsplit
    rcases List.eq_nil_or_concat rest with rfl | ⟨rest', e'', rfl⟩
    · obtain ⟨rfl, heq⟩ := List.append_inj' hsplit rfl
      cases heq
      exact ⟨out, by rw [← hlength]; simp, hout⟩
    · have hsplit' : past ++ [e] = (past' ++ e' :: rest') ++ [e''] := by
        rw [hsplit]
        simp
      obtain ⟨rfl, -⟩ := List.append_inj' hsplit' rfl
      obtain ⟨out', hout', hemits'⟩ := hemits past' e' rest' rfl
      refine ⟨out', ?_, hemits'⟩
      rw [List.getElem?_append_left]
      · exact hout'
      · rw [hlength]
        simp

/-! ## Times -/

/-- `GetPaneStartTime` and `getWindowStartTime`: the start of the interval of a width that a timestamp is in. -/
def startTime (timestamp width : Int64) : Int64 := timestamp - timestamp % width

variable {a : Int64}

theorem toInt_sub_of_range {b : Int64} (hlow : -2 ^ 63 ≤ a.toInt - b.toInt) (hhigh : a.toInt - b.toInt < 2 ^ 63) :
    (a - b).toInt = a.toInt - b.toInt := by
  rw [Int64.toInt_sub]
  exact Int.bmod_eq_of_le (by omega) (by omega)

theorem toInt_add_of_range {b : Int64} (hlow : -2 ^ 63 ≤ a.toInt + b.toInt) (hhigh : a.toInt + b.toInt < 2 ^ 63) :
    (a + b).toInt = a.toInt + b.toInt := by
  rw [Int64.toInt_add]
  exact Int.bmod_eq_of_le (by omega) (by omega)

theorem toInt_nonneg_iff : 0 ≤ a ↔ 0 ≤ a.toInt := Int64.le_iff_toInt_le

/-- `winStartTime <= wm.Timestamp - Duration` says that the watermark has reached the end of the window. -/
theorem le_sub_iff {wm duration x : Int64} (hpos : 0 < duration.toInt)
    (hrange : -2 ^ 63 ≤ wm.toInt - duration.toInt) : x ≤ wm - duration ↔ x.toInt + duration.toInt ≤ wm.toInt := by
  have hupper := wm.toInt_lt
  rw [Int64.le_iff_toInt_le, toInt_sub_of_range hrange (by omega)]
  omega

section StartTime

variable {timestamp width : Int64}

/-- The remainder has the sign of the timestamp and is no larger, so the difference stays in range. -/
theorem toInt_startTime : (startTime timestamp width).toInt = timestamp.toInt - timestamp.toInt.tmod width.toInt := by
  have hlow := timestamp.le_toInt
  have hupper := timestamp.toInt_lt
  have hle := Nat.mod_le timestamp.toInt.natAbs width.toInt.natAbs
  rw [← Int.natAbs_tmod] at hle
  have hpos := Int.tmod_nonneg (a := timestamp.toInt) width.toInt
  have hneg := Int.tmod_nonneg (a := -timestamp.toInt) width.toInt
  rw [Int.neg_tmod] at hneg
  rw [startTime, toInt_sub_of_range, Int64.toInt_mod] <;> rw [Int64.toInt_mod] <;> omega

/-- `%` rounds towards zero: a negative timestamp inside an interval is given the end of the interval. -/
theorem startTime_le_iff : (startTime timestamp width).toInt ≤ timestamp.toInt ↔
    0 ≤ timestamp ∨ width.toInt ∣ timestamp.toInt := by
  have hsign := Int.sign_tmod timestamp.toInt width.toInt
  rw [toInt_startTime, toInt_nonneg_iff, sub_le_self_iff, ← Int.sign_nonneg_iff, hsign]
  split_ifs with hdvd <;> simp [hdvd, Int.sign_nonneg_iff]

theorem startTime_nonneg (htimestamp : 0 ≤ timestamp) (hwidth : 0 < width.toInt) :
    0 ≤ (startTime timestamp width).toInt := by
  rw [toInt_startTime, Int.tmod_def, sub_sub_cancel]
  exact Int.mul_nonneg hwidth.le (Int.tdiv_nonneg (toInt_nonneg_iff.mp htimestamp) hwidth.le)

variable (hfloor : 0 ≤ timestamp ∨ width.toInt ∣ timestamp.toInt) (hwidth : 0 < width.toInt)

include hfloor hwidth

theorem startTime_eq_iff {x : Int} : (startTime timestamp width).toInt = x ↔
    width.toInt ∣ x ∧ x ≤ timestamp.toInt ∧ timestamp.toInt < x + width.toInt := by
  have hmod : timestamp.toInt.tmod width.toInt = timestamp.toInt % width.toInt := by
    rcases hfloor with hnonneg | hdvd
    · exact Int.tmod_eq_emod_of_nonneg (toInt_nonneg_iff.mp hnonneg)
    · rw [Int.tmod_eq_zero_of_dvd hdvd, Int.emod_eq_zero_of_dvd hdvd]
  have hlow := Int.emod_nonneg timestamp.toInt hwidth.ne'
  have hhigh := Int.emod_lt_of_pos timestamp.toInt hwidth
  rw [toInt_startTime, hmod]
  constructor
  · rintro rfl
    exact ⟨Int.dvd_self_sub_emod, by omega, by omega⟩
  · rintro ⟨⟨q, rfl⟩, hle, hlt⟩
    have hrest : timestamp.toInt / width.toInt = q ∧
        timestamp.toInt % width.toInt = timestamp.toInt - width.toInt * q :=
      (Int.ediv_emod_unique hwidth).mpr ⟨sub_add_cancel .., by omega, by omega⟩
    omega

theorem startTime_spec : width.toInt ∣ (startTime timestamp width).toInt ∧
    (startTime timestamp width).toInt ≤ timestamp.toInt ∧
      timestamp.toInt < (startTime timestamp width).toInt + width.toInt :=
  (startTime_eq_iff hfloor hwidth).mp rfl

end StartTime

/-! ## What the events demand of the store -/

section Tracks

variable [DecidableEq K] (cfg : Config K R OUT) (start : R → Int64) (duration : Int64)

/-- A pane has records and no watermark has reached the end of the last window it belongs to. -/
def Live (events : List (Event K R)) (x : K × Int64) : Prop :=
  cfg.recordsAt start (records events) x ≠ [] ∧
    ∀ wm ∈ watermarks events, wm.toInt < x.2.toInt + duration.toInt

/-- The abstract store after some events: the folds of the live panes. -/
structure Tracks {A : Type} (v : View cfg.aggregator A) (events : List (Event K R)) (panes : Panes K A) : Prop where
  live : ∀ x, Live cfg start duration events x →
    panes x = some (v.fold (cfg.recordsAt start (records events) x))
  gone : ∀ x, ¬ Live cfg start duration events x → panes x = none

variable {cfg start duration} {A : Type} {v : View cfg.aggregator A} {events : List (Event K R)}
  {panes : Panes K A}

theorem Tracks.dom_iff (h : Tracks cfg start duration v events panes) (x : K × Int64) :
    panes.dom x ↔ Live cfg start duration events x := by
  unfold Panes.dom
  by_cases hlive : Live cfg start duration events x
  · simp [h.live x hlive, hlive]
  · simp [h.gone x hlive, hlive]

theorem Tracks.nil : Tracks cfg start duration v [] fun _ => none :=
  ⟨fun _ hlive => absurd rfl hlive.1, fun _ _ => rfl⟩

theorem recordsAt_records_append (es : List (Event K R)) (rs : List R) (x : K × Int64) :
    cfg.recordsAt start (records es ++ rs) x = cfg.recordsAt start (records es) x ++ cfg.recordsAt start rs x :=
  List.filter_append ..

theorem Tracks.batch (h : Tracks cfg start duration v events panes) {rs : List R}
    (hadmissible : Admissible cfg events (.batch rs))
    (hstart : ∀ r ∈ rs, (cfg.getTimestamp r).toInt < (start r).toInt + duration.toInt) :
    Tracks cfg start duration v (events ++ [.batch rs]) (Panes.addAll v start panes rs) := by
  -- a pane that gets a record is not closed
  have hopen : ∀ x, cfg.recordsAt start rs x ≠ [] →
      ∀ wm ∈ watermarks events, wm.toInt < x.2.toInt + duration.toInt := by
    intro x hx wm hwm
    obtain ⟨r, hr⟩ := List.exists_mem_of_ne_nil _ hx
    obtain ⟨hr, hat⟩ := List.mem_filter.mp hr
    have hle := Int64.le_iff_toInt_le.mp ((hadmissible.2 r hr).2 wm hwm)
    have hlt := hstart r hr
    have hx2 : start r = x.2 := congrArg Prod.snd (of_decide_eq_true hat)
    rw [hx2] at hlt
    omega
  have hlive : ∀ x, Live cfg start duration (events ++ [.batch rs]) x ↔
      Live cfg start duration events x ∨ cfg.recordsAt start rs x ≠ [] := by
    intro x
    simp only [Live, records_append, records_batch, watermarks_append, watermarks_batch, List.append_nil,
      recordsAt_records_append]
    constructor
    · rintro ⟨hne, hwm⟩
      by_cases hnil : cfg.recordsAt start rs x = []
      · rw [hnil, List.append_nil] at hne
        exact .inl ⟨hne, hwm⟩
      · exact .inr hnil
    · rintro (⟨hne, hwm⟩ | hne)
      · exact ⟨List.append_ne_nil_of_left_ne_nil hne _, hwm⟩
      · exact ⟨List.append_ne_nil_of_right_ne_nil _ hne, hopen x hne⟩
  refine ⟨fun x hx => ?_, fun x hx => ?_⟩
  · rw [Panes.addAll_apply, records_append, records_batch, recordsAt_records_append]
    by_cases hnil : cfg.recordsAt start rs x = []
    · rw [if_pos hnil, hnil, List.append_nil]
      exact h.live x (((hlive x).mp hx).resolve_right (not_not.mpr hnil))
    · rw [if_neg hnil, View.fold, List.foldl_append]
      by_cases hold : Live cfg start duration events x
      · rw [h.live x hold]
        rfl
      · have hnone : cfg.recordsAt start (records events) x = [] := by
          by_contra hne
          exact hold ⟨hne, hopen x hnil⟩
        rw [h.gone x hold, hnone]
        rfl
  · rw [hlive, not_or, not_not] at hx
    rw [Panes.addAll_apply, if_pos hx.2]
    exact h.gone x hx.1

theorem Tracks.watermark (h : Tracks cfg start duration v events panes) {wm : Int64}
    {order : Reordering (K × Int64)} {panes' : Panes K A}
    (hkept : ∀ x, wm.toInt < x.2.toInt + duration.toInt → panes' x = panes x)
    (hclosed : ∀ x, x.2.toInt + duration.toInt ≤ wm.toInt → panes' x = none) :
    Tracks cfg start duration v (events ++ [.watermark wm order]) panes' := by
  have hlive : ∀ x, Live cfg start duration (events ++ [.watermark wm order]) x ↔
      Live cfg start duration events x ∧ wm.toInt < x.2.toInt + duration.toInt := by
    intro x
    simp only [Live, records_append, records_watermark, watermarks_append, watermarks_watermark, List.append_nil,
      List.mem_append, List.mem_singleton, or_imp, forall_and, forall_eq]
    tauto
  refine ⟨fun x hx => ?_, fun x hx => ?_⟩
  · obtain ⟨hx, hlt⟩ := (hlive x).mp hx
    rw [hkept x hlt, records_append, records_watermark, List.append_nil]
    exact h.live x hx
  · by_cases hlt : wm.toInt < x.2.toInt + duration.toInt
    · rw [hkept x hlt]
      exact h.gone x fun hx' => hx ((hlive x).mpr ⟨hx', hlt⟩)
    · exact hclosed x (by omega)

end Tracks

/-! ## What the operators are for -/

section Exact

variable [DecidableEq K] (cfg : Config K R OUT) (duration slide : Int64)

/-- The records of a key in a window, in the order of their arrival. -/
def windowRecords (rs : List R) (x : K × Int64) : List R :=
  rs.filter fun r => cfg.getKey r = x.1 ∧ x.2.toInt ≤ (cfg.getTimestamp r).toInt ∧
    (cfg.getTimestamp r).toInt < x.2.toInt + duration.toInt

/-- The window of a key has records among those of `events`, and `e` is the first watermark to reach its end. -/
def Due (events past : List (Event K R)) (x : K × Int64) : Event K R → Prop
  | .batch _ => False
  | .watermark wm _ => slide.toInt ∣ x.2.toInt ∧ windowRecords cfg duration (records events) x ≠ [] ∧
      x.2.toInt + duration.toInt ≤ wm.toInt ∧ ∀ wm' ∈ watermarks past, wm'.toInt < x.2.toInt + duration.toInt

/-- An event emits the results of the windows that are due, each once and with the end of the window as its
timestamp, and nothing else. -/
def EmitsDue (events past : List (Event K R)) (e : Event K R) (result : K × Int64 → OUT)
    (out : List (Int64 × OUT)) : Prop :=
  ∃ fired : List (K × Int64), fired.Nodup ∧ (∀ x, x ∈ fired ↔ Due cfg duration slide events past x e) ∧
    out.map (fun o => (o.1.toInt, o.2)) = fired.map fun x => (x.2.toInt + duration.toInt, result x)

variable {cfg duration slide}

variable {past rest : List (Event K R)}

omit [DecidableEq K] in
theorem Input.admissible {e : Event K R} (h : Input cfg (past ++ e :: rest)) : Admissible cfg past e := by
  induction rest using List.reverseRecOn with
  | nil =>
    generalize heq : past ++ [e] = es at h
    cases h with
    | nil => simp at heq
    | snoc _ hadm =>
      obtain ⟨rfl, h⟩ := List.append_inj' heq rfl
      cases h
      exact hadm
  | append_singleton rest e' ih =>
    generalize heq : past ++ e :: (rest ++ [e']) = es at h
    cases h with
    | nil => simp at heq
    | @snoc past' e'' hpast _ =>
      have heq' : (past ++ e :: rest) ++ [e'] = past' ++ [e''] := by
        rw [← heq]
        simp
      obtain ⟨rfl, -⟩ := List.append_inj' heq' rfl
      exact ih hpast

variable {events : List (Event K R)}

omit [DecidableEq K] in
theorem Input.mem_records {r : R} (hr : r ∈ records events) :
    ∃ past rs rest, events = past ++ .batch rs :: rest ∧ r ∈ rs := by
  obtain ⟨e, he, hin⟩ := List.mem_flatMap.mp hr
  obtain ⟨past, rest, rfl⟩ := List.append_of_mem he
  cases e with
  | batch rs => exact ⟨past, rs, rest, rfl, hin⟩
  | watermark _ _ => cases hin

omit [DecidableEq K] in
theorem Input.timestamp_nonneg (h : Input cfg events) {r : R} (hr : r ∈ records events) : 0 ≤ cfg.getTimestamp r := by
  obtain ⟨past, rs, rest, rfl, hin⟩ := Input.mem_records hr
  exact (h.admissible.2 r hin).1

variable {x : K × Int64}

theorem Input.recordsAt_eq_windowRecords (h : Input cfg events) (hpos : 0 < duration.toInt)
    (hx : duration.toInt ∣ x.2.toInt) :
    cfg.recordsAt (fun r => startTime (cfg.getTimestamp r) duration) (records events) x =
      windowRecords cfg duration (records events) x := by
  refine List.filter_congr fun r hr => ?_
  have hstart := startTime_eq_iff (.inl (h.timestamp_nonneg hr)) hpos (x := x.2.toInt)
  refine Bool.decide_congr ?_
  rw [Prod.ext_iff, ← Int64.toInt_inj, hstart, and_iff_right hx]

theorem Input.dvd_of_recordsAt (h : Input cfg events) (hpos : 0 < duration.toInt)
    (hx : cfg.recordsAt (fun r => startTime (cfg.getTimestamp r) duration) (records events) x ≠ []) :
    duration.toInt ∣ x.2.toInt := by
  obtain ⟨r, hr⟩ := List.exists_mem_of_ne_nil _ hx
  obtain ⟨hr, hat⟩ := List.mem_filter.mp hr
  rw [← of_decide_eq_true hat]
  exact (startTime_spec (.inl (h.timestamp_nonneg hr)) hpos).1

theorem Input.windowRecords_eq {wm : Int64} {order : Reordering (K × Int64)}
    (h : Input cfg (past ++ .watermark wm order :: rest)) (hx : x.2.toInt + duration.toInt ≤ wm.toInt) :
    windowRecords cfg duration (records (past ++ .watermark wm order :: rest)) x =
      windowRecords cfg duration (records past) x := by
  have hrest : windowRecords cfg duration (records rest) x = [] := by
    refine List.filter_eq_nil_iff.mpr fun r hr => ?_
    obtain ⟨mid, rs, rest', rfl, hin⟩ := Input.mem_records hr
    have h' : Input cfg ((past ++ .watermark wm order :: mid) ++ .batch rs :: rest') := by simpa using h
    have hle := Int64.le_iff_toInt_le.mp ((h'.admissible.2 r hin).2 wm (by simp [watermarks]))
    simp only [decide_eq_true_eq, not_and, not_lt]
    intro _ _
    omega
  have hrecords : records (past ++ .watermark wm order :: rest) = records past ++ records rest := by
    rw [records_append]
    rfl
  rw [hrecords, windowRecords, List.filter_append]
  change windowRecords cfg duration _ x ++ windowRecords cfg duration (records rest) x = _
  rw [hrest, List.append_nil]

theorem EmitsDue.of_past (result : List R → OUT) {e : Event K R} (h : Input cfg (past ++ e :: rest))
    {out : List (Int64 × OUT)}
    (hemits : EmitsDue cfg duration slide past past e (fun x => result (windowRecords cfg duration (records past) x)) out) :
    EmitsDue cfg duration slide (past ++ e :: rest) past e
      (fun x => result (windowRecords cfg duration (records (past ++ e :: rest)) x)) out := by
  obtain ⟨fired, hnodup, hfired, hout⟩ := hemits
  cases e with
  | batch rs =>
    have hnil : fired = [] := List.eq_nil_iff_forall_not_mem.mpr fun x hx => (hfired x).mp hx
    subst hnil
    exact ⟨[], hnodup, fun x => by simp [Due], hout⟩
  | watermark wm order =>
    have hsame : ∀ x : K × Int64, x.2.toInt + duration.toInt ≤ wm.toInt →
        windowRecords cfg duration (records (past ++ .watermark wm order :: rest)) x =
          windowRecords cfg duration (records past) x := fun x hx => h.windowRecords_eq hx
    refine ⟨fired, hnodup, fun x => ?_, ?_⟩
    · rw [hfired]
      simp only [Due]
      constructor
      · rintro ⟨hdvd, hne, hle, hpast⟩
        exact ⟨hdvd, by rwa [hsame x hle], hle, hpast⟩
      · rintro ⟨hdvd, hne, hle, hpast⟩
        exact ⟨hdvd, by rwa [hsame x hle] at hne, hle, hpast⟩
    · rw [hout]
      refine List.map_congr_left fun x hx => ?_
      have hle := ((hfired x).mp hx).2.2.1
      simp only [hsame x hle]

end Exact

end Window
end Koala
