import Koala.Lib.Outcome
import Mathlib

/-!
# Periodic watermarks at a source

`PeriodicWatermarkGenerator` (`internal/watermark/periodicGenerator.go`) keeps the largest record timestamp and
emits, at every timer tick, that timestamp minus the configured delay.  A receiver keeps one watermark per input
channel, `-1` at first, and dies on a watermark that is not larger (`internal/buffer/watermark.go`).

The generator skips a tick without a record and a tick at which nothing changed, but not one at which the
largest timestamp is still smaller than the delay.  `generator_accepted_iff` says for which timestamps, ticks
and delays every receiver accepts every watermark.  Timestamps are the `int64` of the source, so a negative
delay can also overflow.
-/

namespace Koala
namespace Watermark

open Lib Lib.Outcome

/-! ## The generator and its receiver -/

/-- `PeriodicWatermarkGenerator` without its interval, which only paces the ticks. -/
structure PeriodicWatermarkGenerator where
  lastGeneratedTime : Int64
  currentMaxTime : Int64
  maxAllowedDelay : Int64

namespace PeriodicWatermarkGenerator

/-- `NewPeriodicWatermarkGenerator`. -/
def new (maxAllowedDelay : Int64) : PeriodicWatermarkGenerator := ⟨-1, -1, maxAllowedDelay⟩

variable (g : PeriodicWatermarkGenerator)

/-- `GenerateWatermark`: `none` when the watermark has not progressed. -/
def generateWatermark : Option Int64 × PeriodicWatermarkGenerator :=
  if g.currentMaxTime = -1 then (none, g)
  else if g.currentMaxTime - g.maxAllowedDelay = g.lastGeneratedTime then (none, g)
  else (some (g.currentMaxTime - g.maxAllowedDelay),
    { g with lastGeneratedTime := g.currentMaxTime - g.maxAllowedDelay })

/-- `UpdateMaxRecordTimestamp`. -/
def updateMaxRecordTimestamp (newTimestamp : Int64) : PeriodicWatermarkGenerator :=
  if newTimestamp > g.currentMaxTime then { g with currentMaxTime := newTimestamp } else g

end PeriodicWatermarkGenerator

/-- What happens at a source, under the collector's lock. -/
inductive Event where
  | record (timestamp : Int64)
  | tick
  deriving DecidableEq, Repr

/-- The watermarks broadcast during a sequence of events. -/
def emitted : PeriodicWatermarkGenerator → List Event → List Int64
  | _, [] => []
  | g, .record timestamp :: events => emitted (g.updateMaxRecordTimestamp timestamp) events
  | g, .tick :: events => g.generateWatermark.1.toList ++ emitted g.generateWatermark.2 events

/-- `log.Fatalf` of `Watermark.Update`. -/
inductive UpdateAbort where
  /-- "Watermark timestamp should only increase: %d <= %d" -/
  | notIncreasing (newWM current : Int64)
  deriving DecidableEq, Repr

/-- `Watermark.Update`. -/
def update (current newWM : Int64) : Outcome UpdateAbort Int64 :=
  if newWM ≤ current then .abort (.notIncreasing newWM current) else .ok newWM

/-- An input channel whose watermark is `current` receives watermarks. -/
def receive : Int64 → List Int64 → Outcome UpdateAbort Int64
  | current, [] => .ok current
  | current, wm :: wms => update current wm >>= fun current' => receive current' wms

/-- The largest record timestamp after more events. -/
def maxTimestamp : Int64 → List Event → Int64
  | m, [] => m
  | m, .record timestamp :: events => maxTimestamp (if timestamp > m then timestamp else m) events
  | m, .tick :: events => maxTimestamp m events

/-- `timestamp` is not negative and is the largest timestamp of the records before one of the ticks. -/
def LargestAtTick (events : List Event) (timestamp : Int64) : Prop :=
  ∃ before after, events = before ++ .tick :: after ∧ .record timestamp ∈ before ∧ 0 ≤ timestamp ∧
    ∀ other, .record other ∈ before → other ≤ timestamp

/-- The largest timestamp reaches the delay up to one nanosecond and the subtraction does not overflow.  The
second case is the one overflow that goes unnoticed: it gives `-1`, the watermark "generated" at first. -/
def Reaches (delay timestamp : Int64) : Prop :=
  (delay.toInt - 1 ≤ timestamp.toInt ∧ timestamp.toInt - delay.toInt < 2 ^ 63) ∨
    (delay = Int64.minValue ∧ timestamp = Int64.maxValue)

/-! ## The largest timestamp -/

theorem le_maxTimestamp (m : Int64) (events : List Event) : m ≤ maxTimestamp m events := by
  induction events generalizing m with
  | nil => exact Int64.le_refl m
  | cons e events ih =>
    cases e with
    | record t =>
      refine Int64.le_trans ?_ (ih _)
      split_ifs with hlt
      · exact Int64.le_of_lt hlt
      · exact Int64.le_refl m
    | tick => exact ih m

variable {events : List Event}

theorem record_le_maxTimestamp (m : Int64) {t : Int64} (ht : .record t ∈ events) :
    t ≤ maxTimestamp m events := by
  induction events generalizing m with
  | nil => simp at ht
  | cons e events ih =>
    rcases List.mem_cons.mp ht with rfl | hin
    · refine Int64.le_trans ?_ (le_maxTimestamp _ events)
      split_ifs with hlt
      · exact Int64.le_refl t
      · exact Int64.not_lt.mp hlt
    · cases e with
      | record t' => exact ih _ hin
      | tick => exact ih _ hin

theorem maxTimestamp_mem (m : Int64) (events : List Event) :
    maxTimestamp m events = m ∨ .record (maxTimestamp m events) ∈ events := by
  induction events generalizing m with
  | nil => exact .inl rfl
  | cons e events ih =>
    cases e with
    | record t =>
      simp only [maxTimestamp]
      split_ifs with hlt
      · rcases ih t with hself | hin
        · rw [hself]
          exact .inr (List.mem_cons_self ..)
        · exact .inr (List.mem_cons_of_mem _ hin)
      · exact (ih m).imp_right (List.mem_cons_of_mem _)
    | tick => exact (ih m).imp_right (List.mem_cons_of_mem _)

variable {p : Int64 → Prop}

/-- `LargestAtTick` in terms of what the generator has seen at its ticks. -/
theorem largestAtTick_iff : (∀ t, LargestAtTick events t → p t) ↔
      ∀ before after, events = before ++ .tick :: after → maxTimestamp (-1) before ≠ -1 →
        p (maxTimestamp (-1) before) := by
  constructor
  · intro h before after hevents hseen
    have hlow := Int64.le_iff_toInt_le.mp (le_maxTimestamp (-1) before)
    have hne := mt Int64.toInt_inj.mp hseen
    refine h _ ⟨before, after, hevents, ?_, ?_, fun other hother => record_le_maxTimestamp (-1) hother⟩
    · exact (maxTimestamp_mem (-1) before).resolve_left hseen
    · rw [Int64.le_iff_toInt_le]
      have hone : (-1 : Int64).toInt = -1 := by decide
      have hzero : (0 : Int64).toInt = 0 := by decide
      omega
  · rintro h t ⟨before, after, hevents, hmem, hpos, hmax⟩
    have hle := record_le_maxTimestamp (-1) hmem
    have hseen : maxTimestamp (-1) before ≠ -1 := by
      intro heq
      rw [heq] at hle
      exact absurd (Int64.le_trans hpos hle) (by decide)
    have hlargest : maxTimestamp (-1) before = t :=
      Int64.le_antisymm (hmax _ ((maxTimestamp_mem (-1) before).resolve_left hseen)) hle
    exact hlargest ▸ h before after hevents hseen

/-! ## One watermark -/

theorem toInt_neg_one : (-1 : Int64).toInt = -1 := by decide

variable {m d : Int64}

theorem toInt_sub_cases (hm : 0 ≤ m.toInt) :
    ((m - d).toInt = m.toInt - d.toInt ∧ m.toInt - d.toInt < 2 ^ 63) ∨
      ((m - d).toInt = m.toInt - d.toInt - 2 ^ 64 ∧ 2 ^ 63 ≤ m.toInt - d.toInt) := by
  have hsub := Int64.toInt_sub m d
  have hm' := m.toInt_lt
  have hd := d.le_toInt
  have hd' := d.toInt_lt
  simp only [Int.bmod] at hsub
  split_ifs at hsub <;> omega

theorem reaches_iff (hm : 0 ≤ m.toInt) : Reaches d m ↔ -1 ≤ (m - d).toInt := by
  have hm' := m.toInt_lt
  have hd := d.le_toInt
  unfold Reaches
  rw [← Int64.toInt_inj, ← Int64.toInt_inj, Int64.toInt_minValue, Int64.toInt_maxValue]
  rcases toInt_sub_cases (d := d) hm with ⟨hval, hlt⟩ | ⟨hval, hge⟩ <;> omega

/-- A receiver accepts a sequence of watermarks exactly if it increases, from the current watermark on. -/
theorem receive_iff_increasing (current : Int64) (wms : List Int64) :
    (∃ last, receive current wms = .ok last) ↔ (current :: wms).Pairwise (· < ·) := by
  induction wms generalizing current with
  | nil => simp [receive]
  | cons wm wms ih =>
    rw [List.pairwise_cons, ← ih wm]
    constructor
    · rintro ⟨last, hlast⟩
      obtain ⟨next, hnext, hrest⟩ := bind_eq_ok.mp hlast
      simp only [update] at hnext
      split_ifs at hnext with hle
      cases hnext
      refine ⟨fun x hx => ?_, last, hrest⟩
      have hlt := Int64.not_le.mp hle
      rcases List.mem_cons.mp hx with rfl | hin
      · exact hlt
      · exact Int64.lt_trans hlt ((List.pairwise_cons.mp ((ih wm).mp ⟨last, hrest⟩)).1 x hin)
    · rintro ⟨hlt, last, hrest⟩
      refine ⟨last, bind_eq_ok.mpr ⟨wm, ?_, hrest⟩⟩
      rw [update, if_neg (Int64.not_le.mpr (hlt wm (List.mem_cons_self ..)))]

/-! ## A whole run -/

/-- A generator all of whose watermarks were accepted: the last one is the initial `-1` or comes from an
earlier largest timestamp. -/
structure Sound (g : PeriodicWatermarkGenerator) : Prop where
  max_ge : -1 ≤ g.currentMaxTime.toInt
  last : g.lastGeneratedTime = -1 ∨ ∃ m : Int64, 0 ≤ m.toInt ∧ m.toInt ≤ g.currentMaxTime.toInt ∧
    g.lastGeneratedTime.toInt = m.toInt - g.maxAllowedDelay.toInt ∧ 0 ≤ g.lastGeneratedTime.toInt

theorem Sound.new (delay : Int64) : Sound (.new delay) where
  max_ge := Int.le_of_eq toInt_neg_one.symm
  last := .inl rfl

variable {g : PeriodicWatermarkGenerator}

theorem Sound.record (h : Sound g) (t : Int64) :
    Sound (g.updateMaxRecordTimestamp t) := by
  unfold PeriodicWatermarkGenerator.updateMaxRecordTimestamp
  split_ifs with hlt
  · have hlt' := Int64.lt_iff_toInt_lt.mp hlt
    have hge := h.max_ge
    refine ⟨by dsimp only; omega, h.last.imp_right ?_⟩
    rintro ⟨m, hm, hle, hval⟩
    exact ⟨m, hm, by dsimp only; omega, hval⟩
  · exact h

theorem Sound.max_pos (h : Sound g) (hseen : g.currentMaxTime ≠ -1) :
    0 ≤ g.currentMaxTime.toInt := by
  have hge := h.max_ge
  have hne := mt Int64.toInt_inj.mp hseen
  rw [toInt_neg_one] at hne
  omega

/-- A largest timestamp that reaches the delay gives a watermark that is not below the last one. -/
theorem Sound.le_of_reaches (h : Sound g) (hseen : g.currentMaxTime ≠ -1)
    (hreach : Reaches g.maxAllowedDelay g.currentMaxTime) :
    g.lastGeneratedTime.toInt ≤ (g.currentMaxTime - g.maxAllowedDelay).toInt := by
  have hpos := h.max_pos hseen
  have hlow := (reaches_iff hpos).mp hreach
  rcases h.last with hinit | ⟨m, hm, hle, hval, hlast⟩
  · rw [hinit, toInt_neg_one]
    exact hlow
  · have hm' := g.lastGeneratedTime.toInt_lt
    have hd := g.maxAllowedDelay.le_toInt
    have hmax := g.currentMaxTime.toInt_lt
    rcases toInt_sub_cases (d := g.maxAllowedDelay) hpos with ⟨hsub, hlt⟩ | ⟨hsub, hge⟩ <;> omega

theorem Sound.reaches_of_le (h : Sound g) (hseen : g.currentMaxTime ≠ -1)
    (hle : g.lastGeneratedTime.toInt ≤ (g.currentMaxTime - g.maxAllowedDelay).toInt) :
    Reaches g.maxAllowedDelay g.currentMaxTime := by
  refine (reaches_iff (h.max_pos hseen)).mpr ?_
  rcases h.last with hinit | ⟨m, hm, hle', hval, hlast⟩
  · rw [hinit, toInt_neg_one] at hle
    exact hle
  · omega

theorem Sound.generate (h : Sound g) (hseen : g.currentMaxTime ≠ -1)
    (hlt : g.lastGeneratedTime.toInt < (g.currentMaxTime - g.maxAllowedDelay).toInt) :
    Sound { g with lastGeneratedTime := g.currentMaxTime - g.maxAllowedDelay } where
  max_ge := h.max_ge
  last := by
    have hpos := h.max_pos hseen
    have hge : -1 ≤ g.lastGeneratedTime.toInt := by
      rcases h.last with hinit | ⟨m, hm, hle, hval, hlast⟩
      · exact Int.le_of_eq (by rw [hinit, toInt_neg_one])
      · omega
    have hmax := g.currentMaxTime.toInt_lt
    have hd := g.maxAllowedDelay.le_toInt
    refine .inr ⟨g.currentMaxTime, hpos, Int.le_refl _, ?_⟩
    dsimp only
    rcases toInt_sub_cases (d := g.maxAllowedDelay) hpos with ⟨hsub, hsmall⟩ | ⟨hsub, hlarge⟩ <;> omega

/-- The ticks of `e :: events`, seen from the largest timestamp `m`. -/
theorem ticks_cons_record {t : Int64} :
    (∀ before after, Event.record t :: events = before ++ .tick :: after → maxTimestamp m before ≠ -1 →
        p (maxTimestamp m before)) ↔
      ∀ before after, events = before ++ .tick :: after →
        maxTimestamp (if t > m then t else m) before ≠ -1 → p (maxTimestamp (if t > m then t else m) before) := by
  constructor
  · intro h before after hevents hseen
    exact h (.record t :: before) after (by rw [hevents, List.cons_append]) hseen
  · intro h before after hevents hseen
    cases before with
    | nil => simp at hevents
    | cons e before =>
      rw [List.cons_append, List.cons.injEq] at hevents
      obtain ⟨rfl, hrest⟩ := hevents
      exact h before after hrest hseen

theorem ticks_cons_tick :
    (∀ before after, Event.tick :: events = before ++ .tick :: after → maxTimestamp m before ≠ -1 →
        p (maxTimestamp m before)) ↔
      (m ≠ -1 → p m) ∧ ∀ before after, events = before ++ .tick :: after →
        maxTimestamp m before ≠ -1 → p (maxTimestamp m before) := by
  constructor
  · intro h
    refine ⟨h [] events rfl, fun before after hevents hseen => ?_⟩
    exact h (.tick :: before) after (by rw [hevents, List.cons_append]) hseen
  · rintro ⟨hnow, hlater⟩ before after hevents hseen
    cases before with
    | nil => exact hnow hseen
    | cons e before =>
      rw [List.cons_append, List.cons.injEq] at hevents
      obtain ⟨rfl, hrest⟩ := hevents
      exact hlater before after hrest hseen

/-- From a sound generator on, the receiver accepts exactly if the delay is reached at every later tick. -/
theorem Sound.receive_iff (h : Sound g) (events : List Event) :
    (∃ last, receive g.lastGeneratedTime (emitted g events) = .ok last) ↔
      ∀ before after, events = before ++ .tick :: after → maxTimestamp g.currentMaxTime before ≠ -1 →
        Reaches g.maxAllowedDelay (maxTimestamp g.currentMaxTime before) := by
  induction events generalizing g with
  | nil => simp [emitted, receive]
  | cons e events ih =>
    cases e with
    | record t =>
      have hnext := ih (h.record t)
      rw [ticks_cons_record, emitted]
      unfold PeriodicWatermarkGenerator.updateMaxRecordTimestamp at hnext ⊢
      split_ifs at hnext ⊢ <;> exact hnext
    | tick =>
      rw [ticks_cons_tick, emitted]
      unfold PeriodicWatermarkGenerator.generateWatermark
      split_ifs with hnone hsame
      · rw [← ih h]
        simp [hnone]
      · rw [← ih h]
        have hreach := h.reaches_of_le hnone (Int.le_of_eq (by rw [hsame]))
        simp [hreach]
      · constructor
        · rintro ⟨last, hlast⟩
          obtain ⟨next, hupdate, hrest⟩ := bind_eq_ok.mp hlast
          simp only [update] at hupdate
          split_ifs at hupdate with hle
          cases hupdate
          have hlt := Int64.lt_iff_toInt_lt.mp (Int64.not_le.mp hle)
          refine ⟨fun _ => h.reaches_of_le hnone (Int.le_of_lt hlt), ?_⟩
          exact (ih (h.generate hnone hlt)).mp ⟨last, hrest⟩
        · rintro ⟨hnow, hlater⟩
          have hne := mt Int64.toInt_inj.mp hsame
          have hle := h.le_of_reaches hnone (hnow hnone)
          have hlt : g.lastGeneratedTime.toInt < (g.currentMaxTime - g.maxAllowedDelay).toInt := by omega
          obtain ⟨last, hrest⟩ := (ih (h.generate hnone hlt)).mpr hlater
          refine ⟨last, bind_eq_ok.mpr ⟨_, ?_, hrest⟩⟩
          rw [update, if_neg (Int64.not_le.mpr (Int64.lt_iff_toInt_lt.mpr hlt))]

/-- **Periodic watermarks are acceptable exactly when the delay is reached.**  For every delay and every sequence
of records and ticks, the emitted watermarks increase strictly from the initial `-1` of a channel and no
receiver dies, if and only if at every tick the largest non-negative timestamp so far reaches the delay. -/
theorem generator_accepted_iff (delay : Int64) (events : List Event) :
    (((-1) :: emitted (.new delay) events).Pairwise (· < ·) ∧
        ∃ last, receive (-1) (emitted (.new delay) events) = .ok last) ↔
      ∀ timestamp, LargestAtTick events timestamp → Reaches delay timestamp := by
  rw [← receive_iff_increasing, and_self, largestAtTick_iff]
  exact (Sound.new delay).receive_iff events

/-- A delay of ten and a first record at five: the first watermark is -5. -/
theorem generator_delay_ten :
    emitted (.new 10) [.record 5, .tick] = [-5] ∧
      receive (-1) (emitted (.new 10) [.record 5, .tick]) = .abort (.notIncreasing (-5) (-1)) := by
  decide

end Watermark
end Koala
