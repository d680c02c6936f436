import Koala.Lib.Machine
import Koala.Metadata.Operators
import Koala.StateClient.ListFlush

/-!
# Custom window join

`CustomWindowJoin` (`api/dataflow/customWindowJoin.go`) calls the user for every record of its two inputs and for
every timer that a watermark has reached.  A callback works on the two states of its key; callbacks for records may
register timers.  All callbacks of a batch or of a watermark share one Fetch..Flush cycle.

What a callback does may depend on what it reads from its states.  Its calls are known afterwards, so that a batch is a
cycle of `StateClient.cycle` with the calls of all its callbacks.
-/

namespace Koala
namespace Window

open Lib Lib.Outcome State StateClient
open Metadata (ActiveTimers NoEmptyInner)
open List (append_inj' map_eq_nil_iff map_map mem_flatMap mem_map)

/-- `Get` of a state object. -/
def getState : (d : StateDecl) → d.type.State → d.type.Res
  | .value V _ => fun s : ValueState V => s.get
  | .list V _ => fun s : ListState V => s.state

section

variable (decl : Nat → StateDecl)

/-- What a callback reads from its two states. -/
abbrev Seen := (i : Fin 2) → (decl i).type.Res

/-- A call on one of the two states. -/
abbrev Call := (i : Fin 2) × (decl i).type.Op

/-- What a callback does. -/
structure Reaction where
  calls : List (Call decl)
  /-- `RegisterTimer` -/
  timers : List Int64

/-- A callback: for a record, or `OnTimer`, which has no `TimerService`. -/
inductive Callback (K : Type) where
  | record (key : K) (f : Seen decl → Reaction decl)
  | timer (key : K) (timestamp : Int64) (f : Seen decl → List (Call decl))

/-- What happened in a callback. -/
structure Called (K : Type) where
  key : K
  timer : Option Int64
  seen : Seen decl
  reaction : Reaction decl

variable {decl} {K : Type}

def Callback.key : Callback decl K → K
  | .record key _ => key
  | .timer key _ _ => key

/-- The timer that is fired. -/
def Callback.fires : Callback decl K → Option Int64
  | .record _ _ => none
  | .timer _ timestamp _ => some timestamp

/-- The key of a callback, and the timer if it is one. -/
def Callback.who (f : Callback decl K) : K × Option Int64 := (f.key, f.fires)

@[inherit_doc Callback.who]
def Called.who (c : Called decl K) : K × Option Int64 := (c.key, c.timer)

def Callback.react : Callback decl K → Seen decl → Reaction decl
  | .record _ f, seen => f seen
  | .timer _ _ f, seen => ⟨f seen, []⟩

end

/-- The two states, how they are stored, and the functions of the user. -/
structure Join (K IN₁ IN₂ : Type) where
  decl : Nat → StateDecl
  serializedKey : Slot K → Bytes
  serializedKey_injective : Function.Injective serializedKey
  allowIncremental : Bool
  getKey₁ : IN₁ → K
  getKey₂ : IN₂ → K
  f₁ : IN₁ → Seen decl → Reaction decl
  f₂ : IN₂ → Seen decl → Reaction decl
  onTimer : Int64 → Seen decl → List (Call decl)

variable {K IN₁ IN₂ : Type} [DecidableEq K]

/-- The timers after a callback: a record registers some, a fired timer is removed. -/
def Callback.updateTimers {decl : Nat → StateDecl} (seen : Seen decl) (timers : ActiveTimers K) :
    Callback decl K → ActiveTimers K
  | .record key f => (f seen).timers.foldl (fun timers t => ActiveTimers.add timers key t) timers
  | .timer key timestamp _ => ActiveTimers.remove timers key timestamp

namespace Join

variable (j : Join K IN₁ IN₂)

abbrev sch : Schema K := .ofDecls j.decl j.serializedKey j.serializedKey_injective

/-- The operator, with all callbacks so far. -/
structure State where
  backend : Backend
  timers : ActiveTimers K
  log : List (Called j.decl K)

/-- What the loops over callbacks carry: the cached states, with everything read from them, the timers and the log. -/
structure Loop where
  states : Cache j.sch × Answers j.sch
  timers : ActiveTimers K
  log : List (Called j.decl K)

/-- The calls of a callback on the states of its key. -/
def userOps (c : Called j.decl K) : List (UserOp j.sch) := c.reaction.calls.map fun call => ⟨⟨call.1, c.key⟩, call.2⟩

/-- The body of the loops of `processBatchCustomWindowJoin` and `ProcessProgressedWatermark`. -/
def call (c : j.Loop) (f : Callback j.decl K) : Outcome WindowAbort j.Loop :=
  if h : ∀ i : Fin 2, (c.states.1 ⟨i, f.key⟩).isSome then do
    let seen : Seen j.decl := fun i => getState (j.decl i) ((c.states.1 ⟨i, f.key⟩).get (h i))
    let called : Called j.decl K := ⟨f.key, f.fires, seen, f.react seen⟩
    let states ← (forEach (j.userOps called) (userOp j.sch) c.states).mapAbort .state
    pure ⟨states, f.updateTimers seen c.timers, c.log ++ [called]⟩
  else .abort (.state .notInCache)

/-- `FetchSimpleState`, the callbacks, `FlushSimpleState`. -/
def process (s : j.State) (callbacks : List (Callback j.decl K)) : Outcome WindowAbort j.State :=
  if h : callbacks.map Callback.key = [] then .abort .emptyKeys
  else do
    let req : Request K := ⟨callbacks.map Callback.key, [0, 1], h, by decide, by decide⟩
    let cache ← (fetch j.sch s.backend req.slots).mapAbort .state
    let c ← forEach callbacks j.call ⟨(cache, fun _ => []), s.timers, s.log⟩
    let b ← (flush j.sch j.allowIncremental s.backend c.states.1 req.slots).mapAbort .state
    pure ⟨b, c.timers, c.log⟩

/-- `getExpiredTimers`: by timestamp, and in any order for one timestamp. -/
def getExpiredTimers (timers : ActiveTimers K) (curTime : Int64) (order : Int64 → VisitOrder K Unit) :
    List (K × Int64) :=
  ((AList.keys timers).filter (· ≤ curTime)).insertionSort (· ≤ ·) |>.flatMap fun t =>
    ((order t).visit ((GoMap.get timers t).getD ∅)).map fun e => (e.1, t)

/-- `ProcessProgressedWatermark`. -/
def processProgressedWatermark (s : j.State) (wm : Int64) (order : Int64 → VisitOrder K Unit) :
    Outcome WindowAbort j.State :=
  let expired := getExpiredTimers s.timers wm order
  if expired = [] then .ok s else j.process s (expired.map fun x => .timer x.1 x.2 (j.onTimer x.2))

/-- The work of a task. -/
inductive Event (K IN₁ IN₂ : Type) where
  | batch₁ (records : List IN₁)
  | batch₂ (records : List IN₂)
  | watermark (timestamp : Int64) (order : Int64 → VisitOrder K Unit)

/-- `ProcessBatch` and `ProcessProgressedWatermark`. -/
def step (s : j.State) : Event K IN₁ IN₂ → Outcome WindowAbort j.State
  | .batch₁ records => j.process s (records.map fun r => .record (j.getKey₁ r) (j.f₁ r))
  | .batch₂ records => j.process s (records.map fun r => .record (j.getKey₂ r) (j.f₂ r))
  | .watermark timestamp order => j.processProgressedWatermark s timestamp order

def machine : Machine j.State (Event K IN₁ IN₂) WindowAbort where
  init s := s = ⟨∅, ∅, []⟩
  step := j.step

/-! ## Timers -/

/-- A timer was registered and has not been fired since. -/
def Pending {decl : Nat → StateDecl} (log : List (Called decl K)) (k : K) (t : Int64) : Prop :=
  ∃ before c after, log = before ++ c :: after ∧ (c.key = k ∧ t ∈ c.reaction.timers) ∧
    ∀ c' ∈ after, ¬ (c'.key = k ∧ c'.timer = some t)

section Timers

variable {decl : Nat → StateDecl} {log : List (Called decl K)} {timers : ActiveTimers K} {k : K} {t : Int64}

omit [DecidableEq K] in
theorem pending_append (c : Called decl K) : Pending (log ++ [c]) k t ↔
    (c.key = k ∧ t ∈ c.reaction.timers) ∨ (Pending log k t ∧ ¬ (c.key = k ∧ c.timer = some t)) := by
  constructor
  · rintro ⟨before, x, after, hsplit, hregistered, hlater⟩
    rcases List.eq_nil_or_concat after with rfl | ⟨after, y, rfl⟩
    · obtain ⟨-, heq⟩ := append_inj' hsplit rfl
      obtain rfl := (List.cons.inj heq).1
      exact .inl hregistered
    · rw [List.concat_eq_append, ← List.cons_append, ← List.append_assoc] at hsplit
      obtain ⟨rfl, heq⟩ := append_inj' hsplit rfl
      obtain rfl := (List.cons.inj heq).1
      exact .inr ⟨⟨before, x, after, rfl, hregistered, fun c' hc' => hlater c' (by simp [hc'])⟩, hlater c (by simp)⟩
  · rintro (hnow | ⟨⟨before, x, after, rfl, hregistered, hlater⟩, hnot⟩)
    · exact ⟨log, c, [], rfl, hnow, nofun⟩
    · refine ⟨before, x, after ++ [c], by simp, hregistered, fun c' hc' => ?_⟩
      rcases List.mem_append.mp hc' with hin | hlast
      · exact hlater c' hin
      · rwa [List.mem_singleton.mp hlast]

/-- The active timers are the pending ones. -/
structure TimersOk (log : List (Called decl K)) (timers : ActiveTimers K) : Prop where
  active : ∀ k t, (NestedMap.get timers t k).isSome ↔ Pending log k t
  noEmpty : NoEmptyInner timers

theorem get_registered (k' : K) (ts : List Int64) :
    (NestedMap.get (ts.foldl (fun timers t => ActiveTimers.add timers k' t) timers) t k).isSome ↔
      (k' = k ∧ t ∈ ts) ∨ (NestedMap.get timers t k).isSome := by
  induction ts generalizing timers with
  | nil => simp
  | cons t' ts ih =>
    rw [List.foldl_cons, ih, ActiveTimers.add, NestedMap.get_set]
    split_ifs with heq
    · obtain ⟨rfl, rfl⟩ := Prod.mk.inj heq
      simp
    · have hne : ¬ (k' = k ∧ t = t') := fun h => heq (Prod.ext h.2 h.1.symm)
      rw [List.mem_cons, and_or_left, or_iff_right hne]

theorem noEmptyInner_registered (h : NoEmptyInner timers) (k : K) (ts : List Int64) :
    NoEmptyInner (ts.foldl (fun timers t => ActiveTimers.add timers k t) timers) := by
  induction ts generalizing timers with
  | nil => exact h
  | cons t ts ih => exact ih (Metadata.noEmptyInner_set h t k ())

theorem noEmptyInner_delete {m : NestedMap Int64 K Unit} (h : NoEmptyInner m) (t : Int64) (k : K) :
    NoEmptyInner (m.delete t k) := by
  intro t' inner hget
  unfold NestedMap.delete at hget
  cases hm : GoMap.get m t with
  | none =>
    rw [hm] at hget
    exact h t' inner hget
  | some old =>
    rw [hm] at hget
    dsimp only at hget
    split_ifs at hget with hnil
    · rw [GoMap.get_delete] at hget
      split_ifs at hget
      exact h t' inner hget
    · rw [GoMap.get_set] at hget
      split_ifs at hget
      · cases hget
        exact fun hpairs => hnil (map_eq_nil_iff.mp hpairs)
      · exact h t' inner hget

/-- **One callback** keeps the active timers right. -/
theorem TimersOk.call (h : TimersOk log timers) (f : Callback decl K) (seen : Seen decl) :
    TimersOk (log ++ [⟨f.key, f.fires, seen, f.react seen⟩]) (f.updateTimers seen timers) := by
  cases f with
  | record key f =>
    refine ⟨fun k t => ?_, noEmptyInner_registered h.noEmpty key _⟩
    rw [pending_append, ← h.active]
    exact (get_registered key _).trans (or_congr_right (and_iff_left nofun).symm)
  | timer key timestamp f =>
    refine ⟨fun k t => ?_, noEmptyInner_delete h.noEmpty timestamp key⟩
    rw [pending_append, ← h.active, Callback.updateTimers, ActiveTimers.remove, NestedMap.get_delete]
    split_ifs with heq
    · obtain ⟨rfl, rfl⟩ := Prod.mk.inj heq
      simp [Callback.key, Callback.fires, Callback.react]
    · have hne : ¬ (key = k ∧ (some timestamp : Option Int64) = some t) := fun h =>
        heq (Prod.ext (Option.some.inj h.2).symm h.1.symm)
      exact (and_iff_left hne).symm.trans (or_iff_right fun hnow => absurd hnow.2 List.not_mem_nil).symm

/-- **The expired timers**: each active one that the watermark has reached, once, by timestamp. -/
theorem getExpiredTimers_spec (timers : ActiveTimers K) (wm : Int64) (order : Int64 → VisitOrder K Unit) :
    (getExpiredTimers timers wm order).Nodup ∧ (getExpiredTimers timers wm order).Pairwise (fun x y => x.2 ≤ y.2) ∧
    ∀ x, x ∈ getExpiredTimers timers wm order ↔ (NestedMap.get timers x.2 x.1).isSome ∧ x.2 ≤ wm := by
  set times := ((AList.keys timers).filter (· ≤ wm)).insertionSort (· ≤ ·) with htimes
  have hperm : times.Perm ((AList.keys timers).filter (· ≤ wm)) := List.perm_insertionSort _ _
  have hnodup : times.Nodup := hperm.nodup_iff.mpr ((AList.keys_nodup timers).filter _)
  have hsorted : times.Pairwise (· ≤ ·) := List.pairwise_insertionSort _ _
  have htime : ∀ t x, x ∈ ((order t).visit ((GoMap.get timers t).getD ∅)).map (fun e => (e.1, t)) → x.2 = t := by
    intro t x hx
    obtain ⟨e, -, rfl⟩ := mem_map.mp hx
    rfl
  refine ⟨List.nodup_flatMap.mpr ⟨fun t _ => ?_, ?_⟩, List.pairwise_flatMap.mpr ⟨fun t _ => ?_, ?_⟩, fun x => ?_⟩
  · have hkeys := ((order t).keys_nodup ((GoMap.get timers t).getD ∅)).map (f := fun k => (k, t))
      fun _ _ h => (Prod.mk.inj h).1
    rwa [map_map] at hkeys
  · refine hnodup.imp fun {t t'} hne x hx hx' => hne ?_
    rw [← htime t x hx, htime t' x hx']
  · exact List.pairwise_of_forall_mem_list fun x hx y hy => by
      rw [htime t x hx, htime t y hy]
      exact Int64.le_refl t
  · refine hsorted.imp fun {t t'} hle x hx y hy => ?_
    rwa [htime t x hx, htime t' y hy]
  · rw [getExpiredTimers, mem_flatMap]
    constructor
    · rintro ⟨t, ht, hx⟩
      obtain ⟨⟨k, u⟩, he, rfl⟩ := mem_map.mp hx
      rw [VisitOrder.mem_visit] at he
      obtain ⟨-, hle⟩ := List.mem_filter.mp (hperm.mem_iff.mp ht)
      refine ⟨?_, of_decide_eq_true hle⟩
      cases hget : GoMap.get timers t with
      | none => simp [hget] at he
      | some inner =>
        rw [hget] at he
        rw [NestedMap.get, hget, Option.bind_some]
        exact Option.isSome_iff_exists.mpr ⟨u, he⟩
    · rintro ⟨hactive, hle⟩
      obtain ⟨u, hu⟩ := Option.isSome_iff_exists.mp hactive
      obtain ⟨inner, hinner, hget⟩ := Option.bind_eq_some_iff.mp hu
      refine ⟨x.2, hperm.mem_iff.mpr (List.mem_filter.mpr ⟨?_, decide_eq_true hle⟩), mem_map.mpr ⟨(x.1, u), ?_, rfl⟩⟩
      · rw [GoMap.mem_keys_iff, hinner]
        rfl
      · rw [VisitOrder.mem_visit, hinner]
        exact hget

end Timers

/-! ## States -/

/-- The content of a state as callbacks have left it. -/
def left (log : List (Called j.decl K)) (s : Slot K) : List (j.decl s.stateID).Val :=
  (effectsAt j.decl j.serializedKey j.serializedKey_injective s (log.flatMap j.userOps)).foldl Effect.direct []

/-- All calls of a callback have a property. -/
def Calls (p : Call j.decl → Prop) (f : Callback j.decl K) : Prop := ∀ seen, ∀ call ∈ (f.react seen).calls, p call

/-- The call does not clear the state. -/
def Keeps (call : Call j.decl) : Prop := ¬ ((j.decl call.1).effect call.2).IsClear

/-- The call passes no empty list. -/
def PassesValues (call : Call j.decl) : Prop := (j.decl call.1).OpNonEmpty call.2

/-- Every callback sees the states of its key as the earlier callbacks for the key have left them. -/
def SeesLeft (log : List (Called j.decl K)) : Prop :=
  ∀ before c after, log = before ++ c :: after → ∀ i : Fin 2, c.seen i = (j.decl i).view (j.left before ⟨i, c.key⟩)

structure Inv (s : j.State) : Prop where
  stored : ∀ sl : Slot K, (j.decl sl.stateID).Represents (s.backend.get (j.serializedKey sl)) (j.left s.log sl)
  sees : j.SeesLeft s.log
  timers : TimersOk s.log s.timers

variable {j} {log new : List (Called j.decl K)}

theorem left_append (log new : List (Called j.decl K)) (sl : Slot K) : j.left (log ++ new) sl =
    (effectsAt j.decl j.serializedKey j.serializedKey_injective sl (new.flatMap j.userOps)).foldl Effect.direct
      (j.left log sl) := by
  unfold left effectsAt
  rw [List.flatMap_append, opsAt_append, List.map_append, List.foldl_append]

theorem SeesLeft.append (h : j.SeesLeft log) {c : Called j.decl K}
    (hc : ∀ i : Fin 2, c.seen i = (j.decl i).view (j.left log ⟨i, c.key⟩)) : j.SeesLeft (log ++ [c]) := by
  intro before x after hsplit
  rcases List.eq_nil_or_concat after with rfl | ⟨after, y, rfl⟩
  · obtain ⟨rfl, heq⟩ := append_inj' hsplit rfl
    obtain rfl := (List.cons.inj heq).1
    exact hc
  · rw [List.concat_eq_append, ← List.cons_append, ← List.append_assoc] at hsplit
    exact h before x after (append_inj' hsplit rfl).1

theorem getState_slotOps {d : StateDecl} {stored : Option Bytes} {c : List d.Val} {v : d.type.State}
    (h : d.Represents stored c) (hv : deserializeValue d.type stored = .ok v) (ops : List d.type.Op) :
    getState d (slotOps d.type v ops).1 = d.view ((ops.map d.effect).foldl Effect.cached c) := by
  cases d with
  | value V codec =>
    obtain rfl := ok.inj ((ValueState.deserializeValue_ofContent codec h).symm.trans hv)
    rw [ValueState.slotOps_ofContent]
    exact ValueState.get_ofContent _ _ _
  | list V codec =>
    obtain rfl := ok.inj ((ListState.deserializeValue_ofContent codec h).symm.trans hv)
    rw [ListState.slotOps_spec]
    rfl

theorem represents_slotCycle {d : StateDecl} {stored : Option Bytes} {c : List d.Val} {ops : List d.type.Op}
    {allowIncremental : Bool} {r : Option Bytes × List d.type.Res} (h : d.Represents stored c)
    (hkeeps : ∀ e ∈ ops.map d.effect, ¬ e.IsClear) (hr : slotCycle allowIncremental d.type stored ops = .ok r) :
    d.Represents r.1 ((ops.map d.effect).foldl Effect.direct c) := by
  have hcached := Effect.foldl_cached_eq_direct hkeeps c
  cases d with
  | value V codec =>
    rw [h.slotCycle_spec allowIncremental ops fun _ _ => trivial] at hr
    obtain rfl := ok.inj hr
    have hflushed : Effect.flushed c (ops.map (StateDecl.value V codec).effect) = _ :=
      (if_neg fun ⟨e, he, hclear⟩ => hkeeps e he hclear).trans hcached
    dsimp only
    rw [hflushed]
    exact h.directBytes ops
  | list V codec =>
    rw [← hcached]
    refine ListState.slotCycle_represents codec h allowIncremental (fun op hop heq => ?_) hr
    exact hkeeps _ (List.mem_map_of_mem hop) (heq ▸ trivial)

theorem effectsAt_keeps (h : ∀ c ∈ new, ∀ call ∈ c.reaction.calls, j.Keeps call) (sl : Slot K) :
    ∀ e ∈ effectsAt j.decl j.serializedKey j.serializedKey_injective sl (new.flatMap j.userOps), ¬ e.IsClear := by
  intro e he
  obtain ⟨op, hop, rfl⟩ := mem_map.mp he
  obtain ⟨uop, huop, heq⟩ := List.mem_filterMap.mp hop
  obtain ⟨c, hc, hcall⟩ := mem_flatMap.mp huop
  obtain ⟨call, hin, rfl⟩ := mem_map.mp hcall
  split_ifs at heq with hsl
  subst hsl
  obtain rfl := Option.some.inj heq
  exact h c hc call hin

/-! ## Batches -/

section Process

variable {s : j.State} {callbacks : List (Callback j.decl K)} {slots : List (Slot K)} {cache : Cache j.sch}
  {value : (sl : Slot K) → (j.decl sl.stateID).type.State}

/-- What happened is what the callbacks do. -/
def Reacts (callbacks : List (Callback j.decl K)) (new : List (Called j.decl K)) : Prop :=
  ∀ c ∈ new, ∃ f ∈ callbacks, f.key = c.key ∧ c.reaction = f.react c.seen

omit [DecidableEq K] in
theorem Reacts.calls (h : Reacts callbacks new) {p : Call j.decl → Prop} (hp : ∀ f ∈ callbacks, j.Calls p f) :
    ∀ c ∈ new, ∀ call ∈ c.reaction.calls, p call := by
  intro c hc call hcall
  obtain ⟨f, hf, -, hreact⟩ := h c hc
  exact hp f hf c.seen call (hreact ▸ hcall)

omit [DecidableEq K] in
theorem Reacts.mem_slots (h : Reacts callbacks new) (hkeys : ∀ f ∈ callbacks, ∀ i : Fin 2, ⟨i, f.key⟩ ∈ slots) :
    ∀ op ∈ new.flatMap j.userOps, op.1 ∈ slots := by
  intro op hop
  obtain ⟨c, hc, hin⟩ := mem_flatMap.mp hop
  obtain ⟨call, -, rfl⟩ := mem_map.mp hin
  obtain ⟨f, hf, hkey, -⟩ := h c hc
  exact hkey ▸ hkeys f hf call.1

/-- **The loop over the callbacks** goes through; the cached states are those after all their calls. -/
theorem callbacks_spec (h : j.Inv s) (hkeeps : ∀ f ∈ callbacks, j.Calls j.Keeps f)
    (hvalue : ∀ sl ∈ slots, deserializeValue (j.decl sl.stateID).type (s.backend.get (j.serializedKey sl)) = .ok (value sl))
    (hcache : ∀ sl ∈ slots, cache sl = some (value sl)) (hkeys : ∀ f ∈ callbacks, ∀ i : Fin 2, ⟨i, f.key⟩ ∈ slots) :
    ∃ c, forEach callbacks j.call ⟨(cache, fun _ => []), s.timers, s.log⟩ = .ok c ∧
      ∃ new, c.log = s.log ++ new ∧ new.map Called.who = callbacks.map Callback.who ∧
        Reacts callbacks new ∧ forEach (new.flatMap j.userOps) (userOp j.sch) (cache, fun _ => []) = .ok c.states ∧
        j.SeesLeft c.log ∧ TimersOk c.log c.timers := by
  refine forEach_total (fun done (c : j.Loop) => ∃ new, c.log = s.log ++ new ∧
    new.map Called.who = done.map Callback.who ∧ Reacts callbacks new ∧
    forEach (new.flatMap j.userOps) (userOp j.sch) (cache, fun _ => []) = .ok c.states ∧ j.SeesLeft c.log ∧
    TimersOk c.log c.timers) ⟨[], by simp, rfl, nofun, rfl, h.sees, h.timers⟩ ?_
  rintro done f rest c hsplit ⟨new, hlog, hwho, hreacts, hstates, hsees, htimers⟩
  have hf : f ∈ callbacks := by rw [hsplit]; simp
  -- calls are only made on cached states
  have hcached : ∀ {new'}, Reacts callbacks new' → ∀ op ∈ new'.flatMap j.userOps, (cache op.1).isSome :=
    fun hreacts op hop => by
      rw [hcache op.1 (hreacts.mem_slots hkeys op hop)]
      rfl
  obtain ⟨cache', answers', hrun, hslots, -⟩ := userOps_spec _ cache (fun _ => []) (hcached hreacts)
  have hslot : ∀ i : Fin 2, c.states.1 ⟨i, f.key⟩ = some (slotOps _ (value ⟨i, f.key⟩)
      (opsAt j.sch ⟨i, f.key⟩ (new.flatMap j.userOps))).1 := fun i => by
    rw [ok.inj (hstates.symm.trans hrun)]
    exact (hslots _ _ (hcache _ (hkeys f hf i))).1
  have hsome : ∀ i : Fin 2, (c.states.1 ⟨i, f.key⟩).isSome := fun i => Option.isSome_iff_exists.mpr ⟨_, hslot i⟩
  set seen : Seen j.decl := fun i => getState (j.decl i) ((c.states.1 ⟨i, f.key⟩).get (hsome i)) with hseen
  have hview : ∀ i : Fin 2, seen i = (j.decl i).view (j.left c.log ⟨i, f.key⟩) := by
    intro i
    rw [hlog, left_append, ← Effect.foldl_cached_eq_direct (effectsAt_keeps (hreacts.calls hkeeps) ⟨i, f.key⟩), hseen]
    dsimp only
    rw [Option.get_of_eq_some _ (hslot i)]
    exact getState_slotOps (h.stored _) (hvalue _ (hkeys f hf i)) _
  set called : Called j.decl K := ⟨f.key, f.fires, seen, f.react seen⟩
  have hreacts' : Reacts callbacks (new ++ [called]) := fun x hx => by
    rcases List.mem_append.mp hx with hin | hlast
    · exact hreacts x hin
    · rw [List.mem_singleton.mp hlast]
      exact ⟨f, hf, rfl, rfl⟩
  obtain ⟨cache'', answers'', hrun', -⟩ := userOps_spec _ cache (fun _ => []) (hcached hreacts')
  have hnext : forEach (j.userOps called) (userOp j.sch) c.states = .ok (cache'', answers'') := by
    rwa [List.flatMap_append, forEach_append, hstates, ok_bind, List.flatMap_singleton] at hrun'
  refine ⟨⟨(cache'', answers''), f.updateTimers seen c.timers, c.log ++ [called]⟩, ?_, new ++ [called], ?_, ?_, hreacts',
    hrun', hsees.append hview, htimers.call f seen⟩
  · rw [call, dif_pos hsome]
    dsimp only
    rw [hnext]
    rfl
  · rw [hlog, List.append_assoc]
  · rw [List.map_append, List.map_append, hwho]
    rfl

theorem Inv.deserializes (h : j.Inv s) (sl : Slot K) :
    ∃ v, deserializeValue (j.decl sl.stateID).type (s.backend.get (j.serializedKey sl)) = .ok v := by
  have hcycle := (h.stored sl).slotCycle_spec true [] nofun
  obtain ⟨v, hv, -⟩ := bind_eq_ok.mp hcycle
  exact ⟨v, hv⟩

/-- **A batch is a cycle** with the calls of its callbacks. -/
theorem process_eq (h : j.Inv s) (hkeeps : ∀ f ∈ callbacks, j.Calls j.Keeps f) (hne : callbacks ≠ []) :
    ∃ (req : Request K) (new : List (Called j.decl K)) (timers : ActiveTimers K),
      new.map Called.who = callbacks.map Callback.who ∧ Reacts callbacks new ∧
      (∀ op ∈ new.flatMap j.userOps, op.1 ∈ req.slots) ∧ j.SeesLeft (s.log ++ new) ∧ TimersOk (s.log ++ new) timers ∧
      j.process s callbacks = (cycle j.sch j.allowIncremental req.slots (s.backend, fun _ => [])
        (new.flatMap j.userOps)).mapAbort .state >>= fun r => .ok ⟨r.1, timers, s.log ++ new⟩ := by
  have hnil : callbacks.map Callback.key ≠ [] := fun hnil => hne (map_eq_nil_iff.mp hnil)
  let req : Request K := ⟨callbacks.map Callback.key, [0, 1], hnil, by decide, by decide⟩
  have hids : ∀ i : Fin 2, (i : Nat) ∈ [0, 1] := by decide
  have hkeys : ∀ f ∈ callbacks, ∀ i : Fin 2, ⟨i, f.key⟩ ∈ req.slots := fun f hf i =>
    mem_flatMap.mpr ⟨i, hids i, mem_map.mpr ⟨f.key, List.mem_dedup.mpr (List.mem_map_of_mem hf), rfl⟩⟩
  choose value hvalue using h.deserializes
  have hvalue' : ∀ sl ∈ req.slots, deserializeValue (j.sch.typeOf sl)
      (s.backend.get (j.sch.serializedKey sl)) = .ok (value sl) := fun sl _ => hvalue sl
  obtain ⟨cache, hfetch, hcache⟩ := fetch_spec hvalue'
  obtain ⟨c, hloop, new, hlog, hwho, hreacts, hstates, hsees, htimers⟩ :=
    callbacks_spec h hkeeps (fun sl _ => hvalue sl) hcache hkeys
  refine ⟨req, new, c.timers, hwho, hreacts, hreacts.mem_slots hkeys, hlog ▸ hsees, hlog ▸ htimers, ?_⟩
  rw [process, dif_neg hnil, cycle]
  change (fetch j.sch s.backend req.slots).mapAbort WindowAbort.state >>= _ = _
  simp only [hfetch, hstates, ok_bind, mapAbort]
  rw [hloop, ok_bind, ← hlog]
  change (flush j.sch j.allowIncremental s.backend c.states.1 req.slots).mapAbort WindowAbort.state >>= _ = _
  cases flush j.sch j.allowIncremental s.backend c.states.1 req.slots <;> rfl

/-- **One batch**: it keeps the invariant, and it goes through if no call passes an empty list. -/
theorem Inv.process (h : j.Inv s) (hkeeps : ∀ f ∈ callbacks, j.Calls j.Keeps f) (hne : callbacks ≠ []) :
    (∀ s', j.process s callbacks = .ok s' → j.Inv s' ∧
      ∃ new, s'.log = s.log ++ new ∧ new.map Called.who = callbacks.map Callback.who) ∧
    ((∀ f ∈ callbacks, j.Calls j.PassesValues f) → ∃ s', j.process s callbacks = .ok s') := by
  obtain ⟨req, new, timers, hwho, hreacts, hslots, hsees, htimers, heq⟩ := process_eq h hkeeps hne
  refine ⟨fun s' hs' => ?_, fun hvalues => ?_⟩
  · rw [heq] at hs'
    obtain ⟨⟨b, answers⟩, hcycle, hs'⟩ := bind_eq_ok.mp hs'
    cases hs'
    rw [mapAbort_eq_ok] at hcycle
    refine ⟨⟨fun sl => ?_, hsees, htimers⟩, new, rfl, hwho⟩
    choose value hvalue using h.deserializes
    have hslot := slotCycle_of_cycle hslots (fun sl _ => hvalue sl) hcycle
    have hresult : ∀ sl : Slot K, ∃ r, sl ∈ req.slots → slotCycle j.allowIncremental (j.decl sl.stateID).type
        (s.backend.get (j.serializedKey sl)) (opsAt j.sch sl (new.flatMap j.userOps)) = .ok r := fun sl => by
      by_cases hsl : sl ∈ req.slots
      · obtain ⟨r, hr⟩ := hslot sl hsl
        exact ⟨r, fun _ => hr⟩
      · exact ⟨(none, []), fun hin => absurd hin hsl⟩
    choose result hresult using hresult
    obtain ⟨b', answers', hcycle', hstored, hothers, -⟩ := cycle_spec req.slots_nodup (fun _ => []) hslots hresult
    obtain ⟨rfl, -⟩ := Prod.mk.inj (ok.inj (hcycle'.symm.trans hcycle))
    rw [left_append]
    by_cases hsl : sl ∈ req.slots
    · rw [(hstored sl hsl).1]
      exact represents_slotCycle (h.stored sl) (effectsAt_keeps (hreacts.calls hkeeps) sl) (hresult sl hsl)
    · have hnone : opsAt j.sch sl (new.flatMap j.userOps) = [] := opsAt_eq_nil fun op hop hop' =>
        hsl (hop' ▸ hslots op hop)
      rw [effectsAt, hnone, hothers _ fun sl' hsl' hkey => hsl ((j.serializedKey_injective hkey : sl' = sl) ▸ hsl')]
      exact h.stored sl
  · have hops : ∀ op ∈ new.flatMap j.userOps, (j.decl op.1.stateID).OpNonEmpty op.2 := fun op hop => by
      obtain ⟨c, hc, hin⟩ := mem_flatMap.mp hop
      obtain ⟨call, hcall, rfl⟩ := mem_map.mp hin
      exact hreacts.calls hvalues c hc call hcall
    obtain ⟨b, answers, hcycle, -⟩ := cycle_spec req.slots_nodup (fun _ => []) hslots
      fun sl _ => (h.stored sl).slotCycle_spec j.allowIncremental _ (opsAt_nonEmpty hops)
    exact ⟨_, by rw [heq, hcycle]; rfl⟩

end Process

/-! ## Whole runs -/

variable {s : j.State}

/-- All callbacks that an event can lead to have a property. -/
def Everywhere (j : Join K IN₁ IN₂) (p : Call j.decl → Prop) : Prop :=
  (∀ r, j.Calls p (.record (j.getKey₁ r) (j.f₁ r))) ∧ (∀ r, j.Calls p (.record (j.getKey₂ r) (j.f₂ r))) ∧
    ∀ k t, j.Calls p (.timer k t (j.onTimer t))

/-- Which callbacks an event makes: a batch one for each record, a watermark one for each pending timer that it has
reached, by timestamp. -/
def Makes (j : Join K IN₁ IN₂) (log new : List (Called j.decl K)) : Event K IN₁ IN₂ → Prop
  | .batch₁ records => new.map Called.who = records.map fun r => (j.getKey₁ r, none)
  | .batch₂ records => new.map Called.who = records.map fun r => (j.getKey₂ r, none)
  | .watermark wm _ => ∃ fired : List (K × Int64), new.map Called.who = fired.map (fun x => (x.1, some x.2)) ∧
      fired.Nodup ∧ fired.Pairwise (fun x y => x.2 ≤ y.2) ∧ ∀ x, x ∈ fired ↔ Pending log x.1 x.2 ∧ x.2 ≤ wm

/-- A batch has records. -/
def Event.Nonempty : Event K IN₁ IN₂ → Prop
  | .batch₁ records => records ≠ []
  | .batch₂ records => records ≠ []
  | .watermark _ _ => True

theorem Inv.records (h : j.Inv s) {IN : Type} {getKey : IN → K} {f : IN → Seen j.decl → Reaction j.decl}
    (hkeeps : ∀ r, j.Calls j.Keeps (.record (getKey r) (f r))) (records : List IN) :
    (∀ s', j.process s (records.map fun r => .record (getKey r) (f r)) = .ok s' → j.Inv s' ∧
      ∃ new, s'.log = s.log ++ new ∧ new.map Called.who = records.map fun r => (getKey r, none)) ∧
    (records ≠ [] → (∀ r, j.Calls j.PassesValues (.record (getKey r) (f r))) →
      ∃ s', j.process s (records.map fun r => .record (getKey r) (f r)) = .ok s') := by
  by_cases hne : records = []
  · subst hne
    exact ⟨nofun, fun hne => absurd rfl hne⟩
  · have hall : ∀ f' ∈ records.map fun r => .record (getKey r) (f r), j.Calls j.Keeps f' := fun f' hf' => by
      obtain ⟨r, -, rfl⟩ := mem_map.mp hf'
      exact hkeeps r
    obtain ⟨hok, hgo⟩ := h.process hall fun hnil => hne (map_eq_nil_iff.mp hnil)
    refine ⟨fun s' hs' => ?_, fun _ hvalues => hgo fun f' hf' => ?_⟩
    · obtain ⟨hinv, new, hlog, hwho⟩ := hok s' hs'
      exact ⟨hinv, new, hlog, by rw [hwho, map_map]; rfl⟩
    · obtain ⟨r, -, rfl⟩ := mem_map.mp hf'
      exact hvalues r

/-- **One event.** -/
theorem Inv.step (h : j.Inv s) (hkeeps : j.Everywhere j.Keeps) (e : Event K IN₁ IN₂) :
    (∀ s', j.step s e = .ok s' → j.Inv s' ∧ ∃ new, s'.log = s.log ++ new ∧ j.Makes s.log new e) ∧
    (e.Nonempty → j.Everywhere j.PassesValues → ∃ s', j.step s e = .ok s') := by
  cases e with
  | batch₁ records =>
    obtain ⟨hok, hgo⟩ := h.records hkeeps.1 records
    exact ⟨hok, fun hne hvalues => hgo hne hvalues.1⟩
  | batch₂ records =>
    obtain ⟨hok, hgo⟩ := h.records hkeeps.2.1 records
    exact ⟨hok, fun hne hvalues => hgo hne hvalues.2.1⟩
  | watermark wm order =>
    obtain ⟨hnodup, hsorted, hmem⟩ := getExpiredTimers_spec s.timers wm order
    simp only [h.timers.active] at hmem
    simp only [Join.step, processProgressedWatermark]
    split_ifs with hnil
    · refine ⟨fun s' hs' => ?_, fun _ _ => ⟨s, rfl⟩⟩
      cases hs'
      exact ⟨h, [], by simp, _, by rw [hnil]; rfl, hnodup, hsorted, hmem⟩
    · have hall : ∀ f' ∈ (getExpiredTimers s.timers wm order).map fun x => .timer x.1 x.2 (j.onTimer x.2),
          j.Calls j.Keeps f' := fun f' hf' => by
        obtain ⟨x, -, rfl⟩ := mem_map.mp hf'
        exact hkeeps.2.2 x.1 x.2
      obtain ⟨hok, hgo⟩ := h.process hall fun hmap => hnil (map_eq_nil_iff.mp hmap)
      refine ⟨fun s' hs' => ?_, fun _ hvalues => hgo fun f' hf' => ?_⟩
      · obtain ⟨hinv, new, hlog, hwho⟩ := hok s' hs'
        exact ⟨hinv, new, hlog, _, by rw [hwho, map_map]; rfl, hnodup, hsorted, hmem⟩
      · obtain ⟨x, -, rfl⟩ := mem_map.mp hf'
        exact hvalues.2.2 x.1 x.2

/-- **Callbacks of a custom window join.**  In every run of an operator whose callbacks do not clear their states: every
callback saw both states of its key as left by all earlier callbacks for the key; the active timers are the pending ones,
with no empty entry; the next event makes the callbacks it should, so that a pending timer is fired once, by the first
watermark that has reached it; and no event fails, unless an empty batch or an empty list is passed. -/
theorem callbacks_exact (hkeeps : j.Everywhere j.Keeps) (hrun : j.machine.Run (fun _ _ => True) s) :
    j.SeesLeft s.log ∧ (∀ k t, (NestedMap.get s.timers t k).isSome ↔ Pending s.log k t) ∧ NoEmptyInner s.timers ∧
    (∀ e s', j.step s e = .ok s' → ∃ new, s'.log = s.log ++ new ∧ j.Makes s.log new e) ∧
    (j.Everywhere j.PassesValues → ∀ e : Event K IN₁ IN₂, e.Nonempty → ∃ s', j.step s e = .ok s') := by
  have hinv : j.Inv s := by
    refine hrun.invariant j.Inv ?_ fun s e s' _ h _ hstep => ((h.step hkeeps e).1 s' hstep).1
    rintro _ rfl
    refine ⟨fun sl => ⟨?_, .inl ⟨rfl, rfl⟩⟩, fun before c after hsplit => ?_, fun k t => ?_, nofun⟩
    · have hvalid : ∀ d : StateDecl, d.Valid [] := by
        rintro (_ | _)
        · exact Nat.zero_le 1
        · trivial
      exact hvalid _
    · simp at hsplit
    · refine iff_of_false nofun ?_
      rintro ⟨before, c, after, hsplit, -⟩
      simp at hsplit
  exact ⟨hinv.sees, hinv.timers.active, hinv.timers.noEmpty, fun e s' hstep => ((hinv.step hkeeps e).1 s' hstep).2,
    fun hvalues e hne => (hinv.step hkeeps e).2 hne hvalues⟩

/-- A join with one flag for each input.  The first input sets its flag and asks for a timer. -/
def flagJoin : Join Unit Bool Bool where
  decl _ := .value Bool flagCodec
  serializedKey := flagKey
  serializedKey_injective := flagKey_injective
  allowIncremental := true
  getKey₁ _ := ()
  getKey₂ _ := ()
  f₁ r _ := ⟨[⟨0, .set r⟩], [3]⟩
  f₂ r _ := ⟨[⟨1, .set r⟩], []⟩
  onTimer _ _ := []

theorem flagJoin_everywhere : flagJoin.Everywhere flagJoin.Keeps ∧ flagJoin.Everywhere flagJoin.PassesValues := by
  refine ⟨⟨fun r seen call hcall => ?_, fun r seen call hcall => ?_, fun k t seen call hcall => ?_⟩,
    fun r seen call hcall => ?_, fun r seen call hcall => ?_, fun k t seen call hcall => ?_⟩
  all_goals first
    | (obtain rfl := List.mem_singleton.mp hcall; first | exact id | trivial)
    | cases hcall

theorem callbacks_exact_flag : ∃ s, flagJoin.machine.Run (fun _ _ => True) s ∧
    s.log.map Called.who = [((), none)] ∧ flagJoin.SeesLeft s.log ∧
    ∃ s', flagJoin.step s (.watermark 5 fun _ => .asListed Unit Unit) = .ok s' := by
  obtain ⟨hkeeps, hvalues⟩ := flagJoin_everywhere
  obtain ⟨-, -, -, hmakes, hgo⟩ := callbacks_exact hkeeps (.start rfl)
  obtain ⟨s, hstep⟩ := hgo hvalues (.batch₁ [true]) (by exact List.cons_ne_nil _ _)
  obtain ⟨new, hlog, hwho⟩ := hmakes _ s hstep
  have hrun : flagJoin.machine.Run (fun _ _ => True) s :=
    .step (a := .batch₁ [true]) (.start rfl) trivial hstep
  obtain ⟨hsees, -, -, -, hgo⟩ := callbacks_exact hkeeps hrun
  exact ⟨s, hrun, by rw [hlog]; exact hwho, hsees, hgo hvalues _ trivial⟩

end Join

end Window
end Koala
