import Koala.Lib.Json
import Koala.Lib.Utf8
import Koala.Network.Channel
import Koala.Partition.MigrationPlan
import Koala.Window.SlidingWindow
import Koala.Window.TumblingWindow

/-!
# In-memory metadata of the window operators

Besides their state in the state service, window operators keep an index in memory: the panes of the active sliding
windows (`api/dataflow/slidingWindow.go`), the active tumbling windows (`api/dataflow/tumblingWindow.go`) and the
timers of the custom window join (`api/dataflow/customWindowJoin.go`).  When keys change hands, the entries of the
index travel as JSON: in a `FastForwardMetadata` message under the lazy protocol, in the answer to a
`MigrateTaskMetadata` call under stop-and-restart.

The three operators have the same four functions.  They differ in what an entry is, in what is sent for it and in how
it is added to an index; `IndexType` has these differences, and `Lawful` says what the rest relies on.
-/

namespace Koala
namespace Metadata

open Lib Lib.Outcome Network Window
open Partition (WorkerID BucketID BucketRange)

/-! ## Keys -/

instance (kind : Kind) : DecidableEq kind.Val := by
  cases kind <;> unfold Kind.Val <;> infer_instance

/-- The kinds of which `encoding/json` accepts the keys of a map. -/
def isJsonKey : Kind → Bool
  | .bool | .float32 | .float64 => false
  | _ => true

/-- What a key has become when it is read back: texts are valid UTF-8, and integers keep their value. -/
def jsonKey : (kind : Kind) → kind.Val → kind.Val
  | .string, s => Utf8.coerce s
  | _, v => v

theorem jsonKey_jsonKey (kind : Kind) (k : kind.Val) : jsonKey kind (jsonKey kind k) = jsonKey kind k := by
  cases kind
  case string => exact Utf8.coerce_coerce k
  all_goals rfl

/-! ## Indexes -/

section Indexes

variable {K : Type} [DecidableEq K]

/-- `m[a]` is made if necessary. -/
def ensure {V : Type} (m : NestedMap Int64 K V) (t : Int64) : NestedMap Int64 K V :=
  if (GoMap.get m t).isSome then m else GoMap.set m t ∅

/-- `SlidingWindowIndex.Add`. -/
def addWindow (index : SlidingWindowIndex K) (key : K) (startTime : Int64) (paneStartTimes : List Int64) :
    SlidingWindowIndex K :=
  paneStartTimes.foldl (fun index paneStartTime => index.appendTo (key, paneStartTime) startTime) (ensure index startTime)

/-- The loop that puts the panes of a sliding window into the map to be transferred. -/
def noteWindow (m : NestedMap Int64 K (List Int64)) (startTime : Int64) (key : K) (panes : List (K × Int64)) :
    NestedMap Int64 K (List Int64) :=
  panes.foldl (fun m pane => m.push startTime key pane.2) (ensure m startTime)

/-- `Timer.ActiveTimers`: the keys with a timer, by its timestamp. -/
abbrev ActiveTimers (K : Type) : Type := NestedMap Int64 K Unit

/-- `Timer.add`. -/
def ActiveTimers.add (timers : ActiveTimers K) (key : K) (timestamp : Int64) : ActiveTimers K :=
  NestedMap.set timers timestamp key ()

/-- `Timer.remove`. -/
def ActiveTimers.remove (timers : ActiveTimers K) (key : K) (timestamp : Int64) : ActiveTimers K :=
  NestedMap.delete timers timestamp key

end Indexes

/-- What an operator keeps for a key and a time, what it sends for it, and what its loops do with an entry. -/
structure IndexType (K : Type) where
  Entry : Type
  Wire : Type
  [decEqWire : DecidableEq Wire]
  /-- Put an entry into the map to be transferred. -/
  note : NestedMap Int64 K Wire → Int64 → K → Entry → NestedMap Int64 K Wire
  remove : NestedMap Int64 K Entry → K → Int64 → NestedMap Int64 K Entry
  add : NestedMap Int64 K Entry → K → Int64 → Wire → NestedMap Int64 K Entry

instance {K : Type} (ix : IndexType K) : DecidableEq ix.Wire := ix.decEqWire

/-- The operators with metadata. -/
inductive Operator where
  | slidingWindow | tumblingWindow | customWindowJoin
  deriving DecidableEq, Repr

section

variable (K : Type) [DecidableEq K]

/-- The start times of the panes are sent. -/
def slidingWindow : IndexType K where
  Entry := List (K × Int64)
  Wire := List Int64
  note := noteWindow
  remove index key startTime := SlidingWindowIndex.remove index (key, startTime)
  add := addWindow

/-- Only the window itself is sent. -/
def tumblingWindow : IndexType K where
  Entry := Unit
  Wire := Bool
  note m startTime key _ := m.set startTime key true
  remove index key startTime := TumblingWindowIndex.remove index (key, startTime)
  add index key startTime _ := TumblingWindowIndex.add index (key, startTime)

/-- Only the timer itself is sent. -/
def customWindowJoin : IndexType K where
  Entry := Unit
  Wire := Bool
  note m timestamp key _ := m.set timestamp key true
  remove timers key timestamp := ActiveTimers.remove timers key timestamp
  add timers key timestamp _ := ActiveTimers.add timers key timestamp

def Operator.indexType : Operator → IndexType K
  | .slidingWindow => Koala.Metadata.slidingWindow K
  | .tumblingWindow => Koala.Metadata.tumblingWindow K
  | .customWindowJoin => Koala.Metadata.customWindowJoin K

/-- What an entry may be: a sliding window has panes, all of its own key. -/
def Operator.Good : (op : Operator) → K → (op.indexType K).Entry → Prop
  | .slidingWindow, key, (panes : List (K × Int64)) => panes ≠ [] ∧ ∀ pane ∈ panes, pane.1 = key
  | .tumblingWindow, _, _ => True
  | .customWindowJoin, _, _ => True

/-- What is sent for an entry. -/
def Operator.toWire : (op : Operator) → (op.indexType K).Entry → (op.indexType K).Wire
  | .slidingWindow, (panes : List (K × Int64)) => panes.map Prod.snd
  | .tumblingWindow, _ => true
  | .customWindowJoin, _ => true

end

/-! ## What the loops rely on -/

/-- No inner map is empty. -/
def NoEmptyInner {K V : Type} (m : NestedMap Int64 K V) : Prop :=
  ∀ t inner, GoMap.get m t = some inner → inner.pairs ≠ []

/-- The entries of an index are noted, removed and added one by one. -/
structure Lawful {K : Type} [DecidableEq K] (ix : IndexType K) (Good : K → ix.Entry → Prop)
    (toWire : ix.Entry → ix.Wire) : Prop where
  get_note : ∀ m t k v, m.get t k = none → Good k v → ∀ t' k',
    (ix.note m t k v).get t' k' = if (t', k') = (t, k) then some (toWire v) else m.get t' k'
  note_noEmpty : ∀ m t k v, NoEmptyInner m → Good k v → NoEmptyInner (ix.note m t k v)
  get_remove : ∀ index k t t' k',
    (ix.remove index k t).get t' k' = if (t', k') = (t, k) then none else index.get t' k'
  get_add : ∀ index k t v, index.get t k = none → Good k v → ∀ t' k',
    (ix.add index k t (toWire v)).get t' k' = if (t', k') = (t, k) then some v else index.get t' k'
  get_add_of_ne : ∀ index k t w t' k', k' ≠ k → (ix.add index k t w).get t' k' = index.get t' k'
  add_good : ∀ index k t w, (∀ t' k' v, index.get t' k' = some v → Good k' v) →
    ∀ t' k' v, (ix.add index k t w).get t' k' = some v → Good k' v

section Laws

variable {K V : Type} [DecidableEq K]

theorem noEmptyInner_set {m : NestedMap Int64 K V} (h : NoEmptyInner m) (t : Int64) (k : K) (v : V) :
    NoEmptyInner (m.set t k v) := by
  intro t' inner hget
  rw [NestedMap.set, GoMap.get_set] at hget
  split_ifs at hget with ht
  · cases hget
    refine List.ne_nil_of_mem (a := (k, v)) ((GoMap.mem_pairs _ k v).mpr ?_)
    exact GoMap.get_set_self _ k v
  · exact h t' inner hget

theorem get_ensure (m : NestedMap Int64 K V) (t t' : Int64) (k' : K) : (ensure m t).get t' k' = m.get t' k' := by
  unfold ensure
  split_ifs with hsome
  · rfl
  · rw [NestedMap.get, NestedMap.get, GoMap.get_set]
    split_ifs with ht
    · rw [ht, Option.not_isSome_iff_eq_none.mp hsome]
      rfl
    · rfl

variable {A X : Type} (m : NestedMap Int64 K (List X)) (t : Int64) (k : K) (f : A → X)

theorem group_pushes (xs : List A) :
    (xs.foldl (fun m x => m.push t k (f x)) m).group t k = m.group t k ++ xs.map f := by
  induction xs generalizing m with
  | nil => simp
  | cons x xs ih =>
    rw [List.foldl_cons, ih, NestedMap.group_push, if_pos rfl, List.append_assoc]
    rfl

theorem get_pushes_of_ne (xs : List A) {t' : Int64}
    {k' : K} (h : (t', k') ≠ (t, k)) : (xs.foldl (fun m x => m.push t k (f x)) m).get t' k' = m.get t' k' := by
  induction xs generalizing m with
  | nil => rfl
  | cons x xs ih => rw [List.foldl_cons, ih, NestedMap.push, NestedMap.get_set, if_neg h]

theorem get_pushes {xs : List A} (hne : xs ≠ [])
    (t' : Int64) (k' : K) : (xs.foldl (fun m x => m.push t k (f x)) m).get t' k'
      = if (t', k') = (t, k) then some (m.group t k ++ xs.map f) else m.get t' k' := by
  split_ifs with h
  · obtain ⟨rfl, rfl⟩ := Prod.mk.inj h
    obtain ⟨xs, x, rfl⟩ := List.eq_nil_or_concat xs |>.resolve_left hne
    have hgroup := group_pushes m t' k' f xs
    rw [NestedMap.group] at hgroup
    rw [List.concat_eq_append, List.foldl_append, List.foldl_cons, List.foldl_nil, NestedMap.push, NestedMap.get_set,
      if_pos rfl, hgroup, List.map_append, List.append_assoc]
    rfl
  · exact get_pushes_of_ne m t k f xs h

theorem noEmptyInner_pushes {m : NestedMap Int64 K (List X)} (h : NoEmptyInner m) (t : Int64) (k : K) (f : A → X)
    (xs : List A) : NoEmptyInner (xs.foldl (fun m x => m.push t k (f x)) m) := by
  induction xs generalizing m with
  | nil => exact h
  | cons x xs ih => exact ih (noEmptyInner_set h t k _)

theorem push_ensure (x : X) : NoEmptyInner m → NoEmptyInner ((ensure m t).push t k x) := by
  intro h t' inner hget
  by_cases ht : t' = t
  · subst ht
    rw [NestedMap.push, NestedMap.set, GoMap.get_set_self] at hget
    cases hget
    exact List.ne_nil_of_mem ((GoMap.mem_pairs _ k _).mpr (GoMap.get_set_self _ k _))
  · rw [NestedMap.push, NestedMap.set, GoMap.get_set_ne _ _ ht] at hget
    unfold ensure at hget
    split_ifs at hget
    · exact h t' inner hget
    · rw [GoMap.get_set_ne _ _ ht] at hget
      exact h t' inner hget

variable {t : Int64} {k : K}

theorem group_ensure {m : NestedMap Int64 K (List X)} (hnone : m.get t k = none) : (ensure m t).group t k = [] := by
  rw [NestedMap.group, get_ensure, hnone]
  rfl

variable {panes : List (K × Int64)}

theorem get_noteWindow {m : NestedMap Int64 K (List Int64)} (hnone : m.get t k = none) (hne : panes ≠ []) (t' : Int64)
    (k' : K) : (noteWindow m t k panes).get t' k'
      = if (t', k') = (t, k) then some (panes.map Prod.snd) else m.get t' k' := by
  rw [noteWindow, get_pushes (ensure m t) t k Prod.snd hne, group_ensure hnone, get_ensure, List.nil_append]

theorem noEmptyInner_noteWindow {m : NestedMap Int64 K (List Int64)} (hm : NoEmptyInner m) (hne : panes ≠ [])
    (t : Int64) (k : K) : NoEmptyInner (noteWindow m t k panes) := by
  obtain ⟨pane, panes, rfl⟩ := List.exists_cons_of_ne_nil hne
  exact noEmptyInner_pushes (push_ensure m t k pane.2 hm) t k Prod.snd panes

variable {index : SlidingWindowIndex K}

/-- A window that is sent with its panes comes back with them, because they carry its key. -/
theorem get_addWindow (hnone : NestedMap.get index t k = none) (hne : panes ≠ []) (hkey : ∀ pane ∈ panes, pane.1 = k)
    (t' : Int64) (k' : K) :
    NestedMap.get (addWindow index k t (panes.map Prod.snd)) t' k'
      = if (t', k') = (t, k) then some panes else NestedMap.get index t' k' := by
  have hpanes : (panes.map Prod.snd).map (fun paneStartTime => (k, paneStartTime)) = panes := by
    rw [List.map_map]
    conv_rhs => rw [← List.map_id panes]
    exact List.map_congr_left fun pane hpane => Prod.ext (hkey pane hpane).symm rfl
  refine (get_pushes (ensure index t) t k (fun paneStartTime => (k, paneStartTime))
    (fun hnil => hne (List.map_eq_nil_iff.mp hnil)) t' k').trans ?_
  rw [group_ensure hnone, get_ensure, hpanes, List.nil_append]

theorem get_addWindow_of_ne (index : SlidingWindowIndex K) (t : Int64) {k' : K} (paneStartTimes : List Int64)
    (hne : k' ≠ k) (t' : Int64) :
    NestedMap.get (addWindow index k t paneStartTimes) t' k' = NestedMap.get index t' k' :=
  (get_pushes_of_ne (ensure index t) t k (fun paneStartTime => (k, paneStartTime)) paneStartTimes
    fun h => hne (Prod.mk.inj h).2).trans (get_ensure index t t' k')

/-- All entries of the index are what they may be. -/
def GoodIndex (op : Operator) (index : NestedMap Int64 K (op.indexType K).Entry) : Prop :=
  ∀ t k v, index.get t k = some v → op.Good K k v

theorem goodIndex_appendTo (h : GoodIndex .slidingWindow index) (pane : K × Int64) (startTime : Int64) :
    GoodIndex .slidingWindow (index.appendTo pane startTime) := by
  intro t k panes hget
  have hget' := (NestedMap.get_set index startTime t pane.1 k _).symm.trans hget
  split_ifs at hget' with hkeys
  · obtain ⟨rfl, rfl⟩ := Prod.mk.inj hkeys
    obtain rfl := Option.some.inj hget'
    refine ⟨by simp, fun pane' hpane' => ?_⟩
    rcases List.mem_append.mp hpane' with hold | hnew
    · cases hstored : NestedMap.get index t pane.1 with
      | none => simp [SlidingWindowIndex.panesOf, hstored] at hold
      | some panes =>
        rw [SlidingWindowIndex.panesOf, hstored] at hold
        exact (h t pane.1 panes hstored).2 pane' hold
    · rw [List.mem_singleton.mp hnew]
  · exact h t k panes hget'

theorem goodIndex_addWindow (h : GoodIndex .slidingWindow index) (key : K) (startTime : Int64)
    (paneStartTimes : List Int64) :
    GoodIndex .slidingWindow (addWindow index key startTime paneStartTimes) := by
  have hensure : GoodIndex .slidingWindow (ensure index startTime) := by
    intro t k panes hget
    exact h t k panes ((get_ensure index startTime t k).symm.trans hget)
  have hloop : ∀ (ps : List Int64) (index : SlidingWindowIndex K), GoodIndex .slidingWindow index →
      GoodIndex .slidingWindow (ps.foldl (fun (index : SlidingWindowIndex K) p => index.appendTo (key, p) startTime) index) := by
    intro ps
    induction ps with
    | nil => exact fun _ h => h
    | cons p ps ih => exact fun index h => ih _ (goodIndex_appendTo h (key, p) startTime)
  exact hloop paneStartTimes _ hensure

theorem slidingWindow_lawful :
    Lawful (slidingWindow K) (Operator.Good K .slidingWindow) (Operator.toWire K .slidingWindow) where
  get_note _ _ _ _ hnone hgood := get_noteWindow hnone hgood.1
  note_noEmpty _ t k _ hm hgood := noEmptyInner_noteWindow hm hgood.1 t k
  get_remove index k t t' k' := NestedMap.get_delete index t t' k k'
  get_add _ _ _ _ hnone hgood := get_addWindow hnone hgood.1 hgood.2
  get_add_of_ne index _ t paneStartTimes t' _ hne := get_addWindow_of_ne index t paneStartTimes hne t'
  add_good _ k t paneStartTimes hgood := goodIndex_addWindow hgood k t paneStartTimes

theorem tumblingWindow_lawful :
    Lawful (tumblingWindow K) (Operator.Good K .tumblingWindow) (Operator.toWire K .tumblingWindow) where
  get_note m t k _ _ _ t' k' := NestedMap.get_set m t t' k k' true
  note_noEmpty _ t k _ hm _ := noEmptyInner_set hm t k true
  get_remove index k t t' k' := NestedMap.get_delete index t t' k k'
  get_add index k t _ _ _ t' k' := NestedMap.get_set index t t' k k' ()
  get_add_of_ne index k t _ t' k' hne :=
    (NestedMap.get_set index t t' k k' ()).trans (if_neg fun h => hne (Prod.mk.inj h).2)
  add_good _ _ _ _ _ _ _ _ _ := trivial

theorem customWindowJoin_lawful :
    Lawful (customWindowJoin K) (Operator.Good K .customWindowJoin) (Operator.toWire K .customWindowJoin) where
  get_note m t k _ _ _ t' k' := NestedMap.get_set m t t' k k' true
  note_noEmpty _ t k _ hm _ := noEmptyInner_set hm t k true
  get_remove timers k t t' k' := NestedMap.get_delete timers t t' k k'
  get_add timers k t _ _ _ t' k' := NestedMap.get_set timers t t' k k' ()
  get_add_of_ne timers k t _ t' k' hne :=
    (NestedMap.get_set timers t t' k k' ()).trans (if_neg fun h => hne (Prod.mk.inj h).2)
  add_good _ _ _ _ _ _ _ _ _ := trivial

/-- **The three operators** follow the laws. -/
theorem Operator.lawful (op : Operator) : Lawful (op.indexType K) (op.Good K) (op.toWire K) := by
  cases op with
  | slidingWindow => exact slidingWindow_lawful
  | tumblingWindow => exact tumblingWindow_lawful
  | customWindowJoin => exact customWindowJoin_lawful

end Laws

end Metadata
end Koala
