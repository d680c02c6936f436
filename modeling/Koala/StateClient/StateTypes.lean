import Koala.Lib.Codec
import Koala.Lib.Outcome

/-!
# Value and list states

`api/stateClient/stateType`: the state objects that a stateful operator works on.  A state object remembers what
happened to it since it was fetched, in four flags that decide how it is flushed.

`StateType` is the interface of the source.  Its two implementations are `valueState` and `listState`; what the
user calls on them is `ValueOp` and `ListOp`.
-/

namespace Koala
namespace StateClient

open Lib Lib.Outcome

/-- How the state client dies. -/
inductive StateAbort where
  /-- "Failed to decode value: %v" -/
  | decodeValue
  /-- "Failed to decode ListState:" -/
  | decodeList
  /-- "ValueState does not support incremental serialization" -/
  | noIncremental
  /-- "[ListState] startIdx %d >= len(state) %d" -/
  | startIdx (startIdx length : Nat)
  /-- a nil tuple is encoded -/
  | nilTuple
  /-- "[... state cache] All requested key must exist in cache - they could be empty state" -/
  | notInCache
  deriving DecidableEq, Repr

/-- The interface `stateType.StateType`, with what users can do to a state and what they read from it. -/
structure StateType where
  State : Type
  Op : Type
  Res : Type
  /-- `New` -/
  new : State
  /-- `Deserialize`, on a new state -/
  deserialize : Bytes → Outcome StateAbort State
  /-- `Serialize` -/
  serialize : State → Outcome StateAbort Bytes
  /-- `SerializeInc` -/
  serializeInc : State → Outcome StateAbort Bytes
  /-- `IsUpdated` -/
  isUpdated : State → Bool
  /-- `HasValue` -/
  hasValue : State → Bool
  /-- `IsDeleted` -/
  isDeleted : State → Bool
  /-- `IsAppended` -/
  isAppended : State → Bool
  /-- a user operation -/
  apply : Op → State → State
  /-- what the operation returns, if it returns something -/
  answer : Op → State → Option Res

/-! ## Value states -/

/-- `ValueState`; a nil tuple is `none`. -/
structure ValueState (V : Type) where
  hasValue : Bool
  updated : Bool
  deleted : Bool
  state : Option V

/-- The user API of `ValueState`. -/
inductive ValueOp (V : Type) where
  | set (value : V)
  | clear
  | get

namespace ValueState

variable {V : Type}

/-- `New`. -/
def new : ValueState V := ⟨false, false, false, none⟩

/-- `Get`: the value and whether there is one. -/
def get (s : ValueState V) : Option V × Bool := if s.hasValue then (s.state, true) else (none, false)

def apply : ValueOp V → ValueState V → ValueState V
  | .set value, s => { s with state := some value, hasValue := true, updated := true }
  | .clear, s => { s with deleted := true }
  | .get, s => s

def answer : ValueOp V → ValueState V → Option (Option V × Bool)
  | .get, s => some s.get
  | _, _ => none

/-- `Deserialize`. -/
def deserialize (c : Codec V) (bytes : Bytes) : Outcome StateAbort (ValueState V) :=
  match c.unmarshal bytes with
  | some (v, _) => .ok ⟨true, false, false, some v⟩
  | none => .abort .decodeValue

/-- `Serialize`. -/
def serialize (c : Codec V) (s : ValueState V) : Outcome StateAbort Bytes :=
  match s.state with
  | some v => .ok (c.marshal v)
  | none => .abort .nilTuple

end ValueState

/-- `ValueState` as a `StateType`. -/
abbrev valueState {V : Type} (c : Codec V) : StateType where
  State := ValueState V
  Op := ValueOp V
  Res := Option V × Bool
  new := .new
  deserialize := ValueState.deserialize c
  serialize := ValueState.serialize c
  serializeInc := fun _ => .abort .noIncremental
  isUpdated := ValueState.updated
  hasValue := ValueState.hasValue
  isDeleted := ValueState.deleted
  isAppended := fun _ => false
  apply := ValueState.apply
  answer := ValueState.answer

/-! ## List states -/

/-- `ListState`. -/
structure ListState (V : Type) where
  hasValue : Bool
  updated : Bool
  deleted : Bool
  appended : Bool
  state : List V
  appendStartIdx : Nat

/-- The user API of `ListState`. -/
inductive ListOp (V : Type) where
  | update (vals : List V)
  | add (val : V)
  | addAll (vals : List V)
  | clear
  | get

namespace ListState

variable {V : Type}

/-- `New`. -/
def new : ListState V := ⟨false, false, false, false, [], 0⟩

def apply : ListOp V → ListState V → ListState V
  | .update vals, s => { s with state := vals, hasValue := true, updated := true }
  | .add val, s => { s with state := s.state ++ [val], hasValue := true, appended := true }
  | .addAll vals, s => { s with state := s.state ++ vals, hasValue := true, appended := true }
  | .clear, s => { s with deleted := true }
  | .get, s => s

def answer : ListOp V → ListState V → Option (List V)
  | .get, s => some s.state
  | _, _ => none

/-- The decoding loop of `Deserialize`; every tuple has at least a byte, so the length bounds its iterations. -/
def decodeAll (c : Codec V) : Nat → Bytes → Outcome StateAbort (List V)
  | _, [] => .ok []
  | 0, _ => .stuck
  | fuel + 1, bytes =>
    match c.unmarshal bytes with
    | some (v, usedBytes) => decodeAll c fuel (bytes.drop usedBytes) >>= fun vs => .ok (v :: vs)
    | none => .abort .decodeList

/-- `Deserialize`. -/
def deserialize (c : Codec V) (bytes : Bytes) : Outcome StateAbort (ListState V) :=
  decodeAll c bytes.length bytes >>= fun vs => .ok ⟨true, false, false, false, vs, vs.length⟩

/-- `serializeFromIndex`. -/
def serializeFromIndex (c : Codec V) (startIdx : Nat) (s : ListState V) : Outcome StateAbort Bytes :=
  if startIdx ≥ s.state.length then .abort (.startIdx startIdx s.state.length)
  else .ok ((s.state.drop startIdx).flatMap c.marshal)

end ListState

/-- `ListState` as a `StateType`. -/
abbrev listState {V : Type} (c : Codec V) : StateType where
  State := ListState V
  Op := ListOp V
  Res := List V
  new := .new
  deserialize := ListState.deserialize c
  serialize := ListState.serializeFromIndex c 0
  serializeInc := fun s => ListState.serializeFromIndex c s.appendStartIdx s
  isUpdated := ListState.updated
  hasValue := ListState.hasValue
  isDeleted := ListState.deleted
  isAppended := ListState.appended
  apply := ListState.apply
  answer := ListState.answer

variable {V : Type} (c : Codec V)

theorem ListState.decodeAll_flatMap (vs : List V) {fuel : Nat}
    (hfuel : (vs.flatMap c.marshal).length ≤ fuel) : decodeAll c fuel (vs.flatMap c.marshal) = .ok vs := by
  induction vs generalizing fuel with
  | nil => cases fuel <;> rfl
  | cons v vs ih =>
    have hpos := c.marshal_pos v
    rw [List.flatMap_cons, List.length_append] at hfuel
    obtain ⟨fuel, rfl⟩ := Nat.exists_eq_add_one_of_ne_zero (by omega : fuel ≠ 0)
    have hrest : decodeAll c fuel (vs.flatMap c.marshal) = .ok vs := ih (by omega)
    cases hbytes : (v :: vs).flatMap c.marshal with
    | nil =>
      have hlen := congrArg List.length hbytes
      rw [List.flatMap_cons, List.length_append, List.length_nil] at hlen
      omega
    | cons b bytes =>
      have hread := c.unmarshal_marshal v (vs.flatMap c.marshal)
      rw [← List.flatMap_cons, hbytes] at hread
      have hdrop : (b :: bytes).drop (c.marshal v).length = vs.flatMap c.marshal := by
        rw [← hbytes, List.flatMap_cons, List.drop_left]
      simp only [decodeAll, hread, hdrop, hrest, ok_bind]

theorem ListState.deserialize_flatMap (vs : List V) :
    deserialize c (vs.flatMap c.marshal) = .ok ⟨true, false, false, false, vs, vs.length⟩ := by
  rw [deserialize, decodeAll_flatMap c vs (Nat.le_refl _), ok_bind]

theorem ValueState.deserialize_marshal (v : V) :
    deserialize c (c.marshal v) = .ok ⟨true, false, false, some v⟩ := by
  have hread := c.unmarshal_marshal v []
  rw [List.append_nil] at hread
  rw [deserialize, hread]

theorem flatMap_marshal_injective {vs ws : List V}
    (h : vs.flatMap c.marshal = ws.flatMap c.marshal) : vs = ws := by
  have hvs := ListState.decodeAll_flatMap c vs (Nat.le_refl _)
  have hws := ListState.decodeAll_flatMap c ws (Nat.le_refl _)
  rw [h, hws] at hvs
  exact (ok.inj hvs).symm

end StateClient
end Koala
