import Koala.Lib.GoMap
import Koala.StateComm.TcpFrame

/-!
# Needed keys: request and response

A worker asks another one for the keys a batch needs, grouped by state id, and gets the values back in the same
grouping.  Request and response have one layout, a count of groups and for every group its id and its items, and
both are written in the order the sender happens to visit its map.  The request says how many groups there are in
sixteen bits; with all 65536 state ids the count is written as zero.

`groups_written` and `groups_read` say what is written and what is read back; the second holds for every count,
with the groups that the count field admits.
-/

namespace Koala
namespace StateComm

open Lib Lib.Outcome

/-- Keys or values by state id. -/
abbrev StateGroups : Type := GoMap UInt16 (List Bytes)

/-! ## Writing -/

/-- One iteration over the groups: state id, number of items, items. -/
def putGroup (buf : Bytes) (group : UInt16 × List Bytes) : Outcome TcpAbort Bytes := do
  let buf ← put (putUint16 group.1.toNat) buf
  let buf ← put (putUint32 group.2.length) buf
  forEach group.2 putItem buf

variable (order : VisitOrder UInt16 (List Bytes)) (groups : StateGroups)

/-- The number of groups, then the groups. -/
def putGroups (buf : Bytes) : Outcome TcpAbort Bytes := do
  let buf ← put (putUint16 groups.entries.length) buf
  forEach (order.visit groups) putGroup buf

/-- The request of `fetchStateByTcp`. -/
def keyedRequest (keys : StateGroups) : Outcome TcpAbort Bytes := do
  let buf ← put [tcpMsgTypeKeyedFetch] reserveHeader
  let buf ← putGroups order keys buf
  finishFrame buf

/-- `SendTcpResponse`. -/
def sendTcpResponse (valueMap : StateGroups) : Outcome TcpAbort Bytes := do
  let buf ← putGroups order valueMap reserveHeader
  finishFrame buf

/-- The bytes of a group. -/
def groupBytes (group : UInt16 × List Bytes) : Bytes :=
  putUint16 group.1.toNat ++ (putUint32 group.2.length ++ group.2.flatMap Wire.putSized)

/-- The bytes of all groups. -/
def groupsBytes : Bytes :=
  putUint16 groups.entries.length ++ (order.visit groups).flatMap groupBytes

/-- The body of a request. -/
def requestBody (keys : StateGroups) : Bytes :=
  tcpMsgTypeKeyedFetch :: groupsBytes order keys

theorem putGroup_appends (group : UInt16 × List Bytes) :
    Wire.Appends tcpMaxMessageSize (fun buf => putGroup buf group) (groupBytes group) :=
  Wire.Appends.bind (Wire.Appends.put _ _) <|
    Wire.Appends.bind (Wire.Appends.put _ _) (Wire.Appends.forEach fun item _ => putItem_appends item)

theorem putGroups_appends :
    Wire.Appends tcpMaxMessageSize (putGroups order groups) (groupsBytes order groups) :=
  Wire.Appends.bind (Wire.Appends.put _ _) (Wire.Appends.forEach fun group _ => putGroup_appends group)

theorem keyedRequest_ok {keys : StateGroups}
    (h : (frame (requestBody order keys)).length ≤ tcpMaxMessageSize) :
    keyedRequest order keys = .ok (frame (requestBody order keys)) := by
  have hwriter : Wire.Appends tcpMaxMessageSize
      (fun buf => put [tcpMsgTypeKeyedFetch] buf >>= putGroups order keys) (requestBody order keys) :=
    Wire.Appends.bind (Wire.Appends.put _ _) (putGroups_appends order keys)
  have hframe := finishFrame_appends hwriter h
  rw [bind_bind] at hframe
  exact hframe

theorem sendTcpResponse_ok {valueMap : StateGroups}
    (h : (frame (groupsBytes order valueMap)).length ≤ tcpMaxMessageSize) :
    sendTcpResponse order valueMap = .ok (frame (groupsBytes order valueMap)) :=
  finishFrame_appends (putGroups_appends order valueMap) h

/-! ## Reading -/

variable (refuseEmpty : Bool) (buf : Bytes)

/-- One group.  The server refuses a group without items, the client does not look. -/
def readGroup : Outcome TcpAbort ((UInt16 × List Bytes) × Bytes) := do
  let (stateID, buf) ← Wire.uint16 .outOfRange buf
  let (numItems, buf) ← Wire.uint32 .outOfRange buf
  check (refuseEmpty = true ∧ numItems = 0) (.invalidNumberOfKeys numItems (UInt16.ofNat stateID))
  let (items, buf) ← Wire.many (Wire.sized .outOfRange) numItems buf
  pure ((UInt16.ofNat stateID, items), buf)

/-- All groups, collected in a map, and what is left of the buffer. -/
def readGroups : Outcome TcpAbort (StateGroups × Bytes) := do
  let (numStates, buf) ← Wire.uint16 .outOfRange buf
  let (groups, buf) ← Wire.many (readGroup refuseEmpty) numStates buf
  pure (groups.foldl (fun m g => m.set g.1 g.2) ∅, buf)

/-- `DeserializeKeyedRequest`, from behind the message type. -/
def deserializeKeyedRequest : Outcome TcpAbort (StateGroups × Bytes) := readGroups true buf

/-- The end of `fetchStateByTcp`: the groups of a response. -/
def deserializeTcpResponse : Outcome TcpAbort (StateGroups × Bytes) := readGroups false buf

/-- Groups whose lengths fit their fields, and that the reader does not refuse. -/
structure Sized (refuseEmpty : Bool) (group : UInt16 × List Bytes) : Prop where
  count : group.2.length < 4294967296
  item : ∀ x ∈ group.2, x.length < 4294967296
  accepted : refuseEmpty = true → group.2 ≠ []

theorem readGroup_groupBytes {refuseEmpty : Bool} {group : UInt16 × List Bytes} (h : Sized refuseEmpty group)
    (rest : Bytes) : readGroup refuseEmpty (groupBytes group ++ rest) = .ok (group, rest) := by
  have hid : group.1.toNat < 65536 := group.1.toNat_lt
  have haccept : ¬ (refuseEmpty = true ∧ group.2.length = 0) :=
    fun ⟨hrefuse, hzero⟩ => h.accepted hrefuse (List.length_eq_zero_iff.mp hzero)
  have hitems := Wire.many_put group.2
    (fun x hx rest => Wire.sized_putSized TcpAbort.outOfRange (h.item x hx) rest) rest
  unfold readGroup groupBytes
  simp only [List.append_assoc]
  rw [Wire.uint16_of_lt _ hid, ok_bind]
  dsimp only
  rw [Wire.uint32_of_lt _ h.count, ok_bind]
  dsimp only
  rw [check_eq_ok haccept, ok_bind, hitems, ok_bind]
  simp only [UInt16.ofNat_toNat, pure_eq_ok]

theorem sized_of_fits {refuseEmpty : Bool} {order : VisitOrder UInt16 (List Bytes)} {groups : StateGroups}
    (hfits : (groupsBytes order groups).length < 4294967296)
    (haccept : refuseEmpty = true → ∀ id items, groups.get id = some items → items ≠ []) {id : UInt16}
    {items : List Bytes} (hget : groups.get id = some items) : Sized refuseEmpty (id, items) := by
  have hgroup : (groupBytes (id, items)).length ≤ ((order.visit groups).flatMap groupBytes).length :=
    Wire.length_le_flatMap ((order.mem_visit groups id items).mpr hget)
  have hcount : items.length ≤ (items.flatMap Wire.putSized).length :=
    Wire.count_le_flatMap items fun x _ => by rw [Wire.length_putSized]; omega
  simp only [groupsBytes, List.length_append] at hfits
  simp only [groupBytes, List.length_append] at hgroup
  refine ⟨by simp only; omega, fun x hx => ?_, fun hrefuse => haccept hrefuse id items hget⟩
  have hitem : (Wire.putSized x).length ≤ (items.flatMap Wire.putSized).length := Wire.length_le_flatMap hx
  rw [Wire.length_putSized] at hitem
  omega

/-- The number of groups fits its field, so all groups are read. -/
def Counted : Prop := groups.entries.length < 65536

instance (groups : StateGroups) : Decidable (Counted groups) := inferInstanceAs (Decidable (_ < _))

theorem length_entries_le : groups.entries.length ≤ 65536 := by
  have hnodup : groups.keys.Nodup := AList.keys_nodup groups
  have hlt : ∀ n ∈ groups.keys.map UInt16.toNat, n < 65536 := by
    intro n hn
    obtain ⟨id, -, rfl⟩ := List.mem_map.mp hn
    exact id.toNat_lt
  have hinj : (groups.keys.map UInt16.toNat).Nodup := hnodup.map fun a b h => UInt16.toNat_inj.mp h
  have hsubset : groups.keys.map UInt16.toNat ⊆ List.range 65536 := fun n hn => List.mem_range.mpr (hlt n hn)
  have hsub := (List.subperm_of_subset hinj hsubset).length_le
  rw [List.length_map, List.length_range] at hsub
  have hlen : groups.keys.length = groups.entries.length := List.length_map _
  omega

/-- **What is read back**: all groups, or none at all when every state id is used. -/
theorem readGroups_groupsBytes (order : VisitOrder UInt16 (List Bytes)) {groups : StateGroups}
    (h : ∀ id items, groups.get id = some items → Sized refuseEmpty (id, items)) (rest : Bytes) :
    ∃ groups' rest', readGroups refuseEmpty (groupsBytes order groups ++ rest) = .ok (groups', rest') ∧
      (Counted groups → (∀ id, groups'.get id = groups.get id) ∧ rest' = rest) ∧
      (¬ Counted groups → groups' = ∅) := by
  have hread : ∀ group ∈ order.visit groups, ∀ rest,
      readGroup refuseEmpty (groupBytes group ++ rest) = .ok (group, rest) := by
    rintro ⟨id, items⟩ hmem rest
    exact readGroup_groupBytes (h id items ((order.mem_visit groups id items).mp hmem)) rest
  have hlen := order.length_visit groups
  unfold readGroups groupsBytes
  rw [List.append_assoc, Wire.uint16_putUint16, ok_bind]
  dsimp only
  by_cases hcounted : Counted groups
  · rw [Nat.mod_eq_of_lt hcounted, ← hlen, Wire.many_put (order.visit groups) hread rest, ok_bind]
    exact ⟨_, rest, rfl, fun _ => ⟨order.get_copy groups, rfl⟩, fun hnot => absurd hcounted hnot⟩
  · have hfull : groups.entries.length = 65536 :=
      Nat.le_antisymm (length_entries_le groups) (Nat.not_lt.mp hcounted)
    rw [hfull]
    exact ⟨∅, _, rfl, fun hyes => absurd hyes hcounted, fun _ => rfl⟩

end StateComm
end Koala
