import Koala.StateClient.BatchBoundaries

/-!
# Flushing list states

A flush writes a list state back in full, or only what was appended to it since the fetch.  Which of the two is
decided by flags that the user's calls leave behind, and `serializeFromIndex` kills the process when there is
nothing to write.  `listFlush_iff` says for which calls a flush goes through; then the next fetch returns the list
as the user left it.  With calls that pass no empty list there is always something to write, and the two ways of
writing leave stores that decode to the same lists (`incremental_agrees`).
-/

namespace Koala
namespace StateClient

open Lib Lib.Outcome State
open Effect (cached reads)
open StateDecl (encode list)
open ListOp (effect)

/-! ## Calls on one list -/

section Calls

variable {V : Type}

/-- `Update`, `Add` or `AddAll`. -/
def ListOp.IsCall (op : ListOp V) : Prop := op.effect.IsWrite

/-- `Update`. -/
def ListOp.IsUpdate (op : ListOp V) : Prop := op.effect.IsOverwrite

/-- `Add` or `AddAll`. -/
def ListOp.IsAppend (op : ListOp V) : Prop := op.effect.IsAppend

instance : DecidablePred (ListOp.IsUpdate (V := V)) := fun op => inferInstanceAs (Decidable op.effect.IsOverwrite)

instance : DecidablePred (ListOp.IsAppend (V := V)) := fun op => inferInstanceAs (Decidable op.effect.IsAppend)

variable {ops : List (ListOp V)}

theorem ListOp.isCall_iff : (∃ op ∈ ops, op.IsCall) ↔ (∃ op ∈ ops, op.IsUpdate) ∨ ∃ op ∈ ops, op.IsAppend := by
  simp only [ListOp.IsCall, ListOp.IsUpdate, ListOp.IsAppend, Effect.isWrite_iff, and_or_left, exists_or]

/-- The call appends an element. -/
def ListOp.Adds : ListOp V → Prop
  | .add _ => True
  | .addAll vals => vals ≠ []
  | _ => False

/-- The list as the user sees it after some operations. -/
def seen (fetched : List V) (ops : List (ListOp V)) : List V := (ops.map effect).foldl cached fetched

/-- A flush has something to write, or nothing was called: the last `Update` was given an element or one was added
since; or, without an `Update`, some call added one, or the whole list is written and it was not empty. -/
inductive Flushable (allowIncremental : Bool) (fetched : List V) (ops : List (ListOp V)) : Prop where
  | untouched (h : ∀ op ∈ ops, ¬ op.IsCall)
  | updated (before : List (ListOp V)) (vals : List V) (after : List (ListOp V))
      (hsplit : ops = before ++ .update vals :: after) (hlast : ∀ op ∈ after, ¬ op.IsUpdate)
      (h : vals ≠ [] ∨ ∃ op ∈ after, op.Adds)
  | added (hnone : ∀ op ∈ ops, ¬ op.IsUpdate) (h : ∃ op ∈ ops, op.Adds)
  | rewritten (hnone : ∀ op ∈ ops, ¬ op.IsUpdate) (hfull : allowIncremental = false) (h : fetched ≠ [])

/-- Without an `Update` the list grows by what was added. -/
theorem seen_of_no_update (hnone : ∀ op ∈ ops, ¬ op.IsUpdate) (c : List V) :
    seen c ops = c ++ seen [] ops := by
  refine Effect.foldl_cached_of_no_overwrite (fun e he => ?_) c
  obtain ⟨op, hop, rfl⟩ := List.mem_map.mp he
  exact hnone op hop

theorem seen_nil_eq_nil_iff (hnone : ∀ op ∈ ops, ¬ op.IsUpdate) :
    seen [] ops = [] ↔ ∀ op ∈ ops, ¬ op.Adds := by
  induction ops with
  | nil => simp [seen]
  | cons op ops ih =>
    obtain ⟨hop, hops⟩ := List.forall_mem_cons.mp hnone
    have hstep : seen [] (op :: ops) = seen (cached [] op.effect) ops := rfl
    rw [hstep, seen_of_no_update hops, List.append_eq_nil_iff, ih hops, List.forall_mem_cons]
    refine and_congr_left fun _ => ?_
    cases op with
    | update vals => exact absurd trivial hop
    | add val => simp [effect, cached, ListOp.Adds]
    | addAll vals => simp [effect, cached, ListOp.Adds]
    | clear => simp [effect, cached, ListOp.Adds]
    | get => simp [effect, cached, ListOp.Adds]

theorem seen_of_no_call (h : ∀ op ∈ ops, ¬ op.IsCall) (c : List V) : seen c ops = c := by
  refine Effect.foldl_cached_of_no_write (fun e he => ?_) c
  obtain ⟨op, hop, rfl⟩ := List.mem_map.mp he
  exact h op hop

/-- After the last `Update`, what it was given and what was added since. -/
theorem seen_of_last_update {before after : List (ListOp V)} {vals : List V} (hlast : ∀ op ∈ after, ¬ op.IsUpdate)
    (c : List V) : seen c (before ++ .update vals :: after) = vals ++ seen [] after := by
  rw [← seen_of_no_update hlast]
  unfold seen
  rw [List.map_append, List.foldl_append, List.map_cons, List.foldl_cons]
  rfl

theorem exists_last_update (h : ∃ op ∈ ops, op.IsUpdate) :
    ∃ before vals after, ops = before ++ .update vals :: after ∧ ∀ op ∈ after, ¬ op.IsUpdate := by
  induction ops with
  | nil => simp at h
  | cons op ops ih =>
    by_cases hrest : ∃ op ∈ ops, op.IsUpdate
    · obtain ⟨before, vals, after, rfl, hlast⟩ := ih hrest
      exact ⟨op :: before, vals, after, rfl, hlast⟩
    · obtain ⟨op', hmem, hop'⟩ := h
      have heq : op' = op := by
        rcases List.mem_cons.mp hmem with rfl | hin
        · rfl
        · exact absurd ⟨op', hin, hop'⟩ hrest
      subst heq
      cases op' with
      | update vals => exact ⟨[], vals, ops, rfl, fun op hop hup => hrest ⟨op, hop, hup⟩⟩
      | _ => exact absurd hop' id

/-- With an `Update` the condition is that the list is not left empty. -/
theorem flushable_iff_of_update {allowIncremental : Bool} {c : List V} (h : ∃ op ∈ ops, op.IsUpdate) :
    Flushable allowIncremental c ops ↔ seen c ops ≠ [] := by
  have hempty : ∀ before vals after, ops = before ++ .update vals :: after → (∀ op ∈ after, ¬ op.IsUpdate) →
      (seen c ops ≠ [] ↔ vals ≠ [] ∨ ∃ op ∈ after, op.Adds) := by
    rintro before vals after rfl hlast
    rw [seen_of_last_update hlast, Ne, List.append_eq_nil_iff, seen_nil_eq_nil_iff hlast, not_and_or, not_forall]
    simp only [not_forall, not_not, exists_prop, Ne]
  constructor
  · intro hflush
    obtain ⟨op, hop, hup⟩ := h
    cases hflush with
    | untouched hnone => exact absurd ((Effect.isWrite_iff _).mpr (.inl hup)) (hnone op hop)
    | updated before vals after hsplit hlast hsome => exact (hempty before vals after hsplit hlast).mpr hsome
    | added hnone => exact absurd hup (hnone op hop)
    | rewritten hnone => exact absurd hup (hnone op hop)
  · intro hne
    obtain ⟨before, vals, after, hsplit, hlast⟩ := exists_last_update h
    exact .updated before vals after hsplit hlast ((hempty before vals after hsplit hlast).mp hne)

theorem flushable_iff_of_append {allowIncremental : Bool} {c : List V} (hnone : ∀ op ∈ ops, ¬ op.IsUpdate)
    (hcall : ∃ op ∈ ops, op.IsCall) :
    Flushable allowIncremental c ops ↔ seen [] ops ≠ [] ∨ (allowIncremental = false ∧ c ≠ []) := by
  have hadds : seen [] ops ≠ [] ↔ ∃ op ∈ ops, op.Adds := by
    rw [Ne, seen_nil_eq_nil_iff hnone]
    simp only [not_forall, not_not, exists_prop]
  constructor
  · intro hflush
    cases hflush with
    | untouched huntouched =>
      obtain ⟨op, hop, hcalled⟩ := hcall
      exact absurd hcalled (huntouched op hop)
    | updated before vals after hsplit =>
      exact absurd trivial (hnone (.update vals) (by rw [hsplit]; simp))
    | added _ hsome => exact .inl (hadds.mpr hsome)
    | rewritten _ hfull hne => exact .inr ⟨hfull, hne⟩
  · rintro (hsome | ⟨hfull, hne⟩)
    · exact .added hnone (hadds.mp hsome)
    · exact .rewritten hnone hfull hne

end Calls

/-! ## One list -/

namespace ListState

variable {V : Type} (codec : Codec V) {stored : Option Bytes} {c : List V}

/-- The value that is flushed after some calls on a fetched list. -/
def touched (c : List V) (ops : List (ListOp V)) : ListState V :=
  ⟨!c.isEmpty || decide (∃ e ∈ ops.map effect, e.IsWrite), decide (∃ e ∈ ops.map effect, e.IsOverwrite),
    false, decide (∃ e ∈ ops.map effect, e.IsAppend), seen c ops, c.length⟩

variable {ops : List (ListOp V)}

theorem slotOps_touched (c : List V) (hclear : ∀ op ∈ ops, op ≠ .clear) :
    (slotOps (listState codec) (ofContent c false false false c.length) ops).1 = touched c ops := by
  have hnone : ¬ ∃ e ∈ ops.map effect, e.IsClear := by
    rintro ⟨e, he, hcleared⟩
    obtain ⟨op, hop, rfl⟩ := List.mem_map.mp he
    cases op with
    | clear => exact hclear _ hop rfl
    | _ => exact hcleared
  rw [slotOps_spec]
  simp only [ofContent, touched, hnone, decide_false, Bool.false_or, seen]

theorem exists_effect_iff {p : Effect V → Prop} : (∃ e ∈ ops.map effect, p e) ↔ ∃ op ∈ ops, p op.effect := by
  simp only [List.mem_map, exists_exists_and_eq_and]

/-- The list is written in full: it was updated, or appended to without incremental serialization. -/
abbrev WritesAll (allowIncremental : Bool) (ops : List (ListOp V)) : Prop :=
  (∃ op ∈ ops, op.IsUpdate) ∨ (allowIncremental = false ∧ ∃ op ∈ ops, op.IsAppend)

/-- What the flush of a list does: write all, write the increment, or nothing. -/
theorem flushData_touched (allowIncremental : Bool) (c : List V) (ops : List (ListOp V)) :
    flushData allowIncremental (listState codec) (touched c ops) =
      if WritesAll allowIncremental ops then
        serializeFromIndex codec 0 (touched c ops) >>= fun bytes => .ok (some (Write.set bytes))
      else if ∃ op ∈ ops, op.IsAppend then
        serializeFromIndex codec c.length (touched c ops) >>= fun bytes => .ok (some (Write.merge bytes))
      else .ok none := by
  have hcall : (∃ op ∈ ops, op.effect.IsWrite) ↔ _ := ListOp.isCall_iff
  have hover : (∃ op ∈ ops, op.effect.IsOverwrite) ↔ ∃ op ∈ ops, op.IsUpdate := Iff.rfl
  have happ : (∃ op ∈ ops, op.effect.IsAppend) ↔ ∃ op ∈ ops, op.IsAppend := Iff.rfl
  simp only [flushData, touched, exists_effect_iff, hcall, hover, happ]
  by_cases hupdate : ∃ op ∈ ops, op.IsUpdate
  · simp [hupdate]
  · by_cases happend : ∃ op ∈ ops, op.IsAppend
    · cases allowIncremental <;> simp [hupdate, happend]
    · simp [hupdate, happend]

section

variable (h : (list V codec).Represents stored c)
include h

/-- **A cycle of a list**, for any calls. -/
theorem slotCycle_eq (allowIncremental : Bool) (hclear : ∀ op ∈ ops, op ≠ .clear) :
    slotCycle allowIncremental (listState codec) stored ops =
      if WritesAll allowIncremental ops then
        if seen c ops = [] then .abort (.startIdx 0 0)
        else .ok (some ((list V codec).encode (seen c ops)),
          reads cached c (ops.map effect))
      else if ∃ op ∈ ops, op.IsAppend then
        if seen [] ops = [] then .abort (.startIdx c.length c.length)
        else .ok (some ((list V codec).encode (seen c ops)),
          reads cached c (ops.map effect))
      else .ok (stored, reads cached c (ops.map effect)) := by
  have hlen : (touched c ops).state.length = (seen c ops).length := rfl
  have hreads : (slotOps (listState codec) (ofContent c false false false c.length) ops).2
      = reads cached c (ops.map effect) := by rw [slotOps_spec]; rfl
  rw [slotCycle, deserializeValue_ofContent codec h, ok_bind, slotOps_touched codec c hclear, hreads,
    flushData_touched]
  split_ifs with hall hnil happend hnil
  · rw [serializeFromIndex, hlen, hnil]
    rfl
  · have hpos : ¬ 0 ≥ (seen c ops).length := by simpa using hnil
    rw [serializeFromIndex, hlen, if_neg hpos]
    rfl
  · have hnone : ∀ op ∈ ops, ¬ op.IsUpdate := fun op hop hup => hall (.inl ⟨op, hop, hup⟩)
    rw [serializeFromIndex, hlen, seen_of_no_update hnone c, hnil, List.append_nil, if_pos (Nat.le_refl _)]
    rfl
  · have hnone : ∀ op ∈ ops, ¬ op.IsUpdate := fun op hop hup => hall (.inl ⟨op, hop, hup⟩)
    have hgrow := seen_of_no_update hnone c
    have hpos : ¬ c.length ≥ (seen c ops).length := by
      have := List.length_pos_iff.mpr hnil
      rw [hgrow, List.length_append]
      omega
    have hdrop : (touched c ops).state.drop c.length = seen [] ops := by
      show (seen c ops).drop c.length = _
      rw [hgrow, List.drop_left]
    have hbytes : stored.getD [] ++ (seen [] ops).flatMap codec.marshal
        = (list V codec).encode (seen c ops) := by
      rw [h.getD, hgrow, encode, encode, List.flatMap_append]
      rfl
    rw [serializeFromIndex, hlen, if_neg hpos, hdrop, ok_bind, ok_bind, ← hbytes]
    rfl
  · rfl

theorem slotCycle_ok_iff (allowIncremental : Bool) (hclear : ∀ op ∈ ops, op ≠ .clear) :
    (∃ r, slotCycle allowIncremental (listState codec) stored ops = .ok r) ↔ Flushable allowIncremental c ops := by
  rw [slotCycle_eq codec h allowIncremental hclear]
  by_cases hupdate : ∃ op ∈ ops, op.IsUpdate
  · rw [flushable_iff_of_update hupdate, if_pos (.inl hupdate)]
    split_ifs with hnil <;> simp [hnil]
  have hnone : ∀ op ∈ ops, ¬ op.IsUpdate := fun op hop hup => hupdate ⟨op, hop, hup⟩
  by_cases happend : ∃ op ∈ ops, op.IsAppend
  · rw [flushable_iff_of_append hnone (ListOp.isCall_iff.mpr (.inr happend))]
    cases allowIncremental with
    | false =>
      rw [if_pos (.inr ⟨rfl, happend⟩), seen_of_no_update hnone c]
      split_ifs with hnil
      · obtain ⟨rfl, hadded⟩ := List.append_eq_nil_iff.mp hnil
        simp [hadded]
      · rw [List.append_eq_nil_iff, not_and_or] at hnil
        exact iff_of_true ⟨_, rfl⟩ (hnil.symm.imp_right fun hc => ⟨rfl, hc⟩)
    | true =>
      have hskip : ¬ WritesAll true ops := by
        rintro (hup | ⟨hfalse, -⟩)
        · exact hupdate hup
        · cases hfalse
      rw [if_neg hskip, if_pos happend]
      split_ifs with hnil <;> simp [hnil]
  · have hskip : ¬ WritesAll allowIncremental ops := by
      rintro (hup | ⟨-, happ⟩)
      · exact hupdate hup
      · exact happend happ
    rw [if_neg hskip, if_neg happend]
    refine iff_of_true ⟨_, rfl⟩ (.untouched fun op hop hcalled => ?_)
    rcases ListOp.isCall_iff.mp ⟨op, hop, hcalled⟩ with hup | happ
    · exact hupdate hup
    · exact happend happ

theorem slotCycle_represents (allowIncremental : Bool)
    (hclear : ∀ op ∈ ops, op ≠ .clear) {r : Option Bytes × List (List V)}
    (hr : slotCycle allowIncremental (listState codec) stored ops = .ok r) :
    (list V codec).Represents r.1 (seen c ops) := by
  rw [slotCycle_eq codec h allowIncremental hclear] at hr
  split_ifs at hr with hall hnil happend hnil
  · cases hr
    exact ⟨trivial, .inr ⟨hnil, rfl⟩⟩
  · cases hr
    refine ⟨trivial, .inr ⟨?_, rfl⟩⟩
    rw [seen_of_no_update (fun op hop hup => hall (.inl ⟨op, hop, hup⟩)) c]
    exact fun happ => hnil (List.append_eq_nil_iff.mp happ).2
  · cases hr
    have hcall : ∀ op ∈ ops, ¬ op.IsCall := by
      intro op hop hcalled
      rcases ListOp.isCall_iff.mp ⟨op, hop, hcalled⟩ with hup | happ
      · exact hall (.inl hup)
      · exact happend happ
    rw [seen_of_no_call hcall]
    exact h

end

end ListState

/-! ## All lists of a batch -/

section Batches

variable {K : Type} [DecidableEq K] (V : Nat → Type) (codec : (i : Nat) → Codec (V i)) (key : Slot K → Bytes)
  (hkey : Function.Injective key)

/-- An operator whose states are lists. -/
abbrev listSchema : Schema K := Schema.ofDecls (fun i => .list (V i) (codec i)) key hkey

variable {V codec key hkey}

/-- **When a flush of lists goes through.**  For fetched lists, possibly absent, and any sequence of `Update`, `Add`
and `AddAll` calls, with or without incremental serialization: the flush completes and the next fetch returns every
list as the user saw it last if and only if, for each list, nothing was called, or there is something to write
(`Flushable`). -/
theorem listFlush_iff (req : Request K) (allowIncremental : Bool) (b : Backend)
    (fetched : (s : Slot K) → List (V s.stateID))
    (hstore : ∀ s ∈ req.slots, (list _ (codec s.stateID)).Represents (b.get (key s)) (fetched s))
    (answers : Answers (listSchema V codec key hkey)) (ops : List (UserOp (listSchema V codec key hkey)))
    (hslots : ∀ op ∈ ops, op.1 ∈ req.slots) (hclear : ∀ op ∈ ops, op.2 ≠ ListOp.clear) :
    (∃ b' answers', cycle (listSchema V codec key hkey) allowIncremental req.slots (b, answers) ops
        = .ok (b', answers') ∧ ∀ s ∈ req.slots, deserializeValue (listState (codec s.stateID)) (b'.get (key s))
        = .ok (ListState.ofContent (seen (fetched s) (opsAt (listSchema V codec key hkey) s ops)) false false false
            (seen (fetched s) (opsAt (listSchema V codec key hkey) s ops)).length)) ↔
      ∀ s ∈ req.slots, Flushable allowIncremental (fetched s) (opsAt (listSchema V codec key hkey) s ops) := by
  have hclear' : ∀ s, ∀ op ∈ opsAt (listSchema V codec key hkey) s ops, op ≠ ListOp.clear := by
    intro s op hop
    obtain ⟨⟨s', op'⟩, hmem, heq⟩ := List.mem_filterMap.mp hop
    split_ifs at heq with hs
    subst hs
    rw [← Option.some.inj heq]
    exact hclear ⟨s', op'⟩ hmem
  constructor
  · rintro ⟨b', answers', hcycle, -⟩ s hs
    rw [← ListState.slotCycle_ok_iff (codec s.stateID) (hstore s hs) allowIncremental (hclear' s)]
    exact slotCycle_of_cycle hslots
      (fun s hs => ListState.deserializeValue_ofContent (codec s.stateID) (hstore s hs)) hcycle s hs
  · intro hflush
    have hslot : ∀ s, ∃ r, s ∈ req.slots → slotCycle allowIncremental (listState (codec s.stateID)) (b.get (key s))
        (opsAt (listSchema V codec key hkey) s ops) = .ok r := by
      intro s
      by_cases hs : s ∈ req.slots
      · obtain ⟨r, hr⟩ := (ListState.slotCycle_ok_iff (codec s.stateID) (hstore s hs) allowIncremental
          (hclear' s)).mpr (hflush s hs)
        exact ⟨r, fun _ => hr⟩
      · exact ⟨(none, []), fun hin => absurd hin hs⟩
    choose result hresult using hslot
    obtain ⟨b', answers', hcycle, hstored, -, -⟩ := cycle_spec req.slots_nodup answers hslots hresult
    refine ⟨b', answers', hcycle, fun s hs => ?_⟩
    refine ListState.deserializeValue_ofContent (codec s.stateID) ?_
    rw [(hstored s hs).1]
    exact ListState.slotCycle_represents (codec s.stateID) (hstore s hs) allowIncremental (hclear' s) (hresult s hs)

/-- Lists of flags. -/
abbrev flagLists : Schema Unit := listSchema (fun _ => Bool) (fun _ => flagCodec) flagKey flagKey_injective

theorem flagRequest_slots {s : Slot Unit} (hs : s ∈ flagRequest.slots) : s = ⟨0, ()⟩ := by
  have hslots : flagRequest.slots = [⟨0, ()⟩] := by decide
  rw [hslots] at hs
  exact List.mem_singleton.mp hs

def flagAdd : List (UserOp flagLists) := [⟨⟨0, ()⟩, ListOp.add true⟩]

/-- A flag added to an absent list, with incremental serialization. -/
theorem listFlush_iff_add : ∃ b' answers',
    cycle flagLists true flagRequest.slots (∅, fun _ => []) flagAdd = .ok (b', answers') ∧
      ∀ s ∈ flagRequest.slots, deserializeValue (listState flagCodec) (b'.get (flagKey s))
        = .ok (ListState.ofContent (seen [] (opsAt flagLists s flagAdd)) false false false
            (seen [] (opsAt flagLists s flagAdd)).length) := by
  refine (listFlush_iff flagRequest true ∅ (fun _ => []) (fun s _ => ⟨trivial, .inl ⟨rfl, rfl⟩⟩) (fun _ => [])
    flagAdd (by decide) ?_).mpr fun s hs => ?_
  · intro op hop
    rw [List.mem_singleton.mp hop]
    exact nofun
  · obtain rfl := flagRequest_slots hs
    refine .added (fun op hop => ?_) ⟨ListOp.add true, List.mem_singleton.mpr rfl, trivial⟩
    rw [List.mem_singleton.mp hop]
    exact id

/-- An update with an empty list kills the process, with and without incremental serialization. -/
theorem listFlush_update_nil :
    cycle flagLists true flagRequest.slots (∅, fun _ => []) [⟨⟨0, ()⟩, ListOp.update []⟩] = .abort (.startIdx 0 0) ∧
    cycle flagLists false flagRequest.slots (∅, fun _ => []) [⟨⟨0, ()⟩, ListOp.update []⟩] = .abort (.startIdx 0 0) :=
  ⟨rfl, rfl⟩

end Batches

/-! ## Incremental and full -/

section Agreement

variable {K : Type} [DecidableEq K]

/-- Fetch..Flush cycles, each with a request of its own. -/
def rounds (sch : Schema K) (allowIncremental : Bool) (r : Backend × Answers sch)
    (batches : List (Request K × List (UserOp sch))) : Outcome StateAbort (Backend × Answers sch) :=
  forEach batches (fun r batch => cycle sch allowIncremental batch.1.slots r batch.2) r

theorem StateDecl.Represents.settled {V : Type} {codec : Codec V} {stored : Option Bytes} {c c' : List V}
    (h : (list V codec).Represents stored c) {touched : Prop} [Decidable touched]
    (hc : ¬ touched → c = []) :
    (list V codec).Represents ((list V codec).settled stored touched c') c' := by
  refine ⟨trivial, ?_⟩
  unfold StateDecl.settled
  split_ifs with hne htouched
  · exact .inr ⟨hne, rfl⟩
  · exact .inl ⟨not_not.mp hne, rfl⟩
  · refine .inl ⟨not_not.mp hne, ?_⟩
    rw [h.getD, hc htouched]
    rfl

variable {V : Nat → Type} {codec : (i : Nat) → Codec (V i)} {key : Slot K → Bytes} {hkey : Function.Injective key}

/-- The content of a list after a cycle. -/
def listAfter (s : Slot K) (c : List (V s.stateID)) (ops : List (UserOp (listSchema V codec key hkey))) :
    List (V s.stateID) :=
  Effect.flushed c ((opsAt (listSchema V codec key hkey) s ops).map effect)

theorem opsAt_eq_nil {sch : Schema K} {s : Slot K} {ops : List (UserOp sch)} (h : ∀ op ∈ ops, op.1 ≠ s) :
    opsAt sch s ops = [] := by
  refine List.filterMap_eq_nil_iff.mpr fun op hop => ?_
  exact dif_neg (h op hop)

/-- **One cycle** with calls that pass no empty list: in either mode it goes through, and its effect on the contents
and its answers do not depend on the mode. -/
theorem cycle_lists (req : Request K) (allowIncremental : Bool) {b : Backend}
    {content : (s : Slot K) → List (V s.stateID)}
    (hstore : ∀ s, (list _ (codec s.stateID)).Represents (b.get (key s)) (content s))
    (answers : Answers (listSchema V codec key hkey)) {ops : List (UserOp (listSchema V codec key hkey))}
    (hslots : ∀ op ∈ ops, op.1 ∈ req.slots) (hops : ∀ op ∈ ops, ListOp.NonEmpty op.2) :
    ∃ b' answers', cycle (listSchema V codec key hkey) allowIncremental req.slots (b, answers) ops
        = .ok (b', answers') ∧
      (∀ s, (list _ (codec s.stateID)).Represents (b'.get (key s)) (listAfter s (content s) ops)) ∧
      ∀ s, answers' s = answers s ++ reads cached (content s)
        ((opsAt (listSchema V codec key hkey) s ops).map effect) := by
  have hops' : ∀ op ∈ ops, ((fun i => list (V i) (codec i)) op.1.stateID).OpNonEmpty op.2 := hops
  have hne : ∀ s, ∀ op ∈ opsAt (listSchema V codec key hkey) s ops, ListOp.NonEmpty op := fun s =>
    opsAt_nonEmpty (s := s) hops'
  obtain ⟨b', answers', hcycle, hresult, hothers, hanswers⟩ := cycle_spec req.slots_nodup answers hslots
    fun s _ => ListState.slotCycle_spec (codec s.stateID) (hstore s) allowIncremental _ (hne s)
  have hforeign : ∀ s, s ∉ req.slots → opsAt (listSchema V codec key hkey) s ops = [] := fun s hs =>
    opsAt_eq_nil fun op hop heq => hs (heq ▸ hslots op hop)
  refine ⟨b', answers', hcycle, fun s => ?_, fun s => ?_⟩
  · by_cases hs : s ∈ req.slots
    · rw [(hresult s hs).1]
      exact (hstore s).settled fun hnot => not_not.mp fun hc => hnot (.inl hc)
    · have hkeys : ∀ s' ∈ req.slots, key s' ≠ key s := fun s' hs' heq => hs (hkey heq ▸ hs')
      rw [hothers (key s) hkeys, listAfter, hforeign s hs]
      exact hstore s
  · by_cases hs : s ∈ req.slots
    · exact (hresult s hs).2
    · rw [hanswers s hs, hforeign s hs]
      exact (List.append_nil _).symm

/-- **Any number of cycles**: both modes go through, with the same answers and the same contents. -/
theorem rounds_lists {b₁ b₂ : Backend} {content : (s : Slot K) → List (V s.stateID)}
    (h₁ : ∀ s, (list _ (codec s.stateID)).Represents (b₁.get (key s)) (content s))
    (h₂ : ∀ s, (list _ (codec s.stateID)).Represents (b₂.get (key s)) (content s))
    (answers : Answers (listSchema V codec key hkey))
    {batches : List (Request K × List (UserOp (listSchema V codec key hkey)))}
    (hslots : ∀ batch ∈ batches, ∀ op ∈ batch.2, op.1 ∈ batch.1.slots)
    (hops : ∀ batch ∈ batches, ∀ op ∈ batch.2, ListOp.NonEmpty op.2) :
    ∃ b₁' b₂' answers', rounds (listSchema V codec key hkey) true (b₁, answers) batches = .ok (b₁', answers') ∧
      rounds (listSchema V codec key hkey) false (b₂, answers) batches = .ok (b₂', answers') ∧
      ∀ s,
        (list _ (codec s.stateID)).Represents (b₁'.get (key s))
          (batches.foldl (fun c batch => listAfter s c batch.2) (content s)) ∧
        (list _ (codec s.stateID)).Represents (b₂'.get (key s))
          (batches.foldl (fun c batch => listAfter s c batch.2) (content s)) := by
  induction batches generalizing b₁ b₂ content answers with
  | nil => exact ⟨b₁, b₂, answers, rfl, rfl, fun s => ⟨h₁ s, h₂ s⟩⟩
  | cons batch batches ih =>
    obtain ⟨hslot, hslots⟩ := List.forall_mem_cons.mp hslots
    obtain ⟨hop, hops⟩ := List.forall_mem_cons.mp hops
    obtain ⟨b₁', answers₁, hcycle₁, hstore₁, hanswers₁⟩ := cycle_lists batch.1 true h₁ answers hslot hop
    obtain ⟨b₂', answers₂, hcycle₂, hstore₂, hanswers₂⟩ := cycle_lists batch.1 false h₂ answers hslot hop
    obtain rfl : answers₁ = answers₂ := funext fun s => (hanswers₁ s).trans (hanswers₂ s).symm
    obtain ⟨b₁'', b₂'', answers', hrun₁, hrun₂, hstore⟩ := ih hstore₁ hstore₂ answers₁ hslots hops
    refine ⟨b₁'', b₂'', answers', ?_, ?_, hstore⟩
    · rw [rounds, forEach_cons, hcycle₁, ok_bind]
      exact hrun₁
    · rw [rounds, forEach_cons, hcycle₂, ok_bind]
      exact hrun₂

/-- **Incremental and full flushes agree.**  For stored lists and any number of cycles whose calls pass no empty
list, running with incremental serialization and without it both go through and return the same answers, and every
key then decodes to the same list in both stores; and a concatenation of encodings decodes to the concatenation of
the lists. -/
theorem incremental_agrees (b : Backend) (content : (s : Slot K) → List (V s.stateID))
    (hstore : ∀ s, (list _ (codec s.stateID)).Represents (b.get (key s)) (content s))
    (answers : Answers (listSchema V codec key hkey))
    (batches : List (Request K × List (UserOp (listSchema V codec key hkey))))
    (hslots : ∀ batch ∈ batches, ∀ op ∈ batch.2, op.1 ∈ batch.1.slots)
    (hops : ∀ batch ∈ batches, ∀ op ∈ batch.2, ListOp.NonEmpty op.2) : (∃ bInc bFull answers',
      rounds (listSchema V codec key hkey) true (b, answers) batches = .ok (bInc, answers') ∧
      rounds (listSchema V codec key hkey) false (b, answers) batches = .ok (bFull, answers') ∧
      ∀ s, ∃ vs : List (V s.stateID), deserializeValue (listState (codec s.stateID)) (bInc.get (key s))
          = .ok (ListState.ofContent vs false false false vs.length) ∧
        deserializeValue (listState (codec s.stateID)) (bFull.get (key s))
          = .ok (ListState.ofContent vs false false false vs.length)) ∧
    ∀ i (lists : List (List (V i))),
      ListState.deserialize (codec i) (lists.flatMap fun vs => vs.flatMap (codec i).marshal)
        = .ok ⟨true, false, false, false, lists.flatten, lists.flatten.length⟩ := by
  refine ⟨?_, fun i lists => ?_⟩
  · obtain ⟨bInc, bFull, answers', hinc, hfull, hcontent⟩ := rounds_lists hstore hstore answers hslots hops
    refine ⟨bInc, bFull, answers', hinc, hfull, fun s =>
      ⟨batches.foldl (fun c batch => listAfter s c batch.2) (content s), ?_, ?_⟩⟩
    · exact ListState.deserializeValue_ofContent (codec s.stateID) (hcontent s).1
    · exact ListState.deserializeValue_ofContent (codec s.stateID) (hcontent s).2
  · have hflat : (lists.flatMap fun vs => vs.flatMap (codec i).marshal) = lists.flatten.flatMap (codec i).marshal := by
      rw [← List.flatMap_id, List.flatMap_assoc]
      rfl
    rw [hflat]
    exact ListState.deserialize_flatMap (codec i) lists.flatten

/-- Two cycles that append to a list that was absent. -/
theorem incremental_agrees_twice : (∃ bInc bFull answers',
      rounds flagLists true (∅, fun _ => []) [(flagRequest, flagAdd), (flagRequest, flagAdd)] = .ok (bInc, answers') ∧
      rounds flagLists false (∅, fun _ => []) [(flagRequest, flagAdd), (flagRequest, flagAdd)]
        = .ok (bFull, answers') ∧ ∀ s : Slot Unit, ∃ vs : List Bool,
        deserializeValue (listState flagCodec) (bInc.get (flagKey s))
          = .ok (ListState.ofContent vs false false false vs.length) ∧
        deserializeValue (listState flagCodec) (bFull.get (flagKey s))
          = .ok (ListState.ofContent vs false false false vs.length)) ∧
    ∀ (_ : Nat) (lists : List (List Bool)),
      ListState.deserialize flagCodec (lists.flatMap fun vs => vs.flatMap flagCodec.marshal)
        = .ok ⟨true, false, false, false, lists.flatten, lists.flatten.length⟩ := by
  refine incremental_agrees ∅ (fun _ => []) (fun s => ⟨trivial, .inl ⟨rfl, rfl⟩⟩)
    (fun _ => []) [(flagRequest, flagAdd), (flagRequest, flagAdd)] (by decide) fun batch hbatch op hop => ?_
  have hflagAdd : batch.2 = flagAdd := by
    rcases List.mem_cons.mp hbatch with rfl | hbatch
    · rfl
    · rw [List.mem_singleton.mp hbatch]
  rw [hflagAdd] at hop
  rw [List.mem_singleton.mp hop]
  trivial

end Agreement

end StateClient
end Koala
