import Koala.StateClient.Client
import Koala.StateClient.Contents

/-!
# Batch boundaries

Does it matter where a stream of state operations is cut into Fetch..Flush cycles?  A cycle of a value or list
state does to the stored bytes what `Effect.flushed` does to their content and answers with `Effect.cached`
contents (`slotCycle_spec`); one cycle per operation is `Effect.direct`.  So the cut matters exactly when a
cleared state is written to or read again in the same cycle (`batching_iff`).
-/

namespace Koala
namespace StateClient

open Lib Lib.Outcome State
open Effect (cached direct flushed foldl_cached_eq_nil_iff reads reads_cons)

/-! ## Registered states -/

/-- What the user API of a value state does to its content. -/
def ValueOp.effect {V : Type} : ValueOp V → Effect V
  | .set v => .overwrite [v]
  | .clear => .clear
  | .get => .read

/-- What the user API of a list state does to its content. -/
def ListOp.effect {V : Type} : ListOp V → Effect V
  | .update vals => .overwrite vals
  | .add val => .append [val]
  | .addAll vals => .append vals
  | .clear => .clear
  | .get => .read

/-- What `Get` of a value state returns for a content. -/
def ValueState.view {V : Type} (c : List V) : Option V × Bool := (c.head?, !c.isEmpty)

/-- A state that an operator registers. -/
inductive StateDecl : Type 1 where
  | value (V : Type) (codec : Codec V)
  | list (V : Type) (codec : Codec V)

namespace StateDecl

abbrev type : StateDecl → StateType
  | .value _ codec => valueState codec
  | .list _ codec => listState codec

/-- The tuples of the state. -/
abbrev Val : StateDecl → Type
  | .value V _ => V
  | .list V _ => V

def codec : (d : StateDecl) → Codec d.Val
  | .value _ codec => codec
  | .list _ codec => codec

/-- What an operation of the user API does to the content. -/
def effect : (d : StateDecl) → d.type.Op → Effect d.Val
  | .value V _ => fun op : ValueOp V => op.effect
  | .list V _ => fun op : ListOp V => op.effect

/-- What `Get` returns for a content. -/
def view : (d : StateDecl) → List d.Val → d.type.Res
  | .value V _ => fun c : List V => ValueState.view c
  | .list V _ => fun c : List V => c

/-- A value state has at most one value. -/
def Valid : (d : StateDecl) → List d.Val → Prop
  | .value _ _, c => c.length ≤ 1
  | .list _ _, _ => True

/-- The bytes of a content. -/
def encode (d : StateDecl) (c : List d.Val) : Bytes := c.flatMap d.codec.marshal

/-- The stored bytes are those of `c`; nothing and no bytes both mean an empty state. -/
structure Represents (d : StateDecl) (stored : Option Bytes) (c : List d.Val) : Prop where
  valid : d.Valid c
  bytes : (c = [] ∧ stored.getD [] = []) ∨ (c ≠ [] ∧ stored = some (d.encode c))

variable {d : StateDecl} {stored : Option Bytes} {c : List d.Val}

theorem encode_injective (d : StateDecl) : Function.Injective d.encode := fun _ _ h =>
  flatMap_marshal_injective d.codec h

theorem encode_eq_nil_iff (d : StateDecl) (c : List d.Val) : d.encode c = [] ↔ c = [] := by
  constructor
  · exact fun h => d.encode_injective h
  · rintro rfl
    rfl

theorem Represents.getD (h : d.Represents stored c) : stored.getD [] = d.encode c := by
  rcases h.bytes with ⟨rfl, hempty⟩ | ⟨-, rfl⟩
  · exact hempty
  · rfl

theorem Represents.empty_iff (h : d.Represents stored c) : stored.getD [] = [] ↔ c = [] := by
  rw [h.getD, encode_eq_nil_iff]

/-- The stored bytes for a content: an empty state is deleted if it was ever there, and left alone otherwise. -/
def settled (d : StateDecl) (stored : Option Bytes) (touched : Prop) [Decidable touched] (c : List d.Val) :
    Option Bytes :=
  if c ≠ [] then some (d.encode c) else if touched then none else stored

theorem valid_foldl (step : List d.Val → Effect d.Val → List d.Val) (hstep : step = cached ∨ step = direct)
    (ops : List d.type.Op) (hvalid : d.Valid c) : d.Valid ((ops.map d.effect).foldl step c) := by
  cases d with
  | list V codec => trivial
  | value V codec =>
    induction ops generalizing c with
    | nil => exact hvalid
    | cons op ops ih =>
      rw [List.map_cons, List.foldl_cons]
      refine ih ?_
      rcases hstep with rfl | rfl
      all_goals
        cases op with
        | set v => exact Nat.le_refl 1
        | clear => first | exact hvalid | exact Nat.zero_le 1
        | get => exact hvalid

theorem Represents.settled_flushed (h : d.Represents stored c) {es : List (Effect d.Val)}
    (hne : ∀ e ∈ es, e.NonEmpty) :
    d.settled stored (c ≠ [] ∨ ∃ e ∈ es, e.IsWrite) (flushed c es) =
      if es.foldl cached c = [] then stored
      else if ∃ e ∈ es, e.IsClear then none
      else if ∃ e ∈ es, e.IsWrite then some (d.encode (es.foldl cached c))
      else stored := by
  have hempty := foldl_cached_eq_nil_iff hne c
  have htouched : (c ≠ [] ∨ ∃ e ∈ es, e.IsWrite) ↔ es.foldl cached c ≠ [] := by
    simp only [Ne, hempty, not_and_or, not_forall, not_not, exists_prop]
  unfold settled
  by_cases hnil : es.foldl cached c = []
  · have hflushed : flushed c es = [] := by
      unfold flushed
      split_ifs
      · rfl
      · exact hnil
    rw [if_neg (not_not.mpr hflushed), if_neg (fun h => htouched.mp h hnil), if_pos hnil]
  rw [if_neg hnil, if_pos (htouched.mpr hnil)]
  by_cases hclear : ∃ e ∈ es, e.IsClear
  · rw [flushed, if_pos hclear, if_neg (not_not.mpr rfl), if_pos hclear]
  rw [flushed, if_neg hclear, if_pos hnil, if_neg hclear]
  by_cases hwrite : ∃ e ∈ es, e.IsWrite
  · rw [if_pos hwrite]
  · have hsame := Effect.foldl_cached_of_no_write (fun e he hw => hwrite ⟨e, he, hw⟩) c
    rw [hsame] at hnil ⊢
    rw [if_neg hwrite]
    exact ((h.bytes.resolve_left fun hnone => hnil hnone.1).2).symm

end StateDecl

/-! ## A cycle of a value state -/

namespace ValueState

variable {V : Type}

/-- A cached value state with content `c`. -/
def ofContent (c : List V) (updated deleted : Bool) : ValueState V := ⟨!c.isEmpty, updated, deleted, c.head?⟩

variable {c : List V} {stored : Option Bytes} (codec : Codec V)

theorem deserializeValue_ofContent (h : (StateDecl.value V codec).Represents stored c) :
    deserializeValue (valueState codec) stored = .ok (ofContent c false false) := by
  have hvalid : c.length ≤ 1 := h.valid
  match c, hvalid with
  | [], _ =>
    unfold deserializeValue
    rw [h.empty_iff.mpr rfl]
    rfl
  | [v], _ =>
    have hbytes : stored.getD [] = codec.marshal v := by
      rw [h.getD]
      exact List.append_nil _
    have hpos := codec.marshal_pos v
    unfold deserializeValue
    rw [hbytes]
    cases hmarshal : codec.marshal v with
    | nil => simp [hmarshal] at hpos
    | cons b bytes =>
      have hread := deserialize_marshal codec v
      rw [hmarshal] at hread
      exact hread

theorem apply_ofContent (op : ValueOp V) (updated deleted : Bool) :
    apply op (ofContent c updated deleted) = ofContent (cached c op.effect)
      (updated || decide op.effect.IsWrite) (deleted || decide op.effect.IsClear) := by
  cases op <;> simp [apply, ofContent, ValueOp.effect, cached]

theorem get_ofContent (c : List V) (updated deleted : Bool) : (ofContent c updated deleted).get = view c := by
  cases c <;> rfl

theorem answer_ofContent (op : ValueOp V) (updated deleted : Bool) :
    (answer op (ofContent c updated deleted)).toList = (Effect.answer c op.effect).map view := by
  cases op with
  | get => exact congrArg (fun r => [r]) (get_ofContent c updated deleted)
  | _ => rfl

theorem slotOps_ofContent (ops : List (ValueOp V)) (c : List V) (updated deleted : Bool) :
    slotOps (valueState codec) (ofContent c updated deleted) ops =
      (ofContent ((ops.map ValueOp.effect).foldl cached c)
        (updated || decide (∃ e ∈ ops.map ValueOp.effect, e.IsWrite))
        (deleted || decide (∃ e ∈ ops.map ValueOp.effect, e.IsClear)),
      (reads cached c (ops.map ValueOp.effect)).map ValueState.view) := by
  induction ops generalizing c updated deleted with
  | nil => simp [slotOps, reads]
  | cons op ops ih =>
    have happly : (valueState codec).apply op (ofContent c updated deleted) = _ := apply_ofContent op updated deleted
    have hanswer : ((valueState codec).answer op (ofContent c updated deleted)).toList = _ :=
      answer_ofContent op updated deleted
    rw [slotOps, happly, hanswer, ih, List.map_cons, reads_cons, List.map_append]
    simp only [List.foldl_cons, List.exists_mem_cons_iff, Bool.decide_or, Bool.or_assoc]

theorem flushData_ofContent (allowIncremental : Bool) (hvalid : c.length ≤ 1) (updated deleted : Bool) :
    flushData allowIncremental (valueState codec) (ofContent c updated deleted) =
      .ok (if c = [] then none else if deleted then some .delete
        else if updated then some (.set (c.flatMap codec.marshal)) else none) := by
  match c, hvalid with
  | [], _ => rfl
  | [v], _ => cases deleted <;> cases updated <;> simp [flushData, ofContent, serialize]

theorem effect_nonEmpty (ops : List (ValueOp V)) : ∀ e ∈ ops.map ValueOp.effect, e.NonEmpty := by
  intro e he
  obtain ⟨op, -, rfl⟩ := List.mem_map.mp he
  cases op <;> simp [ValueOp.effect, Effect.NonEmpty]

theorem slotCycle_spec (h : (StateDecl.value V codec).Represents stored c)
    (allowIncremental : Bool) (ops : List (ValueOp V)) :
    slotCycle allowIncremental (valueState codec) stored ops =
      .ok ((StateDecl.value V codec).settled stored (c ≠ [] ∨ ∃ e ∈ ops.map ValueOp.effect, e.IsWrite)
          (flushed c (ops.map ValueOp.effect)),
        (reads cached c (ops.map ValueOp.effect)).map view) := by
  have hvalid : ((ops.map ValueOp.effect).foldl cached c).length ≤ 1 :=
    StateDecl.valid_foldl (d := .value V codec) _ (.inl rfl) ops h.valid
  rw [slotCycle, deserializeValue_ofContent codec h, ok_bind, slotOps_ofContent codec ops c false false,
    flushData_ofContent codec allowIncremental hvalid, ok_bind, h.settled_flushed (effect_nonEmpty ops)]
  simp only [Bool.false_or, decide_eq_true_eq]
  congr 2
  split_ifs <;> rfl

end ValueState

/-! ## A cycle of a list state -/

/-- Every list passed to `Update` or `AddAll` has an element. -/
def ListOp.NonEmpty {V : Type} : ListOp V → Prop
  | .update vals => vals ≠ []
  | .addAll vals => vals ≠ []
  | _ => True

theorem ListOp.effect_nonEmpty {V : Type} {op : ListOp V} (h : op.NonEmpty) : op.effect.NonEmpty := by
  cases op with
  | add val => exact List.cons_ne_nil val []
  | _ => exact h

namespace ListState

variable {V : Type}

/-- A cached list state with content `c`, fetched with `appendStartIdx` values. -/
def ofContent (c : List V) (updated deleted appended : Bool) (appendStartIdx : Nat) : ListState V :=
  ⟨!c.isEmpty, updated, deleted, appended, c, appendStartIdx⟩

variable {c : List V} (codec : Codec V) {stored : Option Bytes}

theorem deserializeValue_ofContent (h : (StateDecl.list V codec).Represents stored c) :
    deserializeValue (listState codec) stored = .ok (ofContent c false false false c.length) := by
  unfold deserializeValue
  rw [h.getD]
  cases hbytes : (StateDecl.list V codec).encode c with
  | nil =>
    obtain rfl := ((StateDecl.list V codec).encode_eq_nil_iff c).mp hbytes
    rfl
  | cons b bytes =>
    have hne : c ≠ [] := fun hnil => by
      rw [((StateDecl.list V codec).encode_eq_nil_iff c).mpr hnil] at hbytes
      cases hbytes
    have hread := deserialize_flatMap codec c
    have hencode : c.flatMap codec.marshal = b :: bytes := hbytes
    rw [hencode] at hread
    refine hread.trans ?_
    cases c with
    | nil => exact absurd rfl hne
    | cons v vs => rfl

theorem apply_eq (op : ListOp V) (v : ListState V) :
    apply op v = ⟨v.hasValue || decide op.effect.IsWrite, v.updated || decide op.effect.IsOverwrite,
      v.deleted || decide op.effect.IsClear, v.appended || decide op.effect.IsAppend,
      cached v.state op.effect, v.appendStartIdx⟩ := by
  cases op <;> simp [apply, ListOp.effect, cached]

theorem answer_eq (op : ListOp V) (v : ListState V) : (answer op v).toList = Effect.answer v.state op.effect := by
  cases op <;> rfl

theorem slotOps_spec (ops : List (ListOp V)) (v : ListState V) :
    slotOps (listState codec) v ops =
      (⟨v.hasValue || decide (∃ e ∈ ops.map ListOp.effect, e.IsWrite),
        v.updated || decide (∃ e ∈ ops.map ListOp.effect, e.IsOverwrite),
        v.deleted || decide (∃ e ∈ ops.map ListOp.effect, e.IsClear),
        v.appended || decide (∃ e ∈ ops.map ListOp.effect, e.IsAppend),
        (ops.map ListOp.effect).foldl cached v.state, v.appendStartIdx⟩,
      reads cached v.state (ops.map ListOp.effect)) := by
  induction ops generalizing v with
  | nil => simp [slotOps, reads]
  | cons op ops ih =>
    have happly : (listState codec).apply op v = _ := apply_eq op v
    have hanswer : ((listState codec).answer op v).toList = _ := answer_eq op v
    rw [slotOps, hanswer, happly, ih, List.map_cons, reads_cons]
    simp only [List.foldl_cons, List.exists_mem_cons_iff, Bool.decide_or, Bool.or_assoc]

theorem slotOps_ofContent (ops : List (ListOp V)) (hne : ∀ op ∈ ops, op.NonEmpty) (c : List V)
    (updated deleted appended : Bool) (idx : Nat) :
    slotOps (listState codec) (ofContent c updated deleted appended idx) ops =
      (ofContent ((ops.map ListOp.effect).foldl cached c)
        (updated || decide (∃ e ∈ ops.map ListOp.effect, e.IsOverwrite))
        (deleted || decide (∃ e ∈ ops.map ListOp.effect, e.IsClear))
        (appended || decide (∃ e ∈ ops.map ListOp.effect, e.IsAppend)) idx,
      reads cached c (ops.map ListOp.effect)) := by
  have hne' : ∀ e ∈ ops.map ListOp.effect, e.NonEmpty := by
    intro e he
    obtain ⟨op, hop, rfl⟩ := List.mem_map.mp he
    exact ListOp.effect_nonEmpty (hne op hop)
  -- with nothing empty written, a state has a value exactly if its content is not empty
  have hvalue : (!c.isEmpty || decide (∃ e ∈ ops.map ListOp.effect, e.IsWrite))
      = !((ops.map ListOp.effect).foldl cached c).isEmpty := by
    rw [Bool.eq_iff_iff, Bool.or_eq_true, Bool.not_eq_true', Bool.not_eq_true', decide_eq_true_eq,
      ← Bool.not_eq_true, ← Bool.not_eq_true, List.isEmpty_iff, List.isEmpty_iff,
      foldl_cached_eq_nil_iff hne', not_and_or, not_forall]
    simp only [not_forall, not_not, exists_prop]
  rw [slotOps_spec]
  simp only [ofContent, hvalue]

theorem flushData_ofContent (allowIncremental : Bool) {updated deleted appended : Bool} {idx : Nat}
    (hidx : updated = false → appended = true → idx < c.length) :
    flushData allowIncremental (listState codec) (ofContent c updated deleted appended idx) =
      .ok (if c = [] then none else if deleted then some .delete
        else if updated || (!allowIncremental && appended) then some (.set (c.flatMap codec.marshal))
        else if appended then some (.merge ((c.drop idx).flatMap codec.marshal)) else none) := by
  cases c with
  | nil => rfl
  | cons v vs =>
    have hlen : ¬ (0 ≥ (v :: vs).length) := by simp
    simp only [flushData, ofContent, List.isEmpty_cons, Bool.not_false, Bool.not_true, Bool.false_eq_true, if_false,
      reduceCtorEq, serializeFromIndex, hlen, List.drop_zero, ok_bind]
    split_ifs with hdeleted hset happended hend
    · rfl
    · rfl
    · have hupdated : updated = false := by
        rw [Bool.or_eq_true, not_or] at hset
        simpa using hset.1
      exact absurd hend (Nat.not_le.mpr (hidx hupdated happended))
    · rfl
    · rfl

theorem slotCycle_spec (h : (StateDecl.list V codec).Represents stored c)
    (allowIncremental : Bool) (ops : List (ListOp V)) (hops : ∀ op ∈ ops, op.NonEmpty) :
    slotCycle allowIncremental (listState codec) stored ops =
      .ok ((StateDecl.list V codec).settled stored (c ≠ [] ∨ ∃ e ∈ ops.map ListOp.effect, e.IsWrite)
          (flushed c (ops.map ListOp.effect)), reads cached c (ops.map ListOp.effect)) := by
  have hne : ∀ e ∈ ops.map ListOp.effect, e.NonEmpty := by
    intro e he
    obtain ⟨op, hop, rfl⟩ := List.mem_map.mp he
    exact ListOp.effect_nonEmpty (hops op hop)
  have hwrite : (∃ e ∈ ops.map ListOp.effect, e.IsWrite) ↔
      (∃ e ∈ ops.map ListOp.effect, e.IsOverwrite) ∨ ∃ e ∈ ops.map ListOp.effect, e.IsAppend := by
    simp only [Effect.isWrite_iff, and_or_left, exists_or]
  -- without an overwrite, the increment is what was appended
  have hgrow : (¬ ∃ e ∈ ops.map ListOp.effect, e.IsOverwrite) →
      ((ops.map ListOp.effect).foldl cached c) = c ++ (ops.map ListOp.effect).foldl cached [] :=
    fun hnone => Effect.foldl_cached_of_no_overwrite (fun e he ho => hnone ⟨e, he, ho⟩) c
  have hincrement : (∃ e ∈ ops.map ListOp.effect, e.IsAppend) →
      (ops.map ListOp.effect).foldl cached [] ≠ [] := by
    rintro ⟨e, he, happend⟩ hnil
    exact ((foldl_cached_eq_nil_iff hne []).mp hnil).2 e he ((Effect.isWrite_iff e).mpr (.inr happend))
  have hidx : (false || decide (∃ e ∈ ops.map ListOp.effect, e.IsOverwrite)) = false →
      (false || decide (∃ e ∈ ops.map ListOp.effect, e.IsAppend)) = true →
      c.length < ((ops.map ListOp.effect).foldl cached c).length := by
    intro hover happend
    rw [Bool.false_or, decide_eq_false_iff_not] at hover
    rw [Bool.false_or, decide_eq_true_eq] at happend
    rw [hgrow hover, List.length_append]
    have hpos := List.length_pos_iff.mpr (hincrement happend)
    omega
  rw [slotCycle, deserializeValue_ofContent codec h, ok_bind,
    slotOps_ofContent codec ops hops c false false false c.length, flushData_ofContent codec allowIncremental hidx,
    ok_bind, h.settled_flushed hne]
  simp only [Bool.false_or, Bool.or_eq_true, Bool.and_eq_true, decide_eq_true_eq, hwrite]
  congr 2
  by_cases hnil : (ops.map ListOp.effect).foldl cached c = []
  · rw [if_pos hnil, if_pos hnil, Write.apply]
  rw [if_neg hnil, if_neg hnil]
  by_cases hclear : ∃ e ∈ ops.map ListOp.effect, e.IsClear
  · rw [if_pos hclear, if_pos hclear, Write.apply]
  rw [if_neg hclear, if_neg hclear]
  by_cases hset : (∃ e ∈ ops.map ListOp.effect, e.IsOverwrite) ∨
      ((!allowIncremental) = true ∧ ∃ e ∈ ops.map ListOp.effect, e.IsAppend)
  · rw [if_pos hset, if_pos (hset.imp_right And.right)]
    rfl
  rw [if_neg hset]
  rw [not_or] at hset
  by_cases happend : ∃ e ∈ ops.map ListOp.effect, e.IsAppend
  · rw [if_pos happend, if_pos (.inr happend), Write.apply, h.getD, hgrow hset.1, List.drop_left]
    simp only [StateDecl.encode, StateDecl.codec, List.flatMap_append]
  · rw [if_neg happend, if_neg (not_or.mpr ⟨hset.1, happend⟩), Write.apply]

end ListState

/-! ## A cycle of a registered state -/

namespace StateDecl

/-- Every list passed to an operation has an element. -/
def OpNonEmpty : (d : StateDecl) → d.type.Op → Prop
  | .value _ _ => fun _ => True
  | .list V _ => fun op : ListOp V => op.NonEmpty

variable {d : StateDecl} {stored : Option Bytes} {c : List d.Val} {ops : List d.type.Op}

theorem effect_nonEmpty (hops : ∀ op ∈ ops, d.OpNonEmpty op) :
    ∀ e ∈ ops.map d.effect, e.NonEmpty := by
  cases d with
  | value V codec => exact ValueState.effect_nonEmpty ops
  | list V codec =>
    intro e he
    obtain ⟨op, hop, rfl⟩ := List.mem_map.mp he
    exact ListOp.effect_nonEmpty (hops op hop)

/-- **A cycle flushes and answers as its cached content says.** -/
theorem Represents.slotCycle_spec (h : d.Represents stored c) (allowIncremental : Bool) (ops : List d.type.Op)
    (hops : ∀ op ∈ ops, d.OpNonEmpty op) :
    slotCycle allowIncremental d.type stored ops =
      .ok (d.settled stored (c ≠ [] ∨ ∃ e ∈ ops.map d.effect, e.IsWrite) (flushed c (ops.map d.effect)),
        (reads cached c (ops.map d.effect)).map d.view) := by
  cases d with
  | value V codec => exact ValueState.slotCycle_spec codec h allowIncremental ops
  | list V codec =>
    rw [show (StateDecl.list V codec).view = id from rfl, List.map_id]
    exact ListState.slotCycle_spec codec h allowIncremental ops hops

/-- The content that an answer shows. -/
def shown : (d : StateDecl) → d.type.Res → List d.Val
  | .value V _ => fun r : Option V × Bool => r.1.toList
  | .list V _ => fun c : List V => c

theorem shown_view (hvalid : d.Valid c) : d.shown (d.view c) = c := by
  cases d with
  | list V codec => rfl
  | value V codec =>
    have hlen : c.length ≤ 1 := hvalid
    match c, hlen with
    | [], _ => rfl
    | [v], _ => rfl

theorem valid_reads (step : List d.Val → Effect d.Val → List d.Val) (hstep : step = cached ∨ step = direct)
    (ops : List d.type.Op) (hvalid : d.Valid c) : ∀ r ∈ reads step c (ops.map d.effect), d.Valid r := by
  induction ops generalizing c with
  | nil => simp [reads]
  | cons op ops ih =>
    have hnext : d.Valid (step c (d.effect op)) := valid_foldl step hstep [op] hvalid
    rw [List.map_cons, reads_cons]
    intro r hr
    rcases List.mem_append.mp hr with hanswer | hlater
    · cases heffect : d.effect op with
      | read =>
        rw [heffect] at hanswer
        rwa [List.mem_singleton.mp hanswer]
      | _ =>
        rw [heffect] at hanswer
        cases hanswer
    · exact ih hnext r hlater

theorem map_view_inj {l l' : List (List d.Val)} (hl : ∀ r ∈ l, d.Valid r) (hl' : ∀ r ∈ l', d.Valid r) :
    l.map d.view = l'.map d.view ↔ l = l' := by
  constructor
  · intro heq
    have hshown : ∀ {m : List (List d.Val)}, (∀ r ∈ m, d.Valid r) → (m.map d.view).map d.shown = m := by
      intro m hm
      rw [List.map_map]
      exact (List.map_congr_left fun r hr => shown_view (hm r hr)).trans (List.map_id m)
    rw [← hshown hl, heq, hshown hl']
  · rintro rfl
    rfl

/-! ## One cycle per operation -/

/-- The stored bytes when every operation has a cycle of its own. -/
def directBytes (d : StateDecl) (stored : Option Bytes) (c : List d.Val) (es : List (Effect d.Val)) : Option Bytes :=
  d.settled stored (c ≠ [] ∨ ∃ e ∈ es, e.IsWrite) (es.foldl direct c)

theorem touched_of_direct {es : List (Effect d.Val)} (h : es.foldl direct c ≠ []) :
    c ≠ [] ∨ ∃ e ∈ es, e.IsWrite := by
  by_contra hnot
  rw [not_or, not_not] at hnot
  obtain ⟨rfl, hwrite⟩ := hnot
  exact h (Effect.foldl_direct_of_no_write fun e he hw => hwrite ⟨e, he, hw⟩)

theorem Represents.directBytes (h : d.Represents stored c) (ops : List d.type.Op) :
    d.Represents (d.directBytes stored c (ops.map d.effect)) ((ops.map d.effect).foldl direct c) where
  valid := valid_foldl direct (.inr rfl) ops h.valid
  bytes := by
    unfold StateDecl.directBytes settled
    by_cases hnil : (ops.map d.effect).foldl direct c = []
    · refine .inl ⟨hnil, ?_⟩
      rw [if_neg (not_not.mpr hnil)]
      split_ifs with htouched
      · rfl
      · rw [not_or, not_not] at htouched
        exact h.empty_iff.mpr htouched.1
    · exact .inr ⟨hnil, if_pos hnil⟩

theorem Represents.directBytes_nil (h : d.Represents stored c) : d.directBytes stored c [] = stored := by
  unfold StateDecl.directBytes settled
  rcases h.bytes with ⟨rfl, -⟩ | ⟨hne, hstored⟩
  · simp
  · rw [List.foldl_nil, if_pos hne, hstored]

theorem directBytes_append (es : List (Effect d.Val)) {es' : List (Effect d.Val)} (hone : es'.length ≤ 1) :
    d.settled (d.directBytes stored c es) (es.foldl direct c ≠ [] ∨ ∃ e ∈ es', e.IsWrite)
        (flushed (es.foldl direct c) es') = d.directBytes stored c (es ++ es') := by
  rw [Effect.flushed_of_length_le_one hone]
  unfold directBytes settled
  rw [List.foldl_append]
  have hwrites : (∃ e ∈ es ++ es', e.IsWrite) ↔ (∃ e ∈ es, e.IsWrite) ∨ ∃ e ∈ es', e.IsWrite := by
    simp only [List.mem_append, or_and_right, exists_or]
  by_cases hnil : es'.foldl direct (es.foldl direct c) = []
  · simp only [hnil, ne_eq, not_true_eq_false, if_false, hwrites]
    by_cases hbefore : es.foldl direct c = []
    · simp only [hbefore, not_true_eq_false, false_or, if_false]
      by_cases hwrite : ∃ e ∈ es', e.IsWrite
      · rw [if_pos hwrite, if_pos (.inr (.inr hwrite))]
      · rw [if_neg hwrite]
        simp only [hwrite, or_false]
    · have htouched := touched_of_direct hbefore
      rw [if_pos (.inl hbefore), if_pos]
      exact htouched.imp_right .inl
  · rw [if_pos hnil, if_pos hnil]

theorem settled_inj {touched : Prop} [Decidable touched] {x y : List d.Val} (hx : x ≠ [] → touched)
    (hy : y ≠ [] → touched) : d.settled stored touched x = d.settled stored touched y ↔ x = y := by
  constructor
  · intro h
    unfold settled at h
    by_cases hxn : x = [] <;> by_cases hyn : y = []
    · rw [hxn, hyn]
    · rw [if_neg (not_not.mpr hxn), if_pos hyn, if_pos (hy hyn)] at h
      cases h
    · rw [if_pos hxn, if_neg (not_not.mpr hyn), if_pos (hx hxn)] at h
      cases h
    · rw [if_pos hxn, if_pos hyn, Option.some.injEq] at h
      exact d.encode_injective h
  · rintro rfl
    rfl

/-- One state cannot tell one cycle for all operations from one cycle for each. -/
theorem Represents.unnoticed_iff (h : d.Represents stored c) (hops : ∀ op ∈ ops, d.OpNonEmpty op) :
    (d.settled stored (c ≠ [] ∨ ∃ e ∈ ops.map d.effect, e.IsWrite) (flushed c (ops.map d.effect))
          = d.directBytes stored c (ops.map d.effect) ∧ (reads cached c (ops.map d.effect)).map d.view
          = (reads direct c (ops.map d.effect)).map d.view) ↔
      Effect.Unnoticed (stored.getD [] = []) (ops.map d.effect) := by
  have hne := effect_nonEmpty hops
  have hflushed : flushed c (ops.map d.effect) ≠ [] → c ≠ [] ∨ ∃ e ∈ ops.map d.effect, e.IsWrite := by
    intro hkept
    by_contra hnot
    rw [not_or, not_not] at hnot
    refine hkept ?_
    unfold flushed
    split_ifs
    · rfl
    · rw [foldl_cached_eq_nil_iff hne]
      exact ⟨hnot.1, fun e he hw => hnot.2 ⟨e, he, hw⟩⟩
  rw [StateDecl.directBytes, settled_inj hflushed touched_of_direct,
    map_view_inj (valid_reads _ (.inl rfl) ops h.valid) (valid_reads _ (.inr rfl) ops h.valid), propext h.empty_iff]
  exact Effect.unnoticed_iff hne c

end StateDecl

/-! ## Whole batches -/

section

variable {K : Type} [DecidableEq K] (decl : Nat → StateDecl) (key : Slot K → Bytes) (hkey : Function.Injective key)

/-- The states of an operator. -/
abbrev Schema.ofDecls : Schema K := ⟨fun stateID => (decl stateID).type, key, hkey⟩

/-- What the operations do to the content of a slot. -/
def effectsAt (s : Slot K) (ops : List (UserOp (Schema.ofDecls decl key hkey))) :
    List (Effect (decl s.stateID).Val) :=
  (opsAt (Schema.ofDecls decl key hkey) s ops).map (decl s.stateID).effect

variable {decl key hkey}

theorem opsAt_append (s : Slot K) (ops ops' : List (UserOp (Schema.ofDecls decl key hkey))) :
    opsAt (Schema.ofDecls decl key hkey) s (ops ++ ops')
      = opsAt (Schema.ofDecls decl key hkey) s ops ++ opsAt (Schema.ofDecls decl key hkey) s ops' :=
  List.filterMap_append

variable {ops : List (UserOp (Schema.ofDecls decl key hkey))}

theorem opsAt_nonEmpty {s : Slot K} (hops : ∀ op ∈ ops, (decl op.1.stateID).OpNonEmpty op.2) :
    ∀ op ∈ opsAt (Schema.ofDecls decl key hkey) s ops, (decl s.stateID).OpNonEmpty op := by
  intro op hop
  obtain ⟨⟨s', op'⟩, hmem, heq⟩ := List.mem_filterMap.mp hop
  split_ifs at heq with hs
  subst hs
  rw [← Option.some.inj heq]
  exact hops ⟨s', op'⟩ hmem

variable {content : (s : Slot K) → List (decl s.stateID).Val} {slots : List (Slot K)} (allowIncremental : Bool)

theorem cycles_single (hnodup : slots.Nodup) {b : Backend}
    (hstore : ∀ s ∈ slots, (decl s.stateID).Represents (b.get (key s)) (content s))
    (hslots : ∀ op ∈ ops, op.1 ∈ slots) (hops : ∀ op ∈ ops, (decl op.1.stateID).OpNonEmpty op.2) :
    ∃ b' answers', cycles (Schema.ofDecls decl key hkey) allowIncremental slots (b, fun _ => []) [ops]
        = .ok (b', answers') ∧
      (∀ s ∈ slots, b'.get (key s) = (decl s.stateID).settled (b.get (key s))
          (content s ≠ [] ∨ ∃ e ∈ effectsAt decl key hkey s ops, e.IsWrite)
          (flushed (content s) (effectsAt decl key hkey s ops)) ∧
        answers' s = (reads cached (content s) (effectsAt decl key hkey s ops)).map
          (decl s.stateID).view) ∧
      (∀ k, (∀ s ∈ slots, key s ≠ k) → b'.get k = b.get k) ∧ ∀ s, s ∉ slots → answers' s = [] := by
  obtain ⟨b', answers', hcycle, hresult, hothers, hanswers⟩ := cycle_spec hnodup (fun _ => []) hslots
    fun s hs => (hstore s hs).slotCycle_spec allowIncremental _ (opsAt_nonEmpty hops)
  refine ⟨b', answers', ?_, fun s hs => ?_, hothers, hanswers⟩
  · rw [cycles, forEach_cons, hcycle, ok_bind, forEach_nil]
  · exact hresult s hs

theorem cycles_each (hnodup : slots.Nodup) {b : Backend}
    (hstore : ∀ s ∈ slots, (decl s.stateID).Represents (b.get (key s)) (content s))
    (hslots : ∀ op ∈ ops, op.1 ∈ slots) (hops : ∀ op ∈ ops, (decl op.1.stateID).OpNonEmpty op.2) :
    ∃ b' answers', cycles (Schema.ofDecls decl key hkey) allowIncremental slots (b, fun _ => [])
        (ops.map fun op => [op]) = .ok (b', answers') ∧
      (∀ s ∈ slots, b'.get (key s)
          = (decl s.stateID).directBytes (b.get (key s)) (content s) (effectsAt decl key hkey s ops) ∧
        answers' s = (reads direct (content s) (effectsAt decl key hkey s ops)).map
          (decl s.stateID).view) ∧
      (∀ k, (∀ s ∈ slots, key s ≠ k) → b'.get k = b.get k) ∧ ∀ s, s ∉ slots → answers' s = [] := by
  induction ops using List.reverseRecOn with
  | nil =>
    refine ⟨b, fun _ => [], rfl, fun s hs => ⟨?_, rfl⟩, fun _ _ => rfl, fun _ _ => rfl⟩
    exact (hstore s hs).directBytes_nil.symm
  | append_singleton ops op ih =>
    obtain ⟨b', answers', hrun, hresult, hothers, hanswers⟩ := ih
      (fun op' hop' => hslots op' (List.mem_append_left _ hop'))
      (fun op' hop' => hops op' (List.mem_append_left _ hop'))
    have hone : ∀ s, (effectsAt decl key hkey s [op]).length ≤ 1 := by
      intro s
      rw [effectsAt, List.length_map]
      exact List.length_filterMap_le _ [op]
    have hstore' : ∀ s ∈ slots, (decl s.stateID).Represents (b'.get (key s))
        ((effectsAt decl key hkey s ops).foldl direct (content s)) := by
      intro s hs
      rw [(hresult s hs).1]
      exact (hstore s hs).directBytes _
    have hslot : ∀ op' ∈ [op], op'.1 ∈ slots := fun op' hop' => hslots op' (List.mem_append_right _ hop')
    obtain ⟨b'', answers'', hcycle, hresult', hothers', hanswers'⟩ := cycle_spec hnodup answers' hslot
      fun s hs => (hstore' s hs).slotCycle_spec allowIncremental _
        (opsAt_nonEmpty fun op' hop' => hops op' (List.mem_append_right _ hop'))
    have heffects : ∀ s, effectsAt decl key hkey s (ops ++ [op])
        = effectsAt decl key hkey s ops ++ effectsAt decl key hkey s [op] := by
      intro s
      rw [effectsAt, opsAt_append, List.map_append]
      rfl
    refine ⟨b'', answers'', ?_, fun s hs => ?_, fun k hk => ?_, fun s hs => ?_⟩
    · rw [cycles, List.map_append, forEach_append]
      rw [cycles] at hrun
      rw [hrun, ok_bind, List.map_singleton, forEach_cons, hcycle, ok_bind, forEach_nil]
    · obtain ⟨hbytes, hanswer⟩ := hresult' s hs
      rw [heffects, ← StateDecl.directBytes_append _ (hone s), ← (hresult s hs).1]
      refine ⟨hbytes, ?_⟩
      rw [hanswer, (hresult s hs).2, Effect.reads_append, List.map_append, ← Effect.reads_of_length_le_one (hone s)]
      rfl
    · rw [hothers' k hk, hothers k hk]
    · rw [hanswers' s hs, hanswers s hs]

end

/-! ## One key with one flag -/

/-- A flag in one byte. -/
def flagCodec : Codec Bool where
  marshal b := [if b then 1 else 0]
  unmarshal
    | [] => none
    | byte :: _ => some (byte == 1, 1)
  size _ := 1
  unmarshal_marshal b rest := by cases b <;> rfl
  size_eq _ := rfl
  marshal_pos _ := Nat.one_pos

/-- A key for each state. -/
def flagKey (s : Slot Unit) : Bytes := List.replicate s.stateID 0

theorem flagKey_injective : Function.Injective flagKey := by
  rintro ⟨i, ⟨⟩⟩ ⟨j, ⟨⟩⟩ h
  have hlen := congrArg List.length h
  simp only [flagKey, List.length_replicate] at hlen
  rw [hlen]

/-- An operator with a flag for its only key. -/
abbrev flagSchema : Schema Unit := Schema.ofDecls (fun _ => .value Bool flagCodec) flagKey flagKey_injective

def flagRequest : Request Unit := ⟨[()], [0], by simp, by simp, by simp⟩

/-- Setting and reading the flag. -/
def flagSetGet : List (UserOp flagSchema) := [⟨⟨0, ()⟩, .set true⟩, ⟨⟨0, ()⟩, .get⟩]

theorem flagSetGet_effects : effectsAt (fun _ => .value Bool flagCodec) flagKey flagKey_injective ⟨0, ()⟩ flagSetGet
    = [.overwrite [true], .read] := rfl

end StateClient
end Koala
