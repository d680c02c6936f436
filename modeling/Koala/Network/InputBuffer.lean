import Koala.Lib.Cyclic
import Koala.Lib.Machine
import Mathlib.Logic.Function.Basic

/-!
# The input buffer of a channel

The network routine of an upstream (`SupplyInputBuffer`) decodes what it reads into work units and puts them into a ring
buffer, from which the task takes them.  Both sides run concurrently and share only the slots of the ring and an atomic
count; the indices belong to one side each.  A batch is decoded into memory of a pool that hands its batches out in turn
and never gets them back.  The pool is larger than the ring by two, for the batch that is decoded and the one that is
processed.

The machine interleaves the statements of `Enqueue` and `Dequeue` one by one.  `Ring` is what holds between the count,
the indices and the slots, `Pool` what holds between the turns of the pool and the batches that are out.
-/

namespace Koala
namespace Network
namespace InputBuffer

open Lib Lib.Outcome
open Function (update update_self update_of_ne)
open List (length_append length_singleton map_append mem_singleton)

/-- A batch is named by its position in the pool; the other work units carry their data. -/
inductive WorkUnit (S : Type) where
  | batch (i : Nat)
  | signal (s : S)

/-- What a work unit says to the task. -/
inductive Payload (R S : Type) where
  | records (rs : List R)
  | signal (s : S)

/-- `buffer.Batch`: slots for records, of which the first `TotalNumRecords` are in use. -/
structure Batch (R : Type) where
  records : List R
  totalNumRecords : Nat

/-- `ExpandBatchCapacity`, if the batch has not enough slots. -/
def Batch.reserve {R : Type} (fresh : R) (numRecords : Nat) (b : Batch R) : Batch R :=
  { b with records := b.records ++ List.replicate (numRecords - b.records.length) fresh }

/-- A unit that is to be put into the ring; after the last one the routine ends. -/
structure Pending (R S : Type) where
  unit : WorkUnit S
  payload : Payload R S
  last : Bool

/-- Where the network routine is. -/
inductive Producer (R S : Type) where
  /-- Before it reads from the connection. -/
  | ready
  /-- Decoding into a batch of the pool. -/
  | decoding (i : Nat) (done rest : List R)
  /-- Before it loads the count. -/
  | enqueue (p : Pending R S)
  /-- There is a free slot. -/
  | write (p : Pending R S)
  /-- The slot is written. -/
  | advance (p : Pending R S)
  /-- The write index is incremented. -/
  | publish (p : Pending R S)
  | exited

/-- Where the task is. -/
inductive Consumer (S : Type) where
  /-- Before it loads the count. -/
  | idle
  /-- There is a unit. -/
  | read
  /-- The slot is read. -/
  | advance (u : WorkUnit S)
  /-- The read index is incremented. -/
  | release (u : WorkUnit S)
  | process (u : WorkUnit S)

structure State (R S : Type) where
  count : Nat
  readIdx : Nat
  writeIdx : Nat
  buffer : Nat → Option (WorkUnit S)
  nextBatch : Nat
  pool : Nat → Batch R
  producer : Producer R S
  consumer : Consumer S
  /-- What has been put into the ring, with what was read from the connection. -/
  enqueued : List (WorkUnit S × Payload R S)
  /-- What the task has processed. -/
  seen : List (Payload R S)

inductive Action (R S : Type) where
  /-- A batch is read from the connection. -/
  | receiveBatch (rs : List R)
  /-- Another unit is read, or made at the end of the connection. -/
  | receiveSignal (s : S) (last : Bool)
  /-- The next statement of the network routine. -/
  | produce
  /-- The next statement of the task. -/
  | consume

inductive BufferAbort where
  /-- Go's bounds checks. -/
  | indexOutOfRange
  /-- A slot that was never written. -/
  | nilWorkUnit
  deriving DecidableEq, Repr

variable {R S : Type} (pool : Nat → Batch R)

/-- What the task reads in a work unit. -/
def payload : WorkUnit S → Payload R S
  | .batch i => .records ((pool i).records.take (pool i).totalNumRecords)
  | .signal s => .signal s

variable (capacity : Nat) (st : State R S)

/-- The next statement of `SupplyInputBuffer`, with `Enqueue`. -/
def produce : Outcome BufferAbort (State R S) :=
  match st.producer with
  | .ready => .stuck
  | .decoding i done (r :: rest) =>
    .ok { st with
      pool := update st.pool i { st.pool i with records := (st.pool i).records.set done.length r }
      producer := .decoding i (done ++ [r]) rest }
  | .decoding i done [] =>
    .ok { st with
      pool := update st.pool i { st.pool i with totalNumRecords := done.length }
      producer := .enqueue ⟨.batch i, .records done, false⟩ }
  | .enqueue p => .ok (if st.count = capacity then st else { st with producer := .write p })
  | .write p => do
    check (capacity ≤ st.writeIdx) .indexOutOfRange
    pure { st with buffer := update st.buffer st.writeIdx (some p.unit), producer := .advance p }
  | .advance p => .ok { st with writeIdx := Cyclic.next capacity st.writeIdx, producer := .publish p }
  | .publish p =>
    .ok { st with
      count := st.count + 1
      enqueued := st.enqueued ++ [(p.unit, p.payload)]
      producer := if p.last then .exited else .ready }
  | .exited => .stuck

/-- The next statement of the task, with `Dequeue`. -/
def consume : Outcome BufferAbort (State R S) :=
  match st.consumer with
  | .idle => .ok (if st.count = 0 then st else { st with consumer := .read })
  | .read => do
    check (capacity ≤ st.readIdx) .indexOutOfRange
    match st.buffer st.readIdx with
    | none => .abort .nilWorkUnit
    | some u => pure { st with consumer := .advance u }
  | .advance u => .ok { st with readIdx := Cyclic.next capacity st.readIdx, consumer := .release u }
  | .release u => .ok { st with count := st.count - 1, consumer := .process u }
  | .process u => .ok { st with seen := st.seen ++ [payload st.pool u], consumer := .idle }

/-- `GetFromBatchPool` of a pool of `size` batches, with the expansion. -/
def takeBatch (size : Nat) (fresh : R) (rs : List R) (st : State R S) : Outcome BufferAbort (State R S) := do
  check (size ≤ st.nextBatch) .indexOutOfRange
  pure { st with
    nextBatch := Cyclic.next size st.nextBatch
    pool := update st.pool st.nextBatch ((st.pool st.nextBatch).reserve fresh rs.length)
    producer := .decoding st.nextBatch [] rs }

def step (fresh : R) (st : State R S) : Action R S → Outcome BufferAbort (State R S)
  | .receiveBatch rs =>
    match st.producer with
    | .ready => takeBatch (capacity + 2) fresh rs st
    | _ => .stuck
  | .receiveSignal s last =>
    match st.producer with
    | .ready => .ok { st with producer := .enqueue ⟨.signal s, .signal s, last⟩ }
    | _ => .stuck
  | .produce => produce capacity st
  | .consume => consume capacity st

/-- The runs of a new input buffer. -/
def machine (fresh : R) : Machine (State R S) (Action R S) BufferAbort where
  init st := ∃ pool, st = ⟨0, 0, 0, fun _ => none, 0, pool, .ready, .idle, [], []⟩
  step := step capacity fresh

/-! ## The ring -/

/-- The unit that is in its slot but not counted. -/
def Producer.written : Producer R S → List (WorkUnit S × Payload R S)
  | .advance p | .publish p => [(p.unit, p.payload)]
  | _ => []

/-- The producer has seen a free slot. -/
def Producer.Admitted : Producer R S → Prop
  | .write _ | .advance _ | .publish _ => True
  | _ => False

def Producer.advanced : Producer R S → Nat
  | .publish _ => 1
  | _ => 0

/-- The consumer has seen a unit that is still counted. -/
def Consumer.Admitted : Consumer S → Prop
  | .read | .advance _ | .release _ => True
  | _ => False

def Consumer.advanced : Consumer S → Nat
  | .release _ => 1
  | _ => 0

def Consumer.processing : Consumer S → List (WorkUnit S)
  | .process u => [u]
  | _ => []

/-- The unit that has been read from its slot but is still counted. -/
def Consumer.fetched : Consumer S → List (WorkUnit S)
  | .advance u | .release u => [u]
  | _ => []

/-- How many units have left the ring. -/
def State.released : Nat := st.seen.length + st.consumer.processing.length

/-- What is in the ring. -/
def State.queued : List (WorkUnit S) := (st.enqueued.drop st.released).map Prod.fst

structure Ring (capacity : Nat) (st : State R S) : Prop where
  count_eq : st.count + st.released = st.enqueued.length
  count_le : st.count ≤ capacity
  read_eq : st.readIdx = (st.released + st.consumer.advanced) % capacity
  write_eq : st.writeIdx = (st.enqueued.length + st.producer.advanced) % capacity
  slots : ∀ j e, st.released ≤ j → (st.enqueued ++ st.producer.written)[j]? = some e →
    st.buffer (j % capacity) = some e.1
  room : st.producer.Admitted → st.count < capacity
  avail : st.consumer.Admitted → 0 < st.count
  fetched : ∀ u ∈ st.consumer.fetched, u ∈ st.queued.head?

section

variable {capacity : Nat} {fresh : R} {st st' : State R S}

section

variable (h : Ring capacity st)
include h

theorem Ring.ofProducer {q : Producer R S} (hwritten : q.written = st.producer.written)
    (hadvanced : q.advanced = st.producer.advanced) (hroom : q.Admitted → st.count < capacity) (pool : Nat → Batch R)
    (nextBatch : Nat) :
    Ring capacity { st with producer := q, pool := pool, nextBatch := nextBatch } :=
  { h with
    write_eq := by
      show st.writeIdx = (st.enqueued.length + q.advanced) % capacity
      rw [hadvanced, h.write_eq]
    slots j e hj := by
      show (st.enqueued ++ q.written)[j]? = some e → _
      rw [hwritten]
      exact h.slots j e hj
    room := hroom }

theorem Ring.produce (hstep : produce capacity st = .ok st') : Ring capacity st' := by
  unfold InputBuffer.produce at hstep
  split at hstep <;> rename_i hpc
  · cases hstep
  · cases hstep
    exact h.ofProducer (by rw [hpc]; rfl) (by rw [hpc]; rfl) False.elim _ _
  · cases hstep
    exact h.ofProducer (by rw [hpc]; rfl) (by rw [hpc]; rfl) False.elim _ _
  · rename_i p
    split_ifs at hstep with hfull <;> cases hstep
    · exact h
    · exact h.ofProducer (by rw [hpc]; rfl) (by rw [hpc]; rfl) (fun _ => lt_of_le_of_ne h.count_le hfull) _ _
  · rename_i p
    obtain ⟨-, hpure⟩ := check_bind_eq_ok.mp hstep
    cases hpure
    have hroom : st.count < capacity := h.room (by rw [hpc]; trivial)
    have hcount := h.count_eq
    have hidx : st.writeIdx = st.enqueued.length % capacity := by rw [h.write_eq, hpc]; rfl
    refine { h with write_eq := hidx, slots := fun j e hj hget => ?_, room := fun _ => hroom }
    -- the slot is behind all that are in use
    change st.released ≤ j at hj
    by_cases hlast : j = st.enqueued.length
    · subst hlast
      have he : (p.unit, p.payload) = e := by simpa [Producer.written] using hget
      show update st.buffer st.writeIdx (some p.unit) (st.enqueued.length % capacity) = some e.1
      rw [← hidx, update_self, ← he]
    · have hlt : j < st.enqueued.length := by
        have hbound := (List.getElem?_eq_some_iff.mp hget).1
        simp only [Producer.written, length_append, length_singleton] at hbound
        omega
      rw [List.getElem?_append_left hlt] at hget
      show update st.buffer st.writeIdx (some p.unit) (j % capacity) = some e.1
      rw [update_of_ne (hidx ▸ Cyclic.mod_ne_mod hlt (by omega))]
      exact h.slots j e hj (by rw [List.getElem?_append_left hlt]; exact hget)
  · rename_i p
    cases hstep
    refine { h with write_eq := ?_, slots := fun j e hj hget => ?_, room := fun _ => h.room (by rw [hpc]; trivial) }
    · show Cyclic.next capacity st.writeIdx = (st.enqueued.length + 1) % capacity
      rw [h.write_eq, hpc]
      exact Cyclic.next_mod capacity _
    · exact h.slots j e hj (by rw [hpc]; exact hget)
  · rename_i p
    cases hstep
    have hroom : st.count < capacity := h.room (by rw [hpc]; trivial)
    have hcount := h.count_eq
    have hnone : ∀ last : Bool, (if last then .exited else .ready : Producer R S).written = [] ∧
        (if last then .exited else .ready : Producer R S).advanced = 0 ∧
        ¬ (if last then .exited else .ready : Producer R S).Admitted := by
      rintro (_ | _) <;> exact ⟨rfl, rfl, id⟩
    refine ⟨?_, hroom, h.read_eq, ?_, fun j e hj hget => ?_, fun hadmitted => absurd hadmitted (hnone _).2.2,
      fun hadmitted => Nat.succ_pos _, fun u hu => ?_⟩
    · show st.count + 1 + st.released = (st.enqueued ++ [_]).length
      rw [length_append, length_singleton]
      omega
    · show st.writeIdx = ((st.enqueued ++ [_]).length + _) % capacity
      rw [(hnone p.last).2.1, h.write_eq, hpc, length_append]
      rfl
    · refine h.slots j e hj ?_
      rw [hpc]
      rw [(hnone p.last).1, List.append_nil] at hget
      exact hget
    · have hhead := h.fetched u hu
      simp only [State.queued, List.head?_map, List.head?_drop] at hhead ⊢
      obtain ⟨e, he, rfl⟩ := Option.map_eq_some_iff.mp hhead
      rw [Option.mem_def, Option.map_eq_some_iff]
      refine ⟨e, ?_, rfl⟩
      exact (List.getElem?_append_left (List.getElem?_eq_some_iff.mp he).1).trans he
  · cases hstep

theorem Ring.ofConsumer {c : Consumer S} {readIdx : Nat} {seen : List (Payload R S)}
    (hreleased : seen.length + c.processing.length = st.released)
    (hread : readIdx = (st.released + c.advanced) % capacity) (havail : c.Admitted → 0 < st.count)
    (hfetched : ∀ u ∈ c.fetched, u ∈ st.queued.head?) :
    Ring capacity { st with consumer := c, readIdx := readIdx, seen := seen } :=
  { h with
    count_eq := (congrArg (st.count + ·) hreleased).trans h.count_eq
    read_eq := hread.trans (congrArg (fun n => (n + c.advanced) % capacity) hreleased.symm)
    slots j e hj := h.slots j e (hreleased.symm.le.trans hj)
    avail := havail
    fetched u hu := by
      show u ∈ ((st.enqueued.drop (seen.length + c.processing.length)).map Prod.fst).head?
      rw [hreleased]
      exact hfetched u hu }

theorem Ring.head?_queued (hpos : 0 < st.count) :
    ∃ u, st.buffer (st.released % capacity) = some u ∧ u ∈ st.queued.head? := by
  have hcount := h.count_eq
  have hlt : st.released < st.enqueued.length := by omega
  refine ⟨st.enqueued[st.released].1, h.slots st.released _ le_rfl ?_, ?_⟩
  · rw [List.getElem?_append_left hlt, List.getElem?_eq_getElem hlt]
  · rw [State.queued, List.head?_map, List.head?_drop, List.getElem?_eq_getElem hlt]
    rfl

theorem Ring.consume (hstep : consume capacity st = .ok st') : Ring capacity st' := by
  have hcount := h.count_eq
  have hreleased : st.seen.length + st.consumer.processing.length = st.released := rfl
  have hread := h.read_eq
  unfold InputBuffer.consume at hstep
  split at hstep <;> rename_i hpc <;> rw [hpc] at hreleased hread
  · split_ifs at hstep with hzero <;> cases hstep
    · exact h
    · exact h.ofConsumer hreleased hread (fun _ => Nat.pos_of_ne_zero hzero) nofun
  · obtain ⟨-, hslot⟩ := check_bind_eq_ok.mp hstep
    have hpos : 0 < st.count := h.avail (by rw [hpc]; trivial)
    obtain ⟨u, hu, hhead⟩ := h.head?_queued hpos
    have hidx : st.readIdx = st.released % capacity := hread
    rw [hidx, hu] at hslot
    cases hslot
    refine h.ofConsumer hreleased rfl (fun _ => hpos) fun v hv => ?_
    rw [mem_singleton.mp hv]
    exact hhead
  · rename_i u
    cases hstep
    refine h.ofConsumer hreleased ?_ (fun _ => h.avail (by rw [hpc]; trivial)) (fun v hv => h.fetched v (hpc ▸ hv))
    rw [hread]
    exact Cyclic.next_mod capacity _
  · -- the unit leaves the ring
    rename_i u
    cases hstep
    have hpos : 0 < st.count := h.avail (by rw [hpc]; trivial)
    change st.seen.length + 0 = st.released at hreleased
    refine ⟨?_, (Nat.sub_le _ _).trans h.count_le, ?_, h.write_eq, fun j e hj => ?_, fun hadmitted => ?_, False.elim,
      nofun⟩
    · show st.count - 1 + (st.seen.length + 1) = st.enqueued.length
      omega
    · show st.readIdx = (st.seen.length + 1 + 0) % capacity
      rw [hread, ← hreleased]
      rfl
    · change st.seen.length + 1 ≤ j at hj
      exact h.slots j e (by omega)
    · exact lt_of_le_of_lt (Nat.sub_le _ _) (h.room hadmitted)
  · rename_i u
    cases hstep
    refine h.ofConsumer ?_ hread False.elim nofun
    rw [← hreleased, length_append]
    rfl

end

/-! ## The pool -/

def WorkUnit.batchIdx : WorkUnit S → Option Nat
  | .batch i => some i
  | .signal _ => none

/-- The unit in the hands of the producer. -/
def Producer.unit : Producer R S → List (WorkUnit S)
  | .decoding i _ _ => [.batch i]
  | .enqueue p | .write p | .advance p | .publish p => [p.unit]
  | _ => []

/-- The unit in the hands of the producer says what was read from the connection, as far as it is decoded. -/
def Producer.Holds : Producer R S → Prop
  | .decoding i done rest =>
    (pool i).records.take done.length = done ∧ done.length + rest.length ≤ (pool i).records.length
  | .enqueue p | .write p | .advance p | .publish p => payload pool p.unit = p.payload
  | _ => True

/-- The batches that have been put into the ring. -/
def State.batches (st : State R S) : List Nat := st.enqueued.filterMap fun e => e.1.batchIdx

/-- The batches that the pool has handed out. -/
def State.issued (st : State R S) : List Nat := st.batches ++ st.producer.unit.filterMap WorkUnit.batchIdx

structure Pool (size : Nat) (st : State R S) : Prop where
  turns : st.issued = (List.range st.issued.length).map (· % size)
  next_eq : st.nextBatch = st.issued.length % size
  holds : st.producer.Holds st.pool
  contents : ∀ e ∈ st.enqueued.drop st.seen.length, payload st.pool e.1 = e.2
  processing : ∀ u ∈ st.consumer.processing, u ∈ ((st.enqueued.drop st.seen.length).map Prod.fst).head?
  seen_eq : st.seen = (st.enqueued.map Prod.snd).take st.seen.length

/-- The batch that the pool hands out next, and the one that was handed out last, is not in use. -/
theorem mod_notMem_drop {α : Type} (f : α → Option Nat) {l : List α} {size k n : Nat}
    (hturns : l.filterMap f = (List.range n).map (· % size)) (hshort : (l.drop k).length < size) {e : α}
    (he : e ∈ l.drop k) : f e ≠ some (n % size) := by
  intro heq
  have hsplit : (l.take k).filterMap f ++ (l.drop k).filterMap f = (List.range n).map (· % size) := by
    rw [← List.filterMap_append, List.take_append_drop, hturns]
  have hlength := congrArg List.length hsplit
  rw [length_append, List.length_map, List.length_range] at hlength
  have hle := List.length_filterMap_le f (l.drop k)
  obtain ⟨j, hj, hget⟩ := List.mem_iff_getElem.mp (List.mem_filterMap.mpr ⟨e, he, heq⟩)
  -- the turn of the batch is less than one round ago
  have hturn : ((List.range n).map (· % size))[((l.take k).filterMap f).length + j]? = some (n % size) := by
    rw [← hsplit, List.getElem?_append_right (Nat.le_add_right _ _), Nat.add_sub_cancel_left,
      List.getElem?_eq_getElem hj, hget]
  rw [List.getElem?_map, List.getElem?_range (by omega)] at hturn
  exact Cyclic.mod_ne_mod (by omega) (by omega) (Option.some.inj hturn)

theorem Ring.outstanding_le (h : Ring capacity st) : (st.enqueued.drop st.seen.length).length < capacity + 2 := by
  have hcount := h.count_eq
  have hle := h.count_le
  have hone : st.consumer.processing.length ≤ 1 := by cases st.consumer <;> simp [Consumer.processing]
  rw [State.released] at hcount
  rw [List.length_drop]
  omega

theorem Ring.seen_le (h : Ring capacity st) : st.seen.length ≤ st.enqueued.length := by
  have hcount := h.count_eq
  rw [State.released] at hcount
  omega

/-- **The batch that is decoded is not in use.** -/
theorem Pool.notMem (h : Pool (capacity + 2) st) (hring : Ring capacity st) {i : Nat}
    (hunit : st.producer.unit = [.batch i]) {e : WorkUnit S × Payload R S}
    (he : e ∈ st.enqueued.drop st.seen.length) : e.1 ≠ .batch i := by
  have hturns := h.turns
  have hissued : st.issued = st.batches ++ [i] := by
    rw [State.issued, hunit]
    rfl
  rw [hissued, length_append, length_singleton, List.range_succ, map_append] at hturns
  obtain ⟨hbefore, hlast⟩ := List.append_inj' hturns rfl
  have hi : i = st.batches.length % (capacity + 2) := (List.cons.inj hlast).1
  have hne := mod_notMem_drop (fun e : WorkUnit S × Payload R S => e.1.batchIdx) hbefore hring.outstanding_le he
  intro heq
  refine hne ?_
  rw [heq, ← hi]
  rfl

theorem payload_update {pool : Nat → Batch R} {i : Nat} {b : Batch R} {u : WorkUnit S} (hne : u ≠ .batch i) :
    payload (update pool i b) u = payload pool u := by
  cases u with
  | batch j => rw [payload, payload, update_of_ne fun heq : j = i => hne (by rw [heq])]
  | signal s => rfl

section

variable (h : Pool (capacity + 2) st)
include h

theorem Pool.ofProducer {q : Producer R S}
    (hunit : q.unit.filterMap WorkUnit.batchIdx = st.producer.unit.filterMap WorkUnit.batchIdx)
    {pool : Nat → Batch R} (hholds : q.Holds pool)
    (hpool : ∀ e ∈ st.enqueued.drop st.seen.length, payload pool e.1 = payload st.pool e.1)
    {buffer : Nat → Option (WorkUnit S)} {writeIdx : Nat} :
    Pool (capacity + 2) { st with producer := q, pool := pool, buffer := buffer, writeIdx := writeIdx } := by
  have hissued : st.batches ++ q.unit.filterMap WorkUnit.batchIdx = st.issued := by rw [State.issued, hunit]
  refine ⟨?_, ?_, hholds, fun e he => (hpool e he).trans (h.contents e he), h.processing, h.seen_eq⟩
  · show st.batches ++ q.unit.filterMap WorkUnit.batchIdx
      = (List.range (st.batches ++ q.unit.filterMap WorkUnit.batchIdx).length).map _
    rw [hissued]
    exact h.turns
  · show st.nextBatch = (st.batches ++ q.unit.filterMap WorkUnit.batchIdx).length % (capacity + 2)
    rw [hissued]
    exact h.next_eq

theorem Pool.takeBatch (hring : Ring capacity st) (hpc : st.producer = .ready)
    {rs : List R} (hstep : takeBatch (capacity + 2) fresh rs st = .ok st') : Pool (capacity + 2) st' := by
  obtain ⟨-, hpure⟩ := check_bind_eq_ok.mp hstep
  cases hpure
  have hissued : st.issued = st.batches := by
    rw [State.issued, hpc]
    exact List.append_nil _
  have hturns := hissued ▸ h.turns
  have hnext : st.nextBatch = st.batches.length % (capacity + 2) := hissued ▸ h.next_eq
  refine { h with turns := ?_, next_eq := ?_, holds := ⟨rfl, ?_⟩, contents := fun e he => ?_ }
  · show st.batches ++ [st.nextBatch] = (List.range (st.batches ++ [st.nextBatch]).length).map _
    rw [length_append, length_singleton, List.range_succ, map_append]
    exact congrArg₂ _ hturns (congrArg (fun n => [n]) hnext)
  · show Cyclic.next (capacity + 2) st.nextBatch = (st.batches ++ [st.nextBatch]).length % (capacity + 2)
    rw [length_append, length_singleton, ← Cyclic.next_mod, ← hnext]
  · dsimp only
    rw [update_self, Batch.reserve, length_append, List.length_replicate, List.length_nil]
    omega
  · have hne := mod_notMem_drop (fun e : WorkUnit S × Payload R S => e.1.batchIdx) hturns hring.outstanding_le he
    refine (payload_update fun heq => hne ?_).trans (h.contents e he)
    rw [heq, ← hnext]
    rfl

theorem Pool.produce (hring : Ring capacity st) (hstep : produce capacity st = .ok st') : Pool (capacity + 2) st' := by
  have hholds := h.holds
  unfold InputBuffer.produce at hstep
  split at hstep <;> rename_i hpc <;> rw [hpc] at hholds
  · cases hstep
  · rename_i i done r rest
    cases hstep
    refine h.ofProducer (by simp only [hpc, Producer.unit]) ?_ fun e he => payload_update (h.notMem hring (by rw [hpc]; rfl) he)
    obtain ⟨htake, hlength⟩ := hholds
    rw [List.length_cons] at hlength
    simp only [Producer.Holds, update_self, length_append, length_singleton, List.length_set]
    refine ⟨?_, by omega⟩
    rw [List.take_succ_eq_append_getElem (by rw [List.length_set]; omega), List.take_set_of_le le_rfl, htake,
      List.getElem_set_self]
  · rename_i i done
    cases hstep
    refine h.ofProducer (by simp only [hpc, Producer.unit]) ?_ fun e he => payload_update (h.notMem hring (by rw [hpc]; rfl) he)
    show Payload.records ((update st.pool i _ i).records.take (update st.pool i _ i).totalNumRecords)
      = Payload.records done
    rw [update_self, hholds.1]
  · split_ifs at hstep <;> cases hstep
    · exact h
    · refine h.ofProducer (by simp only [hpc, Producer.unit]) ?_ fun _ _ => rfl
      exact hholds
  · obtain ⟨-, hpure⟩ := check_bind_eq_ok.mp hstep
    cases hpure
    refine h.ofProducer (by simp only [hpc, Producer.unit]) ?_ fun _ _ => rfl
    exact hholds
  · cases hstep
    refine h.ofProducer (by simp only [hpc, Producer.unit]) ?_ fun _ _ => rfl
    exact hholds
  · rename_i p
    cases hstep
    have hseen := hring.seen_le
    set q : Producer R S := if p.last then .exited else .ready with hq
    have hunit : q.unit = [] ∧ q.Holds st.pool := by
      rw [hq]
      split_ifs <;> exact ⟨rfl, trivial⟩
    have hissued : State.issued { st with
        count := st.count + 1
        enqueued := st.enqueued ++ [(p.unit, p.payload)]
        producer := q } = st.issued := by
      rw [State.issued, State.issued, hunit.1, hpc, State.batches, List.filterMap_append]
      exact List.append_nil _
    refine ⟨?_, ?_, hunit.2, fun e he => ?_, fun u hu => ?_, ?_⟩
    · rw [hissued]
      exact h.turns
    · rw [hissued]
      exact h.next_eq
    · rw [List.drop_append_of_le_length hseen] at he
      rcases List.mem_append.mp he with hold | hnew
      · exact h.contents e hold
      · rw [mem_singleton.mp hnew]
        exact hholds
    · have hhead := h.processing u hu
      show u ∈ (((st.enqueued ++ [_]).drop st.seen.length).map Prod.fst).head?
      rw [List.drop_append_of_le_length hseen, map_append, List.head?_append, Option.mem_def.mp hhead]
      rfl
    · show st.seen = ((st.enqueued ++ [_]).map Prod.snd).take st.seen.length
      rw [map_append, List.take_append_of_le_length (by rwa [List.length_map])]
      exact h.seen_eq
  · cases hstep

theorem Pool.consume (hring : Ring capacity st) (hstep : consume capacity st = .ok st') : Pool (capacity + 2) st' := by
  unfold InputBuffer.consume at hstep
  split at hstep <;> rename_i hpc
  · split_ifs at hstep <;> cases hstep
    · exact h
    · exact ⟨h.turns, h.next_eq, h.holds, h.contents, nofun, h.seen_eq⟩
  · obtain ⟨-, hslot⟩ := check_bind_eq_ok.mp hstep
    split at hslot <;> cases hslot
    exact ⟨h.turns, h.next_eq, h.holds, h.contents, nofun, h.seen_eq⟩
  · cases hstep
    exact ⟨h.turns, h.next_eq, h.holds, h.contents, nofun, h.seen_eq⟩
  · rename_i u
    cases hstep
    refine ⟨h.turns, h.next_eq, h.holds, h.contents, fun v hv => ?_, h.seen_eq⟩
    have hhead := hring.fetched v (by rw [hpc]; exact hv)
    rw [State.queued, State.released, hpc] at hhead
    exact hhead
  · rename_i u
    cases hstep
    have hhead := h.processing u (by rw [hpc]; exact mem_singleton.mpr rfl)
    rw [Option.mem_def, List.head?_map, List.head?_drop, Option.map_eq_some_iff] at hhead
    obtain ⟨e, he, rfl⟩ := hhead
    have hlt := (List.getElem?_eq_some_iff.mp he).1
    have hpayload : payload st.pool e.1 = e.2 := h.contents e (List.mem_of_mem_head? (by
      rw [List.head?_drop]
      exact he))
    refine ⟨h.turns, h.next_eq, h.holds, fun e' he' => h.contents e' ?_, nofun, ?_⟩
    · have hdrop : st.enqueued.drop (st.seen ++ [payload st.pool e.1]).length
          = (st.enqueued.drop st.seen.length).drop 1 := by
        rw [List.drop_drop, length_append]
        rfl
      rw [hdrop] at he'
      exact List.mem_of_mem_drop he'
    · show st.seen ++ [payload st.pool e.1] = (st.enqueued.map Prod.snd).take (st.seen ++ [_]).length
      rw [length_append, length_singleton, List.take_add_one, ← h.seen_eq, List.getElem?_map, he, hpayload]
      rfl

end

/-! ## Runs -/

def Inv (capacity : Nat) (st : State R S) : Prop := Ring capacity st ∧ Pool (capacity + 2) st

theorem Inv.step (h : Inv capacity st) {a : Action R S} (hstep : step capacity fresh st a = .ok st') :
    Inv capacity st' := by
  cases a with
  | receiveBatch rs =>
    unfold InputBuffer.step at hstep
    dsimp only at hstep
    split at hstep <;> rename_i hpc
    · refine ⟨?_, h.2.takeBatch h.1 hpc hstep⟩
      obtain ⟨-, hpure⟩ := check_bind_eq_ok.mp hstep
      cases hpure
      exact h.1.ofProducer (by rw [hpc]; rfl) (by rw [hpc]; rfl) False.elim _ _
    · cases hstep
  | receiveSignal s last =>
    unfold InputBuffer.step at hstep
    dsimp only at hstep
    split at hstep <;> rename_i hpc <;> cases hstep
    refine ⟨h.1.ofProducer (by rw [hpc]; rfl) (by rw [hpc]; rfl) False.elim _ _,
      h.2.ofProducer (by rw [hpc]; rfl) ?_ fun _ _ => rfl⟩
    rfl
  | produce => exact ⟨h.1.produce hstep, h.2.produce h.1 hstep⟩
  | consume => exact ⟨h.1.consume hstep, h.2.consume h.1 hstep⟩

theorem Inv.no_abort (h : Inv capacity st) (a : Action R S) (e : BufferAbort) :
    InputBuffer.step capacity fresh st a ≠ .abort e := by
  cases a with
  | receiveBatch rs =>
    unfold InputBuffer.step
    dsimp only
    split
    · have hlt : ¬ capacity + 2 ≤ st.nextBatch := by
        rw [h.2.next_eq, not_le]
        exact Nat.mod_lt _ (Nat.succ_pos _)
      rw [InputBuffer.takeBatch, check_eq_ok hlt]
      nofun
    · nofun
  | receiveSignal s last =>
    unfold InputBuffer.step
    dsimp only
    split <;> nofun
  | produce =>
    unfold InputBuffer.step InputBuffer.produce
    dsimp only
    split <;> rename_i hpc <;> try exact fun habort => by cases habort
    have hroom := h.1.room (by rw [hpc]; trivial)
    rw [check_eq_ok (by rw [h.1.write_eq, not_le]; exact Nat.mod_lt _ (by omega))]
    nofun
  | consume =>
    unfold InputBuffer.step InputBuffer.consume
    dsimp only
    split <;> rename_i hpc <;> try exact fun habort => by cases habort
    have hpos := h.1.avail (by rw [hpc]; trivial)
    have hle := h.1.count_le
    have hidx : st.readIdx = st.released % capacity := by rw [h.1.read_eq, hpc]; rfl
    obtain ⟨u, hu, -⟩ := h.1.head?_queued hpos
    rw [hidx, hu, check_eq_ok (not_le.mpr (Nat.mod_lt _ (by omega)))]
    nofun

theorem inv_of_run (hrun : (machine capacity fresh).Run (fun _ _ => True) st) : Inv capacity st := by
  refine Machine.Run.invariant (Inv capacity) ?_ (fun _ _ _ _ h _ hstep => h.step hstep) hrun
  rintro st ⟨pool, rfl⟩
  refine ⟨⟨rfl, Nat.zero_le _, ?_, ?_, nofun, False.elim, False.elim, nofun⟩, ⟨rfl, ?_, trivial, nofun, nofun, rfl⟩⟩
  · exact (Nat.zero_mod _).symm
  · exact (Nat.zero_mod _).symm
  · exact (Nat.zero_mod _).symm

/-- **The input buffer is a queue**: what was put in is what the task has processed, what it is processing and what is
queued, in this order, and the memory of the units that are out says what they said when they were put in.  The ring
never holds more than it has slots for, and a batch that is decoded is neither queued nor in the hands of the task. -/
theorem inputBuffer_fifo (capacity : Nat) (fresh : R) (st : State R S)
    (hrun : (machine capacity fresh).Run (fun _ _ => True) st) :
    (∀ a e, InputBuffer.step capacity fresh st a ≠ .abort e) ∧
      st.enqueued.map Prod.snd
        = st.seen ++ st.consumer.processing.map (payload st.pool) ++ st.queued.map (payload st.pool) ∧
      st.queued.length = st.count ∧ st.count ≤ capacity ∧
      ∀ i done rest, st.producer = .decoding i done rest →
        .batch i ∉ st.queued ∧ .batch i ∉ st.consumer.processing ∧ .batch i ∉ st.consumer.fetched := by
  have h := inv_of_run hrun
  have hcount := h.1.count_eq
  -- what is out is what is processed and what is queued
  have hout : (st.enqueued.drop st.seen.length).map Prod.fst = st.consumer.processing ++ st.queued := by
    unfold State.queued State.released
    cases hpc : st.consumer with
    | process u =>
      have hhead := h.2.processing u (by rw [hpc]; exact mem_singleton.mpr rfl)
      rw [Option.mem_def, List.head?_eq_some_iff] at hhead
      obtain ⟨rest, hrest⟩ := hhead
      show _ = u :: (st.enqueued.drop (st.seen.length + 1)).map Prod.fst
      rw [hrest, ← List.drop_drop, List.map_drop, hrest]
      rfl
    | _ => rfl
  have hunused : ∀ i done rest, st.producer = .decoding i done rest →
      .batch i ∉ (st.enqueued.drop st.seen.length).map Prod.fst := by
    intro i done rest hpc hin
    obtain ⟨e, he, heq⟩ := List.mem_map.mp hin
    exact h.2.notMem h.1 (by rw [hpc]; rfl) he heq
  refine ⟨h.no_abort, ?_, ?_, h.1.count_le, fun i done rest hpc => ?_⟩
  · have hpayloads : (st.enqueued.drop st.seen.length).map Prod.snd
        = (st.consumer.processing ++ st.queued).map (payload st.pool) := by
      rw [← hout, List.map_map]
      exact List.map_congr_left fun e he => (h.2.contents e he).symm
    have hsplit := List.take_append_drop st.seen.length (st.enqueued.map Prod.snd)
    rw [← h.2.seen_eq] at hsplit
    rw [List.append_assoc, ← map_append, ← hpayloads, List.map_drop]
    exact hsplit.symm
  · rw [State.queued, List.length_map, List.length_drop]
    omega
  · have hout' := hunused i done rest hpc
    rw [hout, List.mem_append, not_or] at hout'
    exact ⟨hout'.2, hout'.1, fun hin => hout'.2 (List.mem_of_mem_head? (h.1.fetched _ hin))⟩

end

/-- One batch goes through a ring with one slot. -/
theorem inputBuffer_fifo_oneBatch :
    ∃ st : State Nat Unit, (machine 1 0).Run (fun _ _ => True) st ∧ st.seen.length = 1 ∧
      st.enqueued.map Prod.snd
        = st.seen ++ st.consumer.processing.map (payload st.pool) ++ st.queued.map (payload st.pool) := by
  obtain ⟨st, hrun, hseen⟩ := Machine.Run.of_replay (m := (machine 1 0 : Machine (State Nat Unit) _ _))
    (.receiveBatch [7] :: List.replicate 6 .produce ++ List.replicate 5 .consume)
    (fun st => decide (st.seen.length = 1)) ⟨fun _ => ⟨[], 0⟩, rfl⟩ (by decide)
  exact ⟨st, hrun, of_decide_eq_true hseen, (inputBuffer_fifo 1 0 st hrun).2.1⟩

end InputBuffer
end Network
end Koala
