import Koala.Lib.ByteOrder
import Koala.Lib.Outcome

/-!
# Hand-written message layouts

Programs that lay out messages by hand write fixed-width big-endian numbers and byte strings into a buffer of
fixed capacity, reserve a field and fill it in when its value is known, and read a message back by slicing the
buffer from the front.  A buffer being written is the list of the bytes up to the write offset; a buffer being
read is the list of the bytes from the read offset on.  A slice beyond the buffer aborts.

Every reader has one lemma of the form "in front of anything, what was written is read back and nothing else is
consumed"; `many_put` lifts it to repetitions.
-/

namespace Koala
namespace Lib
namespace Wire

open Outcome

variable {ε α : Type}

/-! ## Writing -/

/-- Write at the offset; the slice of the buffer must have room. -/
def put (capacity : Nat) (oob : ε) (bytes buf : Bytes) : Outcome ε Bytes := do
  check (capacity < buf.length + bytes.length) oob
  pure (buf ++ bytes)

/-- Fill in a field that was reserved earlier. -/
def patch (offset : Nat) (bytes buf : Bytes) : Bytes :=
  buf.take offset ++ bytes ++ buf.drop (offset + bytes.length)

variable {bytes : Bytes}

theorem put_eq_ok {capacity : Nat} {oob : ε} {buf buf' : Bytes} :
    put capacity oob bytes buf = .ok buf' ↔ buf.length + bytes.length ≤ capacity ∧ buf' = buf ++ bytes := by
  unfold put
  rw [check_bind_eq_ok, Nat.not_lt, pure_eq_ok, Outcome.ok.injEq, eq_comm]

variable (oob : ε)

theorem put_ok {capacity : Nat} {buf : Bytes} (h : buf.length + bytes.length ≤ capacity) :
    put capacity oob bytes buf = .ok (buf ++ bytes) :=
  put_eq_ok.mpr ⟨h, rfl⟩

theorem patch_append {offset : Nat} {a b c new : Bytes} (ha : a.length = offset) (hb : b.length = new.length) :
    patch offset new (a ++ b ++ c) = a ++ new ++ c := by
  subst ha
  unfold patch
  rw [← hb, ← List.length_append, List.drop_left, List.append_assoc a b c, List.take_left]

/-- Within the capacity, the writer appends exactly `bytes`. -/
def Appends (capacity : Nat) (writer : Bytes → Outcome ε Bytes) (bytes : Bytes) : Prop :=
  ∀ buf, buf.length + bytes.length ≤ capacity → writer buf = .ok (buf ++ bytes)

namespace Appends

variable {capacity : Nat}

theorem put (bytes : Bytes) : Appends capacity (put capacity oob bytes) bytes :=
  fun _ h => put_ok oob h

/-- A `copy` into the buffer checks nothing. -/
theorem copy (bytes : Bytes) : Appends capacity (fun buf => (.ok (buf ++ bytes) : Outcome ε Bytes)) bytes :=
  fun _ _ => rfl

theorem nil : Appends capacity (fun buf => (.ok buf : Outcome ε Bytes)) [] := fun buf _ => by rw [List.append_nil]

theorem bind {f g : Bytes → Outcome ε Bytes} {a b : Bytes} (hf : Appends capacity f a)
    (hg : Appends capacity g b) : Appends capacity (fun buf => f buf >>= g) (a ++ b) := by
  intro buf h
  rw [List.length_append] at h
  dsimp only
  rw [hf buf (by omega), ok_bind, hg (buf ++ a) (by rw [List.length_append]; omega), List.append_assoc]

theorem forEach {xs : List α} {body : Bytes → α → Outcome ε Bytes} {enc : α → Bytes}
    (h : ∀ x ∈ xs, Appends capacity (fun buf => body buf x) (enc x)) :
    Appends capacity (forEach xs body) (xs.flatMap enc) := by
  induction xs with
  | nil => exact nil
  | cons x xs ih => exact bind (h x (by simp)) (ih fun y hy => h y (by simp [hy]))

end Appends

/-! ## Reading -/

/-- The slice of the next `n` bytes, and what follows. -/
def take (oob : ε) (n : Nat) (buf : Bytes) : Outcome ε (Bytes × Bytes) :=
  if n ≤ buf.length then .ok (buf.take n, buf.drop n) else .abort oob

/-- The number written in the bytes, the highest first. -/
def bigEndian (bytes : Bytes) : Nat := bytes.foldl (fun n b => n * 256 + b.toNat) 0

/-- `binary.BigEndian.Uint16` of the next two bytes. -/
def uint16 (buf : Bytes) : Outcome ε (Nat × Bytes) := do
  let (bytes, rest) ← take oob 2 buf
  pure (bigEndian bytes, rest)

/-- `binary.BigEndian.Uint32` of the next four bytes. -/
def uint32 (buf : Bytes) : Outcome ε (Nat × Bytes) := do
  let (bytes, rest) ← take oob 4 buf
  pure (bigEndian bytes, rest)

/-- A byte string behind its length. -/
def sized (buf : Bytes) : Outcome ε (Bytes × Bytes) := do
  let (n, rest) ← uint32 oob buf
  take oob n rest

/-- `n` items one after the other. -/
def many (item : Bytes → Outcome ε (α × Bytes)) : Nat → Bytes → Outcome ε (List α × Bytes)
  | 0, buf => .ok ([], buf)
  | n + 1, buf => do
    let (x, rest) ← item buf
    let (xs, rest) ← many item n rest
    pure (x :: xs, rest)

/-- Read `n` bytes from a connection; a reader that waits for bytes nobody sends is stuck. -/
def recv (n : Nat) (stream : Bytes) : Outcome ε (Bytes × Bytes) :=
  if n ≤ stream.length then .ok (stream.take n, stream.drop n) else .stuck

/-- What `sized` reads. -/
def putSized (bytes : Bytes) : Bytes := putUint32 bytes.length ++ bytes

@[simp] theorem length_putUint16 (n : Nat) : (putUint16 n).length = 2 := rfl

@[simp] theorem length_putUint32 (n : Nat) : (putUint32 n).length = 4 := rfl

@[simp] theorem length_putSized (bytes : Bytes) : (putSized bytes).length = 4 + bytes.length := by
  simp [putSized]

variable {n : Nat}

theorem take_append (h : bytes.length = n) (rest : Bytes) :
    take oob n (bytes ++ rest) = .ok (bytes, rest) := by
  subst h
  unfold take
  rw [if_pos (by simp), List.take_left, List.drop_left]

theorem recv_append (h : bytes.length = n) (rest : Bytes) :
    recv n (bytes ++ rest) = (.ok (bytes, rest) : Outcome ε _) := by
  subst h
  unfold recv
  rw [if_pos (by simp), List.take_left, List.drop_left]

theorem bigEndian_putUint16 (n : Nat) : bigEndian (putUint16 n) = n % 65536 := by
  simp only [bigEndian, putUint16, List.foldl_cons, List.foldl_nil, UInt8.toNat_ofNat']
  omega

theorem bigEndian_putUint32 (n : Nat) : bigEndian (putUint32 n) = n % 4294967296 := by
  simp only [bigEndian, putUint32, List.foldl_cons, List.foldl_nil, UInt8.toNat_ofNat']
  omega

theorem uint16_putUint16 (n : Nat) (rest : Bytes) :
    uint16 oob (putUint16 n ++ rest) = .ok (n % 65536, rest) := by
  rw [uint16, take_append oob (length_putUint16 n), ok_bind]
  dsimp only
  rw [bigEndian_putUint16, pure_eq_ok]

theorem uint32_putUint32 (n : Nat) (rest : Bytes) :
    uint32 oob (putUint32 n ++ rest) = .ok (n % 4294967296, rest) := by
  rw [uint32, take_append oob (length_putUint32 n), ok_bind]
  dsimp only
  rw [bigEndian_putUint32, pure_eq_ok]

theorem uint32_of_lt (h : n < 4294967296) (rest : Bytes) :
    uint32 oob (putUint32 n ++ rest) = .ok (n, rest) := by
  rw [uint32_putUint32, Nat.mod_eq_of_lt h]

theorem uint16_of_lt (h : n < 65536) (rest : Bytes) :
    uint16 oob (putUint16 n ++ rest) = .ok (n, rest) := by
  rw [uint16_putUint16, Nat.mod_eq_of_lt h]

theorem sized_putSized (h : bytes.length < 4294967296) (rest : Bytes) :
    sized oob (putSized bytes ++ rest) = .ok (bytes, rest) := by
  rw [sized, putSized, List.append_assoc, uint32_of_lt oob h, ok_bind]
  dsimp only
  rw [take_append oob rfl]

variable {enc : α → Bytes}

theorem length_le_flatMap {xs : List α} {x : α} (hx : x ∈ xs) : (enc x).length ≤ (xs.flatMap enc).length := by
  obtain ⟨before, after, rfl⟩ := List.append_of_mem hx
  simp only [List.flatMap_append, List.flatMap_cons, List.length_append]
  omega

theorem count_le_flatMap (xs : List α) (h : ∀ x ∈ xs, 0 < (enc x).length) :
    xs.length ≤ (xs.flatMap enc).length := by
  induction xs with
  | nil => simp
  | cons x xs ih =>
    have hx := h x (by simp)
    have hxs := ih fun y hy => h y (by simp [hy])
    rw [List.flatMap_cons, List.length_append, List.length_cons]
    omega

/-- **Repetition.**  Items that are each read back are read back one after the other. -/
theorem many_put {item : Bytes → Outcome ε (α × Bytes)} (xs : List α)
    (h : ∀ x ∈ xs, ∀ rest, item (enc x ++ rest) = .ok (x, rest)) (rest : Bytes) :
    many item xs.length (xs.flatMap enc ++ rest) = .ok (xs, rest) := by
  induction xs with
  | nil => rfl
  | cons x xs ih =>
    rw [List.length_cons, many, List.flatMap_cons, List.append_assoc, h x (by simp), ok_bind]
    dsimp only
    rw [ih fun y hy => h y (by simp [hy])]
    rfl

end Wire
end Lib
end Koala
