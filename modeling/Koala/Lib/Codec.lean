import Koala.Lib.ByteOrder
import Mathlib

/-!
# Self-delimiting codecs

A `Codec` writes a value as bytes and reads it back from any buffer that starts with them, saying how many bytes
it used.  Codecs move along retractions (`Codec.retract`), numbers have the usual seven-bit varint
(`Codec.varint`), byte strings are written behind their length (`Codec.counted`) and lists behind their number
(`Codec.list`).  A `FixedCodec` always uses the same number of bytes.
-/

namespace Koala
namespace Lib

open List (append_assoc drop_left length_append)

/-- A codec: reading a buffer that starts with a written value gives the value and its length. -/
structure Codec (α : Type) where
  marshal : α → Bytes
  /-- The value and the number of bytes used; `none` is a decoding error. -/
  unmarshal : Bytes → Option (α × Nat)
  size : α → Nat
  unmarshal_marshal : ∀ a rest, unmarshal (marshal a ++ rest) = some (a, (marshal a).length)
  size_eq : ∀ a, size a = (marshal a).length
  marshal_pos : ∀ a, 0 < (marshal a).length

/-- A codec of one width. -/
structure FixedCodec (α : Type) (width : Nat) extends Codec α where
  marshal_length : ∀ a, (marshal a).length = width

namespace Codec

theorem marshal_injective {α : Type} (c : Codec α) : Function.Injective c.marshal := by
  intro a b h
  have hread := c.unmarshal_marshal a []
  rw [h, c.unmarshal_marshal] at hread
  exact (congrArg Prod.fst (Option.some.inj hread)).symm

/-- The codec of `α` for a type that `α` has room for. -/
def retract {α β : Type} (c : Codec α) (put : β → α) (get : α → β) (hget : ∀ b, get (put b) = b) : Codec β where
  marshal b := c.marshal (put b)
  unmarshal buf := (c.unmarshal buf).map fun p => (get p.1, p.2)
  size b := c.size (put b)
  unmarshal_marshal b rest := by simp [c.unmarshal_marshal, hget]
  size_eq b := c.size_eq (put b)
  marshal_pos b := c.marshal_pos (put b)

/-! ## Varints -/

/-- Seven bits a byte, the lowest first; the high bit says that more follow. -/
def varintEncode (n : Nat) : Bytes :=
  if n < 128 then [UInt8.ofNat n] else UInt8.ofNat (n % 128 + 128) :: varintEncode (n / 128)
termination_by n

def varintDecode : Bytes → Option (Nat × Nat)
  | [] => none
  | b :: rest =>
    if b.toNat < 128 then some (b.toNat, 1)
    else (varintDecode rest).map fun p => (b.toNat - 128 + 128 * p.1, p.2 + 1)

theorem varintDecode_encode (n : Nat) (rest : Bytes) :
    varintDecode (varintEncode n ++ rest) = some (n, (varintEncode n).length) := by
  induction n using varintEncode.induct with
  | case1 n hsmall =>
    rw [varintEncode, if_pos hsmall]
    have hbyte : (UInt8.ofNat n).toNat = n := by
      rw [UInt8.toNat_ofNat']
      omega
    simp [varintDecode, hbyte, hsmall]
  | case2 n hlarge ih =>
    rw [varintEncode, if_neg hlarge]
    have hbyte : (UInt8.ofNat (n % 128 + 128)).toNat = n % 128 + 128 := by
      rw [UInt8.toNat_ofNat']
      omega
    have hmore : ¬ n % 128 + 128 < 128 := by omega
    simp only [List.cons_append, varintDecode, hbyte, if_neg hmore, ih, Option.map_some, List.length_cons,
      Option.some.injEq, Prod.mk.injEq, and_true]
    omega

theorem varintEncode_pos (n : Nat) : 0 < (varintEncode n).length := by
  rw [varintEncode]
  split_ifs <;> simp

def varint : Codec Nat where
  marshal := varintEncode
  unmarshal := varintDecode
  size n := (varintEncode n).length
  unmarshal_marshal := varintDecode_encode
  size_eq _ := rfl
  marshal_pos := varintEncode_pos

/-- Bytes behind their length. -/
def counted (c : Codec Nat) : Codec Bytes where
  marshal s := c.marshal s.length ++ s
  unmarshal buf := (c.unmarshal buf).bind fun p =>
    if p.1 ≤ (buf.drop p.2).length then some ((buf.drop p.2).take p.1, p.2 + p.1) else none
  size s := c.size s.length + s.length
  unmarshal_marshal s rest := by
    rw [append_assoc, c.unmarshal_marshal, Option.bind_some, drop_left, if_pos (by simp),
      List.take_left, length_append]
  size_eq s := by rw [length_append, c.size_eq]
  marshal_pos s := by
    have hpos := c.marshal_pos s.length
    rw [length_append]
    omega

/-! ## Pairs and lists -/

/-- One value behind the other. -/
def pair {α β : Type} (a : Codec α) (b : Codec β) : Codec (α × β) where
  marshal p := a.marshal p.1 ++ b.marshal p.2
  unmarshal buf := (a.unmarshal buf).bind fun p => (b.unmarshal (buf.drop p.2)).map fun q => ((p.1, q.1), p.2 + q.2)
  size p := a.size p.1 + b.size p.2
  unmarshal_marshal p rest := by
    rw [append_assoc, a.unmarshal_marshal, Option.bind_some, drop_left, b.unmarshal_marshal,
      Option.map_some, length_append]
  size_eq p := by rw [length_append, a.size_eq, b.size_eq]
  marshal_pos p := by
    have hpos := a.marshal_pos p.1
    rw [length_append]
    omega

/-- Read a number of values. -/
def unmarshalMany {α : Type} (c : Codec α) : Nat → Bytes → Option (List α × Nat)
  | 0, _ => some ([], 0)
  | n + 1, buf => (c.unmarshal buf).bind fun p =>
    (unmarshalMany c n (buf.drop p.2)).map fun q => (p.1 :: q.1, p.2 + q.2)

theorem unmarshalMany_marshal {α : Type} (c : Codec α) (as : List α) (rest : Bytes) :
    c.unmarshalMany as.length (as.flatMap c.marshal ++ rest) = some (as, (as.flatMap c.marshal).length) := by
  induction as with
  | nil => rfl
  | cons a as ih =>
    rw [List.length_cons, unmarshalMany, List.flatMap_cons, append_assoc, c.unmarshal_marshal,
      Option.bind_some, drop_left, ih, Option.map_some, length_append]

/-- The values of a list behind their number. -/
def list {α : Type} (count : Codec Nat) (c : Codec α) : Codec (List α) where
  marshal as := count.marshal as.length ++ as.flatMap c.marshal
  unmarshal buf := (count.unmarshal buf).bind fun p =>
    (c.unmarshalMany p.1 (buf.drop p.2)).map fun q => (q.1, p.2 + q.2)
  size as := count.size as.length + (as.flatMap c.marshal).length
  unmarshal_marshal as rest := by
    rw [append_assoc, count.unmarshal_marshal, Option.bind_some, drop_left, unmarshalMany_marshal,
      Option.map_some, length_append]
  size_eq as := by rw [length_append, count.size_eq]
  marshal_pos as := by
    have hpos := count.marshal_pos as.length
    rw [length_append]
    omega

end Codec

namespace FixedCodec

/-- The `width` lowest bytes of a number, the lowest first. -/
def digits : Nat → Nat → Bytes
  | 0, _ => []
  | width + 1, n => UInt8.ofNat n :: digits width (n / 256)

def ofDigits : Bytes → Nat
  | [] => 0
  | b :: rest => b.toNat + 256 * ofDigits rest

theorem digits_length (width n : Nat) : (digits width n).length = width := by
  induction width generalizing n with
  | zero => rfl
  | succ width ih => rw [digits, List.length_cons, ih]

theorem ofDigits_digits (width n : Nat) (hn : n < 256 ^ width) : ofDigits (digits width n) = n := by
  induction width generalizing n with
  | zero =>
    rw [Nat.pow_zero] at hn
    rw [digits, ofDigits]
    omega
  | succ width ih =>
    have hquot : n / 256 < 256 ^ width := by
      rw [Nat.pow_succ] at hn
      exact Nat.div_lt_of_lt_mul (by omega)
    rw [digits, ofDigits, ih _ hquot, UInt8.toNat_ofNat']
    omega

/-- Little-endian numbers of `width + 1` bytes. -/
def littleEndian {α : Type} (width : Nat) (put : α → Nat) (get : Nat → α) (hlt : ∀ a, put a < 256 ^ (width + 1))
    (hget : ∀ a, get (put a) = a) : FixedCodec α (width + 1) where
  marshal a := digits (width + 1) (put a)
  unmarshal buf := if width + 1 ≤ buf.length then some (get (ofDigits (buf.take (width + 1))), width + 1) else none
  size _ := width + 1
  unmarshal_marshal a rest := by
    have hlen := digits_length (width + 1) (put a)
    rw [if_pos (by rw [length_append, hlen]; omega), List.take_left' hlen, ofDigits_digits _ _ (hlt a), hget, hlen]
  size_eq a := (digits_length _ _).symm
  marshal_pos a := by
    rw [digits_length]
    omega
  marshal_length a := digits_length _ _

end FixedCodec

end Lib
end Koala
