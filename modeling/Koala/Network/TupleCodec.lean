import Koala.Lib.Codec
import Koala.Lib.Outcome

/-!
# Tuples on the wire

`internal/network/codec.go` builds the encoder, decoder and sizer of a tuple type from the kinds of its fields.
The codecs of the single kinds are those of the `mus-go` library, given here as `MusCodecs`.

A decoded field arrives as a value of the *predeclared* type of its kind and `SetField`
(`api/tuple/tuple_gen.go`) asserts the field's own type on it.  The assertion fails for a field of a defined
type such as `type UserID int64`; the decoder ignores the error, so the pre-allocated tuple keeps whatever the
field held before (`decode_encode`, `decode_encode_iff`).
-/

namespace Koala
namespace Network

open Lib Lib.Outcome

/-! ## Kinds and types -/

/-- The kinds that `tuple.SupportedKind` accepts. -/
inductive Kind where
  | bool | int | int8 | int16 | int32 | int64 | uint | uint8 | uint16 | uint32 | uint64 | float32 | float64 | string
  deriving DecidableEq, Repr

/-- `reflect.Kind`; all unsupported kinds are one. -/
inductive ReflectKind where
  | supported (kind : Kind)
  | unsupported
  deriving DecidableEq, Repr

/-- A Go value of a kind, floats by their bits and strings by their bytes. -/
def Kind.Val : Kind → Type
  | .bool => Bool
  | .int => Int64
  | .int8 => Int8
  | .int16 => Int16
  | .int32 => Int32
  | .int64 => Int64
  | .uint => UInt64
  | .uint8 => UInt8
  | .uint16 => UInt16
  | .uint32 => UInt32
  | .uint64 => UInt64
  | .float32 => UInt32
  | .float64 => UInt64
  | .string => Bytes

/-- A field's type: its kind, and whether it is a defined type rather than the predeclared one. -/
structure FieldType where
  kind : Kind
  isDefined : Bool
  deriving DecidableEq, Repr

/-- The type of a struct field as reflection sees it. -/
structure GoType where
  kind : ReflectKind
  isDefined : Bool
  deriving DecidableEq, Repr

/-- `log.Fatalln` of the codec constructors. -/
inductive CodecAbort where
  /-- "Unsupported field type=" -/
  | unsupportedField
  deriving DecidableEq, Repr

/-- The loop over the fields that `CreateEncoder`, `CreateDecoder` and `CreateSizer` have in common. -/
def supportedFields : List GoType → Outcome CodecAbort (List FieldType)
  | [] => .ok []
  | t :: rest =>
    match t.kind with
    | .supported kind => supportedFields rest >>= fun fields => .ok (⟨kind, t.isDefined⟩ :: fields)
    | .unsupported => .abort .unsupportedField

/-- The values of the fields. -/
def Fields : List FieldType → Type
  | [] => Unit
  | t :: types => t.kind.Val × Fields types

/-- A tuple, with its timestamp. -/
@[ext] structure Tuple (types : List FieldType) where
  fields : Fields types
  timestamp : Int64

/-! ## The codecs -/

/-- The codecs of `mus-go` that the source uses: `varint` and `ord` for tuples, `raw` for the framing. -/
structure MusCodecs where
  int : Codec Int64
  int8 : Codec Int8
  int16 : Codec Int16
  int32 : Codec Int32
  int64 : Codec Int64
  uint : Codec UInt64
  uint8 : Codec UInt8
  uint16 : Codec UInt16
  uint32 : Codec UInt32
  uint64 : Codec UInt64
  float32 : Codec UInt32
  float64 : Codec UInt64
  string : Codec Bytes
  rawUint16 : FixedCodec UInt16 2
  rawUint32 : FixedCodec UInt32 4
  rawInt64 : FixedCodec Int64 8

variable (mus : MusCodecs)

/-- A Go bool is a byte in memory. -/
def boolByte (b : Bool) : UInt8 := if b then 1 else 0

/-- `EncodeFuncFromKind`. -/
def encodeFuncFromKind : (kind : Kind) → kind.Val → Bytes
  | .bool, b => mus.uint8.marshal (boolByte b)
  | .int, v => mus.int.marshal v
  | .int8, v => mus.int8.marshal v
  | .int16, v => mus.int16.marshal v
  | .int32, v => mus.int32.marshal v
  | .int64, v => mus.int64.marshal v
  | .uint, v => mus.uint.marshal v
  | .uint8, v => mus.uint8.marshal v
  | .uint16, v => mus.uint16.marshal v
  | .uint32, v => mus.uint32.marshal v
  | .uint64, v => mus.uint64.marshal v
  | .float32, v => mus.float32.marshal v
  | .float64, v => mus.float64.marshal v
  | .string, v => mus.string.marshal v

/-- `DecodeFuncFromKind`. -/
def decodeFuncFromKind : (kind : Kind) → Bytes → Option (kind.Val × Nat)
  | .bool, buf => (mus.uint8.unmarshal buf).map fun p => (p.1 == 1, p.2)
  | .int, buf => mus.int.unmarshal buf
  | .int8, buf => mus.int8.unmarshal buf
  | .int16, buf => mus.int16.unmarshal buf
  | .int32, buf => mus.int32.unmarshal buf
  | .int64, buf => mus.int64.unmarshal buf
  | .uint, buf => mus.uint.unmarshal buf
  | .uint8, buf => mus.uint8.unmarshal buf
  | .uint16, buf => mus.uint16.unmarshal buf
  | .uint32, buf => mus.uint32.unmarshal buf
  | .uint64, buf => mus.uint64.unmarshal buf
  | .float32, buf => mus.float32.unmarshal buf
  | .float64, buf => mus.float64.unmarshal buf
  | .string, buf => mus.string.unmarshal buf

/-- `TupleSizeFuncFromKind`. -/
def tupleSizeFuncFromKind : (kind : Kind) → kind.Val → Nat
  | .bool, b => mus.uint8.size (boolByte b)
  | .int, v => mus.int.size v
  | .int8, v => mus.int8.size v
  | .int16, v => mus.int16.size v
  | .int32, v => mus.int32.size v
  | .int64, v => mus.int64.size v
  | .uint, v => mus.uint.size v
  | .uint8, v => mus.uint8.size v
  | .uint16, v => mus.uint16.size v
  | .uint32, v => mus.uint32.size v
  | .uint64, v => mus.uint64.size v
  | .float32, v => mus.float32.size v
  | .float64, v => mus.float64.size v
  | .string, v => mus.string.size v

def encodeFields : (types : List FieldType) → Fields types → Bytes
  | [], _ => []
  | t :: types, (v, vs) => encodeFuncFromKind mus t.kind v ++ encodeFields types vs

def sizeFields : (types : List FieldType) → Fields types → Nat
  | [], _ => 0
  | t :: types, (v, vs) => tupleSizeFuncFromKind mus t.kind v + sizeFields types vs

/-- `SetField` with a decoded value: the type assertion succeeds only for a predeclared type, and its error is
not looked at. -/
def setField (t : FieldType) (old new : t.kind.Val) : t.kind.Val := if t.isDefined then old else new

/-- The decoder's loop over the fields of a pre-allocated tuple. -/
def decodeFields : (types : List FieldType) → Fields types → Bytes → Option (Fields types × Nat)
  | [], target, _ => some (target, 0)
  | t :: types, (old, olds), buf => do
    let (v, n) ← decodeFuncFromKind mus t.kind buf
    let (vs, m) ← decodeFields types olds (buf.drop n)
    some ((setField t old v, vs), n + m)

variable {types : List FieldType} (t : Tuple types)

/-- The function that `CreateEncoder` returns: the bytes it writes. -/
def encode : Bytes := encodeFields mus types t.fields ++ mus.int64.marshal t.timestamp

/-- The function that `CreateSizer` returns. -/
def size (t : Tuple types) : Nat := sizeFields mus types t.fields + mus.int64.size t.timestamp

/-- The function that `CreateDecoder` returns, on a pre-allocated tuple. -/
def decode (target : Tuple types) (buf : Bytes) : Option (Tuple types × Nat) := do
  let (fields, n) ← decodeFields mus types target.fields buf
  let (timestamp, m) ← mus.int64.unmarshal (buf.drop n)
  some (⟨fields, timestamp⟩, n + m)

/-! ## Round trips -/

theorem encodeFunc_length (kind : Kind) (v : kind.Val) :
    tupleSizeFuncFromKind mus kind v = (encodeFuncFromKind mus kind v).length := by
  cases kind <;> exact Codec.size_eq _ _

theorem decodeFunc_encodeFunc (kind : Kind) (v : kind.Val) (rest : Bytes) :
    decodeFuncFromKind mus kind (encodeFuncFromKind mus kind v ++ rest)
      = some (v, (encodeFuncFromKind mus kind v).length) := by
  cases kind
  case bool =>
    have hbool : (boolByte v == 1) = v := by cases v <;> rfl
    simp only [decodeFuncFromKind, encodeFuncFromKind, Codec.unmarshal_marshal, Option.map_some, hbool]
  all_goals exact Codec.unmarshal_marshal _ _ _

theorem encodeFields_length (types : List FieldType) (fields : Fields types) :
    sizeFields mus types fields = (encodeFields mus types fields).length := by
  induction types with
  | nil => rfl
  | cons t types ih =>
    obtain ⟨v, vs⟩ := fields
    rw [sizeFields, encodeFields, List.length_append, encodeFunc_length, ih]

/-- **The sizer reports what the encoder writes.** -/
theorem encode_length : (encode mus t).length = size mus t := by
  rw [encode, size, List.length_append, encodeFields_length, Codec.size_eq]

theorem encode_pos : 0 < (encode mus t).length := by
  have hpos := mus.int64.marshal_pos t.timestamp
  rw [encode, List.length_append]
  omega

/-- What the target holds after `SetField` with the fields of another tuple. -/
def setFields : (types : List FieldType) → Fields types → Fields types → Fields types
  | [], _, _ => ()
  | t :: types, (old, olds), (new, news) => (setField t old new, setFields types olds news)

theorem decodeFields_encodeFields (types : List FieldType) (target fields : Fields types) (rest : Bytes) :
    decodeFields mus types target (encodeFields mus types fields ++ rest)
      = some (setFields types target fields, (encodeFields mus types fields).length) := by
  induction types generalizing rest with
  | nil => rfl
  | cons t types ih =>
    obtain ⟨old, olds⟩ := target
    obtain ⟨v, vs⟩ := fields
    simp only [decodeFields, encodeFields, List.append_assoc, decodeFunc_encodeFunc, Option.bind_eq_bind,
      Option.bind_some, List.drop_left, ih, List.length_append, setFields]

/-- The tuple that decoding `t` into `target` gives. -/
def received (target t : Tuple types) : Tuple types := ⟨setFields types target.fields t.fields, t.timestamp⟩

/-- Decoding uses exactly the encoded bytes; fields of a defined type keep the target's value. -/
theorem decode_encode (target t : Tuple types) (rest : Bytes) :
    decode mus target (encode mus t ++ rest) = some (received target t, (encode mus t).length) := by
  simp only [decode, encode, List.append_assoc, decodeFields_encodeFields, Option.bind_eq_bind, Option.bind_some,
    List.drop_left, Codec.unmarshal_marshal, List.length_append, received]

theorem setFields_predeclared (types : List FieldType) (hpre : ∀ t ∈ types, t.isDefined = false)
    (target fields : Fields types) : setFields types target fields = fields := by
  induction types with
  | nil => rfl
  | cons t types ih =>
    obtain ⟨old, olds⟩ := target
    obtain ⟨v, vs⟩ := fields
    have ht := hpre t (List.mem_cons_self ..)
    rw [setFields, ih (fun t' ht' => hpre t' (List.mem_cons_of_mem _ ht')), setField, if_neg (by simp [ht])]

/-- The zero value of a kind. -/
def Kind.zero : (kind : Kind) → kind.Val
  | .bool => false
  | .int => (0 : Int64)
  | .int8 => (0 : Int8)
  | .int16 => (0 : Int16)
  | .int32 => (0 : Int32)
  | .int64 => (0 : Int64)
  | .uint => (0 : UInt64)
  | .uint8 => (0 : UInt8)
  | .uint16 => (0 : UInt16)
  | .uint32 => (0 : UInt32)
  | .uint64 => (0 : UInt64)
  | .float32 => (0 : UInt32)
  | .float64 => (0 : UInt64)
  | .string => ([] : Bytes)

/-- Every kind has a value other than its zero value. -/
def Kind.one : (kind : Kind) → kind.Val
  | .bool => true
  | .int => (1 : Int64)
  | .int8 => (1 : Int8)
  | .int16 => (1 : Int16)
  | .int32 => (1 : Int32)
  | .int64 => (1 : Int64)
  | .uint => (1 : UInt64)
  | .uint8 => (1 : UInt8)
  | .uint16 => (1 : UInt16)
  | .uint32 => (1 : UInt32)
  | .uint64 => (1 : UInt64)
  | .float32 => (1 : UInt32)
  | .float64 => (1 : UInt64)
  | .string => ([1] : Bytes)

theorem Kind.one_ne_zero (kind : Kind) : kind.one ≠ kind.zero := by
  cases kind
  case bool => exact Bool.noConfusion
  case string => exact List.cons_ne_nil 1 []
  case int | int64 => exact (by decide : (1 : Int64) ≠ 0)
  case int8 => exact (by decide : (1 : Int8) ≠ 0)
  case int16 => exact (by decide : (1 : Int16) ≠ 0)
  case int32 => exact (by decide : (1 : Int32) ≠ 0)
  case uint8 => exact (by decide : (1 : UInt8) ≠ 0)
  case uint16 => exact (by decide : (1 : UInt16) ≠ 0)
  case uint32 | float32 => exact (by decide : (1 : UInt32) ≠ 0)
  case uint | uint64 | float64 => exact (by decide : (1 : UInt64) ≠ 0)

/-- `New`. -/
def newFields : (types : List FieldType) → Fields types
  | [] => ()
  | t :: types => (t.kind.zero, newFields types)

/-- A tuple with no zero value. -/
def oneFields : (types : List FieldType) → Fields types
  | [] => ()
  | t :: types => (t.kind.one, oneFields types)

/-- Decoding into a zero tuple and into `oneFields` tells a field of a defined type apart. -/
theorem predeclared_of_setFields (types : List FieldType) (fields : Fields types)
    (hzero : setFields types (newFields types) fields = fields)
    (hone : setFields types (oneFields types) fields = fields) : ∀ t ∈ types, t.isDefined = false := by
  induction types with
  | nil => simp
  | cons t types ih =>
    obtain ⟨v, vs⟩ := fields
    obtain ⟨hzero, hzeros⟩ := Prod.mk.inj hzero
    obtain ⟨hone, hones⟩ := Prod.mk.inj hone
    refine List.forall_mem_cons.mpr ⟨?_, ih vs hzeros hones⟩
    by_contra hdefined
    have hd : t.isDefined = true := by simpa using hdefined
    simp only [setField, hd, if_true] at hzero hone
    exact t.kind.one_ne_zero (hone.trans hzero.symm)

/-- Decoding gives back a tuple into whatever tuple it is decoded, exactly if no field has a defined type. -/
theorem received_eq_iff :
    (∀ target, received target t = t) ↔ ∀ ty ∈ types, ty.isDefined = false := by
  constructor
  · intro h
    refine predeclared_of_setFields types t.fields ?_ ?_
    · exact congrArg Tuple.fields (h ⟨newFields types, 0⟩)
    · exact congrArg Tuple.fields (h ⟨oneFields types, 0⟩)
  · intro hpre target
    rw [received, setFields_predeclared types hpre]

end Network
end Koala
