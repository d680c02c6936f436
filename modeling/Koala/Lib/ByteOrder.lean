import Mathlib.Data.List.Basic

/-!
# Byte strings in lexicographic order

Ordered key-value stores compare keys as byte strings.  Fixed-width big-endian numbers are the encoding under
which that order agrees with the numeric one, so a half-open key range `[lower, upper)` built from encoded
numbers selects exactly the keys whose number lies between them, whatever follows the number in the key
(`putUint32_lt_iff`).  The order itself is the library's order on lists.
-/

namespace Koala
namespace Lib

/-- A Go `[]byte`. -/
abbrev Bytes := List UInt8

theorem append_lt_append_iff (p x y : Bytes) : p ++ x < p ++ y ↔ x < y := by
  induction p with
  | nil => rfl
  | cons a p ih =>
    rw [List.cons_append, List.cons_append, List.cons_lt_cons_iff, ih]
    simp [UInt8.lt_irrefl]

/-- `binary.BigEndian.PutUint16`. -/
def putUint16 (n : Nat) : Bytes := [UInt8.ofNat (n / 256), UInt8.ofNat n]

/-- `binary.BigEndian.PutUint32`. -/
def putUint32 (n : Nat) : Bytes :=
  [UInt8.ofNat (n / 16777216), UInt8.ofNat (n / 65536), UInt8.ofNat (n / 256), UInt8.ofNat n]

/-- `binary.BigEndian.Uint16`. -/
def getUint16 : Bytes → Nat
  | a :: b :: _ => a.toNat * 256 + b.toNat
  | _ => 0

/-- `binary.BigEndian.Uint32`. -/
def getUint32 : Bytes → Nat
  | a :: b :: c :: d :: _ => ((a.toNat * 256 + b.toNat) * 256 + c.toNat) * 256 + d.toNat
  | _ => 0

/-- **Numeric and lexicographic order agree** on keys that start with an encoded number. -/
theorem putUint32_lt_iff {a b : Nat} (ha : a < 4294967296) (hb : b < 4294967296) (rest : Bytes) :
    putUint32 a ++ rest < putUint32 b ↔ a < b := by
  simp only [putUint32, List.cons_append, List.nil_append, List.cons_lt_cons_iff, List.not_lt_nil, and_false,
    or_false, UInt8.lt_iff_toNat_lt, ← UInt8.toNat_inj, UInt8.toNat_ofNat']
  have hdigits : ∀ n, n / 65536 = n / 256 / 256 ∧ n / 16777216 = n / 256 / 256 / 256 := by
    intro n
    omega
  rw [(hdigits a).1, (hdigits a).2, (hdigits b).1, (hdigits b).2]
  omega

theorem lt_putUint16_putUint32_iff {k : Bytes} (hk : 6 ≤ k.length) {m n : Nat} (hm : m < 65536) (hn : n < 4294967296) :
    k < putUint16 m ++ putUint32 n ↔ getUint16 k < m ∨ getUint16 k = m ∧ getUint32 (k.drop 2) < n := by
  obtain ⟨a, b, c, d, e, f, rest, rfl⟩ : ∃ a b c d e f rest, k = a :: b :: c :: d :: e :: f :: rest := by
    match k, hk with
    | a :: b :: c :: d :: e :: f :: rest, _ => exact ⟨a, b, c, d, e, f, rest, rfl⟩
  have hdigits : n / 65536 = n / 256 / 256 ∧ n / 16777216 = n / 256 / 256 / 256 := by omega
  simp only [putUint16, putUint32, List.cons_append, List.nil_append, List.cons_lt_cons_iff, List.not_lt_nil, and_false,
    or_false, UInt8.lt_iff_toNat_lt, ← UInt8.toNat_inj, UInt8.toNat_ofNat', getUint16, getUint32, List.drop_succ_cons,
    List.drop_zero]
  rw [hdigits.1, hdigits.2]
  have ha := a.toNat_lt
  have hb := b.toNat_lt
  have hc := c.toNat_lt
  have hd := d.toNat_lt
  have he := e.toNat_lt
  have hf := f.toNat_lt
  omega
theorem getUint16_putUint16 {n : Nat} (hn : n < 65536) (rest : Bytes) : getUint16 (putUint16 n ++ rest) = n := by
  simp only [putUint16, List.cons_append, getUint16, UInt8.toNat_ofNat']
  omega

theorem getUint32_putUint32 {n : Nat} (hn : n < 4294967296) (rest : Bytes) : getUint32 (putUint32 n ++ rest) = n := by
  simp only [putUint32, List.cons_append, getUint32, UInt8.toNat_ofNat']
  omega

theorem putUint32_injective {a b : Nat} (ha : a < 4294967296) (hb : b < 4294967296)
    (h : putUint32 a = putUint32 b) : a = b := by
  rw [← getUint32_putUint32 ha [], h, getUint32_putUint32 hb]

end Lib
end Koala
