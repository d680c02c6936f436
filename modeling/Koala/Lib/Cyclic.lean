import Mathlib.Data.Nat.ModEq

/-!
# Cyclic indices

An index that is incremented and set back to zero at the end of a slice is the number of increments modulo the length.
Positions that are less than one round apart have different indices.
-/

namespace Koala
namespace Lib
namespace Cyclic

/-- `i += 1; if i == n { i = 0 }`. -/
def next (n i : Nat) : Nat := if i + 1 = n then 0 else i + 1

theorem next_mod (n k : Nat) : next n (k % n) = (k + 1) % n := by
  unfold next
  rcases Nat.eq_zero_or_pos n with rfl | hpos
  · simp
  · have hlt := Nat.mod_lt k hpos
    rw [← Nat.mod_add_mod]
    split_ifs with hend
    · rw [hend, Nat.mod_self]
    · exact (Nat.mod_eq_of_lt (by omega)).symm

theorem mod_ne_mod {n j k : Nat} (hlt : j < k) (hnear : k < j + n) : j % n ≠ k % n := by
  intro heq
  have hdvd : n ∣ k - j := (Nat.modEq_iff_dvd' hlt.le).mp heq
  have hle := Nat.le_of_dvd (by omega) hdvd
  omega

end Cyclic
end Lib
end Koala
