import Mathlib.Logic.Basic
import Mathlib.Data.List.Basic

/-!
# Passing a token from hand to hand

One token starts at `start` and is handed over again and again.  A hand-over is known to the two who take part
in it and to nobody else, so each one's idea of where the token is comes from the last hand-over it took part
in (`lastSeen`).  The idea can be stale, but never about oneself: whoever believes to hold the token does
(`lastSeen_eq_self_iff`), so at every moment exactly one does.
-/

namespace Koala
namespace Lib
namespace HandOver

variable {W : Type} [DecidableEq W]

/-- The hand-overs of a token, the latest first: who gave it and who took it. -/
abbrev History (W : Type) : Type := List (W × W)

/-- Where the token is. -/
def holder (start : W) : History W → W
  | [] => start
  | (_, taker) :: _ => taker

/-- Where `w` believes the token to be. -/
def lastSeen (start w : W) : History W → W
  | [] => start
  | (giver, taker) :: rest => if giver = w ∨ taker = w then taker else lastSeen start w rest

/-- Every hand-over was made by the holder, to somebody else. -/
def Proper (start : W) : History W → Prop
  | [] => True
  | (giver, taker) :: rest => giver = holder start rest ∧ taker ≠ giver ∧ Proper start rest

omit [DecidableEq W] in
@[simp] theorem holder_cons (start giver taker : W) (rest : History W) :
    holder start ((giver, taker) :: rest) = taker := rfl

theorem lastSeen_taker (start giver taker : W) (rest : History W) :
    lastSeen start taker ((giver, taker) :: rest) = taker := by
  simp [lastSeen]

theorem lastSeen_giver (start giver taker : W) (rest : History W) :
    lastSeen start giver ((giver, taker) :: rest) = taker := by
  simp [lastSeen]

theorem lastSeen_other (start : W) {giver taker w : W} (rest : History W) (hgiver : w ≠ giver)
    (htaker : w ≠ taker) : lastSeen start w ((giver, taker) :: rest) = lastSeen start w rest := by
  rw [lastSeen, if_neg]
  rintro (h | h)
  · exact hgiver h.symm
  · exact htaker h.symm

/-- A party that took part in no hand-over believes the token where it started. -/
theorem lastSeen_of_absent (start w : W) {history : History W}
    (habsent : ∀ h ∈ history, h.1 ≠ w ∧ h.2 ≠ w) : lastSeen start w history = start := by
  induction history with
  | nil => rfl
  | cons handOver rest ih =>
    obtain ⟨hgiver, htaker⟩ := habsent handOver (by simp)
    rw [lastSeen_other start rest hgiver.symm htaker.symm]
    exact ih fun h hh => habsent h (List.mem_cons_of_mem _ hh)

/-- **Nobody is wrong about holding the token.** -/
theorem lastSeen_eq_self_iff {start w : W} {history : History W} (hproper : Proper start history) :
    lastSeen start w history = w ↔ holder start history = w := by
  cases history with
  | nil => rfl
  | cons handOver rest =>
    obtain ⟨giver, taker⟩ := handOver
    obtain ⟨hgiver, hne, hrest⟩ := hproper
    by_cases hparty : giver = w ∨ taker = w
    · rw [lastSeen, if_pos hparty, holder_cons]
    · obtain ⟨hg, ht⟩ := not_or.mp hparty
      rw [lastSeen, if_neg hparty, holder_cons, lastSeen_eq_self_iff hrest, ← hgiver]
      exact ⟨fun h => absurd h hg, fun h => absurd h ht⟩

theorem lastSeen_start_or_taker (start w : W) (history : History W) :
    lastSeen start w history = start ∨ ∃ h ∈ history, lastSeen start w history = h.2 := by
  induction history with
  | nil => exact Or.inl rfl
  | cons handOver rest ih =>
    rw [lastSeen]
    split_ifs with hparty
    · exact Or.inr ⟨handOver, by simp, rfl⟩
    · rcases ih with hstart | ⟨h, hh, heq⟩
      · exact Or.inl hstart
      · exact Or.inr ⟨h, List.mem_cons_of_mem _ hh, heq⟩

end HandOver
end Lib
end Koala
