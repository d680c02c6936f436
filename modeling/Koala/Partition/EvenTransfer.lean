import Koala.Partition.EvenPrepare

/-!
# The round-robin donor loop

`Transfer.Inv` is what every iteration of `for need > 0` keeps: the cursor is in range, every bucket still in
a donor's pool is assigned to that donor before and now, a bucket has moved only from a donor to a recipient,
and `bucketOwnerChanges` records exactly the moves made.  `Transfer.fill_ok` is the total correctness of the
loop: as long as the pools together hold what the recipient needs, the loop ends, and it hands over exactly
that many buckets.  The termination argument counts the empty donors the cursor still has to skip.
-/

namespace Koala
namespace Partition

open Lib Lib.Outcome
open Transfer (fill next pool)

/-! ## The invariant -/

/-- What the donor loops keep, for the old assignment `old`, the donors and the recipients.  `kept d` is the
number of buckets donor `d` is not asked for. -/
structure Transfer.Inv (old donors recipients : List WorkerID) (kept : WorkerID → Nat)
    (st : Transfer) : Prop where
  idx_lt : st.donorIdx < donors.length
  length_eq : st.newBuckets.length = old.length
  pool_nodup : ∀ d, (st.pool d).Nodup
  pool_owner : ∀ d b, b ∈ st.pool d → old[b]? = some d ∧ st.newBuckets[b]? = some d
  count_donor : ∀ d ∈ donors, st.newBuckets.count d = kept d + (st.pool d).length
  moved : ∀ b : BucketID, old[b]? ≠ st.newBuckets[b]? →
    ∃ d ∈ donors, ∃ r ∈ recipients, old[b]? = some d ∧ st.newBuckets[b]? = some r
  changes_iff : ∀ src dst b, b ∈ st.bucketOwnerChanges.moved src dst ↔
    old[b]? = some src ∧ st.newBuckets[b]? = some dst ∧ src ≠ dst
  changes_nodup : ∀ src dst, (st.bucketOwnerChanges.moved src dst).Nodup
  changes_noEmpty : st.bucketOwnerChanges.NoEmptyEntry

/-- The buckets still available. -/
def Transfer.available (donors : List WorkerID) (st : Transfer) : Nat :=
  (donors.map fun d => (st.pool d).length).sum

/-- What serving `recipient` with `given` buckets does to the state. -/
structure Transfer.Served (donors : List WorkerID) (recipient : WorkerID) (given : Nat)
    (st st' : Transfer) : Prop where
  count_recipient : st'.newBuckets.count recipient = st.newBuckets.count recipient + given
  count_other : ∀ w, w ∉ donors → w ≠ recipient → st'.newBuckets.count w = st.newBuckets.count w
  available_eq : st'.available donors + given = st.available donors

theorem Transfer.Served.advance (donors : List WorkerID) (recipient : WorkerID) (st : Transfer) (i : Nat) :
    Transfer.Served donors recipient 0 st { st with donorIdx := i } :=
  ⟨rfl, fun _ _ _ => rfl, rfl⟩

theorem Transfer.Served.trans {donors : List WorkerID} {recipient : WorkerID} {m n : Nat}
    {st₁ st₂ st₃ : Transfer} (h₁ : Transfer.Served donors recipient m st₁ st₂)
    (h₂ : Transfer.Served donors recipient n st₂ st₃) :
    Transfer.Served donors recipient (m + n) st₁ st₃ where
  count_recipient := by
    rw [h₂.count_recipient, h₁.count_recipient, Nat.add_assoc]
  count_other := fun w hw hne => (h₂.count_other w hw hne).trans (h₁.count_other w hw hne)
  available_eq := by
    have h := h₁.available_eq
    have h' := h₂.available_eq
    omega

section Step

variable {old donors recipients : List WorkerID} {kept : WorkerID → Nat} {st : Transfer}

theorem Transfer.Inv.advance (h : st.Inv old donors recipients kept) :
    Transfer.Inv old donors recipients kept { st with donorIdx := (st.donorIdx + 1) % donors.length } :=
  { h with idx_lt := Nat.mod_lt _ (Nat.zero_lt_of_lt h.idx_lt) }

/-- The state after `donor` gave its last bucket `b` to `recipient`. -/
def Transfer.give (st : Transfer) (donor recipient : WorkerID) (b : BucketID) : Transfer :=
  { st with
    donorBuckets := st.donorBuckets.set donor (st.pool donor).dropLast
    newBuckets := st.newBuckets.set b recipient
    bucketOwnerChanges := st.bucketOwnerChanges.record donor recipient b }

theorem Transfer.pool_give (st : Transfer) (donor recipient d : WorkerID) (b : BucketID) :
    (st.give donor recipient b).pool d = if d = donor then (st.pool donor).dropLast else st.pool d := by
  simp only [pool, Transfer.give, GoMap.get_set]
  split_ifs <;> rfl

variable {recipient : WorkerID}

section

variable (h : st.Inv old donors recipients kept)
include h

theorem Transfer.Inv.pool_give_ne {donor : WorkerID} {b : BucketID}
    (hb : (st.pool donor).getLast? = some b) {d : WorkerID} {c : BucketID}
    (hc : c ∈ (st.give donor recipient b).pool d) : c ∈ st.pool d ∧ c ≠ b := by
  obtain ⟨front, hfront⟩ := List.getLast?_eq_some_iff.mp hb
  have hmem : b ∈ st.pool donor := by rw [hfront]; simp
  rw [Transfer.pool_give] at hc
  by_cases hd : d = donor
  · subst hd
    have hnodup := h.pool_nodup d
    rw [if_pos rfl, hfront, List.dropLast_concat] at hc
    rw [hfront, List.nodup_append] at hnodup
    exact ⟨by rw [hfront]; simp [hc], hnodup.2.2 c hc b (by simp)⟩
  · rw [if_neg hd] at hc
    refine ⟨hc, fun hcb => hd ?_⟩
    have h₁ := (h.pool_owner d c hc).1
    have h₂ := (h.pool_owner donor b hmem).1
    rw [hcb, h₂] at h₁
    exact (Option.some.inj h₁).symm

/-- Giving a bucket away keeps the invariant and serves the recipient with one bucket. -/
theorem Transfer.Inv.give (hnodup : donors.Nodup) {donor : WorkerID}
    (hdonor : donor ∈ donors) (hrecipient : recipient ∈ recipients) (hdisj : recipient ∉ donors) {b : BucketID}
    (hb : (st.pool donor).getLast? = some b) : (st.give donor recipient b).Inv old donors recipients kept ∧
      Transfer.Served donors recipient 1 st (st.give donor recipient b) := by
  obtain ⟨front, hfront⟩ := List.getLast?_eq_some_iff.mp hb
  have hmem : b ∈ st.pool donor := by rw [hfront]; simp
  obtain ⟨hold, hnew⟩ := h.pool_owner donor b hmem
  obtain ⟨hlt, hat⟩ := List.getElem?_eq_some_iff.mp hnew
  have hne : donor ≠ recipient := fun heq => hdisj (heq ▸ hdonor)
  have hlen : (st.pool donor).length = front.length + 1 := by rw [hfront]; simp
  have hdrop : (st.pool donor).dropLast = front := by rw [hfront, List.dropLast_concat]
  have hcount : ∀ w, (st.newBuckets.set b recipient).count w
      = (st.newBuckets.count w - if donor = w then 1 else 0) + if recipient = w then 1 else 0 := by
    intro w
    rw [List.count_set hlt, hat]
    simp
  have hget : ∀ c, (st.newBuckets.set b recipient)[c]?
      = if c = b then some recipient else st.newBuckets[c]? := by
    intro c
    rw [List.getElem?_set]
    by_cases hcb : c = b
    · simp [hcb, hlt]
    · simp [hcb, Ne.symm hcb]
  have hinv : (st.give donor recipient b).Inv old donors recipients kept := by
    refine ⟨h.idx_lt, by simpa [Transfer.give] using h.length_eq, ?_, ?_, ?_, ?_, ?_, ?_,
      h.changes_noEmpty.record donor recipient b⟩
    · intro d
      rw [Transfer.pool_give]
      split_ifs
      · exact (h.pool_nodup donor).sublist (List.dropLast_sublist _)
      · exact h.pool_nodup d
    · intro d c hc
      obtain ⟨hcd, hcb⟩ := h.pool_give_ne hb hc
      obtain ⟨hco, hcn⟩ := h.pool_owner d c hcd
      exact ⟨hco, by simp only [Transfer.give, hget, hcb, if_false]; exact hcn⟩
    · intro d hd
      have hrd : recipient ≠ d := fun heq => hdisj (heq ▸ hd)
      have hbase := h.count_donor d hd
      rw [Transfer.pool_give]
      simp only [Transfer.give, hcount, hrd, if_false, Nat.add_zero]
      by_cases hdd : d = donor
      · subst hdd
        rw [if_pos rfl, if_pos rfl, hdrop]
        omega
      · rw [if_neg hdd, if_neg (Ne.symm hdd)]
        omega
    · intro c hc
      simp only [Transfer.give, hget] at hc ⊢
      by_cases hcb : c = b
      · subst hcb
        exact ⟨donor, hdonor, recipient, hrecipient, hold, by simp⟩
      · simp only [hcb, if_false] at hc ⊢
        exact h.moved c hc
    · intro src dst c
      simp only [Transfer.give, OwnerChanges.moved_record, List.mem_append, h.changes_iff, hget]
      by_cases hcb : c = b
      · subst hcb
        -- before the step bucket `c` had not moved, so no earlier record mentions it
        rw [hold, hnew]
        by_cases hrec : src = donor ∧ dst = recipient
        · obtain ⟨rfl, rfl⟩ := hrec
          simp [hne]
        · simp only [hrec, if_false, List.not_mem_nil, or_false, if_true, Option.some.injEq]
          constructor
          · rintro ⟨rfl, rfl, hself⟩
            exact absurd rfl hself
          · rintro ⟨rfl, rfl, -⟩
            exact absurd ⟨rfl, rfl⟩ hrec
      · by_cases hrec : src = donor ∧ dst = recipient
        · simp [hrec, hcb]
        · simp [hrec, hcb]
    · intro src dst
      simp only [Transfer.give, OwnerChanges.moved_record]
      by_cases hrec : src = donor ∧ dst = recipient
      · obtain ⟨rfl, rfl⟩ := hrec
        have hnotin : b ∉ st.bucketOwnerChanges.moved src dst := by
          rw [h.changes_iff, hnew]
          rintro ⟨-, hself, hneq⟩
          exact hneq (Option.some.inj hself)
        simp only [and_self, if_true]
        exact (h.changes_nodup src dst).append (List.nodup_singleton b) (by simpa using hnotin)
      · simpa [hrec] using h.changes_nodup src dst
  refine ⟨hinv, ?_, ?_, ?_⟩
  · simp [Transfer.give, hcount, hne]
  · intro w hw hwr
    have hdw : donor ≠ w := fun heq => hw (heq ▸ hdonor)
    simp [Transfer.give, hcount, hdw, Ne.symm hwr]
  · refine sum_map_lower donors hnodup _ _ donor hdonor ?_ ?_
    · rw [Transfer.pool_give, if_pos rfl, hdrop, hlen]
    · intro w hw
      rw [Transfer.pool_give, if_neg hw]

/-- One iteration never aborts: it skips an empty donor or gives one bucket away. -/
theorem Transfer.next_cases (recipient : WorkerID) (need : Nat) : ∃ donor, donors[st.donorIdx]? = some donor ∧
      ((st.pool donor = [] ∧ next donors recipient (need, st)
          = .ok (need, { st with donorIdx := (st.donorIdx + 1) % donors.length })) ∨
        ∃ b, (st.pool donor).getLast? = some b ∧ next donors recipient (need, st) = .ok (need - 1,
              { st with donorIdx := (st.donorIdx + 1) % donors.length }.give donor recipient b)) := by
  obtain ⟨donor, hdonor⟩ : ∃ donor, donors[st.donorIdx]? = some donor :=
    ⟨_, List.getElem?_eq_getElem h.idx_lt⟩
  refine ⟨donor, hdonor, ?_⟩
  cases hlast : (st.pool donor).getLast? with
  | none =>
    refine Or.inl ⟨List.getLast?_eq_none_iff.mp hlast, ?_⟩
    have hpool : (({ st with donorIdx := (st.donorIdx + 1) % donors.length } : Transfer).pool donor).getLast?
        = none := hlast
    simp only [next, hdonor, hpool]
  | some b =>
    refine Or.inr ⟨b, rfl, ?_⟩
    have hpool : (({ st with donorIdx := (st.donorIdx + 1) % donors.length } : Transfer).pool donor).getLast?
        = some b := hlast
    obtain ⟨front, hfront⟩ := List.getLast?_eq_some_iff.mp hlast
    have hnew := (h.pool_owner donor b (by rw [hfront]; simp)).2
    obtain ⟨hlt, -⟩ := List.getElem?_eq_some_iff.mp hnew
    simp only [next, hdonor, hpool, hlt, if_true]
    rfl

/-- While buckets are available, the cursor meets a donor that has one within one round. -/
theorem Transfer.exists_distance (hpos : 0 < st.available donors) :
    ∃ j < donors.length, ∃ donor, donors[(st.donorIdx + j) % donors.length]? = some donor ∧
      st.pool donor ≠ [] := by
  obtain ⟨d, hd, hne⟩ : ∃ d ∈ donors, st.pool d ≠ [] := by
    by_contra hnone
    push Not at hnone
    have hzero : st.available donors = 0 := by
      refine List.sum_eq_zero fun n hn => ?_
      obtain ⟨d, hd, rfl⟩ := List.mem_map.mp hn
      rw [hnone d hd, List.length_nil]
    omega
  obtain ⟨k, hk⟩ := List.mem_iff_getElem?.mp hd
  have hklt : k < donors.length := (List.getElem?_eq_some_iff.mp hk).1
  have hidx := h.idx_lt
  by_cases hle : st.donorIdx ≤ k
  · refine ⟨k - st.donorIdx, by omega, d, ?_, hne⟩
    rw [show st.donorIdx + (k - st.donorIdx) = k by omega, Nat.mod_eq_of_lt hklt]
    exact hk
  · refine ⟨k + donors.length - st.donorIdx, by omega, d, ?_, hne⟩
    rw [show st.donorIdx + (k + donors.length - st.donorIdx) = k + donors.length by omega,
      Nat.add_mod_right, Nat.mod_eq_of_lt hklt]
    exact hk

end

/-- The loop invariant of `Transfer.fill`, bounding by `n` the iterations still to come: `need - 1` full
rounds of the donors, and the distance to the next donor that has a bucket. -/
def Transfer.FillInv (old donors recipients : List WorkerID) (kept : WorkerID → Nat) (recipient : WorkerID)
    (need₀ : Nat) (st₀ : Transfer) (n : Nat) (s : Nat × Transfer) : Prop :=
  s.2.Inv old donors recipients kept ∧ s.1 ≤ need₀ ∧ s.1 ≤ s.2.available donors ∧
    Transfer.Served donors recipient (need₀ - s.1) st₀ s.2 ∧
    (s.1 = 0 ∨ ∃ j < donors.length, ∃ donor,
      donors[(s.2.donorIdx + j) % donors.length]? = some donor ∧ s.2.pool donor ≠ [] ∧
      (s.1 - 1) * donors.length + j < n)

variable {need : Nat}

/-- Between two transfers the bound on the iterations is a whole number of rounds. -/
theorem Transfer.FillInv.of_inv {need₀ : Nat} {st₀ st : Transfer} (h : st.Inv old donors recipients kept)
    (hle : need ≤ need₀) (havail : need ≤ st.available donors)
    (hserved : Transfer.Served donors recipient (need₀ - need) st₀ st) :
    Transfer.FillInv old donors recipients kept recipient need₀ st₀ (need * donors.length) (need, st) := by
  refine ⟨h, hle, havail, hserved, ?_⟩
  rcases Nat.eq_zero_or_pos need with hzero | hpos
  · exact Or.inl hzero
  · obtain ⟨j, hj, donor, hdonor, hne⟩ := Transfer.exists_distance h (by omega)
    refine Or.inr ⟨j, hj, donor, hdonor, hne, ?_⟩
    have hround : need * donors.length = (need - 1) * donors.length + donors.length := by
      obtain ⟨m, rfl⟩ : ∃ m, need = m + 1 := ⟨need - 1, by omega⟩
      rw [Nat.add_sub_cancel, Nat.succ_mul]
    simp only
    omega

/-- One iteration of the donor loop lowers the bound on the iterations still to come. -/
theorem Transfer.FillInv.next {n : Nat} {st₀ : Transfer} {s : Nat × Transfer}
    (h : Transfer.FillInv old donors recipients kept recipient need st₀ n s) (hnodup : donors.Nodup)
    (hrecipient : recipient ∈ recipients) (hdisj : recipient ∉ donors) (hcond : decide (0 < s.1) = true) :
    ∃ s' m, next donors recipient s = .ok s' ∧ m < n ∧
      Transfer.FillInv old donors recipients kept recipient need st₀ m s' := by
  obtain ⟨left, s⟩ := s
  obtain ⟨hinv, hle, hav, hserved, hdist⟩ := h
  simp only at hinv hle hav hserved hdist
  have hleft : 0 < left := by simpa using hcond
  obtain ⟨j, hj, donor, hdonor, hne, hbound⟩ := hdist.resolve_left (by omega)
  obtain ⟨cur, hcur, ⟨hempty, hnext⟩ | ⟨b, hb, hnext⟩⟩ := Transfer.next_cases hinv recipient left
  · -- an empty donor is skipped: the next one with a bucket is one position nearer
    have hjpos : j ≠ 0 := by
      rintro rfl
      rw [Nat.add_zero, Nat.mod_eq_of_lt hinv.idx_lt, hcur] at hdonor
      exact hne (Option.some.inj hdonor ▸ hempty)
    refine ⟨_, n - 1, hnext, by omega, hinv.advance, hle, hav,
      hserved.trans (Transfer.Served.advance _ _ _ _), Or.inr ?_⟩
    refine ⟨j - 1, by omega, donor, ?_, hne, by simp only; omega⟩
    rw [← hdonor]
    simp only [Nat.mod_add_mod]
    congr 2
    omega
  · -- a transfer: the bound drops to the rounds of the remaining need
    obtain ⟨hinv', hone⟩ := hinv.advance.give hnodup (List.mem_of_getElem? hcur) hrecipient hdisj hb
    have hserved' := (hserved.trans (Transfer.Served.advance _ _ _ _)).trans hone
    have hbase : ({ s with donorIdx := (s.donorIdx + 1) % donors.length } : Transfer).available donors
        = s.available donors := rfl
    have havail' := hone.available_eq
    rw [hbase] at havail'
    refine ⟨_, (left - 1) * donors.length, hnext, by omega, ?_⟩
    refine Transfer.FillInv.of_inv hinv' (by omega) (by omega) ?_
    rw [show need - (left - 1) = need - left + 0 + 1 by omega]
    exact hserved'

/-- **The donor loop is totally correct.**  When the pools hold what the recipient needs, every budget of
`need` rounds suffices, the invariant is kept, and the recipient has received exactly `need` buckets. -/
theorem Transfer.fill_ok (h : st.Inv old donors recipients kept) (hnodup : donors.Nodup)
    (hrecipient : recipient ∈ recipients) (hdisj : recipient ∉ donors) (havail : need ≤ st.available donors)
    {fuel : Nat} (hfuel : need * donors.length ≤ fuel) :
    ∃ st', fill fuel donors recipient need st = .ok st' ∧ st'.Inv old donors recipients kept ∧
      Transfer.Served donors recipient need st st' := by
  have hinit : Transfer.FillInv old donors recipients kept recipient need st (need * donors.length)
      (need, st) :=
    Transfer.FillInv.of_inv h le_rfl havail (by rw [Nat.sub_self]; exact Transfer.Served.advance _ _ _ _)
  obtain ⟨⟨left, st'⟩, m, hrun, hexit, hinv', -, -, hserved, -⟩ :
      ∃ s' m, whileLoop (fun s : Nat × Transfer => decide (0 < s.1)) (next donors recipient) fuel
          (need, st) = .ok s' ∧ decide (0 < s'.1) = false ∧
        Transfer.FillInv old donors recipients kept recipient need st m s' := by
    refine whileLoop_total _ ?_ _ _ hinit fuel hfuel
    exact fun n s hs hcond => hs.next hnodup hrecipient hdisj hcond
  obtain rfl : left = 0 := by simpa using hexit
  refine ⟨st', ?_, hinv', by simpa using hserved⟩
  simp only [fill, hrun, ok_bind, pure_eq_ok]

end Step

end Partition
end Koala
