import Koala.Lib.Codec
import Koala.Partition.EvenPolicy

/-!
# The ring of tokens

The hash policies sort the tokens of their workers and give each token the buckets after its own up to the next
token's (`internal/keyby/partition`).  What comes out depends only on the set of tokens: the owner of a bucket is the
worker of the greatest token before it, and the greatest token of all owns what lies before the first (`Owns`).
`placeTokens_owns` relates the loops with their ranges to this.
-/

namespace Koala
namespace Partition

open Lib Lib.Outcome

/-! ## Tokens on the ring -/

/-- `hash.HashFunc`. -/
abbrev HashFunc := Bytes → UInt64

/-- `Token`. -/
structure Token where
  hashValue : UInt64
  bucketIdx : Nat
  workerID : WorkerID
  deriving DecidableEq, Repr

/-- The comparison handed to `sort.Slice`. -/
def Token.less (a b : Token) : Bool :=
  if a.bucketIdx = b.bucketIdx then decide (a.hashValue < b.hashValue) else decide (a.bucketIdx < b.bucketIdx)

/-- `sort.Slice`: some sorted rearrangement.  The sort is not stable, so which one is left open. -/
structure TokenSort where
  sort : List Token → List Token
  perm : ∀ l, (sort l).Perm l
  sorted : ∀ l, (sort l).Pairwise fun a b => b.less a = false

theorem TokenSort.ne_nil (s : TokenSort) {l : List Token} (h : l ≠ []) : s.sort l ≠ [] := by
  intro hnil
  have hperm := s.perm l
  rw [hnil] at hperm
  exact h hperm.nil_eq.symm

/-- `for i := lo; i < hi; i++ { buckets[i] = x }`. -/
def setRange {α : Type} (buckets : List α) (lo hi : Nat) (x : α) : List α :=
  (List.range' lo (hi - lo)).foldl (fun bs i => bs.set i x) buckets

/-- The last loop of `GenerateBuckets`: every token but the last owns the buckets up to the next token. -/
def fillBetween {α : Type} (bucket : WorkerID → α) : List Token → List α → List α
  | a :: b :: rest, buckets =>
    fillBetween bucket (b :: rest) (setRange buckets (a.bucketIdx + 1) (b.bucketIdx + 1) (bucket a.workerID))
  | _, buckets => buckets

/-- The bucket list made from sorted tokens; `bucket` builds an entry, `empty` is the zero value of `make`. -/
def placeTokens {α : Type} (numBuckets : Nat) (bucket : WorkerID → α) (empty : α) (tokens : List Token) :
    Outcome PolicyAbort (List α) :=
  match tokens.head?, tokens.getLast? with
  | some first, some last =>
    let buckets := List.replicate numBuckets empty
    let buckets := setRange buckets (last.bucketIdx + 1) numBuckets (bucket last.workerID)
    let buckets := setRange buckets 0 (first.bucketIdx + 1) (bucket last.workerID)
    .ok (fillBetween bucket tokens buckets)
  | _, _ => .abort .indexOutOfRange

variable {α : Type}

theorem length_setRange (buckets : List α) (lo hi : Nat) (x : α) :
    (setRange buckets lo hi x).length = buckets.length := by
  unfold setRange
  induction List.range' lo (hi - lo) generalizing buckets with
  | nil => rfl
  | cons _ _ ih => rw [List.foldl_cons, ih, List.length_set]

variable (bucket : WorkerID → α) (tokens : List Token)

theorem length_fillBetween (buckets : List α) :
    (fillBetween bucket tokens buckets).length = buckets.length := by
  induction tokens generalizing buckets with
  | nil => rfl
  | cons _ rest ih =>
    cases rest with
    | nil => rfl
    | cons b rest => rw [fillBetween, ih, length_setRange]

/-- Writing a range: the cells inside hold the new value, the others are unchanged. -/
theorem getElem?_setRange (buckets : List α) (lo hi : Nat) (x : α) (i : Nat) :
    (setRange buckets lo hi x)[i]? = if lo ≤ i ∧ i < hi ∧ i < buckets.length then some x else buckets[i]? := by
  unfold setRange
  obtain ⟨n, hn⟩ : ∃ n, n = hi - lo := ⟨_, rfl⟩
  rw [← hn]
  induction n generalizing lo buckets with
  | zero => simp; omega
  | succ _ ih =>
    rw [List.range'_succ, List.foldl_cons, ih _ (lo + 1) (by omega), List.length_set, List.getElem?_set]
    by_cases hin : lo ≤ i ∧ i < hi ∧ i < buckets.length
    · by_cases hfirst : lo = i
      · have hnot : ¬ (lo + 1 ≤ i ∧ i < hi ∧ i < buckets.length) := by omega
        rw [if_neg hnot, if_pos hfirst, if_pos hin, hfirst, if_pos hin.2.2]
      · rw [if_pos (by omega), if_pos hin]
    · rw [if_neg (by omega), if_neg hin]
      split_ifs with hfirst hlt
      · omega
      · subst hfirst
        exact (List.getElem?_eq_none (by omega)).symm
      · rfl

/-! ## The order of the tokens -/

namespace Token

theorem less_eq_false {a b : Token} :
    a.less b = false ↔ b.bucketIdx < a.bucketIdx ∨ (b.bucketIdx = a.bucketIdx ∧ b.hashValue ≤ a.hashValue) := by
  unfold less
  split_ifs with heq
  · simp [heq, UInt64.not_lt]
  · rw [decide_eq_false_iff_not]
    omega

theorem less_self (a : Token) : a.less a = false := less_eq_false.mpr (.inr ⟨rfl, UInt64.le_refl _⟩)

theorem hashValue_eq_of_less {a b : Token} (hab : a.less b = false) (hba : b.less a = false) :
    a.hashValue = b.hashValue := by
  rw [less_eq_false] at hab hba
  rcases hab with hab | ⟨heq, hab⟩
  · omega
  · rcases hba with hba | ⟨-, hba⟩
    · omega
    · exact UInt64.le_antisymm hba hab

end Token

/-- The token that a bucket belongs to: the greatest one before the bucket, or if there is none, the greatest. -/
def Owns (i : Nat) (t : Token) : Prop :=
  t ∈ tokens ∧
    ((t.bucketIdx < i ∧ ∀ u ∈ tokens, u.bucketIdx < i → t.less u = false) ∨
      ((∀ u ∈ tokens, i ≤ u.bucketIdx) ∧ ∀ u ∈ tokens, t.less u = false))

variable {tokens tokens' : List Token} {i : Nat}

theorem Owns.of_perm (hperm : tokens.Perm tokens') {t : Token}
    (h : Owns tokens i t) : Owns tokens' i t := by
  unfold Owns at h ⊢
  simpa only [hperm.mem_iff] using h

/-- Two token sets give a bucket to tokens with the same hash value if each of these is in both sets. -/
theorem Owns.agree {t t' : Token} (h : Owns tokens i t)
    (h' : Owns tokens' i t') (ht : t ∈ tokens') (ht' : t' ∈ tokens) : t.hashValue = t'.hashValue := by
  rcases h.2 with ⟨hlt, hmax⟩ | ⟨hnone, hmax⟩
  · rcases h'.2 with ⟨hlt', hmax'⟩ | ⟨hnone', -⟩
    · exact Token.hashValue_eq_of_less (hmax t' ht' hlt') (hmax' t ht hlt)
    · have hge := hnone' t ht
      omega
  · rcases h'.2 with ⟨hlt', -⟩ | ⟨-, hmax'⟩
    · have hge := hnone t' ht'
      omega
    · exact Token.hashValue_eq_of_less (hmax t' ht') (hmax' t ht)

/-! ## The loops -/

theorem getElem?_fillBetween_of_outside
    (hsorted : tokens.Pairwise fun a b => b.less a = false) (buckets : List α)
    (hout : (∀ t ∈ tokens, i ≤ t.bucketIdx) ∨ ∀ t ∈ tokens, t.bucketIdx < i) :
    (fillBetween bucket tokens buckets)[i]? = buckets[i]? := by
  induction tokens generalizing buckets with
  | nil => rfl
  | cons a rest ih =>
    cases rest with
    | nil => rfl
    | cons b rest =>
      have hrest : (∀ t ∈ b :: rest, i ≤ t.bucketIdx) ∨ ∀ t ∈ b :: rest, t.bucketIdx < i :=
        hout.imp (fun h t ht => h t (List.mem_cons_of_mem a ht)) fun h t ht => h t (List.mem_cons_of_mem a ht)
      have hcell : ¬ (a.bucketIdx + 1 ≤ i ∧ i < b.bucketIdx + 1 ∧ i < buckets.length) := by
        rcases hout with hle | hlt
        · have ha := hle a List.mem_cons_self
          omega
        · have hb := hlt b (List.mem_cons_of_mem a List.mem_cons_self)
          omega
      rw [fillBetween, ih hsorted.of_cons _ hrest, getElem?_setRange, if_neg hcell]

/-- Between two neighbouring tokens the last loop writes the worker of the first of them. -/
theorem getElem?_fillBetween_of_between {before after : List Token} {t u : Token}
    (hsorted : (before ++ t :: u :: after).Pairwise fun a b => b.less a = false) (buckets : List α)
    (hi : i < buckets.length) (hlt : t.bucketIdx < i) (hle : i ≤ u.bucketIdx) :
    (fillBetween bucket (before ++ t :: u :: after) buckets)[i]? = some (bucket t.workerID) := by
  induction before generalizing buckets with
  | nil =>
    have hsorted' := List.Pairwise.of_cons hsorted
    have hout : ∀ v ∈ u :: after, i ≤ v.bucketIdx := by
      intro v hv
      rcases List.mem_cons.mp hv with rfl | hv
      · exact hle
      · have hless := Token.less_eq_false.mp ((List.pairwise_cons.mp hsorted').1 v hv)
        omega
    rw [List.nil_append, fillBetween, getElem?_fillBetween_of_outside bucket hsorted' _ (.inl hout),
      getElem?_setRange, if_pos ⟨hlt, by omega, hi⟩]
  | cons a before ih =>
    have hcons : ∃ b rest, before ++ t :: u :: after = b :: rest := by
      cases before with
      | nil => exact ⟨t, u :: after, rfl⟩
      | cons b before => exact ⟨b, before ++ t :: u :: after, rfl⟩
    obtain ⟨b, rest, hrest⟩ := hcons
    have hinner := ih (List.Pairwise.of_cons hsorted)
      (setRange buckets (a.bucketIdx + 1) (b.bucketIdx + 1) (bucket a.workerID)) (by rwa [length_setRange])
    rw [List.cons_append, hrest, fillBetween, ← hrest]
    exact hinner

theorem exists_between (hsome : ∃ t ∈ tokens, t.bucketIdx < i)
    (hlast : ∀ t ∈ tokens.getLast?, i ≤ t.bucketIdx) :
    ∃ before t u after, tokens = before ++ t :: u :: after ∧ t.bucketIdx < i ∧ i ≤ u.bucketIdx := by
  induction tokens with
  | nil =>
    obtain ⟨t, ht, -⟩ := hsome
    cases ht
  | cons a rest ih =>
    cases rest with
    | nil =>
      obtain ⟨t, ht, hlt⟩ := hsome
      have hle := hlast a rfl
      rw [List.mem_singleton.mp ht] at hlt
      omega
    | cons b rest =>
      by_cases hhere : a.bucketIdx < i ∧ i ≤ b.bucketIdx
      · exact ⟨[], a, b, rest, rfl, hhere.1, hhere.2⟩
      · have hsome' : ∃ t ∈ b :: rest, t.bucketIdx < i := by
          obtain ⟨t, ht, hlt⟩ := hsome
          rcases List.mem_cons.mp ht with rfl | ht
          · exact ⟨b, List.mem_cons_self, by omega⟩
          · exact ⟨t, ht, hlt⟩
        obtain ⟨before, t, u, after, heq, hlt, hle⟩ := ih hsome' (by simpa using hlast)
        exact ⟨a :: before, t, u, after, by rw [heq]; rfl, hlt, hle⟩

/-- **The loops give each bucket to the token that owns it.** -/
theorem placeTokens_owns (empty : α) (numBuckets : Nat)
    (hne : tokens ≠ []) (hsorted : tokens.Pairwise fun a b => b.less a = false) :
    ∃ buckets, placeTokens numBuckets bucket empty tokens = .ok buckets ∧ buckets.length = numBuckets ∧
      ∀ i < numBuckets, ∃ t, Owns tokens i t ∧ buckets[i]? = some (bucket t.workerID) := by
  obtain ⟨first, rest, hcons⟩ := List.exists_cons_of_ne_nil hne
  obtain ⟨init, last, hconcat⟩ := (List.eq_nil_or_concat tokens).resolve_left hne
  rw [List.concat_eq_append] at hconcat
  have hhead : tokens.head? = some first := by rw [hcons]; rfl
  have hlast : tokens.getLast? = some last := by rw [hconcat, List.getLast?_concat]
  have hgreatest : ∀ u ∈ tokens, last.less u = false := by
    intro u hu
    rw [hconcat] at hsorted hu
    rcases List.mem_append.mp hu with hu | hu
    · exact (List.pairwise_append.mp hsorted).2.2 u hu last (List.mem_singleton.mpr rfl)
    · rw [List.mem_singleton.mp hu]
      exact last.less_self
  have hfirst : ∀ u ∈ tokens, first.bucketIdx ≤ u.bucketIdx := by
    intro u hu
    rw [hcons] at hsorted hu
    rcases List.mem_cons.mp hu with rfl | hu
    · exact le_rfl
    · have hless := Token.less_eq_false.mp ((List.pairwise_cons.mp hsorted).1 u hu)
      omega
  have hlastMem : last ∈ tokens := by rw [hconcat]; exact List.mem_append_right _ (List.mem_singleton.mpr rfl)
  unfold placeTokens
  simp only [hhead, hlast]
  refine ⟨_, rfl, ?_, fun i hi => ?_⟩
  · rw [length_fillBetween, length_setRange, length_setRange, List.length_replicate]
  by_cases hbefore : i ≤ first.bucketIdx
  · -- before the first token
    refine ⟨last, ⟨hlastMem, .inr ⟨fun u hu => hbefore.trans (hfirst u hu), hgreatest⟩⟩, ?_⟩
    rw [getElem?_fillBetween_of_outside bucket hsorted _ (.inl fun u hu => hbefore.trans (hfirst u hu)),
      getElem?_setRange, if_pos ⟨Nat.zero_le i, by omega, by rwa [length_setRange, List.length_replicate]⟩]
  by_cases hafter : last.bucketIdx < i
  · -- after the last token
    have hbelow : ∀ u ∈ tokens, u.bucketIdx < i := by
      intro u hu
      have hless := Token.less_eq_false.mp (hgreatest u hu)
      omega
    refine ⟨last, ⟨hlastMem, .inl ⟨hafter, fun u hu _ => hgreatest u hu⟩⟩, ?_⟩
    rw [getElem?_fillBetween_of_outside bucket hsorted _ (.inr hbelow), getElem?_setRange,
      if_neg (by omega), getElem?_setRange, if_pos ⟨hafter, hi, by rwa [List.length_replicate]⟩]
  · -- between two tokens
    have hfirstMem : first ∈ tokens := by rw [hcons]; exact List.mem_cons_self
    obtain ⟨before, t, u, after, heq, hlt, hle⟩ := exists_between (i := i) ⟨first, hfirstMem, by omega⟩ (fun t ht => by
      obtain rfl := Option.some.inj (hlast.symm.trans ht)
      exact not_lt.mp hafter)
    refine ⟨t, ⟨by rw [heq]; simp, .inl ⟨hlt, fun v hv hvlt => ?_⟩⟩, ?_⟩
    · -- a token below the bucket comes before the next one, so it is not greater
      rw [heq] at hsorted hv
      obtain ⟨-, hrest, hcross⟩ := List.pairwise_append.mp hsorted
      rcases List.mem_append.mp hv with hv | hv
      · exact hcross v hv t List.mem_cons_self
      · rcases List.mem_cons.mp hv with rfl | hv
        · exact v.less_self
        · exfalso
          rcases List.mem_cons.mp hv with rfl | hv
          · omega
          · have hless := Token.less_eq_false.mp
              ((List.pairwise_cons.mp (List.pairwise_cons.mp hrest).2).1 v hv)
            omega
    · rw [heq] at hsorted ⊢
      exact getElem?_fillBetween_of_between bucket hsorted _
        (by rwa [length_setRange, length_setRange, List.length_replicate]) hlt hle

end Partition
end Koala
