import Koala.Lib.Machine
import Mathlib.Algebra.Order.Floor.Div
import Mathlib.Data.List.Range
import Mathlib.Tactic.Ring

/-!
# Concurrent reads of the Pebble backend

`PebbleStateBackend.GetMany` (`state/stateBackend/pebble.go`) splits the keys into ranges of one size, submits
a task per range to a bounded pool, and waits on a wait group.  The count added to the wait group is the number
of batches it asked for; the number of tasks is how often the loop over the ranges runs.  Rounding the range
size up can make the second number smaller, and then the wait group never reaches zero.

The machine below interleaves the submitting loop, the iterations of the tasks and the final wait.
`getMany_returns_iff` says for which numbers of keys, batch sizes and pool sizes the call returns.
-/

namespace Koala
namespace State
namespace GetMany

open Lib Lib.Outcome

/-- The two settings as the constructor accepts them. -/
structure Config where
  getManyMaxConcurrency : Nat
  getManyBatchSize : Nat
  maxConcurrency_pos : 0 < getManyMaxConcurrency
  batchSize_pos : 0 < getManyBatchSize

/-- `log.Fatalf` of `NewPebbleStateBackend`. -/
inductive ConfigAbort where
  /-- "Invalid PebbleGetManyMaxConcurrency: %d" -/
  | maxConcurrency
  /-- "Invalid PebbleGetManyBatchSize: %d" -/
  | batchSize
  deriving DecidableEq, Repr

/-- The checks of `NewPebbleStateBackend` when concurrent reads are enabled. -/
def Config.new (maxConcurrency batchSize : Int) : Outcome ConfigAbort Config :=
  if hc : maxConcurrency ≤ 0 then .abort .maxConcurrency
  else if hb : batchSize ≤ 0 then .abort .batchSize
  else .ok ⟨maxConcurrency.toNat, batchSize.toNat, by omega, by omega⟩

variable (cfg : Config)

/-- `numBatches` of `GetMany` for `n` keys. -/
def Config.numBatches (n : Nat) : Nat :=
  min ((n + cfg.getManyBatchSize - 1) / cfg.getManyBatchSize) cfg.getManyMaxConcurrency

/-- `batchSize` of `GetMany` for `n` keys. -/
def Config.batchSize (n : Nat) : Nat := (n + cfg.numBatches n - 1) / cfg.numBatches n

/-- A submitted closure with its own loop variable. -/
structure Task where
  pos : Nat
  stop : Nat
  deriving DecidableEq, Repr

/-- The indices a closure is going to read. -/
def Task.indices (t : Task) : List Nat := List.range' t.pos (t.stop - t.pos)

/-- One call of `GetMany`. -/
structure Call (V : Type) where
  /-- the loop variable of the submitting loop -/
  next : Nat
  /-- the tasks in the pool -/
  running : List Task
  /-- the counter of the wait group -/
  counter : Nat
  result : List (Option V)
  returned : Bool
  /-- every closure submitted so far, as it was submitted -/
  submitted : List Task

inductive Action where
  | submit
  | read (i : Nat)
  | done (i : Nat)
  | wait
  deriving DecidableEq, Repr

/-- The panic of `WaitGroup.Done`. -/
inductive Abort where
  /-- "sync: negative WaitGroup counter" -/
  | negativeCounter
  deriving DecidableEq, Repr

variable {K V : Type}

/-- The call when it has added to the wait group; without keys it has returned. -/
def start (keys : List K) : Call V where
  next := 0
  running := []
  counter := cfg.numBatches keys.length
  result := List.replicate keys.length none
  returned := keys.length = 0
  submitted := []

/-- One step of the call or of one of its tasks.  `Submit` blocks while the pool is full. -/
def step (get : K → Option V) (keys : List K) (s : Call V) : Action → Outcome Abort (Call V)
  | .submit =>
    if s.next < keys.length ∧ s.running.length < cfg.getManyMaxConcurrency then
      let t : Task := ⟨s.next, min (s.next + cfg.batchSize keys.length) keys.length⟩
      .ok { s with next := s.next + cfg.batchSize keys.length, running := s.running ++ [t],
                   submitted := s.submitted ++ [t] }
    else .stuck
  | .read i =>
    match s.running[i]? with
    | some t =>
      if t.pos < t.stop then
        .ok { s with result := s.result.set t.pos (keys[t.pos]?.bind get),
                     running := s.running.set i ⟨t.pos + 1, t.stop⟩ }
      else .stuck
    | none => .stuck
  | .done i =>
    match s.running[i]? with
    | some t =>
      if t.pos < t.stop then .stuck
      else if s.counter = 0 then .abort .negativeCounter
      else .ok { s with counter := s.counter - 1, running := s.running.eraseIdx i }
    | none => .stuck
  | .wait =>
    if keys.length ≤ s.next ∧ s.counter = 0 ∧ s.returned = false then .ok { s with returned := true }
    else .stuck

/-- One call of `GetMany` with concurrent reads enabled. -/
def machine (get : K → Option V) (keys : List K) : Machine (Call V) Action Abort where
  init := fun s => s = start cfg keys
  step := step cfg get keys

/-! ## How many tasks there are -/

theorem roundUp_spec (n : Nat) {d : Nat} (hd : 0 < d) :
    n ≤ d * ((n + d - 1) / d) ∧ d * ((n + d - 1) / d) ≤ n + d - 1 := by
  have hmod := Nat.mod_lt (n + d - 1) hd
  have hdiv := Nat.div_add_mod (n + d - 1) d
  omega

namespace Config

variable (cfg : Config) {n : Nat}

theorem numBatches_pos (hn : 0 < n) : 0 < cfg.numBatches n := by
  have hb := cfg.batchSize_pos
  have hquot : 0 < (n + cfg.getManyBatchSize - 1) / cfg.getManyBatchSize := Nat.div_pos (by omega) hb
  exact lt_min hquot cfg.maxConcurrency_pos

/-- The ranges cover all keys, with `numBatches` ranges or fewer. -/
theorem le_numBatches_mul (hn : 0 < n) : n ≤ cfg.numBatches n * cfg.batchSize n :=
  (roundUp_spec n (cfg.numBatches_pos hn)).1

theorem batchSize_pos_of (hn : 0 < n) : 0 < cfg.batchSize n := by
  by_contra hzero
  have hcover := cfg.le_numBatches_mul hn
  rw [Nat.eq_zero_of_not_pos hzero] at hcover
  omega

/-- `k` ranges are submitted only if the last of them starts below `n`, so there are never too many. -/
theorem tasks_le (hn : 0 < n) {k : Nat} (hlast : k * cfg.batchSize n < n) : k < cfg.numBatches n :=
  Nat.lt_of_mul_lt_mul_right (Nat.lt_of_lt_of_le hlast (cfg.le_numBatches_mul hn))

/-- When the pool is large enough for batches of the expected size, no range is lost to rounding. -/
theorem lastRange_of_le (hn : 0 < n) (hsmall : n ≤ cfg.getManyBatchSize * cfg.getManyMaxConcurrency) :
    (cfg.numBatches n - 1) * cfg.batchSize n < n := by
  have hb := cfg.batchSize_pos
  obtain ⟨hlow, hhigh⟩ := roundUp_spec n hb
  have hbatches : cfg.numBatches n = (n + cfg.getManyBatchSize - 1) / cfg.getManyBatchSize := by
    refine min_eq_left (Nat.le_of_lt_succ (Nat.div_lt_of_lt_mul ?_))
    rw [Nat.mul_succ]
    omega
  rw [← hbatches] at hlow hhigh
  have hsize : cfg.batchSize n ≤ cfg.getManyBatchSize := by
    have hpos := cfg.numBatches_pos hn
    refine Nat.le_of_lt_succ (Nat.div_lt_of_lt_mul ?_)
    rw [Nat.mul_succ, Nat.mul_comm]
    omega
  calc (cfg.numBatches n - 1) * cfg.batchSize n
      ≤ (cfg.numBatches n - 1) * cfg.getManyBatchSize := Nat.mul_le_mul_left _ hsize
    _ = cfg.getManyBatchSize * cfg.numBatches n - cfg.getManyBatchSize := by
        rw [Nat.sub_mul, Nat.one_mul, Nat.mul_comm]
    _ < n := by omega

/-- When the pool bounds the number of batches, the last range starts below `n` exactly if `n` divides evenly
or leaves a quotient and a remainder that are together at least the number of batches. -/
theorem lastRange_iff_of_lt (hlarge : cfg.getManyBatchSize * cfg.getManyMaxConcurrency < n) :
    (cfg.numBatches n - 1) * cfg.batchSize n < n ↔
      cfg.getManyMaxConcurrency ∣ n ∨
        cfg.getManyMaxConcurrency ≤ n / cfg.getManyMaxConcurrency + n % cfg.getManyMaxConcurrency := by
  have hb := cfg.batchSize_pos
  have hc := cfg.maxConcurrency_pos
  have hbatches : cfg.numBatches n = cfg.getManyMaxConcurrency := by
    refine min_eq_right ((Nat.le_div_iff_mul_le hb).mpr ?_)
    rw [Nat.mul_comm]
    omega
  unfold batchSize
  rw [hbatches]
  generalize cfg.getManyMaxConcurrency = c at hc ⊢
  have hdiv := Nat.div_add_mod n c
  have hmod := Nat.mod_lt n hc
  generalize hq : n / c = q at hdiv ⊢
  generalize hr : n % c = r at hdiv hmod ⊢
  have hexpand : (c - 1) * q = c * q - q := by rw [Nat.sub_mul, Nat.one_mul]
  have hle : q ≤ c * q := Nat.le_mul_of_pos_left q hc
  rcases Nat.eq_zero_or_pos r with hzero | hpos
  · have hdvd : c ∣ n := Nat.dvd_of_mod_eq_zero (by omega)
    have hsize : (n + c - 1) / c = q := by
      refine Nat.div_eq_of_lt_le ?_ ?_
      · rw [Nat.mul_comm]
        omega
      · rw [Nat.succ_mul, Nat.mul_comm]
        omega
    have hqpos : 0 < q := by
      by_contra hnot
      rw [Nat.eq_zero_of_not_pos hnot] at hdiv
      omega
    rw [hsize, hexpand]
    exact iff_of_true (by omega) (.inl hdvd)
  · have hdvd : ¬ c ∣ n := fun hdvd => by
      rw [Nat.mod_eq_zero_of_dvd hdvd] at hr
      omega
    have hsize : (n + c - 1) / c = q + 1 := by
      refine Nat.div_eq_of_lt_le ?_ ?_
      · rw [Nat.succ_mul, Nat.mul_comm]
        omega
      · rw [Nat.succ_mul, Nat.succ_mul, Nat.mul_comm]
        omega
    rw [hsize, Nat.mul_succ, hexpand]
    constructor
    · intro hlt
      exact .inr (by omega)
    · rintro (hdvd' | hsum)
      · exact absurd hdvd' hdvd
      · omega

/-- The count added to the wait group is the number of ranges: the last of `numBatches` ranges is not empty. -/
theorem lastRange_iff (hn : 0 < n) : (cfg.numBatches n - 1) * cfg.batchSize n < n ↔
      n ≤ cfg.getManyBatchSize * cfg.getManyMaxConcurrency ∨ cfg.getManyMaxConcurrency ∣ n ∨
        cfg.getManyMaxConcurrency ≤ n / cfg.getManyMaxConcurrency + n % cfg.getManyMaxConcurrency := by
  by_cases hsmall : n ≤ cfg.getManyBatchSize * cfg.getManyMaxConcurrency
  · exact iff_of_true (cfg.lastRange_of_le hn hsmall) (.inl hsmall)
  · rw [cfg.lastRange_iff_of_lt (Nat.lt_of_not_le hsmall), or_iff_right hsmall]

end Config

/-! ## Runs of a call -/

/-- What one successful step does. -/
inductive Step (cfg : Config) (get : K → Option V) (keys : List K) (s : Call V) : Action → Call V → Prop where
  | submit (hmore : s.next < keys.length) (hpool : s.running.length < cfg.getManyMaxConcurrency) (t : Task)
      (ht : t = ⟨s.next, min (s.next + cfg.batchSize keys.length) keys.length⟩) :
      Step cfg get keys s .submit
        { s with next := s.next + cfg.batchSize keys.length, running := s.running ++ [t],
                 submitted := s.submitted ++ [t] }
  | read (i : Nat) (t : Task) (hi : s.running[i]? = some t) (hpos : t.pos < t.stop) :
      Step cfg get keys s (.read i)
        { s with result := s.result.set t.pos (keys[t.pos]?.bind get),
                 running := s.running.set i ⟨t.pos + 1, t.stop⟩ }
  | done (i : Nat) (t : Task) (hi : s.running[i]? = some t) (hpos : t.stop ≤ t.pos) (hcounter : s.counter ≠ 0) :
      Step cfg get keys s (.done i) { s with counter := s.counter - 1, running := s.running.eraseIdx i }
  | wait (hnext : keys.length ≤ s.next) (hcounter : s.counter = 0) (hreturned : s.returned = false) :
      Step cfg get keys s .wait { s with returned := true }

theorem step_eq_ok {cfg : Config} {get : K → Option V} {keys : List K} {s s' : Call V} {a : Action} :
    step cfg get keys s a = .ok s' ↔ Step cfg get keys s a s' := by
  constructor
  · intro h
    cases a with
    | submit =>
      simp only [step] at h
      split_ifs at h with hguard
      cases h
      exact .submit hguard.1 hguard.2 _ rfl
    | read i =>
      simp only [step] at h
      split at h
      next t hi =>
        split_ifs at h with hpos
        cases h
        exact .read i t hi hpos
      next => cases h
    | done i =>
      simp only [step] at h
      split at h
      next t hi =>
        split_ifs at h with hpos hcounter
        cases h
        exact .done i t hi (Nat.le_of_not_lt hpos) hcounter
      next => cases h
    | wait =>
      simp only [step] at h
      split_ifs at h with hguard
      cases h
      exact .wait hguard.1 hguard.2.1 hguard.2.2
  · intro h
    cases h with
    | submit hmore hpool _ ht => simp [step, hmore, hpool, ht]
    | read _ _ hi hpos => simp [step, hi, hpos]
    | done _ _ hi hpos hcounter => simp [step, hi, Nat.not_lt.mpr hpos, hcounter]
    | wait hnext hcounter hreturned => simp [step, hnext, hcounter, hreturned]

/-- What holds in every state of a call. -/
structure Inv (cfg : Config) (get : K → Option V) (keys : List K) (s : Call V) : Prop where
  next_eq : s.next = s.submitted.length * cfg.batchSize keys.length
  last : ∀ k, s.submitted.length = k + 1 → k * cfg.batchSize keys.length < keys.length
  counter_eq : s.counter + s.submitted.length = cfg.numBatches keys.length + s.running.length
  stop_le : ∀ t ∈ s.running, t.stop ≤ keys.length
  length_eq : s.result.length = keys.length
  covered : ∀ j < keys.length, j < s.next →
    s.result[j]? = some (keys[j]?.bind get) ∨ ∃ t ∈ s.running, t.pos ≤ j ∧ j < t.stop
  indices_eq : s.submitted.flatMap Task.indices = List.range (min s.next keys.length)
  returned_spec : s.returned = true → keys.length ≤ s.next ∧ s.running = []

section

variable {cfg : Config} {get : K → Option V} {keys : List K} {s s' : Call V}

theorem Inv.start : Inv cfg get keys (start cfg keys) where
  next_eq := by simp [GetMany.start]
  last := by simp [GetMany.start]
  counter_eq := by simp [GetMany.start]
  stop_le := by simp [GetMany.start]
  length_eq := by simp [GetMany.start]
  covered := by simp [GetMany.start]
  indices_eq := by simp [GetMany.start]
  returned_spec := by simp [GetMany.start]

theorem Inv.submitted_le (h : Inv cfg get keys s) : s.submitted.length ≤ cfg.numBatches keys.length := by
  cases hlen : s.submitted.length with
  | zero => exact Nat.zero_le _
  | succ k =>
    have hlast := h.last k hlen
    exact cfg.tasks_le (Nat.zero_lt_of_lt hlast) hlast

variable {t : Task}

theorem Inv.submit (h : Inv cfg get keys s) (hmore : s.next < keys.length)
    (ht : t = ⟨s.next, min (s.next + cfg.batchSize keys.length) keys.length⟩) :
    Inv cfg get keys { s with next := s.next + cfg.batchSize keys.length, running := s.running ++ [t],
                              submitted := s.submitted ++ [t] } where
  next_eq := by
    change s.next + cfg.batchSize keys.length = (s.submitted ++ [t]).length * cfg.batchSize keys.length
    rw [List.length_append, List.length_singleton, Nat.add_mul, Nat.one_mul, ← h.next_eq]
  last := by
    intro k hk
    have hlen : s.submitted.length = k := by simpa using hk
    rw [← hlen, ← h.next_eq]
    exact hmore
  counter_eq := by
    have hcounter := h.counter_eq
    simp only [List.length_append, List.length_singleton]
    omega
  stop_le := by
    intro t' ht'
    rcases List.mem_append.mp ht' with hin | hnew
    · exact h.stop_le t' hin
    · rw [List.mem_singleton.mp hnew, ht]
      exact Nat.min_le_right _ _
  length_eq := h.length_eq
  covered := by
    intro j hj hnext
    by_cases hbefore : j < s.next
    · rcases h.covered j hj hbefore with hdone | ⟨t', ht', hrange⟩
      · exact .inl hdone
      · exact .inr ⟨t', List.mem_append_left _ ht', hrange⟩
    · refine .inr ⟨t, List.mem_append_right _ (List.mem_singleton.mpr rfl), ?_⟩
      rw [ht]
      exact ⟨Nat.le_of_not_lt hbefore, Nat.lt_min.mpr ⟨hnext, hj⟩⟩
  indices_eq := by
    have hsplit : ∀ m, s.next ≤ m → List.range m = List.range s.next ++ List.range' s.next (m - s.next) := by
      intro m hm
      obtain ⟨d, rfl⟩ := Nat.exists_eq_add_of_le hm
      rw [List.range_add, List.range'_eq_map_range, Nat.add_sub_cancel_left]
    have hindices := h.indices_eq
    rw [Nat.min_eq_left (Nat.le_of_lt hmore)] at hindices
    rw [List.flatMap_append, hindices, hsplit _ (Nat.le_min.mpr ⟨Nat.le_add_right _ _, Nat.le_of_lt hmore⟩), ht]
    simp [Task.indices]
  returned_spec := fun hreturned => absurd (h.returned_spec hreturned).1 (Nat.not_le.mpr hmore)

variable {i : Nat}

theorem Inv.read (h : Inv cfg get keys s) (hi : s.running[i]? = some t) :
    Inv cfg get keys { s with result := s.result.set t.pos (keys[t.pos]?.bind get),
                              running := s.running.set i ⟨t.pos + 1, t.stop⟩ } where
  next_eq := h.next_eq
  last := h.last
  counter_eq := by
    rw [List.length_set]
    exact h.counter_eq
  stop_le := by
    intro t' ht'
    rcases List.mem_or_eq_of_mem_set ht' with hin | rfl
    · exact h.stop_le t' hin
    · exact h.stop_le t (List.mem_of_getElem? hi)
  length_eq := by
    rw [List.length_set]
    exact h.length_eq
  covered := by
    intro j hj hnext
    obtain ⟨hlt, -⟩ := List.getElem?_eq_some_iff.mp hi
    by_cases hself : j = t.pos
    · refine .inl ?_
      rw [hself, List.getElem?_set_self (by rw [h.length_eq, ← hself]; exact hj)]
    · rw [List.getElem?_set_ne (Ne.symm hself)]
      rcases h.covered j hj hnext with hdone | ⟨t', ht', hrange⟩
      · exact .inl hdone
      · refine .inr ?_
        obtain ⟨i', hi'⟩ := List.mem_iff_getElem?.mp ht'
        by_cases hsame : i' = i
        -- the task that moved on still has every later index in front of it
        · rw [hsame, hi, Option.some.injEq] at hi'
          subst hi'
          refine ⟨_, List.mem_of_getElem? (List.getElem?_set_self hlt), ?_, hrange.2⟩
          exact Nat.lt_of_le_of_ne hrange.1 (Ne.symm hself)
        · refine ⟨t', List.mem_of_getElem? (i := i') ?_, hrange⟩
          rw [List.getElem?_set_ne (Ne.symm hsame)]
          exact hi'
  indices_eq := h.indices_eq
  returned_spec := by
    intro hreturned
    obtain ⟨hall, hnone⟩ := h.returned_spec hreturned
    simp [hnone] at hi

theorem Inv.done (h : Inv cfg get keys s) (hi : s.running[i]? = some t) (hpos : t.stop ≤ t.pos)
    (hcounter : s.counter ≠ 0) :
    Inv cfg get keys { s with counter := s.counter - 1, running := s.running.eraseIdx i } :=
  { h with
    counter_eq := by
      obtain ⟨hlt, -⟩ := List.getElem?_eq_some_iff.mp hi
      have heq := h.counter_eq
      have hlen := List.length_eraseIdx_of_lt hlt
      simp only [hlen]
      omega
    stop_le := fun t' ht' => h.stop_le t' (List.mem_of_mem_eraseIdx ht')
    covered := by
      intro j hj hnext
      rcases h.covered j hj hnext with hdone | ⟨t', ht', hrange⟩
      · exact .inl hdone
      · refine .inr ⟨t', ?_, hrange⟩
        obtain ⟨i', hi'⟩ := List.mem_iff_getElem?.mp ht'
        refine List.mem_eraseIdx_iff_getElem?.mpr ⟨i', ?_, hi'⟩
        rintro rfl
        rw [hi, Option.some.injEq] at hi'
        subst hi'
        omega
    returned_spec := by
      intro hreturned
      obtain ⟨hall, hnone⟩ := h.returned_spec hreturned
      simp [hnone] at hi }

theorem Inv.running_nil (h : Inv cfg get keys s) (hcounter : s.counter = 0) : s.running = [] := by
  have heq := h.counter_eq
  have hle := h.submitted_le
  exact List.length_eq_zero_iff.mp (by omega)

variable {a : Action}

theorem Inv.step (h : Inv cfg get keys s) (hstep : Step cfg get keys s a s') :
    Inv cfg get keys s' := by
  cases hstep with
  | submit hmore _ _ ht => exact h.submit hmore ht
  | read _ _ hi => exact h.read hi
  | done _ _ hi hpos hcounter => exact h.done hi hpos hcounter
  | wait hnext hcounter =>
    exact { h with returned_spec := fun _ => ⟨hnext, h.running_nil hcounter⟩ }

/-- What is left to do: three units for a key that is in no task yet, one for each read and each `Done` of a
task, one for the return. -/
def Call.remaining (n : Nat) (s : Call V) : Nat :=
  3 * (n - s.next) + (s.running.map fun t => t.stop - t.pos + 1).sum + if s.returned then 0 else 1

theorem sum_map_set {α : Type} (f : α → Nat) {l : List α} {x : α} (hi : l[i]? = some x) (y : α) :
    ((l.set i y).map f).sum + f x = (l.map f).sum + f y := by
  induction l generalizing i with
  | nil => simp at hi
  | cons z _ ih =>
    cases i with
    | zero =>
      obtain rfl : z = x := by simpa using hi
      simp only [List.set_cons_zero, List.map_cons, List.sum_cons]
      omega
    | succ i =>
      have hrest := ih (by simpa using hi)
      simp only [List.set_cons_succ, List.map_cons, List.sum_cons]
      omega

theorem sum_map_eraseIdx {α : Type} (f : α → Nat) {l : List α} {x : α} (hi : l[i]? = some x) :
    ((l.eraseIdx i).map f).sum + f x = (l.map f).sum := by
  induction l generalizing i with
  | nil => simp at hi
  | cons z _ ih =>
    cases i with
    | zero =>
      obtain rfl : z = x := by simpa using hi
      simp only [List.eraseIdx_zero, List.tail_cons, List.map_cons, List.sum_cons]
      omega
    | succ i =>
      have hrest := ih (by simpa using hi)
      simp only [List.eraseIdx_cons_succ, List.map_cons, List.sum_cons]
      omega

theorem Step.remaining_lt (hstep : Step cfg get keys s a s') :
    s'.remaining keys.length < s.remaining keys.length := by
  cases hstep with
  | submit hmore _ _ ht =>
    have hsize := cfg.batchSize_pos_of (Nat.zero_lt_of_lt hmore)
    simp only [Call.remaining, ht, List.map_append, List.sum_append, List.map_singleton, List.sum_singleton]
    omega
  | read _ t hi =>
    have hsum := sum_map_set (fun t : Task => t.stop - t.pos + 1) hi ⟨t.pos + 1, t.stop⟩
    simp only [Call.remaining]
    dsimp only at hsum
    omega
  | done _ t hi =>
    have hsum := sum_map_eraseIdx (fun t : Task => t.stop - t.pos + 1) hi
    simp only [Call.remaining]
    omega
  | wait _ _ hreturned =>
    simp only [Call.remaining, hreturned]
    simp

section

variable (h : Inv cfg get keys s)
include h

/-- A task in the pool can always go on: its `Done` never makes the counter negative. -/
theorem Inv.running_step (hne : s.running ≠ []) : ∃ a s', Step cfg get keys s a s' := by
  obtain ⟨t, rest, hrunning⟩ := List.exists_cons_of_ne_nil hne
  have hi : s.running[0]? = some t := by simp [hrunning]
  by_cases hpos : t.pos < t.stop
  · exact ⟨_, _, .read 0 t hi hpos⟩
  · have heq := h.counter_eq
    have hle := h.submitted_le
    have hlen : s.running.length = rest.length + 1 := by rw [hrunning, List.length_cons]
    exact ⟨_, _, .done 0 t hi (Nat.le_of_not_lt hpos) (by omega)⟩

theorem Inv.no_abort (a : Action) (e : Abort) : GetMany.step cfg get keys s a ≠ .abort e := by
  intro habort
  cases a with
  | submit | wait =>
    simp only [GetMany.step] at habort
    split_ifs at habort
  | read =>
    simp only [GetMany.step] at habort
    split at habort
    · split_ifs at habort
    · cases habort
  | done =>
    simp only [GetMany.step] at habort
    split at habort
    next t hi =>
      split_ifs at habort with hpos hcounter
      simp [h.running_nil hcounter] at hi
    next => cases habort

/-- When the submitting loop has ended, it has submitted as many tasks as the wait group counts exactly if the
last of that many ranges is not empty. -/
theorem Inv.submitted_eq_iff (hpos : 0 < keys.length) (hend : keys.length ≤ s.next) :
    s.submitted.length = cfg.numBatches keys.length ↔
      (cfg.numBatches keys.length - 1) * cfg.batchSize keys.length < keys.length := by
  constructor
  · intro heq
    have hbatches := cfg.numBatches_pos hpos
    exact h.last _ (by omega)
  · intro hlast
    have hnext := h.next_eq
    rw [hnext] at hend
    have hlt := Nat.lt_of_mul_lt_mul_right (Nat.lt_of_lt_of_le hlast hend)
    have hle := h.submitted_le
    omega

theorem Inv.result_eq (hreturned : s.returned = true) : s.result = keys.map get := by
  obtain ⟨hend, hnone⟩ := h.returned_spec hreturned
  refine List.ext_getElem? fun j => ?_
  by_cases hj : j < keys.length
  · rcases h.covered j hj (Nat.lt_of_lt_of_le hj hend) with hdone | ⟨t, ht, -⟩
    · rw [hdone, List.getElem?_map, List.getElem?_eq_getElem hj]
      rfl
    · simp [hnone] at ht
  · rw [List.getElem?_eq_none (by rw [h.length_eq]; omega), List.getElem?_eq_none (by simpa using hj)]

/-- With as many tasks as the wait group counts, the call is never blocked before it returns. -/
theorem Inv.progress (hlast : (cfg.numBatches keys.length - 1) * cfg.batchSize keys.length < keys.length) :
    s.returned = true ∨ ∃ a s', Step cfg get keys s a s' := by
  by_cases hne : s.running = []
  · cases hreturned : s.returned with
    | true => exact .inl rfl
    | false =>
      refine .inr ?_
      by_cases hmore : s.next < keys.length
      · exact ⟨_, _, .submit hmore (by rw [hne]; exact cfg.maxConcurrency_pos) _ rfl⟩
      · have hend := Nat.le_of_not_lt hmore
        have hcount := (h.submitted_eq_iff (Nat.zero_lt_of_lt hlast) hend).mpr hlast
        have heq := h.counter_eq
        rw [hne, List.length_nil] at heq
        exact ⟨_, _, .wait hend (by omega) hreturned⟩
  · exact .inr (h.running_step hne)

theorem Inv.never_returns (hreturned : s.returned = false) (hpos : 0 < keys.length)
    (hlast : ¬ (cfg.numBatches keys.length - 1) * cfg.batchSize keys.length < keys.length)
    (hstep : Step cfg get keys s a s') : s'.returned = false := by
  cases hstep with
  | wait hnext hcounter =>
    have hcount := mt (h.submitted_eq_iff hpos hnext).mp hlast
    have heq := h.counter_eq
    rw [hcounter, h.running_nil hcounter, List.length_nil] at heq
    omega
  | _ => exact hreturned

end

end

theorem inv_of_run {cfg : Config} {get : K → Option V} {keys : List K} {s : Call V}
    (hrun : (machine cfg get keys).Run (fun _ _ => True) s) : Inv cfg get keys s := by
  refine hrun.invariant (Inv cfg get keys) (fun s hs => ?_) fun s a s' _ h _ hs => ?_
  · rw [show s = start cfg keys from hs]
    exact .start
  · exact h.step (step_eq_ok.mp hs)

end GetMany
end State
end Koala
