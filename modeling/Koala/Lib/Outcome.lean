import Mathlib.Data.List.Basic
import Mathlib.Tactic.SplitIfs

/-!
# Outcomes of Go computations

The modelled code either returns, kills the whole process (`log.Fatalf`, an index out of range, a nil
dereference), or has no result to show: an action that is not enabled in a state, or a loop that is still
running when its iteration budget is spent.  `Outcome` is the common result type of all the executable
models, with the monad structure that lets them be written in the order of the source.

`whileLoop` is the Go statement `for cond { body }`.  A body that never makes `cond` false shows up as
`stuck` for every budget, so "the loop terminates" is a statement of its own; `whileLoop_total` is the rule
that proves it, from an invariant indexed by a bound on the iterations still to come.
-/

namespace Koala
namespace Lib

/-- The result of running a piece of Go code. -/
inductive Outcome (ε α : Type) where
  | ok (a : α)
  | abort (e : ε)
  | stuck
  deriving DecidableEq, Repr

namespace Outcome

variable {ε α β : Type}

/-- Sequencing: the first part that does not return decides the result. -/
def bind (x : Outcome ε α) (f : α → Outcome ε β) : Outcome ε β :=
  match x with
  | ok a => f a
  | abort e => abort e
  | stuck => stuck

instance : Monad (Outcome ε) where
  pure := ok
  bind := bind

@[simp] theorem pure_eq_ok (a : α) : (pure a : Outcome ε α) = ok a := rfl

@[simp] theorem ok_bind (a : α) (f : α → Outcome ε β) : (ok a >>= f) = f a := rfl

@[simp] theorem abort_bind (e : ε) (f : α → Outcome ε β) : (abort e >>= f) = abort e := rfl

@[simp] theorem stuck_bind (f : α → Outcome ε β) : (stuck >>= f) = stuck := rfl

variable {γ : Type}

theorem bind_bind (x : Outcome ε α) (f : α → Outcome ε β) (g : β → Outcome ε γ) :
    (x >>= f) >>= g = x >>= fun a => f a >>= g := by
  cases x <;> rfl


variable {x : Outcome ε α}

variable {f : α → Outcome ε β}

theorem bind_eq_ok {b : β} : (x >>= f) = ok b ↔ ∃ a, x = ok a ∧ f a = ok b := by
  cases x <;> simp

variable {e : ε}

/-- A sequence aborts in its first part or, after that returned, in its second. -/
theorem bind_eq_abort : (x >>= f) = abort e ↔ x = abort e ∨ ∃ a, x = ok a ∧ f a = abort e := by
  cases x <;> simp

/-- Rename the aborts of a computation, where one component calls another. -/
def mapAbort {ε' : Type} (f : ε → ε') : Outcome ε α → Outcome ε' α
  | ok a => ok a
  | abort e => abort (f e)
  | stuck => stuck

variable {ε' : Type}

@[simp] theorem mapAbort_eq_ok {f : ε → ε'} {a : α} :
    x.mapAbort f = ok a ↔ x = ok a := by
  cases x <;> simp [mapAbort]

theorem mapAbort_eq_abort {f : ε → ε'} {e' : ε'} :
    x.mapAbort f = abort e' ↔ ∃ e, x = abort e ∧ f e = e' := by
  cases x <;> simp [mapAbort]

/-- `if bad { log.Fatalf(e) }`: the check that guards most of the source's aborts. -/
def check (bad : Prop) [Decidable bad] (e : ε) : Outcome ε Unit :=
  if bad then abort e else ok ()

theorem check_eq_ok {bad : Prop} [Decidable bad] (h : ¬ bad) : (check bad e : Outcome ε Unit) = ok () :=
  if_neg h

theorem check_bind_eq_ok {bad : Prop} [Decidable bad] {f : Unit → Outcome ε β} {b : β} :
    (check bad e >>= f) = ok b ↔ ¬ bad ∧ f () = ok b := by
  unfold check
  split_ifs with h <;> simp [h]

/-- Run a fallible body over a list, left to right, carrying the state: Go's `for _, x := range xs`. -/
def forEach (xs : List α) (body : β → α → Outcome ε β) (s : β) : Outcome ε β :=
  match xs with
  | [] => ok s
  | x :: rest => body s x >>= forEach rest body

@[simp] theorem forEach_nil (body : β → α → Outcome ε β) (s : β) : forEach [] body s = ok s := rfl

@[simp] theorem forEach_cons (x : α) (xs : List α) (body : β → α → Outcome ε β) (s : β) :
    forEach (x :: xs) body s = (body s x >>= forEach xs body) := rfl

theorem forEach_append (xs ys : List α) (body : β → α → Outcome ε β) (s : β) :
    forEach (xs ++ ys) body s = (forEach xs body s >>= forEach ys body) := by
  induction xs generalizing s with
  | nil => rfl
  | cons x xs ih =>
    rw [List.cons_append, forEach_cons, forEach_cons]
    cases body s x with
    | ok s' => exact ih s'
    | abort e => rfl
    | stuck => rfl

theorem forEach_flatMap (xs : List γ) (g : γ → List α) (body : β → α → Outcome ε β) (s : β) :
    forEach (xs.flatMap g) body s = forEach xs (fun s x => forEach (g x) body s) s := by
  induction xs generalizing s with
  | nil => rfl
  | cons x xs ih =>
    rw [List.flatMap_cons, forEach_append, forEach_cons]
    cases forEach (g x) body s with
    | ok s' => exact ih s'
    | abort e => rfl
    | stuck => rfl

theorem forEach_map (xs : List γ) (g : γ → α) (body : β → α → Outcome ε β) (s : β) :
    forEach (xs.map g) body s = forEach xs (fun s x => body s (g x)) s := by
  induction xs generalizing s with
  | nil => rfl
  | cons x xs ih =>
    rw [List.map_cons, forEach_cons, forEach_cons]
    exact congrArg (body s (g x) >>= ·) (funext fun s => ih s)

variable {body body' : β → α → Outcome ε β} {xs : List α} {s : β}

theorem forEach_congr (h : ∀ x ∈ xs, ∀ s, body s x = body' s x) :
    forEach xs body s = forEach xs body' s := by
  induction xs generalizing s with
  | nil => rfl
  | cons x xs ih =>
    rw [forEach_cons, forEach_cons, h x (by simp)]
    cases body' s x with
    | ok s' => exact ih fun y hy => h y (by simp [hy])
    | abort e => rfl
    | stuck => rfl

theorem forEach_eq_foldl {g : β → α → β} (h : ∀ x ∈ xs, ∀ s, body s x = ok (g s x)) :
    forEach xs body s = ok (xs.foldl g s) := by
  induction xs generalizing s with
  | nil => rfl
  | cons x xs ih =>
    rw [forEach_cons, h x (by simp), ok_bind, ih fun y hy => h y (by simp [hy]), List.foldl_cons]

variable {r : β}

theorem forEach_mem_ok (h : forEach xs body s = ok r) {x : α} (hx : x ∈ xs) : ∃ s₁ s₂, body s₁ x = ok s₂ := by
  induction xs generalizing s with
  | nil => cases hx
  | cons y ys ih =>
    obtain ⟨s', hfirst, hrest⟩ := bind_eq_ok.mp h
    rcases List.mem_cons.mp hx with rfl | hin
    · exact ⟨s, s', hfirst⟩
    · exact ih hrest hin

/-- In a loop over distinct items, the one at hand is none of those done. -/
theorem notMem_done {done rest : List α} {x : α} (hnodup : xs.Nodup) (hsplit : xs = done ++ x :: rest) : x ∉ done := by
  rw [hsplit, List.nodup_append] at hnodup
  exact fun hx => hnodup.2.2 x hx x (by simp) rfl

theorem notMem_map_done {f : α → γ} {done rest : List α} {x : α} (hnodup : (xs.map f).Nodup)
    (hsplit : xs = done ++ x :: rest) : f x ∉ done.map f :=
  notMem_done hnodup (by rw [hsplit, List.map_append, List.map_cons])

/-- The rule for `for range`: an invariant of the processed part and the state that every iteration
re-establishes holds of the whole list when the loop returns, and the loop does return. -/
theorem forEach_total (inv : List α → β → Prop) (hinit : inv [] s)
    (hstep : ∀ done x rest s, xs = done ++ x :: rest → inv done s → ∃ s', body s x = ok s' ∧ inv (done ++ [x]) s') :
    ∃ s', forEach xs body s = ok s' ∧ inv xs s' := by
  suffices h : ∀ rest done s, xs = done ++ rest → inv done s →
      ∃ s', forEach rest body s = ok s' ∧ inv xs s' from h xs [] s rfl hinit
  intro rest
  induction rest with
  | nil =>
    intro done s hsplit hinv
    rw [List.append_nil] at hsplit
    exact ⟨s, rfl, hsplit ▸ hinv⟩
  | cons x rest ih =>
    intro done s hsplit hinv
    obtain ⟨s₁, hbody, hinv₁⟩ := hstep done x rest s hsplit hinv
    obtain ⟨s₂, hrest, hinv₂⟩ := ih (done ++ [x]) s₁ (by simpa using hsplit) hinv₁
    exact ⟨s₂, by rw [forEach_cons, hbody, ok_bind, hrest], hinv₂⟩

/-- A loop whose state is a function of the processed part. -/
theorem forEach_eq {f : List α → β} (h : ∀ done x rest, xs = done ++ x :: rest → body (f done) x = ok (f (done ++ [x]))) :
    forEach xs body (f []) = ok (f xs) := by
  have hloop : ∃ s', forEach xs body (f []) = ok s' ∧ s' = f xs := by
    refine forEach_total (fun done s => s = f done) rfl ?_
    rintro done x rest s hsplit rfl
    exact ⟨_, h done x rest hsplit, rfl⟩
  obtain ⟨s', hrun, rfl⟩ := hloop
  exact hrun

/-- The rule for a `for range` that returned: what every returning iteration preserves holds of the whole
list. -/
theorem forEach_partial (inv : List α → β → Prop) (hinit : inv [] s)
    (hstep : ∀ done x rest s s', xs = done ++ x :: rest → inv done s → body s x = ok s' → inv (done ++ [x]) s')
    (hloop : forEach xs body s = ok r) : inv xs r := by
  suffices h : ∀ rest done s, xs = done ++ rest → inv done s → forEach rest body s = ok r → inv xs r from
    h xs [] s rfl hinit hloop
  intro rest
  induction rest with
  | nil =>
    intro done s hsplit hinv hend
    cases hend
    rw [List.append_nil] at hsplit
    exact hsplit ▸ hinv
  | cons x rest ih =>
    intro done s hsplit hinv hcons
    rw [forEach_cons] at hcons
    obtain ⟨s₁, hbody, hrest⟩ := bind_eq_ok.mp hcons
    exact ih (done ++ [x]) s₁ (by simpa using hsplit) (hstep done x rest s s₁ hsplit hinv hbody) hrest

theorem forEach_simulation {body' : γ → α → Outcome ε' γ} (rel : β → γ → Prop)
    (hbody : ∀ s t x s', rel s t → body s x = ok s' → ∃ t', body' t x = ok t' ∧ rel s' t') {s' : β} {t : γ}
    (hrel : rel s t) (hloop : forEach xs body s = ok s') :
    ∃ t', forEach xs body' t = ok t' ∧ rel s' t' := by
  induction xs generalizing s t with
  | nil =>
    cases hloop
    exact ⟨t, rfl, hrel⟩
  | cons x xs ih =>
    obtain ⟨s₁, hfirst, hrest⟩ := bind_eq_ok.mp hloop
    obtain ⟨t₁, hfirst', hrel₁⟩ := hbody s t x s₁ hrel hfirst
    obtain ⟨t', hrest', hrel'⟩ := ih hrel₁ hrest
    exact ⟨t', by rw [forEach_cons, hfirst', ok_bind, hrest'], hrel'⟩

theorem forEach_eq_abort (h : forEach xs body s = abort e) : ∃ s', ∃ x ∈ xs, body s' x = abort e := by
  induction xs generalizing s with
  | nil => cases h
  | cons x xs ih =>
    rw [forEach_cons] at h
    rcases bind_eq_abort.mp h with hfirst | ⟨s₁, -, hrest⟩
    · exact ⟨s, x, by simp, hfirst⟩
    · obtain ⟨s', y, hy, hbody⟩ := ih hrest
      exact ⟨s', y, by simp [hy], hbody⟩

/-- A loop over a body that returns at least where another one does returns the same there. -/
theorem forEach_mono (hbody : ∀ s x r, body s x = ok r → body' s x = ok r)
    (h : forEach xs body s = ok r) : forEach xs body' s = ok r := by
  induction xs generalizing s with
  | nil => exact h
  | cons x xs ih =>
    rw [forEach_cons] at h ⊢
    obtain ⟨s₁, hfirst, hrest⟩ := bind_eq_ok.mp h
    exact bind_eq_ok.mpr ⟨s₁, hbody s x s₁ hfirst, ih hrest⟩

theorem forEach_check {bad : α → Prop} [DecidablePred bad] {e : α → ε} (hpass : ∀ x ∈ xs, ¬ bad x) :
    forEach xs (fun _ x => check (bad x) (e x)) () = ok () := by
  induction xs with
  | nil => rfl
  | cons x xs ih =>
    rw [forEach_cons, check_eq_ok (hpass x (by simp)), ok_bind]
    exact ih fun y hy => hpass y (by simp [hy])

/-! ## Avoiding aborts -/

/-- The computation does not end in one of the `bad` aborts. -/
def Avoids (bad : ε → Prop) (x : Outcome ε α) : Prop := ∀ e, x = abort e → ¬ bad e

namespace Avoids

variable {bad : ε → Prop}

theorem ok (a : α) : Avoids bad (ok a : Outcome ε α) := nofun

theorem stuck : Avoids bad (stuck : Outcome ε α) := nofun

theorem abort {e : ε} (h : ¬ bad e) : Avoids bad (abort e : Outcome ε α) := by
  rintro e' heq
  rwa [← Outcome.abort.inj heq]

theorem bind {x : Outcome ε α} (hx : Avoids bad x)
    (hf : ∀ a, x = .ok a → Avoids bad (f a)) : Avoids bad (x >>= f) := by
  intro e heq
  rcases bind_eq_abort.mp heq with hfirst | ⟨a, ha, hrest⟩
  · exact hx e hfirst
  · exact hf a ha e hrest

theorem check {p : Prop} [Decidable p] {e : ε} (h : p → ¬ bad e) : Avoids bad (check p e) := by
  unfold Outcome.check
  split_ifs with hp
  · exact .abort (h hp)
  · exact .ok ()

theorem mapAbort {ε' : Type} {x : Outcome ε' α} {f : ε' → ε} (h : ∀ e, x = .abort e → ¬ bad (f e)) :
    Avoids bad (x.mapAbort f) := by
  cases x with
  | ok a => exact .ok a
  | abort e => exact .abort (h e rfl)
  | stuck => exact .stuck

theorem ite {p : Prop} [Decidable p] {x y : Outcome ε α} (hx : p → Avoids bad x) (hy : ¬ p → Avoids bad y) :
    Avoids bad (if p then x else y) := by
  split_ifs with hp
  · exact hx hp
  · exact hy hp

end Avoids

/-! ## Settling -/

/-- The computation does not get stuck, and what it returns satisfies `P`; it may abort. -/
def Settles (P : α → Prop) (x : Outcome ε α) : Prop :=
  (∃ e, x = abort e) ∨ ∃ a, x = ok a ∧ P a

namespace Settles

variable {P Q : α → Prop}

theorem ok {a : α} (h : P a) : Settles P (ok a : Outcome ε α) := Or.inr ⟨a, rfl, h⟩

theorem abort (e : ε) : Settles P (abort e : Outcome ε α) := Or.inl ⟨e, rfl⟩

variable {x : Outcome ε α}

theorem of_ok (h : Settles P x) {a : α} (hx : x = .ok a) : P a := by
  subst hx
  obtain ⟨e, habort⟩ | ⟨b, hb, hP⟩ := h
  · nomatch habort
  · obtain rfl := Outcome.ok.inj hb
    exact hP

theorem imp (h : Settles P x) (himp : ∀ a, P a → Q a) : Settles Q x := by
  obtain ⟨e, habort⟩ | ⟨a, ha, hP⟩ := h
  · exact Or.inl ⟨e, habort⟩
  · exact Or.inr ⟨a, ha, himp a hP⟩

theorem bind {R : β → Prop} (hx : Settles P x) (hf : ∀ a, P a → Settles R (f a)) :
    Settles R (x >>= f) := by
  obtain ⟨e, rfl⟩ | ⟨a, rfl, hP⟩ := hx
  · exact .abort e
  · exact hf a hP

theorem check {p : Prop} [Decidable p] {e : ε} {R : β → Prop} {f : Unit → Outcome ε β}
    (h : ¬ p → Settles R (f ())) : Settles R (check p e >>= f) := by
  unfold Outcome.check
  split_ifs with hp
  · exact .abort e
  · exact h hp

/-- The rule for `for range` when an iteration may abort. -/
theorem forEach {body : β → α → Outcome ε β} {xs : List α} {s : β} (inv : List α → β → Prop) (hinit : inv [] s)
    (hstep : ∀ done x rest s, xs = done ++ x :: rest → inv done s → Settles (inv (done ++ [x])) (body s x)) :
    Settles (inv xs) (forEach xs body s) := by
  suffices h : ∀ rest done s, xs = done ++ rest → inv done s → Settles (inv xs) (Outcome.forEach rest body s) from
    h xs [] s rfl hinit
  intro rest
  induction rest with
  | nil =>
    intro done s hsplit hinv
    rw [List.append_nil] at hsplit
    exact .ok (hsplit ▸ hinv)
  | cons x rest ih =>
    intro done s hsplit hinv
    rw [forEach_cons]
    exact (hstep done x rest s hsplit hinv).bind fun s' hs' => ih (done ++ [x]) s' (by simpa using hsplit) hs'

/-- A loop that settles returns if its body always does. -/
theorem forEach_ok {body : β → α → Outcome ε β} {xs : List α} {s : β} {P : β → Prop}
    (h : Settles P (Outcome.forEach xs body s)) (hok : ∀ x ∈ xs, ∀ s, ∃ s', body s x = .ok s') :
    ∃ r, Outcome.forEach xs body s = .ok r ∧ P r := by
  have hloop : ∃ r, Outcome.forEach xs body s = .ok r ∧ True := by
    refine forEach_total (fun _ _ => True) trivial fun done x rest s hsplit _ => ?_
    obtain ⟨s', hs'⟩ := hok x (by rw [hsplit]; simp) s
    exact ⟨s', hs', trivial⟩
  obtain ⟨r, hr, -⟩ := hloop
  exact ⟨r, hr, h.of_ok hr⟩

end Settles

/-- `for cond { body }`, with at most `fuel` iterations. -/
def whileLoop (cond : β → Bool) (body : β → Outcome ε β) : Nat → β → Outcome ε β
  | 0, s => if cond s then stuck else ok s
  | fuel + 1, s => if cond s then body s >>= whileLoop cond body fuel else ok s

theorem whileLoop_mono {cond : β → Bool} {body : β → Outcome ε β} {fuel fuel' : Nat} (hle : fuel ≤ fuel')
    (h : whileLoop cond body fuel s = ok r) : whileLoop cond body fuel' s = ok r := by
  induction fuel generalizing fuel' s with
  | zero =>
    by_cases hcond : cond s = true
    · simp [whileLoop, hcond] at h
    · rw [whileLoop, if_neg hcond] at h
      cases fuel' <;> rw [whileLoop, if_neg hcond, h]
  | succ fuel ih =>
    obtain ⟨more, rfl⟩ : ∃ more, fuel' = more + 1 := ⟨fuel' - 1, by omega⟩
    by_cases hcond : cond s = true
    · rw [whileLoop, if_pos hcond] at h ⊢
      obtain ⟨s₁, hbody, hrest⟩ := bind_eq_ok.mp h
      exact bind_eq_ok.mpr ⟨s₁, hbody, ih (by omega) hrest⟩
    · rw [whileLoop, if_neg hcond] at h ⊢
      exact h

/-- **Total correctness of `for cond { body }`.**  `inv n s` bounds by `n` the iterations still to come: as
long as the condition holds, the body returns and lowers the bound.  Every budget of at least `n` then
suffices, and the loop leaves with its condition false. -/
theorem whileLoop_total {cond : β → Bool} {body : β → Outcome ε β} (inv : Nat → β → Prop)
    (hstep : ∀ n s, inv n s → cond s = true → ∃ s' m, body s = ok s' ∧ m < n ∧ inv m s') :
    ∀ n s, inv n s → ∀ fuel, n ≤ fuel →
      ∃ s' m, whileLoop cond body fuel s = ok s' ∧ cond s' = false ∧ inv m s' := by
  intro n
  induction n using Nat.strongRecOn with
  | ind n ih =>
    intro s hinv fuel hfuel
    by_cases hcond : cond s = true
    · obtain ⟨s₁, m, hbody, hlt, hinv₁⟩ := hstep n s hinv hcond
      obtain ⟨fuel', rfl⟩ : ∃ fuel', fuel = fuel' + 1 := ⟨fuel - 1, by omega⟩
      obtain ⟨s₂, m₂, hrun, hexit, hinv₂⟩ := ih m hlt s₁ hinv₁ fuel' (by omega)
      refine ⟨s₂, m₂, ?_, hexit, hinv₂⟩
      rw [whileLoop, if_pos hcond, hbody, ok_bind, hrun]
    · have hexit : cond s = false := by simpa using hcond
      refine ⟨s, n, ?_, hexit, hinv⟩
      cases fuel <;> rw [whileLoop, if_neg hcond]

end Outcome

end Lib
end Koala
