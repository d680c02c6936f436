import Koala.Lib.Outcome

/-!
# Transition machines

A machine is a set of initial states and one executable step function.  Nondeterminism (the scheduler, the
network, the caller) is the choice of the next action; an action that is not enabled is `stuck`, one that
kills a process is an `abort`.

`Run G` are the states of the runs whose steps all satisfy `G`.  The guard is how a condition that the code
does not enforce enters a statement: `Run (fun _ _ => True)` is plain reachability.
-/

namespace Koala
namespace Lib

/-- Initial states and an executable step. -/
structure Machine (σ α ε : Type) where
  init : σ → Prop
  step : σ → α → Outcome ε σ

namespace Machine

variable {σ α ε : Type} {m : Machine σ α ε} {G : σ → α → Prop}

/-- The states reached by runs of `m` all of whose steps satisfy `G`. -/
inductive Run (m : Machine σ α ε) (G : σ → α → Prop) : σ → Prop where
  | start {s : σ} : m.init s → Run m G s
  | step {s s' : σ} {a : α} : Run m G s → G s a → m.step s a = .ok s' → Run m G s'

variable {s : σ}

/-- The invariant rule.  The step may use that its source is itself the state of such a run. -/
theorem Run.invariant (inv : σ → Prop) (hinit : ∀ s, m.init s → inv s)
    (hstep : ∀ s a s', m.Run G s → inv s → G s a → m.step s a = .ok s' → inv s') (hrun : m.Run G s) : inv s := by
  induction hrun with
  | start hs => exact hinit _ hs
  | step hrun hguard hs ih => exact hstep _ _ _ hrun ih hguard hs

/-- Whatever the scheduler does, `p` is reached: as long as it does not hold a step is possible, and every
sequence of steps is finite. -/
inductive Inevitable (m : Machine σ α ε) (p : σ → Prop) : σ → Prop where
  | now {s : σ} : p s → Inevitable m p s
  | next {s : σ} : (∃ a s', m.step s a = .ok s') → (∀ a s', m.step s a = .ok s' → Inevitable m p s') →
      Inevitable m p s

variable {p : σ → Prop}

theorem Inevitable.of_measure {β : Type} {r : β → β → Prop} (hwf : WellFounded r) (inv : σ → Prop) (measure : σ → β)
    (hstep : ∀ s a s', inv s → m.step s a = .ok s' → inv s' ∧ r (measure s') (measure s))
    (hprogress : ∀ s, inv s → p s ∨ ∃ a s', m.step s a = .ok s') (hs : inv s) : m.Inevitable p s := by
  induction hn : measure s using hwf.induction generalizing s with
  | _ n ih =>
    rcases hprogress s hs with hp | henabled
    · exact .now hp
    · refine .next henabled fun a s' ha => ?_
      obtain ⟨hs', hlt⟩ := hstep s a s' hs ha
      exact ih _ (hn ▸ hlt) hs' rfl

theorem Inevitable.exists_run (h : m.Inevitable p s) (hrun : m.Run (fun _ _ => True) s) :
    ∃ s', m.Run (fun _ _ => True) s' ∧ p s' := by
  induction h with
  | now hp => exact ⟨_, hrun, hp⟩
  | next henabled _ ih =>
    obtain ⟨a, s', ha⟩ := henabled
    exact ih a s' ha (.step hrun trivial ha)

/-- An invariant that excludes `p` excludes that `p` is inevitable. -/
theorem Inevitable.contradiction (inv : σ → Prop) (hstep : ∀ s a s', inv s → m.step s a = .ok s' → inv s')
    (hnot : ∀ s, inv s → ¬ p s) (hs : inv s) (h : m.Inevitable p s) : False := by
  induction h with
  | now hp => exact hnot _ hs hp
  | next henabled _ ih =>
    obtain ⟨a, s', ha⟩ := henabled
    exact ih a s' ha (hstep _ _ _ hs ha)

/-- Run a list of actions. -/
def exec (m : Machine σ α ε) : σ → List α → Outcome ε σ
  | s, [] => .ok s
  | s, a :: rest => m.step s a >>= fun s' => exec m s' rest

variable (acts : List α)

theorem Run.of_exec {s' : σ} (hrun : m.Run (fun _ _ => True) s) (hexec : m.exec s acts = .ok s') :
    m.Run (fun _ _ => True) s' := by
  induction acts generalizing s with
  | nil =>
    cases hexec
    exact hrun
  | cons a rest ih =>
    obtain ⟨t, hfirst, hrest⟩ := Outcome.bind_eq_ok.mp hexec
    exact ih (.step hrun trivial hfirst) hrest

/-- Forward simulation: if every step of `m` is matched by the same action of `m'`, so is every list of
actions. -/
theorem exec_simulation {τ ε' : Type} {m' : Machine τ α ε'} (rel : σ → τ → Prop)
    (hstep : ∀ s t a s', rel s t → m.step s a = .ok s' → ∃ t', m'.step t a = .ok t' ∧ rel s' t') {s' : σ} {t : τ}
    (acts : List α) (hrel : rel s t) (hexec : m.exec s acts = .ok s') :
    ∃ t', m'.exec t acts = .ok t' ∧ rel s' t' := by
  induction acts generalizing s t with
  | nil =>
    cases hexec
    exact ⟨t, rfl, hrel⟩
  | cons a rest ih =>
    obtain ⟨s₁, hfirst, hrest⟩ := Outcome.bind_eq_ok.mp hexec
    obtain ⟨t₁, hfirst', hrel₁⟩ := hstep s t a s₁ hrel hfirst
    obtain ⟨t', hrest', hrel'⟩ := ih hrel₁ hrest
    refine ⟨t', ?_, hrel'⟩
    rw [exec, hfirst', Outcome.ok_bind, hrest']

/-- A list of actions can be taken and ends in a state with `p`. -/
def replay (m : Machine σ α ε) (s : σ) (acts : List α) (p : σ → Bool) : Bool :=
  match m.exec s acts with
  | .ok s' => p s'
  | _ => false

theorem Run.of_replay (p : σ → Bool) (hinit : m.init s) (h : m.replay s acts p = true) :
    ∃ s', m.Run (fun _ _ => True) s' ∧ p s' = true := by
  unfold replay at h
  cases hexec : m.exec s acts with
  | ok s' =>
    rw [hexec] at h
    exact ⟨s', Run.of_exec acts (.start hinit) hexec, h⟩
  | abort e => simp [hexec] at h
  | stuck => simp [hexec] at h

/-- A list of actions can be taken with `g` before each step and ends in a state with `p`. -/
def replayGuarded (m : Machine σ α ε) (g : σ → α → Bool) (p : σ → Bool) : σ → List α → Bool
  | s, [] => p s
  | s, a :: rest => g s a && match m.step s a with
      | .ok s' => replayGuarded m g p s' rest
      | _ => false

theorem Run.of_replayGuarded {g : σ → α → Bool} (hg : ∀ s a, g s a = true → G s a) (acts : List α) (p : σ → Bool)
    (hrun : m.Run G s) (h : m.replayGuarded g p s acts = true) :
    ∃ s', m.Run G s' ∧ p s' = true := by
  induction acts generalizing s with
  | nil => exact ⟨s, hrun, h⟩
  | cons a rest ih =>
    simp only [replayGuarded, Bool.and_eq_true] at h
    obtain ⟨hguard, hrest⟩ := h
    cases hstep : m.step s a with
    | ok s' =>
      rw [hstep] at hrest
      exact ih (.step hrun (hg s a hguard) hstep) hrest
    | abort e => simp [hstep] at hrest
    | stuck => simp [hstep] at hrest

/-- A list of actions can be taken and the next action aborts with an error that has `p`. -/
def replayAbort (m : Machine σ α ε) (s : σ) (acts : List α) (a : α) (p : ε → Bool) : Bool :=
  m.replay s acts fun s' => match m.step s' a with
    | .abort e => p e
    | _ => false

theorem Run.of_replayAbort (a : α) (p : ε → Bool) (hinit : m.init s)
    (h : m.replayAbort s acts a p = true) :
    ∃ s' e, m.Run (fun _ _ => True) s' ∧ m.step s' a = .abort e ∧ p e = true := by
  obtain ⟨s', hrun, habort⟩ := Run.of_replay acts _ hinit h
  cases hstep : m.step s' a with
  | ok s'' => simp [hstep] at habort
  | abort e =>
    rw [hstep] at habort
    exact ⟨s', e, hrun, hstep, habort⟩
  | stuck => simp [hstep] at habort

end Machine

end Lib
end Koala
