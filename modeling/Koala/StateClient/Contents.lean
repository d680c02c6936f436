import Mathlib.Data.List.Basic

/-!
# Contents under two disciplines

The abstract side of batching.  A state is a list of values; operations overwrite it, append to it, clear it or
read it.  `direct` is what they mean when every operation goes to the store at once.  `cached` is what they do to
a cached state, where a clear is only remembered: it stays readable and can be appended to, and `flushed` drops
everything at the end if there was a clear at all.

`flushed_eq_iff` and `reads_eq_iff` say for which operations the two cannot be told apart.
-/

namespace Koala
namespace StateClient

open List (foldl_cons forall_mem_cons)

/-- What an operation does to a content. -/
inductive Effect (V : Type) where
  | overwrite (vals : List V)
  | append (vals : List V)
  | clear
  | read

namespace Effect

variable {V : Type}

/-- The operation puts something into the state. -/
def IsWrite : Effect V → Prop
  | .overwrite _ => True
  | .append _ => True
  | _ => False

def IsOverwrite : Effect V → Prop
  | .overwrite _ => True
  | _ => False

def IsAppend : Effect V → Prop
  | .append _ => True
  | _ => False

def IsClear : Effect V → Prop
  | .clear => True
  | _ => False

instance : DecidablePred (IsWrite (V := V)) := fun e => by
  cases e <;> unfold IsWrite <;> infer_instance

instance : DecidablePred (IsOverwrite (V := V)) := fun e => by
  cases e <;> unfold IsOverwrite <;> infer_instance

instance : DecidablePred (IsAppend (V := V)) := fun e => by
  cases e <;> unfold IsAppend <;> infer_instance

instance : DecidablePred (IsClear (V := V)) := fun e => by
  cases e <;> unfold IsClear <;> infer_instance

variable (vals : List V)

@[simp] theorem isWrite_overwrite : IsWrite (.overwrite vals) := trivial

@[simp] theorem isWrite_append : IsWrite (.append vals) := trivial

@[simp] theorem not_isWrite_clear : ¬ IsWrite (.clear : Effect V) := id

@[simp] theorem not_isWrite_read : ¬ IsWrite (.read : Effect V) := id

@[simp] theorem isOverwrite_overwrite : IsOverwrite (.overwrite vals) := trivial

@[simp] theorem not_isOverwrite_append : ¬ IsOverwrite (.append vals) := id

@[simp] theorem not_isOverwrite_clear : ¬ IsOverwrite (.clear : Effect V) := id

@[simp] theorem not_isOverwrite_read : ¬ IsOverwrite (.read : Effect V) := id

@[simp] theorem isAppend_append : IsAppend (.append vals) := trivial

@[simp] theorem not_isAppend_overwrite : ¬ IsAppend (.overwrite vals) := id

@[simp] theorem not_isAppend_clear : ¬ IsAppend (.clear : Effect V) := id

@[simp] theorem not_isAppend_read : ¬ IsAppend (.read : Effect V) := id

theorem isWrite_iff (e : Effect V) : IsWrite e ↔ IsOverwrite e ∨ IsAppend e := by
  cases e <;> simp

@[simp] theorem isClear_clear : IsClear (.clear : Effect V) := trivial

@[simp] theorem not_isClear_overwrite : ¬ IsClear (.overwrite vals) := id

@[simp] theorem not_isClear_append : ¬ IsClear (.append vals) := id

@[simp] theorem not_isClear_read : ¬ IsClear (.read : Effect V) := id

/-- Nothing empty is written. -/
def NonEmpty : Effect V → Prop
  | .overwrite vals => vals ≠ []
  | .append vals => vals ≠ []
  | _ => True

/-- The effect on the store. -/
def direct : List V → Effect V → List V
  | _, .overwrite vals => vals
  | c, .append vals => c ++ vals
  | _, .clear => []
  | c, .read => c

/-- The effect on a cached state. -/
def cached : List V → Effect V → List V
  | _, .overwrite vals => vals
  | c, .append vals => c ++ vals
  | c, .clear => c
  | c, .read => c

/-- The contents that reads return, one after the other. -/
def reads (step : List V → Effect V → List V) : List V → List (Effect V) → List (List V)
  | _, [] => []
  | c, .read :: es => c :: reads step (step c .read) es
  | c, e :: es => reads step (step c e) es

/-- The content that the flush of a cached state leaves in the store. -/
def flushed (c : List V) (es : List (Effect V)) : List V :=
  if ∃ e ∈ es, IsClear e then [] else es.foldl cached c

/-- No write comes after the last clear. -/
def NoWriteAfterClear (es : List (Effect V)) : Prop :=
  ∀ before after, es = before ++ .clear :: after → (∃ e ∈ after, IsClear e) ∨ ∀ e ∈ after, ¬ IsWrite e

/-- Before `es` ends, a clear is made up for by an overwrite, or there was nothing to clear. -/
def ClearUnseen (empty : Prop) (es : List (Effect V)) : Prop :=
  ∀ before after, es = before ++ .clear :: after →
    (∃ e ∈ after, IsOverwrite e) ∨ (∃ e ∈ after, IsClear e) ∨ (empty ∧ ∀ e ∈ before, ¬ IsWrite e)

/-- Batching cannot be noticed: no write after the last clear, and no read that still sees a cleared state. -/
structure Unnoticed (empty : Prop) (es : List (Effect V)) : Prop where
  writes : NoWriteAfterClear es
  reads : ∀ before after, es = before ++ .read :: after → ClearUnseen empty before

/-! ## Without a clear the two agree -/

variable {es : List (Effect V)}

theorem foldl_cached_eq_direct (hclear : ∀ e ∈ es, ¬ IsClear e) (c : List V) :
    es.foldl cached c = es.foldl direct c := by
  induction es generalizing c with
  | nil => rfl
  | cons e es ih =>
    obtain ⟨he, hes⟩ := forall_mem_cons.mp hclear
    have hstep : cached c e = direct c e := by
      cases e with
      | clear => exact absurd trivial he
      | _ => rfl
    rw [foldl_cons, foldl_cons, hstep, ih hes]

theorem foldl_cached_eq_nil_iff (hne : ∀ e ∈ es, NonEmpty e) (c : List V) :
    es.foldl cached c = [] ↔ c = [] ∧ ∀ e ∈ es, ¬ IsWrite e := by
  induction es generalizing c with
  | nil => simp
  | cons e es ih =>
    obtain ⟨he, hes⟩ := forall_mem_cons.mp hne
    rw [foldl_cons, ih hes, forall_mem_cons, ← and_assoc]
    refine and_congr_left fun _ => ?_
    cases e with
    | overwrite vals => simpa [cached, IsWrite, NonEmpty] using he
    | append vals => simpa [cached, IsWrite, NonEmpty] using fun _ => he
    | clear => simp [cached, IsWrite]
    | read => simp [cached, IsWrite]

theorem foldl_cached_of_no_write (h : ∀ e ∈ es, ¬ IsWrite e) (c : List V) :
    es.foldl cached c = c := by
  induction es with
  | nil => rfl
  | cons e es ih =>
    obtain ⟨he, hes⟩ := forall_mem_cons.mp h
    have hstep : cached c e = c := by
      cases e with
      | overwrite vals => exact absurd trivial he
      | append vals => exact absurd trivial he
      | _ => rfl
    rw [foldl_cons, hstep, ih hes]

theorem foldl_cached_of_no_overwrite (h : ∀ e ∈ es, ¬ IsOverwrite e) (c : List V) :
    es.foldl cached c = c ++ es.foldl cached [] := by
  induction es generalizing c with
  | nil => simp
  | cons e es ih =>
    obtain ⟨he, hes⟩ := forall_mem_cons.mp h
    rw [foldl_cons, foldl_cons, ih hes (cached c e), ih hes (cached [] e), ← List.append_assoc]
    congr 1
    cases e with
    | overwrite vals => exact absurd trivial he
    | append vals => rfl
    | _ => simp [cached]

theorem foldl_direct_append (hclear : ∀ e ∈ es, ¬ IsClear e) (hover : ∀ e ∈ es, ¬ IsOverwrite e) (c : List V) :
    es.foldl direct c = c ++ es.foldl direct [] := by
  induction es generalizing c with
  | nil => simp
  | cons e es ih =>
    obtain ⟨he, hes⟩ := forall_mem_cons.mp hclear
    obtain ⟨ho, hos⟩ := forall_mem_cons.mp hover
    rw [foldl_cons, foldl_cons, ih hes hos (direct c e), ih hes hos (direct [] e), ← List.append_assoc]
    congr 1
    cases e with
    | overwrite vals => exact absurd trivial ho
    | append vals => rfl
    | clear => exact absurd trivial he
    | read => simp [direct]

theorem foldl_direct_overwrite (hover : ∃ e ∈ es, IsOverwrite e) (c c' : List V) :
    es.foldl direct c = es.foldl direct c' := by
  induction es generalizing c c' with
  | nil => simp at hover
  | cons e es ih =>
    rw [foldl_cons, foldl_cons]
    by_cases hrest : ∃ e ∈ es, IsOverwrite e
    · exact ih hrest _ _
    · have he : IsOverwrite e := by
        obtain ⟨e', hmem, he'⟩ := hover
        rcases List.mem_cons.mp hmem with rfl | hin
        · exact he'
        · exact absurd ⟨e', hin, he'⟩ hrest
      cases e with
      | overwrite vals => rfl
      | _ => exact absurd he id

theorem exists_last_clear (h : ∃ e ∈ es, IsClear e) :
    ∃ before after, es = before ++ .clear :: after ∧ ∀ e ∈ after, ¬ IsClear e := by
  induction es with
  | nil => simp at h
  | cons e es ih =>
    by_cases hrest : ∃ e ∈ es, IsClear e
    · obtain ⟨before, after, rfl, hafter⟩ := ih hrest
      exact ⟨e :: before, after, rfl, hafter⟩
    · obtain ⟨e', hmem, he'⟩ := h
      have heq : e' = e := by
        rcases List.mem_cons.mp hmem with rfl | hin
        · rfl
        · exact absurd ⟨e', hin, he'⟩ hrest
      subst heq
      cases e' with
      | clear => exact ⟨[], es, rfl, fun e he hclear => hrest ⟨e, he, hclear⟩⟩
      | _ => exact absurd he' id

/-! ## When batching is noticed -/

theorem flushed_eq_iff (hne : ∀ e ∈ es, NonEmpty e) (c : List V) :
    flushed c es = es.foldl direct c ↔ NoWriteAfterClear es := by
  unfold flushed
  -- after a clear the store only holds what is written later
  have hafter : ∀ before after, es = before ++ .clear :: after → (∀ e ∈ after, ¬ IsClear e) →
      (es.foldl direct c = [] ↔ ∀ e ∈ after, ¬ IsWrite e) := by
    rintro before after rfl hclear
    have hne' : ∀ e ∈ after, NonEmpty e := fun e he => hne e (by simp [he])
    rw [List.foldl_append, foldl_cons, direct, ← foldl_cached_eq_direct hclear,
      foldl_cached_eq_nil_iff hne', and_iff_right rfl]
  split_ifs with hclear
  · obtain ⟨before, after, hsplit, hlast⟩ := exists_last_clear hclear
    rw [eq_comm, hafter before after hsplit hlast]
    constructor
    · intro hwrites before' after' hsplit'
      by_cases hmore : ∃ e ∈ after', IsClear e
      · exact .inl hmore
      · refine .inr ((hafter before' after' hsplit' fun e he hc => hmore ⟨e, he, hc⟩).mp ?_)
        exact (hafter before after hsplit hlast).mpr hwrites
    · intro hno
      rcases hno before after hsplit with ⟨e, he, hc⟩ | hwrites
      · exact absurd hc (hlast e he)
      · exact hwrites
  · refine iff_of_true (foldl_cached_eq_direct (fun e he hc => hclear ⟨e, he, hc⟩) c) ?_
    rintro before after rfl
    exact absurd ⟨.clear, by simp, trivial⟩ hclear

/-- A cached state shows what the store would hold exactly if no clear is seen. -/
theorem foldl_cached_eq_direct_iff (hne : ∀ e ∈ es, NonEmpty e) (c : List V) :
    es.foldl cached c = es.foldl direct c ↔ ClearUnseen (c = []) es := by
  have hlast : ∀ before after, es = before ++ .clear :: after → (∀ e ∈ after, ¬ IsClear e) →
      (es.foldl cached c = es.foldl direct c ↔
        (∃ e ∈ after, IsOverwrite e) ∨ (c = [] ∧ ∀ e ∈ before, ¬ IsWrite e)) := by
    rintro before after rfl hclear
    have hne' : ∀ e ∈ before, NonEmpty e := fun e he => hne e (by simp [he])
    rw [List.foldl_append, List.foldl_append, foldl_cons, foldl_cons, cached, direct, foldl_cached_eq_direct hclear]
    by_cases hover : ∃ e ∈ after, IsOverwrite e
    · exact iff_of_true (foldl_direct_overwrite hover _ _) (.inl hover)
    · rw [foldl_direct_append hclear (fun e he ho => hover ⟨e, he, ho⟩) (before.foldl cached c),
        List.append_left_eq_self, foldl_cached_eq_nil_iff hne', or_iff_right hover]
  by_cases hclear : ∃ e ∈ es, IsClear e
  · obtain ⟨before, after, hsplit, hafter⟩ := exists_last_clear hclear
    constructor
    · intro heq before' after' hsplit'
      by_cases hmore : ∃ e ∈ after', IsClear e
      · exact .inr (.inl hmore)
      · rcases (hlast before' after' hsplit' fun e he hc => hmore ⟨e, he, hc⟩).mp heq with hover | hempty
        · exact .inl hover
        · exact .inr (.inr hempty)
    · intro hunseen
      refine (hlast before after hsplit hafter).mpr ?_
      rcases hunseen before after hsplit with hover | ⟨e, he, hc⟩ | hempty
      · exact .inl hover
      · exact absurd hc (hafter e he)
      · exact .inr hempty
  · refine iff_of_true (foldl_cached_eq_direct (fun e he hc => hclear ⟨e, he, hc⟩) c) ?_
    rintro before after rfl
    exact absurd ⟨.clear, by simp, trivial⟩ hclear

theorem reads_eq_iff (c c' : List V) :
    reads cached c es = reads direct c' es ↔
      ∀ before after, es = before ++ .read :: after → before.foldl cached c = before.foldl direct c' := by
  induction es generalizing c c' with
  | nil => simp [reads]
  | cons e es ih =>
    have hsplit : ∀ {p : List (Effect V) → Prop},
        (∀ before after, e :: es = before ++ .read :: after → p before) ↔
          (e = .read → p []) ∧ ∀ before after, es = before ++ .read :: after → p (e :: before) := by
      intro p
      constructor
      · intro h
        refine ⟨fun he => h [] es (by rw [he]; rfl), fun before after heq => ?_⟩
        exact h (e :: before) after (by rw [heq]; rfl)
      · rintro ⟨hnow, hlater⟩ before after heq
        cases before with
        | nil => exact hnow (List.cons.inj heq).1
        | cons e' before =>
          obtain ⟨rfl, hrest⟩ := List.cons.inj heq
          exact hlater before after hrest
    rw [hsplit]
    cases e with
    | read =>
      rw [reads, reads, List.cons.injEq, ih]
      simp only [List.foldl_nil, forall_const, foldl_cons, cached, direct]
    | overwrite | append | clear =>
      rw [reads, reads, ih]
      · simp only [reduceCtorEq, false_imp_iff, true_and, foldl_cons]
      · exact nofun
      · exact nofun

/-- What one operation reads. -/
def answer (c : List V) : Effect V → List (List V)
  | .read => [c]
  | _ => []

variable (step : List V → Effect V → List V)

theorem reads_cons (c : List V) (e : Effect V) (es : List (Effect V)) :
    reads step c (e :: es) = answer c e ++ reads step (step c e) es := by
  cases e <;> rfl

theorem reads_append (c : List V) (es es' : List (Effect V)) :
    reads step c (es ++ es') = reads step c es ++ reads step (es.foldl step c) es' := by
  induction es generalizing c with
  | nil => rfl
  | cons e es ih => rw [List.cons_append, reads_cons, reads_cons, ih, foldl_cons, List.append_assoc]

theorem flushed_of_length_le_one (h : es.length ≤ 1) (c : List V) :
    flushed c es = es.foldl direct c := by
  match es, h with
  | [], _ => rfl
  | [e], _ => cases e <;> simp [flushed, cached, direct]

theorem reads_of_length_le_one (h : es.length ≤ 1) (c : List V) :
    reads cached c es = reads direct c es := by
  match es, h with
  | [], _ => rfl
  | [e], _ => cases e <;> rfl

theorem foldl_direct_of_no_write (h : ∀ e ∈ es, ¬ IsWrite e) : es.foldl direct [] = [] := by
  induction es with
  | nil => rfl
  | cons e es ih =>
    obtain ⟨he, hes⟩ := forall_mem_cons.mp h
    have hstep : direct [] e = [] := by
      cases e with
      | overwrite vals => exact absurd trivial he
      | append vals => exact absurd trivial he
      | _ => rfl
    rw [foldl_cons, hstep, ih hes]

/-- **Batching goes unnoticed** exactly under `Unnoticed`. -/
theorem unnoticed_iff (hne : ∀ e ∈ es, NonEmpty e) (c : List V) :
    (flushed c es = es.foldl direct c ∧ reads cached c es = reads direct c es) ↔ Unnoticed (c = []) es := by
  rw [flushed_eq_iff hne, reads_eq_iff]
  constructor
  · rintro ⟨hwrites, hreads⟩
    refine ⟨hwrites, fun before after hsplit => ?_⟩
    exact (foldl_cached_eq_direct_iff (fun e he => hne e (by rw [hsplit]; simp [he])) c).mp
      (hreads before after hsplit)
  · rintro ⟨hwrites, hreads⟩
    refine ⟨hwrites, fun before after hsplit => ?_⟩
    exact (foldl_cached_eq_direct_iff (fun e he => hne e (by rw [hsplit]; simp [he])) c).mpr
      (hreads before after hsplit)

end Effect

end StateClient
end Koala
