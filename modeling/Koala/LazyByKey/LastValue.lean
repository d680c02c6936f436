import Koala.LazyByKey.DeletedState

/-!
# Reads return the last flushed value

The table entry of a key moves to the reading worker while the value is still on its way, so "the worker named by
the map stores the last value" is not true at every instant.  What is true: either it does, or the map names the
holder itself and one of the holder's own goroutines is about to store the value.  `LastValue` is this statement
together with what each goroutine relies on at the point it has reached (`Sound`).

The goroutines rely on being on the worker that holds the map.  A handover takes the maps away without waiting for
them, so the invariant needs handovers to happen when the wait group is drained (`Drained`).
-/

namespace Koala
namespace LazyByKey

open Lib Lib.Outcome Keyby
open Partition (WorkerID BucketID)
open List (forall_mem_singleton mem_cons mem_singleton_self)

variable {K : Type} [DecidableEq K] (s : World K)

/-- A worker hands its key maps over only when its background goroutines have finished. -/
def Drained : Action K → Prop
  | .handover w _ => (s.node w).bg = []
  | _ => True

/-- The backend of `l` has the last flushed value of `k`. -/
def Agrees (l : WorkerID) (k : K) : Prop :=
  (s.node l).backend k = s.spec k

/-- The goroutine is going to store the needed key `k`. -/
def Routine.Covers (k : K) : Routine K → Prop
  | .fetch _ _ keys _ => k ∈ keys
  | .store _ todo _ _ => k ∈ todo
  | _ => False

/-- The goroutine is going to deliver the value of `k` to the reading main loop. -/
def Routine.Needs (k : K) : Routine K → Prop
  | .readLocal todo => k ∈ todo
  | .fetch _ todo _ _ => k ∈ todo
  | _ => False

/-- The goroutine is going to move the table entry of the needed key `k` here. -/
def Routine.Moves (k : K) : Routine K → Prop
  | .updateAddr todo => k ∈ todo
  | _ => False

/-- The last value of `k` is in the backend of `w`, or on its way there. -/
def Arrives (w : WorkerID) (k : K) : Prop :=
  Agrees s w k ∨ ∃ r ∈ (s.node w).bg, r.Covers k

variable (cfg : Config K)

/-- `k` has state and `w` holds its bucket. -/
def Owned (s : World K) (w : WorkerID) (k : K) : Prop :=
  s.holder (cfg.bucketOf k) = some w ∧ s.spec k ≠ none

/-- What a goroutine of worker `w` relies on, at the point it has reached. -/
def Sound (s : World K) (w : WorkerID) : Routine K → Prop
  | .readLocal todo => ∀ k ∈ todo, s.holder (cfg.bucketOf k) = some w ∧ Agrees s w k
  | .fetch src todo keys _ =>
    (∀ k ∈ todo, k ∈ keys ∧ Agrees s src k) ∧
    ∀ k ∈ keys, Owned cfg s w k ∧ (k ∈ todo ∨ (s.node w).res k = s.spec k)
  | .store _ todo _ _ => ∀ k ∈ todo, Owned cfg s w k ∧ (s.node w).res k = s.spec k
  | .updateAddr todo => ∀ k ∈ todo, Owned cfg s w k ∧ Arrives s w k
  | .additional c _ => c ≠ w
  | .scan c _ _ got => c ≠ w ∧ ∀ k ∈ got, Owned cfg s w k ∧ Agrees s c k
  | .mark c _ _ _ got => c ≠ w ∧ ∀ k ∈ got, Owned cfg s w k ∧ Agrees s c k
  | .request c todo _ => ∀ k ∈ todo, Owned cfg s w k ∧ Agrees s c k
  | .storeChunk c chunk todo rest _ =>
    (∀ k ∈ rest, Owned cfg s w k ∧ Agrees s c k) ∧
    (∀ k v, (k, v) ∈ todo → Owned cfg s w k ∧ s.spec k = some v) ∧
    ∀ k ∈ chunk.map Prod.fst, Owned cfg s w k ∧ (k ∈ todo.map Prod.fst ∨ Agrees s w k)
  | .relocate _ todo => ∀ k ∈ todo, Owned cfg s w k ∧ Agrees s w k
  | _ => True

/-- **The location invariant.** -/
structure LastValue (cfg : Config K) (s : World K) : Prop where
  located : ∀ k w m l, s.holder (cfg.bucketOf k) = some w →
    ((s.node w).table (cfg.bucketOf k)).map = some m → m.get k = some l →
    Agrees s l k ∨ (l = w ∧ Arrives s w k)
  flight : ∀ f ∈ s.flight, ∀ k m l, (cfg.bucketOf k, m) ∈ f.entries → m.get k = some l → Agrees s l k
  sound : ∀ w, ∀ r ∈ (s.node w).bg, Sound cfg s w r
  read : ∀ w old new, (s.node w).main = .reading old new → ∀ k ∈ new,
    (s.node w).res k = s.spec k ∨ ∃ r ∈ (s.node w).bg, r.Needs k
  moved : ∀ w, ∀ k ∈ (s.node w).main.requested, ∀ m l, ((s.node w).table (cfg.bucketOf k)).map = some m →
    m.get k = some l → l = w ∨ ∃ r ∈ (s.node w).bg, r.Moves k
  cancelling : ∀ w c, ((s.node w).em.affected.get c).isSome → c ≠ w

/-- Nothing that the goroutines of `w` rely on is lost between `s` and `s'`. -/
def Preserves (s s' : World K) (w : WorkerID) : Prop :=
  ∀ k, s.holder (cfg.bucketOf k) = some w →
    s'.holder (cfg.bucketOf k) = some w ∧ s'.spec k = s.spec k ∧ (∀ l, Agrees s l k → Agrees s' l k) ∧
    ((s.node w).res k = s.spec k → (s'.node w).res k = s'.spec k) ∧ (Arrives s w k → Arrives s' w k)

variable {cfg : Config K} {s s' : World K} {w : WorkerID} {r : Routine K}

omit [DecidableEq K] in
theorem Sound.preserved (hkeep : Preserves cfg s s' w) (h : Sound cfg s w r) : Sound cfg s' w r := by
  have howned : ∀ k, Owned cfg s w k → Owned cfg s' w k := fun k hk => by
    obtain ⟨hholder, hspec, -⟩ := hkeep k hk.1
    exact ⟨hholder, hspec ▸ hk.2⟩
  have hagrees : ∀ k l, Owned cfg s w k → Agrees s l k → Agrees s' l k := fun k l hk =>
    (hkeep k hk.1).2.2.1 l
  cases r with
  | readLocal =>
    intro k hk
    obtain ⟨hholder, hag⟩ := h k hk
    exact ⟨(hkeep k hholder).1, (hkeep k hholder).2.2.1 w hag⟩
  | fetch src =>
    refine ⟨fun k hk => ⟨(h.1 k hk).1, ?_⟩, fun k hk => ⟨howned k (h.2 k hk).1, ?_⟩⟩
    · exact hagrees k src (h.2 k (h.1 k hk).1).1 (h.1 k hk).2
    · exact (h.2 k hk).2.imp id (hkeep k (h.2 k hk).1.1).2.2.2.1
  | store =>
    exact fun k hk => ⟨howned k (h k hk).1, (hkeep k (h k hk).1.1).2.2.2.1 (h k hk).2⟩
  | updateAddr =>
    exact fun k hk => ⟨howned k (h k hk).1, (hkeep k (h k hk).1.1).2.2.2.2 (h k hk).2⟩
  | additional => exact h
  | scan c | mark c =>
    exact ⟨h.1, fun k hk => ⟨howned k (h.2 k hk).1, hagrees k c (h.2 k hk).1 (h.2 k hk).2⟩⟩
  | request c => exact fun k hk => ⟨howned k (h k hk).1, hagrees k c (h k hk).1 (h k hk).2⟩
  | storeChunk c =>
    refine ⟨fun k hk => ?_, fun k v hk => ?_, fun k hk => ?_⟩
    · exact ⟨howned k (h.1 k hk).1, hagrees k c (h.1 k hk).1 (h.1 k hk).2⟩
    · obtain ⟨hk', hv⟩ := h.2.1 k v hk
      exact ⟨howned k hk', (hkeep k hk'.1).2.1.trans hv⟩
    · obtain ⟨hk', hdone⟩ := h.2.2 k hk
      exact ⟨howned k hk', hdone.imp id (hagrees k w hk')⟩
  | relocate => exact fun k hk => ⟨howned k (h k hk).1, hagrees k w (h k hk).1 (h k hk).2⟩
  | _ => trivial

variable {l : WorkerID} {k : K}

omit [DecidableEq K] in
theorem Agrees.getD (h : Agrees s l k) (hspec : s.spec k ≠ none) :
    some (((s.node l).backend k).getD []) = s.spec k := by
  obtain ⟨v, hv⟩ := Option.ne_none_iff_exists'.mp hspec
  rw [h, hv]
  rfl

variable {nd : Node K}

omit [DecidableEq K] in
theorem Agrees.setNode (hbackend : nd.backend = (s.node w).backend) (h : Agrees s l k) :
    Agrees (s.setNode w nd) l k := by
  unfold Agrees
  by_cases hw : l = w
  · subst hw
    rw [World.setNode_self, hbackend]
    exact h
  · rwa [World.setNode_ne _ _ hw]

/-- What one step of a sound goroutine achieves. -/
structure RunEffect (cfg : Config K) (s : World K) (w : WorkerID) (nd : Node K) (r : Routine K)
    (next : List (Routine K)) : Prop where
  backend : ∀ k, nd.backend k = (s.node w).backend k ∨ nd.backend k = s.spec k
  res : ∀ k, nd.res k = (s.node w).res k ∨ nd.res k = s.spec k
  covers : ∀ k, r.Covers k → nd.backend k = s.spec k ∨ ∃ r' ∈ next, r'.Covers k
  needs : ∀ k, r.Needs k → nd.res k = s.spec k ∨ ∃ r' ∈ next, r'.Needs k
  moves : ∀ k, r.Moves k → (∃ m : KeyMap K, nd.table = (s.node w).table.withMap (cfg.bucketOf k) (m.set k w)) ∨
    ∃ r' ∈ next, r'.Moves k
  table : nd.table = (s.node w).table ∨ ∃ k m, ((s.node w).table (cfg.bucketOf k)).map = some m ∧
    nd.table = (s.node w).table.withMap (cfg.bucketOf k) (m.set k w) ∧ Arrives s w k
  affected : nd.em.affected = (s.node w).em.affected

variable {next : List (Routine K)}

theorem RunEffect.quiet {em : EventualMeta} (haffected : em.affected = (s.node w).em.affected)
    (hcovers : ∀ k, r.Covers k → ∃ r' ∈ next, r'.Covers k) (hneeds : ∀ k, ¬ r.Needs k ∧ ¬ r.Moves k) :
    RunEffect cfg s w { s.node w with em := em } r next :=
  ⟨fun _ => .inl rfl, fun _ => .inl rfl, fun k hk => .inr (hcovers k hk), fun k hk => absurd hk (hneeds k).1,
    fun k hk => absurd hk (hneeds k).2, .inl rfl, haffected⟩

private theorem update_or {f spec : K → Option Value} {v : Option Value} (hvalue : v = spec k) (k' : K) :
    Function.update f k v k' = f k' ∨ Function.update f k v k' = spec k' := by
  by_cases hk : k' = k
  · subst hk
    exact .inr (by simpa using hvalue)
  · exact .inl (by simp [hk])

private theorem update_or_mem {f spec : K → Option Value} {v : Option Value} (hvalue : v = spec k) {todo : List K}
    {k' : K} (hk' : k' ∈ k :: todo) : Function.update f k v k' = spec k' ∨ k' ∈ todo := by
  rcases mem_cons.mp hk' with rfl | hrest
  · exact .inl (by simpa using hvalue)
  · exact .inr hrest

variable {siblings : List (Routine K)} {choice : Choice K}

theorem RoutineStep.effect (hsound : Sound cfg s w r)
    (h : RoutineStep cfg (fun v => (s.node v).backend) w (s.node w) siblings choice r nd next) :
    RunEffect cfg s w nd r next := by
  cases h with
  | readLocalEnd | storeEnd | storeMore | updateAddrEnd | additional | scanEnd | scanSkip | requestEnd | request
  | storeChunkEnd | relocateEnd | finishIdle | finish | disable | dropLocks | dropFinished | signal =>
    exact .quiet rfl (by simp [Routine.Covers]) (by simp [Routine.Needs, Routine.Moves])
  | readLocal k =>
    have hvalue : (s.node w).backend k = s.spec k := (hsound k (by simp)).2
    exact ⟨fun _ => .inl rfl, update_or hvalue, by simp [Routine.Covers], fun k' hk' =>
      (update_or_mem hvalue hk').imp_right fun hrest => ⟨_, mem_singleton_self _, hrest⟩,
      by simp [Routine.Moves], .inl rfl, rfl⟩
  | fetchEnd =>
    exact .quiet rfl (fun k hk => ⟨_, mem_singleton_self _, hk⟩) (by simp [Routine.Needs, Routine.Moves])
  | fetch _ k =>
    obtain ⟨hmem, hagrees⟩ := hsound.1 k (by simp)
    have hvalue := hagrees.getD (hsound.2 k hmem).1.2
    exact ⟨fun _ => .inl rfl, update_or hvalue, fun k' hk' => .inr ⟨_, mem_singleton_self _, hk'⟩,
      fun k' hk' => (update_or_mem hvalue hk').imp_right fun hrest => ⟨_, mem_singleton_self _, hrest⟩,
      by simp [Routine.Moves], .inl rfl, rfl⟩
  | store _ k =>
    obtain ⟨⟨-, hspec⟩, hres⟩ := hsound k (by simp)
    obtain ⟨v, hv⟩ := Option.ne_none_iff_exists'.mp hspec
    have hvalue : some (((s.node w).res k).getD []) = s.spec k := by
      rw [hres, hv]
      rfl
    exact ⟨update_or hvalue, fun _ => .inl rfl, fun k' hk' =>
      (update_or_mem hvalue hk').imp_right fun hrest => ⟨_, mem_singleton_self _, hrest⟩,
      by simp [Routine.Needs], by simp [Routine.Moves], .inl rfl, rfl⟩
  | updateAddr k todo m hm hk =>
    refine ⟨fun _ => .inl rfl, fun _ => .inl rfl, by simp [Routine.Covers], by simp [Routine.Needs],
      fun k' hk' => ?_, .inr ⟨k, m, hm, rfl, (hsound k (by simp)).2⟩, rfl⟩
    rcases mem_cons.mp hk' with rfl | hrest
    · exact .inl ⟨m, rfl⟩
    · exact .inr ⟨_, mem_singleton_self _, hrest⟩
  | scanFull | scan | mark =>
    exact .quiet rfl (by simp [Routine.Covers]) (by simp [Routine.Needs, Routine.Moves])
  | storeChunk _ _ k v =>
    have hvalue : s.spec k = some v := (hsound.2.1 k v (by simp)).2
    exact ⟨update_or hvalue.symm, fun _ => .inl rfl, by simp [Routine.Covers], by simp [Routine.Needs],
      by simp [Routine.Moves], .inl rfl, rfl⟩
  | relocate _ k _ m _ hm =>
    exact ⟨fun _ => .inl rfl, fun _ => .inl rfl, by simp [Routine.Covers], by simp [Routine.Needs],
      by simp [Routine.Moves], .inr ⟨k, m, hm, rfl, .inl (hsound k (by simp)).2⟩, rfl⟩

variable {i : Nat}

omit [DecidableEq K] in
theorem eq_or_mem_eraseIdx {bg : List (Routine K)} {r' : Routine K} (hr : bg[i]? = some r) (hr' : r' ∈ bg) :
    r' = r ∨ r' ∈ bg.eraseIdx i := by
  obtain ⟨j, hj⟩ := List.mem_iff_getElem?.mp hr'
  by_cases hij : j = i
  · subst hij
    exact .inl (Option.some.inj (hj.symm.trans hr))
  · exact .inr (List.mem_eraseIdx_iff_getElem?.mpr ⟨j, hij, hj⟩)

/-- What the step of a goroutine on `w` achieves is not lost to anyone. -/
theorem RunEffect.preserves (hr : (s.node w).bg[i]? = some r) (h : RunEffect cfg s w nd r next) (w' : WorkerID) :
    Preserves cfg s (s.setNode w { nd with bg := (s.node w).bg.eraseIdx i ++ next }) w' := by
  have hagrees : ∀ k l, Agrees s l k →
      Agrees (s.setNode w { nd with bg := (s.node w).bg.eraseIdx i ++ next }) l k := by
    intro k l hl
    unfold Agrees
    by_cases hw : l = w
    · subst hw
      simp only [World.setNode_self, World.setNode_spec]
      exact (h.backend k).elim (fun hsame => hsame.trans hl) id
    · rwa [World.setNode_ne _ _ hw]
  intro k hholder
  refine ⟨hholder, rfl, hagrees k, fun hres => ?_, ?_⟩
  · by_cases hw : w' = w
    · subst hw
      simp only [World.setNode_self, World.setNode_spec]
      exact (h.res k).elim (fun hsame => hsame.trans hres) id
    · rwa [World.setNode_ne _ _ hw]
  · rintro (hl | ⟨r', hr', hcov⟩)
    · exact .inl (hagrees k w' hl)
    · by_cases hw : w' = w
      · subst hw
        unfold Arrives Agrees
        simp only [World.setNode_self, World.setNode_spec]
        rcases eq_or_mem_eraseIdx hr hr' with rfl | hother
        · rcases h.covers k hcov with hdone | ⟨r'', hr'', hcov'⟩
          · exact .inl hdone
          · exact .inr ⟨r'', List.mem_append_right _ hr'', hcov'⟩
        · exact .inr ⟨r', List.mem_append_left _ hother, hcov⟩
      · refine .inr ⟨r', ?_, hcov⟩
        rwa [World.setNode_ne _ _ hw]

/-- A needed key whose entry has been moved here, or is going to be, stays so. -/
theorem RunEffect.moved (h : RunEffect cfg s w nd r next) (hr : (s.node w).bg[i]? = some r)
    (hold : ∀ m l, ((s.node w).table (cfg.bucketOf k)).map = some m → m.get k = some l → l = w ∨ ∃ r ∈ (s.node w).bg, r.Moves k)
    {m : KeyMap K} (hm : (nd.table (cfg.bucketOf k)).map = some m) (hl : m.get k = some l) :
    l = w ∨ ∃ r' ∈ (s.node w).bg.eraseIdx i ++ next, r'.Moves k := by
  -- if the entry was not touched, the goroutine that was going to move it still is
  have hkept : (l = w ∨ ∃ r ∈ (s.node w).bg, r.Moves k) →
      l = w ∨ ∃ r' ∈ (s.node w).bg.eraseIdx i ++ next, r'.Moves k := by
    rintro (hlocal | ⟨r', hr', hmoves⟩)
    · exact .inl hlocal
    · rcases eq_or_mem_eraseIdx hr hr' with rfl | hother
      · rcases h.moves k hmoves with ⟨m', htable⟩ | ⟨r'', hr'', hmoves'⟩
        · rw [htable, KeyLookupTableV2.withMap_self] at hm
          obtain rfl : m'.set k w = m := Option.some.inj hm
          rw [GoMap.get_set_self] at hl
          exact .inl (Option.some.inj hl).symm
        · exact .inr ⟨r'', List.mem_append_right _ hr'', hmoves'⟩
      · exact .inr ⟨r', List.mem_append_left _ hother, hmoves⟩
  rcases h.table with hsame | ⟨k₀, m₀, hm₀, htable, -⟩
  · rw [hsame] at hm
    exact hkept (hold m l hm hl)
  · by_cases hb : cfg.bucketOf k = cfg.bucketOf k₀
    · have hm' := hm
      rw [htable, hb, KeyLookupTableV2.withMap_self] at hm'
      obtain rfl : m₀.set k₀ w = m := Option.some.inj hm'
      have hl' := hl
      rw [GoMap.get_set] at hl'
      split_ifs at hl' with hkk
      · exact .inl (Option.some.inj hl').symm
      · exact hkept (hold m₀ l (hb ▸ hm₀) hl')
    · have hm' := hm
      rw [htable, KeyLookupTableV2.withMap_ne _ _ hb] at hm'
      exact hkept (hold m l hm' hl)

/-- The keys a scan collects are owned here and stored at the cancelling worker. -/
theorem LastValue.collected (h : LastValue cfg s) (hcustody : Custody cfg s) (habsent : AbsentKeys cfg s)
    {c : WorkerID} (hne : c ≠ w) {b : BucketID} {m : KeyMap K} (hm : ((s.node w).table b).map = some m)
    (hk : m.get k = some c) : Owned cfg s w k ∧ Agrees s c k := by
  have hsome : (m.get k).isSome := by simp [hk]
  obtain rfl := hcustody.keyed w b m hm k hsome
  have hholder : s.holder (cfg.bucketOf k) = some w := by
    by_contra hnot
    simp [hcustody.unheld w _ m hm hnot k] at hk
  refine ⟨⟨hholder, habsent.spec_ne_none hcustody hholder hm hsome⟩, ?_⟩
  exact (h.located k w m c hholder hm hk).resolve_right fun hlocal => hne hlocal.1

/-- **What a goroutine becomes is sound again.** -/
theorem RoutineStep.sound_next
    (h : RoutineStep cfg (fun v => (s.node v).backend) w (s.node w) siblings choice r nd next)
    (hsound : Sound cfg s w r) (hlast : LastValue cfg s) (hcustody : Custody cfg s) (habsent : AbsentKeys cfg s)
    (hkeep : Preserves cfg s s' w) (hspec : s'.spec = s.spec) (hres : (s'.node w).res = nd.res)
    (hbackend : (s'.node w).backend = nd.backend) : ∀ r' ∈ next, Sound cfg s' w r' := by
  have hsound' : Sound cfg s' w r := hsound.preserved hkeep
  have hcollected : ∀ {c : WorkerID} {dup got : List K} {b : BucketID} {m : KeyMap K}, c ≠ w →
      (∀ k ∈ got, Owned cfg s' w k ∧ Agrees s' c k) → ((s.node w).table b).map = some m →
      ∀ k ∈ (collect cfg c dup m choice.order got).1, Owned cfg s' w k ∧ Agrees s' c k := by
    intro c dup got b m hne hgot hm k hk
    rcases collect_subset cfg c dup m choice.order got k hk with hold | hnew
    · exact hgot k hold
    · obtain ⟨hown, hag⟩ := hlast.collected hcustody habsent hne hm hnew.1
      obtain ⟨hholder, -, hagrees, -⟩ := hkeep k hown.1
      exact ⟨⟨hholder, hspec ▸ hown.2⟩, hagrees c hag⟩
  cases h with
  | readLocalEnd | storeEnd | updateAddrEnd | relocateEnd | finishIdle | signal => simp
  | readLocal k | store _ k | updateAddr k todo m hm hk | relocate c k todo m hlock hm hk =>
    refine forall_mem_singleton.mpr ?_
    exact fun k' hk' => hsound' k' (List.mem_cons_of_mem k hk')
  | fetchEnd =>
    refine forall_mem_singleton.mpr ?_
    exact fun k hk => ⟨(hsound'.2 k hk).1, (hsound'.2 k hk).2.resolve_left (by simp)⟩
  | fetch _ k =>
    refine forall_mem_singleton.mpr ?_
    refine ⟨fun k' hk' => hsound'.1 k' (List.mem_cons_of_mem k hk'), fun k' hk' => ?_⟩
    obtain ⟨hown, hprog⟩ := hsound'.2 k' hk'
    refine ⟨hown, ?_⟩
    rcases hprog with hmem | hdone
    · rcases mem_cons.mp hmem with rfl | hrest
      · have hvalue := (hsound.1 k' (by simp)).2.getD (hsound.2 k' (hsound.1 k' (by simp)).1).1.2
        exact .inr (by simpa [hres, hspec] using hvalue)
      · exact .inl hrest
    · exact .inr hdone
  | storeMore src _ htriggered =>
    refine forall_mem_singleton.mpr ?_
    exact hlast.cancelling w src htriggered
  | additional =>
    refine forall_mem_singleton.mpr ?_
    exact ⟨hsound, by simp⟩
  | scanEnd =>
    refine forall_mem_singleton.mpr ?_
    exact hsound'.2
  | scanSkip | mark =>
    refine forall_mem_singleton.mpr ?_
    exact hsound'
  | scanFull _ _ _ _ _ _ _ hm =>
    refine forall_mem_singleton.mpr ?_
    exact hcollected hsound.1 hsound'.2 hm
  | scan _ _ _ _ _ _ _ hm =>
    refine forall_mem_singleton.mpr ?_
    exact ⟨hsound.1, hcollected hsound.1 hsound'.2 hm⟩
  | requestEnd | disable | dropLocks | dropFinished =>
    refine forall_mem_singleton.mpr ?_
    trivial
  | request _ k todo _ chunk hchunk =>
    refine forall_mem_singleton.mpr ?_
    have hkeys : chunk.map Prod.fst = (k :: todo).take (choice.size + 1) := by
      simp [hchunk, Function.comp_def]
    refine ⟨fun k' hk' => hsound' k' (List.mem_of_mem_drop hk'), fun k' v hkv => ?_, fun k' hk' => ?_⟩
    · rw [hchunk] at hkv
      obtain ⟨k₀, hmem, heq⟩ := List.mem_map.mp hkv
      obtain ⟨rfl, rfl⟩ := Prod.mk.injEq .. ▸ heq
      obtain ⟨hown, hag⟩ := hsound k₀ (List.mem_of_mem_take hmem)
      exact ⟨(hsound' k₀ (List.mem_of_mem_take hmem)).1, by rw [hspec, hag.getD hown.2]⟩
    · refine ⟨(hsound' k' ?_).1, .inl hk'⟩
      rw [hkeys] at hk'
      exact List.mem_of_mem_take hk'
  | storeChunkEnd =>
    intro r' hr'
    rcases mem_cons.mp hr' with rfl | hr'
    · exact hsound'.1
    · cases List.mem_singleton.mp hr'
      exact fun k hk => ⟨(hsound'.2.2 k hk).1, (hsound'.2.2 k hk).2.resolve_left (by simp)⟩
  | storeChunk c chunk k v todo rest allDone =>
    refine forall_mem_singleton.mpr ?_
    refine ⟨hsound'.1, fun k' v' hk' => hsound'.2.1 k' v' (List.mem_cons_of_mem _ hk'), fun k' hk' => ?_⟩
    obtain ⟨hown, hprog⟩ := hsound'.2.2 k' hk'
    refine ⟨hown, ?_⟩
    rcases hprog with hmem | hdone
    · rcases mem_cons.mp hmem with rfl | hrest
      · have hvalue := (hsound.2.1 k' v (by simp)).2
        exact .inr (by simp [Agrees, hbackend, hspec, hvalue])
      · exact .inl hrest
    · exact .inr hdone
  | finish =>
    intro r' hr'
    split_ifs at hr'
    · cases List.mem_singleton.mp hr'
      trivial
    · simp at hr'

end LazyByKey
end Koala
