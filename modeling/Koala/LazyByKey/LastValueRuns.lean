import Koala.LazyByKey.LastValue

/-!
# The location invariant over whole runs

Every step of the store machine keeps `LastValue`, given that main loops stay within their custody, key maps
arrive clean and handovers find the wait group drained.  The last theorems read off what that means for the table
operations: none of their nil-map and missing-key checks can fail.
-/

namespace Koala
namespace LazyByKey

open Lib Lib.Outcome Keyby
open Partition (WorkerID BucketID)
open World (setNode_ne setNode_self)
open KeyLookupTableV2 (deserialize getWorkerID_eq_ok insertOrUpdateKey removeKey withMap_ne withMap_self)

variable {K : Type} [DecidableEq K]

namespace LastValue

variable {cfg : Config K} {s s' : World K} {a : Action K}

theorem initial (cfg : Config K) (workers : List WorkerID) (owners : PartitionTable) :
    LastValue cfg (World.initial cfg workers owners) := by
  refine ⟨fun k w m l _ hm hl => ?_, by simp [World.initial], fun w r hr => ?_, fun w old new hmain => ?_,
    by simp [World.initial, Node.fresh, Main.requested], fun w c hc => ?_⟩
  · simp only [World.initial, Node.fresh, deserialize] at hm
    split_ifs at hm
    cases hm
    simp at hl
  · simp [World.initial, Node.fresh] at hr
  · simp [World.initial, Node.fresh] at hmain
  · simp [World.initial, Node.fresh, EventualMeta.idle] at hc

variable {k : K} {w l : WorkerID}

/-- When its goroutines have finished, everything the map of the holder says is true. -/
theorem located_of_drained (h : LastValue cfg s) {m : KeyMap K}
    (hholder : s.holder (cfg.bucketOf k) = some w) (hdrained : (s.node w).bg = [])
    (hm : ((s.node w).table (cfg.bucketOf k)).map = some m) (hl : m.get k = some l) : Agrees s l k := by
  rcases h.located k w m l hholder hm hl with hag | ⟨rfl, hag | ⟨r, hr, -⟩⟩
  · exact hag
  · exact hag
  · simp [hdrained] at hr

/-- What the invariant says about worker `w` with the record `nd`. -/
structure At (cfg : Config K) (s : World K) (w : WorkerID) (nd : Node K) : Prop where
  located : ∀ k m l, s.holder (cfg.bucketOf k) = some w → (nd.table (cfg.bucketOf k)).map = some m →
    m.get k = some l → Agrees s l k ∨ (l = w ∧ Arrives s w k)
  sound : ∀ r ∈ nd.bg, Sound cfg s w r
  read : ∀ old new, nd.main = .reading old new → ∀ k ∈ new, nd.res k = s.spec k ∨ ∃ r ∈ nd.bg, r.Needs k
  moved : ∀ k ∈ nd.main.requested, ∀ m l, (nd.table (cfg.bucketOf k)).map = some m → m.get k = some l →
    l = w ∨ ∃ r ∈ nd.bg, r.Moves k
  cancelling : ∀ c, (nd.em.affected.get c).isSome → c ≠ w

variable {nd : Node K}

/-- A step that changes the record of worker `w` alone. -/
theorem changeAt (h : LastValue cfg s) (hnode : s'.node w = nd) (hsame : ∀ w' ≠ w, s'.node w' = s.node w')
    (hholder : s'.holder = s.holder) (hkeep : ∀ w' ≠ w, Preserves cfg s s' w')
    (hspec : ∀ w' ≠ w, ∀ k ∈ (s.node w').main.requested, s'.spec k = s.spec k) (hw : At cfg s' w nd)
    (hflight : ∀ f ∈ s'.flight, ∀ k m l, (cfg.bucketOf k, m) ∈ f.entries → m.get k = some l → Agrees s' l k) :
    LastValue cfg s' := by
  have hat : ∀ w', At cfg s' w' (s'.node w') := by
    intro w'
    by_cases heq : w' = w
    · rw [heq, hnode]
      exact hw
    · rw [hsame w' heq]
      refine ⟨fun k m l hheld hm hl => ?_, fun r hr => (h.sound w' r hr).preserved (hkeep w' heq),
        fun old new hmain k hk => ?_, h.moved w', h.cancelling w'⟩
      · rw [hholder] at hheld
        obtain ⟨-, -, hagrees, -, harrives⟩ := hkeep w' heq k hheld
        exact (h.located k w' m l hheld hm hl).imp (hagrees l) (And.imp_right harrives)
      · rw [hspec w' heq k (by rw [hmain]; exact List.mem_append_right old hk)]
        exact h.read w' old new hmain k hk
  exact ⟨fun k w' => (hat w').located k, hflight, fun w' => (hat w').sound, fun w' => (hat w').read,
    fun w' => (hat w').moved, fun w' => (hat w').cancelling⟩

theorem deploy (h : LastValue cfg s) (hcustody : Custody cfg s) {owners : PartitionTable} (hnew : w ∉ s.deployed) :
    LastValue cfg { s.setNode w (.fresh (.deserialize owners w)) with deployed := w :: s.deployed } := by
  -- the backend of a worker that is not deployed is empty before and after
  have hagrees : ∀ l k, Agrees s l k →
      Agrees { s.setNode w (.fresh (.deserialize owners w)) with deployed := w :: s.deployed } l k := by
    intro l k hl
    unfold Agrees at hl ⊢
    by_cases hw : l = w
    · subst hw
      rw [(hcustody.undeployed l hnew).2.2 k] at hl
      simpa [Node.fresh] using hl
    · change ((s.setNode w _).node l).backend k = s.spec k
      rwa [setNode_ne _ _ hw]
  have hne : ∀ b w', s.holder b = some w' → w' ≠ w := fun b w' hb heq =>
    hnew (heq ▸ (hcustody.held b w' hb).1)
  have hsame : ∀ w', w' ≠ w →
      ({ s.setNode w (.fresh (.deserialize owners w)) with deployed := w :: s.deployed } : World K).node w'
        = s.node w' := fun w' hw => setNode_ne s _ hw
  have hkeep : ∀ w', Preserves cfg s
      { s.setNode w (.fresh (.deserialize owners w)) with deployed := w :: s.deployed } w' := by
    intro w' k hholder
    have hw := hne _ w' hholder
    refine ⟨hholder, rfl, fun l => hagrees l k, ?_, ?_⟩
    · rw [hsame w' hw]
      exact id
    · rintro (hag | ⟨r, hr, hcov⟩)
      · exact .inl (hagrees w' k hag)
      · exact .inr ⟨r, (hsame w' hw).symm ▸ hr, hcov⟩
  refine h.changeAt (setNode_self s w _) hsame rfl (fun w' _ => hkeep w') (fun _ _ _ _ => rfl) ?_
    fun f hf k m l hmem hl => hagrees l k (h.flight f hf k m l hmem hl)
  exact ⟨fun k _ _ hheld => absurd rfl (hne _ w hheld), by simp [Node.fresh], by simp [Node.fresh],
    by simp [Node.fresh, Main.requested], by simp [Node.fresh, EventualMeta.idle]⟩

omit [DecidableEq K] in
theorem arrives_setNode (hbackend : nd.backend = (s.node w).backend) (hbg : nd.bg = (s.node w).bg) (h : Arrives s w k) :
    Arrives (s.setNode w nd) w k := by
  refine h.imp (Agrees.setNode hbackend) fun ⟨r, hr, hcov⟩ => ⟨r, ?_, hcov⟩
  rwa [setNode_self, hbg]

omit [DecidableEq K] in
theorem sound_setNode {r : Routine K} (hbackend : nd.backend = (s.node w).backend) (hbg : nd.bg = (s.node w).bg)
    (hres : nd.res = (s.node w).res) (h : Sound cfg s w r) :
    Sound cfg (s.setNode w nd) w r := by
  have hkeep : Preserves cfg s (s.setNode w nd) w := by
    refine fun k hheld => ⟨hheld, rfl, fun l => Agrees.setNode hbackend, fun hk => ?_, arrives_setNode hbackend hbg⟩
    rw [setNode_self, hres]
    exact hk
  exact h.preserved hkeep

section

variable (h : LastValue cfg s)
include h

/-- A change to worker `w` alone that keeps its table and backend. -/
theorem setNode (htable : nd.table = (s.node w).table)
    (hbackend : nd.backend = (s.node w).backend) (harrives : ∀ k, Arrives s w k → Arrives (s.setNode w nd) w k)
    (hsound : ∀ r ∈ nd.bg, Sound cfg (s.setNode w nd) w r)
    (hread : ∀ old new, nd.main = .reading old new → ∀ k ∈ new, nd.res k = s.spec k ∨ ∃ r ∈ nd.bg, r.Needs k)
    (hmoved : ∀ k ∈ nd.main.requested, ∀ m l, ((s.node w).table (cfg.bucketOf k)).map = some m → m.get k = some l → l = w ∨ ∃ r ∈ nd.bg, r.Moves k)
    (hcancelling : ∀ c, (nd.em.affected.get c).isSome → c ≠ w) : LastValue cfg (s.setNode w nd) := by
  have hagrees : ∀ l k, Agrees s l k → Agrees (s.setNode w nd) l k := fun l k => Agrees.setNode hbackend
  have hsame : ∀ w' ≠ w, (s.setNode w nd).node w' = s.node w' := fun w' hw => setNode_ne s nd hw
  refine h.changeAt (setNode_self s w nd) hsame rfl (fun w' hw k hholder => ?_) (fun _ _ _ _ => rfl) ?_
    fun f hf k m l hmem hl => hagrees l k (h.flight f hf k m l hmem hl)
  · refine ⟨hholder, rfl, fun l => hagrees l k, ?_, ?_⟩
    · rw [hsame w' hw]
      exact id
    · exact Or.imp (hagrees w' k) fun ⟨r, hr, hcov⟩ => ⟨r, (hsame w' hw).symm ▸ hr, hcov⟩
  · refine ⟨fun k m l hholder hm hl => ?_, hsound, hread, fun k hk => ?_, hcancelling⟩
    · rw [htable] at hm
      exact (h.located k w m l hholder hm hl).imp (hagrees l k) (And.imp_right (harrives k))
    · rw [htable]
      exact hmoved k hk

variable (hcustody : Custody cfg s) (habsent : AbsentKeys cfg s)
include hcustody habsent

/-- **The lookup of a drained holder** names a worker that stores exactly the last flushed value. -/
theorem getWorkerID_agrees
    (hholder : s.holder (cfg.bucketOf k) = some w) (hdrained : (s.node w).bg = []) :
    ∃ l, (s.node w).table.getWorkerID k (cfg.bucketOf k) = .ok l ∧ Agrees s l k := by
  obtain ⟨-, hlocal, hsome⟩ := hcustody.held _ w hholder
  obtain ⟨m, hm⟩ := Option.isSome_iff_exists.mp hsome
  refine ⟨_, getWorkerID_eq_ok.mpr ⟨m, hm, rfl⟩, ?_⟩
  cases hl : m.get k with
  | none =>
    have hspec := (habsent.listed k w m hholder hm).mp hl
    rw [Option.getD_none, hlocal, Agrees, hspec]
    exact (habsent.not_kept hholder hspec).1
  | some => exact h.located_of_drained hholder hdrained hm hl

theorem startRead {keys : List K}
    {located : List (K × WorkerID)} (hmain : ∀ old new, (s.node w).main ≠ .reading old new)
    (hdrained : (s.node w).bg = []) (hrouted : ∀ k ∈ keys, s.holder (cfg.bucketOf k) = some w)
    (hlocate : locate cfg (s.node w).table keys = .ok located) :
    LastValue cfg (s.setNode w { s.node w with
      res := fun _ => none
      main := .reading (s.node w).main.keys keys
      bg := readRoutines w (s.node w).em located }) := by
  obtain ⟨hkeys, hlookup⟩ := locate_spec hlocate
  have hholder : ∀ k l, (k, l) ∈ located → s.holder (cfg.bucketOf k) = some w := fun k l hmem =>
    hrouted k (hkeys ▸ List.mem_map_of_mem hmem)
  have hvalue : ∀ k l, (k, l) ∈ located → Agrees s l k := by
    intro k l hmem
    obtain ⟨l', hl', hag⟩ := h.getWorkerID_agrees hcustody habsent (hholder k l hmem) hdrained
    rw [hlookup k l hmem] at hl'
    cases hl'
    exact hag
  -- a key located elsewhere is listed, so it has state
  have howned : ∀ k l, (k, l) ∈ located → l ≠ w → Owned cfg s w k := by
    intro k l hmem hne
    have hheld := hholder k l hmem
    obtain ⟨m, hm, hloc⟩ := getWorkerID_eq_ok.mp (hlookup k l hmem)
    refine ⟨hheld, fun hspec => ?_⟩
    rw [(habsent.listed k w m hheld hm).mpr hspec, Option.getD_none, (hcustody.held _ w hheld).2.1] at hloc
    exact hne hloc.symm
  have hfetch : ∀ k l, (k, l) ∈ located → l ≠ w →
      Routine.fetch l (keysAt located l) (keysAt located l) (s.node w).em.enabled
        ∈ readRoutines w (s.node w).em located := fun k l hmem hne =>
    mem_readRoutines.mpr (.inr (.inl ⟨l, List.mem_map.mpr ⟨(k, l), hmem, rfl⟩, hne, rfl⟩))
  refine h.setNode rfl rfl (fun k hk => ?_) (fun r hr => ?_) (fun old new hmain k hk => .inr ?_)
    (fun k hk m l hm hl => ?_) (h.cancelling w)
  · rcases hk with hag | ⟨r, hr, -⟩
    · exact .inl (Agrees.setNode rfl hag)
    · simp [hdrained] at hr
  · rcases mem_readRoutines.mp hr with rfl | ⟨src, -, hne, rfl⟩ | ⟨-, c, hc, -, rfl⟩ | rfl
    · intro k hk
      have hmem := mem_keysAt.mp hk
      exact ⟨hholder k w hmem, Agrees.setNode rfl (hvalue k w hmem)⟩
    · refine ⟨fun k hk => ⟨hk, Agrees.setNode rfl (hvalue k src (mem_keysAt.mp hk))⟩, fun k hk => ⟨?_, .inl hk⟩⟩
      exact howned k src (mem_keysAt.mp hk) hne
    · exact h.cancelling w c hc
    · intro k hk
      obtain ⟨l, hl, hk⟩ := List.mem_flatMap.mp hk
      have hmem := mem_keysAt.mp hk
      have hne : l ≠ w := of_decide_eq_true (List.mem_filter.mp hl).2
      refine ⟨howned k l hmem hne,
        .inr ⟨.fetch l (keysAt located l) (keysAt located l) (s.node w).em.enabled, ?_, hk⟩⟩
      rw [setNode_self]
      exact hfetch k l hmem hne
  · cases hmain
    obtain ⟨⟨k', l⟩, hmem, rfl⟩ := List.mem_map.mp (hkeys ▸ hk)
    by_cases hl : l = w
    · subst hl
      exact ⟨_, mem_readRoutines.mpr (.inl rfl), mem_keysAt.mpr hmem⟩
    · exact ⟨_, hfetch k' l hmem hl, mem_keysAt.mpr hmem⟩
  · rcases List.mem_append.mp hk with hold | hnew
    · -- the keys read before have all been moved: the wait group is drained
      have hrequested : k ∈ (s.node w).main.requested := by
        cases hcur : (s.node w).main with
        | loopHead => simp [hcur, Main.keys] at hold
        | reading old new => exact absurd hcur (hmain old new)
        | processing => simpa [hcur, Main.keys, Main.requested] using hold
      rcases h.moved w k hrequested m l hm hl with hlocal | ⟨r, hr, -⟩
      · exact .inl hlocal
      · simp [hdrained] at hr
    · obtain ⟨⟨k', l'⟩, hmem, rfl⟩ := List.mem_map.mp (hkeys ▸ hnew)
      obtain ⟨m', hm', hloc⟩ := getWorkerID_eq_ok.mp (hlookup k' l' hmem)
      obtain rfl : m' = m := Option.some.inj (hm'.symm.trans hm)
      obtain rfl : l = l' := by simpa [hl] using hloc
      by_cases hlw : l = w
      · exact .inl hlw
      · refine .inr ⟨_, mem_readRoutines.mpr (.inr (.inr (.inr rfl))), ?_⟩
        refine List.mem_flatMap.mpr ⟨l, ?_, mem_keysAt.mpr hmem⟩
        exact List.mem_filter.mpr ⟨List.mem_dedup.mpr (List.mem_map.mpr ⟨_, hmem, rfl⟩), by simpa using hlw⟩

theorem run {i : Nat}
    {choice : Choice K} {r : Routine K} {next : List (Routine K)} (hr : (s.node w).bg[i]? = some r)
    (hrun : RoutineStep cfg (fun v => (s.node v).backend) w (s.node w) ((s.node w).bg.eraseIdx i) choice r nd next) :
    LastValue cfg (s.setNode w { nd with bg := (s.node w).bg.eraseIdx i ++ next }) := by
  have hsound := h.sound w r (List.mem_of_getElem? hr)
  have heffect := hrun.effect hsound
  have hkeep := heffect.preserves hr
  have hagrees : ∀ l k, Agrees s l k →
      Agrees (s.setNode w { nd with bg := (s.node w).bg.eraseIdx i ++ next }) l k := by
    intro l k hl
    unfold Agrees
    by_cases hw : l = w
    · subst hw
      simp only [setNode_self, World.setNode_spec]
      exact (heffect.backend k).elim (fun hsame => hsame.trans hl) id
    · rwa [setNode_ne _ _ hw]
  refine h.changeAt (setNode_self s w _) (fun w' hw => setNode_ne s _ hw) rfl (fun w' _ => hkeep w')
    (fun _ _ _ _ => rfl) ⟨fun k m l hholder hm hl => ?_, fun r' hr' => ?_, fun old new hmain k hk => ?_,
      fun k hk m l hm hl => ?_, fun c hc => ?_⟩ fun f hf k m l hmem hl => hagrees l k (h.flight f hf k m l hmem hl)
  · have harrives := (hkeep w k hholder).2.2.2.2
    have hold : ∀ m', ((s.node w).table (cfg.bucketOf k)).map = some m' → m'.get k = some l →
        Agrees (s.setNode w { nd with bg := (s.node w).bg.eraseIdx i ++ next }) l k ∨
          (l = w ∧ Arrives (s.setNode w { nd with bg := (s.node w).bg.eraseIdx i ++ next }) w k) :=
      fun m' hm' hl' => (h.located k w m' l hholder hm' hl').imp (hagrees l k) (And.imp_right harrives)
    rcases heffect.table with hsame | ⟨k₀, m₀, hm₀, htable, hk₀⟩
    · rw [hsame] at hm
      exact hold m hm hl
    · simp only [htable] at hm
      by_cases hb : cfg.bucketOf k = cfg.bucketOf k₀
      · rw [hb, withMap_self] at hm
        obtain rfl : m₀.set k₀ w = m := Option.some.inj hm
        rw [GoMap.get_set] at hl
        split_ifs at hl with hkk
        · -- the entry that has just been moved here
          subst hkk
          exact .inr ⟨(Option.some.inj hl).symm, harrives hk₀⟩
        · exact hold m₀ (hb ▸ hm₀) hl
      · rw [withMap_ne _ _ hb] at hm
        exact hold m hm hl
  · rcases List.mem_append.mp hr' with hother | hnext
    · exact (h.sound w r' (List.mem_of_mem_eraseIdx hother)).preserved (hkeep w)
    · exact hrun.sound_next hsound h hcustody habsent (hkeep w) rfl (by rw [setNode_self])
        (by rw [setNode_self]) r' hnext
  · have hmain' : (s.node w).main = .reading old new := hrun.frame.main ▸ hmain
    rcases h.read w old new hmain' k hk with hdone | ⟨r', hr', hneeds⟩
    · exact .inl ((heffect.res k).elim (fun hsame => hsame.trans hdone) id)
    · rcases eq_or_mem_eraseIdx hr hr' with rfl | hother
      · rcases heffect.needs k hneeds with hdone | ⟨r'', hr'', hneeds'⟩
        · exact .inl hdone
        · exact .inr ⟨r'', List.mem_append_right _ hr'', hneeds'⟩
      · exact .inr ⟨r', List.mem_append_left _ hother, hneeds⟩
  · exact heffect.moved hr (h.moved w k (hrun.frame.main ▸ hk)) hm hl
  · simp only [heffect.affected] at hc
    exact h.cancelling w c hc

/-- When the goroutines have finished, the worker itself stores the last value of every key it has read. -/
theorem requested_agrees
    (hdrained : (s.node w).bg = []) (hk : k ∈ (s.node w).main.requested) : Agrees s w k := by
  have hholder := hcustody.requested w k hk
  obtain ⟨m, hm⟩ := Option.isSome_iff_exists.mp (hcustody.held _ w hholder).2.2
  cases hl : m.get k with
  | none =>
    have hspec := (habsent.listed k w m hholder hm).mp hl
    exact (habsent.not_kept hholder hspec).1.trans hspec.symm
  | some l =>
    rcases h.moved w k hk m l hm hl with rfl | ⟨r, hr, -⟩
    · exact h.located_of_drained hholder hdrained hm hl
    · simp [hdrained] at hr

variable {table : KeyLookupTableV2 K}

theorem flush {op : FlushOp}
    {keys : List K} (hmain : (s.node w).main = .processing keys) (hk : k ∈ keys) (hdrained : (s.node w).bg = [])
    (htable : FlushOp.updateTable (s.node w).table k (cfg.bucketOf k) w op = .ok table) :
    LastValue cfg
      { s.setNode w { s.node w with
          table := table
          backend := Function.update (s.node w).backend k (op.apply ((s.node w).backend k)) } with
        spec := Function.update s.spec k (op.apply (s.spec k)) } := by
  have hrequested : k ∈ (s.node w).main.requested := by rwa [hmain]
  have hholder := hcustody.requested w k hrequested
  have hagree := h.requested_agrees hcustody habsent hdrained hrequested
  obtain ⟨m, m', hm, rfl, hother, hthis⟩ := FlushOp.updateTable_eq_ok htable
  set s' : World K :=
    { s.setNode w { s.node w with
        table := (s.node w).table.withMap (cfg.bucketOf k) m'
        backend := Function.update (s.node w).backend k (op.apply ((s.node w).backend k)) } with
      spec := Function.update s.spec k (op.apply (s.spec k)) } with hs'
  have hself : s'.node w = { s.node w with
      table := (s.node w).table.withMap (cfg.bucketOf k) m'
      backend := Function.update (s.node w).backend k (op.apply ((s.node w).backend k)) } := setNode_self s w _
  have hsame : ∀ w', w' ≠ w → s'.node w' = s.node w' := fun w' hw => setNode_ne s _ hw
  have hspec : ∀ k', k' ≠ k → s'.spec k' = s.spec k' := fun k' hkk => Function.update_of_ne hkk _ _
  have hwritten : Agrees s' w k := by
    unfold Agrees
    rw [hself]
    simp only [Function.update_self, hs']
    rw [show (s.node w).backend k = s.spec k from hagree]
  have hagrees : ∀ l k', k' ≠ k → Agrees s l k' → Agrees s' l k' := by
    intro l k' hkk hl
    unfold Agrees at hl ⊢
    rw [hspec k' hkk, ← hl]
    by_cases hw : l = w
    · subst hw
      rw [hself]
      exact Function.update_of_ne hkk _ _
    · rw [hsame l hw]
  have harrives : ∀ w' k', k' ≠ k → Arrives s w' k' → Arrives s' w' k' := by
    intro w' k' hkk
    refine Or.imp (hagrees w' k' hkk) fun ⟨r, hr, hcov⟩ => ⟨r, ?_, hcov⟩
    by_cases hw : w' = w
    · subst hw
      rwa [hself]
    · rwa [hsame w' hw]
  have hne : ∀ w' k', w' ≠ w → s.holder (cfg.bucketOf k') = some w' → k' ≠ k := by
    rintro w' k' hw hheld rfl
    exact hw (Option.some.inj (hheld.symm.trans hholder))
  -- the entries of the other keys are the old ones
  have hentry : ∀ k', k' ≠ k → ∀ m'', ((s.node w).table.withMap (cfg.bucketOf k) m' (cfg.bucketOf k')).map = some m'' →
      ∃ m₀, ((s.node w).table (cfg.bucketOf k')).map = some m₀ ∧ m''.get k' = m₀.get k' := by
    intro k' hkk m'' hm''
    by_cases hb : cfg.bucketOf k' = cfg.bucketOf k
    · simp only [hb, withMap_self, Option.some.injEq] at hm''
      subst hm''
      exact ⟨m, hb ▸ hm, hother k' hkk⟩
    · simp only [withMap_ne _ _ hb] at hm''
      exact ⟨m'', hm'', rfl⟩
  have hlocal : ∀ m'' l, ((s.node w).table.withMap (cfg.bucketOf k) m' (cfg.bucketOf k)).map = some m'' →
      m''.get k = some l → l = w := by
    intro m'' l hm'' hl
    simp only [withMap_self, Option.some.injEq] at hm''
    subst hm''
    rcases hthis with ⟨hget, -⟩ | ⟨hget, -⟩
    · exact (Option.some.inj (hget.symm.trans hl)).symm
    · rw [hget] at hl
      cases hl
  refine h.changeAt hself hsame rfl (fun w' hw k' hheld => ?_) (fun w' hw k' hk' => ?_)
    ⟨fun k' m'' l hheld hm'' hl => ?_, by simp [hdrained], by simp [hmain], fun k' hk' m'' l hm'' hl => ?_,
      h.cancelling w⟩ fun f hf k' m'' l hmem hl => ?_
  · have hkk := hne w' k' hw hheld
    refine ⟨hheld, hspec k' hkk, fun l => hagrees l k' hkk, ?_, harrives w' k' hkk⟩
    rw [hsame w' hw, hspec k' hkk]
    exact id
  · exact hspec k' (hne w' k' hw (hcustody.requested w' k' hk'))
  · by_cases hkk : k' = k
    · subst hkk
      obtain rfl := hlocal m'' l hm'' hl
      exact .inl hwritten
    · obtain ⟨m₀, hm₀, hget⟩ := hentry k' hkk m'' hm''
      exact (h.located k' w m₀ l hheld hm₀ (hget ▸ hl)).imp (hagrees l k' hkk) (And.imp_right (harrives w k' hkk))
  · by_cases hkk : k' = k
    · subst hkk
      exact .inl (hlocal m'' l hm'' hl)
    · obtain ⟨m₀, hm₀, hget⟩ := hentry k' hkk m'' hm''
      exact h.moved w k' hk' m₀ l hm₀ (hget ▸ hl)
  · have hkk : k' ≠ k := by
      rintro rfl
      have hfree := hcustody.flight_free f hf _ (List.mem_map_of_mem hmem)
      rw [hholder] at hfree
      cases hfree
    exact hagrees l k' hkk (h.flight f hf k' m'' l hmem hl)

end

section

variable (h : TablesChange s s') {w' : WorkerID}
include h
omit [DecidableEq K]

theorem agrees_tables (hl : Agrees s l k) : Agrees s' l k := by
  unfold Agrees at hl ⊢
  rwa [h.same, h.spec]

theorem arrives_tables (hk : Arrives s w' k) : Arrives s' w' k := by
  refine hk.imp (agrees_tables h) fun ⟨r, hr, hcov⟩ => ⟨r, ?_, hcov⟩
  rwa [h.same]

theorem preserves_tables (hheld : ∀ b, s.holder b = some w' → s'.holder b = some w') : Preserves cfg s s' w' := by
  refine fun k hk => ⟨hheld _ hk, congrFun h.spec k, fun l => agrees_tables h, ?_, arrives_tables h⟩
  rw [h.same, h.spec]
  exact id

end

theorem handover (h : LastValue cfg s) {routing : PartitionTable} {out : KeyLookupTableV2.Outgoing K}
    (hmain : (s.node w).main = .loopHead) (hdrained : (s.node w).bg = [])
    (hrouted : ∀ b < cfg.numBuckets, (s.node w).table.Leaves w routing b → s.holder b = some w)
    (hs : HandsOver cfg w routing out s s') : LastValue cfg s' := by
  have ht := hs.toTablesChange
  refine ⟨fun k w' m l hheld hm hl => ?_, fun f hf k m l hmem hl => agrees_tables ht ?_, fun w' r hr => ?_,
    fun w' old new hmain' k hk => ?_, fun w' k hk m l hm hl => ?_, fun w' c hc => ?_⟩
  · exact (h.located k w' m l (hs.holder_eq_some.mp hheld).1 (hs.map_eq_some hm).1 hl).imp (agrees_tables ht)
      (And.imp_right (arrives_tables ht))
  · rcases List.mem_append.mp (hs.flight ▸ hf) with hold | hnew
    · exact h.flight f hold k m l hmem hl
    · obtain ⟨hlt, hleave, -, hm⟩ := mem_flightsOf_entries hs.serialized hnew hmem
      exact h.located_of_drained (hrouted _ hlt hleave) hdrained hm hl
  · rw [hs.same] at hr
    refine (h.sound w' r hr).preserved (preserves_tables ht fun b hb => hs.holder_eq_some.mpr ⟨hb, ?_⟩)
    rintro ⟨rfl, -⟩
    simp [hdrained] at hr
  · rw [hs.same] at hmain' ⊢
    rw [hs.spec]
    exact h.read w' old new hmain' k hk
  · rw [hs.same] at hk ⊢
    exact h.moved w' k hk m l (hs.map_eq_some hm).1 hl
  · rw [hs.same] at hc
    exact h.cancelling w' c hc

theorem receive (h : LastValue cfg s) (hcustody : Custody cfg s) {src dst : WorkerID} {f : Flight K}
    (hs : Installs src dst f s s') : LastValue cfg s' := by
  have ht := hs.toTablesChange
  -- a bucket that is held somewhere is not in the message
  have hstays : ∀ b w', s.holder b = some w' → b ∉ f.entries.map Prod.fst := by
    intro b w' hb hmem
    rw [hcustody.flight_free f hs.mem b hmem] at hb
    cases hb
  refine ⟨fun k w' m l hheld hm hl => ?_, fun g hg k m l hmem hl => agrees_tables ht ?_, fun w' r hr => ?_,
    fun w' old new hmain k hk => ?_, fun w' k hk m l hm hl => ?_, fun w' c hc => ?_⟩
  · rcases hs.map_eq_some hm with ⟨-, hentry⟩ | ⟨hnot, hold⟩
    · exact .inl (agrees_tables ht (h.flight f hs.mem k m l hentry hl))
    · exact (h.located k w' m l ((hs.holder_eq_some hheld).resolve_left hnot).2 hold hl).imp (agrees_tables ht)
        (And.imp_right (arrives_tables ht))
  · exact h.flight g (List.mem_of_mem_eraseP (hs.flight ▸ hg)) k m l hmem hl
  · rw [hs.same] at hr
    refine (h.sound w' r hr).preserved (preserves_tables ht fun b hb => ?_)
    rw [hs.holder, if_neg (hstays b w' hb), hb]
  · rw [hs.same] at hmain ⊢
    rw [hs.spec]
    exact h.read w' old new hmain k hk
  · rw [hs.same] at hk ⊢
    rw [hs.table_eq fun hmoved => hstays _ w' (hcustody.requested w' k hk) hmoved.2] at hm
    exact h.moved w' k hk m l hm hl
  · rw [hs.same] at hc
    exact h.cancelling w' c hc

/-- **Every step keeps the location invariant.** -/
theorem step (h : LastValue cfg s) (hcustody : Custody cfg s) (habsent : AbsentKeys cfg s)
    (hrouted : Routed cfg s a) (hdrained : Drained s a) (hstep : Step cfg s a s') : LastValue cfg s' := by
  have hwhole := hstep
  cases hstep with
  | deploy _ _ hnew => exact h.deploy hcustody hnew
  | read _ _ _ _ hmain hbg hlocate => exact h.startRead hcustody habsent hmain hbg hrouted hlocate
  | run _ _ _ _ _ _ hr hrun => exact h.run hcustody habsent hr hrun
  | readDone w _ _ hmain =>
    have hmoved := h.moved w
    rw [hmain] at hmoved
    exact h.setNode rfl rfl (fun k hk => arrives_setNode rfl rfl hk) (fun r hr => sound_setNode rfl rfl rfl
      (h.sound w r hr)) (by simp) hmoved (h.cancelling w)
  | flush _ _ _ _ _ hmain hk hbg htable => exact h.flush hcustody habsent hmain hk hbg htable
  | endUnit w =>
    exact h.setNode rfl rfl (fun k hk => arrives_setNode rfl rfl hk) (fun r hr => sound_setNode rfl rfl rfl
      (h.sound w r hr)) (by simp) (by simp [Main.requested]) (h.cancelling w)
  | handover =>
    obtain ⟨hmain, out, hs⟩ := hwhole.handsOver
    exact h.handover hmain hdrained hrouted hs
  | receive =>
    obtain ⟨-, f, hs⟩ := hcustody.installs hwhole
    exact h.receive hcustody hs
  | startEventual w affected _ _ hem =>
    obtain ⟨-, -, rfl⟩ := setEventualMigrationMeta_eq_ok hem
    refine h.setNode rfl rfl (fun k hk => arrives_setNode rfl rfl hk) (fun r hr => sound_setNode rfl rfl rfl
      (h.sound w r hr)) (h.read w) (h.moved w) fun c hc => ?_
    obtain ⟨e, he, hce⟩ := (groupAffected_spec affected c).2.mp hc
    exact fun heq => hrouted e he (heq ▸ hce)

end LastValue

/-- The nil-map and missing-key aborts of `GetWorkerID`, `UpdateKey` and `InsertOrUpdateKey`. -/
def LookupAbort : Abort → Prop
  | .table (.nilOnRequest _) => True
  | .table (.nilOnUpdate _) => True
  | .table (.notFoundOnUpdate _) => True
  | .table (.nilOnInsert _) => True
  | _ => False

section LookupAborts

variable {cfg : Config K} {s : World K}

variable {w : WorkerID}

theorem Custody.locate_ok (h : Custody cfg s) {keys : List K}
    (hrouted : ∀ k ∈ keys, s.holder (cfg.bucketOf k) = some w) :
    ∃ located, locate cfg (s.node w).table keys = .ok located := by
  suffices hloop : ∃ located, locate cfg (s.node w).table keys = .ok located ∧ True from hloop.imp fun _ => And.left
  refine forEach_total (fun _ _ => True) trivial fun done k rest acc hsplit _ => ?_
  obtain ⟨m, hm⟩ := Option.isSome_iff_exists.mp
    (h.held _ w (hrouted k (by rw [hsplit]; simp))).2.2
  exact ⟨_, bind_eq_ok.mpr ⟨_, mapAbort_eq_ok.mpr (getWorkerID_eq_ok.mpr ⟨m, hm, rfl⟩), rfl⟩,
    trivial⟩

theorem Owned.relocate_ok {k : K} (h : Owned cfg s w k) (hcustody : Custody cfg s) (habsent : AbsentKeys cfg s) :
    ∃ nd, (s.node w).relocateKey cfg w k = .ok nd := by
  obtain ⟨m, hm⟩ := Option.isSome_iff_exists.mp (hcustody.held _ w h.1).2.2
  refine ⟨_, relocateKey_eq_ok.mpr ⟨m, hm, ?_, rfl⟩⟩
  rw [Option.isSome_iff_ne_none]
  exact fun hnone => h.2 ((habsent.listed k w m h.1 hm).mp hnone)

theorem Sound.no_lookupAbort {r : Routine K} (h : Sound cfg s w r) (hcustody : Custody cfg s)
    (habsent : AbsentKeys cfg s) {siblings : List (Routine K)} {choice : Choice K} {e : Abort}
    (hrun : runRoutine cfg (fun v => (s.node v).backend) w (s.node w) siblings choice r = .abort e) :
    ¬ LookupAbort e := by
  intro he
  unfold runRoutine at hrun
  split at hrun
  case h_8 k todo =>
    obtain ⟨nd, hnd⟩ := (h k (by simp)).1.relocate_ok hcustody habsent
    simp [hnd] at hrun
  case h_9 =>
    split at hrun
    · cases hrun
      exact he
    · cases hrun
  case h_11 c dup b todo got =>
    by_cases hfinished : (s.node w).em.isFinished c b = true
    · rw [if_pos hfinished] at hrun
      cases hrun
    · rw [if_neg hfinished] at hrun
      cases hm : ((s.node w).table b).map with
      | none =>
        simp only [hm] at hrun
        cases hrun
        exact he
      | some =>
        simp only [hm] at hrun
        split_ifs at hrun
        cases hrun
        exact he
  case h_12 =>
    split at hrun
    · cases hrun
    · cases hrun
      exact he
  case h_18 c k todo =>
    obtain ⟨nd, hnd⟩ := (h k (by simp)).1.relocate_ok hcustody habsent
    split_ifs at hrun
    · cases hrun
      exact he
    · simp [hnd] at hrun
  case h_19 => split_ifs at hrun
  all_goals cases hrun

/-- **No lookup of a run fails**: where the invariants hold, no step within custody ends in a nil-map or
missing-key abort of `GetWorkerID`, `UpdateKey` or `InsertOrUpdateKey`. -/
theorem LastValue.no_lookupAbort (h : LastValue cfg s) (hcustody : Custody cfg s) (habsent : AbsentKeys cfg s)
    {a : Action K} (hrouted : Routed cfg s a) {e : Abort} (hstep : LazyByKey.step cfg s a = .abort e) : ¬ LookupAbort e := by
  intro he
  cases a with
  | deploy =>
    simp only [LazyByKey.step] at hstep
    split_ifs at hstep
  | read w =>
    obtain ⟨located, hlocate⟩ := hcustody.locate_ok hrouted
    simp only [LazyByKey.step] at hstep
    cases hmain : (s.node w).main with
    | reading old new => simp [hmain] at hstep
    | loopHead =>
      simp only [hmain, hlocate] at hstep
      split_ifs at hstep
      cases hstep
    | processing ks =>
      simp only [hmain, hlocate] at hstep
      split_ifs at hstep
      cases hstep
  | run w i =>
    simp only [LazyByKey.step] at hstep
    cases hr : (s.node w).bg[i]? with
    | none => simp [hr] at hstep
    | some r =>
      simp only [hr] at hstep
      rcases bind_eq_abort.mp hstep with hrun | ⟨x, -, hx⟩
      · exact (h.sound w r (List.mem_of_getElem? hr)).no_lookupAbort hcustody habsent hrun he
      · cases hx
  | readDone =>
    simp only [LazyByKey.step] at hstep
    split at hstep
    · split_ifs at hstep
    · cases hstep
  | flush w k op =>
    simp only [LazyByKey.step] at hstep
    cases hmain : (s.node w).main with
    | loopHead => simp [hmain] at hstep
    | reading old new => simp [hmain] at hstep
    | processing ks =>
      simp only [hmain] at hstep
      split_ifs at hstep with hready
      have hholder := hcustody.requested w k (by rw [hmain]; exact hready.1)
      obtain ⟨m, hm⟩ := Option.isSome_iff_exists.mp (hcustody.held _ w hholder).2.2
      rcases bind_eq_abort.mp hstep with htable | ⟨x, -, hx⟩
      · obtain ⟨e', he', rfl⟩ := mapAbort_eq_abort.mp htable
        cases op with
        | set v => simp [FlushOp.updateTable, insertOrUpdateKey, hm] at he'
        | merge v => simp [FlushOp.updateTable, insertOrUpdateKey, hm] at he'
        | delete =>
          simp only [FlushOp.updateTable, removeKey, hm] at he'
          split_ifs at he'
          cases he'
          exact he
      · cases hx
  | endUnit =>
    simp only [LazyByKey.step] at hstep
    split at hstep <;> cases hstep
  | handover =>
    simp only [LazyByKey.step] at hstep
    split at hstep
    · split_ifs at hstep
      rcases bind_eq_abort.mp hstep with hserialize | ⟨x, -, hx⟩
      · obtain ⟨e', he', rfl⟩ := mapAbort_eq_abort.mp hserialize
        obtain ⟨b, rfl⟩ := KeyLookupTableV2.serializeMigratingKeyMaps_eq_abort he'
        exact he
      · cases hx
    · cases hstep
  | receive =>
    simp only [LazyByKey.step] at hstep
    split at hstep
    · cases hstep
    · split_ifs at hstep
      rcases bind_eq_abort.mp hstep with hinstall | ⟨x, -, hx⟩
      · obtain ⟨e', he', rfl⟩ := mapAbort_eq_abort.mp hinstall
        obtain ⟨b, rfl⟩ := KeyLookupTableV2.deserializeMigratingKeyMaps_eq_abort he'
        exact he
      · cases hx
  | startEventual =>
    simp only [LazyByKey.step] at hstep
    split_ifs at hstep
    rcases bind_eq_abort.mp hstep with hmeta | ⟨x, -, hx⟩
    · unfold setEventualMigrationMeta at hmeta
      rcases bind_eq_abort.mp hmeta with hcheck | ⟨x, -, hmeta⟩
      · unfold check at hcheck
        split_ifs at hcheck
        cases hcheck
        exact he
      · rcases bind_eq_abort.mp hmeta with hcheck | ⟨x, -, hx⟩
        · unfold check at hcheck
          split_ifs at hcheck
          cases hcheck
          exact he
        · cases hx
    · cases hx

end LookupAborts

end LazyByKey
end Koala
