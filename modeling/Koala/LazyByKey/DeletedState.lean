import Koala.LazyByKey.StoreCustody

/-!
# Deleted state stays deleted

A key without an entry in its bucket's map is looked up in the owner's own backend, so a deleted key is gone only
if that backend has nothing left for it.  Backends keep what they once stored: a worker that gave a bucket away
still has the values it served, and a later delete by the next owner does not reach it.  What has to hold is
therefore a condition on the moment a map arrives: every key the receiver still keeps a value for is listed
in the map (`Clean`).  Under it `AbsentKeys` is an invariant, and a read of a key without state finds nothing.
-/

namespace Koala
namespace LazyByKey

open Lib Lib.Outcome Keyby
open Function (update update_self update_of_ne)
open Partition (WorkerID BucketID)
open World (setNode_ne setNode_self)

variable {K : Type} [DecidableEq K]

/-- Worker `w` has a value of `k` in its backend, or a goroutine that is going to write one. -/
def Keeps (s : World K) (w : WorkerID) (k : K) : Prop :=
  (s.node w).backend k ≠ none ∨ ∃ r ∈ (s.node w).bg, k ∈ r.pendingWrites

/-- When a worker receives key maps, they list every key of their buckets that the worker still keeps. -/
def Clean (cfg : Config K) (s : World K) : Action K → Prop
  | .receive src dst => ∀ f, s.nextFlight src dst = some f →
      ∀ k m, (cfg.bucketOf k, m) ∈ f.entries → Keeps s dst k → (m.get k).isSome
  | _ => True

/-- **The invariant of keys without state**: the map of a bucket lists exactly the keys that have a flushed value,
and the holder keeps nothing for the others. -/
structure AbsentKeys (cfg : Config K) (s : World K) : Prop where
  listed : ∀ k w m, s.holder (cfg.bucketOf k) = some w → ((s.node w).table (cfg.bucketOf k)).map = some m →
    (m.get k = none ↔ s.spec k = none)
  dropped : ∀ k w, s.holder (cfg.bucketOf k) = some w → s.spec k = none → ¬ Keeps s w k
  flight : ∀ f ∈ s.flight, ∀ k m, (cfg.bucketOf k, m) ∈ f.entries → (m.get k = none ↔ s.spec k = none)
  res : ∀ w old new, (s.node w).main = .reading old new → ∀ k ∈ new, s.spec k = none → (s.node w).res k = none

namespace AbsentKeys

variable {cfg : Config K} {s s' : World K} {a : Action K}

theorem initial (cfg : Config K) (workers : List WorkerID) (owners : PartitionTable) :
    AbsentKeys cfg (World.initial cfg workers owners) := by
  refine ⟨fun k w m hholder hm => ?_, fun k w _ _ hkeeps => ?_, by simp [World.initial], fun w old new hmain => ?_⟩
  · simp only [World.initial, Node.fresh, KeyLookupTableV2.deserialize] at hm
    split_ifs at hm
    cases hm
    simp [World.initial]
  · simp [Keeps, World.initial, Node.fresh] at hkeeps
  · simp [World.initial, Node.fresh] at hmain

variable {w : WorkerID}

/-- A step of worker `w` that flushes nothing and moves no map. -/
theorem setNode (h : AbsentKeys cfg s) {nd : Node K}
    (hlisted : ∀ k m, s.holder (cfg.bucketOf k) = some w → (nd.table (cfg.bucketOf k)).map = some m → (m.get k = none ↔ s.spec k = none))
    (hdropped : ∀ k, s.holder (cfg.bucketOf k) = some w → s.spec k = none → nd.backend k = none ∧ ∀ r ∈ nd.bg, k ∉ r.pendingWrites)
    (hres : ∀ old new, nd.main = .reading old new → ∀ k ∈ new, s.spec k = none → nd.res k = none) :
    AbsentKeys cfg (s.setNode w nd) := by
  refine ⟨fun k w' m hholder hm => ?_, fun k w' hholder hspec => ?_, h.flight, fun w' old new hmain => ?_⟩
  · by_cases hw : w' = w
    · subst hw
      rw [setNode_self] at hm
      exact hlisted k m hholder hm
    · rw [setNode_ne _ _ hw] at hm
      exact h.listed k w' m hholder hm
  · by_cases hw : w' = w
    · subst hw
      obtain ⟨hbackend, hbg⟩ := hdropped k hholder hspec
      rintro (hkeeps | ⟨r, hr, hk⟩)
      · rw [setNode_self] at hkeeps
        exact hkeeps hbackend
      · rw [setNode_self] at hr
        exact hbg r hr hk
    · unfold Keeps
      rw [setNode_ne _ _ hw]
      exact h.dropped k w' hholder hspec
  · by_cases hw : w' = w
    · subst hw
      rw [setNode_self] at hmain ⊢
      exact hres old new hmain
    · rw [setNode_ne _ _ hw] at hmain ⊢
      exact h.res w' old new hmain

variable {k : K}

section

variable (h : AbsentKeys cfg s)
include h

/-- The holder's side of `dropped`, unfolded. -/
theorem not_kept (hholder : s.holder (cfg.bucketOf k) = some w) (hspec : s.spec k = none) :
    (s.node w).backend k = none ∧ ∀ r ∈ (s.node w).bg, k ∉ r.pendingWrites := by
  have hnot := h.dropped k w hholder hspec
  unfold Keeps at hnot
  push Not at hnot
  exact hnot

theorem spec_ne_none (hcustody : Custody cfg s) {b : BucketID} {m : KeyMap K}
    (hholder : s.holder (cfg.bucketOf k) = some w) (hm : ((s.node w).table b).map = some m) (hk : (m.get k).isSome) :
    s.spec k ≠ none := by
  obtain rfl := hcustody.keyed w b m hm k hk
  intro hspec
  rw [(h.listed k w m hholder hm).mpr hspec] at hk
  cases hk

theorem read (hcustody : Custody cfg s) {keys : List K} {located : List (K × WorkerID)}
    (hlocate : locate cfg (s.node w).table keys = .ok located) :
    AbsentKeys cfg (s.setNode w { s.node w with
      res := fun _ => none
      main := .reading (s.node w).main.keys keys
      bg := readRoutines w (s.node w).em located }) := by
  refine h.setNode (fun k m => h.listed k w m) (fun k hholder hspec => ⟨(h.not_kept hholder hspec).1, ?_⟩)
    (fun _ _ _ _ _ _ => rfl)
  intro r hr hk
  rcases mem_readRoutines.mp hr with rfl | ⟨src, -, hne, rfl⟩ | ⟨-, c, -, -, rfl⟩ | rfl
  · simp [Routine.pendingWrites] at hk
  · -- a key without state is located here, so no goroutine fetches it
    have hmem : (k, src) ∈ located := by
      simpa [Routine.pendingWrites, mem_keysAt] using hk
    obtain ⟨m, hm, hloc⟩ := KeyLookupTableV2.getWorkerID_eq_ok.mp ((locate_spec hlocate).2 k src hmem)
    rw [(h.listed k w m hholder hm).mpr hspec, (hcustody.held _ w hholder).2.1] at hloc
    exact hne hloc.symm
  · simp [Routine.pendingWrites] at hk
  · simp [Routine.pendingWrites] at hk

theorem run (hcustody : Custody cfg s) {i : Nat} {r : Routine K} {nd : Node K}
    {next : List (Routine K)} (hr : (s.node w).bg[i]? = some r) (hframe : RunFrame cfg w (s.node w) nd r next) :
    AbsentKeys cfg (s.setNode w { nd with bg := (s.node w).bg.eraseIdx i ++ next }) := by
  have hmem : r ∈ (s.node w).bg := List.mem_of_getElem? hr
  have hidle : ∀ k, s.holder (cfg.bucketOf k) = some w → s.spec k = none → k ∉ r.pendingWrites :=
    fun k hholder hspec => (h.not_kept hholder hspec).2 r hmem
  refine h.setNode (fun k m hholder hm => ?_) (fun k hholder hspec => ⟨?_, fun r' hr' hk => ?_⟩)
    (fun old new hmain k hk hspec => ?_)
  · rcases hframe.table with hsame | ⟨k₀, m₀, hm₀, hk₀, htable⟩
    · rw [hsame] at hm
      exact h.listed k w m hholder hm
    · -- relocating a key does not change which keys are listed
      rw [htable] at hm
      by_cases hb : cfg.bucketOf k = cfg.bucketOf k₀
      · rw [hb] at hm hholder
        obtain rfl : m₀.set k₀ w = m := by simpa using hm
        rw [GoMap.get_set]
        split_ifs with hkk
        · subst hkk
          have hspec := h.spec_ne_none hcustody hholder hm₀ hk₀
          simp [hspec]
        · exact h.listed k w m₀ (hb ▸ hholder) (hb ▸ hm₀)
      · rw [KeyLookupTableV2.withMap_ne _ _ hb] at hm
        exact h.listed k w m hholder hm
  · rcases hframe.backend k with hsame | hpending
    · rw [hsame]
      exact (h.not_kept hholder hspec).1
    · exact absurd hpending (hidle k hholder hspec)
  · rcases List.mem_append.mp hr' with hold | hnew
    · exact (h.not_kept hholder hspec).2 r' (List.mem_of_mem_eraseIdx hold) hk
    · rcases hframe.pending r' hnew k hk with hpending | ⟨b, m, hm, hsome⟩
      · exact hidle k hholder hspec hpending
      · exact h.spec_ne_none hcustody hholder hm hsome hspec
  · have hmain' : (s.node w).main = .reading old new := hframe.main ▸ hmain
    have hholder : s.holder (cfg.bucketOf k) = some w := hcustody.requested w k (by
      rw [hmain']
      exact List.mem_append_right old hk)
    rcases hframe.res k with hsame | hlocal | hpending
    · exact hsame.trans (h.res w old new hmain' k hk hspec)
    · exact hlocal.trans (h.not_kept hholder hspec).1
    · exact absurd hpending (hidle k hholder hspec)

end

variable {table : KeyLookupTableV2 K}

theorem flush (h : AbsentKeys cfg s) (hcustody : Custody cfg s) {op : FlushOp} {keys : List K}
    (hmain : (s.node w).main = .processing keys) (hk : k ∈ keys) (hdrained : (s.node w).bg = [])
    (htable : FlushOp.updateTable (s.node w).table k (cfg.bucketOf k) w op = .ok table) :
    AbsentKeys cfg
      { s.setNode w { s.node w with
          table := table
          backend := update (s.node w).backend k (op.apply ((s.node w).backend k)) } with
        spec := update s.spec k (op.apply (s.spec k)) } := by
  have hholder : s.holder (cfg.bucketOf k) = some w := hcustody.requested w k (by rwa [hmain])
  obtain ⟨m, m', hm, rfl, hother, hthis⟩ := FlushOp.updateTable_eq_ok htable
  refine ⟨fun k' w' m'' hholder' hm'' => ?_, fun k' w' hholder' hspec => ?_, fun f hf k' m'' hmem => ?_,
    fun w' old new hmain' k' hk' hspec => ?_⟩
  · change s.holder _ = _ at hholder'
    change (((s.setNode w _).node w').table _).map = _ at hm''
    change _ ↔ update s.spec k (op.apply (s.spec k)) k' = none
    by_cases hkk : k' = k
    · subst hkk
      obtain rfl : w = w' := Option.some.inj (hholder.symm.trans hholder')
      simp only [setNode_self, KeyLookupTableV2.withMap_self, Option.some.injEq] at hm''
      subst hm''
      rw [update_self]
      rcases hthis with ⟨hget, hsome⟩ | ⟨hget, hnone⟩
      · have := hsome (s.spec k')
        simp [hget, Option.isSome_iff_ne_none.mp this]
      · simp [hget, hnone]
    · rw [update_of_ne hkk]
      by_cases hw : w' = w
      · subst hw
        simp only [setNode_self] at hm''
        by_cases hb : cfg.bucketOf k' = cfg.bucketOf k
        · rw [hb, KeyLookupTableV2.withMap_self] at hm''
          cases hm''
          rw [hother k' hkk]
          exact h.listed k' w' m hholder' (hb ▸ hm)
        · rw [KeyLookupTableV2.withMap_ne _ _ hb] at hm''
          exact h.listed k' w' m'' hholder' hm''
      · rw [setNode_ne _ _ hw] at hm''
        exact h.listed k' w' m'' hholder' hm''
  · change s.holder _ = _ at hholder'
    change update s.spec k (op.apply (s.spec k)) k' = none at hspec
    by_cases hw : w' = w
    · subst hw
      unfold Keeps
      simp only [setNode_self, hdrained]
      rintro (hkeeps | ⟨r, hr, -⟩)
      · by_cases hkk : k' = k
        · subst hkk
          rw [update_self] at hspec hkeeps
          rcases hthis with ⟨-, hsome⟩ | ⟨-, hnone⟩
          · have := hsome (s.spec k')
            simp [hspec] at this
          · exact hkeeps (hnone _)
        · rw [update_of_ne hkk] at hspec hkeeps
          exact hkeeps (h.not_kept hholder' hspec).1
      · cases hr
    · have hkk : k' ≠ k := by
        rintro rfl
        exact hw (Option.some.inj (hholder'.symm.trans hholder))
      rw [update_of_ne hkk] at hspec
      unfold Keeps
      rw [setNode_ne _ _ hw]
      exact h.dropped k' w' hholder' hspec
  · have hkk : k' ≠ k := by
      rintro rfl
      have hfree := hcustody.flight_free f hf _ (List.mem_map_of_mem hmem)
      rw [hholder] at hfree
      cases hfree
    change _ ↔ update s.spec k (op.apply (s.spec k)) k' = none
    rw [update_of_ne hkk]
    exact h.flight f hf k' m'' hmem
  · change ((s.setNode w _).node w').main = _ at hmain'
    change ((s.setNode w _).node w').res k' = none
    change update s.spec k (op.apply (s.spec k)) k' = none at hspec
    by_cases hw : w' = w
    · subst hw
      simp [hmain] at hmain'
    · rw [setNode_ne _ _ hw] at hmain' ⊢
      have hholder' := hcustody.requested w' k' (by
        rw [hmain']
        exact List.mem_append_right old hk')
      have hkk : k' ≠ k := by
        rintro rfl
        exact hw (Option.some.inj (hholder'.symm.trans hholder))
      rw [update_of_ne hkk] at hspec
      exact h.res w' old new hmain' k' hk' hspec

theorem deploy (h : AbsentKeys cfg s) (hcustody : Custody cfg s) {owners : PartitionTable} (hnew : w ∉ s.deployed) :
    AbsentKeys cfg { s.setNode w (.fresh (.deserialize owners w)) with deployed := w :: s.deployed } := by
  have hset : AbsentKeys cfg (s.setNode w (.fresh (.deserialize owners w))) := by
    refine h.setNode (fun k m hholder => ?_) (fun k hholder => ?_) (fun old new hmain => ?_)
    · exact absurd (hcustody.held _ w hholder).1 hnew
    · exact absurd (hcustody.held _ w hholder).1 hnew
    · simp [Node.fresh] at hmain
  exact ⟨hset.listed, hset.dropped, hset.flight, hset.res⟩

omit [DecidableEq K] in
theorem keeps_iff (h : TablesChange s s') {k : K} : Keeps s' w k ↔ Keeps s w k := by
  unfold Keeps
  rw [h.same]

theorem handover (h : AbsentKeys cfg s) {routing : PartitionTable} {out : KeyLookupTableV2.Outgoing K}
    (hrouted : ∀ b < cfg.numBuckets, (s.node w).table.Leaves w routing b → s.holder b = some w)
    (hs : HandsOver cfg w routing out s s') : AbsentKeys cfg s' := by
  refine ⟨fun k w' m hholder hm => ?_, fun k w' hholder hspec => ?_, fun f hf k m hmem => ?_,
    fun w' old new hmain k hk hspec => ?_⟩
  · rw [hs.spec]
    exact h.listed k w' m (hs.holder_eq_some.mp hholder).1 (hs.map_eq_some hm).1
  · rw [keeps_iff hs.toTablesChange]
    exact h.dropped k w' (hs.holder_eq_some.mp hholder).1 (hs.spec ▸ hspec)
  · rw [hs.spec]
    rcases List.mem_append.mp (hs.flight ▸ hf) with hold | hnew
    · exact h.flight f hold k m hmem
    · obtain ⟨hlt, hleave, -, hm⟩ := mem_flightsOf_entries hs.serialized hnew hmem
      exact h.listed k w m (hrouted _ hlt hleave) hm
  · rw [hs.same] at hmain ⊢
    exact h.res w' old new hmain k hk (hs.spec ▸ hspec)

theorem receive (h : AbsentKeys cfg s) {src dst : WorkerID} {f : Flight K}
    (hclean : ∀ k m, (cfg.bucketOf k, m) ∈ f.entries → Keeps s dst k → (m.get k).isSome)
    (hs : Installs src dst f s s') : AbsentKeys cfg s' := by
  refine ⟨fun k w' m hholder hm => ?_, fun k w' hholder hspec hkept => ?_, fun g hg k m hmem => ?_,
    fun w' old new hmain k hk hspec => ?_⟩
  · rw [hs.spec]
    rcases hs.map_eq_some hm with ⟨-, hentry⟩ | ⟨hstays, hold⟩
    · exact h.flight f hs.mem k m hentry
    · exact h.listed k w' m ((hs.holder_eq_some hholder).resolve_left hstays).2 hold
  · rw [keeps_iff hs.toTablesChange] at hkept
    rw [hs.spec] at hspec
    rcases hs.holder_eq_some hholder with ⟨rfl, hmoved⟩ | ⟨-, hold⟩
    · obtain ⟨⟨b, m⟩, hentry, hb⟩ := List.mem_map.mp hmoved
      obtain rfl : b = cfg.bucketOf k := hb
      have hsome := hclean k m hentry hkept
      rw [(h.flight f hs.mem k m hentry).mpr hspec] at hsome
      cases hsome
    · exact h.dropped k w' hold hspec hkept
  · rw [hs.spec]
    exact h.flight g (List.mem_of_mem_eraseP (hs.flight ▸ hg)) k m hmem
  · rw [hs.same] at hmain ⊢
    exact h.res w' old new hmain k hk (hs.spec ▸ hspec)

/-- **Every step keeps the keys without state absent**, if key maps arrive clean. -/
theorem step (h : AbsentKeys cfg s) (hcustody : Custody cfg s) (hrouted : Routed cfg s a) (hclean : Clean cfg s a)
    (hstep : Step cfg s a s') : AbsentKeys cfg s' := by
  have hwhole := hstep
  cases hstep with
  | deploy _ _ hnew => exact h.deploy hcustody hnew
  | read _ _ _ _ _ _ hlocate => exact h.read hcustody hlocate
  | run _ _ _ _ _ _ hr hrun => exact h.run hcustody hr hrun.frame
  | readDone w =>
    exact h.setNode (fun k m => h.listed k w m) (fun k => h.not_kept) (by simp)
  | flush _ _ _ _ _ hmain hk hdrained htable => exact h.flush hcustody hmain hk hdrained htable
  | endUnit w => exact h.setNode (fun k m => h.listed k w m) (fun k => h.not_kept) (by simp)
  | handover =>
    obtain ⟨-, out, hs⟩ := hwhole.handsOver
    exact h.handover hrouted hs
  | receive =>
    obtain ⟨-, f, hs⟩ := hcustody.installs hwhole
    exact h.receive (hclean f hs.next) hs
  | startEventual w =>
    exact h.setNode (fun k m => h.listed k w m) (fun k => h.not_kept) (h.res w)

end AbsentKeys

end LazyByKey
end Koala
