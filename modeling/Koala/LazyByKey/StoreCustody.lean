import Koala.LazyByKey.StoreSteps

/-!
# Custody of the key maps

The key map of a bucket is in one place: in the table of the worker that was last given it (`holder`), or in a
message on its way to the next one.  `Custody` states this together with the facts that go with it, and
`Custody.step` shows that every step keeps it, provided the main loops ask for what they were given: a read names
keys of buckets the worker holds, and a handover gives away only buckets it holds.  That is what the routing of
records and the order of the reconfiguration steps are for; `Routed` is the interface between the two.
-/

namespace Koala
namespace LazyByKey

open Lib Lib.Outcome Keyby
open Partition (WorkerID BucketID)
open List (flatMap_append mem_append mem_flatMap mem_map mem_range mem_singleton nodup_append)
open World (setNode_ne setNode_self)
open KeyLookupTableV2 (deserialize withMap_ne withMap_self)

variable {K : Type} [DecidableEq K] (cfg : Config K)

/-- What the reconfiguration protocol owes the state service. -/
def Routed (s : World K) : Action K → Prop
  | .read w keys => ∀ k ∈ keys, s.holder (cfg.bucketOf k) = some w
  | .handover w routing =>
    ∀ b < cfg.numBuckets, (s.node w).table.Leaves w routing b → s.holder b = some w
  | .startEventual w affected => ∀ e ∈ affected, w ∉ e.2
  | _ => True

/-- The maps of a table list only keys of their own bucket. -/
def Keyed (table : KeyLookupTableV2 K) : Prop :=
  ∀ b m, (table b).map = some m → ∀ k, (m.get k).isSome → cfg.bucketOf k = b

/-- All keys the current work unit of a worker has asked for. -/
def Main.requested : Main K → List K
  | .loopHead => []
  | .reading old new => old ++ new
  | .processing keys => keys

/-- The keys a goroutine is still going to write to the local backend. -/
def Routine.pendingWrites : Routine K → List K
  | .fetch _ todo keys _ => todo ++ keys
  | .store _ todo _ _ => todo
  | .scan _ _ _ got => got
  | .mark _ _ _ _ got => got
  | .request _ todo _ => todo
  | .storeChunk _ _ todo rest _ => todo.map Prod.fst ++ rest
  | _ => []

/-- **The custody invariant**: every bucket's key map is held by one deployed worker, or in one message. -/
structure Custody (cfg : Config K) (s : World K) : Prop where
  undeployed : ∀ w, w ∉ s.deployed →
    (s.node w).bg = [] ∧ (s.node w).main = .loopHead ∧ ∀ k, (s.node w).backend k = none
  held : ∀ b w, s.holder b = some w →
    w ∈ s.deployed ∧ ((s.node w).table b).workerID = w ∧ ((s.node w).table b).map.isSome
  keyed : ∀ w, Keyed cfg (s.node w).table
  /-- A map without custody is the empty one of a task that still waits for its buckets. -/
  unheld : ∀ w b m, ((s.node w).table b).map = some m → s.holder b ≠ some w → ∀ k, m.get k = none
  flight_keyed : ∀ f ∈ s.flight, ∀ b m, (b, m) ∈ f.entries → ∀ k, (m.get k).isSome → cfg.bucketOf k = b
  flight_free : ∀ f ∈ s.flight, ∀ b ∈ f.entries.map Prod.fst, s.holder b = none
  flight_nodup : (s.flight.flatMap fun f => f.entries.map Prod.fst).Nodup
  requested : ∀ w, ∀ k ∈ (s.node w).main.requested, s.holder (cfg.bucketOf k) = some w

/-- What one step of a goroutine can do to its worker. -/
structure RunFrame (cfg : Config K) (w : WorkerID) (nd nd' : Node K) (r : Routine K)
    (next : List (Routine K)) : Prop where
  main : nd'.main = nd.main
  table : nd'.table = nd.table ∨ ∃ k m, (nd.table (cfg.bucketOf k)).map = some m ∧ (m.get k).isSome ∧
    nd'.table = nd.table.withMap (cfg.bucketOf k) (m.set k w)
  backend : ∀ k, nd'.backend k = nd.backend k ∨ k ∈ r.pendingWrites
  res : ∀ k, nd'.res k = nd.res k ∨ nd'.res k = nd.backend k ∨ k ∈ r.pendingWrites
  pending : ∀ r' ∈ next, ∀ k ∈ r'.pendingWrites, k ∈ r.pendingWrites ∨
    ∃ b m, (nd.table b).map = some m ∧ (m.get k).isSome

theorem collect_subset (c : WorkerID) (dup : List K) (m : KeyMap K) (order got : List K) :
    ∀ k ∈ (collect cfg c dup m order got).1, k ∈ got ∨ (m.get k = some c ∧ k ∉ dup) := by
  induction order generalizing got with
  | nil => exact fun k hk => .inl hk
  | cons _ _ ih =>
    intro k hk
    unfold collect at hk
    split_ifs at hk with hx hlimit
    · rcases mem_append.mp hk with hgot | hnew
      · exact .inl hgot
      · rw [mem_singleton.mp hnew]
        exact .inr hx
    · rcases ih _ k hk with hgot | hm
      · rcases mem_append.mp hgot with hold | hnew
        · exact .inl hold
        · rw [mem_singleton.mp hnew]
          exact .inr hx
      · exact .inr hm
    · exact ih _ k hk

variable {cfg : Config K} {w : WorkerID} {nd : Node K} {r : Routine K} {next : List (Routine K)}

theorem RunFrame.quiet {em : EventualMeta}
    (hpending : ∀ r' ∈ next, ∀ k ∈ r'.pendingWrites, k ∈ r.pendingWrites ∨ ∃ b m, (nd.table b).map = some m ∧ (m.get k).isSome) :
    RunFrame cfg w nd { nd with em := em } r next :=
  ⟨rfl, .inl rfl, fun _ => .inl rfl, fun _ => .inl rfl, hpending⟩

theorem RunFrame.relocated (k : K) (m : KeyMap K) (hm : (nd.table (cfg.bucketOf k)).map = some m)
    (hk : (m.get k).isSome) (hnext : ∀ r' ∈ next, r'.pendingWrites = []) :
    RunFrame cfg w nd { nd with table := nd.table.withMap (cfg.bucketOf k) (m.set k w) } r next :=
  ⟨rfl, .inr ⟨k, m, hm, hk, rfl⟩, fun _ => .inl rfl, fun _ => .inl rfl,
    fun r' hr' k' hk' => absurd hk' (by simp [hnext r' hr'])⟩

theorem RoutineStep.frame {backends : WorkerID → K → Option Value} {nd' : Node K} {siblings : List (Routine K)}
    {choice : Choice K} (h : RoutineStep cfg backends w nd siblings choice r nd' next) :
    RunFrame cfg w nd nd' r next := by
  cases h with
  | readLocalEnd | storeEnd | updateAddrEnd | relocateEnd | finishIdle | signal => exact .quiet (by simp)
  | readLocal k =>
    refine ⟨rfl, .inl rfl, fun _ => .inl rfl, fun k' => ?_, by simp [Routine.pendingWrites]⟩
    by_cases hk : k' = k
    · subst hk
      exact .inr (.inl (by simp))
    · exact .inl (by simp [hk])
  | fetchEnd | scanEnd | scanSkip | mark | storeChunkEnd => exact .quiet (by simp +contextual [Routine.pendingWrites])
  | fetch _ k =>
    refine ⟨rfl, .inl rfl, fun _ => .inl rfl, fun k' => ?_, fun r' hr' k' hk' => .inl ?_⟩
    · by_cases hk : k' = k
      · exact .inr (.inr (by simp [Routine.pendingWrites, hk]))
      · exact .inl (by simp [hk])
    · rw [mem_singleton.mp hr'] at hk'
      exact List.mem_cons_of_mem k hk'
  | storeMore | additional | requestEnd | disable | dropLocks | dropFinished =>
    exact .quiet (by simp [Routine.pendingWrites])
  | store _ k =>
    refine ⟨rfl, .inl rfl, fun k' => ?_, fun _ => .inl rfl, by simp +contextual [Routine.pendingWrites]⟩
    by_cases hk : k' = k
    · exact .inr (by simp [Routine.pendingWrites, hk])
    · exact .inl (by simp [hk])
  | updateAddr k _ m hm hk | relocate _ k _ m _ hm hk => exact .relocated k m hm hk (by simp [Routine.pendingWrites])
  | scanFull c dup b _ got m _ hm | scan c dup b _ got m _ hm =>
    refine .quiet fun r' hr' k hk => ?_
    rw [mem_singleton.mp hr'] at hk
    rcases collect_subset cfg c dup m choice.order got k hk with hgot | hloc
    · exact .inl hgot
    · exact .inr ⟨b, m, hm, by simp [hloc.1]⟩
  | request _ k todo _ _ hchunk =>
    refine .quiet fun r' hr' k' hk' => .inl ?_
    rw [mem_singleton.mp hr'] at hk'
    have hsplit := List.take_append_drop (choice.size + 1) (k :: todo)
    simp only [Routine.pendingWrites, hchunk, List.map_map, Function.comp_def, List.map_id'] at hk' ⊢
    rwa [hsplit] at hk'
  | storeChunk _ _ k =>
    refine ⟨rfl, .inl rfl, fun k' => ?_, fun _ => .inl rfl, fun r' hr' k' hk' => .inl ?_⟩
    · by_cases hk : k' = k
      · exact .inr (by simp [Routine.pendingWrites, hk])
      · exact .inl (by simp [hk])
    · rw [mem_singleton.mp hr'] at hk'
      exact List.mem_cons_of_mem k hk'
  | finish =>
    refine .quiet fun r' hr' k hk => ?_
    split_ifs at hr'
    · rw [mem_singleton.mp hr'] at hk
      simp [Routine.pendingWrites] at hk
    · simp at hr'

variable {table : KeyLookupTableV2 K} {k : K} {m : KeyMap K}

theorem Keyed.withMap (h : Keyed cfg table) {m' : KeyMap K} (hm : (table (cfg.bucketOf k)).map = some m)
    (hsub : ∀ k', (m'.get k').isSome → k' = k ∨ (m.get k').isSome) :
    Keyed cfg (table.withMap (cfg.bucketOf k) m') := by
  intro b m'' hm'' k' hk'
  by_cases hb : b = cfg.bucketOf k
  · subst hb
    obtain rfl : m' = m'' := by simpa using hm''
    rcases hsub k' hk' with rfl | hold
    · rfl
    · exact h _ m hm k' hold
  · rw [withMap_ne _ _ hb] at hm''
    exact h b m'' hm'' k' hk'

theorem isSome_get_set {k' : K} (h : ((m.set k w).get k').isSome) :
    k' = k ∨ (m.get k').isSome := by
  rw [GoMap.get_set] at h
  split_ifs at h with hk
  · exact .inl hk
  · exact .inr h

variable {table' : KeyLookupTableV2 K} {b : BucketID}

theorem FlushOp.updateTable_eq_ok {op : FlushOp} (h : FlushOp.updateTable table k b w op = .ok table') :
    ∃ m m', (table b).map = some m ∧ table' = table.withMap b m' ∧ (∀ k', k' ≠ k → m'.get k' = m.get k') ∧
      ((m'.get k = some w ∧ ∀ old, (op.apply old).isSome) ∨ (m'.get k = none ∧ ∀ old, op.apply old = none)) := by
  cases op with
  | set | merge =>
    obtain ⟨m, hm, rfl⟩ := KeyLookupTableV2.insertOrUpdateKey_eq_ok.mp h
    exact ⟨m, _, hm, rfl, fun k' hk' => by simp [hk'], .inl ⟨by simp, fun old => rfl⟩⟩
  | delete =>
    obtain ⟨m, hm, -, rfl⟩ := KeyLookupTableV2.removeKey_eq_ok.mp h
    exact ⟨m, _, hm, rfl, fun k' hk' => by simp [hk'], .inr ⟨by simp, fun old => rfl⟩⟩

variable {out : KeyLookupTableV2.Outgoing K} {f : Flight K} {s : World K}

section

omit [DecidableEq K]

theorem mem_flightsOf :
    f ∈ flightsOf w out ↔ f.src = w ∧ out.get f.dst = some f.entries := by
  rw [← GoMap.mem_entries_iff, flightsOf, mem_map]
  constructor
  · rintro ⟨e, he, rfl⟩
    exact ⟨rfl, he⟩
  · rintro ⟨rfl, he⟩
    exact ⟨_, he, rfl⟩

/-- The message a receiver takes is removed from its place, and from nowhere else. -/
theorem World.nextFlight_split {src dst : WorkerID} (h : s.nextFlight src dst = some f) :
    ∃ pre post, s.flight = pre ++ f :: post ∧
      (s.flight.eraseP fun f => f.src = src ∧ f.dst = dst) = pre ++ post ∧ f.src = src ∧ f.dst = dst := by
  obtain ⟨hf, pre, post, hsplit, hpre⟩ := List.find?_eq_some_iff_append.mp h
  refine ⟨pre, post, hsplit, ?_, of_decide_eq_true hf⟩
  have hnone : ∀ g ∈ pre, ¬ decide (g.src = src ∧ g.dst = dst) = true := fun g hg => by
    rw [Bool.not_eq_true]
    exact Bool.not_eq_true' _ ▸ hpre g hg
  rw [hsplit, List.eraseP_append_right _ hnone, List.eraseP_cons, hf, cond_true]

variable {numBuckets : Nat} {routing : PartitionTable}

theorem flightsOf_nodup
    (h : KeyLookupTableV2.Serialized (List.range numBuckets) w routing table table' out) :
    ((flightsOf w out).flatMap fun f => f.entries.map Prod.fst).Nodup := by
  have hto : ∀ e ∈ out.entries, out.to e.1 = e.2 := fun e he => by
    rw [KeyLookupTableV2.Outgoing.to, (GoMap.mem_entries_iff out e.1 e.2).mp he]
    rfl
  rw [flightsOf, List.flatMap_map, List.nodup_flatMap]
  refine ⟨fun e he => hto e he ▸ h.nodup e.1, ?_⟩
  refine (List.nodupKeys_iff_pairwise.mp out.nodupKeys).imp_of_mem fun {e e'} he he' hne => ?_
  -- a bucket has one new owner, so it is in one message
  intro b hb hb'
  obtain ⟨⟨b₁, m₁⟩, hmem, rfl⟩ := mem_map.mp hb
  obtain ⟨⟨b₂, m₂⟩, hmem', heq⟩ := mem_map.mp hb'
  rw [← hto e he, h.mem_to] at hmem
  rw [← hto e' he', h.mem_to] at hmem'
  obtain rfl : b₂ = b₁ := heq
  exact hne (hmem.2.2.1.symm.trans hmem'.2.2.1)

theorem mem_flightsOf_entries
    (h : KeyLookupTableV2.Serialized (List.range numBuckets) w routing table table' out) (hf : f ∈ flightsOf w out)
    (hmem : (b, m) ∈ f.entries) :
    b < numBuckets ∧ table.Leaves w routing b ∧ routing b = f.dst ∧ (table b).map = some m := by
  have hto : out.to f.dst = f.entries := by
    rw [KeyLookupTableV2.Outgoing.to, (mem_flightsOf.mp hf).2]
    rfl
  rw [← hto, h.mem_to, mem_range] at hmem
  exact hmem

end

/-! ## Handover and installation -/

omit [DecidableEq K] in
/-- Only tables, messages and holders change. -/
structure TablesChange (s s' : World K) : Prop where
  same : ∀ w, s'.node w = { s.node w with table := (s'.node w).table }
  deployed : s'.deployed = s.deployed
  spec : s'.spec = s.spec

omit [DecidableEq K] in
theorem TablesChange.setNode (s : World K) (w : WorkerID) (table : KeyLookupTableV2 K) (w' : WorkerID) :
    (s.setNode w { s.node w with table := table }).node w'
      = { s.node w' with table := ((s.setNode w { s.node w with table := table }).node w').table } := by
  by_cases hw : w' = w
  · subst hw
    rw [setNode_self]
  · rw [setNode_ne _ _ hw]

/-- What a handover changes. -/
structure HandsOver (cfg : Config K) (w : WorkerID) (routing : PartitionTable) (out : KeyLookupTableV2.Outgoing K)
    (s s' : World K) : Prop extends TablesChange s s' where
  serialized : KeyLookupTableV2.Serialized (List.range cfg.numBuckets) w routing (s.node w).table (s'.node w).table out
  others : ∀ w', w' ≠ w → s'.node w' = s.node w'
  flight : s'.flight = s.flight ++ flightsOf w out
  holder : ∀ b, s'.holder b =
    if b < cfg.numBuckets ∧ (s.node w).table.Leaves w routing b ∧ s.holder b = some w then none else s.holder b

/-- What the installation of a message changes. -/
structure Installs (src dst : WorkerID) (f : Flight K) (s s' : World K) : Prop extends TablesChange s s' where
  next : s.nextFlight src dst = some f
  installed : KeyLookupTableV2.Installed dst f.entries (s.node dst).table (s'.node dst).table
  others : ∀ w', w' ≠ dst → s'.node w' = s.node w'
  flight : s'.flight = s.flight.eraseP fun f => f.src = src ∧ f.dst = dst
  holder : ∀ b, s'.holder b = if b ∈ f.entries.map Prod.fst then some dst else s.holder b

section Moves

variable {routing : PartitionTable} {s' : World K} {src dst w' : WorkerID}

theorem Step.handsOver (h : Step cfg s (.handover w routing) s') :
    (s.node w).main = .loopHead ∧ ∃ out, HandsOver cfg w routing out s s' := by
  cases h with
  | handover _ _ table out _ hmain hserialize =>
    refine ⟨hmain, out, ⟨TablesChange.setNode s w table, rfl, rfl⟩, ?_, fun w' => setNode_ne s _, rfl, fun _ => rfl⟩
    change KeyLookupTableV2.Serialized _ w routing _ ((s.setNode w _).node w).table out
    rw [setNode_self]
    exact KeyLookupTableV2.serializeMigratingKeyMaps_spec hserialize

namespace HandsOver

section

variable (h : HandsOver cfg w routing out s s')
include h
omit [DecidableEq K]

theorem table_eq (hstays : ¬ (w' = w ∧ b < cfg.numBuckets ∧ (s.node w).table.Leaves w routing b)) :
    (s'.node w').table b = (s.node w').table b := by
  by_cases hw : w' = w
  · subst hw
    rw [h.serialized.table_eq b, if_neg fun hleaves => hstays ⟨rfl, mem_range.mp hleaves.1, hleaves.2⟩]
  · rw [h.others w' hw]

theorem leaves (hb : b < cfg.numBuckets)
    (hleaves : (s.node w).table.Leaves w routing b) : (s'.node w).table b = ⟨routing b, none⟩ := by
  rw [h.serialized.table_eq b, if_pos ⟨mem_range.mpr hb, hleaves⟩]

theorem map_eq_some (hm : ((s'.node w').table b).map = some m) :
    ((s.node w').table b).map = some m ∧ ¬ (w' = w ∧ b < cfg.numBuckets ∧ (s.node w).table.Leaves w routing b) := by
  have hstays : ¬ (w' = w ∧ b < cfg.numBuckets ∧ (s.node w).table.Leaves w routing b) := by
    rintro ⟨rfl, hb, hleaves⟩
    rw [h.leaves hb hleaves] at hm
    cases hm
  exact ⟨h.table_eq hstays ▸ hm, hstays⟩

theorem holder_eq_some : s'.holder b = some w' ↔ s.holder b = some w' ∧
    ¬ (w' = w ∧ b < cfg.numBuckets ∧ (s.node w).table.Leaves w routing b) := by
  rw [h.holder]
  constructor
  · intro hb
    split_ifs at hb with hgone
    exact ⟨hb, fun hleaves => hgone ⟨hleaves.2.1, hleaves.2.2, hleaves.1 ▸ hb⟩⟩
  · rintro ⟨hb, hstays⟩
    rw [if_neg, hb]
    exact fun hgone => hstays ⟨Option.some.inj (hb.symm.trans hgone.2.2), hgone.1, hgone.2.1⟩

end

end HandsOver

namespace Installs

variable {f : Flight K} (h : Installs src dst f s s')
include h
omit [DecidableEq K]

theorem mem : f ∈ s.flight := List.mem_of_find?_eq_some h.next

theorem table_eq (hstays : ¬ (w' = dst ∧ b ∈ f.entries.map Prod.fst)) :
    (s'.node w').table b = (s.node w').table b := by
  by_cases hw : w' = dst
  · subst hw
    exact h.installed.2 b fun hb => hstays ⟨rfl, hb⟩
  · rw [h.others w' hw]

theorem map_eq_some (hm : ((s'.node w').table b).map = some m) :
    (w' = dst ∧ (b, m) ∈ f.entries) ∨
      (¬ (w' = dst ∧ b ∈ f.entries.map Prod.fst) ∧ ((s.node w').table b).map = some m) := by
  by_cases hmoved : w' = dst ∧ b ∈ f.entries.map Prod.fst
  · obtain ⟨rfl, hb⟩ := hmoved
    obtain ⟨⟨b', m'⟩, hentry, rfl⟩ := mem_map.mp hb
    rw [h.installed.1 b' m' hentry] at hm
    exact .inl ⟨rfl, Option.some.inj hm ▸ hentry⟩
  · exact .inr ⟨hmoved, h.table_eq hmoved ▸ hm⟩

theorem holder_eq_some (hb : s'.holder b = some w') :
    (w' = dst ∧ b ∈ f.entries.map Prod.fst) ∨ (b ∉ f.entries.map Prod.fst ∧ s.holder b = some w') := by
  rw [h.holder] at hb
  split_ifs at hb with hmoved
  · exact .inl ⟨(Option.some.inj hb).symm, hmoved⟩
  · exact .inr ⟨hmoved, hb⟩

end Installs

end Moves

namespace Custody

variable {cfg : Config K} {s s' : World K} {a : Action K}

variable {w : WorkerID}

section

variable (h : Custody cfg s)
include h

theorem deployed_of_main (hmain : (s.node w).main ≠ .loopHead) : w ∈ s.deployed := by
  by_contra hnot
  exact hmain (h.undeployed w hnot).2.1

theorem deployed_of_bg {i : Nat} {r : Routine K} (hr : (s.node w).bg[i]? = some r) : w ∈ s.deployed := by
  by_contra hnot
  simp [(h.undeployed w hnot).1] at hr

theorem entries_nodup {src dst : WorkerID} {f : Flight K}
    (hnext : s.nextFlight src dst = some f) : (f.entries.map Prod.fst).Nodup := by
  obtain ⟨pre, post, hsplit, -⟩ := World.nextFlight_split hnext
  have hnodup := h.flight_nodup
  rw [hsplit, flatMap_append, List.flatMap_cons] at hnodup
  exact (nodup_append.mp (nodup_append.mp hnodup).2.1).1

theorem setNode {nd : Node K} (hdeployed : w ∈ s.deployed)
    (hheld : ∀ b, s.holder b = some w → (nd.table b).workerID = w ∧ (nd.table b).map.isSome)
    (hkeyed : Keyed cfg nd.table)
    (hunheld : ∀ b m, (nd.table b).map = some m → s.holder b ≠ some w → ∀ k, m.get k = none)
    (hrequested : ∀ k ∈ nd.main.requested, s.holder (cfg.bucketOf k) = some w) :
    Custody cfg (s.setNode w nd) := by
  refine ⟨fun w' hw' => ?_, fun b w' hb => ?_, fun w' => ?_, fun w' => ?_, h.flight_keyed, h.flight_free,
    h.flight_nodup, fun w' => ?_⟩
  · have hne : w' ≠ w := fun heq => hw' (heq ▸ hdeployed)
    rw [setNode_ne _ _ hne]
    exact h.undeployed w' hw'
  · by_cases hw : w' = w
    · subst hw
      rw [setNode_self]
      exact ⟨hdeployed, hheld b hb⟩
    · rw [setNode_ne _ _ hw]
      exact h.held b w' hb
  · by_cases hw : w' = w
    · subst hw
      rwa [setNode_self]
    · rw [setNode_ne _ _ hw]
      exact h.keyed w'
  · by_cases hw : w' = w
    · subst hw
      rwa [setNode_self]
    · rw [setNode_ne _ _ hw]
      exact h.unheld w'
  · by_cases hw : w' = w
    · subst hw
      rwa [setNode_self]
    · rw [setNode_ne _ _ hw]
      exact h.requested w'

theorem setNode_withMap {nd : Node K} (hdeployed : w ∈ s.deployed) {k : K} {m m' : KeyMap K}
    (hholder : s.holder (cfg.bucketOf k) = some w) (hm : ((s.node w).table (cfg.bucketOf k)).map = some m)
    (hsub : ∀ k', (m'.get k').isSome → k' = k ∨ (m.get k').isSome)
    (htable : nd.table = (s.node w).table.withMap (cfg.bucketOf k) m')
    (hrequested : ∀ k ∈ nd.main.requested, s.holder (cfg.bucketOf k) = some w) :
    Custody cfg (s.setNode w nd) := by
  refine h.setNode hdeployed (fun b hb => ?_) ?_ (fun b m'' hm'' hb => ?_) hrequested
  · rw [htable]
    by_cases heq : b = cfg.bucketOf k
    · subst heq
      rw [withMap_self]
      exact ⟨(h.held _ w hb).2.1, rfl⟩
    · rw [withMap_ne _ _ heq]
      exact (h.held b w hb).2
  · rw [htable]
    exact (h.keyed w).withMap hm hsub
  · have hne : b ≠ cfg.bucketOf k := fun heq => hb (heq ▸ hholder)
    rw [htable, withMap_ne _ _ hne] at hm''
    exact h.unheld w b m'' hm'' hb

theorem withSpec (spec : K → Option Value) : Custody cfg { s with spec := spec } :=
  ⟨h.undeployed, h.held, h.keyed, h.unheld, h.flight_keyed, h.flight_free, h.flight_nodup, h.requested⟩

theorem deploy {owners : PartitionTable} (hnew : w ∉ s.deployed) :
    Custody cfg { s.setNode w (.fresh (.deserialize owners w)) with deployed := w :: s.deployed } := by
  have hempty : ∀ b m, ((deserialize owners w : KeyLookupTableV2 K) b).map = some m →
      ∀ k, m.get k = none := fun b m hm k => by
    simp only [deserialize] at hm
    split_ifs at hm
    cases hm
    simp
  refine ⟨fun w' hw' => ?_, fun b w' hb => ?_, fun w' => ?_, fun w' b m hm hb => ?_, h.flight_keyed,
    h.flight_free, h.flight_nodup, fun w' => ?_⟩
  · have hw'' := not_or.mp (fun hmem => hw' (List.mem_cons.mpr hmem))
    change ((s.setNode w _).node w').bg = [] ∧ _
    rw [setNode_ne _ _ hw''.1]
    exact h.undeployed w' hw''.2
  · have hold := h.held b w' hb
    have hne : w' ≠ w := fun heq => hnew (heq ▸ hold.1)
    change _ ∧ (((s.setNode w _).node w').table b).workerID = w' ∧ _
    rw [setNode_ne _ _ hne]
    exact ⟨List.mem_cons_of_mem w hold.1, hold.2⟩
  · by_cases hw : w' = w
    · subst hw
      intro b m hm k hk
      rw [setNode_self] at hm
      rw [hempty b m hm k] at hk
      cases hk
    · change Keyed cfg ((s.setNode w _).node w').table
      rw [setNode_ne _ _ hw]
      exact h.keyed w'
  · change (((s.setNode w _).node w').table b).map = some m at hm
    by_cases hw : w' = w
    · subst hw
      rw [setNode_self] at hm
      exact hempty b m hm
    · rw [setNode_ne _ _ hw] at hm
      exact h.unheld w' b m hm hb
  · by_cases hw : w' = w
    · subst hw
      simp [Node.fresh, Main.requested]
    · change ∀ k ∈ ((s.setNode w _).node w').main.requested, _
      rw [setNode_ne _ _ hw]
      exact h.requested w'

theorem handover {routing : PartitionTable}
    (hrouted : ∀ b < cfg.numBuckets, (s.node w).table.Leaves w routing b → s.holder b = some w)
    (hstep : Step cfg s (.handover w routing) s') : Custody cfg s' := by
  obtain ⟨hmain, out, hs⟩ := hstep.handsOver
  refine ⟨fun w' hw' => ?_, fun b w' hb => ?_, fun w' b m hm => h.keyed w' b m (hs.map_eq_some hm).1,
    fun w' b m hm hb => ?_, fun f hf b m hmem k hk => ?_, fun f hf b hb => ?_, ?_, fun w' k hk => ?_⟩
  · rw [hs.same]
    exact h.undeployed w' (hs.deployed ▸ hw')
  · obtain ⟨hold, hstays⟩ := hs.holder_eq_some.mp hb
    rw [hs.deployed, hs.table_eq hstays]
    exact h.held b w' hold
  · obtain ⟨hold, hstays⟩ := hs.map_eq_some hm
    exact h.unheld w' b m hold fun hheld => hb (hs.holder_eq_some.mpr ⟨hheld, hstays⟩)
  · rcases mem_append.mp (hs.flight ▸ hf) with hold | hnew
    · exact h.flight_keyed f hold b m hmem k hk
    · exact h.keyed w b m (mem_flightsOf_entries hs.serialized hnew hmem).2.2.2 k hk
  · rw [hs.holder]
    rcases mem_append.mp (hs.flight ▸ hf) with hold | hnew
    · simp only [h.flight_free f hold b hb, ite_self]
    · obtain ⟨⟨b', m⟩, hmem, rfl⟩ := mem_map.mp hb
      obtain ⟨hlt, hleave, -⟩ := mem_flightsOf_entries hs.serialized hnew hmem
      exact if_pos ⟨hlt, hleave, hrouted b' hlt hleave⟩
  · rw [hs.flight, flatMap_append, nodup_append]
    refine ⟨h.flight_nodup, flightsOf_nodup hs.serialized, ?_⟩
    rintro b hb b' hb' rfl
    obtain ⟨f, hf, hmem⟩ := mem_flatMap.mp hb
    obtain ⟨f', hf', hmem'⟩ := mem_flatMap.mp hb'
    obtain ⟨⟨b', m⟩, hentry, rfl⟩ := mem_map.mp hmem'
    obtain ⟨hlt, hleave, -⟩ := mem_flightsOf_entries hs.serialized hf' hentry
    have hholder := hrouted b' hlt hleave
    rw [h.flight_free f hf b' hmem] at hholder
    cases hholder
  · -- the main loop is between work units, so it has no keys requested
    rw [hs.same] at hk
    refine hs.holder_eq_some.mpr ⟨h.requested w' k hk, ?_⟩
    rintro ⟨rfl, -⟩
    simp [hmain, Main.requested] at hk

theorem installs {src dst : WorkerID} (hstep : Step cfg s (.receive src dst) s') :
    dst ∈ s.deployed ∧ ∃ f, Installs src dst f s s' := by
  cases hstep with
  | receive _ _ f table hdeployed hnext hinstall =>
    refine ⟨hdeployed, f, ⟨TablesChange.setNode s dst table, rfl, rfl⟩, hnext, ?_, fun w' => setNode_ne s _, rfl,
      fun _ => rfl⟩
    change KeyLookupTableV2.Installed dst f.entries _ ((s.setNode dst _).node dst).table
    rw [setNode_self]
    exact KeyLookupTableV2.deserializeMigratingKeyMaps_spec (h.entries_nodup hnext) hinstall

theorem receive {src dst : WorkerID} (hstep : Step cfg s (.receive src dst) s') : Custody cfg s' := by
  obtain ⟨hdeployed, f, hs⟩ := h.installs hstep
  obtain ⟨pre, post, hsplit, herase, -, -⟩ := World.nextFlight_split hs.next
  have hrest := hs.flight.trans herase
  have hsub : ∀ g ∈ s'.flight, g ∈ s.flight := fun g hg => List.mem_of_mem_eraseP (hs.flight ▸ hg)
  have hnodup := h.flight_nodup
  rw [hsplit, flatMap_append, List.flatMap_cons] at hnodup
  -- the other messages carry other buckets
  have hother : ∀ g ∈ s'.flight, ∀ b ∈ g.entries.map Prod.fst, b ∉ f.entries.map Prod.fst := by
    intro g hg b hb hbf
    rcases mem_append.mp (hrest ▸ hg) with hpre | hpost
    · exact (nodup_append.mp hnodup).2.2 b (mem_flatMap.mpr ⟨g, hpre, hb⟩) b
        (List.mem_append_left _ hbf) rfl
    · exact (nodup_append.mp (nodup_append.mp hnodup).2.1).2.2 b hbf b
        (mem_flatMap.mpr ⟨g, hpost, hb⟩) rfl
  have hkept : ∀ b w', s.holder b = some w' → s'.holder b = some w' := fun b w' hb => by
    rw [hs.holder, if_neg, hb]
    intro hmoved
    rw [h.flight_free f hs.mem b hmoved] at hb
    cases hb
  refine ⟨fun w' hw' => ?_, fun b w' hb => ?_, fun w' b m hm k hk => ?_, fun w' b m hm hb => ?_,
    fun g hg => h.flight_keyed g (hsub g hg), fun g hg b hb => ?_, ?_, fun w' k hk => ?_⟩
  · rw [hs.same]
    exact h.undeployed w' (hs.deployed ▸ hw')
  · rw [hs.deployed]
    rcases hs.holder_eq_some hb with ⟨rfl, hmoved⟩ | ⟨hnot, hold⟩
    · obtain ⟨⟨b', m⟩, hmem, rfl⟩ := mem_map.mp hmoved
      simp [hs.installed.1 b' m hmem, hdeployed]
    · rw [hs.table_eq fun hmoved => hnot hmoved.2]
      exact h.held b w' hold
  · rcases hs.map_eq_some hm with ⟨-, hentry⟩ | ⟨-, hold⟩
    · exact h.flight_keyed f hs.mem b m hentry k hk
    · exact h.keyed w' b m hold k hk
  · rcases hs.map_eq_some hm with ⟨rfl, hentry⟩ | ⟨-, hold⟩
    · rw [hs.holder, if_pos (List.mem_map_of_mem hentry)] at hb
      exact absurd rfl hb
    · exact h.unheld w' b m hold fun hheld => hb (hkept b w' hheld)
  · rw [hs.holder, if_neg (hother g hg b hb)]
    exact h.flight_free g (hsub g hg) b hb
  · rw [hrest, flatMap_append]
    exact hnodup.sublist (List.Sublist.append (List.Sublist.refl _) (List.sublist_append_right _ _))
  · rw [hs.same] at hk
    exact hkept _ w' (h.requested w' k hk)

/-- **Every step keeps custody**, as long as the main loops stay within what they were given. -/
theorem step (hrouted : Routed cfg s a) (hstep : Step cfg s a s') : Custody cfg s' := by
  have hwhole := hstep
  cases hstep with
  | deploy _ _ hnew => exact h.deploy hnew
  | read w keys located hdeployed hmain hdrained hlocate =>
    refine h.setNode hdeployed (fun b hb => (h.held b w hb).2) (h.keyed w) (h.unheld w) fun k hk => ?_
    rcases mem_append.mp hk with hold | hnew
    · refine h.requested w k ?_
      cases hcur : (s.node w).main with
      | loopHead => simp [hcur, Main.keys] at hold
      | reading old new => exact absurd hcur (hmain old new)
      | processing ks => simpa [hcur, Main.keys, Main.requested] using hold
    · exact hrouted k hnew
  | run w _ _ _ nd _ hr hrun =>
    have hdeployed := h.deployed_of_bg hr
    have hframe := hrun.frame
    have hrequested : ∀ k ∈ nd.main.requested, s.holder (cfg.bucketOf k) = some w := by
      rw [hframe.main]
      exact h.requested w
    rcases hframe.table with hsame | ⟨k, m, hm, hk, htable⟩
    · refine h.setNode hdeployed (fun b hb => ?_) ?_ ?_ hrequested
      · rw [hsame]
        exact (h.held b w hb).2
      · rw [hsame]
        exact h.keyed w
      · rw [hsame]
        exact h.unheld w
    · -- only a map with custody lists the key
      have hholder : s.holder (cfg.bucketOf k) = some w := by
        by_contra hne
        rw [h.unheld w _ m hm hne k] at hk
        cases hk
      exact h.setNode_withMap hdeployed hholder hm (fun k' => isSome_get_set) htable hrequested
  | readDone w _ _ hmain =>
    refine h.setNode (h.deployed_of_main (by simp [hmain])) (fun b hb => (h.held b w hb).2) (h.keyed w)
      (h.unheld w) fun k hk => h.requested w k ?_
    rw [hmain]
    exact hk
  | flush w k op keys table hmain hk hdrained htable =>
    obtain ⟨m, m', hm, htable', hother, -⟩ := FlushOp.updateTable_eq_ok htable
    have hcustody : Custody cfg (s.setNode w { s.node w with
        table := table
        backend := Function.update (s.node w).backend k (op.apply ((s.node w).backend k)) }) := by
      refine h.setNode_withMap (h.deployed_of_main (by simp [hmain]))
        (h.requested w k (by rwa [hmain])) hm (fun k' hk' => ?_) htable' (h.requested w)
      by_cases heq : k' = k
      · exact .inl heq
      · exact .inr (hother k' heq ▸ hk')
    exact hcustody.withSpec _
  | endUnit w _ hmain =>
    exact h.setNode (h.deployed_of_main (by simp [hmain])) (fun b hb => (h.held b w hb).2) (h.keyed w)
      (h.unheld w) (by simp [Main.requested])
  | handover => exact h.handover hrouted hwhole
  | receive => exact h.receive hwhole
  | startEventual w _ _ hdeployed =>
    exact h.setNode hdeployed (fun b hb => (h.held b w hb).2) (h.keyed w) (h.unheld w) (h.requested w)

end

theorem initial (cfg : Config K) {workers : List WorkerID} {owners : PartitionTable}
    (howners : ∀ b < cfg.numBuckets, owners b ∈ workers) :
    Custody cfg (World.initial cfg workers owners) := by
  have hempty : ∀ w b m, (((World.initial cfg workers owners).node w).table b).map = some m →
      ∀ k, m.get k = none := fun w b m hm k => by
    simp only [World.initial, Node.fresh, deserialize] at hm
    split_ifs at hm
    cases hm
    simp
  refine ⟨fun w _ => ⟨rfl, rfl, fun _ => rfl⟩, fun b w hb => ?_, fun w b m hm k hk => ?_,
    fun w b m hm _ => hempty w b m hm, by simp [World.initial], by simp [World.initial], by simp [World.initial],
    by simp [World.initial, Node.fresh, Main.requested]⟩
  · simp only [World.initial] at hb
    split_ifs at hb with hlt
    cases hb
    exact ⟨howners b hlt, rfl, by simp [World.initial, Node.fresh, deserialize]⟩
  · rw [hempty w b m hm k] at hk
    cases hk

end Custody

/-! ## Steps that leave the custody alone -/

/-- Two states that differ in values, key locations and goroutines only. -/
structure SameCustody (s s' : World K) : Prop where
  holder : s'.holder = s.holder
  deployed : s'.deployed = s.deployed
  flight : s'.flight = s.flight
  owners : s'.owners = s.owners
  column : ∀ w b, ((s'.node w).table b).workerID = ((s.node w).table b).workerID
  map : ∀ w b, ((s'.node w).table b).map.isSome = ((s.node w).table b).map.isSome

/-- The accesses of work units and goroutines. -/
def Action.Quiet : Action K → Prop
  | .deploy _ _ => False
  | .handover _ _ => False
  | .receive _ _ => False
  | _ => True

omit [DecidableEq K] in
theorem SameCustody.setNode (hcolumn : ∀ b, (nd.table b).workerID = ((s.node w).table b).workerID)
    (hmap : ∀ b, (nd.table b).map.isSome = ((s.node w).table b).map.isSome) : SameCustody s (s.setNode w nd) := by
  refine ⟨rfl, rfl, rfl, rfl, fun w' b => ?_, fun w' b => ?_⟩
  · by_cases hw : w' = w
    · subst hw
      rw [setNode_self]
      exact hcolumn b
    · rw [setNode_ne _ _ hw]
  · by_cases hw : w' = w
    · subst hw
      rw [setNode_self]
      exact hmap b
    · rw [setNode_ne _ _ hw]

omit [DecidableEq K] in
theorem withMap_workerID (table : KeyLookupTableV2 K) (b b' : BucketID) (m : KeyMap K) :
    (table.withMap b m b').workerID = (table b').workerID := by
  by_cases hb : b' = b
  · rw [hb, withMap_self]
  · rw [withMap_ne _ _ hb]

omit [DecidableEq K] in
theorem withMap_isSome (hm : (table b).map = some m) (m' : KeyMap K) (b' : BucketID) :
    (table.withMap b m' b').map.isSome = (table b').map.isSome := by
  by_cases hb : b' = b
  · rw [hb, withMap_self, hm]
    rfl
  · rw [withMap_ne _ _ hb]

theorem Step.sameCustody {s' : World K} {a : Action K} (h : Step cfg s a s') (hquiet : a.Quiet) :
    SameCustody s s' := by
  cases h with
  | deploy | handover | receive => exact hquiet.elim
  | read | readDone | endUnit | startEventual => exact .setNode (fun _ => rfl) fun _ => rfl
  | run _ _ _ _ nd _ _ hrun =>
    rcases hrun.frame.table with hsame | ⟨k, m, hm, -, htable⟩
    · exact .setNode (fun b => by rw [hsame]) fun b => by rw [hsame]
    · refine .setNode (fun b => ?_) fun b => ?_
      · change (nd.table b).workerID = _
        rw [htable, withMap_workerID]
      · change (nd.table b).map.isSome = _
        rw [htable, withMap_isSome hm]
  | flush w k op _ table _ _ _ htable =>
    obtain ⟨m, m', hm, htable', -⟩ := FlushOp.updateTable_eq_ok htable
    have hsame : SameCustody s (s.setNode w { s.node w with
        table := table
        backend := Function.update (s.node w).backend k (op.apply ((s.node w).backend k)) }) := by
      refine .setNode (fun b => ?_) fun b => ?_
      · rw [htable', withMap_workerID]
      · rw [htable', withMap_isSome hm]
    exact ⟨hsame.holder, hsame.deployed, hsame.flight, hsame.owners, hsame.column, hsame.map⟩

end LazyByKey
end Koala
