import Koala.LazyByKey.StoreMachine
import Mathlib.Data.List.Dedup

/-!
# The steps of the state service

`Step` lists what each action of the store machine does when it is taken: its preconditions and the exact state
afterwards.  Every invariant of the machine is proved by cases on it.
-/

namespace Koala
namespace LazyByKey

open Lib Lib.Outcome Keyby
open Partition (WorkerID BucketID)
open Function (update)

variable {K : Type}

section

variable (s : World K) (w : WorkerID) (nd : Node K)

@[simp] theorem World.setNode_deployed : (s.setNode w nd).deployed = s.deployed := rfl

@[simp] theorem World.setNode_flight : (s.setNode w nd).flight = s.flight := rfl

@[simp] theorem World.setNode_holder : (s.setNode w nd).holder = s.holder := rfl

@[simp] theorem World.setNode_owners : (s.setNode w nd).owners = s.owners := rfl

@[simp] theorem World.setNode_spec : (s.setNode w nd).spec = s.spec := rfl

@[simp] theorem World.setNode_self : (s.setNode w nd).node w = nd := by
  simp [World.setNode]

variable {w w' : WorkerID}

@[simp] theorem World.setNode_ne (h : w' ≠ w) : (s.setNode w nd).node w' = s.node w' := by
  simp [World.setNode, h]

end

variable [DecidableEq K]

theorem relocateKey_eq_ok {cfg : Config K} {w : WorkerID} {nd nd' : Node K} {k : K} :
    nd.relocateKey cfg w k = .ok nd' ↔ ∃ m, (nd.table (cfg.bucketOf k)).map = some m ∧ (m.get k).isSome ∧
      nd' = { nd with table := nd.table.withMap (cfg.bucketOf k) (m.set k w) } := by
  unfold Node.relocateKey
  rw [bind_eq_ok]
  constructor
  · rintro ⟨table, htable, hnd⟩
    obtain ⟨m, hm, hk, htable'⟩ := KeyLookupTableV2.updateKey_eq_ok.mp (mapAbort_eq_ok.mp htable)
    cases hnd
    exact ⟨m, hm, hk, by rw [htable']⟩
  · rintro ⟨m, hm, hk, rfl⟩
    exact ⟨_, mapAbort_eq_ok.mpr (KeyLookupTableV2.updateKey_eq_ok.mpr ⟨m, hm, hk, rfl⟩), rfl⟩

section

variable (cfg : Config K) (backends : WorkerID → K → Option Value) (w : WorkerID) (nd : Node K)
  (siblings : List (Routine K)) (choice : Choice K)

/-- What each goroutine does when it takes its next step. -/
inductive RoutineStep : Routine K → Node K → List (Routine K) → Prop where
  | readLocalEnd : RoutineStep (.readLocal []) nd []
  | readLocal (k : K) (todo : List K) : RoutineStep (.readLocal (k :: todo))
        { nd with res := update nd.res k (nd.backend k) } [.readLocal todo]
  | fetchEnd (src : WorkerID) (keys : List K) (triggered : Bool) : RoutineStep (.fetch src [] keys triggered) nd
        [.store src keys keys triggered]
  | fetch (src : WorkerID) (k : K) (todo keys : List K) (triggered : Bool) :
      RoutineStep (.fetch src (k :: todo) keys triggered)
        { nd with res := update nd.res k (some ((backends src k).getD [])) } [.fetch src todo keys triggered]
  | storeEnd (src : WorkerID) (keys : List K) (triggered : Bool)
      (hstop : ¬ (triggered ∧ (nd.em.affected.get src).isSome)) : RoutineStep (.store src [] keys triggered) nd []
  | storeMore (src : WorkerID) (keys : List K) (htriggered : (nd.em.affected.get src).isSome) :
      RoutineStep (.store src [] keys true) nd [.additional src keys]
  | store (src : WorkerID) (k : K) (todo keys : List K) (triggered : Bool) :
      RoutineStep (.store src (k :: todo) keys triggered)
        { nd with backend := update nd.backend k (some ((nd.res k).getD [])) } [.store src todo keys triggered]
  | updateAddrEnd : RoutineStep (.updateAddr []) nd []
  | updateAddr (k : K) (todo : List K) (m : KeyMap K) (hm : (nd.table (cfg.bucketOf k)).map = some m)
      (hk : (m.get k).isSome) : RoutineStep (.updateAddr (k :: todo))
        { nd with table := nd.table.withMap (cfg.bucketOf k) (m.set k w) } [.updateAddr todo]
  | additional (c : WorkerID) (dup : List K) (buckets : List BucketID)
      (haffected : nd.em.affected.get c = some buckets) : RoutineStep (.additional c dup) nd [.scan c dup buckets []]
  | scanEnd (c : WorkerID) (dup got : List K) : RoutineStep (.scan c dup [] got) nd [.request c got true]
  | scanSkip (c : WorkerID) (dup : List K) (b : BucketID) (todo : List BucketID) (got : List K)
      (hfinished : nd.em.isFinished c b) : RoutineStep (.scan c dup (b :: todo) got) nd [.scan c dup todo got]
  | scanFull (c : WorkerID) (dup : List K) (b : BucketID) (todo : List BucketID) (got : List K) (m : KeyMap K)
      (hfinished : ¬ nd.em.isFinished c b) (hm : (nd.table b).map = some m) (hlock : ¬ nd.em.lockMissing b)
      (horder : choice.order.Perm m.keys) (hfull : (collect cfg c dup m choice.order got).2 = true) :
      RoutineStep (.scan c dup (b :: todo) got) nd [.request c (collect cfg c dup m choice.order got).1 false]
  | scan (c : WorkerID) (dup : List K) (b : BucketID) (todo : List BucketID) (got : List K) (m : KeyMap K)
      (hfinished : ¬ nd.em.isFinished c b) (hm : (nd.table b).map = some m) (hlock : ¬ nd.em.lockMissing b)
      (horder : choice.order.Perm m.keys) (hall : (collect cfg c dup m choice.order got).2 = false) :
      RoutineStep (.scan c dup (b :: todo) got) nd [.mark c b dup todo (collect cfg c dup m choice.order got).1]
  | mark (c : WorkerID) (b : BucketID) (dup : List K) (todo : List BucketID) (got : List K)
      (pairs : List (WorkerID × BucketID)) (hpairs : nd.em.finished = some pairs)
      (haffected : (nd.em.affected.get c).isSome) : RoutineStep (.mark c b dup todo got)
        { nd with em := { nd.em with finished := some ((c, b) :: pairs) } } [.scan c dup todo got]
  | requestEnd (c : WorkerID) (allDone : Bool) : RoutineStep (.request c [] allDone) nd [.finish c allDone]
  | request (c : WorkerID) (k : K) (todo : List K) (allDone : Bool) (chunk : List (K × Value))
      (hchunk : chunk = ((k :: todo).take (choice.size + 1)).map fun k => (k, (backends c k).getD [])) :
      RoutineStep (.request c (k :: todo) allDone) nd
        [.storeChunk c chunk chunk ((k :: todo).drop (choice.size + 1)) allDone]
  | storeChunkEnd (c : WorkerID) (chunk : List (K × Value)) (rest : List K) (allDone : Bool) :
      RoutineStep (.storeChunk c chunk [] rest allDone) nd [.request c rest allDone, .relocate c (chunk.map Prod.fst)]
  | storeChunk (c : WorkerID) (chunk : List (K × Value)) (k : K) (v : Value) (todo : List (K × Value))
      (rest : List K) (allDone : Bool) : RoutineStep (.storeChunk c chunk ((k, v) :: todo) rest allDone)
        { nd with backend := update nd.backend k (some v) } [.storeChunk c chunk todo rest allDone]
  | relocateEnd (c : WorkerID) : RoutineStep (.relocate c []) nd []
  | relocate (c : WorkerID) (k : K) (todo : List K) (m : KeyMap K)
      (hlock : ¬ nd.em.lockMissing (cfg.bucketOf k)) (hm : (nd.table (cfg.bucketOf k)).map = some m)
      (hk : (m.get k).isSome) : RoutineStep (.relocate c (k :: todo))
        { nd with table := nd.table.withMap (cfg.bucketOf k) (m.set k w) } [.relocate c todo]
  | finishIdle (c : WorkerID) (allDone : Bool) (hjoined : siblings.any (Routine.isRelocateOf c) = false)
      (hidle : ¬ (allDone ∧ c ∉ nd.em.doneWorkers)) : RoutineStep (.finish c allDone) nd []
  | finish (c : WorkerID) (hjoined : siblings.any (Routine.isRelocateOf c) = false) (hnew : c ∉ nd.em.doneWorkers) :
      RoutineStep (.finish c true) { nd with em :=
          { nd.em with doneWorkers := c :: nd.em.doneWorkers, remaining := nd.em.remaining - 1 } }
        (if nd.em.remaining - 1 = 0 then [.disable] else [])
  | disable : RoutineStep .disable { nd with em := { nd.em with enabled := false } } [.dropLocks]
  | dropLocks : RoutineStep .dropLocks { nd with em := { nd.em with locks := none } } [.dropFinished]
  | dropFinished : RoutineStep .dropFinished { nd with em := { nd.em with finished := none } } [.signal]
  | signal : RoutineStep .signal { nd with em := { nd.em with done := true, signals := nd.em.signals + 1 } } []

end

variable {cfg : Config K} {w : WorkerID}

theorem runRoutine_eq_ok {backends : WorkerID → K → Option Value} {nd nd' : Node K} {siblings next : List (Routine K)}
    {choice : Choice K} {r : Routine K} (h : runRoutine cfg backends w nd siblings choice r = .ok (nd', next)) :
    RoutineStep cfg backends w nd siblings choice r nd' next := by
  unfold runRoutine at h
  split at h
  case h_1 => cases h; exact .readLocalEnd
  case h_2 => cases h; exact .readLocal _ _
  case h_3 => cases h; exact .fetchEnd _ _ _
  case h_4 => cases h; exact .fetch _ _ _ _ _
  case h_5 src keys triggered =>
    cases h
    split_ifs with hmore
    · obtain ⟨rfl, haffected⟩ := hmore
      exact .storeMore src keys haffected
    · exact .storeEnd src keys triggered hmore
  case h_6 => cases h; exact .store _ _ _ _ _
  case h_7 => cases h; exact .updateAddrEnd
  case h_8 k todo =>
    obtain ⟨nd₁, hrelocate, hnext⟩ := bind_eq_ok.mp h
    obtain ⟨m, hm, hk, rfl⟩ := relocateKey_eq_ok.mp hrelocate
    cases hnext
    exact .updateAddr k todo m hm hk
  case h_9 c dup =>
    cases haffected : nd.em.affected.get c with
    | none => simp [haffected] at h
    | some buckets =>
      simp only [haffected] at h
      cases h
      exact .additional c dup buckets haffected
  case h_10 => cases h; exact .scanEnd _ _ _
  case h_11 c dup b todo got =>
    by_cases hfinished : nd.em.isFinished c b = true
    · rw [if_pos hfinished] at h
      cases h
      exact .scanSkip c dup b todo got hfinished
    · rw [if_neg hfinished] at h
      cases hm : (nd.table b).map with
      | none => simp [hm] at h
      | some m =>
        simp only [hm] at h
        split_ifs at h with hlock horder hfull
        · cases h
          exact .scanFull c dup b todo got m hfinished hm hlock horder hfull
        · cases h
          exact .scan c dup b todo got m hfinished hm hlock horder (by simpa using hfull)
  case h_12 c b dup todo got =>
    cases hpairs : nd.em.finished with
    | none => simp [hpairs] at h
    | some pairs =>
      cases haffected : nd.em.affected.get c with
      | none => simp [hpairs, haffected] at h
      | some buckets =>
        simp only [hpairs, haffected] at h
        cases h
        exact .mark c b dup todo got pairs hpairs (by simp [haffected])
  case h_13 => cases h; exact .requestEnd _ _
  case h_14 c k todo allDone => cases h; exact .request c k todo allDone _ rfl
  case h_15 => cases h; exact .storeChunkEnd _ _ _ _
  case h_16 => cases h; exact .storeChunk _ _ _ _ _ _ _
  case h_17 => cases h; exact .relocateEnd _
  case h_18 c k todo =>
    split_ifs at h with hlock
    obtain ⟨nd₁, hrelocate, hnext⟩ := bind_eq_ok.mp h
    obtain ⟨m, hm, hk, rfl⟩ := relocateKey_eq_ok.mp hrelocate
    cases hnext
    exact .relocate c k todo m hlock hm hk
  case h_19 c allDone =>
    split_ifs at h with hwait hnew
    · cases h
      obtain ⟨rfl, hfresh⟩ := hnew
      exact .finish c (by simpa using hwait) hfresh
    · cases h
      exact .finishIdle c allDone (by simpa using hwait) hnew
  case h_20 => cases h; exact .disable
  case h_21 => cases h; exact .dropLocks
  case h_22 => cases h; exact .dropFinished
  case h_23 => cases h; exact .signal

/-- What each action does when it is taken. -/
inductive Step (cfg : Config K) (s : World K) : Action K → World K → Prop where
  | deploy (w : WorkerID) (owners : PartitionTable) (hnew : w ∉ s.deployed) : Step cfg s (.deploy w owners)
        { s.setNode w (.fresh (.deserialize owners w)) with deployed := w :: s.deployed }
  | read (w : WorkerID) (keys : List K) (located : List (K × WorkerID)) (hdeployed : w ∈ s.deployed)
      (hmain : ∀ old new, (s.node w).main ≠ .reading old new) (hdrained : (s.node w).bg = [])
      (hlocate : locate cfg (s.node w).table keys = .ok located) : Step cfg s (.read w keys)
        (s.setNode w { s.node w with
          res := fun _ => none
          main := .reading (s.node w).main.keys keys
          bg := readRoutines w (s.node w).em located })
  | run (w : WorkerID) (i : Nat) (choice : Choice K) (r : Routine K) (nd : Node K) (next : List (Routine K))
      (hr : (s.node w).bg[i]? = some r)
      (hrun : RoutineStep cfg (fun v => (s.node v).backend) w (s.node w) ((s.node w).bg.eraseIdx i) choice r
        nd next) : Step cfg s (.run w i choice) (s.setNode w { nd with bg := (s.node w).bg.eraseIdx i ++ next })
  | readDone (w : WorkerID) (old new : List K) (hmain : (s.node w).main = .reading old new)
      (hneeded : ∀ r ∈ (s.node w).bg, r.isNeeded = false) :
      Step cfg s (.readDone w) (s.setNode w { s.node w with main := .processing (old ++ new) })
  | flush (w : WorkerID) (k : K) (op : FlushOp) (keys : List K) (table : KeyLookupTableV2 K)
      (hmain : (s.node w).main = .processing keys) (hk : k ∈ keys) (hdrained : (s.node w).bg = [])
      (htable : FlushOp.updateTable (s.node w).table k (cfg.bucketOf k) w op = .ok table) : Step cfg s (.flush w k op)
        { s.setNode w { s.node w with
            table := table
            backend := update (s.node w).backend k (op.apply ((s.node w).backend k)) } with
          spec := update s.spec k (op.apply (s.spec k)) }
  | endUnit (w : WorkerID) (keys : List K) (hmain : (s.node w).main = .processing keys) :
      Step cfg s (.endUnit w) (s.setNode w { s.node w with main := .loopHead })
  | handover (w : WorkerID) (routing : PartitionTable) (table : KeyLookupTableV2 K)
      (out : KeyLookupTableV2.Outgoing K) (hdeployed : w ∈ s.deployed) (hmain : (s.node w).main = .loopHead)
      (hserialize : KeyLookupTableV2.serializeMigratingKeyMaps cfg.numBuckets w routing (s.node w).table
        = .ok (table, out)) : Step cfg s (.handover w routing) { s.setNode w { s.node w with table := table } with
          flight := s.flight ++ flightsOf w out
          holder := fun b =>
            if b < cfg.numBuckets ∧ (s.node w).table.Leaves w routing b ∧ s.holder b = some w then none
            else s.holder b }
  | receive (src dst : WorkerID) (f : Flight K) (table : KeyLookupTableV2 K) (hdeployed : dst ∈ s.deployed)
      (hnext : s.nextFlight src dst = some f)
      (hinstall : KeyLookupTableV2.deserializeMigratingKeyMaps dst f.entries (s.node dst).table = .ok table) :
      Step cfg s (.receive src dst) { s.setNode dst { s.node dst with table := table } with
          flight := s.flight.eraseP fun f => f.src = src ∧ f.dst = dst
          holder := fun b => if b ∈ f.entries.map Prod.fst then some dst else s.holder b
          owners := fun b => if b ∈ f.entries.map Prod.fst then dst :: s.owners b else s.owners b }
  | startEventual (w : WorkerID) (affected : List (BucketID × List WorkerID)) (em : EventualMeta)
      (hdeployed : w ∈ s.deployed) (hem : setEventualMigrationMeta (s.node w).em affected = .ok em) :
      Step cfg s (.startEventual w affected) (s.setNode w { s.node w with em := em })

theorem step_eq_ok {s s' : World K} {a : Action K} (h : step cfg s a = .ok s') :
    Step cfg s a s' := by
  cases a with
  | deploy w owners =>
    simp only [step] at h
    split_ifs at h with hnew
    cases h
    exact .deploy w owners hnew
  | read w keys =>
    simp only [step] at h
    cases hmain : (s.node w).main with
    | reading old new => simp [hmain] at h
    | loopHead =>
      simp only [hmain] at h
      split_ifs at h with hready
      obtain ⟨located, hlocate, hs'⟩ := bind_eq_ok.mp h
      cases hs'
      have hstep : Step cfg s (.read w keys) _ := .read w keys located hready.1 (by simp [hmain])
        (List.isEmpty_iff.mp hready.2) hlocate
      simpa only [hmain] using hstep
    | processing ks =>
      simp only [hmain] at h
      split_ifs at h with hready
      obtain ⟨located, hlocate, hs'⟩ := bind_eq_ok.mp h
      cases hs'
      have hstep : Step cfg s (.read w keys) _ := .read w keys located hready.1 (by simp [hmain])
        (List.isEmpty_iff.mp hready.2) hlocate
      simpa only [hmain] using hstep
  | run w i choice =>
    simp only [step] at h
    cases hr : (s.node w).bg[i]? with
    | none => simp [hr] at h
    | some r =>
      simp only [hr] at h
      obtain ⟨⟨nd, next⟩, hrun, hs'⟩ := bind_eq_ok.mp h
      cases hs'
      exact .run w i choice r nd next hr (runRoutine_eq_ok hrun)
  | readDone w =>
    simp only [step] at h
    cases hmain : (s.node w).main with
    | loopHead => simp [hmain] at h
    | processing ks => simp [hmain] at h
    | reading old new =>
      simp only [hmain] at h
      split_ifs at h with hneeded
      cases h
      refine .readDone w old new hmain fun r hr => ?_
      by_contra hne
      exact hneeded (List.any_eq_true.mpr ⟨r, hr, by simpa using hne⟩)
  | flush w k op =>
    simp only [step] at h
    cases hmain : (s.node w).main with
    | loopHead => simp [hmain] at h
    | reading old new => simp [hmain] at h
    | processing ks =>
      simp only [hmain] at h
      split_ifs at h with hready
      obtain ⟨table, htable, hs'⟩ := bind_eq_ok.mp h
      cases hs'
      have hstep := Step.flush w k op ks table hmain hready.1 (List.isEmpty_iff.mp hready.2)
        (mapAbort_eq_ok.mp htable)
      simpa only [hmain] using hstep
  | endUnit w =>
    simp only [step] at h
    cases hmain : (s.node w).main with
    | loopHead => simp [hmain] at h
    | reading old new => simp [hmain] at h
    | processing ks =>
      simp only [hmain] at h
      cases h
      exact .endUnit w ks hmain
  | handover w routing =>
    simp only [step] at h
    cases hmain : (s.node w).main with
    | reading old new => simp [hmain] at h
    | processing ks => simp [hmain] at h
    | loopHead =>
      simp only [hmain] at h
      split_ifs at h with hdeployed
      obtain ⟨⟨table, out⟩, hserialize, hs'⟩ := bind_eq_ok.mp h
      cases hs'
      have hstep := Step.handover w routing table out hdeployed hmain (mapAbort_eq_ok.mp hserialize)
      simpa only [hmain] using hstep
  | receive src dst =>
    simp only [step] at h
    cases hnext : s.nextFlight src dst with
    | none => simp [hnext] at h
    | some f =>
      simp only [hnext] at h
      split_ifs at h with hdeployed
      obtain ⟨table, hinstall, hs'⟩ := bind_eq_ok.mp h
      cases hs'
      exact .receive src dst f table hdeployed hnext (mapAbort_eq_ok.mp hinstall)
  | startEventual w affected =>
    simp only [step] at h
    split_ifs at h with hdeployed
    obtain ⟨em, hem, hs'⟩ := bind_eq_ok.mp h
    cases hs'
    exact .startEventual w affected em hdeployed hem

variable {located : List (K × WorkerID)}

theorem locate_spec {table : KeyLookupTableV2 K} {keys : List K} (h : locate cfg table keys = .ok located) :
    located.map Prod.fst = keys ∧ ∀ k l, (k, l) ∈ located → table.getWorkerID k (cfg.bucketOf k) = .ok l := by
  refine forEach_partial (fun done (acc : List (K × WorkerID)) => acc.map Prod.fst = done ∧
    ∀ k l, (k, l) ∈ acc → table.getWorkerID k (cfg.bucketOf k) = .ok l) ⟨rfl, by simp⟩ ?_ h
  intro done k rest acc acc' _ hinv hbody
  obtain ⟨l, hl, hacc⟩ := bind_eq_ok.mp hbody
  cases hacc
  refine ⟨by rw [List.map_append, hinv.1]; rfl, fun k' l' hmem => ?_⟩
  rcases List.mem_append.mp hmem with hold | hnew
  · exact hinv.2 k' l' hold
  · cases List.mem_singleton.mp hnew
    exact mapAbort_eq_ok.mp hl

omit [DecidableEq K] in
theorem mem_keysAt {l : WorkerID} {k : K} :
    k ∈ keysAt located l ↔ (k, l) ∈ located := by
  rw [keysAt, List.mem_map]
  constructor
  · rintro ⟨⟨k', l'⟩, hmem, rfl⟩
    obtain ⟨hin, hl⟩ := List.mem_filter.mp hmem
    obtain rfl : l' = l := of_decide_eq_true hl
    exact hin
  · exact fun hin => ⟨(k, l), List.mem_filter.mpr ⟨hin, by simp⟩, rfl⟩

omit [DecidableEq K] in
theorem mem_readRoutines {em : EventualMeta} {r : Routine K} :
    r ∈ readRoutines w em located ↔
      r = .readLocal (keysAt located w) ∨
      (∃ src ∈ located.map Prod.snd, src ≠ w ∧ r = .fetch src (keysAt located src) (keysAt located src) em.enabled) ∨
      (em.enabled = true ∧ ∃ c, (em.affected.get c).isSome ∧ c ∉ located.map Prod.snd ∧ r = .additional c []) ∨
      r = .updateAddr (((located.map Prod.snd).dedup.filter (· ≠ w)).flatMap (keysAt located)) := by
  unfold readRoutines
  simp only [List.mem_append, List.mem_singleton, List.mem_map, List.mem_filter, List.mem_dedup,
    decide_eq_true_eq, or_assoc]
  refine or_congr Iff.rfl (or_congr ?_ (or_congr ?_ Iff.rfl))
  · constructor
    · rintro ⟨src, ⟨hmem, hne⟩, rfl⟩
      exact ⟨src, hmem, hne, rfl⟩
    · rintro ⟨src, hmem, hne, rfl⟩
      exact ⟨src, ⟨hmem, hne⟩, rfl⟩
  · cases em.enabled with
    | false => simp
    | true =>
      simp only [if_true, List.mem_map, List.mem_filter, decide_eq_true_eq, true_and, GoMap.mem_keys_iff]
      constructor
      · rintro ⟨c, ⟨haff, hfree⟩, rfl⟩
        exact ⟨c, haff, hfree, rfl⟩
      · rintro ⟨c, haff, hfree, rfl⟩
        exact ⟨c, ⟨haff, hfree⟩, rfl⟩

theorem get_foldl_append (b : BucketID) (cs : List WorkerID) (acc : GoMap WorkerID (List BucketID)) (c : WorkerID) :
    (cs.foldl (fun acc c => acc.set c ((acc.get c).getD [] ++ [b])) acc).get c =
      if c ∈ cs then some ((acc.get c).getD [] ++ List.replicate (cs.count c) b) else acc.get c := by
  induction cs generalizing acc with
  | nil => simp
  | cons x cs ih =>
    rw [List.foldl_cons, ih, GoMap.get_set]
    by_cases hx : c = x
    · subst hx
      by_cases hmem : c ∈ cs
      · simp [hmem, List.replicate_succ]
      · simp [hmem, List.count_eq_zero.mpr hmem]
    · simp [hx, Ne.symm hx]

variable (affected : List (BucketID × List WorkerID))

theorem groupAffected_concat (e : BucketID × List WorkerID) :
    groupAffected (affected ++ [e]) =
      e.2.foldl (fun acc c => acc.set c ((acc.get c).getD [] ++ [e.1])) (groupAffected affected) := by
  simp [groupAffected]

/-- The grouping of `SetEventualMigrationMeta` lists, for each cancelling worker, its affected buckets. -/
theorem groupAffected_spec (c : WorkerID) :
    (∀ b, b ∈ ((groupAffected affected).get c).getD [] ↔ ∃ cs, (b, cs) ∈ affected ∧ c ∈ cs) ∧
      (((groupAffected affected).get c).isSome ↔ ∃ e ∈ affected, c ∈ e.2) := by
  induction affected using List.reverseRecOn with
  | nil => simp [groupAffected]
  | append_singleton affected e ih =>
    obtain ⟨b₀, cs₀⟩ := e
    rw [groupAffected_concat, get_foldl_append]
    by_cases hmem : c ∈ cs₀
    · refine ⟨fun b => ?_, by simp [hmem]⟩
      simp only [hmem, if_true, Option.getD_some, List.mem_append, ih.1, List.mem_replicate, List.mem_singleton,
        Prod.mk.injEq]
      constructor
      · rintro (⟨cs, hcs, hc⟩ | ⟨-, rfl⟩)
        · exact ⟨cs, .inl hcs, hc⟩
        · exact ⟨cs₀, .inr ⟨rfl, rfl⟩, hmem⟩
      · rintro ⟨cs, hcs | ⟨rfl, rfl⟩, hc⟩
        · exact .inl ⟨cs, hcs, hc⟩
        · exact .inr ⟨(List.count_pos_iff.mpr hmem).ne', rfl⟩
    · simp only [hmem, if_false]
      refine ⟨fun b => ?_, ?_⟩
      · rw [ih.1]
        constructor
        · rintro ⟨cs, hcs, hc⟩
          exact ⟨cs, List.mem_append_left _ hcs, hc⟩
        · rintro ⟨cs, hcs, hc⟩
          rcases List.mem_append.mp hcs with hold | hnew
          · exact ⟨cs, hold, hc⟩
          · cases List.mem_singleton.mp hnew
            exact absurd hc hmem
      · rw [ih.2]
        constructor
        · rintro ⟨e, he, hc⟩
          exact ⟨e, List.mem_append_left _ he, hc⟩
        · rintro ⟨e, he, hc⟩
          rcases List.mem_append.mp he with hold | hnew
          · exact ⟨e, hold, hc⟩
          · cases List.mem_singleton.mp hnew
            exact absurd hc hmem

theorem setEventualMigrationMeta_eq_ok {em em' : EventualMeta} {affected : List (BucketID × List WorkerID)}
    (h : setEventualMigrationMeta em affected = .ok em') :
    affected ≠ [] ∧ em.remaining = 0 ∧ em' =
      { enabled := true
        affected := groupAffected affected
        locks := some (affected.map Prod.fst)
        finished := some []
        doneWorkers := []
        remaining := (groupAffected affected).keys.length
        done := false
        signals := 0 } := by
  obtain ⟨hne, h⟩ := check_bind_eq_ok.mp h
  obtain ⟨hzero, h⟩ := check_bind_eq_ok.mp h
  exact ⟨hne, not_not.mp hzero, (Outcome.ok.inj h).symm⟩

end LazyByKey
end Koala
