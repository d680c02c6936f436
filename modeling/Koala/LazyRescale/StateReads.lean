import Koala.LazyByKey.LastValueRuns
import Koala.LazyRescale.Aborts
import Koala.LazyRescale.Safety

/-!
# State reads over whole runs

What a work unit finds when it reads the state of its keys, over any sequence of reconfigurations.  The protocol
meets the routing contract of the state service in every run (`Inv.routed`), so the invariants of that machine hold
along the runs whose installs and handovers meet its two other conditions: key maps arrive at workers that keep nothing
the maps do not list (`CleanInstall`), and they leave workers whose background goroutines have finished
(`DrainedHandover`).  The code enforces neither.  A task that gave a bucket away keeps its copies, and the main loop
hands the key maps over without waiting for the wait group; `deletedState_leftover` and `lastFlushed_undrained` are the
runs in which that shows.
-/

namespace Koala
namespace LazyRescale

open Lib Lib.Outcome Keyby Partition

variable {R K : Type} [DecidableEq K]

/-- A task installs key maps that list every key of their buckets it still keeps. -/
def CleanInstall (job : Job R K) (s : Sys R K) : Action R K → Prop
  | .install src dst => LazyByKey.Clean job.store s.store (.receive src dst)
  | _ => True

/-- A task hands its key maps over when its background goroutines have finished. -/
def DrainedHandover (s : Sys R K) : Action R K → Prop
  | .handover w => (s.store.node w).bg = []
  | _ => True

variable {job : Job R K} {s s' : Sys R K} {a : Action R K} {c : LazyByKey.Action K}

/-- The conditions on the protocol's actions are the state service's conditions on its own. -/
theorem Step.storeGuards (hstep : Step job s a s') (hc : a.storeAction job s = some c) :
    (CleanInstall job s a → LazyByKey.Clean job.store s.store c) ∧
      (DrainedHandover s a → LazyByKey.Drained s.store c) := by
  cases hstep with
  | initNew w todo store hstage hw hnew =>
    simp only [Action.storeAction, if_pos hnew, Option.some.injEq] at hc
    subst hc
    exact ⟨fun _ => trivial, fun _ => trivial⟩
  | initOld w todo hstage hw hold =>
    simp only [Action.storeAction, if_neg hold] at hc
    cases hc
  | install =>
    cases hc
    exact ⟨id, fun _ => trivial⟩
  | handover w routing table out store hpc hrouting =>
    simp only [Action.storeAction, hrouting, Option.map_some, Option.some.injEq] at hc
    subst hc
    exact ⟨fun _ => trivial, id⟩
  | startEventual | read | run | readDone | flush | endUnit =>
    cases hc
    exact ⟨fun _ => trivial, fun _ => trivial⟩
  | _ => cases hc

theorem Inv.absentKeys_step (h : Inv job s) (habsent : LazyByKey.AbsentKeys job.store s.store)
    (hclean : CleanInstall job s a) (hstep : Step job s a s') : LazyByKey.AbsentKeys job.store s'.store := by
  rcases hstep.store with ⟨-, hsame⟩ | ⟨c, hc, hstore⟩
  · rw [hsame]
    exact habsent
  · exact habsent.step h.custody (h.routed hstep hc) ((hstep.storeGuards hc).1 hclean) (LazyByKey.step_eq_ok hstore)

theorem Inv.lastValue_step (h : Inv job s) (habsent : LazyByKey.AbsentKeys job.store s.store)
    (hlast : LazyByKey.LastValue job.store s.store) (hdrained : DrainedHandover s a) (hstep : Step job s a s') :
    LazyByKey.LastValue job.store s'.store := by
  rcases hstep.store with ⟨-, hsame⟩ | ⟨c, hc, hstore⟩
  · rw [hsame]
    exact hlast
  · exact hlast.step h.custody habsent (h.routed hstep hc) ((hstep.storeGuards hc).2 hdrained)
      (LazyByKey.step_eq_ok hstore)

variable {G : Sys R K → Action R K → Prop}

theorem absentKeys_of_run (hG : ∀ s a, G s a → CleanInstall job s a)
    (hrun : (machine job).Run G s) : LazyByKey.AbsentKeys job.store s.store := by
  refine hrun.invariant (fun s => LazyByKey.AbsentKeys job.store s.store) ?_ fun s a s' hrun h hguard hstep =>
    (inv_of_run hrun).absentKeys_step h (hG s a hguard) (step_eq_ok hstep)
  rintro _ ⟨workers, owners, -, -, rfl⟩
  exact .initial job.store workers owners

/-- The locations of the key maps are right along runs with clean installs and drained handovers. -/
theorem lastValue_of_run (hclean : ∀ s a, G s a → CleanInstall job s a)
    (hdrained : ∀ s a, G s a → DrainedHandover s a) (hrun : (machine job).Run G s) :
    LazyByKey.LastValue job.store s.store := by
  refine hrun.invariant (fun s => LazyByKey.LastValue job.store s.store) ?_ fun s a s' hrun h hguard hstep =>
    (inv_of_run hrun).lastValue_step (absentKeys_of_run hclean hrun) h (hdrained s a hguard) (step_eq_ok hstep)
  rintro _ ⟨workers, owners, -, -, rfl⟩
  exact .initial job.store workers owners

theorem Inv.holder_of_read (h : Inv job s) {w : WorkerID} {keys : List K}
    (hstep : LazyRescale.step job s (.store (.read w keys)) = .ok s') {k : K} (hk : k ∈ keys) :
    s.store.holder (job.store.bucketOf k) = some w :=
  h.routed (step_eq_ok hstep) rfl k hk

/-- A read starts when the background goroutines of the last one have finished. -/
theorem drained_of_read {w : WorkerID} {keys : List K}
    (hstep : LazyRescale.step job s (.store (.read w keys)) = .ok s') : (s.store.node w).bg = [] := by
  cases step_eq_ok hstep with
  | read w keys buckets store hpc hkeys hstore =>
    cases LazyByKey.step_eq_ok hstore with
    | read w keys located hdeployed hmain hdrained hlocate => exact hdrained

/-! ## Deleted state -/

/-- **Deleted state stays deleted.**  In every run of any number of reconfigurations in which key maps arrive clean, and
for every key that was never written or whose last flush was a delete: its bucket's holder looks it up at itself and has
no value for it, and a read of it returns none.  The same holds for every key that the holder's map does not list. -/
theorem deletedState (job : Job R K) {s : Sys R K} (hrun : (machine job).Run (CleanInstall job) s) :
    (∀ k w, s.store.holder (job.store.bucketOf k) = some w → s.store.spec k = none →
      (s.store.node w).table.getWorkerID k (job.store.bucketOf k) = .ok w ∧ (s.store.node w).backend k = none) ∧
    (∀ k w m, s.store.holder (job.store.bucketOf k) = some w →
      ((s.store.node w).table (job.store.bucketOf k)).map = some m → m.get k = none →
      (s.store.node w).backend k = none) ∧ (∀ w keys s', step job s (.store (.read w keys)) = .ok s' →
      ∀ k ∈ keys, s.store.holder (job.store.bucketOf k) = some w) ∧
    ∀ w old new, (s.store.node w).main = .reading old new → ∀ k ∈ new, s.store.spec k = none →
      (s.store.node w).res k = none := by
  have hinv := inv_of_run hrun
  have h := absentKeys_of_run (fun _ _ => id) hrun
  refine ⟨fun k w hholder hspec => ?_, fun k w m hholder hm hk => ?_, fun w keys s' hstep k => hinv.holder_of_read hstep,
    h.res⟩
  · obtain ⟨-, hlocal, hsome⟩ := hinv.custody.held _ w hholder
    obtain ⟨m, hm⟩ := Option.isSome_iff_exists.mp hsome
    refine ⟨KeyLookupTableV2.getWorkerID_eq_ok.mpr ⟨m, hm, ?_⟩, (h.not_kept hholder hspec).1⟩
    rw [(h.listed k w m hholder hm).mpr hspec, Option.getD_none, hlocal]
  · exact (h.not_kept hholder ((h.listed k w m hholder hm).mp hk)).1

/-! ## Last flushed values -/

/-- The nil-map and missing-key aborts of `GetWorkerID`, `UpdateKey` and `InsertOrUpdateKey`. -/
def Abort.OfLookup : Abort → Prop
  | store e => LazyByKey.LookupAbort e
  | _ => False

theorem Inv.routed_access (h : Inv job s) (haccess : Accesses job s c) :
    LazyByKey.Routed job.store s.store c := by
  cases c with
  | read w keys =>
    obtain ⟨buckets, hpc, hkeys⟩ := haccess
    exact fun k hk => (h.hand w).work buckets hpc _ (hkeys k hk)
  | run | readDone | flush | endUnit => trivial
  | _ => exact haccess.elim

theorem Inv.lookup_avoids (h : Inv job s) (habsent : LazyByKey.AbsentKeys job.store s.store)
    (hlast : LazyByKey.LastValue job.store s.store) (a : Action R K) :
    Avoids Abort.OfLookup (LazyRescale.step job s a) := by
  have hstore : ∀ {c : LazyByKey.Action K} {e : LazyByKey.Abort}, LazyByKey.Routed job.store s.store c →
      LazyByKey.step job.store s.store c = .abort e → ¬ LazyByKey.LookupAbort e :=
    fun hrouted => hlast.no_lookupAbort h.custody habsent hrouted
  intro e he hbad
  cases step_eq_abort he with
  | deploy w e hdeploy =>
    have hrouted : LazyByKey.Routed job.store s.store (.deploy w s.co.part) := trivial
    exact hstore hrouted hdeploy hbad
  | receive src dst rest e hstatus hqueue hreceive =>
    have hrouted : LazyByKey.Routed job.store s.store (.receive src dst) := trivial
    exact hstore hrouted hreceive hbad
  | syncMap l e hsync => exact validateSyncMap_avoids id (fun _ _ => id) id e hsync hbad
  | serialize w routing e hpc hrouting hout =>
    obtain ⟨b, rfl⟩ := KeyLookupTableV2.serializeMigratingKeyMaps_eq_abort hout
    exact hbad
  | handover w routing e hpc hrouting hhandover =>
    rw [(h.handing_routing hpc).1, Option.some.injEq] at hrouting
    subst hrouting
    exact hstore (h.routed_handover hpc) hhandover hbad
  | startEventual w todo waiting e hstage hw hstart => exact hstore (h.routed_startEventual w) hstart hbad
  | store c e haccess hc => exact hstore (h.routed_access haccess) hc hbad
  | _ => exact hbad

/-- **Reads return the last flushed value.**  In every run of any number of reconfigurations in which key maps arrive
clean and leave drained workers: whenever a task reads a key it holds the key map of the key's bucket, the worker that
the map names has exactly the last value flushed for the key, and when the values of a read are in, they are those; and no
step ends in a nil-map or missing-key abort of the table. -/
theorem lastFlushed (job : Job R K) {s : Sys R K}
    (hrun : (machine job).Run (fun s a => CleanInstall job s a ∧ DrainedHandover s a) s) :
    (∀ w keys s', step job s (.store (.read w keys)) = .ok s' → ∀ k ∈ keys,
      s.store.holder (job.store.bucketOf k) = some w ∧
      ∃ l, (s.store.node w).table.getWorkerID k (job.store.bucketOf k) = .ok l ∧
        (s.store.node l).backend k = s.store.spec k) ∧
    (∀ w s', step job s (.store (.readDone w)) = .ok s' → ∃ old new, (s.store.node w).main = .reading old new ∧
      ∀ k ∈ new, (s.store.node w).res k = s.store.spec k) ∧
    ∀ a, Avoids Abort.OfLookup (step job s a) := by
  have h := inv_of_run hrun
  have habsent := absentKeys_of_run (fun _ _ => And.left) hrun
  have hlast := lastValue_of_run (fun _ _ => And.left) (fun _ _ => And.right) hrun
  refine ⟨fun w keys s' hread k hk => ?_, fun w s' hdone => ?_, h.lookup_avoids habsent hlast⟩
  · have hholder := h.holder_of_read hread hk
    exact ⟨hholder, hlast.getWorkerID_agrees h.custody habsent hholder (drained_of_read hread)⟩
  · cases step_eq_ok hdone with
    | readDone w store hstore =>
      cases LazyByKey.step_eq_ok hstore with
      | readDone w old new hmain hneeded =>
        refine ⟨old, new, hmain, fun k hk => (hlast.read w old new hmain k hk).resolve_right ?_⟩
        rintro ⟨r, hr, hneeds⟩
        have hwaits := hneeded r hr
        cases r with
        | readLocal | fetch => cases hwaits
        | _ => exact hneeds

/-! ## Runs of the sample job -/

/-- Worker 1 hands the key map over before its goroutine has moved the entry of the key it read. -/
def sampleUndrained : List (Action (Fin 3) (Fin 3)) :=
  sampleFetched ++ [.store (.readDone 1), .store (.endUnit 1), .finish 1 []] ++ sampleBack

/-- The bucket goes back to worker 0, which still has the value it wrote. -/
def sampleLeftover : List (Action (Fin 3) (Fin 3)) :=
  sampleDeleted ++ sampleBack ++ [.announce 1 false, .advance, .install 1 0]

theorem deletedState_leftover : ∃ s, (machine sampleJob).Run (fun _ _ => True) s ∧ s.store.holder 2 = some 0 ∧
    s.store.spec 2 = none ∧ (s.store.node 0).table.getWorkerID 2 2 = .ok 0 ∧
    (s.store.node 0).backend 2 = some [7] := by
  have hreplay : (machine sampleJob).replay sampleStart sampleLeftover (fun s => decide (s.store.holder 2 = some 0 ∧
    s.store.spec 2 = none ∧ (s.store.node 0).table.getWorkerID 2 2 = .ok 0 ∧
    (s.store.node 0).backend 2 = some [7])) = true := by decide
  obtain ⟨s, hrun, hstate⟩ := Machine.Run.of_replay _ _ sampleStart_init hreplay
  exact ⟨s, hrun, of_decide_eq_true hstate⟩

/-- The goroutine of worker 1 finds the key map gone; and a key that was deleted is found again. -/
theorem lastFlushed_undrained : (∃ s, (machine sampleJob).Run (fun _ _ => True) s ∧
      step sampleJob s (.store (.run 1 0 ⟨[], 0⟩)) = .abort (.store (.table (.nilOnUpdate 2)))) ∧
    ∃ s, (machine sampleJob).Run (fun _ _ => True) s ∧ s.store.holder 2 = some 0 ∧ (s.store.node 0).bg = [] ∧
      (s.store.node 0).table.getWorkerID 2 2 = .ok 0 ∧ (s.store.node 0).backend 2 ≠ s.store.spec 2 := by
  have habort : (machine sampleJob).replayAbort sampleStart sampleUndrained (.store (.run 1 0 ⟨[], 0⟩))
      (fun e => decide (e = .store (.table (.nilOnUpdate 2)))) = true := by decide
  have hreplay : (machine sampleJob).replay sampleStart sampleLeftover (fun s => decide (s.store.holder 2 = some 0 ∧
    (s.store.node 0).bg.length = 0 ∧ (s.store.node 0).table.getWorkerID 2 2 = .ok 0 ∧
    (s.store.node 0).backend 2 ≠ s.store.spec 2)) = true := by decide
  obtain ⟨s, e, hrun, hstep, he⟩ := Machine.Run.of_replayAbort _ _ _ sampleStart_init habort
  obtain ⟨t, hrun', hstate⟩ := Machine.Run.of_replay _ _ sampleStart_init hreplay
  obtain ⟨hholder, hdrained, hlookup, hvalue⟩ := of_decide_eq_true hstate
  exact ⟨⟨s, hrun, of_decide_eq_true he ▸ hstep⟩,
    t, hrun', hholder, List.length_eq_zero_iff.mp hdrained, hlookup, hvalue⟩

/-- Both conditions, to be evaluated. -/
def orderlyCheck (s : Sys (Fin 3) (Fin 3)) : Action (Fin 3) (Fin 3) → Bool
  | .install src dst =>
    match s.store.nextFlight src dst with
    | none => true
    | some f => f.entries.all fun e => (List.finRange 3).all fun k => (e.2.get k).isSome ||
        ((s.store.node dst).backend k).isNone && (s.store.node dst).bg.isEmpty
  | .handover w => (s.store.node w).bg.isEmpty
  | _ => true

theorem orderly_of_check (s : Sys (Fin 3) (Fin 3)) (a : Action (Fin 3) (Fin 3)) (h : orderlyCheck s a = true) :
    CleanInstall sampleJob s a ∧ DrainedHandover s a := by
  cases a with
  | install src dst =>
    refine ⟨fun f hf k m hm hkeeps => ?_, trivial⟩
    simp only [orderlyCheck, hf, List.all_eq_true] at h
    have hk := h _ hm k (List.mem_finRange k)
    simp only [Bool.or_eq_true, Bool.and_eq_true, Option.isNone_iff_eq_none, List.isEmpty_iff] at hk
    refine hk.resolve_right fun hboth => ?_
    obtain ⟨hnone, hdrained⟩ := hboth
    rcases hkeeps with hbackend | ⟨r, hr, -⟩
    · exact hbackend hnone
    · simp [hdrained] at hr
  | handover w => exact ⟨trivial, List.isEmpty_iff.mp h⟩
  | _ => exact ⟨trivial, trivial⟩

/-- The value written at worker 0 is what worker 1 reads after the scale-up. -/
theorem lastFlushed_fetched :
    ∃ s, (machine sampleJob).Run (fun s a => CleanInstall sampleJob s a ∧ DrainedHandover s a) s ∧
    s.store.spec 2 = some [7] ∧ (∃ s', step sampleJob s (.store (.readDone 1)) = .ok s') ∧
    (s.store.node 1).res 2 = some [7] := by
  have hreplay : (machine sampleJob).replayGuarded orderlyCheck (fun s => decide (s.store.spec 2 = some [7]) &&
      (machine sampleJob).replay s [.store (.readDone 1)] (fun _ => true) &&
      decide ((s.store.node 1).main = .reading [] [2])) sampleStart sampleFetched = true := by decide
  obtain ⟨s, hrun, hstate⟩ := Machine.Run.of_replayGuarded orderly_of_check _ _ (.start sampleStart_init) hreplay
  simp only [Bool.and_eq_true, decide_eq_true_eq] at hstate
  obtain ⟨⟨hspec, hstep⟩, hread⟩ := hstate
  obtain ⟨s', hdone⟩ : ∃ s', step sampleJob s (.store (.readDone 1)) = .ok s' := by
    cases hcase : step sampleJob s (.store (.readDone 1)) with
    | ok s' => exact ⟨s', rfl⟩
    | abort | stuck => simp [Machine.replay, Machine.exec, machine, hcase] at hstep
  obtain ⟨old, new, hmain, hvalues⟩ := (lastFlushed sampleJob hrun).2.1 1 s' hdone
  obtain ⟨-, rfl⟩ := LazyByKey.Main.reading.inj (hmain.symm.trans hread)
  refine ⟨s, hrun, hspec, ⟨s', hdone⟩, ?_⟩
  rw [← hspec]
  exact hvalues 2 (by simp)

/-- The new owner does not find the key it has deleted. -/
theorem deletedState_deleted : ∃ s, (machine sampleJob).Run (CleanInstall sampleJob) s ∧
    s.store.holder 2 = some 1 ∧ s.store.spec 2 = none ∧ (s.store.node 0).backend 2 = some [7] ∧
    (s.store.node 1).table.getWorkerID 2 2 = .ok 1 ∧ (s.store.node 1).backend 2 = none := by
  have hreplay : (machine sampleJob).replayGuarded orderlyCheck (fun s => decide (s.store.holder 2 = some 1 ∧
      s.store.spec 2 = none ∧ (s.store.node 0).backend 2 = some [7])) sampleStart sampleDeleted = true := by decide
  obtain ⟨s, hrun, hstate⟩ := Machine.Run.of_replayGuarded (fun s a h => (orderly_of_check s a h).1) _ _
    (.start sampleStart_init) hreplay
  obtain ⟨hholder, hspec, hkept⟩ := of_decide_eq_true hstate
  obtain ⟨hlookup, hbackend⟩ := (deletedState sampleJob hrun).1 2 1 hholder hspec
  exact ⟨s, hrun, hholder, hspec, hkept, hlookup, hbackend⟩

end LazyRescale
end Koala
