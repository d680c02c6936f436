import Koala.LazyRescale.Steps

/-!
# The aborts of the rescale protocol

`StepAbort` lists how an action can end in an abort, one constructor for each fatal check of the code, as `Step` lists
what it does otherwise.  That an abort is unreachable is proved by cases on it.
-/

namespace Koala
namespace LazyRescale

open Lib Lib.Outcome Keyby Partition

variable {R K : Type} [DecidableEq K]

/-- The accesses of a work unit: it reads keys of its buckets. -/
def Accesses (job : Job R K) (s : Sys R K) : LazyByKey.Action K → Prop
  | .read w keys => ∃ buckets, (s.loop w).pc = .work buckets ∧ ∀ k ∈ keys, job.store.bucketOf k ∈ buckets
  | .run .. => True
  | .readDone _ => True
  | .flush .. => True
  | .endUnit _ => True
  | _ => False

section

variable (job : Job R K) (s : Sys R K)

/-- How each action can abort. -/
inductive StepAbort : Action R K → Abort → Prop where
  | noEffect (resize : Resize) (part : PartitionTable) : StepAbort (.rescale resize part) .noEffect
  | plan (resize : Resize) (part : PartitionTable) (e : PlanAbort) (hplan : generateMigrationPlan
        (computeBucketOwnerChanges (job.ownersOf s.co.part) (job.ownersOf part)) = .abort e) :
      StepAbort (.rescale resize part) (.plan e)
  | noKeySpace (resize : Resize) (part : PartitionTable) : StepAbort (.rescale resize part) .noKeySpace
  | noAffected (hstage : s.co.stage = .route []) : StepAbort .advance .noAffected
  | deploy (w : WorkerID) (e : LazyByKey.Abort)
      (hstore : LazyByKey.step job.store s.store (.deploy w s.co.part) = .abort e) :
      StepAbort (.initTask w) (.store e)
  | notClean (w : WorkerID) (todo : List WorkerID) (hstage : s.co.stage = .init todo) (hw : w ∈ todo)
      (hdirty : (s.sup w).expectedInflightBarriers ≠ -1 ∨ (s.sup w).expectedInboundPeers ≠ -1) :
      StepAbort (.initTask w) .notClean
  | noBarriers (w : WorkerID) : StepAbort (.initTask w) .noBarriers
  | alreadyInPhase (w : WorkerID) (todo : List WorkerID) (hstage : s.co.stage = .forward todo) (hw : w ∈ todo)
      (hhandler : (s.loop w).handler = []) (hphase : (s.loop w).phase = true) : StepAbort (.handle w) .alreadyInPhase
  | receive (src dst : WorkerID) (rest : List (PeerUnit R)) (e : LazyByKey.Abort)
      (hstatus : (s.link ⟨src, dst, false⟩).status = .fresh)
      (hqueue : (s.link ⟨src, dst, false⟩).queue = .keyMap :: rest)
      (hstore : LazyByKey.step job.store s.store (.receive src dst) = .abort e) :
      StepAbort (.install src dst) (.store e)
  | notKeyMap (src dst : WorkerID) (unit : PeerUnit R) (rest : List (PeerUnit R))
      (hstatus : (s.link ⟨src, dst, false⟩).status = .fresh)
      (hqueue : (s.link ⟨src, dst, false⟩).queue = unit :: rest) (hunit : unit ≠ .keyMap) :
      StepAbort (.install src dst) (.notKeyMap unit.type)
  | unexpectedPeer (l : Link) (hready : (s.link l).status = .installed ∨
        ((s.link l).status = .fresh ∧ l.second = true ∧ l.src ∈ (s.sup l.dst).peerChannelSync))
      (hpos : (s.sup l.dst).expectedInboundPeers ≤ 0) :
      StepAbort (.register l) (.unexpectedPeer (s.sup l.dst).expectedInboundPeers)
  | syncMap (l : Link) (e : Abort) (hsync : validateSyncMap job (s.sup l.dst) = .abort e) : StepAbort (.register l) e
  | serialize (w : WorkerID) (routing : PartitionTable) (e : TableAbort) (hpc : (s.loop w).pc = .handing)
      (hrouting : (s.loop w).routing = some routing)
      (hout : KeyLookupTableV2.serializeMigratingKeyMaps job.store.numBuckets w routing (s.store.node w).table
        = .abort e) : StepAbort (.handover w) (.store (.table e))
  | keyMapPeer (w : WorkerID) (routing : PartitionTable) (table : KeyLookupTableV2 K)
      (out : KeyLookupTableV2.Outgoing K) (d : WorkerID) (hpc : (s.loop w).pc = .handing)
      (hrouting : (s.loop w).routing = some routing)
      (hout : KeyLookupTableV2.serializeMigratingKeyMaps job.store.numBuckets w routing (s.store.node w).table
        = .ok (table, out)) (hd : d ∈ out.keys) (hmissing : d ∉ (s.loop w).peersOf false) :
      StepAbort (.handover w) (.downstreamNotFound d)
  | handover (w : WorkerID) (routing : PartitionTable) (e : LazyByKey.Abort) (hpc : (s.loop w).pc = .handing)
      (hrouting : (s.loop w).routing = some routing)
      (hstore : LazyByKey.step job.store s.store (.handover w routing) = .abort e) :
      StepAbort (.handover w) (.store e)
  | handoverNil (w : WorkerID) (hpc : (s.loop w).pc = .handing) (hrouting : (s.loop w).routing = none) :
      StepAbort (.handover w) .nilRouting
  | metadataPeer (w : WorkerID) (watermark : Bool) (routing : PartitionTable) (d : WorkerID)
      (hpc : (s.loop w).pc = .announcing) (hrouting : (s.loop w).routing = some routing)
      (hd : d ∈ ((s.loop w).index.filter fun b => routing b ≠ w).map routing)
      (hmissing : d ∉ (s.loop w).peersOf false) : StepAbort (.announce w watermark) (.downstreamNotFound d)
  | announceNil (w : WorkerID) (watermark : Bool) (hpc : (s.loop w).pc = .announcing)
      (hrouting : (s.loop w).routing = none) : StepAbort (.announce w watermark) .nilRouting
  | unexpectedBarrier (w : WorkerID) (u : UpstreamID) (progress : Bool) (rest : List (UpstreamUnit R))
      (hqueue : s.queue u w = .barrier :: rest) (hexpected : (s.sup w).expectedInflightBarriers ≤ 0) :
      StepAbort (.takeRegular w u progress) .unexpectedBarrier
  | unexpectedTermination (w src : WorkerID) (second progress : Bool) (rest : List (PeerUnit R))
      (hstatus : (s.link ⟨src, w, second⟩).status = .registered)
      (hqueue : (s.link ⟨src, w, second⟩).queue = .termination :: rest)
      (hexpected : (s.sup w).expectedInboundPeers ≠ -2) : StepAbort (.takePeer w src second progress)
        (.unexpectedPeerTermination (s.sup w).expectedInboundPeers)
  | unknownUnit (w src : WorkerID) (second progress : Bool) (rest : List (PeerUnit R))
      (hstatus : (s.link ⟨src, w, second⟩).status = .registered)
      (hqueue : (s.link ⟨src, w, second⟩).queue = .keyMap :: rest) :
      StepAbort (.takePeer w src second progress) (.unknownUnit 8)
  | recordPeer (w : WorkerID) (fired : List BucketID) (recs : List R) (second : Bool) (routing : PartitionTable)
      (d : WorkerID) (hpc : (s.loop w).pc = .batch recs second) (hin : (s.loop w).inTransition = true)
      (hrouting : (s.loop w).routing = some routing)
      (hd : d ∈ (recs.filter fun r => routing (job.bucketOf r) ≠ w).map fun r => routing (job.bucketOf r))
      (hmissing : d ∉ (s.loop w).peersOf second) : StepAbort (.dispatch w fired) (.downstreamNotFound d)
  | dispatchNil (w : WorkerID) (fired : List BucketID) (recs : List R) (second : Bool)
      (hpc : (s.loop w).pc = .batch recs second) (hin : (s.loop w).inTransition = true)
      (hrouting : (s.loop w).routing = none) : StepAbort (.dispatch w fired) .nilRouting
  | startEventual (w : WorkerID) (todo waiting : List WorkerID) (e : LazyByKey.Abort)
      (hstage : s.co.stage = .eventual todo waiting) (hw : w ∈ todo)
      (hstore : LazyByKey.step job.store s.store (.startEventual w (s.co.affectedOf job w)) = .abort e) :
      StepAbort (.startEventual w) (.store e)
  | store (c : LazyByKey.Action K) (e : LazyByKey.Abort) (haccess : Accesses job s c)
      (hstore : LazyByKey.step job.store s.store c = .abort e) : StepAbort (.store c) (.store e)

end

omit [DecidableEq K] in
theorem validateSyncMap_avoids {job : Job R K} {p : Supplier} {bad : Abort → Prop} (hodd : ¬ bad .syncMapOdd)
    (hsize : ∀ size expected, ¬ bad (.syncMapSize size expected)) (hempty : ¬ bad .syncMapNotEmpty) :
    Avoids bad (validateSyncMap job p) := by
  unfold validateSyncMap
  refine .ite (fun _ => .bind (.check fun _ => hodd) fun _ _ => .check fun _ => hsize _ _) fun _ => ?_
  exact .check fun _ => hempty

section Inversion

variable {job : Job R K} {s : Sys R K} {a : Action R K}

/-- An abort that is not in the list. -/
def Unlisted (job : Job R K) (s : Sys R K) (a : Action R K) (e : Abort) : Prop := ¬ StepAbort job s a e

theorem StepAbort.listed {e : Abort} (h : StepAbort job s a e) : ¬ Unlisted job s a e := not_not.mpr h

theorem checkPeers_listed {l : Loop R} {second : Bool} {dsts : List WorkerID}
    (h : ∀ d ∈ dsts, d ∉ l.peersOf second → StepAbort job s a (.downstreamNotFound d)) :
    Avoids (Unlisted job s a) (checkPeers l second dsts) := by
  unfold checkPeers missingPeer
  split
  case h_1 => exact .ok ()
  case h_2 d hfind =>
    have hmissing := List.find?_some hfind
    simp only [decide_eq_true_eq] at hmissing
    exact .abort (h d (List.mem_of_find?_eq_some hfind) hmissing).listed

theorem rescale_listed (resize : Resize) (part : PartitionTable) :
    Avoids (Unlisted job s (.rescale resize part)) (rescale job s resize part) := by
  unfold rescale
  split
  case h_2 => exact .stuck
  case h_1 hidle =>
    refine .ite (fun _ => ?_) fun _ => .stuck
    refine .bind (.check fun _ => (StepAbort.noEffect resize part).listed) fun _ _ => ?_
    refine .bind (.mapAbort fun e he => (StepAbort.plan resize part e he).listed) fun _ _ => ?_
    exact .bind (.check fun _ => (StepAbort.noKeySpace resize part).listed) fun _ _ => .ok _

theorem advance_listed : Avoids (Unlisted job s .advance) (advance job s) := by
  unfold advance
  split
  case h_4 hstage =>
    exact .ite (fun _ => .bind (.check fun _ => (StepAbort.noAffected hstage).listed) fun _ _ => .ok _) fun _ => .ok _
  case h_7 => exact .stuck
  all_goals exact .ok _

variable (w : WorkerID)

theorem initTask_listed : Avoids (Unlisted job s (.initTask w)) (initTask job s w) := by
  unfold initTask
  split
  case h_2 => exact .stuck
  case h_1 todo hstage =>
    refine .ite (fun hw => ?_) fun _ => .stuck
    have hbarriers : ¬ Unlisted job s (.initTask w) .noBarriers := (StepAbort.noBarriers w).listed
    have hdeploy : ∀ e, LazyByKey.step job.store s.store (.deploy w s.co.part) = .abort e →
        ¬ Unlisted job s (.initTask w) (.store e) := fun e he => (StepAbort.deploy w e he).listed
    dsimp only
    refine .ite (fun _ => .bind (.mapAbort hdeploy) fun store _ =>
      .bind (.ok _) fun t ht => ?_) fun _ => .bind (.ok _) fun t ht => ?_
    · obtain rfl := Outcome.ok.inj ht
      simp only [Sys.setSup, Function.update_self]
      -- a new task starts clean
      refine .bind (.bind (.check fun hdirty => absurd hdirty (by simp [Supplier.idle])) fun _ _ => ?_) fun _ _ => .ok _
      exact .bind (.check fun _ => hbarriers) fun _ _ => .ok _
    · obtain rfl := Outcome.ok.inj ht
      refine .bind (.bind (.check fun hdirty => (StepAbort.notClean w todo hstage hw hdirty).listed) fun _ _ => ?_)
        fun _ _ => .ok _
      exact .bind (.check fun _ => hbarriers) fun _ _ => .ok _

theorem handle_listed : Avoids (Unlisted job s (.handle w)) (handleStartFastForward job s w) := by
  unfold handleStartFastForward
  split
  case h_2 => exact .stuck
  case h_1 todo hstage =>
    refine .ite (fun hw => ?_) fun _ => .stuck
    split
    case h_1 hhandler =>
      exact .bind (.check fun hphase => (StepAbort.alreadyInPhase w todo hstage hw hhandler hphase).listed)
        fun _ _ => .ok _
    case h_5 => exact .stuck
    all_goals exact .ok _

theorem install_listed (src dst : WorkerID) :
    Avoids (Unlisted job s (.install src dst)) (installKeyMaps job s src dst) := by
  unfold installKeyMaps
  dsimp only
  split
  case h_1 rest hstatus hqueue =>
    exact .bind (.mapAbort fun e he => (StepAbort.receive src dst rest e hstatus hqueue he).listed) fun _ _ => .ok _
  case h_2 unit rest hunit hstatus hqueue =>
    exact .abort (StepAbort.notKeyMap src dst unit rest hstatus hqueue hunit).listed
  case h_3 => exact .stuck

theorem register_listed (l : Link) : Avoids (Unlisted job s (.register l)) (registerPeer job s l) := by
  unfold registerPeer
  refine .ite (fun hready => ?_) fun _ => .stuck
  refine .bind (.check fun hpos => (StepAbort.unexpectedPeer l hready hpos).listed) fun _ _ => ?_
  refine .ite (fun _ => .bind (fun e he => (StepAbort.syncMap l e he).listed) fun _ _ => .ok _) fun _ => .ok _

theorem handover_listed :
    Avoids (Unlisted job s (.handover w)) (constructAndSendKeyMaps job s w) := by
  unfold constructAndSendKeyMaps
  dsimp only
  split
  case h_1 routing hpc hrouting =>
    refine .bind (.mapAbort fun e he => (StepAbort.serialize w routing e hpc hrouting he).listed) fun x hx => ?_
    have hout := mapAbort_eq_ok.mp hx
    refine .bind (checkPeers_listed fun d hd hmissing =>
      .keyMapPeer w routing x.1 x.2 d hpc hrouting hout hd hmissing) fun _ _ => ?_
    exact .bind (.mapAbort fun e he => (StepAbort.handover w routing e hpc hrouting he).listed) fun _ _ => .ok _
  case h_2 hpc hrouting => exact .abort (StepAbort.handoverNil w hpc hrouting).listed
  case h_3 => exact .stuck

theorem announce_listed (watermark : Bool) :
    Avoids (Unlisted job s (.announce w watermark)) (announce job s w watermark) := by
  unfold announce
  dsimp only
  split
  case h_1 routing hpc hrouting =>
    exact .bind (checkPeers_listed fun d hd hmissing =>
      .metadataPeer w watermark routing d hpc hrouting hd hmissing) fun _ _ => .ok _
  case h_2 hpc hrouting => exact .abort (StepAbort.announceNil w watermark hpc hrouting).listed
  case h_3 => exact .stuck

theorem takeRegular_listed (u : UpstreamID) (progress : Bool) :
    Avoids (Unlisted job s (.takeRegular w u progress)) (takeRegular job s w u progress) := by
  unfold takeRegular
  dsimp only
  split
  case h_2 => exact .stuck
  case h_1 unit rest hpc hqueue =>
    cases unit with
    | batch | watermark | termination => exact .ok _
    | barrier =>
      refine .bind (.check fun hexpected =>
        (StepAbort.unexpectedBarrier w u progress rest hqueue hexpected).listed) fun _ _ => ?_
      exact .ite (fun _ => .ok _) fun _ => .ok _

theorem takePeer_listed (w src : WorkerID) (second progress : Bool) :
    Avoids (Unlisted job s (.takePeer w src second progress)) (takePeer s w src second progress) := by
  unfold takePeer
  dsimp only
  split
  case h_2 => exact .stuck
  case h_1 unit rest hpc hstatus hqueue =>
    cases unit with
    | batch | watermark | metadata => exact .ok _
    | keyMap => exact .abort (StepAbort.unknownUnit w src second progress rest hstatus hqueue).listed
    | termination =>
      refine .bind (.bind (.check fun hexpected =>
        (StepAbort.unexpectedTermination w src second progress rest hstatus hqueue hexpected).listed)
        fun _ _ => ?_) fun _ _ => .ok _
      exact .ite (fun _ => .ok _) fun _ => .ok _

theorem dispatch_listed (fired : List BucketID) :
    Avoids (Unlisted job s (.dispatch w fired)) (dispatch job s w fired) := by
  unfold dispatch
  dsimp only
  split
  case h_1 recs second hpc =>
    refine .ite (fun hin => ?_) fun _ => .ok _
    split
    case h_1 hrouting => exact .abort (StepAbort.dispatchNil w fired recs second hpc hin hrouting).listed
    case h_2 routing hrouting =>
      refine .bind (checkPeers_listed fun d hd hmissing =>
        .recordPeer w fired recs second routing d hpc hin hrouting hd hmissing) fun _ _ => ?_
      exact .ite (fun _ => .ok _) fun _ => .ok _
  case h_2 => exact .ite (fun _ => .ok _) fun _ => .stuck
  case h_3 => exact .stuck

theorem startEventual_listed :
    Avoids (Unlisted job s (.startEventual w)) (startEventual job s w) := by
  unfold startEventual
  split
  case h_1 todo waiting hstage =>
    refine .ite (fun hw => .bind (.mapAbort fun e he => ?_) fun _ _ => .ok _) fun _ => .stuck
    exact (StepAbort.startEventual w todo waiting e hstage hw he).listed
  case h_2 => exact .stuck

theorem accessStore_listed (c : LazyByKey.Action K) :
    Avoids (Unlisted job s (.store c)) (accessStore job s c) := by
  unfold accessStore
  refine .ite (fun hallowed => .bind (.mapAbort fun e he => (StepAbort.store c e ?_ he).listed) fun _ _ => .ok _)
    fun _ => .stuck
  cases c with
  | read w keys =>
    cases hpc : (s.loop w).pc with
    | work buckets => exact ⟨buckets, hpc, by simpa [hpc] using hallowed⟩
    | _ => simp [hpc] at hallowed
  | run | readDone | flush | endUnit => trivial
  | _ => cases hallowed

/-- **Every abort is in the list.** -/
theorem step_eq_abort {e : Abort} (h : step job s a = .abort e) : StepAbort job s a e := by
  suffices hlisted : Avoids (Unlisted job s a) (step job s a) from not_not.mp (hlisted e h)
  cases a with
  | rescale resize part => exact rescale_listed resize part
  | advance => exact advance_listed
  | initTask w => exact initTask_listed w
  | handle w => exact handle_listed w
  | install src dst => exact install_listed src dst
  | register l => exact register_listed l
  | handover w => exact handover_listed w
  | announce w watermark => exact announce_listed w watermark
  | takeRegular w u progress => exact takeRegular_listed w u progress
  | takePeer w src second progress => exact takePeer_listed w src second progress
  | dispatch w fired => exact dispatch_listed w fired
  | startEventual w => exact startEventual_listed w
  | store c => exact accessStore_listed c
  | loopHead =>
    simp only [step]
    unfold updateInTransitionFlag
    dsimp only
    split
    · refine .ite (fun _ => .ite (fun _ => .ok _) fun _ => ?_) fun _ => .ok _
      split
      · exact .ok _
      · exact .stuck
    · exact .stuck
  | finish =>
    simp only [step]
    unfold finishWork
    dsimp only
    split
    · exact .ite (fun _ => .ok _) fun _ => .stuck
    · exact .stuck
  | exit =>
    simp only [step]
    unfold exitTransitionPhase
    dsimp only
    split
    case h_6 => exact .stuck
    all_goals exact .ok _
  | emitBatch | emitWatermark => exact .ite (fun _ => .ok _) fun _ => .stuck
  | updateRouting =>
    simp only [step]
    unfold updateRouting
    split
    · exact .ite (fun _ => .ok _) fun _ => .stuck
    · exact .stuck
  | waitInboundPeers =>
    simp only [step]
    unfold waitInboundPeers
    split
    · exact .ite (fun _ => .ok _) fun _ => .stuck
    · exact .stuck
  | waitReconfigDone =>
    simp only [step]
    unfold waitReconfigDone
    split
    · exact .ite (fun _ => .ok _) fun _ => .stuck
    · exact .stuck
  | waitEventual =>
    simp only [step]
    unfold waitEventual
    split
    · exact .ite (fun _ => .ok _) fun _ => .stuck
    · exact .stuck

end Inversion

end LazyRescale
end Koala
