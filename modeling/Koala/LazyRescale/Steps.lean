import Koala.LazyRescale.Machine

/-!
# The steps of the rescale protocol

`Step` lists what every action does when it is taken, one constructor for each way through its code.  The
invariants of the protocol are proved by cases on it.
-/

namespace Koala
namespace LazyRescale

open Lib Lib.Outcome Keyby Partition

variable {R K : Type}

theorem checkPeers_eq_ok {l : Loop R} {second : Bool} {dsts : List WorkerID} :
    checkPeers l second dsts = .ok () ↔ ∀ d ∈ dsts, d ∈ l.peersOf second := by
  unfold checkPeers missingPeer
  cases hfind : dsts.find? (· ∉ l.peersOf second) with
  | none =>
    have hall := List.find?_eq_none.mp hfind
    simpa using hall
  | some d =>
    have hd := List.find?_some hfind
    have hmem := List.mem_of_find?_eq_some hfind
    simp only [decide_eq_true_eq] at hd
    simp only [reduceCtorEq, false_iff, not_forall]
    exact ⟨d, hmem, hd⟩

variable [DecidableEq K]

section

variable (job : Job R K) (s : Sys R K)

/-- What each action does when it is taken. -/
inductive Step : Action R K → Sys R K → Prop where
  | rescale (resize : Resize) (part : PartitionTable) (plan : GoMap WorkerID (List MigrationInfo))
      (hidle : s.co.stage = .idle) (hallowed : resize.Allowed s.co.tasks s.store.deployed)
      (hpart : ∀ b < job.store.numBuckets, part b ∈ resize.updated s.co.tasks) (hplan : generateMigrationPlan
        (computeBucketOwnerChanges (job.ownersOf s.co.part) (job.ownersOf part)) = .ok plan)
      (hnew : ∀ w ∈ resize.added, (plan.get w).isSome) : Step (.rescale resize part) { s with
        co := { s.co with
          stage := .init (s.co.tasks ++ resize.added)
          part := part
          old := s.co.part
          changes := computeBucketOwnerChanges (job.ownersOf s.co.part) (job.ownersOf part)
          plan := plan
          updated := resize.updated s.co.tasks
          added := resize.added
          removed := resize.removed s.co.tasks
          history := Coordinator.recordOwners s.co.history s.co.part part
          epoch := s.co.epoch + 1 }
        handed := [] }
  | toForward (hstage : s.co.stage = .init []) : Step .advance (s.setStage (.forward s.co.changes.keys))
  | toConnect (hstage : s.co.stage = .forward []) : Step .advance (s.setStage (.connect s.co.plan.keys))
  | toRoute (hstage : s.co.stage = .connect []) : Step .advance (s.setStage (.route job.upstreams))
  | toEventual (hstage : s.co.stage = .route []) : Step .advance
        (s.setStage (.eventual (s.co.updated.filter fun w => s.co.affectedOf job w ≠ []) []))
  | toSettle (hstage : s.co.stage = .route [] ∨ s.co.stage = .eventual [] []) :
      Step .advance (s.setStage (.settle (s.co.updated ++ s.co.removed)))
  | complete (hstage : s.co.stage = .settle []) : Step .advance { s with co := { s.co with
        stage := .idle
        old := s.co.part
        changes := ∅
        plan := ∅
        tasks := s.co.updated
        added := []
        removed := [] } }
  | initOld (w : WorkerID) (todo : List WorkerID) (hstage : s.co.stage = .init todo) (hw : w ∈ todo)
      (hold : w ∉ s.co.added) (hpos : 0 < job.upstreams.length)
      (hclean : (s.sup w).expectedInflightBarriers = -1 ∧ (s.sup w).expectedInboundPeers = -1) :
      Step (.initTask w) ((s.setStage (.init (todo.filter (· ≠ w)))).setSup w { s.sup w with
        expectedInflightBarriers := job.upstreams.length
        expectedInboundPeers := s.co.expectedInboundPeers job w })
  | initNew (w : WorkerID) (todo : List WorkerID) (store : LazyByKey.World K)
      (hstage : s.co.stage = .init todo) (hw : w ∈ todo) (hnew : w ∈ s.co.added) (hpos : 0 < job.upstreams.length)
      (hstore : LazyByKey.step job.store s.store (.deploy w s.co.part) = .ok store) : Step (.initTask w)
        (((({ s.setStage (.init (todo.filter (· ≠ w))) with store := store } : Sys R K).setLoop w .idle).setSup w
          .idle).setSup w { Supplier.idle with
            expectedInflightBarriers := job.upstreams.length
            expectedInboundPeers := s.co.expectedInboundPeers job w })
  | handleStart (w : WorkerID) (todo : List WorkerID) (hstage : s.co.stage = .forward todo) (hw : w ∈ todo)
      (hhandler : (s.loop w).handler = []) (hphase : (s.loop w).phase = false) :
      Step (.handle w) (s.setLoop w { s.loop w with handler := handlerSteps job })
  | handleRouting (w : WorkerID) (todo : List WorkerID) (rest : List HandlerStep)
      (hstage : s.co.stage = .forward todo) (hw : w ∈ todo) (hhandler : (s.loop w).handler = .setRouting :: rest) :
      Step (.handle w) (s.setLoop w { s.loop w with routing := some s.co.part, handler := rest })
  | handleActivate (w : WorkerID) (todo : List WorkerID) (second : Bool) (rest : List HandlerStep)
      (hstage : s.co.stage = .forward todo) (hw : w ∈ todo)
      (hhandler : (s.loop w).handler = .activate second :: rest) : Step (.handle w) { s.setLoop w { s.loop w with
          peers := Function.update (s.loop w).peers second (some (s.co.destsOf w))
          handler := rest } with
        link := fun k =>
          if k.src = w ∧ k.second = second ∧ k.dst ∈ s.co.destsOf w then ⟨.fresh, []⟩ else s.link k }
  | handleRaise (w : WorkerID) (todo : List WorkerID) (rest : List HandlerStep)
      (hstage : s.co.stage = .forward todo) (hw : w ∈ todo) (hhandler : (s.loop w).handler = .raise :: rest) :
      Step (.handle w) (s.setLoop w { s.loop w with phase := true, handler := rest })
  | install (src dst : WorkerID) (rest : List (PeerUnit R)) (store : LazyByKey.World K)
      (hstatus : (s.link ⟨src, dst, false⟩).status = .fresh)
      (hqueue : (s.link ⟨src, dst, false⟩).queue = .keyMap :: rest)
      (hstore : LazyByKey.step job.store s.store (.receive src dst) = .ok store) : Step (.install src dst)
        ((({ s with store := store } : Sys R K).setChan ⟨src, dst, false⟩ ⟨.installed, rest⟩).setSup dst
          { s.sup dst with
            peerChannelSync :=
              if job.twoInputs then src :: (s.sup dst).peerChannelSync else (s.sup dst).peerChannelSync })
  | register (l : Link) (hready : (s.link l).status = .installed ∨
        ((s.link l).status = .fresh ∧ l.second = true ∧ l.src ∈ (s.sup l.dst).peerChannelSync))
      (hpos : 0 < (s.sup l.dst).expectedInboundPeers)
      (hmore : (s.sup l.dst).inboundPeerCounter + 1 ≠ (s.sup l.dst).expectedInboundPeers) :
      Step (.register l) ((s.setChan l { s.link l with status := .registered }).setSup l.dst
        { s.sup l.dst with inboundPeerCounter := (s.sup l.dst).inboundPeerCounter + 1 })
  | registerLast (l : Link) (hready : (s.link l).status = .installed ∨
        ((s.link l).status = .fresh ∧ l.second = true ∧ l.src ∈ (s.sup l.dst).peerChannelSync))
      (hpos : 0 < (s.sup l.dst).expectedInboundPeers)
      (hlast : (s.sup l.dst).inboundPeerCounter + 1 = (s.sup l.dst).expectedInboundPeers) :
      Step (.register l) ((s.setChan l { s.link l with status := .registered }).setSup l.dst { s.sup l.dst with
          inboundPeerCounter := (s.sup l.dst).inboundPeerCounter + 1
          expectedInboundPeers := -2
          allInboundPeersConnected := true
          peerChannelSync := [] })
  | loopStay (w : WorkerID) (hpc : (s.loop w).pc = .head) (hphase : (s.loop w).phase = true)
      (hin : (s.loop w).inTransition = true) : Step (.loopHead w) (s.setLoop w { s.loop w with pc := .ready })
  | loopEnter (w : WorkerID) (todo : List WorkerID) (hpc : (s.loop w).pc = .head)
      (hphase : (s.loop w).phase = true) (hin : (s.loop w).inTransition = false)
      (hstage : s.co.stage = .forward todo) (hhandler : (s.loop w).handler = [.await]) :
      Step (.loopHead w) ((s.setStage (.forward (todo.filter (· ≠ w)))).setLoop w { s.loop w with
        inTransition := true
        pc := .handing
        handler := [] })
  | loopOut (w : WorkerID) (hpc : (s.loop w).pc = .head) (hphase : (s.loop w).phase = false) :
      Step (.loopHead w) (s.setLoop w { s.loop w with inTransition := false, pc := .ready })
  | handover (w : WorkerID) (routing : PartitionTable) (table : KeyLookupTableV2 K)
      (out : KeyLookupTableV2.Outgoing K) (store : LazyByKey.World K) (hpc : (s.loop w).pc = .handing)
      (hrouting : (s.loop w).routing = some routing)
      (hout : KeyLookupTableV2.serializeMigratingKeyMaps job.store.numBuckets w routing (s.store.node w).table
        = .ok (table, out)) (hpeers : ∀ d ∈ out.keys, d ∈ (s.loop w).peersOf false)
      (hstore : LazyByKey.step job.store s.store (.handover w routing) = .ok store) :
      Step (.handover w) ((({ s with store := store, handed := w :: s.handed } : Sys R K).send w false
        fun d => if d ∈ out.keys then [.keyMap] else []).setLoop w { s.loop w with pc := .announcing })
  | announce (w : WorkerID) (watermark : Bool) (routing : PartitionTable)
      (hpc : (s.loop w).pc = .announcing) (hrouting : (s.loop w).routing = some routing) :
      Step (.announce w watermark) (((s.send w false fun d =>
          if d ∈ ((s.loop w).index.filter fun b => routing b ≠ w).map routing then
            [.metadata (((s.loop w).index.filter fun b => routing b ≠ w).filter fun b => routing b = d)]
          else []).broadcast job w (if watermark then [.watermark] else [])).setLoop w { s.loop w with
          index := (s.loop w).index.filter (fun b => routing b = w)
          pc := .ready })
  | takeBatch (w : WorkerID) (u : UpstreamID) (progress : Bool) (recs : List R) (rest : List (UpstreamUnit R))
      (hpc : (s.loop w).pc = .ready) (hqueue : s.queue u w = .batch recs :: rest) : Step (.takeRegular w u progress)
        ((s.pop u w rest).setLoop w { s.loop w with pc := .batch recs (job.inputOf u) })
  | takeWatermark (w : WorkerID) (u : UpstreamID) (progress : Bool) (rest : List (UpstreamUnit R))
      (hpc : (s.loop w).pc = .ready) (hqueue : s.queue u w = .watermark :: rest) : Step (.takeRegular w u progress)
        ((s.pop u w rest).setLoop w { s.loop w with pc := if progress then .progressed else .ready })
  | takeBarrier (w : WorkerID) (u : UpstreamID) (progress : Bool) (rest : List (UpstreamUnit R))
      (hpc : (s.loop w).pc = .ready) (hqueue : s.queue u w = .barrier :: rest)
      (hpos : 0 < (s.sup w).expectedInflightBarriers)
      (hmore : (s.sup w).inflightBarrierCounter + 1 ≠ (s.sup w).expectedInflightBarriers) :
      Step (.takeRegular w u progress) ((s.pop u w rest).setSup w { s.sup w with
        inflightBarrierCounter := (s.sup w).inflightBarrierCounter + 1 })
  | takeLastBarrier (w : WorkerID) (u : UpstreamID) (progress : Bool) (rest : List (UpstreamUnit R))
      (hpc : (s.loop w).pc = .ready) (hqueue : s.queue u w = .barrier :: rest)
      (hpos : 0 < (s.sup w).expectedInflightBarriers)
      (hlast : (s.sup w).inflightBarrierCounter + 1 = (s.sup w).expectedInflightBarriers) :
      Step (.takeRegular w u progress) (((s.pop u w rest).setSup w { s.sup w with
        inflightBarrierCounter := 0
        expectedInflightBarriers := -1
        reconfigTerminated := (s.sup w).reconfigTerminated || (s.sup w).expectedInboundPeers = -1 }).setLoop w
          { s.loop w with pc := if (s.loop w).inTransition then .exiting (exitSteps job) else .head })
  | takeTermination (w : WorkerID) (u : UpstreamID) (progress : Bool) (rest : List (UpstreamUnit R))
      (hpc : (s.loop w).pc = .ready) (hqueue : s.queue u w = .termination :: rest) :
      Step (.takeRegular w u progress) (s.pop u w rest)
  | peerBatch (w src : WorkerID) (second progress : Bool) (recs : List R) (rest : List (PeerUnit R))
      (hpc : (s.loop w).pc = .ready) (hstatus : (s.link ⟨src, w, second⟩).status = .registered)
      (hqueue : (s.link ⟨src, w, second⟩).queue = .batch recs :: rest) : Step (.takePeer w src second progress)
        ((s.setChan ⟨src, w, second⟩ ⟨.registered, rest⟩).setLoop w { s.loop w with pc := .batch recs second })
  | peerWatermark (w src : WorkerID) (second progress : Bool) (rest : List (PeerUnit R))
      (hpc : (s.loop w).pc = .ready) (hstatus : (s.link ⟨src, w, second⟩).status = .registered)
      (hqueue : (s.link ⟨src, w, second⟩).queue = .watermark :: rest) : Step (.takePeer w src second progress)
        ((s.setChan ⟨src, w, second⟩ ⟨.registered, rest⟩).setLoop w
          { s.loop w with pc := if progress then .progressed else .ready })
  | peerMetadata (w src : WorkerID) (second progress : Bool) (buckets : List BucketID)
      (rest : List (PeerUnit R)) (hpc : (s.loop w).pc = .ready)
      (hstatus : (s.link ⟨src, w, second⟩).status = .registered)
      (hqueue : (s.link ⟨src, w, second⟩).queue = .metadata buckets :: rest) : Step (.takePeer w src second progress)
        ((s.setChan ⟨src, w, second⟩ ⟨.registered, rest⟩).setLoop w
          { s.loop w with index := (s.loop w).index ++ buckets, pc := .head })
  | peerTermination (w src : WorkerID) (second progress : Bool) (rest : List (PeerUnit R))
      (hpc : (s.loop w).pc = .ready) (hstatus : (s.link ⟨src, w, second⟩).status = .registered)
      (hqueue : (s.link ⟨src, w, second⟩).queue = .termination :: rest)
      (hexpected : (s.sup w).expectedInboundPeers = -2) (hmore : (s.sup w).inboundPeerCounter - 1 ≠ 0) :
      Step (.takePeer w src second progress) (((s.setChan ⟨src, w, second⟩ ⟨.closed, []⟩).setSup w { s.sup w with
          inboundPeerCounter := (s.sup w).inboundPeerCounter - 1 }).setLoop w
            { s.loop w with pc := if progress then .progressed else .ready })
  | peerLastTermination (w src : WorkerID) (second progress : Bool) (rest : List (PeerUnit R))
      (hpc : (s.loop w).pc = .ready) (hstatus : (s.link ⟨src, w, second⟩).status = .registered)
      (hqueue : (s.link ⟨src, w, second⟩).queue = .termination :: rest)
      (hexpected : (s.sup w).expectedInboundPeers = -2) (hlast : (s.sup w).inboundPeerCounter - 1 = 0) :
      Step (.takePeer w src second progress) (((s.setChan ⟨src, w, second⟩ ⟨.closed, []⟩).setSup w { s.sup w with
          inboundPeerCounter := (s.sup w).inboundPeerCounter - 1
          expectedInboundPeers := -1
          reconfigTerminated := (s.sup w).reconfigTerminated || (s.sup w).expectedInflightBarriers = -1 }).setLoop w
            { s.loop w with pc := if progress then .progressed else .ready })
  | dispatchLocal (w : WorkerID) (fired : List BucketID) (recs : List R) (second : Bool)
      (hpc : (s.loop w).pc = .batch recs second) (hin : (s.loop w).inTransition = false) :
      Step (.dispatch w fired) (s.startWork w (recs.map job.bucketOf))
  | dispatchForward (w : WorkerID) (fired : List BucketID) (recs : List R) (second : Bool)
      (routing : PartitionTable) (hpc : (s.loop w).pc = .batch recs second) (hin : (s.loop w).inTransition = true)
      (hrouting : (s.loop w).routing = some routing) : Step (.dispatch w fired)
        (((s.send w second fun d => ((recs.filter fun r => routing (job.bucketOf r) ≠ w).filter
            fun r => routing (job.bucketOf r) = d).map fun r => .batch [r])).startWork w
          ((recs.filter fun r => routing (job.bucketOf r) = w).map job.bucketOf))
  | dispatchForwardAll (w : WorkerID) (fired : List BucketID) (recs : List R) (second : Bool)
      (routing : PartitionTable) (hpc : (s.loop w).pc = .batch recs second) (hin : (s.loop w).inTransition = true)
      (hrouting : (s.loop w).routing = some routing) : Step (.dispatch w fired)
        ((s.send w second fun d => ((recs.filter fun r => routing (job.bucketOf r) ≠ w).filter
            fun r => routing (job.bucketOf r) = d).map fun r => .batch [r]).setLoop w { s.loop w with pc := .head })
  | dispatchWatermark (w : WorkerID) (fired : List BucketID) (hpc : (s.loop w).pc = .progressed)
      (hfired : ∀ b ∈ fired, b ∈ (s.loop w).index) : Step (.dispatch w fired)
        ((s.broadcast job w (if (s.loop w).inTransition then [.watermark] else [])).startWork w fired)
  | finish (w : WorkerID) (index buckets : List BucketID) (hpc : (s.loop w).pc = .work buckets)
      (hmain : (s.store.node w).main = .loopHead) (hindex : ∀ b ∈ index, b ∈ (s.loop w).index ∨ b ∈ buckets) :
      Step (.finish w index) (s.setLoop w { s.loop w with index := index, pc := .head })
  | exitEnd (w : WorkerID) (hpc : (s.loop w).pc = .exiting []) :
      Step (.exit w) (s.setLoop w { s.loop w with pc := .head })
  | exitLower (w : WorkerID) (rest : List ExitStep) (hpc : (s.loop w).pc = .exiting (.lower :: rest)) :
      Step (.exit w) (s.setLoop w { s.loop w with phase := false, pc := .exiting rest })
  | exitRouting (w : WorkerID) (rest : List ExitStep) (hpc : (s.loop w).pc = .exiting (.clearRouting :: rest)) :
      Step (.exit w) (s.setLoop w { s.loop w with routing := none, pc := .exiting rest })
  | exitClose (w : WorkerID) (second : Bool) (rest : List ExitStep)
      (hpc : (s.loop w).pc = .exiting (.close second :: rest)) : Step (.exit w)
        ((s.send w second fun d => if d ∈ (s.loop w).peersOf second then [.termination] else []).setLoop w
          { s.loop w with pc := .exiting rest })
  | exitRelease (w : WorkerID) (second : Bool) (rest : List ExitStep)
      (hpc : (s.loop w).pc = .exiting (.release second :: rest)) : Step (.exit w)
        (s.setLoop w { s.loop w with peers := Function.update (s.loop w).peers second none, pc := .exiting rest })
  | emitBatch (u : UpstreamID) (w : WorkerID) (recs : List R) (hu : u ∈ job.upstreams)
      (hrecs : ∀ r ∈ recs, s.up u (job.bucketOf r) = w) :
      Step (.emitBatch u w recs) (s.push u fun v => if v = w then [.batch recs] else [])
  | emitWatermark (u : UpstreamID) (w : WorkerID) (hu : u ∈ job.upstreams) :
      Step (.emitWatermark u w) (s.push u fun v => if v = w then [.watermark] else [])
  | updateRouting (u : UpstreamID) (todo : List UpstreamID) (hstage : s.co.stage = .route todo) (hu : u ∈ todo) :
      Step (.updateRouting u) (({ s.push u fun w => (if w ∈ s.co.tasks ∨ w ∈ s.co.added then [.barrier] else [])
              ++ if w ∈ s.co.removed then [.termination] else [] with
            up := Function.update s.up u s.co.part } : Sys R K).setStage (.route (todo.filter (· ≠ u))))
  | waitInboundPeers (w : WorkerID) (todo : List WorkerID) (hstage : s.co.stage = .connect todo) (hw : w ∈ todo)
      (hflag : (s.sup w).allInboundPeersConnected = true) :
      Step (.waitInboundPeers w) ((s.setSup w { s.sup w with allInboundPeersConnected := false }).setStage
        (.connect (todo.filter (· ≠ w))))
  | waitReconfigDone (w : WorkerID) (todo : List WorkerID) (hstage : s.co.stage = .settle todo) (hw : w ∈ todo)
      (hflag : (s.sup w).reconfigTerminated = true) :
      Step (.waitReconfigDone w) ((s.setSup w { s.sup w with reconfigTerminated := false }).setStage
        (.settle (todo.filter (· ≠ w))))
  | startEventual (w : WorkerID) (todo waiting : List WorkerID) (store : LazyByKey.World K)
      (hstage : s.co.stage = .eventual todo waiting) (hw : w ∈ todo)
      (hstore : LazyByKey.step job.store s.store (.startEventual w (s.co.affectedOf job w)) = .ok store) :
      Step (.startEventual w)
        (({ s with store := store } : Sys R K).setStage (.eventual (todo.filter (· ≠ w)) (w :: waiting)))
  | waitEventual (w : WorkerID) (todo waiting : List WorkerID) (hstage : s.co.stage = .eventual todo waiting)
      (hw : w ∈ waiting) (hdone : (s.store.node w).em.done = true) :
      Step (.waitEventual w) (s.setStage (.eventual todo (waiting.filter (· ≠ w))))
  | read (w : WorkerID) (keys : List K) (buckets : List BucketID) (store : LazyByKey.World K)
      (hpc : (s.loop w).pc = .work buckets) (hkeys : ∀ k ∈ keys, job.store.bucketOf k ∈ buckets)
      (hstore : LazyByKey.step job.store s.store (.read w keys) = .ok store) :
      Step (.store (.read w keys)) { s with store := store }
  | run (w : WorkerID) (i : Nat) (choice : LazyByKey.Choice K) (store : LazyByKey.World K)
      (hstore : LazyByKey.step job.store s.store (.run w i choice) = .ok store) :
      Step (.store (.run w i choice)) { s with store := store }
  | readDone (w : WorkerID) (store : LazyByKey.World K)
      (hstore : LazyByKey.step job.store s.store (.readDone w) = .ok store) :
      Step (.store (.readDone w)) { s with store := store }
  | flush (w : WorkerID) (k : K) (op : LazyByKey.FlushOp) (store : LazyByKey.World K)
      (hstore : LazyByKey.step job.store s.store (.flush w k op) = .ok store) :
      Step (.store (.flush w k op)) { s with store := store }
  | endUnit (w : WorkerID) (store : LazyByKey.World K)
      (hstore : LazyByKey.step job.store s.store (.endUnit w) = .ok store) :
      Step (.store (.endUnit w)) { s with store := store }

end

section Inversion

variable {job : Job R K} {s s' : Sys R K}

theorem rescale_eq_ok {resize : Resize} {part : PartitionTable} (h : rescale job s resize part = .ok s') :
    Step job s (.rescale resize part) s' := by
  unfold rescale at h
  split at h
  case h_2 => cases h
  case h_1 hidle =>
    split_ifs at h with hguard
    obtain ⟨hchanges, h⟩ := check_bind_eq_ok.mp h
    obtain ⟨plan, hplan, h⟩ := bind_eq_ok.mp h
    obtain ⟨hnew, h⟩ := check_bind_eq_ok.mp h
    cases h
    refine .rescale resize part plan hidle hguard.1 hguard.2 (mapAbort_eq_ok.mp hplan) fun w hw => ?_
    by_contra hnone
    exact hnew ⟨w, hw, by simpa using hnone⟩

theorem advance_eq_ok (h : advance job s = .ok s') : Step job s .advance s' := by
  unfold advance at h
  split at h
  case h_1 hstage =>
    cases h
    exact .toForward hstage
  case h_2 hstage =>
    cases h
    exact .toConnect hstage
  case h_3 hstage =>
    cases h
    exact .toRoute hstage
  case h_4 hstage =>
    split_ifs at h
    · obtain ⟨-, h⟩ := check_bind_eq_ok.mp h
      cases h
      exact .toEventual hstage
    · cases h
      exact .toSettle (.inl hstage)
  case h_5 hstage =>
    cases h
    exact .toSettle (.inr hstage)
  case h_6 hstage =>
    cases h
    exact .complete hstage
  case h_7 => cases h

theorem initLazyReconfig_eq_ok {p p' : Supplier} {barriers peers : Int}
    (h : p.initLazyReconfig barriers peers = .ok p') :
    (p.expectedInflightBarriers = -1 ∧ p.expectedInboundPeers = -1) ∧ 0 < barriers ∧
      p' = { p with expectedInflightBarriers := barriers, expectedInboundPeers := peers } := by
  obtain ⟨hclean, h⟩ := check_bind_eq_ok.mp h
  obtain ⟨hpos, h⟩ := check_bind_eq_ok.mp h
  cases h
  rw [not_or, not_not, not_not] at hclean
  exact ⟨hclean, not_le.mp hpos, rfl⟩

variable {w : WorkerID}

theorem initTask_eq_ok (h : initTask job s w = .ok s') : Step job s (.initTask w) s' := by
  unfold initTask at h
  split at h
  case h_2 => cases h
  case h_1 todo hstage =>
    split_ifs at h with hw
    by_cases hadded : w ∈ s.co.added
    · simp only [Sys.setStage, hadded, if_true] at h
      obtain ⟨store, hstore, h⟩ := bind_eq_ok.mp h
      obtain ⟨t, ht, h⟩ := bind_eq_ok.mp h
      cases ht
      obtain ⟨p, hp, h⟩ := bind_eq_ok.mp h
      cases h
      have hidle : Supplier.initLazyReconfig Supplier.idle job.upstreams.length
          (s.co.expectedInboundPeers job w) = .ok p := by
        simpa [Sys.setSup, Sys.setLoop, Coordinator.expectedInboundPeers] using hp
      obtain ⟨-, hpos, rfl⟩ := initLazyReconfig_eq_ok hidle
      exact .initNew w todo store hstage hw hadded (by exact_mod_cast hpos) (mapAbort_eq_ok.mp hstore)
    · simp only [Sys.setStage, hadded, if_false] at h
      obtain ⟨t, ht, h⟩ := bind_eq_ok.mp h
      cases ht
      obtain ⟨p, hp, h⟩ := bind_eq_ok.mp h
      cases h
      obtain ⟨hclean, hpos, rfl⟩ := initLazyReconfig_eq_ok hp
      exact .initOld w todo hstage hw hadded (by exact_mod_cast hpos) hclean

theorem handleStartFastForward_eq_ok (h : handleStartFastForward job s w = .ok s') :
    Step job s (.handle w) s' := by
  unfold handleStartFastForward at h
  split at h
  case h_2 => cases h
  case h_1 todo hstage =>
    dsimp only at h
    split_ifs at h with hw
    split at h
    case h_1 hhandler =>
      obtain ⟨hphase, h⟩ := check_bind_eq_ok.mp h
      cases h
      exact .handleStart w todo hstage hw hhandler (by simpa using hphase)
    case h_2 rest hhandler =>
      cases h
      exact .handleRouting w todo rest hstage hw hhandler
    case h_3 second rest hhandler =>
      cases h
      exact .handleActivate w todo second rest hstage hw hhandler
    case h_4 rest hhandler =>
      cases h
      exact .handleRaise w todo rest hstage hw hhandler
    case h_5 => cases h

theorem installKeyMaps_eq_ok {src dst : WorkerID} (h : installKeyMaps job s src dst = .ok s') :
    Step job s (.install src dst) s' := by
  unfold installKeyMaps at h
  dsimp only at h
  split at h
  case h_1 rest hstatus hqueue =>
    obtain ⟨store, hstore, h⟩ := bind_eq_ok.mp h
    cases h
    exact .install src dst rest store hstatus hqueue (mapAbort_eq_ok.mp hstore)
  case h_2 => cases h
  case h_3 => cases h

theorem registerPeer_eq_ok {l : Link} (h : registerPeer job s l = .ok s') : Step job s (.register l) s' := by
  unfold registerPeer at h
  dsimp only at h
  split_ifs at h with hready hlast
  · obtain ⟨hpos, h⟩ := check_bind_eq_ok.mp h
    obtain ⟨-, -, h⟩ := bind_eq_ok.mp h
    cases h
    exact .registerLast l hready (not_le.mp hpos) hlast
  · obtain ⟨hpos, h⟩ := check_bind_eq_ok.mp h
    cases h
    exact .register l hready (not_le.mp hpos) hlast

theorem updateInTransitionFlag_eq_ok (h : updateInTransitionFlag s w = .ok s') :
    Step job s (.loopHead w) s' := by
  unfold updateInTransitionFlag at h
  dsimp only at h
  split at h
  case h_2 => cases h
  case h_1 hpc =>
    split_ifs at h with hphase hin
    · cases h
      exact .loopStay w hpc hphase hin
    · split at h
      case h_1 todo hstage hhandler =>
        cases h
        exact .loopEnter w todo hpc hphase (by simpa using hin) hstage hhandler
      case h_2 => cases h
    · cases h
      exact .loopOut w hpc (by simpa using hphase)

theorem constructAndSendKeyMaps_eq_ok (h : constructAndSendKeyMaps job s w = .ok s') :
    Step job s (.handover w) s' := by
  unfold constructAndSendKeyMaps at h
  dsimp only at h
  split at h
  case h_1 routing hpc hrouting =>
    obtain ⟨⟨table, out⟩, hout, h⟩ := bind_eq_ok.mp h
    obtain ⟨_, hpeers, h⟩ := bind_eq_ok.mp h
    obtain ⟨store, hstore, h⟩ := bind_eq_ok.mp h
    cases h
    exact .handover w routing table out store hpc hrouting (mapAbort_eq_ok.mp hout)
      (checkPeers_eq_ok.mp hpeers) (mapAbort_eq_ok.mp hstore)
  case h_2 => cases h
  case h_3 => cases h

theorem announce_eq_ok {watermark : Bool} (h : announce job s w watermark = .ok s') :
    Step job s (.announce w watermark) s' := by
  unfold announce at h
  dsimp only at h
  split at h
  case h_1 routing hpc hrouting =>
    obtain ⟨-, -, h⟩ := bind_eq_ok.mp h
    cases h
    exact .announce w watermark routing hpc hrouting
  case h_2 => cases h
  case h_3 => cases h

theorem takeRegular_eq_ok {u : UpstreamID} {progress : Bool} (h : takeRegular job s w u progress = .ok s') :
    Step job s (.takeRegular w u progress) s' := by
  unfold takeRegular at h
  dsimp only at h
  split at h
  case h_2 => cases h
  case h_1 unit rest hpc hqueue =>
    cases unit with
    | batch recs =>
      cases h
      exact .takeBatch w u progress recs rest hpc hqueue
    | watermark =>
      cases h
      exact .takeWatermark w u progress rest hpc hqueue
    | termination =>
      cases h
      exact .takeTermination w u progress rest hpc hqueue
    | barrier =>
      unfold handleBarrier at h
      dsimp only at h
      obtain ⟨hpos, h⟩ := check_bind_eq_ok.mp h
      by_cases hlast : ((s.pop u w rest).sup w).inflightBarrierCounter + 1
          = ((s.pop u w rest).sup w).expectedInflightBarriers
      · rw [if_pos hlast] at h
        cases h
        exact .takeLastBarrier w u progress rest hpc hqueue (not_le.mp hpos) hlast
      · rw [if_neg hlast] at h
        cases h
        exact .takeBarrier w u progress rest hpc hqueue (not_le.mp hpos) hlast

theorem takePeer_eq_ok {src : WorkerID} {second progress : Bool} (h : takePeer s w src second progress = .ok s') :
    Step job s (.takePeer w src second progress) s' := by
  unfold takePeer at h
  dsimp only at h
  split at h
  case h_2 => cases h
  case h_1 unit rest hpc hstatus hqueue =>
    cases unit with
    | keyMap => cases h
    | metadata buckets =>
      cases h
      exact .peerMetadata w src second progress buckets rest hpc hstatus hqueue
    | batch recs =>
      cases h
      exact .peerBatch w src second progress recs rest hpc hstatus hqueue
    | watermark =>
      cases h
      exact .peerWatermark w src second progress rest hpc hstatus hqueue
    | termination =>
      obtain ⟨t, ht, h⟩ := bind_eq_ok.mp h
      cases h
      unfold handlePeerTermination at ht
      dsimp only at ht
      obtain ⟨hexpected, ht⟩ := check_bind_eq_ok.mp ht
      split_ifs at ht with hlast
      · cases ht
        exact .peerLastTermination w src second progress rest hpc hstatus hqueue (not_not.mp hexpected) hlast
      · cases ht
        exact .peerTermination w src second progress rest hpc hstatus hqueue (not_not.mp hexpected) hlast

theorem dispatch_eq_ok {fired : List BucketID} (h : dispatch job s w fired = .ok s') :
    Step job s (.dispatch w fired) s' := by
  unfold dispatch at h
  dsimp only at h
  split at h
  case h_1 recs second hpc =>
    by_cases hin : (s.loop w).inTransition = true
    · rw [if_pos hin] at h
      split at h
      case h_1 => cases h
      case h_2 routing hrouting =>
        obtain ⟨-, -, h⟩ := bind_eq_ok.mp h
        split_ifs at h with hall
        · cases h
          exact .dispatchForwardAll w fired recs second routing hpc hin hrouting
        · cases h
          exact .dispatchForward w fired recs second routing hpc hin hrouting
    · rw [if_neg hin] at h
      cases h
      exact .dispatchLocal w fired recs second hpc (by simpa using hin)
  case h_2 hpc =>
    by_cases hfired : ∀ b ∈ fired, b ∈ (s.loop w).index
    · rw [if_pos hfired] at h
      cases h
      exact .dispatchWatermark w fired hpc hfired
    · rw [if_neg hfired] at h
      cases h
  case h_3 => cases h

theorem finishWork_eq_ok {index : List BucketID} (h : finishWork s w index = .ok s') :
    Step job s (.finish w index) s' := by
  unfold finishWork at h
  dsimp only at h
  split at h
  case h_1 buckets hpc hmain =>
    split_ifs at h with hindex
    cases h
    exact .finish w index buckets hpc hmain hindex
  case h_2 => cases h

theorem exitTransitionPhase_eq_ok (h : exitTransitionPhase s w = .ok s') :
    Step job s (.exit w) s' := by
  unfold exitTransitionPhase at h
  dsimp only at h
  split at h
  case h_1 hpc =>
    cases h
    exact .exitEnd w hpc
  case h_2 rest hpc =>
    cases h
    exact .exitLower w rest hpc
  case h_3 rest hpc =>
    cases h
    exact .exitRouting w rest hpc
  case h_4 second rest hpc =>
    cases h
    exact .exitClose w second rest hpc
  case h_5 second rest hpc =>
    cases h
    exact .exitRelease w second rest hpc
  case h_6 => cases h

theorem updateRouting_eq_ok {u : UpstreamID} (h : updateRouting s u = .ok s') :
    Step job s (.updateRouting u) s' := by
  unfold updateRouting at h
  split at h
  case h_1 todo hstage =>
    split_ifs at h with hu
    cases h
    exact .updateRouting u todo hstage hu
  case h_2 => cases h

theorem waitInboundPeers_eq_ok (h : waitInboundPeers s w = .ok s') :
    Step job s (.waitInboundPeers w) s' := by
  unfold waitInboundPeers at h
  split at h
  case h_1 todo hstage =>
    split_ifs at h with hw
    cases h
    exact .waitInboundPeers w todo hstage hw.1 hw.2
  case h_2 => cases h

theorem waitReconfigDone_eq_ok (h : waitReconfigDone s w = .ok s') :
    Step job s (.waitReconfigDone w) s' := by
  unfold waitReconfigDone at h
  split at h
  case h_1 todo hstage =>
    split_ifs at h with hw
    cases h
    exact .waitReconfigDone w todo hstage hw.1 hw.2
  case h_2 => cases h

theorem startEventual_eq_ok (h : startEventual job s w = .ok s') :
    Step job s (.startEventual w) s' := by
  unfold startEventual at h
  split at h
  case h_1 todo waiting hstage =>
    split_ifs at h with hw
    obtain ⟨store, hstore, h⟩ := bind_eq_ok.mp h
    cases h
    exact .startEventual w todo waiting store hstage hw (mapAbort_eq_ok.mp hstore)
  case h_2 => cases h

theorem waitEventual_eq_ok (h : waitEventual s w = .ok s') :
    Step job s (.waitEventual w) s' := by
  unfold waitEventual at h
  split at h
  case h_1 todo waiting hstage =>
    split_ifs at h with hw
    cases h
    exact .waitEventual w todo waiting hstage hw.1 hw.2
  case h_2 => cases h

theorem accessStore_eq_ok {a : LazyByKey.Action K} (h : accessStore job s a = .ok s') :
    Step job s (.store a) s' := by
  unfold accessStore at h
  dsimp only at h
  split_ifs at h with hallowed
  obtain ⟨store, hstore, h⟩ := bind_eq_ok.mp h
  cases h
  replace hstore := mapAbort_eq_ok.mp hstore
  cases a with
  | read w keys =>
    cases hpc : (s.loop w).pc with
    | work buckets =>
      simp only [hpc, List.all_eq_true, decide_eq_true_eq] at hallowed
      exact .read w keys buckets store hpc hallowed hstore
    | _ => simp [hpc] at hallowed
  | run w i choice => exact .run w i choice store hstore
  | readDone w => exact .readDone w store hstore
  | flush w k op => exact .flush w k op store hstore
  | endUnit w => exact .endUnit w store hstore
  | _ => simp at hallowed

/-- **Inversion**: a step that succeeds is one of those listed. -/
theorem step_eq_ok {a : Action R K} (h : step job s a = .ok s') : Step job s a s' := by
  cases a with
  | rescale => exact rescale_eq_ok h
  | advance => exact advance_eq_ok h
  | initTask => exact initTask_eq_ok h
  | handle => exact handleStartFastForward_eq_ok h
  | install => exact installKeyMaps_eq_ok h
  | register => exact registerPeer_eq_ok h
  | loopHead => exact updateInTransitionFlag_eq_ok h
  | handover => exact constructAndSendKeyMaps_eq_ok h
  | announce => exact announce_eq_ok h
  | takeRegular => exact takeRegular_eq_ok h
  | takePeer => exact takePeer_eq_ok h
  | dispatch => exact dispatch_eq_ok h
  | finish => exact finishWork_eq_ok h
  | exit => exact exitTransitionPhase_eq_ok h
  | emitBatch u w recs =>
    simp only [step, LazyRescale.emitBatch] at h
    split_ifs at h with hguard
    cases h
    exact .emitBatch u w recs hguard.1 hguard.2
  | emitWatermark u w =>
    simp only [step, LazyRescale.emitWatermark] at h
    split_ifs at h with hguard
    cases h
    exact .emitWatermark u w hguard
  | updateRouting => exact updateRouting_eq_ok h
  | waitInboundPeers => exact waitInboundPeers_eq_ok h
  | waitReconfigDone => exact waitReconfigDone_eq_ok h
  | startEventual => exact startEventual_eq_ok h
  | waitEventual => exact waitEventual_eq_ok h
  | store => exact accessStore_eq_ok h

end Inversion

end LazyRescale
end Koala
