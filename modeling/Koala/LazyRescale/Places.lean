import Koala.LazyRescale.Plan

/-!
# Where the buckets are during a reconfiguration

A bucket is held by its old owner until that owner hands over, then it is in a message to its new owner, and from
the installation of the message on it is held by the new owner.  `BucketPlaces` says this for every bucket at every
moment, together with what the owner columns of the tables may claim: a worker's table lists a bucket as local only
if the worker holds it, or is a new task that is going to.
-/

namespace Koala
namespace LazyRescale

open Lib Lib.Outcome Keyby Partition
open LazyByKey.World (setNode)

variable {R K : Type}

/-- A new task lists its future buckets from its deployment on. -/
def Coordinator.Awaits (co : Coordinator) (w : WorkerID) (b : BucketID) : Prop := co.part b = w ∧ w ∈ co.added

/-- All buckets that move from `src` to `dst` have arrived. -/
def Received (job : Job R K) (co : Coordinator) (store : LazyByKey.World K) (src dst : WorkerID) : Prop :=
  ∀ b, co.Moves job b src dst → store.holder b = some dst

/-- **Places**: what the reconfiguration's progress says about every bucket. -/
structure BucketPlaces (job : Job R K) (co : Coordinator) (handed : List WorkerID) (store : LazyByKey.World K) :
    Prop where
  kept : ∀ b < job.store.numBuckets, co.old b ∉ handed ∨ co.old b = co.part b → store.holder b = some (co.old b)
  sent : ∀ b src dst, co.Moves job b src dst → src ∈ handed → store.holder b = some dst ∨
    ∃ f ∈ store.flight, f.src = src ∧ f.dst = dst
  outside : ∀ b, ¬ b < job.store.numBuckets → store.holder b = none
  flight : ∀ f ∈ store.flight, f.src ∈ handed ∧ co.Sends job f.src f.dst ∧
    ∀ b, b ∈ f.entries.map Prod.fst ↔ co.Moves job b f.src f.dst
  column : ∀ w, ∀ b < job.store.numBuckets, ((store.node w).table b).workerID = w →
    store.holder b = some w ∨ co.Awaits w b
  map : ∀ w, ∀ b < job.store.numBuckets, ((store.node w).table b).map.isSome →
    store.holder b = some w ∨ co.Awaits w b

namespace BucketPlaces

section

variable {job : Job R K} {co : Coordinator} {handed : List WorkerID} {store : LazyByKey.World K}

variable {b : BucketID}

theorem holder_old (h : BucketPlaces job co handed store) {src dst : WorkerID} (hmoves : co.Moves job b src dst)
    (hsrc : src ∉ handed) : store.holder b = some src := by
  obtain ⟨hb, rfl, -, -⟩ := hmoves
  exact h.kept b hb (.inl hsrc)

variable {w : WorkerID}

section

variable (h : BucketPlaces job co handed store)
include h

theorem holder_cases [DecidableEq K]
    (hcustody : LazyByKey.Custody job.store store) (hholder : store.holder b = some w) :
    b < job.store.numBuckets ∧ ((w = co.old b ∧ (w ∉ handed ∨ w = co.part b)) ∨ w = co.part b) := by
  by_cases hb : b < job.store.numBuckets
  · refine ⟨hb, ?_⟩
    by_cases hkept : co.old b ∉ handed ∨ co.old b = co.part b
    · have hw : w = co.old b := Option.some.inj (hholder.symm.trans (h.kept b hb hkept))
      subst hw
      exact .inl ⟨rfl, hkept⟩
    · rw [not_or, not_not] at hkept
      rcases h.sent b _ _ ⟨hb, rfl, rfl, hkept.2⟩ hkept.1 with hnew | ⟨f, hf, hsrc, hdst⟩
      · exact .inr (Option.some.inj (hholder.symm.trans hnew))
      · have hmem := ((h.flight f hf).2.2 b).mpr ⟨hb, hsrc.symm, hdst.symm, hsrc ▸ hdst ▸ hkept.2⟩
        rw [hcustody.flight_free f hf b hmem] at hholder
        cases hholder
  · rw [h.outside b hb] at hholder
    cases hholder

theorem flight_eq_nil [DecidableEq K] (hcustody : LazyByKey.Custody job.store store)
    (hdone : ∀ b < job.store.numBuckets, store.holder b = some (co.part b)) : store.flight = [] := by
  by_contra hne
  obtain ⟨f, hf⟩ := List.exists_mem_of_ne_nil _ hne
  obtain ⟨-, ⟨b, hmoves⟩, hentries⟩ := h.flight f hf
  have hnone := hcustody.flight_free f hf b ((hentries b).mpr hmoves)
  rw [hdone b hmoves.1] at hnone
  cases hnone

theorem restage (stage : Stage) : BucketPlaces job { co with stage := stage } handed store :=
  ⟨h.kept, h.sent, h.outside, h.flight, h.column, h.map⟩

theorem sameCustody {store' : LazyByKey.World K}
    (hsame : LazyByKey.SameCustody store store') : BucketPlaces job co handed store' where
  kept := hsame.holder ▸ h.kept
  sent := by
    rw [hsame.holder, hsame.flight]
    exact h.sent
  outside := hsame.holder ▸ h.outside
  flight := hsame.flight ▸ h.flight
  column := fun w b hb hcolumn => by
    rw [hsame.column] at hcolumn
    rw [hsame.holder]
    exact h.column w b hb hcolumn
  map := fun w b hb hmap => by
    rw [hsame.map] at hmap
    rw [hsame.holder]
    exact h.map w b hb hmap

theorem rescale {deployed : List WorkerID}
    (hplan : Planned job co deployed) (hidle : co.stage = .idle) {co' : Coordinator} (hold : co'.old = co.part) :
    BucketPlaces job co' [] store := by
  obtain ⟨hpart, hadded, -, -⟩ := hplan.idle hidle
  have hholder : ∀ b < job.store.numBuckets, store.holder b = some (co.old b) := fun b hb =>
    h.kept b hb (.inr (by rw [hpart]))
  have hnone : ∀ w b, ¬ co.Awaits w b := fun w b hw => by
    have := hw.2
    simp [hadded] at this
  refine ⟨fun b hb _ => by rw [hholder b hb, hold, hpart], fun b src dst _ hsrc => absurd hsrc List.not_mem_nil,
    h.outside, fun f hf => absurd (h.flight f hf).2.1 (hplan.idle_sends hidle f.src f.dst),
    fun w b hb hcolumn => .inl ((h.column w b hb hcolumn).resolve_right (hnone w b)),
    fun w b hb hmap => .inl ((h.map w b hb hmap).resolve_right (hnone w b))⟩

theorem complete [DecidableEq K] (hcustody : LazyByKey.Custody job.store store)
    (hdone : ∀ b < job.store.numBuckets, store.holder b = some (co.part b)) {co' : Coordinator}
    (hold : co'.old = co.part) (hpart : co'.part = co.part) : BucketPlaces job co' handed store := by
  have hflight := h.flight_eq_nil hcustody hdone
  refine ⟨fun b hb _ => by rw [hdone b hb, hold], fun b src dst hmoves _ => ?_, h.outside, ?_,
    fun w b hb hcolumn => .inl ?_, fun w b hb hmap => .inl ?_⟩
  · obtain ⟨-, rfl, rfl, hne⟩ := hmoves
    exact absurd (by rw [hold, hpart]) hne
  · rw [hflight]
    exact fun f hf => absurd hf List.not_mem_nil
  · rcases h.column w b hb hcolumn with hholder | hawaits
    · exact hholder
    · rw [hdone b hb, hawaits.1]
  · rcases h.map w b hb hmap with hholder | hawaits
    · exact hholder
    · rw [hdone b hb, hawaits.1]

theorem deploy (hadded : w ∈ co.added) : BucketPlaces job co handed
      { store.setNode w (.fresh (.deserialize co.part w)) with deployed := w :: store.deployed } := by
  refine ⟨h.kept, h.sent, h.outside, h.flight, fun v b hb hcolumn => ?_, fun v b hb hmap => ?_⟩
  · by_cases hv : v = w
    · subst hv
      have hpart : co.part b = v := by
        simpa [setNode, LazyByKey.Node.fresh, KeyLookupTableV2.deserialize] using hcolumn
      exact .inr ⟨hpart, hadded⟩
    · refine h.column v b hb ?_
      simpa [setNode, hv] using hcolumn
  · by_cases hv : v = w
    · subst hv
      have hpart : co.part b = v := by
        by_contra hne
        simp [setNode, LazyByKey.Node.fresh, KeyLookupTableV2.deserialize, hne] at hmap
      exact .inr ⟨hpart, hadded⟩
    · refine h.map v b hb ?_
      simpa [setNode, hv] using hmap

end

variable [DecidableEq K]

variable {table : KeyLookupTableV2 K} {out : KeyLookupTableV2.Outgoing K} {store' : LazyByKey.World K}

section

variable (h : BucketPlaces job co handed store) (hcustody : LazyByKey.Custody job.store store)
include h hcustody

/-- **What a sender gives away** is exactly what it loses in the new partition. -/
theorem leaves_iff (hw : w ∉ handed) (hb : b < job.store.numBuckets) :
    (store.node w).table.Leaves w co.part b ↔ co.Moves job b w (co.part b) := by
  constructor
  · rintro ⟨hcolumn, hpart⟩
    have hholder := (h.column w b hb hcolumn).resolve_right fun hawaits => hpart hawaits.1
    rcases (h.holder_cases hcustody hholder).2 with ⟨hold, -⟩ | hnew
    · exact ⟨hb, hold.symm, rfl, fun heq => hpart heq.symm⟩
    · exact absurd hnew.symm hpart
  · intro hmoves
    have hholder := h.holder_old hmoves hw
    exact ⟨(hcustody.held b w hholder).2.1, fun heq => hmoves.2.2.2 heq.symm⟩

theorem mem_flightsOf_iff (hw : w ∉ handed)
    (hout : KeyLookupTableV2.Serialized (List.range job.store.numBuckets) w co.part (store.node w).table table out)
    {f : LazyByKey.Flight K} (hf : f ∈ LazyByKey.flightsOf w out) (b : BucketID) :
    b ∈ f.entries.map Prod.fst ↔ co.Moves job b w f.dst := by
  have hto : out.to f.dst = f.entries := by
    rw [KeyLookupTableV2.Outgoing.to, (LazyByKey.mem_flightsOf.mp hf).2]
    rfl
  constructor
  · intro hmem
    obtain ⟨⟨b', m⟩, hentry, rfl⟩ := List.mem_map.mp hmem
    rw [← hto, hout.mem_to, List.mem_range] at hentry
    obtain ⟨hb, hleaves, hdst, -⟩ := hentry
    exact hdst ▸ (h.leaves_iff hcustody hw hb).mp hleaves
  · rintro ⟨hb, hold, hdst, hne⟩
    have hleaves := (h.leaves_iff hcustody hw hb).mpr ⟨hb, hold, rfl, hdst ▸ hne⟩
    obtain ⟨m, hm⟩ := Option.isSome_iff_exists.mp (hout.map_isSome b (List.mem_range.mpr hb) hleaves)
    have hentry := (hout.mem_to f.dst b m).mpr ⟨List.mem_range.mpr hb, hleaves, hdst, hm⟩
    rw [hto] at hentry
    exact List.mem_map.mpr ⟨(b, m), hentry, rfl⟩

/-- **The destinations of a handover** are the peers of the sender in the coordinator's plan. -/
theorem mem_out_keys_iff (hw : w ∉ handed)
    (hout : KeyLookupTableV2.Serialized (List.range job.store.numBuckets) w co.part (store.node w).table table out)
    (d : WorkerID) : d ∈ out.keys ↔ co.Sends job w d := by
  rw [GoMap.mem_keys_iff, Option.isSome_iff_exists]
  constructor
  · rintro ⟨entries, hentries⟩
    obtain ⟨⟨b, m⟩, hmem⟩ := List.exists_mem_of_ne_nil entries fun hnil => hout.nonempty d (hnil ▸ hentries)
    have hf : (⟨w, d, entries⟩ : LazyByKey.Flight K) ∈ LazyByKey.flightsOf w out :=
      LazyByKey.mem_flightsOf.mpr ⟨rfl, hentries⟩
    exact ⟨b, (h.mem_flightsOf_iff hcustody hw hout hf b).mp (List.mem_map.mpr ⟨(b, m), hmem, rfl⟩)⟩
  · rintro ⟨b, hb, hold, hdst, hne⟩
    have hleaves := (h.leaves_iff hcustody hw hb).mpr ⟨hb, hold, rfl, hdst ▸ hne⟩
    obtain ⟨m, hm⟩ := Option.isSome_iff_exists.mp (hout.map_isSome b (List.mem_range.mpr hb) hleaves)
    have hentry := (hout.mem_to d b m).mpr ⟨List.mem_range.mpr hb, hleaves, hdst, hm⟩
    unfold KeyLookupTableV2.Outgoing.to at hentry
    cases hget : out.get d with
    | none => simp [hget] at hentry
    | some entries => exact ⟨entries, rfl⟩

theorem handover (hw : w ∉ handed) (hs : LazyByKey.HandsOver job.store w co.part out store store') :
    BucketPlaces job co (w :: handed) store' := by
  have hout := hs.serialized
  -- the holder changes for the moved buckets of `w` only
  have hstays : ∀ b, ¬ co.Moves job b w (co.part b) → store'.holder b = store.holder b := fun b hnot => by
    rw [hs.holder, if_neg]
    exact fun hleaves => hnot ((h.leaves_iff hcustody hw hleaves.1).mp hleaves.2.1)
  have hleft : ∀ v b, (store.holder b = some v ∨ co.Awaits v b) →
      ¬ (v = w ∧ b < job.store.numBuckets ∧ (store.node w).table.Leaves w co.part b) →
      store'.holder b = some v ∨ co.Awaits v b := fun v b hor hnot =>
    hor.imp_left fun hholder => hs.holder_eq_some.mpr ⟨hholder, hnot⟩
  refine ⟨fun b hb hkept => ?_, fun b src dst hmoves hsrc => ?_, fun b hb => ?_, fun f hf => ?_,
    fun v b hb hcolumn => ?_, fun v b hb hmap => ?_⟩
  · have hnot : ¬ co.Moves job b w (co.part b) := by
      rintro ⟨-, hold, -, hne⟩
      rcases hkept with hnotHanded | hsame
      · exact hnotHanded (hold ▸ List.mem_cons_self ..)
      · exact hne (hold.symm.trans hsame)
    rw [hstays b hnot]
    exact h.kept b hb (hkept.imp_left fun hnotHanded hmem => hnotHanded (List.mem_cons_of_mem w hmem))
  · obtain ⟨hb, hold, hdst, hne⟩ := hmoves
    rw [hs.flight]
    by_cases hsw : src = w
    · subst hsw
      obtain ⟨entries, hentries⟩ := Option.isSome_iff_exists.mp ((GoMap.mem_keys_iff out dst).mp
        ((h.mem_out_keys_iff hcustody hw hout dst).mpr ⟨b, hb, hold, hdst, hne⟩))
      exact .inr ⟨⟨src, dst, entries⟩, List.mem_append_right _ (LazyByKey.mem_flightsOf.mpr ⟨rfl, hentries⟩),
        rfl, rfl⟩
    · rw [hstays b fun hmoves => hsw (hold.symm.trans hmoves.2.1)]
      exact (h.sent b src dst ⟨hb, hold, hdst, hne⟩ ((List.mem_cons.mp hsrc).resolve_left hsw)).imp_right
        fun ⟨f, hf, hends⟩ => ⟨f, List.mem_append_left _ hf, hends⟩
  · rw [hstays b fun hmoves => hb hmoves.1]
    exact h.outside b hb
  · rcases List.mem_append.mp (hs.flight ▸ hf) with hold | hnew
    · obtain ⟨hsrc, hsends, hentries⟩ := h.flight f hold
      exact ⟨List.mem_cons_of_mem w hsrc, hsends, hentries⟩
    · obtain ⟨hsrc, hentries⟩ := LazyByKey.mem_flightsOf.mp hnew
      rw [hsrc]
      refine ⟨List.mem_cons_self .., ?_, h.mem_flightsOf_iff hcustody hw hout hnew⟩
      exact (h.mem_out_keys_iff hcustody hw hout f.dst).mp
        ((GoMap.mem_keys_iff out f.dst).mpr (Option.isSome_iff_exists.mpr ⟨_, hentries⟩))
  · by_cases hleaves : v = w ∧ b < job.store.numBuckets ∧ (store.node w).table.Leaves w co.part b
    · obtain ⟨rfl, hb', hleaves⟩ := hleaves
      rw [hs.leaves hb' hleaves] at hcolumn
      exact absurd hcolumn hleaves.2
    · exact hleft v b (h.column v b hb (hs.table_eq hleaves ▸ hcolumn)) hleaves
  · obtain ⟨m, hm⟩ := Option.isSome_iff_exists.mp hmap
    obtain ⟨hold, hleaves⟩ := hs.map_eq_some hm
    exact hleft v b (h.map v b hb (Option.isSome_iff_exists.mpr ⟨m, hold⟩)) hleaves

/-- Installing a message brings all buckets that move between the two workers. -/
theorem receive
    {src dst : WorkerID} {f : LazyByKey.Flight K} (hs : LazyByKey.Installs src dst f store store') :
    BucketPlaces job co handed store' := by
  obtain ⟨pre, post, hsplit, herase, hsrc, hdst⟩ := LazyByKey.World.nextFlight_split hs.next
  obtain ⟨-, -, hentries⟩ := h.flight f hs.mem
  rw [hsrc, hdst] at hentries
  have hheld : ∀ v b, store.holder b = some v → store'.holder b = some v := fun v b hholder => by
    rw [hs.holder, if_neg, hholder]
    intro hb
    rw [hcustody.flight_free f hs.mem b hb] at hholder
    cases hholder
  -- who held a bucket, or awaited it, still does
  have hstill : ∀ v b, (store.holder b = some v ∨ co.Awaits v b) → store'.holder b = some v ∨ co.Awaits v b :=
    fun v b => Or.imp_left (hheld v b)
  have hmoved : ∀ v b, v = dst ∧ b ∈ f.entries.map Prod.fst → store'.holder b = some v := by
    rintro _ b ⟨rfl, hmem⟩
    rw [hs.holder, if_pos hmem]
  refine ⟨fun b hb hkept => hheld _ b (h.kept b hb hkept), fun b s d hmoves hs' => ?_, fun b hb => ?_,
    fun g hg => h.flight g (List.mem_of_mem_eraseP (hs.flight ▸ hg)), fun v b hb hcolumn => ?_, fun v b hb hmap => ?_⟩
  · rcases h.sent b s d hmoves hs' with hholder | ⟨g, hg, hgsrc, hgdst⟩
    · exact .inl (hheld d b hholder)
    · by_cases hmem : b ∈ f.entries.map Prod.fst
      · exact .inl (hmoved d b ⟨hmoves.2.2.1.symm.trans ((hentries b).mp hmem).2.2.1, hmem⟩)
      · right
        refine ⟨g, ?_, hgsrc, hgdst⟩
        rw [hs.flight, herase]
        rw [hsplit] at hg
        rcases List.mem_append.mp hg with hpre | hrest'
        · exact List.mem_append_left _ hpre
        · rcases List.mem_cons.mp hrest' with rfl | hpost
          · exact absurd (((h.flight g hs.mem).2.2 b).mpr (hgsrc.symm ▸ hgdst.symm ▸ hmoves)) hmem
          · exact List.mem_append_right _ hpost
  · rw [hs.holder, if_neg fun hmem => hb ((hentries b).mp hmem).1]
    exact h.outside b hb
  · by_cases hmem : v = dst ∧ b ∈ f.entries.map Prod.fst
    · exact .inl (hmoved v b hmem)
    · exact hstill v b (h.column v b hb (hs.table_eq hmem ▸ hcolumn))
  · by_cases hmem : v = dst ∧ b ∈ f.entries.map Prod.fst
    · exact .inl (hmoved v b hmem)
    · exact hstill v b (h.map v b hb (hs.table_eq hmem ▸ hmap))

end

omit [DecidableEq K] in
theorem initial (job : Job R K) (workers : List WorkerID) (owners : PartitionTable) :
    BucketPlaces job (Sys.initial job workers owners).co [] (Sys.initial job workers owners).store := by
  refine ⟨fun b hb _ => by simp [Sys.initial, LazyByKey.World.initial, hb],
    fun b src dst _ hsrc => absurd hsrc List.not_mem_nil,
    fun b hb => by simp [Sys.initial, LazyByKey.World.initial, hb],
    fun f hf => by simp [Sys.initial, LazyByKey.World.initial] at hf, fun w b hb hcolumn => .inl ?_,
    fun w b hb hmap => .inl ?_⟩
  · have howner : owners b = w := hcolumn
    simp [Sys.initial, LazyByKey.World.initial, hb, howner]
  · have howner : owners b = w := by
      by_contra hne
      simp [Sys.initial, LazyByKey.World.initial, LazyByKey.Node.fresh, KeyLookupTableV2.deserialize, hne] at hmap
    simp [Sys.initial, LazyByKey.World.initial, hb, howner]

end

section Step

variable [DecidableEq K] {job : Job R K} {s s' : Sys R K} {a : Action R K}

/-- Every step keeps the places, provided a handover is the first of its worker and uses the new partition, and a
reconfiguration ends with every bucket at its new owner. -/
theorem step (h : BucketPlaces job s.co s.handed s.store) (hcustody : LazyByKey.Custody job.store s.store)
    (hplan : Planned job s.co s.store.deployed)
    (hhanding : ∀ w, (s.loop w).pc = .handing → (s.loop w).routing = some s.co.part ∧ w ∉ s.handed)
    (hdone : s.co.stage = .settle [] → ∀ b < job.store.numBuckets, s.store.holder b = some (s.co.part b))
    (hstep : Step job s a s') : BucketPlaces job s'.co s'.handed s'.store := by
  have hquiet : ∀ {b : LazyByKey.Action K} {store : LazyByKey.World K},
      LazyByKey.step job.store s.store b = .ok store → b.Quiet → BucketPlaces job s.co s.handed store :=
    fun hs hb => h.sameCustody ((LazyByKey.step_eq_ok hs).sameCustody hb)
  cases hstep with
  | rescale _ _ _ hidle => exact h.rescale hplan hidle rfl
  | complete hstage => exact h.complete hcustody (hdone hstage) rfl rfl
  | toForward | toConnect | toRoute | toEventual | toSettle | loopEnter | updateRouting | waitInboundPeers
  | waitReconfigDone | waitEventual | initOld => exact h.restage _
  | startEventual _ _ _ _ _ _ hstore => exact (hquiet hstore trivial).restage _
  | initNew _ _ _ _ _ hnew _ hstore =>
    cases LazyByKey.step_eq_ok hstore
    exact (h.deploy hnew).restage _
  | install src dst _ _ _ _ hstore =>
    obtain ⟨-, f, hs⟩ := hcustody.installs (LazyByKey.step_eq_ok hstore)
    exact h.receive hcustody hs
  | handover w routing table out store hpc hrouting hout hpeers hstore =>
    obtain ⟨hpart, hw⟩ := hhanding w hpc
    obtain rfl : routing = s.co.part := Option.some.inj (hrouting.symm.trans hpart)
    obtain ⟨-, out', hs⟩ := (LazyByKey.step_eq_ok hstore).handsOver
    exact h.handover hcustody hw hs
  | read _ _ _ _ _ _ hstore | run _ _ _ _ hstore | readDone _ _ hstore | flush _ _ _ _ hstore
  | endUnit _ _ hstore => exact hquiet hstore trivial
  | _ => exact h

end Step

end BucketPlaces

end LazyRescale
end Koala
