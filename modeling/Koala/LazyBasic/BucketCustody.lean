import Koala.LazyBasic.BucketMigration

/-!
# Lazy-basic: who holds a bucket

A migration is known only to the two workers that take part in it.  So a worker's table entry for a bucket is
the taker of the last migration of the bucket that the worker took part in, and the owner at job start if there
was none (`Inv.table`).  The entry is right about the worker itself, which keeps the holder unique, but it goes
stale when the bucket moves on between two other workers: the next request of the worker then reaches a former
holder, which dies (`bucketCustody_stale`).

`bucketCustody` says what does hold.  If every reader is up to date about the buckets it reads, has no leftover
of a key that was deleted since, and no record is larger than a chunk, no request is refused and every read ends
with the bucket's complete contents.
-/

namespace Koala
namespace LazyBasic

open Lib Lib.Outcome Lib.HandOver State
open Function (update update_self update_of_ne)
open Partition (WorkerID BucketID)
open Keyby (PartitionTable)

variable {cfg : Config}

/-- The worker that has the current contents of a bucket. -/
def holderOf (cfg : Config) (s : Sys) (b : BucketID) : WorkerID := holder (cfg.initialTable b) (s.handOvers b)

/-- `w` took part in the last migration of bucket `b`, or the bucket has come back to where `w` saw it last. -/
def Informed (cfg : Config) (s : Sys) (w : WorkerID) (b : BucketID) : Prop :=
  lastSeen (cfg.initialTable b) w (s.handOvers b) = holderOf cfg s b

instance (s : Sys) (w : WorkerID) (b : BucketID) : Decidable (Informed cfg s w b) := by
  unfold Informed
  infer_instance

/-- A read of bucket `b` by worker `w` is safe in state `s`. -/
structure Readable (cfg : Config) (s : Sys) (w : WorkerID) (b : BucketID) : Prop where
  informed : Informed cfg s w b
  /-- what `w` still stores of the bucket has not been deleted since -/
  noLeftover : ∀ k, cfg.ks.bucketOf k = b → s.contents (cfg.ks.encode k) = none →
    (s.node w).backend.get (cfg.ks.encode k) = none
  fits : ∀ k v, cfg.ks.bucketOf k = b → s.contents (cfg.ks.encode k) = some v →
    Record.size (cfg.ks.encode k, v) ≤ cfg.maxChunkSize

/-- The steps under which custody is kept: reads of buckets held elsewhere are safe. -/
def Guard (cfg : Config) (s : Sys) : Action → Prop
  | .read w buckets _ => ∀ b ∈ buckets, holderOf cfg s b ≠ w → Readable cfg s w b
  | _ => True

/-- A connection between two requests. -/
structure Stream.Idle (cfg : Config) (conn : Stream) : Prop where
  ready : conn.sender.Ready
  maxChunkSize : conn.sender.maxChunkSize = cfg.maxChunkSize
  unread : conn.unread = []

theorem Stream.idle_new (cfg : Config) : Stream.Idle cfg ⟨StateChunkSender.new cfg.maxChunkSize, []⟩ :=
  ⟨StateChunkSender.new_ready _, rfl, rfl⟩

/-- What holds between two steps. -/
structure Inv (cfg : Config) (s : Sys) : Prop where
  deployed : ∀ w ∈ cfg.initialWorkers, w ∈ s.deployed
  parties : ∀ b, ∀ h ∈ s.handOvers b, h.1 ∈ s.deployed ∧ h.2 ∈ s.deployed
  proper : ∀ b < cfg.ks.numBuckets, Proper (cfg.initialTable b) (s.handOvers b)
  table : ∀ w ∈ s.deployed, ∀ b < cfg.ks.numBuckets,
    (s.node w).stateLookupTable b = lastSeen (cfg.initialTable b) w (s.handOvers b)
  keyed : ∀ w, StopRestart.WellKeyed cfg.ks (s.node w).backend
  current : ∀ k, (s.node (holderOf cfg s (cfg.ks.bucketOf k))).backend.get (cfg.ks.encode k)
    = s.contents (cfg.ks.encode k)
  idle : ∀ w provider, (s.stream w provider).Idle cfg

theorem inv_start (cfg : Config) : Inv cfg (start cfg) where
  deployed := fun _ h => h
  parties := fun _ h hh => by simp [start] at hh
  proper := fun _ _ => trivial
  table := fun _ _ _ _ => rfl
  keyed := fun w k v h => by simp [start] at h
  current := fun k => by simp [start]
  idle := fun _ _ => Stream.idle_new cfg

namespace Inv

variable {s : Sys}

variable {b : BucketID}

theorem holder_deployed (inv : Inv cfg s) (hb : b < cfg.ks.numBuckets) :
    holderOf cfg s b ∈ s.deployed := by
  unfold holderOf
  cases hhist : s.handOvers b with
  | nil => exact inv.deployed _ (cfg.initialTable_mem b hb)
  | cons h rest => exact (inv.parties b h (by simp [hhist])).2

theorem table_eq_self_iff (inv : Inv cfg s) {w : WorkerID} (hw : w ∈ s.deployed) (hb : b < cfg.ks.numBuckets) :
    (s.node w).stateLookupTable b = w ↔ holderOf cfg s b = w := by
  rw [inv.table w hw b hb, lastSeen_eq_self_iff (inv.proper b hb), holderOf]

theorem unique_holder (inv : Inv cfg s) (hb : b < cfg.ks.numBuckets) :
    ∃! w, w ∈ s.deployed ∧ (s.node w).stateLookupTable b = w := by
  have hholder := inv.holder_deployed hb
  refine ⟨holderOf cfg s b, ⟨hholder, (inv.table_eq_self_iff hholder hb).mpr rfl⟩, ?_⟩
  rintro w ⟨hw, hself⟩
  exact ((inv.table_eq_self_iff hw hb).mp hself).symm

end Inv

/-! ## Reconfigurations and writes -/

theorem Update.get_apply (u : Update) (k k' : Bytes) (backend : Backend) :
    (u.apply k backend).get k' = if k' = k then u.value (backend.get k) else backend.get k' := by
  cases u with
  | overwrite v =>
    show (backend.set k v).get k' = _
    by_cases hk : k' = k
    · rw [hk, GoMap.get_set_self, if_pos rfl]
      rfl
    · rw [GoMap.get_set_ne _ _ hk, if_neg hk]
  | merge v =>
    show (backend.set k ((backend.get k).getD [] ++ v)).get k' = _
    by_cases hk : k' = k
    · rw [hk, GoMap.get_set_self, if_pos rfl]
      rfl
    · rw [GoMap.get_set_ne _ _ hk, if_neg hk]
  | delete =>
    show (backend.deleteMany [k]).get k' = _
    rw [Backend.get_deleteMany]
    by_cases hk : k' = k
    · rw [if_pos hk, if_pos (by simp [hk])]
      rfl
    · rw [if_neg hk, if_neg (by simp [hk])]

variable {s s' : Sys}

/-- A reconfiguration moves no state and tells nobody; the new tasks have taken part in no migration. -/
theorem Inv.reconfigure (inv : Inv cfg s) {newWorkers : List WorkerID} {partition : PartitionTable}
    (hstep : step cfg s (.reconfigure newWorkers partition) = .ok s') : Inv cfg s' := by
  simp only [step] at hstep
  split_ifs at hstep with hok
  obtain ⟨hfresh, -⟩ := hok
  obtain rfl := Outcome.ok.inj hstep
  refine ⟨?_, ?_, inv.proper, ?_, ?_, ?_, ?_⟩
  · exact fun w hw => List.mem_append_left _ (inv.deployed w hw)
  · intro b h hh
    obtain ⟨hgiver, htaker⟩ := inv.parties b h hh
    exact ⟨List.mem_append_left _ hgiver, List.mem_append_left _ htaker⟩
  · intro w hw b hb
    dsimp only
    split_ifs with hnew
    · refine (lastSeen_of_absent _ _ fun h hh => ?_).symm
      obtain ⟨hgiver, htaker⟩ := inv.parties b h hh
      exact ⟨fun heq => hfresh w hnew (heq ▸ hgiver), fun heq => hfresh w hnew (heq ▸ htaker)⟩
    · exact inv.table w ((List.mem_append.mp hw).resolve_right hnew) b hb
  · intro w
    dsimp only
    split_ifs with hnew
    · intro k v h
      simp at h
    · exact inv.keyed w
  · intro k
    have hold : holderOf cfg s (cfg.ks.bucketOf k) ∉ newWorkers := fun hnew =>
      hfresh _ hnew (inv.holder_deployed (cfg.ks.bucketOf_lt k))
    show (if holderOf cfg s (cfg.ks.bucketOf k) ∈ newWorkers then _ else _ : Node).backend.get _ = _
    rw [if_neg hold]
    exact inv.current k
  · intro w provider
    dsimp only
    split_ifs
    · exact Stream.idle_new cfg
    · exact inv.idle w provider

variable {w : WorkerID}

theorem Inv.write (inv : Inv cfg s) {k : StateKey} {u : Update} (hstep : step cfg s (.write w k u) = .ok s') :
    Inv cfg s' := by
  simp only [step] at hstep
  split_ifs at hstep with hok
  obtain ⟨hw, hself⟩ := hok
  have hholder := (inv.table_eq_self_iff hw (cfg.ks.bucketOf_lt k)).mp hself
  obtain rfl := Outcome.ok.inj hstep
  refine ⟨inv.deployed, inv.parties, inv.proper, ?_, ?_, ?_, inv.idle⟩
  · intro x hx b hb
    by_cases hxw : x = w
    · subst hxw
      simpa using inv.table x hx b hb
    · simpa [update_of_ne hxw] using inv.table x hx b hb
  · intro x
    by_cases hxw : x = w
    · subst hxw
      intro k' v hget
      simp only [update_self] at hget
      rw [Update.get_apply] at hget
      split_ifs at hget with hk
      · exact ⟨k, hk⟩
      · exact inv.keyed x k' v hget
    · simpa [update_of_ne hxw] using inv.keyed x
  · intro k'
    have hcur := inv.current k'
    show (update s.node w _ (holderOf cfg s (cfg.ks.bucketOf k'))).backend.get _
      = update s.contents _ _ (cfg.ks.encode k')
    by_cases hkey : cfg.ks.encode k' = cfg.ks.encode k
    · have hholder' : holderOf cfg s (cfg.ks.bucketOf k') = w := by
        rw [cfg.ks.encode_bucket_eq hkey]
        exact hholder
      rw [hholder'] at hcur ⊢
      rw [hkey] at hcur
      rw [hkey, update_self, update_self, Update.get_apply, if_pos rfl, hcur]
    · rw [update_of_ne hkey]
      by_cases hxw : holderOf cfg s (cfg.ks.bucketOf k') = w
      · rw [hxw] at hcur ⊢
        rw [update_self, Update.get_apply, if_neg hkey, hcur]
      · rw [update_of_ne hxw, hcur]

/-! ## A batch read -/

variable {b : BucketID} {provider : WorkerID}

theorem mem_requestTo {table : PartitionTable} {remote : List BucketID} :
    b ∈ requestTo table remote provider ↔ b ∈ remote ∧ table b = provider := by
  simp [requestTo]

/-- **One answered request**: the answering worker gives the requested buckets away, the reader stores their
records, nothing else changes. -/
theorem migrateRemoteBucketsFromWorker_spec {remote request : List BucketID}
    (hrequest : requestTo (s.node w).stateLookupTable remote provider = request) (hne : provider ≠ w)
    (hdeployed : provider ∈ s.deployed) (hidle : (s.stream w provider).Idle cfg) (hnodup : request.Nodup)
    (hholds : ∀ b ∈ request, (s.node provider).stateLookupTable b = provider)
    (hfits : FirstFits cfg.maxChunkSize (bucketRecords cfg.ks (s.node provider).backend request)) :
    ∃ s', migrateRemoteBucketsFromWorker cfg w remote s provider = .ok s' ∧
      s'.deployed = s.deployed ∧ s'.handOvers = s.handOvers ∧ s'.contents = s.contents ∧
      s'.node w = ⟨(s.node w).stateLookupTable,
        (s.node w).backend.setMany (bucketRecords cfg.ks (s.node provider).backend request)⟩ ∧
      s'.node provider = ⟨fun b => if b ∈ request then w else (s.node provider).stateLookupTable b,
        (s.node provider).backend⟩ ∧
      (∀ x, x ≠ w → x ≠ provider → s'.node x = s.node x) ∧
      ∀ x p, (s.stream x p).Idle cfg → (s'.stream x p).Idle cfg := by
  obtain ⟨hready, hmax, hunread⟩ := hidle
  have hround : ∃ msgs, ((s.stream w provider).sender.round
        (request.map (readBucket cfg.ks (s.node provider).backend))).sent
      = (s.stream w provider).sender.sent ++ msgs ∧
      Lossless msgs (bucketRecords cfg.ks (s.node provider).backend request) :=
    hready.round_fits (by rw [hmax]; exact hfits)
  obtain ⟨msgs, hsent, hlossless⟩ := hround
  have hreceived := receiveChunks_lossless hlossless (s.node w).backend
  unfold migrateRemoteBucketsFromWorker
  rw [check_eq_ok (not_not.mpr hdeployed), ok_bind, hrequest]
  dsimp only
  rw [remoteBucketMigration_spec hnodup _ _ hholds, ok_bind]
  dsimp only
  rw [hsent, List.drop_left, hunread, List.nil_append, hreceived, ok_bind]
  refine ⟨_, rfl, rfl, rfl, rfl, ?_, ?_, ?_, ?_⟩
  · simp [update_of_ne hne.symm]
  · simp [update_of_ne hne]
  · intro x hxw hxp
    simp [update_of_ne hxw, update_of_ne hxp]
  · intro x p hxp
    by_cases hx : x = w
    · subst hx
      by_cases hp : p = provider
      · subst hp
        simp only [update_self]
        exact ⟨StateChunkSender.round_ready _ _, (StateChunkSender.round_maxChunkSize _ _).trans hmax, rfl⟩
      · simpa [update_of_ne hp] using hxp
    · simpa [update_of_ne hx] using hxp

/-- Reader `w` of `s₀` has got the answers of the workers in `answered`. -/
structure Fetched (cfg : Config) (s₀ : Sys) (w : WorkerID) (remote : List BucketID) (answered : List WorkerID)
    (s : Sys) : Prop where
  deployed : s.deployed = s₀.deployed
  handOvers : s.handOvers = s₀.handOvers
  contents : s.contents = s₀.contents
  readerTable : (s.node w).stateLookupTable = (s₀.node w).stateLookupTable
  otherTable : ∀ x, x ≠ w → ∀ b, (s.node x).stateLookupTable b
    = if x ∈ answered ∧ b ∈ requestTo (s₀.node w).stateLookupTable remote x then w
      else (s₀.node x).stateLookupTable b
  otherBackend : ∀ x, x ≠ w → (s.node x).backend = (s₀.node x).backend
  readerBackend : ∀ k, (s.node w).backend.get (cfg.ks.encode k)
    = if cfg.ks.bucketOf k ∈ remote ∧ (s₀.node w).stateLookupTable (cfg.ks.bucketOf k) ∈ answered
      then s₀.contents (cfg.ks.encode k) else (s₀.node w).backend.get (cfg.ks.encode k)
  keyed : StopRestart.WellKeyed cfg.ks (s.node w).backend
  idle : ∀ x provider, (s.stream x provider).Idle cfg

theorem Fetched.refl (inv : Inv cfg s) (w : WorkerID) (remote : List BucketID) :
    Fetched cfg s w remote [] s where
  deployed := rfl
  handOvers := rfl
  contents := rfl
  readerTable := rfl
  otherTable := fun x _ b => by simp
  otherBackend := fun _ _ => rfl
  readerBackend := fun k => by simp
  keyed := inv.keyed w
  idle := inv.idle

theorem Inv.table_eq_holder (inv : Inv cfg s) (hw : w ∈ s.deployed) (hb : b < cfg.ks.numBuckets)
    (hinformed : Informed cfg s w b) : (s.node w).stateLookupTable b = holderOf cfg s b := by
  rw [inv.table w hw b hb]
  exact hinformed

section

variable {s₀ : Sys} {w : WorkerID} {remote : List BucketID} (inv : Inv cfg s₀) (hw : w ∈ s₀.deployed)
  (hlt : ∀ b ∈ remote, b < cfg.ks.numBuckets) (hread : ∀ b ∈ remote, Readable cfg s₀ w b)
include inv hw hlt hread

/-- The records of a request start with one that fits, if all records of its buckets do. -/
theorem firstFits_of_readable (provider : WorkerID) :
    FirstFits cfg.maxChunkSize (bucketRecords cfg.ks (s₀.node provider).backend
      (requestTo (s₀.node w).stateLookupTable remote provider)) := by
  intro r hfirst
  obtain ⟨k, v⟩ := r
  have hmem := List.mem_of_head? hfirst
  obtain ⟨-, sk, rfl⟩ := exists_encode_of_mem_bucketRecords (inv.keyed provider) hmem
  have hlt' : ∀ b ∈ requestTo (s₀.node w).stateLookupTable remote provider, b < cfg.ks.numBuckets :=
    fun b hb => hlt b (mem_requestTo.mp hb).1
  obtain ⟨hget, hin⟩ := (mem_bucketRecords _ hlt' sk v).mp hmem
  obtain ⟨hremote, hprovider⟩ := mem_requestTo.mp hin
  have hholder := inv.table_eq_holder hw (hlt _ hremote) (hread _ hremote).informed
  refine (hread _ hremote).fits sk v rfl ?_
  rw [← inv.current sk, ← hholder, hprovider, hget]

/-- **One request of a batch read.** -/
theorem Fetched.answer (hnodup : remote.Nodup)
    {answered : List WorkerID} (hnew : provider ∉ answered) (hne : provider ≠ w)
    (hdeployed : provider ∈ s₀.deployed) {s : Sys} (h : Fetched cfg s₀ w remote answered s) :
    ∃ s', migrateRemoteBucketsFromWorker cfg w remote s provider = .ok s' ∧
      Fetched cfg s₀ w remote (answered ++ [provider]) s' := by
  have hlt' : ∀ b ∈ requestTo (s₀.node w).stateLookupTable remote provider, b < cfg.ks.numBuckets :=
    fun b hb => hlt b (mem_requestTo.mp hb).1
  have hnodup' : (requestTo (s₀.node w).stateLookupTable remote provider).Nodup := hnodup.filter _
  have hholder : ∀ b ∈ requestTo (s₀.node w).stateLookupTable remote provider,
      holderOf cfg s₀ b = provider := by
    intro b hb
    obtain ⟨hremote, hprovider⟩ := mem_requestTo.mp hb
    rw [← hprovider, inv.table_eq_holder hw (hlt b hremote) (hread b hremote).informed]
  have hholds : ∀ b ∈ requestTo (s₀.node w).stateLookupTable remote provider,
      (s.node provider).stateLookupTable b = provider := by
    intro b hb
    rw [h.otherTable provider hne, if_neg fun hcond => hnew hcond.1]
    exact (inv.table_eq_self_iff hdeployed (hlt' b hb)).mpr (hholder b hb)
  obtain ⟨s', hcall, hdep, hhand, hcont, hreader, hanswer, hothers, hidle⟩ :=
    migrateRemoteBucketsFromWorker_spec (by rw [h.readerTable]) hne (h.deployed ▸ hdeployed)
      (h.idle w provider) hnodup' hholds (by
        rw [h.otherBackend provider hne]
        exact firstFits_of_readable inv hw hlt hread provider)
  rw [h.otherBackend provider hne] at hreader hanswer
  refine ⟨s', hcall, hdep.trans h.deployed, hhand.trans h.handOvers, hcont.trans h.contents, ?_, ?_, ?_, ?_, ?_,
    fun x p => hidle x p (h.idle x p)⟩
  · rw [hreader]
    exact h.readerTable
  · intro x hxw b
    by_cases hxp : x = provider
    · subst hxp
      rw [hanswer]
      dsimp only
      rw [h.otherTable x hne]
      simp [hnew]
    · rw [hothers x hxw hxp, h.otherTable x hxw]
      simp [hxp]
  · intro x hxw
    by_cases hxp : x = provider
    · rw [hxp, hanswer]
    · rw [hothers x hxw hxp, h.otherBackend x hxw]
  · intro k
    rw [hreader, get_setMany_bucketRecords (inv.keyed provider) hnodup' hlt', h.readerBackend]
    by_cases hin : cfg.ks.bucketOf k ∈ requestTo (s₀.node w).stateLookupTable remote provider
    · obtain ⟨hremote, hprovider⟩ := mem_requestTo.mp hin
      have hcur := inv.current k
      rw [hholder _ hin] at hcur
      rw [if_pos hin, if_neg (by simp [hprovider, hnew]), if_pos (by simp [hremote, hprovider]), hcur]
      cases hcontents : s₀.contents (cfg.ks.encode k) with
      | none => rw [Option.none_or, (hread _ hremote).noLeftover k rfl hcontents]
      | some v => rw [Option.some_or]
    · rw [if_neg hin]
      refine if_congr (and_congr_right fun hremote => ?_) rfl rfl
      have hother : (s₀.node w).stateLookupTable (cfg.ks.bucketOf k) ≠ provider := fun heq =>
        hin (mem_requestTo.mpr ⟨hremote, heq⟩)
      simp [hother]
  · rw [hreader]
    exact wellKeyed_setMany_bucketRecords (inv.keyed provider) h.keyed hnodup' hlt'

/-- **The end of a batch read.**  All providers have answered, and the reader takes the buckets over. -/
theorem Fetched.complete
    (hremote : ∀ b ∈ remote, (s₀.node w).stateLookupTable b ≠ w) {order : List WorkerID}
    (horder : ∀ b ∈ remote, (s₀.node w).stateLookupTable b ∈ order) (hdeployed : ∀ p ∈ order, p ∈ s₀.deployed)
    {s : Sys} (h : Fetched cfg s₀ w remote order s) : Inv cfg (changeBucketOwners w remote s) := by
  have hhist : ∀ b, (changeBucketOwners w remote s).handOvers b
      = if b ∈ remote then ((s₀.node w).stateLookupTable b, w) :: s₀.handOvers b else s₀.handOvers b := by
    intro b
    rw [← h.readerTable, ← h.handOvers]
    rfl
  have hholder : ∀ b ∈ remote, (s₀.node w).stateLookupTable b = holderOf cfg s₀ b := fun b hb =>
    inv.table_eq_holder hw (hlt b hb) (hread b hb).informed
  have hother : ∀ x, x ≠ w → (changeBucketOwners w remote s).node x = s.node x := fun x hx =>
    update_of_ne hx _ _
  refine ⟨?_, ?_, ?_, ?_, ?_, ?_, h.idle⟩
  · intro x hx
    show x ∈ s.deployed
    rw [h.deployed]
    exact inv.deployed x hx
  · intro b handOver hmem
    show handOver.1 ∈ s.deployed ∧ handOver.2 ∈ s.deployed
    rw [hhist] at hmem
    rw [h.deployed]
    split_ifs at hmem with hb
    · rcases List.mem_cons.mp hmem with rfl | hmem
      · exact ⟨hdeployed _ (horder b hb), hw⟩
      · exact inv.parties b handOver hmem
    · exact inv.parties b handOver hmem
  · intro b hb
    rw [hhist]
    split_ifs with hin
    · exact ⟨hholder b hin, (hremote b hin).symm, inv.proper b hb⟩
    · exact inv.proper b hb
  · intro x hx b hb
    have hx₀ : x ∈ s₀.deployed := h.deployed ▸ hx
    rw [hhist]
    by_cases hxw : x = w
    · subst hxw
      have htable : ((changeBucketOwners x remote s).node x).stateLookupTable b
          = if b ∈ remote then x else (s₀.node x).stateLookupTable b := by
        rw [← h.readerTable]
        simp [changeBucketOwners]
      rw [htable]
      split_ifs with hin
      · exact (lastSeen_taker _ _ _ _).symm
      · exact inv.table x hx₀ b hb
    · rw [hother x hxw, h.otherTable x hxw]
      by_cases hin : b ∈ remote
      · rw [if_pos hin]
        by_cases hprovider : (s₀.node w).stateLookupTable b = x
        · rw [if_pos ⟨hprovider ▸ horder b hin, mem_requestTo.mpr ⟨hin, hprovider⟩⟩, hprovider, lastSeen_giver]
        · rw [if_neg fun hcond => hprovider (mem_requestTo.mp hcond.2).2, lastSeen_other _ _ (Ne.symm hprovider) hxw]
          exact inv.table x hx₀ b hb
      · rw [if_neg hin, if_neg fun hcond => hin (mem_requestTo.mp hcond.2).1]
        exact inv.table x hx₀ b hb
  · intro x
    by_cases hxw : x = w
    · subst hxw
      simpa [changeBucketOwners] using h.keyed
    · rw [hother x hxw, h.otherBackend x hxw]
      exact inv.keyed x
  · intro k
    have hbackend : ((changeBucketOwners w remote s).node w).backend = (s.node w).backend := by
      simp [changeBucketOwners]
    have hcur := inv.current k
    show _ = s.contents _
    rw [holderOf, hhist, h.contents]
    split_ifs with hin
    · rw [holder_cons, hbackend, h.readerBackend, if_pos ⟨hin, horder _ hin⟩]
    · rw [holderOf] at hcur
      by_cases hxw : holder (cfg.initialTable (cfg.ks.bucketOf k)) (s₀.handOvers (cfg.ks.bucketOf k)) = w
      · rw [hxw] at hcur ⊢
        rw [hbackend, h.readerBackend, if_neg fun hcond => hin hcond.1, hcur]
      · rw [hother _ hxw, h.otherBackend _ hxw, hcur]

end

theorem Inv.table_deployed (inv : Inv cfg s) (hw : w ∈ s.deployed) (hb : b < cfg.ks.numBuckets) :
    (s.node w).stateLookupTable b ∈ s.deployed := by
  rw [inv.table w hw b hb]
  rcases lastSeen_start_or_taker (cfg.initialTable b) w (s.handOvers b) with hstart | ⟨h, hh, htaker⟩
  · rw [hstart]
    exact inv.deployed _ (cfg.initialTable_mem b hb)
  · rw [htaker]
    exact (inv.parties b h hh).2

/-- **A batch read whose remote buckets are readable.** -/
theorem Inv.migrateRemoteBuckets (inv : Inv cfg s) (hw : w ∈ s.deployed) {buckets : List BucketID}
    (hlt : ∀ b ∈ buckets, b < cfg.ks.numBuckets) (hread : ∀ b ∈ buckets, holderOf cfg s b ≠ w → Readable cfg s w b)
    {order : List WorkerID}
    (horder : order.Perm ((remoteBuckets (s.node w).stateLookupTable w buckets).map (s.node w).stateLookupTable).dedup) :
    ∃ s', LazyBasic.migrateRemoteBuckets cfg w buckets order s = .ok s' ∧ Inv cfg s' ∧
      s'.contents = s.contents ∧ s'.deployed = s.deployed ∧
      ∀ b ∈ buckets, (s'.node w).stateLookupTable b = w := by
  have hremote : ∀ b ∈ remoteBuckets (s.node w).stateLookupTable w buckets,
      b ∈ buckets ∧ (s.node w).stateLookupTable b ≠ w := fun b hb => (mem_remoteBuckets _ _ _ _).mp hb
  have hlt' : ∀ b ∈ remoteBuckets (s.node w).stateLookupTable w buckets, b < cfg.ks.numBuckets :=
    fun b hb => hlt b (hremote b hb).1
  have hread' : ∀ b ∈ remoteBuckets (s.node w).stateLookupTable w buckets, Readable cfg s w b := by
    intro b hb
    obtain ⟨hmem, hne⟩ := hremote b hb
    exact hread b hmem fun hholder => hne ((inv.table_eq_self_iff hw (hlt b hmem)).mpr hholder)
  have hproviders : ∀ p, p ∈ order ↔ ∃ b ∈ remoteBuckets (s.node w).stateLookupTable w buckets,
      (s.node w).stateLookupTable b = p := by
    intro p
    rw [horder.mem_iff, List.mem_dedup, List.mem_map]
  have hdeployed : ∀ p ∈ order, p ∈ s.deployed := by
    intro p hp
    obtain ⟨b, hb, rfl⟩ := (hproviders p).mp hp
    exact inv.table_deployed hw (hlt' b hb)
  have hloop : ∃ s', forEach order (migrateRemoteBucketsFromWorker cfg w
      (remoteBuckets (s.node w).stateLookupTable w buckets)) s = .ok s' ∧
      Fetched cfg s w (remoteBuckets (s.node w).stateLookupTable w buckets) order s' := by
    refine forEach_total _ (Fetched.refl inv w _) ?_
    intro answered provider rest t hsplit hfetched
    have hmem : provider ∈ order := by simp [hsplit]
    have hnew := notMem_done (horder.nodup_iff.mpr (List.nodup_dedup _)) hsplit
    have hne : provider ≠ w := by
      obtain ⟨b, hb, rfl⟩ := (hproviders provider).mp hmem
      exact (hremote b hb).2
    exact hfetched.answer inv hw hlt' hread' (remoteBuckets_nodup _ _ _) hnew hne (hdeployed _ hmem)
  obtain ⟨t, hloop, hfetched⟩ := hloop
  refine ⟨changeBucketOwners w (remoteBuckets (s.node w).stateLookupTable w buckets) t, ?_, ?_,
    hfetched.contents, hfetched.deployed, ?_⟩
  · unfold LazyBasic.migrateRemoteBuckets
    dsimp only
    rw [if_pos horder, hloop, ok_bind]
  · exact hfetched.complete inv hw hlt' hread' (fun b hb => (hremote b hb).2)
      (fun b hb => (hproviders _).mpr ⟨b, hb, rfl⟩) hdeployed
  · intro b hb
    simp only [changeBucketOwners, update_self]
    split_ifs with hin
    · rfl
    · rw [hfetched.readerTable]
      by_contra hne
      exact hin ((mem_remoteBuckets _ _ _ _).mpr ⟨hb, hne⟩)

theorem Inv.step (inv : Inv cfg s) {a : Action} (hguard : Guard cfg s a) (hstep : step cfg s a = .ok s') :
    Inv cfg s' := by
  cases a with
  | reconfigure newWorkers partition => exact inv.reconfigure hstep
  | write w k u => exact inv.write hstep
  | read w buckets order =>
    simp only [LazyBasic.step] at hstep
    split_ifs at hstep with hok
    have horder : order.Perm ((remoteBuckets (s.node w).stateLookupTable w buckets).map
        (s.node w).stateLookupTable).dedup := by
      by_contra hnot
      unfold LazyBasic.migrateRemoteBuckets at hstep
      dsimp only at hstep
      rw [if_neg hnot] at hstep
      cases hstep
    obtain ⟨s₁, hread, hinv, -⟩ := inv.migrateRemoteBuckets hok.1 (fun b hb => (hok.2 b hb).1) hguard horder
    rw [hread] at hstep
    exact Outcome.ok.inj hstep ▸ hinv

theorem inv_of_run (hrun : (machine cfg).Run (Guard cfg) s) : Inv cfg s :=
  hrun.invariant (Inv cfg) (fun s (hinit : s = start cfg) => hinit ▸ inv_start cfg)
    fun _ _ _ _ inv hguard hstep => inv.step hguard hstep

/-- A request of a worker that is not informed about the bucket reaches a worker that does not hold it. -/
theorem Inv.read_uninformed (inv : Inv cfg s) (hw : w ∈ s.deployed) (hb : b < cfg.ks.numBuckets)
    (howner : s.keyPartition b = w) (hstale : ¬ Informed cfg s w b) :
    ∃ provider, LazyBasic.step cfg s (.read w [b] [provider]) = .abort (.notOwner b provider) := by
  have htable := inv.table w hw b hb
  have hne : (s.node w).stateLookupTable b ≠ w := by
    intro hself
    refine hstale ?_
    rw [Informed, ← htable, hself, (inv.table_eq_self_iff hw hb).mp hself]
  have hdeployed := inv.table_deployed hw hb
  have hremote : remoteBuckets (s.node w).stateLookupTable w [b] = [b] := by
    simp [remoteBuckets, hne]
  have hlacks : (s.node ((s.node w).stateLookupTable b)).stateLookupTable b ≠ (s.node w).stateLookupTable b := by
    intro hself
    refine hstale ?_
    rw [Informed, ← htable, (inv.table_eq_self_iff hdeployed hb).mp hself]
  refine ⟨(s.node w).stateLookupTable b, ?_⟩
  simp only [LazyBasic.step]
  rw [if_pos ⟨hw, by simpa using ⟨hb, howner⟩⟩]
  unfold LazyBasic.migrateRemoteBuckets
  dsimp only
  rw [hremote, if_pos (by simp), forEach_cons]
  unfold migrateRemoteBucketsFromWorker
  have hrequest : (requestTo (s.node w).stateLookupTable [b] ((s.node w).stateLookupTable b)).head? = some b := by
    simp [requestTo]
  rw [check_eq_ok (not_not.mpr hdeployed), ok_bind]
  dsimp only
  rw [remoteBucketMigration_abort _ _ hrequest hlacks]
  rfl

/-- **Bucket custody.**  In every state that a run with safe reads reaches,

* exactly one worker considers itself the holder of each bucket;
* a safe read by the current owner of its buckets sends every request to the worker whose own table names itself,
  succeeds, and leaves the reader as the holder of the buckets with their complete current contents;
* a read by an owner that is not informed about the bucket is refused, and the worker asked dies. -/
theorem bucketCustody (cfg : Config) {s : Sys} (hrun : (machine cfg).Run (Guard cfg) s) :
    (∀ b < cfg.ks.numBuckets, ∃! w, w ∈ s.deployed ∧ (s.node w).stateLookupTable b = w) ∧
    (∀ w ∈ s.deployed, ∀ buckets order, (∀ b ∈ buckets, b < cfg.ks.numBuckets ∧ s.keyPartition b = w) →
      order.Perm ((remoteBuckets (s.node w).stateLookupTable w buckets).map (s.node w).stateLookupTable).dedup →
      Guard cfg s (.read w buckets order) →
      (∀ b ∈ buckets, (s.node ((s.node w).stateLookupTable b)).stateLookupTable b = (s.node w).stateLookupTable b) ∧
      ∃ s', step cfg s (.read w buckets order) = .ok s' ∧ s'.contents = s.contents ∧
        ∀ b ∈ buckets, (s'.node w).stateLookupTable b = w ∧ ∀ k, cfg.ks.bucketOf k = b →
            (s'.node w).backend.get (cfg.ks.encode k) = s.contents (cfg.ks.encode k)) ∧
    ∀ w ∈ s.deployed, ∀ b < cfg.ks.numBuckets, s.keyPartition b = w → ¬ Informed cfg s w b →
      ∃ provider, step cfg s (.read w [b] [provider]) = .abort (.notOwner b provider) := by
  have inv := inv_of_run hrun
  refine ⟨fun b hb => inv.unique_holder hb, ?_, fun w hw b hb => inv.read_uninformed hw hb⟩
  intro w hw buckets order hbuckets horder hguard
  have hlt : ∀ b ∈ buckets, b < cfg.ks.numBuckets := fun b hb => (hbuckets b hb).1
  refine ⟨?_, ?_⟩
  · intro b hb
    have hdeployed := inv.table_deployed hw (hlt b hb)
    rw [inv.table_eq_self_iff hdeployed (hlt b hb)]
    by_cases hself : holderOf cfg s b = w
    · rw [hself, (inv.table_eq_self_iff hw (hlt b hb)).mpr hself]
    · rw [inv.table_eq_holder hw (hlt b hb) (hguard b hb hself).informed]
  · obtain ⟨s', hread, hinv, hcontents, hdeployed, htable⟩ :=
      inv.migrateRemoteBuckets hw hlt hguard horder
    refine ⟨s', ?_, hcontents, ?_⟩
    · simp only [step]
      rw [if_pos ⟨hw, hbuckets⟩, hread]
    · intro b hb
      refine ⟨htable b hb, ?_⟩
      rintro k rfl
      have hholder := (hinv.table_eq_self_iff (hdeployed ▸ hw) (hlt _ hb)).mp (htable _ hb)
      have hcur := hinv.current k
      rw [hholder] at hcur
      rw [hcur, hcontents]

/-! ## A stale table -/

/-- Six buckets, keys placed by their first byte, one task at job start. -/
def sampleConfig : Config where
  ks :=
    { operatorID := 1
      numBuckets := 6
      hash := fun key => (key.headD 0).toNat
      numBuckets_pos := by decide
      numBuckets_le := by decide }
  maxChunkSize := 1024
  initialTable := fun _ => 0
  initialWorkers := [0]
  initialTable_mem := by simp

/-- The owners with two tasks. -/
def twoTasks : PartitionTable := fun b => if b < 3 then 0 else 1

/-- The owners with three tasks: each old task gives a bucket to the new one. -/
def threeTasks : PartitionTable := fun b => if b < 2 then 0 else if b = 3 ∨ b = 4 then 1 else 2

/-- Bucket 5 moves from task 0 to task 1, and task 2 becomes its owner. -/
def staleActions : List Action := [.reconfigure [1] twoTasks, .read 1 [5] [0], .reconfigure [2] threeTasks]

/-- When task 2 reads bucket 5 afterwards, the table it started with still names task 0, and task 0 dies. -/
theorem bucketCustody_stale :
    ∃ s, (machine sampleConfig).Run (fun _ _ => True) s ∧
      step sampleConfig s (.read 2 [5] [0]) = .abort (.notOwner 5 0) := by
  have hreplay : (machine sampleConfig).replayAbort (start sampleConfig) staleActions (.read 2 [5] [0])
      (fun e => decide (e = .notOwner 5 0)) = true := by decide
  obtain ⟨s, e, hrun, hstep, he⟩ := Machine.Run.of_replayAbort _ _ _ rfl hreplay
  exact ⟨s, hrun, of_decide_eq_true he ▸ hstep⟩

/-- A key of bucket 5. -/
def sampleKey : StateKey := ⟨0, [5], []⟩

/-- Task 0 has written a value to bucket 5, and task 1 has become its owner. -/
def sampleWritten : Sys :=
  { start sampleConfig with
    node := fun w => if w ∈ [1] then ⟨fun _ => 0, ∅⟩ else
      update (start sampleConfig).node 0
        ⟨fun _ => 0, (Update.overwrite [7]).apply (sampleConfig.ks.encode sampleKey) ∅⟩ w
    stream := fun w provider =>
      if w ∈ [1] ∨ provider ∈ [1] then ⟨StateChunkSender.new 1024, []⟩ else
        (start sampleConfig).stream w provider
    deployed := [0, 1]
    keyPartition := twoTasks
    contents := update (fun _ => none) (sampleConfig.ks.encode sampleKey) (some [7]) }

theorem sampleWritten_run : (machine sampleConfig).Run (Guard sampleConfig) sampleWritten := by
  have hstart : (machine sampleConfig).Run (Guard sampleConfig) (start sampleConfig) := .start rfl
  have hwrite : ∃ s, step sampleConfig (start sampleConfig) (.write 0 sampleKey (.overwrite [7])) = .ok s ∧
      step sampleConfig s (.reconfigure [1] twoTasks) = .ok sampleWritten := ⟨_, rfl, rfl⟩
  obtain ⟨s, hwrite, hreconfigure⟩ := hwrite
  have hguard : Guard sampleConfig (start sampleConfig) (.write 0 sampleKey (.overwrite [7])) := trivial
  have hguard' : Guard sampleConfig s (.reconfigure [1] twoTasks) := trivial
  exact .step (.step hstart hguard hwrite) hguard' hreconfigure

/-- Task 1 reads bucket 5 and gets the value. -/
theorem bucketCustody_written : (machine sampleConfig).Run (Guard sampleConfig) sampleWritten ∧
      ∃ s', step sampleConfig sampleWritten (.read 1 [5] [0]) = .ok s' ∧
        (s'.node 1).stateLookupTable 5 = 1 ∧
        (s'.node 1).backend.get (sampleConfig.ks.encode sampleKey) = some [7] := by
  refine ⟨sampleWritten_run, ?_⟩
  have hguard : Guard sampleConfig sampleWritten (.read 1 [5] [0]) := by
    intro b hb _
    obtain rfl := List.mem_singleton.mp hb
    refine ⟨by decide, ?_, ?_⟩
    · intro k _ _
      rfl
    · intro k v _ hcontents
      have hkey : sampleConfig.ks.encode k = sampleConfig.ks.encode sampleKey := by
        by_contra hne
        simp [sampleWritten, update_of_ne hne] at hcontents
      have hvalue : v = [7] := by
        rw [hkey] at hcontents
        simpa [sampleWritten] using hcontents.symm
      rw [hkey, hvalue]
      decide
  obtain ⟨-, s', hstep, -, hread⟩ := (bucketCustody sampleConfig sampleWritten_run).2.1 1 (by decide) [5] [0]
    (by decide) (by decide) hguard
  obtain ⟨htable, hvalue⟩ := hread 5 (by simp)
  exact ⟨s', hstep, htable, (hvalue sampleKey (by decide)).trans (by decide)⟩

end LazyBasic
end Koala
