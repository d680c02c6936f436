import Koala.Supplier.RoundRobin

/-!
# The task's watermark

Watermarks of one channel increase (`Punctual`).  Then a watermark is credited to the channel it was read from, and what
the task is told is the minimum over its channels, in increasing order.
-/

namespace Koala
namespace Supply

open Lib Lib.Outcome

/-! ## Channels -/

def WorkUnit.timestamp? : WorkUnit → Option Int
  | .watermark timestamp => some timestamp
  | _ => none

def timestamps (units : List WorkUnit) : List Int := units.filterMap WorkUnit.timestamp?

/-- The last watermark among these units, -1 if there is none. -/
def lastWatermark (units : List WorkUnit) : Int := (timestamps units).getLast?.getD (-1)

namespace Upstream

/-- The channel has the watermark it was sent last, and its watermarks increase. -/
structure Ok (u : Upstream) : Prop where
  credited : u.wm = lastWatermark u.received
  increasing : (timestamps (u.received ++ u.inputBuffer)).Pairwise (· < ·)
  int64 : ∀ t ∈ timestamps (u.received ++ u.inputBuffer), -1 < t ∧ t ≤ maxInt64

variable {u : Upstream}

theorem Ok.wm_le (h : u.Ok) : u.wm ≤ maxInt64 := by
  rw [h.credited, lastWatermark]
  cases hlast : (timestamps u.received).getLast? with
  | none => decide
  | some t =>
    refine (h.int64 t ?_).2
    rw [timestamps, List.filterMap_append]
    exact List.mem_append_left _ (List.mem_of_getLast? hlast)

/-- The next unit is read. -/
def read (u : Upstream) (unit : WorkUnit) (rest : List WorkUnit) : Upstream :=
  { u with inputBuffer := rest, received := u.received ++ [unit] }

variable {unit : WorkUnit} {rest : List WorkUnit}

theorem Ok.read_other (h : u.Ok) (hbuffer : u.inputBuffer = unit :: rest) (hunit : unit.timestamp? = none) :
    (u.read unit rest).Ok := by
  have hall : u.received ++ [unit] ++ rest = u.received ++ u.inputBuffer := by simp [hbuffer]
  refine ⟨?_, ?_, ?_⟩
  · simp [read, h.credited, lastWatermark, timestamps, hunit]
  · simp only [read, hall]
    exact h.increasing
  · simp only [read, hall]
    exact h.int64

theorem Ok.read_watermark (h : u.Ok) {t : Int} (hbuffer : u.inputBuffer = .watermark t :: rest) :
    u.wm < t ∧ ({ u.read (.watermark t) rest with wm := t } : Upstream).Ok := by
  have hall : u.received ++ [.watermark t] ++ rest = u.received ++ u.inputBuffer := by simp [hbuffer]
  have hsplit : timestamps (u.received ++ u.inputBuffer) = timestamps u.received ++ t :: timestamps rest := by
    simp [hbuffer, timestamps, WorkUnit.timestamp?]
  refine ⟨?_, ?_, ?_, ?_⟩
  · rw [h.credited, lastWatermark]
    cases hlast : (timestamps u.received).getLast? with
    | none => exact (h.int64 t (by simp [hsplit])).1
    | some t' =>
      have hpairs := h.increasing
      rw [hsplit] at hpairs
      exact (List.pairwise_append.mp hpairs).2.2 t' (List.mem_of_getLast? hlast) t (by simp)
  · simp [read, lastWatermark, timestamps, WorkUnit.timestamp?]
  · simp only [read, hall]
    exact h.increasing
  · simp only [read, hall]
    exact h.int64

end Upstream

theorem mem_set_of_forall {α : Type} {p : α → Prop} {xs : List α} (h : ∀ x ∈ xs, p x) {y : α} (hy : p y) (i : Nat) :
    ∀ x ∈ xs.set i y, p x := fun x hx => by
  rcases List.mem_or_eq_of_mem_set hx with hold | rfl
  · exact h x hold
  · exact hy

theorem index_natCast {α : Type} {xs : List α} {j : Nat} {x : α} (h : xs[j]? = some x) : index xs j = .ok x := by
  rw [index, if_neg (by omega), Int.toNat_natCast, h]

theorem index_ok {α : Type} {xs : List α} {i : Int} (hlow : 0 ≤ i) (hup : i < xs.length) :
    ∃ x ∈ xs, xs[i.toNat]? = some x ∧ index xs i = .ok x := by
  obtain ⟨j, rfl⟩ := Int.eq_ofNat_of_zero_le hlow
  have hlt : j < xs.length := by omega
  exact ⟨xs[j], List.getElem_mem hlt, List.getElem?_eq_getElem hlt, index_natCast (List.getElem?_eq_getElem hlt)⟩

/-- The supplier has lost track of its own channels. -/
inductive Abort.Internal : Abort → Prop where
  | index : Internal .indexOutOfRange
  | cursor : Internal .invalidIndex
  | order (new old : Int) : Internal (.watermarkOrder new old)

/-- The computation returns something with `p`, or is stopped for another reason. -/
def Meets {α : Type} (p : α → Prop) (x : Outcome Abort α) : Prop :=
  x.Avoids Abort.Internal ∧ ∀ a, x = .ok a → p a

namespace Meets

variable {α β : Type} {p : α → Prop} {q : β → Prop}

theorem ok {a : α} (h : p a) : Meets p (.ok a) := ⟨.ok a, by rintro _ ⟨⟩; exact h⟩

theorem bind {x : Outcome Abort α} {f : α → Outcome Abort β} (hx : Meets p x) (hf : ∀ a, p a → Meets q (f a)) :
    Meets q (x >>= f) := by
  refine ⟨hx.1.bind fun a ha => (hf a (hx.2 a ha)).1, fun b hb => ?_⟩
  obtain ⟨a, ha, hb⟩ := bind_eq_ok.mp hb
  exact (hf a (hx.2 a ha)).2 b hb

theorem check {bad : Prop} [Decidable bad] {e : Abort} {f : Unit → Outcome Abort β} (he : bad → ¬ e.Internal)
    (hf : ¬ bad → Meets q (f ())) : Meets q (Outcome.check bad e >>= f) := by
  by_cases h : bad
  · rw [Outcome.check, if_pos h]
    exact ⟨.abort (he h), nofun⟩
  · rw [check_eq_ok h, ok_bind]
    exact hf h

end Meets

/-! ## Sub-suppliers -/

namespace SubSupplier

structure Ok (ss : SubSupplier) : Prop where
  cursor : -1 ≤ ss.nextUpstreamIdx ∧ ss.nextUpstreamIdx < ss.upstreams.length
  upstream : ∀ u ∈ ss.upstreams, u.Ok

variable {ss ss' : SubSupplier} {n : Nat}

theorem Ok.increment (h : ss.Ok) (hpos : 0 < ss.upstreams.length) :
    ss.incrementNextUpstreamIdx.Ok ∧ 0 ≤ ss.incrementNextUpstreamIdx.nextUpstreamIdx := by
  have hcursor := h.cursor
  refine ⟨⟨?_, h.upstream⟩, ?_⟩
  · unfold incrementNextUpstreamIdx
    dsimp only
    split_ifs <;> omega
  · unfold incrementNextUpstreamIdx
    dsimp only
    split_ifs <;> omega

/-- What a scan can find: nothing, or the next unit of the channel under the cursor. -/
theorem scan_cases (h : ss.Ok) (hpos : n ≠ 0 → 0 < ss.upstreams.length) :
    (∃ ss', scan n ss = .ok (ss', none) ∧ ss'.Ok) ∨
    ∃ ss' u unit rest, ∃ j : Nat, scan n ss = .ok (ss', some unit) ∧ ss'.nextUpstreamIdx = j ∧
      ss.upstreams[j]? = some u ∧ u ∈ ss.upstreams ∧ u.inputBuffer = unit :: rest ∧
      ss'.upstreams = ss.upstreams.set j (u.read unit rest) := by
  induction n generalizing ss with
  | zero => exact .inl ⟨ss, rfl, h⟩
  | succ n ih =>
    have hlen := hpos (Nat.succ_ne_zero n)
    obtain ⟨hnext, hlow⟩ := h.increment hlen
    obtain ⟨u, hu, hget, hindex⟩ := index_ok hlow hnext.cursor.2
    rw [scan]
    simp only [hindex, ok_bind]
    cases hbuffer : u.inputBuffer with
    | nil => exact ih hnext fun _ => hlen
    | cons unit rest =>
      exact .inr ⟨_, u, unit, rest, _, rfl, (Int.toNat_of_nonneg hlow).symm, hget, hu, hbuffer, rfl⟩

/-- **The scan reaches every channel.** -/
theorem mem_visits (h : ss.Ok) {j : Nat} (hj : j < ss.upstreams.length)
    (hn : (if ss.nextUpstreamIdx < j then j - ss.nextUpstreamIdx
      else j - ss.nextUpstreamIdx + ss.upstreams.length) ≤ n) : (j : Int) ∈ visits n ss := by
  induction n generalizing ss with
  | zero =>
    have hcursor := h.cursor
    split_ifs at hn <;> omega
  | succ n ih =>
    have hcursor := h.cursor
    rw [visits, List.mem_cons]
    by_cases hj' : (j : Int) = ss.incrementNextUpstreamIdx.nextUpstreamIdx
    · exact .inl hj'
    · refine .inr (ih (h.increment (by omega)).1 hj ?_)
      unfold incrementNextUpstreamIdx at hj' ⊢
      dsimp only at hj' ⊢
      split_ifs at * <;> omega

theorem scan_none (hscan : scan n ss = .ok (ss', none)) {j : Nat} {u : Upstream} (hj : (j : Int) ∈ visits n ss)
    (hu : ss.upstreams[j]? = some u) : u.inputBuffer = [] := by
  induction n generalizing ss with
  | zero => simp [visits] at hj
  | succ n ih =>
    rw [scan] at hscan
    obtain ⟨v, hv, hrest⟩ := bind_eq_ok.mp hscan
    rw [visits, List.mem_cons] at hj
    rcases hj with heq | hlater
    · have huv : index ss.incrementNextUpstreamIdx.upstreams j = .ok u := index_natCast hu
      rw [← heq, huv] at hv
      cases hv
      cases hbuffer : u.inputBuffer with
      | nil => rfl
      | cons unit rest => simp [hbuffer] at hrest
    · cases hbuffer : v.inputBuffer with
      | nil =>
        simp only [hbuffer] at hrest
        exact ih hrest hlater hu
      | cons unit rest => simp [hbuffer] at hrest

/-- A unit is read: a watermark is still to be noted, and the cursor is on its channel. -/
theorem Ok.getWorkUnit (h : ss.Ok) : ∃ ss' out, ss.getWorkUnit = .ok (ss', out) ∧
    (∀ t, out = some (.watermark t) → ∃ ss'', ss'.updateWatermark t = .ok ss'' ∧ ss''.Ok) ∧
    ((∀ t, out ≠ some (.watermark t)) → ss'.Ok) ∧
    (out ≠ none → 0 ≤ ss'.nextUpstreamIdx ∧ ss'.nextUpstreamIdx < ss'.upstreams.length) := by
  rcases scan_cases h Nat.pos_of_ne_zero with ⟨ss', hscan, hok⟩ | ⟨ss', u, unit, rest, j, hscan, hcursor, hget, hu, hbuffer, hset⟩
  · exact ⟨ss', none, hscan, nofun, fun _ => hok, fun hne => absurd rfl hne⟩
  have hlt : j < ss.upstreams.length := (List.getElem?_eq_some_iff.mp hget).1
  have hrange : -1 ≤ ss'.nextUpstreamIdx ∧ ss'.nextUpstreamIdx < ss'.upstreams.length := by
    rw [hset, List.length_set, hcursor]
    omega
  refine ⟨ss', some unit, hscan, fun t ht => ?_, fun hother => ⟨hrange, ?_⟩, fun _ => ⟨by omega, hrange.2⟩⟩
  · cases ht
    obtain ⟨hless, hnext⟩ := (h.upstream u hu).read_watermark hbuffer
    have hallowed : ¬ t ≤ (u.read (.watermark t) rest).wm := not_le.mpr hless
    have hindex : index ss'.upstreams ss'.nextUpstreamIdx = .ok (u.read (.watermark t) rest) := by
      rw [hset, hcursor]
      exact index_natCast (List.getElem?_set_self hlt)
    refine ⟨{ ss' with
      upstreams := ss'.upstreams.set ss'.nextUpstreamIdx.toNat { u.read (.watermark t) rest with wm := t } }, ?_, ?_, ?_⟩
    · rw [updateWatermark, hindex, ok_bind, check_eq_ok hallowed, ok_bind, pure_eq_ok]
    · simpa using hrange
    · dsimp only
      rw [hset, hcursor, Int.toNat_natCast, List.set_set]
      exact mem_set_of_forall h.upstream hnext j
  · rw [hset]
    refine mem_set_of_forall h.upstream ((h.upstream u hu).read_other hbuffer ?_) j
    cases unit with
    | watermark t => exact absurd rfl (hother t)
    | _ => rfl

theorem Ok.removeUpstream (h : ss.Ok) (hcursor : 0 ≤ ss.nextUpstreamIdx) : Meets Ok ss.removeUpstream := by
  have hrange := h.cursor
  refine .check (fun hbad => ?_) fun _ => .check (fun _ => nofun) fun _ => .ok ⟨?_, fun u hu => ?_⟩
  · omega
  · have hlen : (ss.upstreams.eraseIdx ss.nextUpstreamIdx.toNat).length = ss.upstreams.length - 1 :=
      List.length_eraseIdx_of_lt (by omega)
    dsimp only
    split_ifs <;> omega
  · exact h.upstream u (List.mem_of_mem_eraseIdx hu)

theorem Ok.add (h : ss.Ok) : ({ ss with upstreams := ss.upstreams ++ [.new] } : SubSupplier).Ok := by
  refine ⟨?_, fun u hu => ?_⟩
  · have hcursor := h.cursor
    dsimp only
    rw [List.length_append, List.length_singleton]
    omega
  · rcases List.mem_append.mp hu with hold | hnew
    · exact h.upstream u hold
    · rw [List.mem_singleton.mp hnew]
      exact ⟨rfl, .nil, nofun⟩

end SubSupplier

/-! ## Minima -/

theorem minWM_eq_some {α : Type} {wm : α → Option Int} {xs : List α} {m : Int} (h : minWM wm xs = some m) :
    (∀ x ∈ xs, ∃ t, wm x = some t ∧ m ≤ t) ∧ (m = maxInt64 ∨ ∃ x ∈ xs, wm x = some m) := by
  suffices hloop : ∀ (xs : List α) (m₀ : Int), xs.foldlM (fun curMinWM x => (wm x).map (min curMinWM)) m₀ = some m →
      m ≤ m₀ ∧ (∀ x ∈ xs, ∃ t, wm x = some t ∧ m ≤ t) ∧ (m = m₀ ∨ ∃ x ∈ xs, wm x = some m) from
    (hloop xs maxInt64 h).2
  intro xs
  induction xs with
  | nil =>
    rintro m₀ ⟨⟩
    exact ⟨le_rfl, nofun, .inl rfl⟩
  | cons x xs ih =>
    intro m₀ hfold
    rw [List.foldlM_cons] at hfold
    cases hx : wm x with
    | none => simp [hx] at hfold
    | some t =>
      simp only [hx, Option.map_some, Option.bind_eq_bind, Option.bind_some] at hfold
      obtain ⟨hle, hall, hattained⟩ := ih _ hfold
      refine ⟨hle.trans (min_le_left _ _), fun y hy => ?_, ?_⟩
      · rcases List.mem_cons.mp hy with rfl | hlater
        · exact ⟨t, hx, hle.trans (min_le_right _ _)⟩
        · exact hall y hlater
      · rcases hattained with heq | ⟨y, hy, hym⟩
        · rcases min_choice m₀ t with hmin | hmin
          · exact .inl (heq.trans hmin)
          · exact .inr ⟨x, by simp, by rw [hx, heq, hmin]⟩
        · exact .inr ⟨y, List.mem_cons_of_mem x hy, hym⟩

/-- The upstreams that are connected. -/
def Supplier.connected (s : Supplier) : List Upstream := s.subSuppliers.flatMap SubSupplier.upstreams

/-- Every connected upstream has a watermark, and `t` is the least of them. -/
structure Supplier.AtMinimum (s : Supplier) (t : Int) : Prop where
  deployed : s.taskDeploymentPhasePassed = true
  isSet : ∀ u ∈ s.connected, u.wm ≠ -1
  least : IsLeast {t | ∃ u ∈ s.connected, u.wm = t} t

namespace SubSupplier

theorem getSubSupplierWM_eq_some {ss : SubSupplier} (h : ss.Ok) {m : Int} (hmin : ss.getSubSupplierWM = some m) :
    (∀ u ∈ ss.upstreams, u.wm ≠ -1 ∧ m ≤ u.wm) ∧ ∃ u ∈ ss.upstreams, u.wm = m := by
  unfold getSubSupplierWM at hmin
  split_ifs at hmin with hnil
  obtain ⟨hall, hattained⟩ := minWM_eq_some hmin
  have hle : ∀ u ∈ ss.upstreams, u.wm ≠ -1 ∧ m ≤ u.wm := by
    intro u hu
    obtain ⟨t, ht, hmt⟩ := hall u hu
    split_ifs at ht with hunset
    exact ⟨hunset, Option.some.inj ht ▸ hmt⟩
  refine ⟨hle, ?_⟩
  rcases hattained with hmax | ⟨u, hu, hum⟩
  · obtain ⟨u, hu⟩ := List.exists_mem_of_ne_nil _ hnil
    exact ⟨u, hu, le_antisymm (hmax ▸ (h.upstream u hu).wm_le) (hle u hu).2⟩
  · split_ifs at hum with hunset
    exact ⟨u, hu, Option.some.inj hum⟩

end SubSupplier

/-! ## The supplier -/

namespace Supplier

/-- Everything but the watermarks that went to the task. -/
structure Ok (s : Supplier) : Prop where
  sub : ∀ ss ∈ s.subSuppliers, ss.Ok
  cursor : -1 ≤ s.nextSubSupplierIdx ∧ s.nextSubSupplierIdx < s.subSuppliers.length
  inputs : 0 < s.subSuppliers.length

variable {s s' : Supplier} {i : Nat} {out : Option WorkUnit}

theorem Ok.set (h : s.Ok) {ss : SubSupplier} (hss : ss.Ok) : ({ s with subSuppliers := s.subSuppliers.set i ss } : Supplier).Ok := by
  refine ⟨mem_set_of_forall h.sub hss i, ?_, ?_⟩
  · rw [List.length_set]
    exact h.cursor
  · rw [List.length_set]
    exact h.inputs

/-- What the units of one turn do: the task's watermark moves exactly when one is returned, to the minimum. -/
structure Turn (task : Int) (returned : List Int) (s : Supplier) (out : Option WorkUnit) : Prop where
  ok : s.Ok
  returned_eq : s.returned = returned
  progress : ∀ t, out = some (.watermark t) → task < t ∧ s.taskWatermark = t ∧ s.AtMinimum t
  task_le : task ≤ s.taskWatermark

variable {task : Int} {returned : List Int}

theorem Turn.silent (hout : ∀ t, out ≠ some (.watermark t)) (htask : s.taskWatermark = task)
    (hreturned : s.returned = returned) (h : s.Ok) : Turn task returned s out :=
  ⟨h, hreturned, fun t ht => absurd ht (hout t), htask.ge⟩

theorem Ok.checkTaskWatermarkProgress (h : s.Ok) (hdeployed : s.taskDeploymentPhasePassed = true)
    (htask : s.taskWatermark = task) (hreturned : s.returned = returned) :
    Turn task returned s.checkTaskWatermarkProgress.1 s.checkTaskWatermarkProgress.2 := by
  subst htask hreturned
  unfold Supplier.checkTaskWatermarkProgress
  cases hmin : minWM SubSupplier.getSubSupplierWM s.subSuppliers with
  | none => exact .silent nofun rfl rfl h
  | some m =>
    dsimp only
    split_ifs with hlarger
    · refine ⟨⟨h.sub, h.cursor, h.inputs⟩, rfl, ?_, hlarger.le⟩
      rintro _ ⟨⟩
      obtain ⟨hall, hattained⟩ := minWM_eq_some hmin
      have hle : ∀ u ∈ s.connected, u.wm ≠ -1 ∧ m ≤ u.wm := by
        intro u hu
        obtain ⟨ss, hss, huss⟩ := List.mem_flatMap.mp hu
        obtain ⟨t, ht, hmt⟩ := hall ss hss
        obtain ⟨hunset, htu⟩ := (SubSupplier.getSubSupplierWM_eq_some (h.sub ss hss) ht).1 u huss
        exact ⟨hunset, hmt.trans htu⟩
      have hex : ∃ ss ∈ s.subSuppliers, ss.getSubSupplierWM = some m := by
        rcases hattained with hmax | hex
        · obtain ⟨ss, hss⟩ := List.exists_mem_of_length_pos h.inputs
          obtain ⟨t, ht, hmt⟩ := hall ss hss
          obtain ⟨u, hu, hut⟩ := (SubSupplier.getSubSupplierWM_eq_some (h.sub ss hss) ht).2
          have hmaxle := ((h.sub ss hss).upstream u hu).wm_le
          exact ⟨ss, hss, by rw [ht, le_antisymm hmt (by omega)]⟩
        · exact hex
      obtain ⟨ss, hss, hssm⟩ := hex
      obtain ⟨u, hu, hum⟩ := (SubSupplier.getSubSupplierWM_eq_some (h.sub ss hss) hssm).2
      refine ⟨hlarger, rfl, hdeployed, fun u hu => (hle u hu).1, ⟨u, List.mem_flatMap.mpr ⟨ss, hss, hu⟩, hum⟩, ?_⟩
      rintro _ ⟨u, hu, rfl⟩
      exact (hle u hu).2
    · exact .silent nofun rfl rfl h

variable {ss : SubSupplier}

theorem onSub_set {f : SubSupplier → Outcome Abort SubSupplier} (hi : i < s.subSuppliers.length) :
    ({ s with subSuppliers := s.subSuppliers.set i ss } : Supplier).onSub i f
      = f ss >>= fun ss => .ok { s with subSuppliers := s.subSuppliers.set i ss } := by
  rw [onSub, index_natCast (List.getElem?_set_self hi), ok_bind]
  simp only [List.set_set, pure_eq_ok]

theorem Ok.handleTermination (h : s.Ok) (hi : i < s.subSuppliers.length) (hss : ss.Ok)
    (hcursor : 0 ≤ ss.nextUpstreamIdx) (isPeer : Bool) :
    Meets (fun r => Turn s.taskWatermark s.returned r.1 r.2)
      (({ s with subSuppliers := s.subSuppliers.set i ss } : Supplier).handleTermination i isPeer) := by
  refine .check (fun _ => nofun) fun hdeployed => ?_
  rw [onSub_set hi, bind_bind]
  refine (hss.removeUpstream hcursor).bind fun ss' hss' => ?_
  rw [ok_bind]
  have hok := h.set (i := i) hss'
  split_ifs
  · refine .check (fun _ => nofun) fun _ => .ok ?_
    refine Ok.checkTaskWatermarkProgress ?_ (Bool.of_not_eq_false hdeployed) rfl rfl
    exact ⟨hok.sub, hok.cursor, hok.inputs⟩
  · exact .ok (.silent nofun rfl rfl hok)

theorem Ok.preprocessWorkUnit (h : s.Ok) (hi : i < s.subSuppliers.length) {unit : WorkUnit}
    (hwatermark : ∀ t, unit = .watermark t → ∃ ss', ss.updateWatermark t = .ok ss' ∧ ss'.Ok)
    (hother : (∀ t, unit ≠ .watermark t) → ss.Ok) (hcursor : 0 ≤ ss.nextUpstreamIdx) :
    Meets (fun r => Turn s.taskWatermark s.returned r.1 r.2)
      (({ s with subSuppliers := s.subSuppliers.set i ss } : Supplier).preprocessWorkUnit i unit) := by
  have hset := fun hunit => h.set (i := i) (hother hunit)
  cases unit with
  | batch | metadata => exact .ok (.silent nofun rfl rfl (hset nofun))
  | drainBarrier =>
    have hok := hset nofun
    unfold Supplier.preprocessWorkUnit handleDrainBarrier
    split_ifs
    · exact .ok (.silent nofun rfl rfl ⟨hok.sub, hok.cursor, hok.inputs⟩)
    · exact ⟨.abort nofun, nofun⟩
    · exact .ok (.silent nofun rfl rfl ⟨hok.sub, hok.cursor, hok.inputs⟩)
  | inflightBarrier =>
    have hok := hset nofun
    refine .check (fun _ => nofun) fun _ => ?_
    split_ifs
    · exact .ok (.silent nofun rfl rfl ⟨hok.sub, hok.cursor, hok.inputs⟩)
    · exact .ok (.silent nofun rfl rfl ⟨hok.sub, hok.cursor, hok.inputs⟩)
  | watermark t =>
    obtain ⟨ss', hupdate, hss'⟩ := hwatermark t rfl
    have hok := h.set (i := i) hss'
    dsimp only [Supplier.preprocessWorkUnit, handleWatermark]
    rw [onSub_set hi, hupdate, ok_bind, ok_bind]
    split_ifs with hdeployed
    · exact .ok (hok.checkTaskWatermarkProgress hdeployed rfl rfl)
    · exact .ok (.silent nofun rfl rfl hok)
  | termination isPeer => exact h.handleTermination hi (hother nofun) hcursor isPeer

theorem Ok.getWorkUnit (h : s.Ok) : Meets (fun r => Turn s.taskWatermark s.returned r.1 r.2) s.getWorkUnit := by
  have hcursor := h.cursor
  have hpos := h.inputs
  have hnext : 0 ≤ s.incrementNextSubSupplierIdx.nextSubSupplierIdx ∧
      s.incrementNextSubSupplierIdx.nextSubSupplierIdx < s.subSuppliers.length := by
    unfold incrementNextSubSupplierIdx
    dsimp only
    split_ifs <;> omega
  have hok : s.incrementNextSubSupplierIdx.Ok := ⟨h.sub, ⟨by omega, hnext.2⟩, hpos⟩
  obtain ⟨ss, hss, -, hindex⟩ := index_ok hnext.1 hnext.2
  obtain ⟨ss', out, hread, hwatermark, hother, hrange⟩ := (h.sub ss hss).getWorkUnit
  unfold Supplier.getWorkUnit
  have hindex' : index s.incrementNextSubSupplierIdx.subSuppliers s.incrementNextSubSupplierIdx.nextSubSupplierIdx
      = .ok ss := hindex
  simp only [hindex', hread, ok_bind]
  cases out with
  | none => exact .ok (.silent nofun rfl rfl (hok.set (hother nofun)))
  | some unit =>
    have hi : s.incrementNextSubSupplierIdx.nextSubSupplierIdx.toNat < s.subSuppliers.length := by omega
    exact hok.preprocessWorkUnit hi (fun t ht => hwatermark t (congrArg some ht))
      (fun hunit => hother fun t ht => hunit t (Option.some.inj ht)) (hrange nofun).1

end Supplier

/-! ## Runs -/

/-- Watermarks are `int64`s above -1, and each is above the earlier ones of its channel. -/
def Punctual (s : Supplier) : Action → Prop
  | .arrive i j unit => ∀ t ss u, unit.timestamp? = some t → s.subSuppliers[i]? = some ss → ss.upstreams[j]? = some u →
      (-1 < t ∧ t ≤ maxInt64) ∧ ∀ t' ∈ timestamps (u.received ++ u.inputBuffer), t' < t
  | _ => True

structure Inv (s : Supplier) : Prop where
  ok : s.Ok
  increasing : s.returned.Pairwise (· > ·)
  below : ∀ t ∈ s.returned, t ≤ s.taskWatermark

variable {s : Supplier}

theorem Upstream.Ok.arrive {u : Upstream} (h : u.Ok) {unit : WorkUnit} (hunit : ∀ t, unit.timestamp? = some t →
      (-1 < t ∧ t ≤ maxInt64) ∧ ∀ t' ∈ timestamps (u.received ++ u.inputBuffer), t' < t) :
    ({ u with inputBuffer := u.inputBuffer ++ [unit] } : Upstream).Ok := by
  have hall : timestamps (u.received ++ (u.inputBuffer ++ [unit]))
      = timestamps (u.received ++ u.inputBuffer) ++ unit.timestamp?.toList := by
    cases ht : unit.timestamp? <;> simp [timestamps, ht]
  refine ⟨h.credited, ?_, fun t ht => ?_⟩
  · rw [hall, List.pairwise_append]
    refine ⟨h.increasing, ?_, fun t' ht' t ht => (hunit t (Option.mem_toList.mp ht)).2 t' ht'⟩
    cases unit.timestamp? <;> simp
  · rcases List.mem_append.mp (hall ▸ ht) with hold | hnew
    · exact h.int64 t hold
    · exact (hunit t (Option.mem_toList.mp hnew)).1

theorem Supplier.Ok.initNewUpstream (h : s.Ok) (i : Nat) (isPeer : Bool) :
    Meets (fun s' => s'.Ok ∧ s'.returned = s.returned ∧ s'.taskWatermark = s.taskWatermark)
      (s.initNewUpstream i isPeer) := by
  refine .check (fun _ => nofun) fun hi => ?_
  have hget : s.subSuppliers[i]? = some (s.subSuppliers[i]) := List.getElem?_eq_getElem (by omega)
  have hok := h.set (i := i) (h.sub _ (List.mem_of_getElem? hget)).add
  rw [Supplier.onSub, index_natCast hget, ok_bind, ok_bind, pure_eq_ok, ok_bind]
  cases isPeer with
  | false => exact .ok ⟨⟨hok.sub, hok.cursor, hok.inputs⟩, rfl, rfl⟩
  | true => exact .check (fun _ => nofun) fun _ => .ok ⟨⟨hok.sub, hok.cursor, hok.inputs⟩, rfl, rfl⟩

theorem Supplier.Ok.arrive (h : s.Ok) {i j : Nat} {unit : WorkUnit} (hguard : Punctual s (.arrive i j unit)) :
    Meets (fun s' => s'.Ok ∧ s'.returned = s.returned ∧ s'.taskWatermark = s.taskWatermark) (s.arrive i j unit) := by
  unfold Supplier.arrive
  cases hss : s.subSuppliers[i]? with
  | none => exact ⟨.stuck, nofun⟩
  | some ss =>
    dsimp only
    cases hu : ss.upstreams[j]? with
    | none => exact ⟨.stuck, nofun⟩
    | some u =>
      have hold := h.sub ss (List.mem_of_getElem? hss)
      have hnew : ({ u with inputBuffer := u.inputBuffer ++ [unit] } : Upstream).Ok :=
        (hold.upstream u (List.mem_of_getElem? hu)).arrive fun t ht => hguard t ss u ht hss hu
      refine .ok ⟨h.set ⟨?_, mem_set_of_forall hold.upstream hnew j⟩, rfl, rfl⟩
      rw [List.length_set]
      exact hold.cursor

/-- **One step** keeps the bookkeeping, and what it returns is the minimum. -/
theorem Inv.step (h : Inv s) {a : Action} (hguard : Punctual s a) :
    Meets (fun s' => Inv s' ∧ ∀ t, s'.returned = t :: s.returned → s'.AtMinimum t) (step s a) := by
  have hkeep : ∀ s' : Supplier, s'.Ok ∧ s'.returned = s.returned ∧ s'.taskWatermark = s.taskWatermark →
      Inv s' ∧ ∀ t, s'.returned = t :: s.returned → s'.AtMinimum t := by
    rintro s' ⟨hok, hreturned, htask⟩
    refine ⟨⟨hok, hreturned ▸ h.increasing, fun t ht => htask ▸ h.below t (hreturned ▸ ht)⟩, fun t ht => ?_⟩
    rw [hreturned] at ht
    exact absurd ht.symm (List.cons_ne_self t _)
  cases a with
  | connect i isPeer =>
    have hmeets := h.ok.initNewUpstream i isPeer
    exact ⟨hmeets.1, fun s' hs' => hkeep s' (hmeets.2 s' hs')⟩
  | arrive i j unit =>
    have hmeets := h.ok.arrive hguard
    exact ⟨hmeets.1, fun s' hs' => hkeep s' (hmeets.2 s' hs')⟩
  | initLazyReconfig barriers peers =>
    exact .check (fun _ => nofun) fun _ => .check (fun _ => nofun) fun _ =>
      .ok (hkeep _ ⟨⟨h.ok.sub, h.ok.cursor, h.ok.inputs⟩, rfl, rfl⟩)
  | notifyShuttingDown =>
    refine .ok (hkeep _ ⟨⟨fun ss hss => ?_, ?_, ?_⟩, rfl, rfl⟩)
    · obtain ⟨ss, hmem, rfl⟩ := List.mem_map.mp hss
      exact ⟨(h.ok.sub ss hmem).cursor, (h.ok.sub ss hmem).upstream⟩
    · simpa [Supplier.notifyShuttingDown] using h.ok.cursor
    · simpa [Supplier.notifyShuttingDown] using h.ok.inputs
  | getWorkUnit =>
    refine h.ok.getWorkUnit.bind fun ⟨s', out⟩ hturn => ?_
    have hquiet : Inv s' ∧ ∀ t, s'.returned = t :: s.returned → s'.AtMinimum t := by
      refine ⟨⟨hturn.ok, hturn.returned_eq ▸ h.increasing, fun t ht => ?_⟩, fun t ht => ?_⟩
      · exact (h.below t (hturn.returned_eq ▸ ht)).trans hturn.task_le
      · exact absurd (hturn.returned_eq.symm.trans ht).symm (List.cons_ne_self t _)
    match out with
    | some (.watermark t) =>
      obtain ⟨hlarger, htask, hmin⟩ := hturn.progress t rfl
      have hreturned : s'.returned = s.returned := hturn.returned_eq
      refine .ok ⟨⟨⟨hturn.ok.sub, hturn.ok.cursor, hturn.ok.inputs⟩, ?_, ?_⟩, fun t' ht' => ?_⟩
      · dsimp only
        rw [hreturned, List.pairwise_cons]
        exact ⟨fun t' ht' => (h.below t' ht').trans_lt hlarger, h.increasing⟩
      · dsimp only
        rw [hreturned]
        rintro t' (_ | ⟨_, ht'⟩)
        · exact htask.ge
        · exact ((h.below t' ht').trans_lt hlarger).le.trans htask.ge
      · obtain rfl := (List.cons.inj ht').1
        exact ⟨hmin.deployed, hmin.isSet, hmin.least⟩
    | none | some .batch | some .metadata | some .drainBarrier | some .inflightBarrier | some (.termination _) =>
      exact .ok hquiet

theorem Inv.of_run (hrun : machine.Run Punctual s) : Inv s := by
  refine hrun.invariant Inv ?_ fun s a s' _ hinv hguard hstep => ((hinv.step hguard).2 s' hstep).1
  rintro s ⟨inputs, expected, warmUp, hpos, rfl⟩
  refine ⟨⟨fun ss hss => ?_, ?_, by simpa [Supplier.setup] using hpos⟩, .nil, nofun⟩
  · obtain rfl := List.eq_of_mem_replicate hss
    exact ⟨⟨le_rfl, by simp⟩, nofun⟩
  · simp only [Supplier.setup, List.length_replicate]
    omega

/-- **The task's watermark.**  In every run with punctual channels: every channel has the watermark that was read from
it last; the watermarks that went to the task increase; a watermark is only returned after deployment, when every
connected upstream has one, and it is their minimum; a scan reaches every channel and misses no unit; and the supplier
does not lose track of its channels. -/
theorem taskWatermark_sound (hrun : machine.Run Punctual s) :
    (∀ u ∈ s.connected, u.wm = lastWatermark u.received) ∧ s.returned.Pairwise (· > ·) ∧
    (∀ a s' t, Punctual s a → step s a = .ok s' → s'.returned = t :: s.returned → s'.AtMinimum t) ∧
    (∀ ss ∈ s.subSuppliers, (∀ j < ss.upstreams.length, (j : Int) ∈ ss.visits ss.upstreams.length) ∧
      ∀ ss', ss.getWorkUnit = .ok (ss', none) → ∀ u ∈ ss.upstreams, u.inputBuffer = []) ∧
    ∀ a e, Punctual s a → step s a = .abort e → ¬ e.Internal := by
  have hinv := Inv.of_run hrun
  refine ⟨fun u hu => ?_, hinv.increasing, fun a s' t hguard hstep => ((hinv.step hguard).2 s' hstep).2 t,
    fun ss hss => ?_, fun a e hguard => (hinv.step hguard).1 e⟩
  · obtain ⟨ss, hss, huss⟩ := List.mem_flatMap.mp hu
    exact ((hinv.ok.sub ss hss).upstream u huss).credited
  · have hok := hinv.ok.sub ss hss
    have hvisits : ∀ j < ss.upstreams.length, (j : Int) ∈ ss.visits ss.upstreams.length := fun j hj => by
      have hcursor := hok.cursor
      refine SubSupplier.mem_visits hok hj ?_
      split_ifs <;> omega
    refine ⟨hvisits, fun ss' hscan u hu => ?_⟩
    obtain ⟨j, hj, rfl⟩ := List.mem_iff_getElem.mp hu
    exact SubSupplier.scan_none hscan (hvisits j hj) (List.getElem?_eq_getElem hj)

/-- A task with one upstream returns that upstream's first watermark. -/
theorem taskWatermark_sound_first :
    ∃ s, machine.Run Punctual s ∧ s.returned = [5] ∧ s.returned.Pairwise (· > ·) := by
  have hconnect : machine.Run Punctual _ := .step (.start ⟨1, 1, false, by decide, rfl⟩) (a := .connect 0 false) trivial rfl
  have harrive : machine.Run Punctual _ := .step hconnect (a := .arrive 0 0 (.watermark 5)) (by
    rintro t ss u ht hss hu
    cases ht
    cases hss
    cases hu
    exact ⟨by decide, nofun⟩) rfl
  have hreturn : machine.Run Punctual _ := .step harrive (a := .getWorkUnit) trivial rfl
  exact ⟨_, hreturn, rfl, (taskWatermark_sound hreturn).2.1⟩

end Supply
end Koala
