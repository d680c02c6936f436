import Koala.Lib.Machine
import Koala.Metadata.Transfer

/-!
# Moving metadata between the workers of an operator

When the buckets of an operator are reassigned, the old owners extract the entries of the keys they lose and the new
owners insert them.  Extractions and insertions interleave in any order, and a worker can be sender and receiver at the
same time.

A `Path` is a way to do this, and `Laws` says what the two ways of the program have in common.  From it follows what
becomes of the entries: each of them ends up at the owner of its key, exactly as it was, unless its key does not survive
JSON or a text is too long for its frame (`transfers_iff`).
-/

namespace Koala
namespace Metadata

open Lib Lib.Outcome Lib.Json Network Setting
open Function (update update_self update_of_ne)
open Partition (WorkerID)
open VisitOrder (asListed)

/-- How the metadata of an operator moves: its extractions, who makes them, and what they and the insertions do. -/
structure Path (cfg : Setting) where
  Job : Type
  [decEqJob : DecidableEq Job]
  jobs : List Job
  sender : Job → WorkerID
  extract : Job → cfg.Order → (WorkerID → cfg.Doc) → cfg.Index →
    Outcome MetadataAbort (GoMap WorkerID Bytes × cfg.Index)
  insert : cfg.WireOrder → Bytes → cfg.Index → Outcome MetadataAbort cfg.Index

namespace Path

variable {cfg : Setting} (path : Path cfg)

instance : DecidableEq path.Job := path.decEqJob

/-- The indexes of the workers, the extractions that have been made, and the messages under way. -/
structure Transfer where
  index : WorkerID → cfg.Index
  taken : path.Job → Bool
  flight : GoMap (WorkerID × WorkerID) Bytes

inductive Action where
  | extract (j : path.Job) (order : cfg.Order) (listing : WorkerID → cfg.Doc)
  | insert (src dst : WorkerID) (order : cfg.WireOrder)

/-- The messages of a worker are sent. -/
def send (src : WorkerID) (messages : GoMap WorkerID Bytes) (flight : GoMap (WorkerID × WorkerID) Bytes) :
    GoMap (WorkerID × WorkerID) Bytes :=
  messages.pairs.foldl (fun flight e => flight.set (src, e.1) e.2) flight

def step (st : path.Transfer) : path.Action → Outcome MetadataAbort path.Transfer
  | .extract j order listing =>
    if j ∈ path.jobs ∧ st.taken j = false then do
      let (messages, index) ← path.extract j order listing (st.index (path.sender j))
      pure ⟨update st.index (path.sender j) index, update st.taken j true, send (path.sender j) messages st.flight⟩
    else .stuck
  | .insert src dst order =>
    match st.flight.get (src, dst) with
    | some message => do
      let index ← path.insert order message (st.index dst)
      pure ⟨update st.index dst index, st.taken, st.flight.delete (src, dst)⟩
    | none => .stuck

/-- The transfers from given indexes. -/
def machine (index : WorkerID → cfg.Index) : Machine path.Transfer path.Action MetadataAbort where
  init st := st = ⟨index, fun _ => false, ∅⟩
  step := path.step

/-- All extractions and insertions have been made. -/
def Done (st : path.Transfer) : Prop := (∀ j ∈ path.jobs, st.taken j = true) ∧ ∀ src dst, st.flight.get (src, dst) = none

end Path

/-- What a protocol has to do about keys that move from their homes to their owners. -/
structure Laws {cfg : Setting} (path : Path cfg) (home owner : cfg.Key → WorkerID) where
  /-- The extraction that takes the keys that go from one worker to another. -/
  jobOf : WorkerID → WorkerID → path.Job
  dest : path.Job → cfg.Key → Option WorkerID
  wrap : Bytes → Bytes
  fits : Bytes → Prop
  failed : MetadataAbort
  extracts : ∀ j, Extracts (dest j) wrap (path.extract j)
  inserts : Inserts cfg wrap fits failed path.insert
  sender_jobOf : ∀ s d, path.sender (jobOf s d) = s
  dest_jobOf : ∀ k, home k ≠ owner k → dest (jobOf (home k) (owner k)) k = some (owner k)
  dest_eq : ∀ j k d, dest j k = some d →
    d = owner k ∧ d ≠ path.sender j ∧ (path.sender j = home k → j = jobOf (home k) d)
  jobOf_mem : ∀ k, home k ≠ owner k → jobOf (home k) (owner k) ∈ path.jobs
  sent : ∀ j order listing index messages index' d, GoodIndex cfg.op index →
    path.extract j order listing index = .ok (messages, index') → messages.get d ≠ none →
    jobOf (path.sender j) d = j ∧ ((∃ t k, content cfg (dest j) index d t k ≠ none) ∨ ∀ text, fits text)

/-- The indexes before a transfer: each key is at its home. -/
structure Placement (cfg : Setting) (home : cfg.Key → WorkerID) where
  index : WorkerID → cfg.Index
  good : ∀ w, GoodIndex cfg.op (index w)
  placed : ∀ w t k, (index w).get t k ≠ none → home k = w

section

variable {cfg : Setting} {path : Path cfg} {home owner : cfg.Key → WorkerID}

/-- Each entry is at the owner of its key, as it was, and nowhere else. -/
def Exact (owner : cfg.Key → WorkerID) (p : Placement cfg home) (index : WorkerID → cfg.Index) : Prop :=
  ∀ w t k, (index w).get t k = if w = owner k then (p.index (home k)).get t k else none

/-- What goes from one worker to another. -/
def moved (owner : cfg.Key → WorkerID) (p : Placement cfg home) (s d : WorkerID) (t : Int64) (k : cfg.Key) :
    Option cfg.ix.Entry :=
  if home k = s ∧ owner k = d ∧ s ≠ d then (p.index s).get t k else none

/-- All keys that move survive JSON, and the texts fit. -/
def Transferable (fits : Bytes → Prop) (owner : cfg.Key → WorkerID) (p : Placement cfg home) : Prop :=
  (∀ t k, (p.index (home k)).get t k ≠ none → home k ≠ owner k → isJsonKey cfg.kind = true ∧ jsonKey cfg.kind k = k) ∧
    ∀ s d (doc : cfg.Doc), doc.Describes (fun t k => (moved owner p s d t k).map (cfg.op.toWire cfg.Key)) → doc ≠ [] →
      fits (cfg.json.print doc)

theorem get_send (src : WorkerID) (messages : GoMap WorkerID Bytes) (flight : GoMap (WorkerID × WorkerID) Bytes)
    (s d : WorkerID) : (Path.send src messages flight).get (s, d)
      = if s = src then ((messages.get d).or (flight.get (s, d))) else flight.get (s, d) := by
  have hkeys : (messages.pairs.map fun e => (src, e.1)).Nodup := by
    have hnodup := AList.keys_nodup messages
    rw [← GoMap.pairs_map_fst] at hnodup
    have hmap := hnodup.map (f := fun d => (src, d)) fun _ _ h => (Prod.mk.inj h).2
    rwa [List.map_map] at hmap
  unfold Path.send
  by_cases hsent : s = src ∧ (messages.get d).isSome
  · obtain ⟨rfl, hsome⟩ := hsent
    obtain ⟨message, hmessage⟩ := Option.isSome_iff_exists.mp hsome
    have hget := GoMap.get_foldl_set (fun e : WorkerID × Bytes => (s, e.1)) Prod.snd messages.pairs hkeys flight
      (d, message) ((GoMap.mem_pairs _ _ _).mpr hmessage)
    rw [if_pos rfl, hmessage, Option.some_or]
    exact hget
  · have hget := GoMap.get_foldl_set_of_notMem (fun e : WorkerID × Bytes => (src, e.1)) Prod.snd messages.pairs flight
      (s, d) (by
        rintro hin
        obtain ⟨e, he, heq⟩ := List.mem_map.mp hin
        obtain ⟨rfl, rfl⟩ := Prod.mk.inj heq
        exact hsent ⟨rfl, by rw [(GoMap.mem_pairs _ _ _).mp he]; rfl⟩)
    rw [hget]
    split_ifs with hs
    · rw [Option.not_isSome_iff_eq_none.mp fun hsome => hsent ⟨hs, hsome⟩, Option.none_or]
    · rfl

/-! ## Runs in which all keys survive -/

/-- The entries of a key are at this worker: at its home until they are extracted, at its owner once they are
inserted. -/
def Here (laws : Laws path home owner) (st : path.Transfer) (w : WorkerID) (k : cfg.Key) : Prop :=
  (w = home k ∧ (home k = owner k ∨ st.taken (laws.jobOf (home k) (owner k)) = false)) ∨
    (w = owner k ∧ home k ≠ owner k ∧ st.taken (laws.jobOf (home k) (owner k)) = true ∧
      st.flight.get (home k, owner k) = none)

/-- Where the entries are during a transfer. -/
structure Inv (laws : Laws path home owner) (p : Placement cfg home) (st : path.Transfer) : Prop where
  here : ∀ w t k, Here laws st w k → (st.index w).get t k = (p.index (home k)).get t k
  gone : ∀ w t k, ¬ Here laws st w k → (st.index w).get t k = none
  flight_eq : ∀ s d message, st.flight.get (s, d) = some message → st.taken (laws.jobOf s d) = true ∧
    ∃ doc : cfg.Doc, message = laws.wrap (cfg.json.print doc) ∧
      (doc.Describes fun t k => (moved owner p s d t k).map (cfg.op.toWire cfg.Key)) ∧
      (doc ≠ [] ∨ ∀ text, laws.fits text)

variable {laws : Laws path home owner} {p : Placement cfg home} {st : path.Transfer}

theorem inv_init : Inv laws p ⟨p.index, fun _ => false, ∅⟩ := by
  refine ⟨fun w t k hhere => ?_, fun w t k hhere => ?_, nofun⟩
  · rcases hhere with ⟨rfl, -⟩ | ⟨-, -, htaken, -⟩
    · rfl
    · cases htaken
  · by_contra hne
    exact hhere (.inl ⟨(p.placed w t k hne).symm, .inr rfl⟩)

theorem Inv.good (h : Inv laws p st) (w : WorkerID) : GoodIndex cfg.op (st.index w) := by
  intro t k v hget
  by_cases hhere : Here laws st w k
  · rw [h.here w t k hhere] at hget
    exact p.good _ t k v hget
  · rw [h.gone w t k hhere] at hget
    cases hget

variable {j : path.Job} {d : WorkerID}

theorem Inv.content_eq (h : Inv laws p st) (htaken : st.taken j = false) (hjob : laws.jobOf (path.sender j) d = j) :
    content cfg (laws.dest j) (st.index (path.sender j)) d
      = fun t k => (moved owner p (path.sender j) d t k).map (cfg.op.toWire cfg.Key) := by
  funext t k
  unfold content moved
  by_cases hmoves : home k = path.sender j ∧ owner k = d ∧ path.sender j ≠ d
  · obtain ⟨hhome, howner, hne⟩ := hmoves
    have hjob' : laws.jobOf (home k) (owner k) = j := by rw [hhome, howner, hjob]
    have hdest : laws.dest j k = some d := by
      have hdest := laws.dest_jobOf k (by rw [hhome, howner]; exact hne)
      rwa [hjob', howner] at hdest
    have hhere : Here laws st (path.sender j) k := .inl ⟨hhome.symm, .inr (by rw [hjob']; exact htaken)⟩
    rw [if_pos hdest, if_pos ⟨hhome, howner, hne⟩, h.here _ _ _ hhere, hhome]
  · rw [if_neg hmoves]
    split_ifs with hdest
    · -- a key of another home is not here any more, or not yet
      obtain ⟨hd, hne, -⟩ := laws.dest_eq j k d hdest
      rw [h.gone]
      rintro (⟨hhome, -⟩ | ⟨howner, -⟩)
      · exact hmoves ⟨hhome.symm, hd.symm, Ne.symm hne⟩
      · exact hne (hd.trans howner.symm)
    · rfl

variable {index' : cfg.Index} {messages : GoMap WorkerID Bytes} {listing : WorkerID → cfg.Doc} {order : cfg.Order}

/-- **An extraction** keeps the account. -/
theorem Inv.extract (h : Inv laws p st) (htaken : st.taken j = false)
    (hextract : path.extract j order listing (st.index (path.sender j)) = .ok (messages, index')) :
    Inv laws p ⟨update st.index (path.sender j) index', update st.taken j true,
      Path.send (path.sender j) messages st.flight⟩ := by
  have hextracted := (laws.extracts j).of_ok _ _ _ _ _ (h.good _) hextract
  have hsent : ∀ d message, messages.get d = some message → laws.jobOf (path.sender j) d = j := fun d message hd =>
    (laws.sent j order listing _ messages index' d (h.good _) hextract (by rw [hd]; simp)).1
  have hindex : ∀ w t k, home k ≠ owner k → laws.jobOf (home k) (owner k) = j →
      (update st.index (path.sender j) index' w).get t k = none := by
    -- the key is extracted now, so it is nowhere
    intro w t k hne hjob
    have hhome : path.sender j = home k := by rw [← hjob, laws.sender_jobOf]
    have hdest : laws.dest j k = some (owner k) := hjob ▸ laws.dest_jobOf k hne
    by_cases hw : w = path.sender j
    · rw [hw, update_self, hextracted.kept, if_neg (by rw [hdest]; simp)]
    · rw [update_of_ne hw, h.gone]
      rintro (⟨hleft, -⟩ | ⟨-, -, htrue, -⟩)
      · exact hw (hleft.trans hhome.symm)
      · rw [hjob, htaken] at htrue
        cases htrue
  have hrest : ∀ w t k, ¬ (home k ≠ owner k ∧ laws.jobOf (home k) (owner k) = j) →
      (update st.index (path.sender j) index' w).get t k = (st.index w).get t k := by
    -- it stays where it is, or has been extracted before
    intro w t k hgoes
    by_cases hw : w = path.sender j
    · rw [hw, update_self, hextracted.kept]
      split_ifs with hdest
      · rfl
      · obtain ⟨d, hd⟩ := Option.ne_none_iff_exists'.mp hdest
        obtain ⟨howner, hne, hjob⟩ := laws.dest_eq j k d hd
        rw [h.gone]
        rintro (⟨hs, -⟩ | ⟨hs, -⟩)
        · refine hgoes ⟨fun heq => hne ?_, ?_⟩
          · rw [howner, ← heq, hs]
          · rw [← howner]
            exact (hjob hs).symm
        · exact hne (howner.trans hs.symm)
    · rw [update_of_ne hw]
  have hhere : ∀ w k, ¬ (home k ≠ owner k ∧ laws.jobOf (home k) (owner k) = j) →
      (Here laws ⟨update st.index (path.sender j) index', update st.taken j true,
        Path.send (path.sender j) messages st.flight⟩ w k ↔ Here laws st w k) := by
    intro w k hgoes
    unfold Here
    by_cases heq : home k = owner k
    · simp only [heq, true_or, and_true, ne_eq, not_true_eq_false, false_and, and_false, or_false]
    · have hjob : laws.jobOf (home k) (owner k) ≠ j := fun hjob => hgoes ⟨heq, hjob⟩
      have hflight : (Path.send (path.sender j) messages st.flight).get (home k, owner k)
          = st.flight.get (home k, owner k) := by
        rw [get_send]
        split_ifs with hs
        · cases hmessage : messages.get (owner k) with
          | none => rw [Option.none_or]
          | some message => exact absurd (hs ▸ hsent (owner k) message hmessage) hjob
        · rfl
      simp only [update_of_ne hjob, hflight]
  refine ⟨fun w t k hhere' => ?_, fun w t k hhere' => ?_, fun s d message hmessage => ?_⟩
  · by_cases hgoes : home k ≠ owner k ∧ laws.jobOf (home k) (owner k) = j
    · -- extracted without a message to the owner: there was nothing to send
      obtain ⟨hne, hjob⟩ := hgoes
      have hhome : path.sender j = home k := by rw [← hjob, laws.sender_jobOf]
      have hdest : laws.dest j k = some (owner k) := hjob ▸ laws.dest_jobOf k hne
      have hflight : (Path.send (path.sender j) messages st.flight).get (home k, owner k) = none := by
        rcases hhere' with ⟨-, heq | hfalse⟩ | ⟨-, -, -, hflight⟩
        · exact absurd heq hne
        · rw [hjob] at hfalse
          exact absurd ((update_self j true st.taken).symm.trans hfalse) (by simp)
        · exact hflight
      rw [get_send, if_pos hhome.symm, Option.or_eq_none_iff] at hflight
      have hnone := hextracted.unsent (owner k) hflight.1 t k
      have hthere : Here laws st (path.sender j) k := .inl ⟨hhome, .inr (hjob ▸ htaken)⟩
      rw [content, if_pos hdest, h.here _ _ _ hthere, Option.map_eq_none_iff] at hnone
      rw [hnone]
      exact hindex w t k hne hjob
    · exact (hrest w t k hgoes).trans (h.here w t k ((hhere w k hgoes).mp hhere'))
  · by_cases hgoes : home k ≠ owner k ∧ laws.jobOf (home k) (owner k) = j
    · exact hindex w t k hgoes.1 hgoes.2
    · exact (hrest w t k hgoes).trans (h.gone w t k (mt (hhere w k hgoes).mpr hhere'))
  · dsimp only at hmessage ⊢
    rw [get_send] at hmessage
    by_cases hnew : s = path.sender j ∧ (messages.get d).isSome
    · obtain ⟨rfl, hsome⟩ := hnew
      obtain ⟨message', hmessage'⟩ := Option.isSome_iff_exists.mp hsome
      rw [if_pos rfl, hmessage', Option.some_or] at hmessage
      obtain rfl := Option.some.inj hmessage
      obtain ⟨doc, hdoc, hdescribes⟩ := hextracted.sent d message' hmessage'
      have hjob := hsent d message' hmessage'
      refine ⟨by rw [hjob, update_self], doc, hdoc, h.content_eq htaken hjob ▸ hdescribes, ?_⟩
      refine (laws.sent j order listing _ messages index' d (h.good _) hextract (by rw [hmessage']; simp)).2.imp_left ?_
      rintro ⟨t, k, hcontent⟩ hnil
      obtain ⟨w, hw⟩ := Option.ne_none_iff_exists'.mp hcontent
      have hin := (hdescribes.mem_iff t k w).mpr hw
      rw [hnil] at hin
      cases hin
    · have hold : st.flight.get (s, d) = some message := by
        split_ifs at hmessage with hs
        · rwa [Option.not_isSome_iff_eq_none.mp fun hsome => hnew ⟨hs, hsome⟩, Option.none_or] at hmessage
        · exact hmessage
      obtain ⟨hjob, hdoc⟩ := h.flight_eq s d message hold
      refine ⟨?_, hdoc⟩
      by_cases heq : laws.jobOf s d = j
      · rw [heq, update_self]
      · rw [update_of_ne heq, hjob]

variable {s : WorkerID} {message : Bytes}

theorem Inv.arrives (h : Inv laws p st) (htransferable : Transferable laws.fits owner p)
    (hmessage : st.flight.get (s, d) = some message) (order : cfg.WireOrder) (index : cfg.Index) :
    ∃ received : NestedMap Int64 cfg.Key cfg.ix.Wire,
      path.insert order message index = .ok (cfg.insertAll order received index) ∧
      ∀ t k, received.get t k = (moved owner p s d t k).map (cfg.op.toWire cfg.Key) := by
  obtain ⟨-, doc, rfl, hdescribes, hlength⟩ := h.flight_eq s d message hmessage
  -- a member is an entry of a key that moves
  have hmember : ∀ t k w, (t, k, w) ∈ doc.members → isJsonKey cfg.kind = true ∧ jsonKey cfg.kind k = k := by
    intro t k w hin
    have hsome := (hdescribes.mem_iff t k w).mp hin
    obtain ⟨v, hv, -⟩ := Option.map_eq_some_iff.mp hsome
    unfold moved at hv
    split_ifs at hv with hmoves
    obtain ⟨rfl, rfl, hne⟩ := hmoves
    exact htransferable.1 t k (by rw [hv]; simp) hne
  have hkeys : doc.mapKeys (jsonKey cfg.kind) = doc := Doc.mapKeys_eq_self fun t k w hin => (hmember t k w hin).2
  refine ⟨doc.toMap, ?_, hdescribes.get_toMap⟩
  have hfits : laws.fits (cfg.json.print doc) :=
    hlength.elim (htransferable.2 s d doc hdescribes) fun hall => hall _
  have haccepted : isJsonKey cfg.kind = true ∨ doc = [] := by
    refine or_iff_not_imp_right.mpr fun hnil => ?_
    obtain ⟨e, he⟩ := List.exists_mem_of_ne_nil _ hnil
    obtain ⟨q, hq⟩ := List.exists_mem_of_ne_nil _ (hdescribes.ne_nil e he)
    exact (hmember e.1 q.1 q.2 (Doc.mem_members.mpr ⟨e.2, he, hq⟩)).1
  have hinsert := (laws.inserts order doc index).1 hfits haccepted
  rwa [hkeys] at hinsert

/-- **An insertion** keeps the account. -/
theorem Inv.insert (h : Inv laws p st) (hmessage : st.flight.get (s, d) = some message) (order : cfg.WireOrder)
    {received : NestedMap Int64 cfg.Key cfg.ix.Wire}
    (hreceived : ∀ t k, received.get t k = (moved owner p s d t k).map (cfg.op.toWire cfg.Key)) :
    Inv laws p ⟨update st.index d (cfg.insertAll order received (st.index d)), st.taken,
      st.flight.delete (s, d)⟩ := by
  obtain ⟨htaken, -⟩ := h.flight_eq s d message hmessage
  -- the entries in the message are not at its destination yet
  have habsent : ∀ t k, home k = s → owner k = d → s ≠ d → (st.index d).get t k = none := by
    rintro t k rfl rfl hne
    refine h.gone _ t k ?_
    rintro (⟨heq, -⟩ | ⟨-, -, -, hnone⟩)
    · exact hne heq.symm
    · rw [hmessage] at hnone
      cases hnone
  have hadded : ∀ t k, (cfg.insertAll order received (st.index d)).get t k
      = (moved owner p s d t k).or ((st.index d).get t k) := by
    refine get_insertAll hreceived (fun t k v hv => ?_) (fun t k hne => ?_) order
    · unfold moved at hv
      split_ifs at hv
      exact p.good s t k v hv
    · unfold moved at hne
      split_ifs at hne with hmoves
      · exact habsent t k hmoves.1 hmoves.2.1 hmoves.2.2
      · exact absurd rfl hne
  have hother : ∀ w t k, ¬ (home k = s ∧ owner k = d ∧ s ≠ d) →
      (update st.index d (cfg.insertAll order received (st.index d)) w).get t k = (st.index w).get t k := by
    intro w t k hmoves
    by_cases hw : w = d
    · rw [hw, update_self, hadded, moved, if_neg hmoves, Option.none_or]
    · rw [update_of_ne hw]
  have hhere : ∀ w k, ¬ (home k = s ∧ owner k = d ∧ s ≠ d) →
      (Here laws ⟨update st.index d (cfg.insertAll order received (st.index d)), st.taken,
        st.flight.delete (s, d)⟩ w k ↔ Here laws st w k) := by
    intro w k hmoves
    unfold Here
    by_cases heq : home k = owner k
    · simp only [heq, true_or, and_true, ne_eq, not_true_eq_false, false_and, and_false, or_false]
    · have hne : (home k, owner k) ≠ (s, d) := by
        rintro hpair
        obtain ⟨rfl, rfl⟩ := Prod.mk.inj hpair
        exact hmoves ⟨rfl, rfl, heq⟩
      simp only [GoMap.get_delete_ne _ hne]
  refine ⟨fun w t k hhere' => ?_, fun w t k hhere' => ?_, fun s' d' message' hmessage' => ?_⟩
  · by_cases hmoves : home k = s ∧ owner k = d ∧ s ≠ d
    · obtain ⟨rfl, rfl, hne⟩ := hmoves
      have hw : w = owner k := by
        rcases hhere' with ⟨-, heq | hfalse⟩ | ⟨hw, -⟩
        · exact absurd heq hne
        · exact absurd (htaken.symm.trans hfalse) (by simp)
        · exact hw
      show (update st.index (owner k) _ w).get t k = _
      rw [hw, update_self, hadded, moved, if_pos ⟨rfl, rfl, hne⟩, habsent t k rfl rfl hne, Option.or_none]
    · exact (hother w t k hmoves).trans (h.here w t k ((hhere w k hmoves).mp hhere'))
  · by_cases hmoves : home k = s ∧ owner k = d ∧ s ≠ d
    · obtain ⟨rfl, rfl, hne⟩ := hmoves
      have hw : w ≠ owner k := fun hw => hhere' (.inr ⟨hw, hne, htaken, GoMap.get_delete_self _ _⟩)
      show (update st.index (owner k) _ w).get t k = _
      rw [update_of_ne hw, h.gone]
      rintro (⟨-, heq | hfalse⟩ | ⟨hw', -⟩)
      · exact hne heq
      · exact absurd (htaken.symm.trans hfalse) (by simp)
      · exact hw hw'
    · exact (hother w t k hmoves).trans (h.gone w t k (mt (hhere w k hmoves).mpr hhere'))
  · refine h.flight_eq s' d' message' ?_
    have hget : (st.flight.delete (s, d)).get (s', d') = some message' := hmessage'
    rw [GoMap.get_delete] at hget
    split_ifs at hget
    exact hget

/-- What is still to be done: extractions, then insertions. -/
def remaining (st : path.Transfer) : Nat × Nat :=
  ((path.jobs.filter fun j => !st.taken j).length, (AList.keys st.flight).length)

theorem exists_describes (cfg : Setting) (dest : cfg.Key → Option WorkerID) {index : cfg.Index}
    (hgood : GoodIndex cfg.op index) (d : WorkerID) : ∃ doc : cfg.Doc, doc.Describes (content cfg dest index d) := by
  let order : cfg.Order := ⟨asListed _ _, asListed _ _⟩
  obtain ⟨hinner, hget⟩ := get_noteAll_filter hgood order fun k => dest k = some d
  obtain ⟨doc, hlists⟩ := Doc.exists_lists
    (noteAll ((index.visitAll order.times order.keys).filter fun e => decide (dest e.2.1 = some d)))
  have hdescribes := hlists.describes hinner
  refine ⟨doc, ?_⟩
  have hcontent : (noteAll ((index.visitAll order.times order.keys).filter fun e => decide (dest e.2.1 = some d))).get
      = content cfg dest index d := funext fun t => funext fun k => hget t k
  rwa [hcontent] at hdescribes

section

variable (h : Inv laws p st)
include h

theorem Inv.exact_of_done (hdone : path.Done st) : Exact owner p st.index := by
  intro w t k
  have htaken : home k ≠ owner k → st.taken (laws.jobOf (home k) (owner k)) = true := fun hne =>
    hdone.1 _ (laws.jobOf_mem k hne)
  split_ifs with hw
  · refine h.here w t k ?_
    by_cases heq : home k = owner k
    · exact .inl ⟨hw.trans heq.symm, .inl heq⟩
    · exact .inr ⟨hw, heq, htaken heq, hdone.2 _ _⟩
  · refine h.gone w t k ?_
    rintro (⟨hhome, heq | hfalse⟩ | ⟨howner, -⟩)
    · exact hw (hhome.trans heq)
    · by_cases heq : home k = owner k
      · exact hw (hhome.trans heq)
      · exact absurd ((htaken heq).symm.trans hfalse) (by simp)
    · exact hw howner

variable (htransferable : Transferable laws.fits owner p)
include htransferable

theorem Inv.accepted (j : path.Job) :
    isJsonKey cfg.kind = true ∨ Stays (laws.dest j) (st.index (path.sender j)) := by
  refine or_iff_not_imp_right.mpr fun hmoves => ?_
  simp only [Stays, not_forall] at hmoves
  obtain ⟨t, k, hdest, hentry⟩ := hmoves
  obtain ⟨d, hd⟩ := Option.ne_none_iff_exists'.mp hdest
  obtain ⟨rfl, hne, -⟩ := laws.dest_eq j k d hd
  have hhere : Here laws st (path.sender j) k := by
    by_contra hgone
    exact hentry (h.gone _ _ _ hgone)
  have hhome : path.sender j = home k := by
    rcases hhere with ⟨hhome, -⟩ | ⟨howner, -⟩
    · exact hhome
    · exact absurd howner.symm hne
  refine (htransferable.1 t k ?_ fun heq => hne (heq.symm.trans hhome.symm)).1
  rw [← h.here _ t k hhere]
  exact hentry

theorem Inv.step {a : path.Action} {st' : path.Transfer} (hstep : path.step st a = .ok st') :
    Inv laws p st' ∧ Prod.Lex (· < ·) (· < ·) (remaining st') (remaining st) := by
  cases a with
  | extract j order listing =>
    unfold Path.step at hstep
    dsimp only at hstep
    split_ifs at hstep with henabled
    obtain ⟨⟨messages, index'⟩, hextract, hpure⟩ := bind_eq_ok.mp hstep
    cases hpure
    refine ⟨h.extract henabled.2 hextract, Prod.Lex.left _ _ ?_⟩
    -- one extraction less
    have hfilter : (path.jobs.filter fun j' => !update st.taken j true j')
        = (path.jobs.filter fun j' => !st.taken j').filter fun j' => decide (j' ≠ j) := by
      rw [List.filter_filter]
      refine List.filter_congr fun j' _ => ?_
      by_cases hj : j' = j
      · simp [hj]
      · rw [update_of_ne hj]
        simp [hj]
    show (path.jobs.filter fun j' => !update st.taken j true j').length < _
    rw [hfilter]
    refine List.length_filter_lt_length_iff_exists.mpr ⟨j, List.mem_filter.mpr ⟨henabled.1, ?_⟩, by simp⟩
    rw [henabled.2]
    rfl
  | insert s d order =>
    unfold Path.step at hstep
    cases hmessage : st.flight.get (s, d) with
    | none => simp [hmessage] at hstep
    | some message =>
      simp only [hmessage] at hstep
      obtain ⟨index', hinsert, hpure⟩ := bind_eq_ok.mp hstep
      cases hpure
      obtain ⟨received, hok, hreceived⟩ := h.arrives htransferable hmessage order (st.index d)
      obtain rfl := ok.inj (hinsert.symm.trans hok)
      refine ⟨h.insert hmessage order hreceived, Prod.Lex.right _ ?_⟩
      refine GoMap.length_keys_delete_lt ?_
      rw [hmessage]
      nofun

theorem Inv.no_abort (a : path.Action) (e : MetadataAbort) : path.step st a ≠ .abort e := by
  cases a with
  | extract j order listing =>
    unfold Path.step
    dsimp only
    split_ifs with henabled
    · intro habort
      rcases bind_eq_abort.mp habort with hextract | ⟨r, -, hpure⟩
      · exact (laws.extracts j).no_abort _ _ _ e (h.good _) (h.accepted htransferable j) hextract
      · cases hpure
    · nofun
  | insert s d order =>
    unfold Path.step
    cases hmessage : st.flight.get (s, d) with
    | none => simp only [hmessage, reduceCtorEq, ne_eq, not_false_eq_true]
    | some message =>
      obtain ⟨received, hok, -⟩ := h.arrives htransferable hmessage order (st.index d)
      simp only [hmessage, hok, ok_bind, pure_eq_ok, reduceCtorEq, ne_eq, not_false_eq_true]

theorem Inv.progress : path.Done st ∨ ∃ a st', path.step st a = .ok st' := by
  by_cases hjobs : ∀ j ∈ path.jobs, st.taken j = true
  · by_cases hflight : ∀ src dst, st.flight.get (src, dst) = none
    · exact .inl ⟨hjobs, hflight⟩
    · simp only [not_forall] at hflight
      obtain ⟨s, d, hne⟩ := hflight
      obtain ⟨message, hmessage⟩ := Option.ne_none_iff_exists'.mp hne
      let order : cfg.WireOrder := ⟨asListed _ _, asListed _ _⟩
      obtain ⟨received, hok, -⟩ := h.arrives htransferable hmessage order (st.index d)
      refine .inr ⟨.insert s d order, ⟨update st.index d (cfg.insertAll order received (st.index d)), st.taken,
        st.flight.delete (s, d)⟩, ?_⟩
      simp only [Path.step, hmessage, hok, ok_bind, pure_eq_ok]
  · simp only [not_forall] at hjobs
    obtain ⟨j, hj, htaken⟩ := hjobs
    have htaken' : st.taken j = false := by simpa using htaken
    choose listing hlisting using exists_describes cfg (laws.dest j) (h.good (path.sender j))
    let order : cfg.Order := ⟨asListed _ _, asListed _ _⟩
    obtain ⟨messages, index', hextract, -⟩ := (laws.extracts j).listed order listing _ (h.good (path.sender j))
      (h.accepted htransferable j) hlisting
    refine .inr ⟨.extract j order listing, ⟨update st.index (path.sender j) index',
      update st.taken j true, Path.send (path.sender j) messages st.flight⟩, ?_⟩
    simp only [Path.step, if_pos (And.intro hj htaken'), hextract, ok_bind, pure_eq_ok]

end

/-- In every run no step aborts, the transfer comes to its end, and then it was exact. -/
def Transfers (path : Path cfg) (owner : cfg.Key → WorkerID) (p : Placement cfg home) : Prop :=
  ∀ st, (path.machine p.index).Run (fun _ _ => True) st →
    (∀ a e, path.step st a ≠ .abort e) ∧ (path.machine p.index).Inevitable path.Done st ∧
      (path.Done st → Exact owner p st.index)

variable (laws p)

theorem inv_of_run (htransferable : Transferable laws.fits owner p) {st : path.Transfer}
    (hrun : (path.machine p.index).Run (fun _ _ => True) st) : Inv laws p st := by
  refine Machine.Run.invariant (Inv laws p) ?_ (fun _ _ _ _ h _ hstep => (h.step htransferable hstep).1) hrun
  rintro st rfl
  exact inv_init

theorem transfers_of_transferable
    (htransferable : Transferable laws.fits owner p) : Transfers path owner p := by
  intro st hrun
  have hinv := inv_of_run laws p htransferable hrun
  refine ⟨hinv.no_abort htransferable, ?_, hinv.exact_of_done⟩
  have hwf : WellFounded (Prod.Lex (· < ·) (· < ·) : Nat × Nat → Nat × Nat → Prop) :=
    (Prod.lex Nat.lt_wfRel Nat.lt_wfRel).wf
  exact Machine.Inevitable.of_measure hwf (Inv laws p) remaining (fun _ _ _ h hstep => h.step htransferable hstep)
    (fun _ h => h.progress htransferable) hinv

variable {laws p}

/-! ## Runs in which a key is lost -/

/-- A key that JSON changes never gets to another worker. -/
structure Lost (laws : Laws path home owner) (k : cfg.Key) (st : path.Transfer) : Prop where
  good : ∀ w, GoodIndex cfg.op (st.index w)
  absent : ∀ w t, w ≠ home k → (st.index w).get t k = none
  flight_eq : ∀ s d message, st.flight.get (s, d) = some message →
    ∃ doc : cfg.Doc, message = laws.wrap (cfg.json.print doc)

variable {k : cfg.Key}

theorem Lost.extract (h : Lost laws k st)
    (hextract : path.extract j order listing (st.index (path.sender j)) = .ok (messages, index')) :
    Lost laws k ⟨update st.index (path.sender j) index', update st.taken j true,
      Path.send (path.sender j) messages st.flight⟩ := by
  have hextracted := (laws.extracts j).of_ok _ _ _ _ _ (h.good _) hextract
  have hkept : ∀ w t k, (update st.index (path.sender j) index' w).get t k = (st.index w).get t k ∨
      (update st.index (path.sender j) index' w).get t k = none := by
    intro w t k
    by_cases hw : w = path.sender j
    · rw [hw, update_self, hextracted.kept]
      exact (ite_eq_or_eq _ _ _)
    · rw [update_of_ne hw]
      exact .inl rfl
  refine ⟨fun w t k v hget => ?_, fun w t hw => ?_, fun s d message hmessage => ?_⟩
  · rcases hkept w t k with heq | heq
    · exact h.good w t k v (heq.symm.trans hget)
    · exact absurd (heq.symm.trans hget) nofun
  · exact (hkept w t k).elim (fun heq => heq.trans (h.absent w t hw)) id
  · rw [get_send] at hmessage
    split_ifs at hmessage with hs
    · rcases Option.or_eq_some_iff.mp hmessage with hnew | ⟨-, hold⟩
      · obtain ⟨doc, hdoc, -⟩ := hextracted.sent d message hnew
        exact ⟨doc, hdoc⟩
      · exact h.flight_eq s d message hold
    · exact h.flight_eq s d message hmessage

theorem Lost.insert (hk : jsonKey cfg.kind k ≠ k) (h : Lost laws k st) {order : cfg.WireOrder}
    (hmessage : st.flight.get (s, d) = some message) (hinsert : path.insert order message (st.index d) = .ok index') :
    Lost laws k ⟨update st.index d index', st.taken, st.flight.delete (s, d)⟩ := by
  obtain ⟨doc, rfl⟩ := h.flight_eq s d message hmessage
  have hindex : index' = cfg.insertAll order (doc.mapKeys (jsonKey cfg.kind)).toMap (st.index d) := by
    by_cases hread : laws.fits (cfg.json.print doc) ∧ (isJsonKey cfg.kind = true ∨ doc = [])
    · exact ok.inj (hinsert.symm.trans ((laws.inserts order doc (st.index d)).1 hread.1 hread.2))
    · exact absurd (hinsert.symm.trans ((laws.inserts order doc (st.index d)).2 hread)) nofun
  have hnone : ∀ t, (doc.mapKeys (jsonKey cfg.kind)).toMap.get t k = none := by
    intro t
    cases hget : (doc.mapKeys (jsonKey cfg.kind)).toMap.get t k with
    | none => rfl
    | some v =>
      obtain ⟨k', rfl⟩ := Doc.exists_of_get_mapKeys hget
      exact absurd (jsonKey_jsonKey cfg.kind k') hk
  refine ⟨fun w => ?_, fun w t hw => ?_, fun s' d' message hget => ?_⟩ <;> dsimp only at *
  · by_cases hw : w = d
    · rw [hw, update_self, hindex]
      exact goodIndex_insertAll (h.good d) order _
    · rw [update_of_ne hw]
      exact h.good w
  · by_cases hd : w = d
    · rw [hd, update_self, hindex, get_insertAll_of_ne hnone]
      exact h.absent d t (hd ▸ hw)
    · rw [update_of_ne hd]
      exact h.absent w t hw
  · rw [GoMap.get_delete] at hget
    split_ifs at hget
    exact h.flight_eq s' d' message hget

variable (laws)

theorem lost_of_run (p : Placement cfg home) (hk : jsonKey cfg.kind k ≠ k)
    {st : path.Transfer} (hrun : (path.machine p.index).Run (fun _ _ => True) st) :
    Lost laws k st := by
  refine Machine.Run.invariant (Lost laws k) ?_ (fun st a st' _ h _ hstep => ?_) hrun
  · rintro st rfl
    refine ⟨p.good, fun w t hw => ?_, nofun⟩
    by_contra hne
    exact hw (p.placed w t k hne).symm
  · change path.step st a = .ok st' at hstep
    cases a with
    | extract j order listing =>
      unfold Path.step at hstep
      dsimp only at hstep
      split_ifs at hstep
      obtain ⟨⟨messages, index'⟩, hextract, hpure⟩ := bind_eq_ok.mp hstep
      cases hpure
      exact h.extract hextract
    | insert s d order =>
      unfold Path.step at hstep
      cases hmessage : st.flight.get (s, d) with
      | none => simp [hmessage] at hstep
      | some message =>
        simp only [hmessage] at hstep
        obtain ⟨index', hinsert, hpure⟩ := bind_eq_ok.mp hstep
        cases hpure
        exact h.insert hk hmessage hinsert

theorem Transfers.survives (laws : Laws path home owner) (h : Transfers path owner p)
    {t : Int64} (hentry : (p.index (home k)).get t k ≠ none) (hmoves : home k ≠ owner k) :
    isJsonKey cfg.kind = true ∧ jsonKey cfg.kind k = k := by
  have hstart : (path.machine p.index).Run (fun _ _ => True) ⟨p.index, fun _ => false, ∅⟩ := .start rfl
  refine ⟨?_, ?_⟩
  · -- the first extraction of the entry would abort
    by_contra hkind
    have hdest := laws.dest_jobOf k hmoves
    let order : cfg.Order := ⟨asListed _ _, asListed _ _⟩
    obtain ⟨e, habort⟩ := (laws.extracts (laws.jobOf (home k) (owner k))).refused order (fun _ => [])
      (p.index (path.sender (laws.jobOf (home k) (owner k)))) (p.good _) (by simpa using hkind) (fun hstays => by
        rw [laws.sender_jobOf] at hstays
        exact hentry (hstays t k (by rw [hdest]; nofun)))
    refine (h _ hstart).1 (.extract (laws.jobOf (home k) (owner k)) order fun _ => []) e ?_
    unfold Path.step
    dsimp only
    rw [if_pos ⟨laws.jobOf_mem k hmoves, rfl⟩, habort]
    rfl
  · -- at the end the entry is not at its owner
    by_contra hk
    obtain ⟨st, hrun, hdone⟩ := (h _ hstart).2.1.exists_run hstart
    have hexact := (h st hrun).2.2 hdone (owner k) t k
    rw [if_pos rfl, (lost_of_run laws p hk hrun).absent _ t (Ne.symm hmoves)] at hexact
    exact hentry hexact.symm

theorem Transfers.fits (h : Transfers path owner p)
    {doc : cfg.Doc} (hdoc : doc.Describes fun t k => (moved owner p s d t k).map (cfg.op.toWire cfg.Key))
    (hne : doc ≠ []) :
    laws.fits (cfg.json.print doc) := by
  by_contra hfits
  have hstart : (path.machine p.index).Run (fun _ _ => True) ⟨p.index, fun _ => false, ∅⟩ := .start rfl
  obtain ⟨t, k, v, hmoved⟩ : ∃ t k v, moved owner p s d t k = some v := by
    obtain ⟨⟨t, ms⟩, hmem⟩ := List.exists_mem_of_ne_nil _ hne
    obtain ⟨⟨k, w⟩, hin⟩ := List.exists_mem_of_ne_nil _ (hdoc.ne_nil _ hmem)
    obtain ⟨v, hv, -⟩ := Option.map_eq_some_iff.mp ((hdoc.mem_iff t k w).mp (Doc.mem_members.mpr ⟨ms, hmem, hin⟩))
    exact ⟨t, k, v, hv⟩
  have hmoved' := hmoved
  unfold moved at hmoved'
  split_ifs at hmoved' with hgoes
  obtain ⟨rfl, rfl, hmoves⟩ := hgoes
  have hkind := (h.survives laws (by rw [hmoved']; simp) hmoves).1
  let j := laws.jobOf (home k) (owner k)
  have hsender : path.sender j = home k := laws.sender_jobOf _ _
  have hcontent : content cfg (laws.dest j) (p.index (path.sender j)) (owner k)
      = fun t k' => (moved owner p (home k) (owner k) t k').map (cfg.op.toWire cfg.Key) := by
    have hinit : Inv laws p ⟨p.index, fun _ => false, ∅⟩ := inv_init
    have heq := hinit.content_eq (j := j) (d := owner k) rfl (by rw [hsender])
    rw [hsender] at heq ⊢
    exact heq
  -- the entries for the owner are listed as in the document that does not fit
  choose others hothers using exists_describes cfg (laws.dest j) (p.good (path.sender j))
  let order : cfg.Order := ⟨asListed _ _, asListed _ _⟩
  let wire : cfg.WireOrder := ⟨asListed _ _, asListed _ _⟩
  obtain ⟨messages, index', hextract, hlisted⟩ := (laws.extracts j).listed order (update others (owner k) doc)
    (p.index (path.sender j)) (p.good _) (.inl hkind) (fun d => by
      by_cases hd : d = owner k
      · rw [hd, update_self, hcontent]
        exact hdoc
      · rw [update_of_ne hd]
        exact hothers d)
  have hextracted := (laws.extracts j).of_ok _ _ _ _ _ (p.good _) hextract
  obtain ⟨message, hmessage⟩ : ∃ message, messages.get (owner k) = some message := by
    refine Option.ne_none_iff_exists'.mp fun hnone => ?_
    have habsent := hextracted.unsent (owner k) hnone t k
    rw [hcontent] at habsent
    simp only [hmoved, Option.map_some, reduceCtorEq] at habsent
  have hprint := hlisted (owner k) message hmessage
  rw [update_self] at hprint
  let st : path.Transfer := ⟨update p.index (path.sender j) index', update (fun _ => false) j true,
    Path.send (path.sender j) messages ∅⟩
  have hrun : (path.machine p.index).Run (fun _ _ => True) st := by
    refine hstart.step (a := .extract j order (update others (owner k) doc)) trivial ?_
    show path.step ⟨p.index, fun _ => false, ∅⟩ (.extract j order (update others (owner k) doc)) = .ok st
    unfold Path.step
    dsimp only
    rw [if_pos ⟨laws.jobOf_mem k hmoves, rfl⟩, hextract]
    rfl
  have hflight : st.flight.get (home k, owner k) = some message := by
    show (Path.send (path.sender j) messages ∅).get (home k, owner k) = _
    rw [get_send, if_pos hsender.symm, hmessage, Option.some_or]
  refine (h st hrun).1 (.insert (home k) (owner k) wire) laws.failed ?_
  have habort := (laws.inserts wire doc (st.index (owner k))).2 fun hread => hfits hread.1
  unfold Path.step
  simp only [hflight, hprint, habort]
  rfl

/-- **A transfer is exact** in all runs if and only if all keys that move survive JSON and the texts fit. -/
theorem transfers_iff (laws : Laws path home owner) (p : Placement cfg home) :
    Transfers path owner p ↔ Transferable laws.fits owner p :=
  ⟨fun h => ⟨fun _ _ hentry hmoves => h.survives laws hentry hmoves, fun _ _ _ hdoc hne => h.fits laws hdoc hne⟩,
    transfers_of_transferable laws p⟩

end

end Metadata
end Koala
