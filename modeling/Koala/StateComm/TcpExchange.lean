import Koala.StateComm.AdditionalFetch
import Koala.StateComm.KeyedFetch

/-!
# Exchanges over one connection

`handleRequest` is one turn of the server's loop (`worker/stateCommTcpApi.go`), dispatching on the message type;
the client's calls are `fetchStateByTcp` and `fetchAdditionalKeysByTcp`.  A buffer is longer than the frame in it,
and a reader that went past the frame would see what an earlier message left there: the `stale` arguments stand
for that, and are arbitrary.  Time, metrics and the errors of the network are left out.

`session_correct_iff` is about any number of consecutive fetches of needed keys on one connection: they all end,
with the connection drained, and the results are right exactly when no request names all 65536 state ids.
`additionalKeys_paired` is the fetch of additional keys.
-/

namespace Koala
namespace StateComm

open Lib Lib.Outcome
open State (Backend)
open VisitOrder (asListed)

/-! ## The server and the clients -/

/-- One turn of `handleStateCommTcpConnection`: the bytes sent, and what is left on the connection. -/
def handleRequest (backend : Backend) (order : VisitOrder UInt16 (List Bytes)) (stale stream : Bytes) :
    Outcome TcpAbort (Bytes × Bytes) := do
  let (body, stream) ← readFrame .request stream
  match body ++ stale with
  | [] => .abort .outOfRange
  | msgType :: buf =>
    if msgType = tcpMsgTypeKeyedFetch then do
      let (keyMap, _) ← deserializeKeyedRequest buf
      let response ← sendTcpResponse order (keyMap.mapValues backend.getMany)
      pure (response, stream)
    else if msgType = tcpMsgTypeAdditionalFetch then do
      let keys ← deserializeAdditionalKeysRequest buf
      let frames ← serveAdditionalKeys backend keys
      pure (frames.flatten, stream)
    else .abort (.unknownMessageType msgType)

/-- The receiving half of `fetchStateByTcp`. -/
def receiveTcpResponse (remoteWorkerId : Nat) (stale stream : Bytes) : Outcome TcpAbort (StateGroups × Bytes) := do
  let (body, stream) ← readFrame (.response remoteWorkerId) stream
  let (res, _) ← deserializeTcpResponse (body ++ stale)
  pure (res, stream)

/-- The bytes under way on a connection. -/
structure Conn where
  toServer : Bytes
  toClient : Bytes
  deriving DecidableEq, Repr

/-- Nothing is under way. -/
def Conn.drained : Conn := ⟨[], []⟩

/-- One fetch of needed keys, with everything it depends on. -/
structure Exchange where
  remoteWorkerId : Nat
  keys : StateGroups
  backend : Backend
  clientOrder : VisitOrder UInt16 (List Bytes)
  serverOrder : VisitOrder UInt16 (List Bytes)
  clientStale : Bytes
  serverStale : Bytes

namespace Exchange

/-- `fetchStateByTcp` and the turn of the server that answers it. -/
def run (x : Exchange) (conn : Conn) : Outcome TcpAbort (StateGroups × Conn) := do
  let request ← keyedRequest x.clientOrder x.keys
  let (response, toServer) ← handleRequest x.backend x.serverOrder x.serverStale (conn.toServer ++ request)
  let (res, toClient) ← receiveTcpResponse x.remoteWorkerId x.clientStale (conn.toClient ++ response)
  pure (res, ⟨toServer, toClient⟩)

/-- The values the client is to obtain. -/
def expected (x : Exchange) : StateGroups := x.keys.mapValues x.backend.getMany

/-- The client has the values of all its keys, and nothing else. -/
def Correct (x : Exchange) (res : StateGroups) : Prop := ∀ id, res.get id = x.expected.get id

/-- A request for at least one key of every state it names, with a frame and a response that fit. -/
structure Valid (x : Exchange) : Prop where
  nonempty : x.keys.entries ≠ []
  keys : ∀ id keys, x.keys.get id = some keys → keys ≠ []
  request : (frame (requestBody x.clientOrder x.keys)).length ≤ tcpMaxMessageSize
  response : (frame (groupsBytes x.serverOrder x.expected)).length ≤ tcpMaxMessageSize

end Exchange

/-- Consecutive fetches on one connection. -/
def session : List Exchange → Conn → Outcome TcpAbort (List StateGroups × Conn)
  | [], conn => .ok ([], conn)
  | x :: xs, conn => do
    let (res, conn) ← x.run conn
    let (results, conn) ← session xs conn
    pure (res :: results, conn)

/-! ## Sizes do not depend on the order of a map -/

theorem pairs_perm {m m' : StateGroups} (h : ∀ id, m'.get id = m.get id) : m'.pairs.Perm m.pairs := by
  have hnodup : ∀ m : StateGroups, m.pairs.Nodup := by
    intro m
    refine List.Nodup.of_map Prod.fst ?_
    rw [GoMap.pairs_map_fst]
    exact AList.keys_nodup m
  refine (List.perm_ext_iff_of_nodup (hnodup m') (hnodup m)).mpr ?_
  rintro ⟨id, items⟩
  rw [GoMap.mem_pairs, GoMap.mem_pairs, h]

theorem length_groupsBytes (order : VisitOrder UInt16 (List Bytes)) (groups : StateGroups) :
    (groupsBytes order groups).length = 2 + (groups.pairs.flatMap groupBytes).length := by
  rw [groupsBytes, List.length_append, Wire.length_putUint16, ((order.perm groups).flatMap_right groupBytes).length_eq]

/-- The response to what the server has read is as long as the response to what was asked. -/
theorem length_groupsBytes_congr (order order' : VisitOrder UInt16 (List Bytes)) {m m' : StateGroups}
    (h : ∀ id, m'.get id = m.get id) : (groupsBytes order' m').length = (groupsBytes order m).length := by
  rw [length_groupsBytes, length_groupsBytes, ((pairs_perm h).flatMap_right groupBytes).length_eq]

/-! ## Needed keys -/

section Keyed

variable {x : Exchange}

theorem Exchange.Valid.request_size (h : x.Valid) : (groupsBytes x.clientOrder x.keys).length < 4294967296 := by
  have hmax : tcpMaxMessageSize < 4294967296 := by decide
  have hlen := h.request
  rw [length_frame, requestBody, List.length_cons] at hlen
  omega

/-- What the server takes the request to be: the keys asked for, or nothing. -/
def Exchange.Understood (x : Exchange) (keyMap : StateGroups) : Prop :=
  (Counted x.keys → ∀ id, keyMap.get id = x.keys.get id) ∧ (¬ Counted x.keys → keyMap = ∅)

/-- The server's turn: it reads exactly the request and answers what it understood. -/
theorem Exchange.Valid.handleRequest (h : x.Valid) (rest : Bytes) :
    ∃ keyMap, x.Understood keyMap ∧
      StateComm.handleRequest x.backend x.serverOrder x.serverStale (frame (requestBody x.clientOrder x.keys) ++ rest)
        = (do
            let response ← sendTcpResponse x.serverOrder (keyMap.mapValues x.backend.getMany)
            pure (response, rest)) := by
  obtain ⟨keyMap, left, hread, hcounted, hfull⟩ := readGroups_groupsBytes true x.clientOrder
    (fun id items hget => sized_of_fits h.request_size (fun _ => h.keys) hget)
    (putUint32 magicEnd ++ x.serverStale)
  refine ⟨keyMap, ⟨fun hc => (hcounted hc).1, hfull⟩, ?_⟩
  have hbody : requestBody x.clientOrder x.keys ++ putUint32 magicEnd ++ x.serverStale
      = tcpMsgTypeKeyedFetch :: (groupsBytes x.clientOrder x.keys ++ (putUint32 magicEnd ++ x.serverStale)) := by
    rw [requestBody, List.append_assoc, List.cons_append]
  unfold StateComm.handleRequest
  rw [readFrame_frame _ h.request, ok_bind]
  dsimp only
  rw [hbody]
  simp only [if_true]
  rw [deserializeKeyedRequest, hread, ok_bind]

theorem Counted.congr {m m' : StateGroups} (h : ∀ id, m'.get id = m.get id) (hm : Counted m) : Counted m' := by
  have hlen := (pairs_perm h).length_eq
  rw [GoMap.pairs, GoMap.pairs, List.length_map, List.length_map] at hlen
  rw [Counted, hlen]
  exact hm

theorem receiveTcpResponse_frame (remoteWorkerId : Nat) (stale : Bytes) (order : VisitOrder UInt16 (List Bytes))
    {values : StateGroups} (hcounted : Counted values)
    (hfits : (frame (groupsBytes order values)).length ≤ tcpMaxMessageSize) (rest : Bytes) :
    ∃ res, receiveTcpResponse remoteWorkerId stale (frame (groupsBytes order values) ++ rest) = .ok (res, rest) ∧
      ∀ id, res.get id = values.get id := by
  have hmax : tcpMaxMessageSize < 4294967296 := by decide
  have hsize : (groupsBytes order values).length < 4294967296 := by
    rw [length_frame] at hfits
    omega
  obtain ⟨res, left, hread, hall, -⟩ := readGroups_groupsBytes false order
    (fun id items hget => sized_of_fits hsize (fun hfalse => by cases hfalse) hget) (putUint32 magicEnd ++ stale)
  refine ⟨res, ?_, (hall hcounted).1⟩
  unfold receiveTcpResponse
  rw [readFrame_frame _ hfits, ok_bind]
  dsimp only
  rw [List.append_assoc, deserializeTcpResponse, hread, ok_bind]
  rfl

/-- What the server understood decides the answer, which always fits a frame. -/
theorem Exchange.Understood.answer {keyMap : StateGroups} (h : x.Understood keyMap) (hvalid : x.Valid) :
    Counted (keyMap.mapValues x.backend.getMany) ∧
      (frame (groupsBytes x.serverOrder (keyMap.mapValues x.backend.getMany))).length ≤ tcpMaxMessageSize ∧
      (Counted x.keys → ∀ id, (keyMap.mapValues x.backend.getMany).get id = x.expected.get id) := by
  have hsame : Counted x.keys → ∀ id, (keyMap.mapValues x.backend.getMany).get id = x.expected.get id := by
    intro hcounted id
    rw [Exchange.expected, GoMap.get_mapValues, GoMap.get_mapValues, h.1 hcounted id]
  have hempty : (∅ : StateGroups).mapValues x.backend.getMany = ∅ := rfl
  refine ⟨?_, ?_, hsame⟩
  · by_cases hcounted : Counted x.keys
    · have hkeys : Counted keyMap := Counted.congr (h.1 hcounted) hcounted
      have hlen : (keyMap.mapValues x.backend.getMany).entries.length = keyMap.entries.length := List.length_map _
      rw [Counted, hlen]
      exact hkeys
    · rw [h.2 hcounted, hempty]
      decide
  · by_cases hcounted : Counted x.keys
    · have hresponse := hvalid.response
      rw [length_frame] at hresponse ⊢
      rwa [length_groupsBytes_congr x.serverOrder x.serverOrder (hsame hcounted)]
    · rw [h.2 hcounted, hempty, length_frame, length_groupsBytes]
      decide

/-- **One exchange** ends with the connection drained; the client has the values asked for, or nothing when the
request names every state id. -/
theorem Exchange.Valid.run (h : x.Valid) :
    ∃ res, x.run Conn.drained = .ok (res, Conn.drained) ∧ (Counted x.keys → x.Correct res) ∧
      (¬ Counted x.keys → ∀ id, res.get id = none) := by
  obtain ⟨keyMap, hunderstood, hserve⟩ := h.handleRequest []
  obtain ⟨hcounted, hfits, hsame⟩ := hunderstood.answer h
  obtain ⟨res, hreceive, hres⟩ := receiveTcpResponse_frame x.remoteWorkerId x.clientStale x.serverOrder hcounted hfits []
  rw [List.append_nil] at hserve hreceive
  refine ⟨res, ?_, fun hc id => (hres id).trans (hsame hc id), fun hnot id => ?_⟩
  · unfold Exchange.run
    rw [keyedRequest_ok x.clientOrder h.request, ok_bind]
    dsimp only [Conn.drained]
    rw [List.nil_append, hserve, sendTcpResponse_ok x.serverOrder hfits, ok_bind, pure_eq_ok, ok_bind]
    dsimp only
    rw [List.nil_append, hreceive, ok_bind]
    rfl
  · rw [hres, GoMap.get_mapValues, hunderstood.2 hnot]
    rfl

theorem Exchange.Valid.correct_iff (h : x.Valid) {res : StateGroups} (hyes : Counted x.keys → x.Correct res)
    (hno : ¬ Counted x.keys → ∀ id, res.get id = none) : x.Correct res ↔ Counted x.keys := by
  refine ⟨fun hcorrect => ?_, hyes⟩
  by_contra hnot
  obtain ⟨⟨id, keys⟩, hmem⟩ := List.exists_mem_of_ne_nil _ h.nonempty
  have hget := (GoMap.mem_entries_iff x.keys id keys).mp hmem
  have hres := hcorrect id
  rw [hno hnot id, Exchange.expected, GoMap.get_mapValues, hget] at hres
  cases hres

end Keyed

/-- **Needed-key fetches over one connection.**  Any number of consecutive exchanges with frames that fit ends
without an abort and with the connection drained, whatever the map orders and the leftovers in the buffers; and
every client result is exactly the values of the requested keys if and only if no request names all 65536 state
ids. -/
theorem session_correct_iff (xs : List Exchange) (hvalid : ∀ x ∈ xs, x.Valid) :
    ∃ results, session xs Conn.drained = .ok (results, Conn.drained) ∧
      (List.Forall₂ Exchange.Correct xs results ↔ ∀ x ∈ xs, x.keys.entries.length < 65536) := by
  induction xs with
  | nil => exact ⟨[], rfl, by simp⟩
  | cons x xs ih =>
    have hx := hvalid x (by simp)
    obtain ⟨res, hrun, hyes, hno⟩ := hx.run
    obtain ⟨results, hrest, hiff⟩ := ih fun y hy => hvalid y (by simp [hy])
    refine ⟨res :: results, ?_, ?_⟩
    · rw [session, hrun, ok_bind]
      dsimp only
      rw [hrest, ok_bind]
      rfl
    · rw [List.forall₂_cons, hx.correct_iff hyes hno, hiff, List.forall_mem_cons]
      rfl

/-- One key of one state is fetched from a worker that has it. -/
def sampleExchange : Exchange where
  remoteWorkerId := 1
  keys := (∅ : StateGroups).set 3 [[7], [8]]
  backend := (∅ : Backend).set [7] [1, 2]
  clientOrder := asListed _ _
  serverOrder := asListed _ _
  clientStale := []
  serverStale := []

theorem session_correct_iff_sample :
    ∃ results, session [sampleExchange, sampleExchange] Conn.drained = .ok (results, Conn.drained) ∧
      List.Forall₂ Exchange.Correct [sampleExchange, sampleExchange] results := by
  have hvalid : sampleExchange.Valid := by
    refine ⟨by decide, fun id keys hget => ?_, by decide, by decide⟩
    rw [sampleExchange, GoMap.get_set] at hget
    split_ifs at hget
    · cases hget
      decide
    · simp at hget
  have hall : ∀ x ∈ [sampleExchange, sampleExchange], x = sampleExchange := by simp
  obtain ⟨results, hrun, hiff⟩ := session_correct_iff [sampleExchange, sampleExchange]
    fun x hx => by rw [hall x hx]; exact hvalid
  exact ⟨results, hrun, hiff.mpr fun x hx => by rw [hall x hx]; decide⟩

/-- A request for one key each of the first `n` state ids. -/
def firstStates (n : Nat) (hn : n ≤ 65536) : StateGroups where
  entries := (List.range n).map fun i => ⟨UInt16.ofNat i, [[0]]⟩
  nodupKeys := by
    rw [List.NodupKeys, List.keys, List.map_map]
    refine List.Nodup.map_on ?_ List.nodup_range
    intro a ha b hb heq
    have hnat := congrArg UInt16.toNat heq
    simp only [Function.comp_apply, UInt16.toNat_ofNat'] at hnat
    rw [List.mem_range] at ha hb
    omega

section FirstStates

variable {n : Nat} (hn : n ≤ 65536)

theorem length_firstStates : (firstStates n hn).entries.length = n := by
  simp [firstStates]

theorem get_firstStates {id : UInt16} {keys : List Bytes} (h : (firstStates n hn).get id = some keys) :
    keys = [[0]] := by
  obtain ⟨i, -, hi⟩ := List.mem_map.mp ((GoMap.mem_entries_iff (firstStates n hn) id keys).mpr h)
  cases hi
  rfl

theorem length_groupsBytes_firstStates (order : VisitOrder UInt16 (List Bytes)) (f : List Bytes → List Bytes) :
    (groupsBytes order ((firstStates n hn).mapValues f)).length
      = 2 + n * (6 + ((f [[0]]).flatMap Wire.putSized).length) := by
  have hpairs : ((firstStates n hn).mapValues f).pairs = (List.range n).map fun i => (UInt16.ofNat i, f [[0]]) := by
    rw [GoMap.pairs, GoMap.mapValues, firstStates, List.map_map, List.map_map]
    rfl
  have hgroup : ∀ i, (groupBytes (UInt16.ofNat i, f [[0]])).length = 6 + ((f [[0]]).flatMap Wire.putSized).length := by
    intro i
    simp only [groupBytes, List.length_append, Wire.length_putUint16, Wire.length_putUint32]
    omega
  rw [length_groupsBytes, hpairs, List.flatMap_map, List.length_flatMap, List.map_congr_left fun i _ => hgroup i,
    List.map_const', List.sum_replicate_nat, List.length_range]

/-- Such a request to a worker without any state. -/
def firstStatesExchange (n : Nat) (hn : n ≤ 65536) : Exchange where
  remoteWorkerId := 1
  keys := firstStates n hn
  backend := ∅
  clientOrder := asListed _ _
  serverOrder := asListed _ _
  clientStale := []
  serverStale := []

theorem firstStatesExchange_valid (hpos : 0 < n) : (firstStatesExchange n hn).Valid where
  nonempty := by
    intro hnil
    have hlen := length_firstStates hn
    rw [show (firstStates n hn).entries = [] from hnil, List.length_nil] at hlen
    omega
  keys := by
    intro id keys hget
    rw [get_firstStates hn hget]
    decide
  request := by
    have hid : (firstStates n hn).mapValues id = firstStates n hn := by
      apply AList.ext
      simp [GoMap.mapValues]
    have hsize := length_groupsBytes_firstStates hn (asListed _ _) id
    have hitem : (List.flatMap Wire.putSized (id [[0]])).length = 5 := rfl
    rw [hid, hitem] at hsize
    show (frame (requestBody (asListed _ _) (firstStates n hn))).length ≤ 50 * 1024 * 1024
    rw [length_frame, requestBody, List.length_cons, hsize]
    omega
  response := by
    have hsize := length_groupsBytes_firstStates hn (asListed _ _) (Backend.getMany ∅)
    have hitem : (List.flatMap Wire.putSized (Backend.getMany ∅ [[0]])).length = 4 := rfl
    rw [hitem] at hsize
    show (frame (groupsBytes (asListed _ _) ((firstStates n hn).mapValues (Backend.getMany ∅)))).length
      ≤ 50 * 1024 * 1024
    rw [length_frame, hsize]
    omega

end FirstStates

/-- The request for every state id fits a frame, as does the response, yet the client gets nothing. -/
theorem everyState_lost : (firstStatesExchange 65536 (Nat.le_refl _)).Valid ∧
      ∃ res, (firstStatesExchange 65536 (Nat.le_refl _)).run Conn.drained = .ok (res, Conn.drained) ∧
        ¬ (firstStatesExchange 65536 (Nat.le_refl _)).Correct res ∧ ∀ id, res.get id = none := by
  have hvalid : (firstStatesExchange 65536 (Nat.le_refl _)).Valid := firstStatesExchange_valid _ (by decide)
  have hcount : ¬ Counted (firstStatesExchange 65536 (Nat.le_refl _)).keys := by
    rw [Counted, firstStatesExchange, length_firstStates]
    exact Nat.lt_irrefl _
  obtain ⟨res, hrun, hyes, hno⟩ := hvalid.run
  exact ⟨hvalid, res, hrun, fun hcorrect => hcount ((hvalid.correct_iff hyes hno).mp hcorrect), hno hcount⟩

/-! ## Additional keys -/

/-- The body of a request for additional keys. -/
def additionalRequestBody (keys : List Bytes) : Bytes :=
  tcpMsgTypeAdditionalFetch :: (putUint32 keys.length ++ keys.flatMap Wire.putSized)

theorem sendAdditionalKeysByTcp_ok {keys : List Bytes}
    (h : (frame (additionalRequestBody keys)).length ≤ tcpMaxMessageSize) :
    sendAdditionalKeysByTcp keys = .ok (frame (additionalRequestBody keys)) := by
  have hwriter : Wire.Appends tcpMaxMessageSize (fun buf => put [tcpMsgTypeAdditionalFetch] buf >>= fun buf =>
      put (putUint32 keys.length) buf >>= forEach keys putItem) (additionalRequestBody keys) :=
    Wire.Appends.bind (Wire.Appends.put _ _) <|
      Wire.Appends.bind (Wire.Appends.put _ _) (Wire.Appends.forEach fun key _ => putItem_appends key)
  have hframe := finishFrame_appends hwriter h
  rw [bind_bind] at hframe
  simp only [bind_bind] at hframe
  exact hframe

theorem deserializeAdditionalKeysRequest_ok {keys : List Bytes}
    (h : (frame (additionalRequestBody keys)).length ≤ tcpMaxMessageSize) (rest : Bytes) :
    deserializeAdditionalKeysRequest (putUint32 keys.length ++ keys.flatMap Wire.putSized ++ rest) = .ok keys := by
  have hmax : tcpMaxMessageSize < 4294967296 := by decide
  have hcount : keys.length ≤ (keys.flatMap Wire.putSized).length :=
    Wire.count_le_flatMap keys fun x _ => by rw [Wire.length_putSized]; omega
  rw [length_frame, additionalRequestBody, List.length_cons, List.length_append] at h
  have hsize : ∀ k ∈ keys, k.length < 4294967296 := by
    intro k hk
    have hitem : (Wire.putSized k).length ≤ (keys.flatMap Wire.putSized).length := Wire.length_le_flatMap hk
    rw [Wire.length_putSized] at hitem
    omega
  unfold deserializeAdditionalKeysRequest
  rw [List.append_assoc, Wire.uint32_of_lt _ (by omega), ok_bind]
  dsimp only
  rw [Wire.many_put keys fun k hk rest => Wire.sized_putSized _ (hsize k hk) rest, ok_bind]
  rfl

theorem handleRequest_additional (backend : Backend) (order : VisitOrder UInt16 (List Bytes)) (stale : Bytes)
    {keys : List Bytes} (hrequest : (frame (additionalRequestBody keys)).length ≤ tcpMaxMessageSize)
    (hvalues : EachFits (backend.getMany keys)) (rest : Bytes) :
    ∃ chunks, chunks.flatten = backend.getMany keys ∧ (∀ c ∈ chunks, Chunk c) ∧
      handleRequest backend order stale (frame (additionalRequestBody keys) ++ rest)
        = .ok ((chunkFrames chunks).flatten, rest) := by
  obtain ⟨chunks, hflat, hchunks, hsend⟩ := sendBatches_ok backend (Nat.le_refl keys.length) hvalues
  refine ⟨chunks, hflat, hchunks, ?_⟩
  have hbody : additionalRequestBody keys ++ putUint32 magicEnd ++ stale = tcpMsgTypeAdditionalFetch ::
      (putUint32 keys.length ++ keys.flatMap Wire.putSized ++ (putUint32 magicEnd ++ stale)) := by
    simp only [additionalRequestBody, List.append_assoc, List.cons_append]
  have hother : ¬ tcpMsgTypeAdditionalFetch = tcpMsgTypeKeyedFetch := by decide
  unfold handleRequest
  rw [readFrame_frame _ hrequest, ok_bind]
  dsimp only
  rw [hbody]
  simp only [hother, if_false, if_true]
  rw [deserializeAdditionalKeysRequest_ok hrequest, ok_bind, serveAdditionalKeys, hsend, ok_bind]
  rfl

/-- What a client that fetched additional keys has done: `SetMany` calls with as many keys as values that, taken
together, store the value of every key under that key, once and in the order of the keys. -/
structure Paired (backend : Backend) (keys : List Bytes) (calls : List (List Bytes × List Bytes)) : Prop where
  length_eq : ∀ call ∈ calls, call.1.length = call.2.length
  zip_eq : calls.flatMap (fun call => call.1.zip call.2) = keys.zip (backend.getMany keys)

/-- **Additional keys are paired with their values.**  For keys whose request fits a message and whose values
each fit a response, the server reads exactly the request and answers with frames that fit, and the client,
reading as long as it misses values, reads exactly these frames and stores every value under its key.  What else
is on the connection, in either direction, is left for the next request. -/
theorem additionalKeys_paired (backend : Backend) (order : VisitOrder UInt16 (List Bytes)) (remoteWorkerId : Nat)
    (keys : List Bytes) (hne : keys ≠ []) (hrequest : (frame (additionalRequestBody keys)).length ≤ tcpMaxMessageSize)
    (hvalues : EachFits (backend.getMany keys)) (serverStale clientStale later later' : Bytes) :
    ∃ request frames, sendAdditionalKeysByTcp keys = .ok request ∧
      handleRequest backend order serverStale (request ++ later) = .ok (frames.flatten, later) ∧
      frames ≠ [] ∧ (∀ f ∈ frames, (∃ body, f = frame body) ∧ f.length ≤ tcpMaxMessageSize) ∧
      ∀ fuel, keys.length ≤ fuel → ∃ calls,
        receiveLoop fuel remoteWorkerId clientStale keys (frames.flatten ++ later')
          = .ok ⟨keys.length, calls, later'⟩ ∧ Paired backend keys calls := by
  obtain ⟨chunks, hflat, hchunks, hserve⟩ := handleRequest_additional backend order serverStale hrequest hvalues later
  have hlen : chunks.flatten.length = keys.length := by
    rw [hflat, Backend.getMany, List.length_map]
  refine ⟨_, chunkFrames chunks, sendAdditionalKeysByTcp_ok hrequest, hserve, ?_, ?_, fun fuel hfuel => ?_⟩
  · intro hnil
    rw [chunkFrames, List.map_eq_nil_iff] at hnil
    rw [hnil, List.flatten_nil, List.length_nil] at hlen
    exact hne (List.length_eq_zero_iff.mp hlen.symm)
  · intro f hf
    obtain ⟨values, hmem, rfl⟩ := List.mem_map.mp hf
    exact ⟨⟨_, rfl⟩, (hchunks values hmem).fits⟩
  · have hcount : chunks.length ≤ fuel := by
      have hchunkCount := length_chunks_le hchunks
      omega
    refine ⟨answered keys chunks, ?_, answered_length hlen, ?_⟩
    · have hstart : 0 + chunks.flatten.length = keys.length := by rw [Nat.zero_add, hlen]
      rw [receiveLoop, receiveLoop_frames hchunks hstart [] hcount, List.nil_append, List.drop_zero]
    · rw [answered_zip hlen, hflat]

/-- Two keys, one of them absent, on a connection with bytes of a next request under way. -/
theorem additionalKeys_paired_two :
    ∃ request, ∃ frames : List Bytes, sendAdditionalKeysByTcp [[7], [8]] = .ok request ∧
      handleRequest ((∅ : Backend).set [7] [1, 2]) (asListed _ _) [9] (request ++ [5])
        = .ok (frames.flatten, [5]) ∧
      ∃ calls, receiveLoop 2 1 [] [[7], [8]] frames.flatten = .ok ⟨2, calls, []⟩ ∧
        Paired ((∅ : Backend).set [7] [1, 2]) [[7], [8]] calls := by
  obtain ⟨request, frames, hsend, hserve, -, -, hclient⟩ :=
    additionalKeys_paired ((∅ : Backend).set [7] [1, 2]) (asListed _ _) 1 [[7], [8]] (by decide)
      (by decide) (by unfold EachFits; decide) [9] [] [5] []
  obtain ⟨calls, hloop, hpaired⟩ := hclient 2 (by decide)
  rw [List.append_nil] at hloop
  exact ⟨request, frames, hsend, hserve, calls, hloop, hpaired⟩

end StateComm
end Koala
