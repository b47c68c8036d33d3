import Ecos.Rainbow.BlockRequest

namespace Ecos.Rainbow
open Go Std Moon Gaia

/-- `SendChanListenLoop` of the outpost. Each content gets three attempts, and what fails in all of
them is given up without a word. -/
def sendChanListenLoop {α : Type} (send : ℕ → ℕ → Option Errno) : ℕ → List α → List α
  | _, [] => []
  | i, x :: xs =>
    if (List.range 3).any fun k => (send i k).isNone then x :: sendChanListenLoop send (i + 1) xs
    else sendChanListenLoop send (i + 1) xs

section
variable {α β : Type} {send : ℕ → ℕ → Option Errno}

theorem sendChanListenLoop_eq (h : ∀ i, ∃ k < 3, send i k = none) (i : ℕ) (xs : List α) :
    sendChanListenLoop send i xs = xs := by
  induction xs generalizing i with
  | nil => rfl
  | cons x xs ih =>
    obtain ⟨k, hk, hsend⟩ := h i
    have hany : (List.range 3).any (fun k => (send i k).isNone) = true :=
      List.any_eq_true.mpr ⟨k, List.mem_range.mpr hk, by rw [hsend]; rfl⟩
    rw [sendChanListenLoop, if_pos hany, ih]

theorem sendChanListenLoop_map (f : α → β) (i : ℕ) (xs : List α) :
    sendChanListenLoop send i (xs.map f) = (sendChanListenLoop send i xs).map f := by
  induction xs generalizing i with
  | nil => rfl
  | cons x xs ih =>
    rw [List.map_cons, sendChanListenLoop, sendChanListenLoop, ih]
    split_ifs
    · rfl
    · rfl

theorem sendChanListenLoop_append (i : ℕ) (xs ys : List α) :
    sendChanListenLoop send i (xs ++ ys) =
      sendChanListenLoop send i xs ++ sendChanListenLoop send (i + xs.length) ys := by
  induction xs generalizing i with
  | nil => rfl
  | cons x xs ih =>
    rw [List.cons_append, sendChanListenLoop, sendChanListenLoop, ih, List.length_cons,
      show i + 1 + xs.length = i + (xs.length + 1) by omega]
    split_ifs
    · rfl
    · rfl

end

inductive StreamEnd where
  | eof
  | failed (e : Errno)
  | waiting
  deriving DecidableEq, Repr

def Router.channel (r : Router) (id : UInt64) : List Response × Bool :=
  match r.m[id]? with
  | some sent => (sent, false)
  | none => ((r.closed.reverse.find? fun ch => ch.1 = id).elim [] Prod.snd, true)

/-- The loop of `SendRequest` over the channel of its request. -/
def forwardLoop (send : ℕ → Option Errno) (closed : Bool) :
    ℕ → List Response → List Response × StreamEnd
  | _, [] => ([], if closed then .eof else .waiting)
  | i, x :: xs =>
    match send i with
    | some e => ([], .failed e)
    | none => (x :: (forwardLoop send closed (i + 1) xs).1, (forwardLoop send closed (i + 1) xs).2)

structure Relay where
  /-- the call of `SendRequest` by the client -/
  call : Option Errno := none
  clusterInfo : Option ClusterInfo
  /-- the nodes whose streams are kept -/
  streams : List UInt64
  requestSeq : UInt64
  router : Router := {}
  /-- the request on the stream of the leader -/
  send : Option Errno := none
  /-- attempt `k` for the `i`-th response, on the edge -/
  respond : ℕ → ℕ → Option Errno := fun _ _ => none
  /-- the responses that `eventLoop` receives before the stream of the leader breaks -/
  lost : Option ℕ := none
  /-- the `i`-th response to the client -/
  forward : ℕ → Option Errno := fun _ => none
  /-- the responses that the client receives before its connection breaks -/
  broken : Option (ℕ × Errno) := none

namespace Relay
variable (relay : Relay)

/-- The responses that `eventLoop` receives. -/
def arrived (responses : List Response) : List Response :=
  let sent := sendChanListenLoop relay.respond 0 responses
  match relay.lost with
  | none => sent
  | some n => sent.take n

def numbered (request : Request) : Request := { request with requestSeq := relay.requestSeq }

/-- The end of `SendRequestToNode`. -/
def registered : Option (Except Errno Router) :=
  (relay.router.register relay.requestSeq).map fun router =>
    match relay.send with
    | some e => .error e
    | none => .ok router

/-- `SendRequest` of the cloud, with the outpost of the leader; `none` where it panics. -/
def sendRequest (o : Outpost) (request : Request) : Option (List Response × StreamEnd) := do
  match ← sendRequestToEdgeLeader relay.clusterInfo relay.streams relay.registered with
  | .error e => return ([], .failed e)
  | .ok router =>
    let responses ← o.handle (relay.numbered request)
    let router ← (relay.arrived responses).foldlM Router.receive router
    let (sent, closed) := router.channel relay.requestSeq
    return forwardLoop relay.forward closed 0 sent

/-- What `Recv` gives the client. -/
def received : List Response × StreamEnd → List Response × StreamEnd
  | (responses, finish) =>
    match relay.broken with
    | none => (responses, finish)
    | some (n, e) => (responses.take n, .failed e)

end Relay

inductive FetchError where
  | stream (e : Errno)
  | answer (blockId : Bytes) (message : String)
  deriving DecidableEq, Repr

/-- The loop of `GetBlockInEdgeByCloud`. A response without a result makes it panic, and a stream
that does not end keeps it waiting. -/
def recvResponses (blockId : Bytes) :
    Bytes → List Response → StreamEnd → Option (Except FetchError Bytes)
  | block, [], .eof => some (.ok block)
  | _, [], .failed e => some (.error (.stream e))
  | _, [], .waiting => none
  | block, res :: responses, finish => do
    let result ← res.result
    if result.status ≠ .OK then return .error (.answer blockId result.message)
    else recvResponses blockId (block ++ res.chunk) responses finish

theorem recvResponses_chunks (blockId block : Bytes) (request : Request) (chunks : List Bytes)
    (responses : List Response) (finish : StreamEnd) :
    recvResponses blockId block (chunks.map (chunkResponse request) ++ responses) finish =
      recvResponses blockId (block ++ chunks.flatten) responses finish := by
  induction chunks generalizing block with
  | nil => simp
  | cons chunk chunks ih =>
    rw [List.map_cons, List.cons_append, List.flatten_cons, ← List.append_assoc, ← ih]
    rfl

theorem recvResponses_fail (blockId block : Bytes) (request : Request) (e : Errno)
    (responses : List Response) (finish : StreamEnd) :
    recvResponses blockId block (Outpost.returnFail request e :: responses) finish =
      some (.error (.answer blockId e.error)) := rfl

theorem recvResponses_last (blockId block : Bytes) (request : Request) :
    recvResponses blockId block [lastResponse request] .eof = some (.ok block) := by
  show some (Except.ok (block ++ [])) = _
  rw [List.append_nil]

/-- A block is returned only where the stream has ended. -/
theorem eof_of_recvResponses {blockId block data : Bytes} {responses : List Response}
    {finish : StreamEnd} (h : recvResponses blockId block responses finish = some (.ok data)) :
    finish = .eof := by
  induction responses generalizing block with
  | nil =>
    cases finish with
    | eof => rfl
    | failed e => cases h
    | waiting => cases h
  | cons res responses ih =>
    rw [recvResponses, Option.bind_eq_bind, Option.bind_eq_some_iff] at h
    obtain ⟨result, -, h⟩ := h
    split_ifs at h
    · cases h
    · exact ih h

/-- Where the loop of `SendRequest` ends without an error, all of a closed channel is sent. -/
theorem forwardLoop_eof {send : ℕ → Option Errno} {closed : Bool} {i : ℕ} {xs : List Response}
    (h : (forwardLoop send closed i xs).2 = .eof) :
    closed = true ∧ (forwardLoop send closed i xs).1 = xs := by
  induction xs generalizing i with
  | nil =>
    cases closed with
    | true => exact ⟨rfl, rfl⟩
    | false => cases h
  | cons x xs ih =>
    rw [forwardLoop] at h ⊢
    cases hsend : send i with
    | some e =>
      rw [hsend] at h
      cases h
    | none =>
      rw [hsend] at h
      obtain ⟨hclosed, hxs⟩ := ih h
      exact ⟨hclosed, congrArg (List.cons x) hxs⟩

theorem forwardLoop_none {send : ℕ → Option Errno} (hsend : ∀ i, send i = none) (i : ℕ)
    (xs : List Response) : forwardLoop send true i xs = (xs, .eof) := by
  induction xs generalizing i with
  | nil => rfl
  | cons x xs ih =>
    rw [forwardLoop, hsend, ih]

/-- A channel that is closed stays as it is. -/
theorem channel_of_closed {r r' : Router} {id : UInt64} (hr : r.m[id]? = none)
    {xs : List Response} (hxs : ∀ x ∈ xs, x.responseTo = id)
    (h : xs.foldlM Router.receive r = some r') : r' = r := by
  induction xs with
  | nil => exact (Option.some.inj h).symm
  | cons x xs ih =>
    have hx : r.m[x.responseTo]? = none := by rw [hxs x List.mem_cons_self, hr]
    rw [List.foldlM_cons, Option.bind_eq_bind, Option.bind_eq_some_iff] at h
    obtain ⟨r₁, h₁, h⟩ := h
    have hsame : r₁ = r := by
      cases hlast : x.isLast with
      | true => simp [Router.receive, Router.send, Router.unregister, hx, hlast] at h₁
      | false =>
        simp only [Router.receive, Router.send, hx, hlast, Bool.false_eq_true, if_false,
          Option.some.injEq] at h₁
        exact h₁.symm
    rw [hsame] at h
    exact ih (fun y hy => hxs y (List.mem_cons_of_mem x hy)) h

/-- A channel is closed by the first response that is marked as the last one. -/
theorem channel_of_receive {r r' : Router} {id : UInt64} {got sent : List Response}
    (hr : r.m[id]? = some got) {xs : List Response} (hxs : ∀ x ∈ xs, x.responseTo = id)
    (h : xs.foldlM Router.receive r = some r') (hsent : r'.channel id = (sent, true)) :
    ∃ init last, init ++ [last] <+: xs ∧ last.isLast = true ∧ sent = got ++ (init ++ [last]) := by
  induction xs generalizing r got with
  | nil =>
    cases h
    simp [Router.channel, hr] at hsent
  | cons x xs ih =>
    have hx := hxs x List.mem_cons_self
    have hrest : ∀ y ∈ xs, y.responseTo = id := fun y hy => hxs y (List.mem_cons_of_mem x hy)
    rw [List.foldlM_cons, Option.bind_eq_bind, Option.bind_eq_some_iff] at h
    obtain ⟨r₁, h₁, h⟩ := h
    cases hlast : x.isLast with
    | true =>
      rw [Router.receive_last (hx ▸ hr) hlast] at h₁
      cases h₁
      -- what comes later finds no channel
      have hsame := channel_of_closed (by simp [hx]) hrest h
      rw [hsame] at hsent
      refine ⟨[], x, ⟨xs, rfl⟩, hlast, ?_⟩
      simpa [Router.channel, hx] using hsent.symm
    | false =>
      rw [Router.receive_of_not_last (hx ▸ hr) hlast] at h₁
      cases h₁
      have hgot : (r.m.insert x.responseTo (got ++ [x]))[id]? = some (got ++ [x]) := by simp [hx]
      obtain ⟨init, last, hpre, hmark, heq⟩ := ih hgot hrest h
      refine ⟨x :: init, last, List.cons_prefix_cons.mpr ⟨rfl, hpre⟩, hmark, ?_⟩
      rw [heq, List.append_assoc]
      rfl

theorem Router.register_eq {r r' : Router} {id : UInt64} (h : r.register id = some r') :
    r'.m[id]? = some [] := by
  unfold Router.register at h
  split at h
  · cases h
    exact ExtTreeMap.getElem?_insert_self
  · cases h

namespace Outpost
variable (o : Outpost) (request : Request)

/-- The end of the block, if it is sent at all, is the last response. -/
theorem fetchBlocks_framed (nodeIds : List UInt64) :
    WellFramed request (o.fetchBlocks request nodeIds) ∨
      Unmarked request (o.fetchBlocks request nodeIds) := by
  induction nodeIds with
  | nil => exact .inr (unmarked_returnFail request _)
  | cons nodeID nodeIds ih =>
    rw [fetchBlocks]
    rcases o.fetchBlock_spec request nodeID with ⟨-, hdone, hframed⟩ | ⟨-, hdone, hun⟩
    · rw [show o.fetchBlock request nodeID = ((o.fetchBlock request nodeID).1, true) from
        Prod.ext rfl hdone]
      exact .inl hframed
    · rw [show o.fetchBlock request nodeID = ((o.fetchBlock request nodeID).1, false) from
        Prod.ext rfl hdone]
      rcases ih with hframed | hmore
      · exact .inl ((wellFramed_append hun).mpr hframed)
      · refine .inr fun x hx => ?_
        rcases List.mem_append.mp hx with hx | hx
        · exact hun x hx
        · exact hmore x hx

theorem handle_block (h : request.resource = .BLOCK) :
    o.handle request = some (o.doBlockRequest request) := by
  rw [handle, h]

theorem doBlockRequest_framed :
    WellFramed request (o.doBlockRequest request) ∨
      Unmarked request (o.doBlockRequest request) := by
  unfold doBlockRequest
  split
  · split
    · exact .inr (unmarked_returnFail request _)
    · split
      · exact .inr (unmarked_returnFail request _)
      · exact o.fetchBlocks_framed request _
  · exact .inr fun x hx => (by cases hx)

end Outpost

/-- A marked response ends the responses that are framed. -/
theorem eq_of_framed {request : Request} {responses init : List Response} {last : Response}
    (h : WellFramed request responses ∨ Unmarked request responses)
    (hpre : init ++ [last] <+: responses) (hlast : last.isLast = true) :
    init ++ [last] = responses := by
  obtain ⟨rest, hrest⟩ := hpre
  rcases h with ⟨-, init', last', heq, -, hinit⟩ | hun
  · rcases List.eq_nil_or_concat rest with rfl | ⟨rest, y, rfl⟩
    · rw [← hrest, List.append_nil]
    · rw [heq, List.concat_eq_append, ← List.append_assoc] at hrest
      have hmem : last ∈ init' := by
        rw [← (List.append_inj' hrest rfl).1]
        simp
      rw [hinit last hmem] at hlast
      cases hlast
  · have hmem : last ∈ responses := by
      rw [← hrest]
      simp
    rw [(hun last hmem).2.2] at hlast
    cases hlast

namespace Relay
variable {relay : Relay} {o : Outpost} {request : Request}

theorem registered_eq_ok {router : Router} (h : relay.registered = some (.ok router)) :
    relay.router.register relay.requestSeq = some router := by
  obtain ⟨router', hrouter, h⟩ := Option.map_eq_some_iff.mp h
  split at h
  · cases h
  · cases h
    exact hrouter

/-- A request through the cloud that ends has all responses of the edge, if none of them is given
up. -/
theorem sendRequest_eof (hrelay : ∀ i, ∃ k < 3, relay.respond i k = none)
    (hblock : request.resource = .BLOCK) {responses : List Response}
    (h : relay.sendRequest o request = some (responses, .eof)) :
    responses = o.doBlockRequest (relay.numbered request) := by
  obtain ⟨result, hresult, h⟩ := Option.bind_eq_some_iff.mp h
  cases result with
  | error e => cases h
  | ok router =>
    obtain ⟨sent, hsent, h⟩ := Option.bind_eq_some_iff.mp h
    obtain ⟨router', hrouter', h⟩ := Option.bind_eq_some_iff.mp h
    have hrouter := registered_eq_ok (sendRequestToEdgeLeader_eq_ok hresult)
    rw [o.handle_block (relay.numbered request) hblock, Option.some.injEq] at hsent
    have hforward := Option.some.inj h
    obtain ⟨hclosed, hall⟩ := forwardLoop_eof (congrArg Prod.snd hforward)
    rw [hforward] at hall
    have hframed := o.doBlockRequest_framed (relay.numbered request)
    rw [hsent] at hframed ⊢
    -- the responses are addressed to the request, and the loop on the edge has kept all of them
    have hto : ∀ x ∈ sent, x.responseTo = relay.requestSeq := by
      intro x hx
      rcases hframed with hframed | hun
      · exact (hframed.1 x hx).1
      · exact (hun x hx).1
    have hpre : relay.arrived sent <+: sent := by
      rw [arrived, sendChanListenLoop_eq hrelay]
      cases relay.lost with
      | none => exact List.prefix_rfl
      | some n => exact List.take_prefix n sent
    have hchannel : router'.channel relay.requestSeq = (responses, true) :=
      Prod.ext hall.symm hclosed
    obtain ⟨init, last, hinit, hlast, heq⟩ := channel_of_receive
      (Router.register_eq hrouter) (fun x hx => hto x (hpre.subset hx)) hrouter' hchannel
    rw [heq, List.nil_append]
    exact eq_of_framed hframed (hinit.trans hpre) hlast

/-- Nothing fails on the way, apart from the attempts of the edge. -/
structure Calm (relay : Relay) : Prop where
  call : relay.call = none
  leader : ∃ clusterInfo leader, relay.clusterInfo = some clusterInfo ∧
    clusterInfo.leaderInfo = some leader ∧ leader.raftId ∈ relay.streams
  unregistered : relay.router.m[relay.requestSeq]? = none
  send : relay.send = none
  lost : relay.lost = none
  forward : ∀ i, relay.forward i = none
  broken : relay.broken = none

/-- The chunks that the edge gives up are missing, and nothing tells the client. -/
theorem Calm.sendRequest (h : relay.Calm) (hblock : request.resource = .BLOCK)
    {chunks : List Bytes} (hresponses : o.doBlockRequest (relay.numbered request) =
      chunks.map (chunkResponse (relay.numbered request)) ++
        [lastResponse (relay.numbered request)])
    (hlast : ∃ k < 3, relay.respond chunks.length k = none) :
    relay.sendRequest o request =
      some ((sendChanListenLoop relay.respond 0 chunks).map
        (chunkResponse (relay.numbered request)) ++ [lastResponse (relay.numbered request)],
        .eof) := by
  obtain ⟨clusterInfo, leader, hinfo, hleader, hstream⟩ := h.leader
  obtain ⟨k, hk, hrespond⟩ := hlast
  have hany : (List.range 3).any (fun k => (relay.respond chunks.length k).isNone) = true :=
    List.any_eq_true.mpr ⟨k, List.mem_range.mpr hk, by rw [hrespond]; rfl⟩
  -- the last response gets through, whatever is given up before it
  have harrived : relay.arrived (o.doBlockRequest (relay.numbered request)) =
      (sendChanListenLoop relay.respond 0 chunks).map (chunkResponse (relay.numbered request)) ++
        [lastResponse (relay.numbered request)] := by
    rw [arrived, h.lost, hresponses, sendChanListenLoop_append, sendChanListenLoop_map,
      List.length_map, Nat.zero_add, sendChanListenLoop, if_pos hany]
    rfl
  have hchunks : ∀ x ∈ (sendChanListenLoop relay.respond 0 chunks).map
      (chunkResponse (relay.numbered request)),
      x.responseTo = relay.requestSeq ∧ x.isLast = false := by
    intro x hx
    obtain ⟨chunk, -, rfl⟩ := List.mem_map.mp hx
    exact ⟨rfl, rfl⟩
  have hreceive := @receive_all relay.requestSeq _ (lastResponse (relay.numbered request)) hchunks
    rfl rfl { relay.router with m := relay.router.m.insert relay.requestSeq [] } []
    ExtTreeMap.getElem?_insert_self
  simp only [Relay.sendRequest, sendRequestToEdgeLeader, sendRequestToNode, registered, hinfo,
    hleader, hstream, Router.register, h.unregistered, h.send,
    o.handle_block (relay.numbered request) hblock, harrived, hreceive, Option.bind_eq_bind,
    Option.bind_some, Option.map_some, not_true_eq_false, if_false]
  simp [Router.channel, forwardLoop_none h.forward]

end Relay

end Ecos.Rainbow
