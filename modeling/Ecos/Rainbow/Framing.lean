import Ecos.Rainbow.Handlers

namespace Ecos.Rainbow
open Go Std Moon Gaia

/-- Who handles a request: an edge node, the cloud on a stream that was just opened, or the
cloud on an open stream. -/
inductive Responder where
  | edge (o : Outpost)
  | newStream
  | cloud (r : CloudRainbow)

def Responder.respond : Responder → Request → Option (List Response)
  | edge o, request => o.handle request
  | newStream, request => CloudRainbow.accept request
  | cloud r, request => (r.handle request).map Prod.snd

/-- Every response is addressed to the request and carries a result, and the last one, and only
the last one, is marked. -/
def WellFramed (request : Request) (sent : List Response) : Prop :=
  (∀ x ∈ sent, x.responseTo = request.requestSeq ∧ x.result ≠ none) ∧
    ∃ init last, sent = init ++ [last] ∧ last.isLast = true ∧ ∀ x ∈ init, x.isLast = false

/-- The requester's entry is removed once, and its channel is closed after the last response. -/
def Settles (request : Request) (sent : List Response) : Prop :=
  ∀ r : Router, r.m[request.requestSeq]? = some [] → sent.foldlM Router.receive r =
    some ⟨r.m.erase request.requestSeq, r.closed ++ [(request.requestSeq, sent)]⟩

theorem erase_insert_self {ν : Type} (m : ExtTreeMap UInt64 ν compare) (k : UInt64) (v : ν) :
    (m.insert k v).erase k = m.erase k := by
  apply ExtTreeMap.ext_getElem?
  intro j
  simp only [ExtTreeMap.getElem?_erase, ExtTreeMap.getElem?_insert]
  split_ifs <;> rfl

theorem Router.receive_of_not_last {r : Router} {x : Response} {got : List Response}
    (hr : r.m[x.responseTo]? = some got) (hx : x.isLast = false) :
    r.receive x = some { r with m := r.m.insert x.responseTo (got ++ [x]) } := by
  simp [receive, send, hr, hx]

theorem Router.receive_last {r : Router} {x : Response} {got : List Response}
    (hr : r.m[x.responseTo]? = some got) (hx : x.isLast = true) :
    r.receive x = some ⟨r.m.erase x.responseTo, r.closed ++ [(x.responseTo, got ++ [x])]⟩ := by
  simp [receive, send, unregister, hr, hx, erase_insert_self]

/-- Responses that arrive one after the other pile up in the channel until it is closed. -/
theorem receive_all {seq : UInt64} {init : List Response} {last : Response}
    (hinit : ∀ x ∈ init, x.responseTo = seq ∧ x.isLast = false) (hseq : last.responseTo = seq)
    (hlast : last.isLast = true) {r : Router} {got : List Response} (hr : r.m[seq]? = some got) :
    (init ++ [last]).foldlM Router.receive r =
      some ⟨r.m.erase seq, r.closed ++ [(seq, got ++ (init ++ [last]))]⟩ := by
  induction init generalizing r got with
  | nil =>
    subst hseq
    simp [Router.receive_last hr hlast]
  | cons x init ih =>
    obtain ⟨hx, hnot⟩ := hinit x List.mem_cons_self
    have hrest : ∀ y ∈ init, y.responseTo = seq ∧ y.isLast = false :=
      fun y hy => hinit y (List.mem_cons_of_mem x hy)
    have hr' : (r.m.insert seq (got ++ [x]))[seq]? = some (got ++ [x]) := by simp
    rw [List.cons_append, List.foldlM_cons, Router.receive_of_not_last (hx ▸ hr) hnot, hx]
    have := ih hrest (r := { r with m := r.m.insert seq (got ++ [x]) }) hr'
    simpa [erase_insert_self] using this

theorem WellFramed.settles {request : Request} {sent : List Response}
    (h : WellFramed request sent) : Settles request sent := by
  intro r hr
  obtain ⟨hall, init, last, rfl, hlast, hinit⟩ := h
  have hmem : ∀ x ∈ init, x.responseTo = request.requestSeq ∧ x.isLast = false :=
    fun x hx => ⟨(hall x (List.mem_append_left _ hx)).1, hinit x hx⟩
  have := receive_all hmem (hall last (by simp)).1 hlast hr
  simpa using this

theorem not_wellFramed_nil (request : Request) : ¬ WellFramed request [] := by
  rintro ⟨-, init, last, heq, -⟩
  simp at heq

theorem wellFramed_singleton {request : Request} {x : Response} :
    WellFramed request [x] ↔
      x.responseTo = request.requestSeq ∧ x.result ≠ none ∧ x.isLast = true := by
  constructor
  · rintro ⟨hall, init, last, heq, hlast, -⟩
    obtain ⟨-, rfl⟩ := List.append_inj' (show [] ++ [x] = init ++ [last] from heq) rfl
      |>.imp_right List.singleton_inj.mp
    exact ⟨(hall x (by simp)).1, (hall x (by simp)).2, hlast⟩
  · rintro ⟨hseq, hresult, hlast⟩
    refine ⟨?_, [], x, rfl, hlast, by simp⟩
    intro y hy
    rw [List.mem_singleton.mp hy]
    exact ⟨hseq, hresult⟩

def Unmarked (request : Request) (sent : List Response) : Prop :=
  ∀ x ∈ sent, x.responseTo = request.requestSeq ∧ x.result ≠ none ∧ x.isLast = false

/-- Responses in front that are not marked change nothing. -/
theorem wellFramed_append {request : Request} {front sent : List Response}
    (hfront : Unmarked request front) :
    WellFramed request (front ++ sent) ↔ WellFramed request sent := by
  constructor
  · rintro ⟨hall, init, last, heq, hlast, hinit⟩
    refine ⟨fun x hx => hall x (List.mem_append_right _ hx), ?_⟩
    rcases List.eq_nil_or_concat sent with rfl | ⟨rest, y, rfl⟩
    · -- the marked response would lie in front
      rw [List.append_nil] at heq
      have := (hfront last (heq ▸ by simp)).2.2
      rw [hlast] at this
      cases this
    · rw [List.concat_eq_append, ← List.append_assoc] at heq
      obtain ⟨hfrontRest, hy⟩ := List.append_inj' heq rfl
      rw [List.singleton_inj.mp hy]
      refine ⟨rest, last, by simp, hlast, ?_⟩
      exact fun x hx => hinit x (hfrontRest ▸ List.mem_append_right _ hx)
  · rintro ⟨hall, init, last, rfl, hlast, hinit⟩
    refine ⟨?_, front ++ init, last, by simp, hlast, ?_⟩
    · intro x hx
      rcases List.mem_append.mp hx with hx | hx
      · exact ⟨(hfront x hx).1, (hfront x hx).2.1⟩
      · exact hall x hx
    · intro x hx
      rcases List.mem_append.mp hx with hx | hx
      · exact (hfront x hx).2.2
      · exact hinit x hx

theorem Unmarked.not_wellFramed {request : Request} {sent : List Response}
    (h : Unmarked request sent) : ¬ WellFramed request sent := by
  rw [← List.append_nil sent, wellFramed_append h]
  exact not_wellFramed_nil request

theorem unmarked_singleton {request : Request} {x : Response}
    (hx : x.responseTo = request.requestSeq ∧ x.result ≠ none ∧ x.isLast = false) :
    Unmarked request [x] := by
  intro y hy
  rw [List.mem_singleton.mp hy]
  exact hx

namespace Outpost
variable (o : Outpost) (request : Request)

theorem unmarked_returnFail (err : Errno) : Unmarked request [returnFail request err] :=
  unmarked_singleton ⟨rfl, by simp [returnFail], rfl⟩

theorem unmarked_returnOK (metas : List PositionedMeta) (infos : List BaseInfo) :
    Unmarked request [{ returnOK request with metas := metas, infos := infos }] :=
  unmarked_singleton ⟨rfl, by simp [returnOK], rfl⟩

/-- A `LIST` of metas that succeeds. -/
def Listed : Prop :=
  request.method = .LIST ∧ o.getClient = true ∧
    ∃ bucketName key metas, listArguments request = some (bucketName, key) ∧
      o.listObjects bucketName key = .ok metas

theorem doMetaList_wellFramed_iff :
    (∃ sent, o.doMetaList request = some sent ∧ WellFramed request sent) ↔
      o.getClient = true ∧ ∃ bucketName key metas,
        listArguments request = some (bucketName, key) ∧ o.listObjects bucketName key = .ok metas := by
  unfold doMetaList
  cases hargs : listArguments request with
  | none => simp
  | some args =>
    obtain ⟨bucketName, key⟩ := args
    cases hclient : o.getClient with
    | false => simp
    | true =>
      cases hlist : o.listObjects bucketName key with
      | error e =>
        have hnot := (unmarked_returnFail request e).not_wellFramed
        simp [hlist, hnot]
      | ok metas => simp [hlist, wellFramed_singleton, returnOK]

/-- A `GET` of a meta is answered by one response without the mark. -/
theorem doMetaGet_unmarked {sent : List Response} (h : o.doMetaGet request = some sent) :
    Unmarked request sent := by
  unfold doMetaGet at h
  dsimp only at h
  split at h
  · cases h
  · split at h
    · cases h
      exact unmarked_returnFail request _
    · cases h
      exact unmarked_returnOK request _ _

theorem doMetaPut_unmarked {sent : List Response} (h : o.doMetaPut request = some sent) :
    Unmarked request sent := by
  unfold doMetaPut at h
  simp only [Option.bind_eq_bind, Option.bind_eq_some_iff] at h
  obtain ⟨objectMeta, -, h⟩ := h
  split at h
  · cases h
    exact unmarked_returnFail request _
  · rw [Option.bind_eq_some_iff] at h
    obtain ⟨nodeInfo, -, h⟩ := h
    split at h
    · cases h
      exact unmarked_returnFail request _
    · split at h
      · cases h
        exact unmarked_returnFail request _
      · cases h
        exact unmarked_returnOK request [] []

theorem doMetaRequest_wellFramed_iff :
    (∃ sent, o.doMetaRequest request = some sent ∧ WellFramed request sent) ↔
      o.Listed request := by
  unfold doMetaRequest Listed
  cases hmethod : request.method with
  | LIST => simpa using o.doMetaList_wellFramed_iff request
  | GET =>
    refine iff_of_false ?_ (by simp)
    rintro ⟨sent, hsent, hframed⟩
    exact (o.doMetaGet_unmarked request hsent).not_wellFramed hframed
  | PUT =>
    refine iff_of_false ?_ (by simp)
    rintro ⟨sent, hsent, hframed⟩
    exact (o.doMetaPut_unmarked request hsent).not_wellFramed hframed
  | UNKNOWN => simp [(unmarked_returnFail request _).not_wellFramed]
  | DELETE => simp [(unmarked_returnFail request _).not_wellFramed]

/-- The node can be reached and delivers the block up to `io.EOF`. -/
def Delivers (nodeID : UInt64) : Prop :=
  ∃ nodeInfo stream, o.getNodeInfo nodeID = .ok nodeInfo ∧
    o.getRpcConnByNodeInfo nodeInfo = none ∧
    o.getBlockData nodeInfo request.requestId request.term = .ok stream ∧ stream.err = none

theorem unmarked_chunks (chunks : List Bytes) :
    Unmarked request (chunks.map fun c => { returnOK request with chunk := c }) := by
  intro x hx
  obtain ⟨c, -, rfl⟩ := List.mem_map.mp hx
  exact ⟨rfl, by simp [returnOK], rfl⟩

/-- A node that delivers the block ends the handler with a marked response; any other node
leaves responses without a mark, and the loop goes on. -/
theorem fetchBlock_spec (nodeID : UInt64) :
    (o.Delivers request nodeID ∧ (o.fetchBlock request nodeID).2 = true ∧
        WellFramed request (o.fetchBlock request nodeID).1) ∨
      (¬ o.Delivers request nodeID ∧ (o.fetchBlock request nodeID).2 = false ∧
        Unmarked request (o.fetchBlock request nodeID).1) := by
  have hnil : Unmarked request [] := by simp [Unmarked]
  unfold fetchBlock Delivers
  cases hinfo : o.getNodeInfo nodeID with
  | error e => exact .inr ⟨by simp, rfl, hnil⟩
  | ok nodeInfo =>
    cases hconn : o.getRpcConnByNodeInfo nodeInfo with
    | some e => exact .inr ⟨by simp [hconn], by simp [hconn], by simp [hconn, hnil]⟩
    | none =>
      cases hdata : o.getBlockData nodeInfo request.requestId request.term with
      | error e =>
        exact .inr ⟨by simp [hdata], by simp [hconn, hdata], by simp [hconn, hdata, hnil]⟩
      | ok stream =>
        simp only [hconn, hdata]
        cases hend : stream.err with
        | none =>
          refine .inl ⟨⟨nodeInfo, stream, rfl, hconn, hdata, hend⟩, rfl, ?_⟩
          refine (wellFramed_append (unmarked_chunks request stream.chunks)).mpr ?_
          exact wellFramed_singleton.mpr ⟨rfl, by simp [returnOK], rfl⟩
        | some e =>
          refine .inr ⟨?_, rfl, ?_⟩
          · rintro ⟨nodeInfo', stream', hinfo', -, hdata', hend'⟩
            cases hinfo'
            rw [hdata] at hdata'
            cases hdata'
            rw [hend] at hend'
            cases hend'
          · dsimp only
            split_ifs
            · exact hnil
            · intro x hx
              rcases List.mem_append.mp hx with hx | hx
              · exact unmarked_chunks request stream.chunks x hx
              · exact unmarked_returnFail request e x hx

theorem fetchBlocks_wellFramed_iff (nodeIds : List UInt64) :
    WellFramed request (o.fetchBlocks request nodeIds) ↔
      ∃ nodeID ∈ nodeIds, o.Delivers request nodeID := by
  induction nodeIds with
  | nil => exact iff_of_false (unmarked_returnFail request _).not_wellFramed (by simp)
  | cons nodeID nodeIds ih =>
    unfold fetchBlocks
    rcases o.fetchBlock_spec request nodeID with ⟨hdel, hdone, hframed⟩ | ⟨hdel, hdone, hun⟩
    · rw [show o.fetchBlock request nodeID = ((o.fetchBlock request nodeID).1, true) from
        Prod.ext rfl hdone]
      exact iff_of_true hframed ⟨nodeID, List.mem_cons_self, hdel⟩
    · rw [show o.fetchBlock request nodeID = ((o.fetchBlock request nodeID).1, false) from
        Prod.ext rfl hdone]
      dsimp only
      rw [wellFramed_append hun, ih]
      simp [hdel]

/-- A `GET` of a block that some node delivers. -/
def Fetched : Prop :=
  request.method = .GET ∧
    ∃ clusterInfo nodeIds, o.getClusterInfoByTerm request.term = .ok clusterInfo ∧
      o.blockNodes clusterInfo request.requestId = .ok nodeIds ∧
      ∃ nodeID ∈ nodeIds, o.Delivers request nodeID

theorem doBlockRequest_wellFramed_iff :
    WellFramed request (o.doBlockRequest request) ↔ o.Fetched request := by
  unfold doBlockRequest Fetched
  cases hmethod : request.method with
  | GET =>
    cases hinfo : o.getClusterInfoByTerm request.term with
    | error e => simpa using (unmarked_returnFail request e).not_wellFramed
    | ok clusterInfo =>
      cases hnodes : o.blockNodes clusterInfo request.requestId with
      | error e => simpa [hnodes] using (unmarked_returnFail request e).not_wellFramed
      | ok nodeIds => simpa [hnodes] using o.fetchBlocks_wellFramed_iff request nodeIds
  | UNKNOWN | PUT | DELETE | LIST => simpa using not_wellFramed_nil request

theorem doInfoRequest_not_wellFramed : ¬ WellFramed request (o.doInfoRequest request) := by
  unfold doInfoRequest
  cases request.method with
  | GET =>
    dsimp only
    split
    · exact (unmarked_returnFail request _).not_wellFramed
    · exact (unmarked_returnOK request [] _).not_wellFramed
  | UNKNOWN | PUT | DELETE | LIST => exact not_wellFramed_nil request

theorem handle_wellFramed_iff :
    (∃ sent, o.handle request = some sent ∧ WellFramed request sent) ↔
      (request.resource = .META ∧ o.Listed request) ∨
        (request.resource = .BLOCK ∧ o.Fetched request) := by
  unfold handle
  cases hresource : request.resource with
  | META => simpa using o.doMetaRequest_wellFramed_iff request
  | BLOCK => simpa using o.doBlockRequest_wellFramed_iff request
  | INFO => simpa using o.doInfoRequest_not_wellFramed request
  | UNKNOWN | OBJECT => simpa using not_wellFramed_nil request

end Outpost

namespace CloudRainbow
variable (r : CloudRainbow) (request : Request)

theorem wellFramed_sendError (err : Errno) : WellFramed request [sendError request err] :=
  wellFramed_singleton.mpr ⟨rfl, by simp [sendError], rfl⟩

/-- A response without a result is among those to a `DELETE`. -/
theorem processMetaRequest_wellFramed_iff :
    WellFramed request (r.processMetaRequest request) ↔ request.method ≠ .DELETE := by
  unfold processMetaRequest
  cases request.method with
  | DELETE =>
    refine iff_of_false ?_ (by simp)
    rintro ⟨hall, -⟩
    exact (hall { responseTo := request.requestSeq, isLast := true } (by simp)).2 rfl
  | UNKNOWN | GET | PUT | LIST => simpa using wellFramed_sendError request _

theorem process_wellFramed_iff :
    WellFramed request (r.process request) ↔
      ¬ (request.resource = .META ∧ request.method = .DELETE) := by
  unfold process
  cases hresource : request.resource with
  | META => simpa using r.processMetaRequest_wellFramed_iff request
  | UNKNOWN | INFO | OBJECT | BLOCK => simpa using wellFramed_sendError request _

/-- A `PUT` of an info that is no cluster info gets an answer. -/
theorem handle_wellFramed_iff :
    (∃ sent, (r.handle request).map Prod.snd = some sent ∧ WellFramed request sent) ↔
      ¬ (request.resource = .META ∧ request.method = .DELETE) ∧
        (request.resource = .INFO ∧ request.method = .PUT →
          ∃ info, request.info = some info ∧ info.getInfoType ≠ .CLUSTER_INFO) := by
  unfold handle
  by_cases hput : request.method = .PUT ∧ request.resource = .INFO
  · obtain ⟨hmethod, hresource⟩ := hput
    have hprocess : WellFramed request (r.process request) :=
      (r.process_wellFramed_iff request).mpr (by simp [hresource])
    cases hinfo : request.info with
    | none => simp [hmethod, hresource]
    | some info =>
      cases info with
      | clusterInfo info =>
        simp [hmethod, hresource, BaseInfo.getInfoType, not_wellFramed_nil]
      | unset | nodeInfo _ | bucketInfo _ | userInfo _ | groupInfo _ | volumeInfo _
        | accessInfo _ => simp [hmethod, hresource, BaseInfo.getInfoType, hprocess]
  · rw [if_neg hput]
    have hvacuous : ¬ (request.resource = .INFO ∧ request.method = .PUT) :=
      fun h => hput ⟨h.2, h.1⟩
    simp only [Option.map_some, Option.some.injEq, exists_eq_left', process_wellFramed_iff]
    exact ⟨fun h => ⟨h, fun h' => absurd h' hvacuous⟩, fun h => h.1⟩

/-- The response that opens a stream carries no result. -/
theorem accept_not_wellFramed {sent : List Response} (h : accept request = some sent) :
    ¬ WellFramed request sent := by
  unfold accept at h
  split at h
  · cases h
    simp [wellFramed_singleton]
  · cases h

end CloudRainbow

/-- The requests whose responses end once: on the edge a `LIST` of metas that succeeds and a
`GET` of a block that some node delivers; on the cloud everything but the request that opens a
stream, a `DELETE` of a meta, and the `PUT` of a cluster info or of none. -/
def Responder.Terminates : Responder → Request → Prop
  | edge o, request =>
    (request.resource = .META ∧ o.Listed request) ∨ (request.resource = .BLOCK ∧ o.Fetched request)
  | newStream, _ => False
  | cloud _, request =>
    ¬ (request.resource = .META ∧ request.method = .DELETE) ∧
      (request.resource = .INFO ∧ request.method = .PUT →
        ∃ info, request.info = some info ∧ info.getInfoType ≠ .CLUSTER_INFO)

theorem respond_wellFramed_iff (x : Responder) (request : Request) :
    (∃ sent, x.respond request = some sent ∧ WellFramed request sent ∧ Settles request sent) ↔
      x.Terminates request := by
  have hsettles : (∃ sent, x.respond request = some sent ∧ WellFramed request sent ∧
      Settles request sent) ↔ ∃ sent, x.respond request = some sent ∧ WellFramed request sent := by
    constructor
    · rintro ⟨sent, h, hframed, -⟩
      exact ⟨sent, h, hframed⟩
    · rintro ⟨sent, h, hframed⟩
      exact ⟨sent, h, hframed, hframed.settles⟩
  rw [hsettles]
  cases x with
  | edge o => exact o.handle_wellFramed_iff request
  | newStream =>
    refine iff_of_false ?_ id
    rintro ⟨sent, hsent, hframed⟩
    exact CloudRainbow.accept_not_wellFramed request hsent hframed
  | cloud r => exact r.handle_wellFramed_iff request

def deleteRequest : Request := { requestSeq := 10000, method := .DELETE, resource := .META }

/-- Invalidating a meta at the cloud: two marked responses, the first without a result. The
edge closes the channel at the first one, and the second one makes it panic. -/
theorem meta_delete_answered_twice :
    ∃ sent, (Responder.cloud ⟨none, fun _ => none⟩).respond deleteRequest = some sent ∧
      sent.map Response.isLast = [true, true] ∧ sent.map (fun x => x.result.isSome) = [false, true] ∧
      ¬ WellFramed deleteRequest sent ∧
      ∃ r, Router.register {} 10000 = some r ∧ (sent.foldlM Router.receive r).isNone = true := by
  refine ⟨_, rfl, by decide, by decide, ?_, _, rfl, by decide⟩
  rintro ⟨hall, -⟩
  exact (hall { responseTo := 10000, isLast := true } List.mem_cons_self).2 rfl

end Ecos.Rainbow
