import Ecos.Client.BlockPlacement
import Ecos.Gaia.StoredBlock
import Ecos.Go.BufioReader
import Ecos.Rainbow.Relay

namespace Ecos.Gaia
open Go Moon Rainbow

structure GetBlockRequest where
  blockId : Bytes
  curChunk : UInt64
  term : UInt64
  deriving DecidableEq, Repr

/-- What `GetBlockData` meets on its node. -/
structure BlockServer where
  basePath : Bytes
  chunkSize : ℕ
  /-- `os.Open`: the file, with what the reads of this call do -/
  openFile : Bytes → Except Errno (Bufio.Source UInt8 Errno)
  /-- the error of the `i`-th send -/
  send : ℕ → Option Errno := fun _ => none

/-- The loop of `GetBlockData`, with the chunks that are sent. Chunks before `startChunk` are read
and left out. -/
def sendLoop (chunkSize startChunk : ℕ) (send : ℕ → Option Errno) :
    ℕ → Bufio.Reader UInt8 Errno 4096 → (curChunk : ℕ) → List Bytes → Option BlockStream
  | 0, _, _, _ => none
  | fuel + 1, r, curChunk, sent =>
    match r.read chunkSize with
    | (.error e, _) => some ⟨sent, e⟩
    | (.ok chunk, r) =>
      if curChunk < startChunk then sendLoop chunkSize startChunk send fuel r (curChunk + 1) sent
      else
        match send sent.length with
        | some e => some ⟨sent, some e⟩
        | none => sendLoop chunkSize startChunk send fuel r curChunk (sent ++ [chunk])

namespace BlockServer
variable (s : BlockServer)

def sendBlock (fuel : ℕ) (blockPath : Bytes) (req : GetBlockRequest) : Option BlockStream :=
  match s.openFile blockPath with
  | .error e => some ⟨[], some e⟩
  | .ok block => sendLoop s.chunkSize req.curChunk.toNat s.send fuel ⟨[], block⟩ 0 []

def blockPath (blockId : Bytes) : Bytes := pathJoin [s.basePath, blockId]

def cloudBlockPath (blockId : Bytes) : Bytes :=
  pathJoin [s.basePath, ascii ['g', 'a', 'i', 'a'], ascii ['b', 'l', 'o', 'c', 'k', 's'], blockId]

/-- `GetBlockData` of an edge node -/
def getBlockData (fuel : ℕ) (req : GetBlockRequest) : Option BlockStream :=
  s.sendBlock fuel (s.blockPath req.blockId) req

/-- `GetBlockData` of the cloud -/
def cloudGetBlockData (fuel : ℕ) (req : GetBlockRequest) : Option BlockStream :=
  s.sendBlock fuel (s.cloudBlockPath req.blockId) req

end BlockServer

def received (stream : BlockStream) : Option (ℕ × Errno) → BlockStream
  | none => stream
  | some (n, e) => ⟨stream.chunks.take n, some e⟩

/-- The loop sends what it reads from the start chunk on, or stops in an error of its own. -/
theorem sendLoop_spec (startChunk : ℕ) (send : ℕ → Option Errno) {chunkSize fuel : ℕ}
    {r : Bufio.Reader UInt8 Errno 4096} {ps : List Bytes} {e : Option Errno}
    (h : r.chunks chunkSize fuel = some (ps, e)) (curChunk : ℕ) (sent : List Bytes) :
    ∃ stream, sendLoop chunkSize startChunk send fuel r curChunk sent = some stream ∧
      (stream = ⟨sent ++ ps.drop (startChunk - curChunk), e⟩ ∨
        stream.err ≠ none ∧ ¬∀ i, send i = none) := by
  induction fuel generalizing r ps curChunk sent with
  | zero => cases h
  | succ fuel ih =>
    rw [Bufio.Reader.chunks] at h
    rw [sendLoop]
    split at h
    · rename_i hread
      cases h
      rw [hread]
      exact ⟨_, rfl, .inl (by rw [List.drop_nil, List.append_nil])⟩
    · rename_i p r' hread
      rw [Option.map_eq_some_iff] at h
      obtain ⟨⟨qs, e'⟩, hqs, heq⟩ := h
      cases heq
      rw [hread]
      dsimp only
      split_ifs with hskip
      · -- a chunk before the start is read and not sent
        rw [show startChunk - curChunk = startChunk - (curChunk + 1) + 1 by omega,
          List.drop_succ_cons]
        exact ih hqs (curChunk + 1) sent
      · rw [show startChunk - curChunk = 0 by omega]
        cases hsend : send sent.length with
        | some e =>
          refine ⟨_, rfl, .inr ⟨Option.some_ne_none e, fun hall => ?_⟩⟩
          rw [hall] at hsend
          cases hsend
        | none =>
          obtain ⟨stream, hstream, hcases⟩ := ih hqs curChunk (sent ++ [p])
          refine ⟨stream, hstream, ?_⟩
          rwa [show startChunk - curChunk = 0 by omega, List.append_assoc] at hcases

/-- A loop that skips nothing and ends without an error has sent everything. -/
theorem sendLoop_exact {chunkSize : ℕ} (hsize : 0 < chunkSize) {startChunk curChunk : ℕ}
    (hstart : startChunk ≤ curChunk) {send : ℕ → Option Errno} {fuel : ℕ}
    {r : Bufio.Reader UInt8 Errno 4096} {sent : List Bytes} {stream : BlockStream}
    (h : sendLoop chunkSize startChunk send fuel r curChunk sent = some stream)
    (herr : stream.err = none) : stream.chunks.flatten = sent.flatten ++ r.contents := by
  induction fuel generalizing r sent with
  | zero => cases h
  | succ fuel ih =>
    rw [sendLoop] at h
    rcases r.read_cases hsize (by decide) with
      ⟨e, r', -, hread⟩ | ⟨r', hnil, hread⟩ | ⟨p, r', hcontents, -, -, -, hread⟩
    · rw [hread] at h
      cases h
      cases herr
    · rw [hread] at h
      cases h
      rw [hnil, List.append_nil]
    · rw [hread] at h
      dsimp only at h
      rw [if_neg (Nat.not_lt.mpr hstart)] at h
      split at h
      · cases h
        cases herr
      · rw [ih h, hcontents, List.flatten_append, List.flatten_singleton, List.append_assoc]

namespace BlockServer
variable (s : BlockServer)

def fileChunks (fuel : ℕ) (block : Bufio.Source UInt8 Errno) : Option (List Bytes × Option Errno) :=
  (⟨[], block⟩ : Bufio.Reader UInt8 Errno 4096).chunks s.chunkSize fuel

variable {s} {fuel : ℕ} {block : Bufio.Source UInt8 Errno}

theorem fileChunks_spec (hsize : 0 < s.chunkSize) (hfuel : block.rest.length < fuel) :
    ∃ ps e, s.fileChunks fuel block = some (ps, e) ∧ (e = none → ps.flatten = block.rest) ∧
      ((∀ e, .failed e ∉ block.outcomes) → e = none) := by
  have hchunks := Bufio.Reader.chunks_spec (r := (⟨[], block⟩ : Bufio.Reader UInt8 Errno 4096))
    hsize (by decide) hfuel
  obtain ⟨ps, e, hps, -, hall, hclean, -⟩ := hchunks
  exact ⟨ps, e, hps, hall, hclean⟩

theorem sendBlock_spec {blockPath : Bytes} (hopen : s.openFile blockPath = .ok block)
    {ps : List Bytes} {e : Option Errno} (hps : s.fileChunks fuel block = some (ps, e))
    (req : GetBlockRequest) :
    ∃ stream, s.sendBlock fuel blockPath req = some stream ∧
      (stream = ⟨ps.drop req.curChunk.toNat, e⟩ ∨ stream.err ≠ none ∧ ¬∀ i, s.send i = none) := by
  rw [sendBlock, hopen]
  exact sendLoop_spec req.curChunk.toNat s.send hps 0 []

def Holds (s : BlockServer) (blockPath content : Bytes) : Prop :=
  ∃ block, s.openFile blockPath = .ok block ∧ block.rest = content

/-- A stream of the whole file that ends without an error has all of it. -/
theorem sendBlock_exact (hsize : 0 < s.chunkSize) {blockPath content : Bytes}
    (hfile : s.Holds blockPath content) {req : GetBlockRequest} (hreq : req.curChunk = 0)
    {stream : BlockStream} (h : s.sendBlock fuel blockPath req = some stream)
    (herr : stream.err = none) : stream.chunks.flatten = content := by
  obtain ⟨block, hopen, rfl⟩ := hfile
  rw [sendBlock, hopen, hreq] at h
  exact sendLoop_exact hsize (Nat.le_refl 0) h herr

def Undisturbed (s : BlockServer) (blockPath : Bytes) : Prop :=
  (∀ block, s.openFile blockPath = .ok block → ∀ e, .failed e ∉ block.outcomes) ∧
    ∀ i, s.send i = none

theorem sendBlock_undisturbed (hsize : 0 < s.chunkSize) {blockPath content : Bytes}
    (hfile : s.Holds blockPath content) (h : s.Undisturbed blockPath)
    (hfuel : content.length < fuel) (req : GetBlockRequest) :
    ∃ stream, s.sendBlock fuel blockPath req = some stream ∧ stream.err = none := by
  obtain ⟨block, hopen, rfl⟩ := hfile
  obtain ⟨ps, e, hps, -, hclean⟩ := fileChunks_spec (s := s) hsize hfuel
  obtain ⟨stream, hstream, hcases⟩ := sendBlock_spec hopen hps req
  refine ⟨stream, hstream, ?_⟩
  rcases hcases with rfl | ⟨-, hbad⟩
  · exact hclean (h.1 block hopen)
  · exact absurd h.2 hbad

end BlockServer

/-- What `Recv` gives the client of a handler: its answer, and how the connection breaks. -/
def Arrives (handler : ℕ → Option BlockStream) (stream : BlockStream) : Prop :=
  ∃ fuel answer broken, handler fuel = some answer ∧ stream = received answer broken

theorem Arrives.exact {s : BlockServer} (hsize : 0 < s.chunkSize) {req : GetBlockRequest}
    (hreq : req.curChunk = 0) {path content : Bytes} (hfile : s.Holds path content)
    {stream : BlockStream} (h : Arrives (s.sendBlock · path req) stream)
    (herr : stream.err = none) : stream.chunks.flatten = content := by
  obtain ⟨fuel, answer, broken, hanswer, rfl⟩ := h
  cases broken with
  | none => exact BlockServer.sendBlock_exact hsize hfile hreq hanswer herr
  | some b => cases herr

end Ecos.Gaia

namespace Ecos.Client
open Go Moon Rainbow Gaia

/-- The loop over `Recv`. -/
def recvBlock : Bytes → List Bytes → Option Errno → Except Errno Bytes
  | block, [], none => .ok block
  | _, [], some e => .error e
  | block, chunk :: chunks, err => recvBlock (block ++ chunk) chunks err

theorem recvBlock_eq (block : Bytes) (chunks : List Bytes) (err : Option Errno) :
    recvBlock block chunks err = match err with
      | none => .ok (block ++ chunks.flatten)
      | some e => .error e := by
  induction chunks generalizing block with
  | nil => cases err <;> simp [recvBlock]
  | cons chunk chunks ih =>
    rw [recvBlock, ih, List.flatten_cons, List.append_assoc]

/-- What `GetBlock` meets outside of the reader. -/
structure BlockLink where
  /-- `infoAgent.Get` of a node info -/
  getNodeInfo : UInt64 → Except Errno NodeInfo
  newGaiaClient : NodeInfo → Option Errno
  /-- the call of `GetBlockData` on a node, and on the cloud -/
  getBlockData : NodeInfo → GetBlockRequest → Except Errno BlockStream
  /-- `GetRpcConn` to the cloud -/
  cloudConn : Option Errno
  cloudGetBlockData : GetBlockRequest → Except Errno BlockStream

/-- `GetBlockByEdge` with the nodes of the block. It takes the first one, and panics where there is
none or where its info cannot be had. -/
def getBlockByEdge (l : BlockLink) (gaiaServerId : List UInt64) (term : UInt64) (info : BlockInfo) :
    Option (Except Errno Bytes) := do
  let gaiaServerInfo ← (l.getNodeInfo (← gaiaServerId.head?)).toOption
  match l.newGaiaClient gaiaServerInfo with
  | some e => return .error e
  | none =>
    match l.getBlockData gaiaServerInfo ⟨info.blockId, 0, term⟩ with
    | .error e => return .error e
    | .ok stream => return recvBlock [] stream.chunks stream.err

/-- `GetBlockByCloud`. Its deferred call panics where there is no stream. -/
def getBlockByCloud (l : BlockLink) (term : UInt64) (info : BlockInfo) :
    Option (Except Errno Bytes) :=
  match l.cloudConn with
  | some e => some (.error e)
  | none =>
    match l.cloudGetBlockData ⟨info.blockId, 0, term⟩ with
    | .error _ => none
    | .ok stream => some (recvBlock [] stream.chunks stream.err)

/-- The request of `GetBlockInEdgeByCloud`, which gets its number from the cloud. -/
def edgeRequest (blockId : Bytes) : Request :=
  { requestSeq := 0, method := .GET, resource := .BLOCK, requestId := blockId }

/-- `GetBlockInEdgeByCloud`, with the outpost of the leader; `none` where the reader or the cloud
panics, or where the reader waits for ever. -/
def getBlockInEdgeByCloud (l : BlockLink) (relay : Relay) (o : Outpost) (info : BlockInfo) :
    Option (Except FetchError Bytes) :=
  match l.cloudConn with
  | some e => some (.error (.stream e))
  | none =>
    match relay.call with
    | some e => some (.error (.stream e))
    | none => do
      let (responses, finish) := relay.received (← relay.sendRequest o (edgeRequest info.blockId))
      recvResponses info.blockId [] responses finish

def FromEdge (content : Bytes) (req : GetBlockRequest) (stream : BlockStream) : Prop :=
  ∃ s : BlockServer, 0 < s.chunkSize ∧ s.Holds (s.blockPath req.blockId) content ∧
    Arrives (s.getBlockData · req) stream

def FromCloud (content : Bytes) (req : GetBlockRequest) (stream : BlockStream) : Prop :=
  ∃ s : BlockServer, 0 < s.chunkSize ∧ s.Holds (s.cloudBlockPath req.blockId) content ∧
    Arrives (s.cloudGetBlockData · req) stream

theorem FromEdge.exact {content : Bytes} {req : GetBlockRequest} {stream : BlockStream}
    (h : FromEdge content req stream) (hreq : req.curChunk = 0) (herr : stream.err = none) :
    stream.chunks.flatten = content := by
  obtain ⟨s, hsize, hfile, harrives⟩ := h
  exact harrives.exact hsize hreq hfile herr

theorem FromCloud.exact {content : Bytes} {req : GetBlockRequest} {stream : BlockStream}
    (h : FromCloud content req stream) (hreq : req.curChunk = 0) (herr : stream.err = none) :
    stream.chunks.flatten = content := by
  obtain ⟨s, hsize, hfile, harrives⟩ := h
  exact harrives.exact hsize hreq hfile herr

/-- The loop over `Recv` returns a block only where the stream ends without an error. -/
theorem recvBlock_exact {content : Bytes} {stream : BlockStream}
    (h : stream.err = none → stream.chunks.flatten = content) {data : Bytes}
    (hdata : recvBlock [] stream.chunks stream.err = .ok data) : data = content := by
  rw [recvBlock_eq] at hdata
  cases herr : stream.err with
  | some e =>
    rw [herr] at hdata
    cases hdata
  | none =>
    rw [herr] at hdata
    cases hdata
    exact h herr

/-- A failure ends the block, and it comes before the chunks of the next node. -/
theorem recvResponses_fetchBlocks {o : Outpost} {request : Request} {content : Bytes}
    (ho : ∀ nodeInfo stream, o.getBlockData nodeInfo request.requestId request.term = .ok stream →
      stream.err = none → stream.chunks.flatten = content) (blockId : Bytes)
    (nodeIds : List UInt64) {data : Bytes}
    (h : recvResponses blockId [] (o.fetchBlocks request nodeIds) .eof = some (.ok data)) :
    data = content := by
  induction nodeIds with
  | nil => cases h
  | cons nodeID nodeIds ih =>
    rw [Outpost.fetchBlocks, Outpost.fetchBlock] at h
    cases hinfo : o.getNodeInfo nodeID with
    | error e =>
      rw [hinfo] at h
      exact ih h
    | ok nodeInfo =>
      cases hconn : o.getRpcConnByNodeInfo nodeInfo with
      | some e =>
        simp only [hinfo, hconn, List.nil_append] at h
        exact ih h
      | none =>
        cases hdata : o.getBlockData nodeInfo request.requestId request.term with
        | error e =>
          simp only [hinfo, hconn, hdata, List.nil_append] at h
          exact ih h
        | ok stream =>
          cases herr : stream.err with
          | none =>
            simp only [hinfo, hconn, hdata, herr] at h
            change recvResponses blockId [] (stream.chunks.map (chunkResponse request) ++
              [lastResponse request]) .eof = _ at h
            rw [recvResponses_chunks, recvResponses_last, List.nil_append,
              ho nodeInfo stream hdata herr] at h
            cases h
            rfl
          | some e =>
            -- a node that fails before its first chunk leaves no response behind
            by_cases hnil : stream.chunks = []
            · simp only [hinfo, hconn, hdata, herr, hnil, if_true, List.nil_append] at h
              exact ih h
            · simp only [hinfo, hconn, hdata, herr, hnil, if_false, List.append_assoc] at h
              change recvResponses blockId [] (stream.chunks.map (chunkResponse request) ++
                Outpost.returnFail request e :: o.fetchBlocks request nodeIds) .eof = _ at h
              rw [recvResponses_chunks, recvResponses_fail] at h
              cases h

theorem recvResponses_doBlockRequest {o : Outpost} {request : Request} {content : Bytes}
    (hget : request.method = .GET)
    (ho : ∀ nodeInfo stream, o.getBlockData nodeInfo request.requestId request.term = .ok stream →
      stream.err = none → stream.chunks.flatten = content) (blockId : Bytes) {data : Bytes}
    (h : recvResponses blockId [] (o.doBlockRequest request) .eof = some (.ok data)) :
    data = content := by
  simp only [Outpost.doBlockRequest, hget] at h
  cases hinfo : o.getClusterInfoByTerm request.term with
  | error e =>
    rw [hinfo] at h
    cases h
  | ok clusterInfo =>
    cases hnodes : o.blockNodes clusterInfo request.requestId with
    | error e =>
      simp only [hinfo, hnodes] at h
      cases h
    | ok nodeIds =>
      simp only [hinfo, hnodes] at h
      exact recvResponses_fetchBlocks ho blockId nodeIds h

/-- Through the cloud a block arrives whole, as long as the edge gives up none of the responses. -/
theorem getBlockInEdgeByCloud_exact {l : BlockLink} {relay : Relay} {o : Outpost} {info : BlockInfo}
    {content : Bytes} (hrelay : ∀ i, ∃ k < 3, relay.respond i k = none)
    (ho : ∀ nodeInfo stream, o.getBlockData nodeInfo info.blockId 0 = .ok stream →
      FromEdge content ⟨info.blockId, 0, 0⟩ stream) {data : Bytes}
    (h : getBlockInEdgeByCloud l relay o info = some (.ok data)) : data = content := by
  unfold getBlockInEdgeByCloud at h
  split at h
  · cases h
  · split at h
    · cases h
    · obtain ⟨⟨responses, finish⟩, hsend, h⟩ := Option.bind_eq_some_iff.mp h
      have heof := eof_of_recvResponses h
      cases hbroken : relay.broken with
      | some b =>
        simp only [hbroken] at heof
        cases heof
      | none =>
        simp only [Relay.received, hbroken] at h heof
        rw [heof] at h hsend
        rw [Relay.sendRequest_eof hrelay rfl hsend] at h
        exact recvResponses_doBlockRequest rfl
          (fun nodeInfo stream hstream => (ho nodeInfo stream hstream).exact rfl) info.blockId h

theorem getBlockByEdge_exact {l : BlockLink} {ids : List UInt64} {term : UInt64} {info : BlockInfo}
    {content : Bytes}
    (hl : ∀ y nodeInfo stream, ids.head? = some y → l.getNodeInfo y = .ok nodeInfo →
      l.getBlockData nodeInfo ⟨info.blockId, 0, term⟩ = .ok stream →
      FromEdge content ⟨info.blockId, 0, term⟩ stream) {data : Bytes}
    (h : getBlockByEdge l ids term info = some (.ok data)) : data = content := by
  simp only [getBlockByEdge, Option.bind_eq_bind, Option.bind_eq_some_iff] at h
  obtain ⟨y, hy, nodeInfo, hinfo, h⟩ := h
  have hnode : l.getNodeInfo y = .ok nodeInfo := toOption_eq_some hinfo
  cases hclient : l.newGaiaClient nodeInfo with
  | some e =>
    rw [hclient] at h
    cases h
  | none =>
    cases hstream : l.getBlockData nodeInfo ⟨info.blockId, 0, term⟩ with
    | error e =>
      simp only [hclient, hstream] at h
      cases h
    | ok stream =>
      simp only [hclient, hstream] at h
      exact recvBlock_exact ((hl y nodeInfo stream hy hnode hstream).exact rfl)
        (Option.some.inj h)

theorem getBlockByCloud_exact {l : BlockLink} {term : UInt64} {info : BlockInfo} {content : Bytes}
    (hl : ∀ stream, l.cloudGetBlockData ⟨info.blockId, 0, term⟩ = .ok stream →
      FromCloud content ⟨info.blockId, 0, term⟩ stream) {data : Bytes}
    (h : getBlockByCloud l term info = some (.ok data)) : data = content := by
  unfold getBlockByCloud at h
  split at h
  · cases h
  · split at h
    · cases h
    · rename_i stream hstream
      exact recvBlock_exact ((hl stream hstream).exact rfl) (Option.some.inj h)

/-- What the edge gives up is missing in the block that the client gets. -/
theorem getBlockInEdgeByCloud_calm {l : BlockLink} {relay : Relay} {o : Outpost} {info : BlockInfo}
    (hconn : l.cloudConn = none) (hrelay : relay.Calm) {chunks : List Bytes}
    (hresponses : o.doBlockRequest (relay.numbered (edgeRequest info.blockId)) =
      chunks.map (chunkResponse (relay.numbered (edgeRequest info.blockId))) ++
        [lastResponse (relay.numbered (edgeRequest info.blockId))])
    (hlast : ∃ k < 3, relay.respond chunks.length k = none) :
    getBlockInEdgeByCloud l relay o info =
      some (.ok (sendChanListenLoop relay.respond 0 chunks).flatten) := by
  unfold getBlockInEdgeByCloud
  rw [hconn, hrelay.call]
  simp only [hrelay.sendRequest rfl hresponses hlast, Relay.received, hrelay.broken,
    Option.bind_eq_bind, Option.bind_some]
  rw [recvResponses_chunks, recvResponses_last, List.nil_append]

/-- A client that gets a block gets all of it: from the first node of its group, from the cloud, or
from the edge through the cloud, where the edge gives up no response after its three attempts. -/
theorem downloads_exact (content : Bytes) (l : BlockLink) (relay : Relay) (o : Outpost)
    (ids : List UInt64) (term : UInt64) (info : BlockInfo)
    (hedge : ∀ nodeInfo stream, l.getBlockData nodeInfo ⟨info.blockId, 0, term⟩ = .ok stream →
      FromEdge content ⟨info.blockId, 0, term⟩ stream)
    (hcloud : ∀ stream, l.cloudGetBlockData ⟨info.blockId, 0, term⟩ = .ok stream →
      FromCloud content ⟨info.blockId, 0, term⟩ stream)
    (houtpost : ∀ nodeInfo stream, o.getBlockData nodeInfo info.blockId 0 = .ok stream →
      FromEdge content ⟨info.blockId, 0, 0⟩ stream)
    (hrelay : ∀ i, ∃ k < 3, relay.respond i k = none) (data : Bytes) :
    (getBlockByEdge l ids term info = some (.ok data) → data = content) ∧
    (getBlockByCloud l term info = some (.ok data) → data = content) ∧
    (getBlockInEdgeByCloud l relay o info = some (.ok data) → data = content) :=
  ⟨getBlockByEdge_exact fun _ nodeInfo stream _ _ => hedge nodeInfo stream,
    getBlockByCloud_exact hcloud, getBlockInEdgeByCloud_exact hrelay houtpost⟩

def fileServer (content : Bytes) : BlockServer where
  basePath := [100]
  chunkSize := 2
  openFile _ := .ok ⟨content, [.short 0]⟩

def threeBytes : BlockStream := ⟨[[1], [2, 3]], none⟩

theorem fromEdge_threeBytes (term : UInt64) : FromEdge [1, 2, 3] ⟨[98], 0, term⟩ threeBytes :=
  ⟨fileServer [1, 2, 3], by decide, ⟨_, rfl, rfl⟩, 4, threeBytes, none, rfl, rfl⟩

theorem fromCloud_threeBytes (term : UInt64) : FromCloud [1, 2, 3] ⟨[98], 0, term⟩ threeBytes :=
  ⟨fileServer [1, 2, 3], by decide, ⟨_, rfl, rfl⟩, 4, threeBytes, none, rfl, rfl⟩

def threeBytesLink : BlockLink where
  getNodeInfo y := .ok (Gaia.nodeOf y)
  newGaiaClient _ := none
  getBlockData _ _ := .ok threeBytes
  cloudConn := none
  cloudGetBlockData _ := .ok threeBytes

def threeBytesOutpost : Outpost :=
  { Outpost.twoReplicas [1, 2] with getBlockData := fun _ _ _ => .ok threeBytes }

def edgeRelay : Relay where
  clusterInfo := some ⟨1, some (Gaia.nodeOf 1), [], 0, 0, 0, 0, 0⟩
  streams := [1]
  requestSeq := 10000

example : getBlockInEdgeByCloud threeBytesLink
    { edgeRelay with respond := fun i _ => if i = 0 then some (.other "too large") else none }
    threeBytesOutpost ⟨[98], 0, 3, [], 1⟩ = some (.ok [2, 3]) := by decide +kernel

theorem downloads_exact_threeBytes :
    (∃ data, getBlockByEdge threeBytesLink [1] 1 ⟨[98], 0, 3, [], 1⟩ = some (.ok data) ∧
      data = [1, 2, 3]) ∧
    (∃ data, getBlockByCloud threeBytesLink 1 ⟨[98], 0, 3, [], 1⟩ = some (.ok data) ∧
      data = [1, 2, 3]) ∧
    ∃ data, getBlockInEdgeByCloud threeBytesLink edgeRelay threeBytesOutpost ⟨[98], 0, 3, [], 1⟩ =
      some (.ok data) ∧ data = [1, 2, 3] := by
  have hexact := downloads_exact [1, 2, 3] threeBytesLink edgeRelay threeBytesOutpost [1] 1
    ⟨[98], 0, 3, [], 1⟩ (fun _ _ h => Except.ok.inj h ▸ fromEdge_threeBytes 1)
    (fun _ h => Except.ok.inj h ▸ fromCloud_threeBytes 1)
    (fun _ _ h => Except.ok.inj h ▸ fromEdge_threeBytes 0) (fun _ => ⟨0, by decide, rfl⟩)
  have hedge : getBlockByEdge threeBytesLink [1] 1 ⟨[98], 0, 3, [], 1⟩ =
      some (.ok [1, 2, 3]) := rfl
  have hcloud : getBlockByCloud threeBytesLink 1 ⟨[98], 0, 3, [], 1⟩ =
      some (.ok [1, 2, 3]) := rfl
  have hrelayed : getBlockInEdgeByCloud threeBytesLink edgeRelay threeBytesOutpost
      ⟨[98], 0, 3, [], 1⟩ = some (.ok [1, 2, 3]) := by decide +kernel
  exact ⟨⟨_, hedge, (hexact _).1 hedge⟩, ⟨_, hcloud, (hexact _).2.1 hcloud⟩,
    ⟨_, hrelayed, (hexact _).2.2 hrelayed⟩⟩

section Uploaded
variable (c : Cluster) (x : UInt64) (info : BlockInfo) (p : Pipeline) (term eofTerm : UInt64)
  (eofPipeline : Option Pipeline) (chunks : List Bytes)

/-- The servers of the nodes read the files that the upload has written. -/
structure ReadsFiles (server : UInt64 → BlockServer) : Prop where
  chunkSize : ∀ y, 0 < (server y).chunkSize
  basePath : ∀ y, (server y).basePath = (c.node y).basePath
  files : ∀ y path content,
    c.blockFile x (transfer info p term eofPipeline eofTerm chunks) y = some (path, content) →
      (server y).Holds path content

variable {c x info p term eofTerm eofPipeline chunks}

theorem ReadsFiles.holds {server : UInt64 → BlockServer}
    (h : ReadsFiles c x info p term eofTerm eofPipeline chunks server) {r : Result}
    (hc : chunks ≠ []) (hr : (uploadBlockData (c.node x)
      (transfer info p term eofPipeline eofTerm chunks)).answer = some r)
    (hok : r.status = .OK) (hfull : (chunks.map List.length).foldl (Bufio.leftover 4096) 0 = 0)
    {y : UInt64} (hy : y = x ∨ y ∈ p.raftId) :
    (server y).Holds ((server y).blockPath info.blockId) chunks.flatten := by
  rw [BlockServer.blockPath, h.basePath]
  apply h.files
  rw [c.blockFile_eq hc hr hok hy, (Bufio.Writer.sink_writeAll_eq_iff chunks).mpr hfull]

end Uploaded

/-- A block whose upload was acknowledged, with chunks that leave nothing in the buffer, is read
back from the first node of its group as it was uploaded. It is read back if nothing fails. -/
theorem uploaded_block_read_back (c : Cluster) (x : UInt64) (info : BlockInfo) (p : Pipeline)
    (term eofTerm : UInt64) (eofPipeline : Option Pipeline) (chunks : List Bytes) (r : Result)
    (hc : chunks ≠ []) (hr : (uploadBlockData (c.node x)
      (transfer info p term eofPipeline eofTerm chunks)).answer = some r)
    (hok : r.status = .OK) (hfull : (chunks.map List.length).foldl (Bufio.leftover 4096) 0 = 0)
    (server : UInt64 → BlockServer)
    (hserver : ReadsFiles c x info p term eofTerm eofPipeline chunks server) (l : BlockLink)
    (hinfo : ∀ y nodeInfo, l.getNodeInfo y = .ok nodeInfo → nodeInfo.raftId = y)
    (ids : List UInt64) (hids : ∀ y, ids.head? = some y → y = x ∨ y ∈ p.raftId)
    (readTerm : UInt64) :
    (∀ data, (∀ nodeInfo stream, l.getBlockData nodeInfo ⟨info.blockId, 0, readTerm⟩ = .ok stream →
        Arrives ((server nodeInfo.raftId).getBlockData · ⟨info.blockId, 0, readTerm⟩) stream) →
      getBlockByEdge l ids readTerm info = some (.ok data) → data = chunks.flatten) ∧
    ∀ y nodeInfo, ids.head? = some y → l.getNodeInfo y = .ok nodeInfo →
      l.newGaiaClient nodeInfo = none →
      (server y).Undisturbed ((server y).blockPath info.blockId) →
      (∃ stream, l.getBlockData nodeInfo ⟨info.blockId, 0, readTerm⟩ = .ok stream ∧
        (server y).getBlockData (chunks.flatten.length + 1) ⟨info.blockId, 0, readTerm⟩ =
          some stream) →
      getBlockByEdge l ids readTerm info = some (.ok chunks.flatten) := by
  refine ⟨fun data hserved hdata => ?_, fun y nodeInfo hy hnode hclient hcalm hstream => ?_⟩
  · refine getBlockByEdge_exact (fun y nodeInfo stream hy hnode hstream => ?_) hdata
    have hraft := hinfo y nodeInfo hnode
    refine ⟨server y, hserver.chunkSize y, hserver.holds hc hr hok hfull (hids y hy), ?_⟩
    rw [← hraft]
    exact hserved nodeInfo stream hstream
  · obtain ⟨stream, hcall, hanswer⟩ := hstream
    have hholds := hserver.holds hc hr hok hfull (hids y hy)
    obtain ⟨stream', hstream', herr⟩ := BlockServer.sendBlock_undisturbed (hserver.chunkSize y)
      hholds hcalm (Nat.lt_succ_self _) ⟨info.blockId, 0, readTerm⟩
    cases hanswer.symm.trans hstream'
    have hexact := BlockServer.sendBlock_exact (hserver.chunkSize y) hholds rfl hanswer herr
    simp only [getBlockByEdge, hy, hnode, hclient, hcall, Except.toOption, Option.bind_eq_bind,
      Option.bind_some]
    rw [recvBlock_eq, herr]
    exact congrArg (some ∘ Except.ok) hexact

def serverOf (c : Cluster) (x : UInt64) (payloads : List Payload) (y : UInt64) : BlockServer where
  basePath := (c.node y).basePath
  chunkSize := 4096
  openFile path :=
    match c.blockFile x payloads y with
    | none => .error (.other "no such file")
    | some (path', content) =>
      if path = path' then .ok ⟨content, []⟩ else .error (.other "no such file")

theorem readsFiles_serverOf (c : Cluster) (x : UInt64) (info : BlockInfo) (p : Pipeline)
    (term eofTerm : UInt64) (eofPipeline : Option Pipeline) (chunks : List Bytes) :
    ReadsFiles c x info p term eofTerm eofPipeline chunks
      (serverOf c x (transfer info p term eofPipeline eofTerm chunks)) where
  chunkSize _ := Nat.succ_pos 4095
  basePath _ := rfl
  files y path content h := by
    refine ⟨⟨content, []⟩, ?_, rfl⟩
    simp only [serverOf, h, if_true]

theorem twoChunks_drained : (twoChunks.map List.length).foldl (Bufio.leftover 4096) 0 = 0 := by
  simp only [twoChunks, List.map_cons, List.map_nil, List.length_replicate, List.foldl_cons,
    List.foldl_nil]
  decide

theorem undisturbed_serverOf (c : Cluster) (x : UInt64) (payloads : List Payload) (y : UInt64)
    (path : Bytes) : (serverOf c x payloads y).Undisturbed path := by
  refine ⟨fun block hblock e he => ?_, fun _ => rfl⟩
  simp only [serverOf] at hblock
  split at hblock
  · cases hblock
  · split_ifs at hblock
    cases hblock
    cases he

def serverLink (server : UInt64 → BlockServer) (fuel : ℕ) : BlockLink where
  getNodeInfo y := .ok (Gaia.nodeOf y)
  newGaiaClient _ := none
  getBlockData nodeInfo req :=
    match (server nodeInfo.raftId).getBlockData fuel req with
    | some stream => .ok stream
    | none => .error (.other "timeout")
  cloudConn := some (.other "no cloud")
  cloudGetBlockData _ := .error (.other "no cloud")

/-- The block `b` on three nodes, uploaded to the first one. -/
def uploadedServers (chunks : List Bytes) (hc : chunks ≠ []) : UInt64 → BlockServer :=
  serverOf (workingCluster threeNodes ⟨[98], 0, 8193, [], 1⟩ ⟨1, [1, 2, 3]⟩ chunks hc) 1
    (transfer ⟨[98], 0, 8193, [], 1⟩ ⟨1, [1, 2, 3]⟩ 1 (some ⟨1, [1, 2, 3]⟩) 1 chunks)

/-- The block of two chunks, read from the third node. -/
theorem uploaded_two_chunks_read_back :
    getBlockByEdge (serverLink (uploadedServers twoChunks twoChunks_ne_nil)
      (twoChunks.flatten.length + 1)) [3] 1 ⟨[98], 0, 8193, [], 1⟩ =
        some (.ok twoChunks.flatten) := by
  have hall : ∀ (chunks : List Bytes) (hc : chunks ≠ []),
      (chunks.map List.length).foldl (Bufio.leftover 4096) 0 = 0 →
      getBlockByEdge (serverLink (uploadedServers chunks hc) (chunks.flatten.length + 1)) [3] 1
        ⟨[98], 0, 8193, [], 1⟩ = some (.ok chunks.flatten) := by
    intro chunks hc hdrained
    have hserver := readsFiles_serverOf (workingCluster threeNodes ⟨[98], 0, 8193, [], 1⟩
      ⟨1, [1, 2, 3]⟩ chunks hc) 1 ⟨[98], 0, 8193, [], 1⟩ ⟨1, [1, 2, 3]⟩ 1 1
      (some ⟨1, [1, 2, 3]⟩) chunks
    have hanswer : (uploadBlockData ((workingCluster threeNodes ⟨[98], 0, 8193, [], 1⟩
        ⟨1, [1, 2, 3]⟩ chunks hc).node 1) (transfer ⟨[98], 0, 8193, [], 1⟩ ⟨1, [1, 2, 3]⟩ 1
          (some ⟨1, [1, 2, 3]⟩) 1 chunks)).answer = some ⟨.OK, 0, ""⟩ :=
      answer_workingCluster hc 1 isSome_threeNodes
    have hthird : (3 : UInt64) = 1 ∨ (3 : UInt64) ∈ [1, 2, 3] := .inr (by decide)
    obtain ⟨stream, hstream, -⟩ := BlockServer.sendBlock_undisturbed (hserver.chunkSize 3)
      (hserver.holds hc hanswer rfl hdrained hthird) (undisturbed_serverOf _ _ _ _ _)
      (Nat.lt_succ_self _) ⟨[98], 0, 1⟩
    refine (uploaded_block_read_back _ 1 ⟨[98], 0, 8193, [], 1⟩ ⟨1, [1, 2, 3]⟩ 1 1
      (some ⟨1, [1, 2, 3]⟩) chunks _ hc hanswer rfl hdrained _ hserver
      (serverLink (uploadedServers chunks hc) _) (fun y nodeInfo h => ?_) [3] (fun y hy => ?_) 1).2
      3 (Gaia.nodeOf 3) rfl rfl rfl (undisturbed_serverOf _ _ _ _ _) ⟨stream, ?_, hstream⟩
    · cases h
      rfl
    · cases hy
      exact hthird
    · dsimp only [serverLink]
      rw [show (uploadedServers chunks hc (Gaia.nodeOf 3).raftId).getBlockData _ ⟨[98], 0, 1⟩ =
        some stream from hstream]
  exact hall twoChunks twoChunks_ne_nil twoChunks_drained

/-- A download that breaks off after some chunks is completed by a request for the rest, from any
server of the same chunk size whose reads are split in the same way. -/
theorem resumed_download_exact (s s' : BlockServer) (hsize : 0 < s.chunkSize)
    (hsame : s'.chunkSize = s.chunkSize) (blockId : Bytes) (block : Bufio.Source UInt8 Errno)
    (hopen : s.openFile (s.blockPath blockId) = .ok block)
    (hopen' : s'.openFile (s'.blockPath blockId) = .ok block)
    (hreads : ∀ e, .failed e ∉ block.outcomes) (hsends : ∀ i, s.send i = none)
    (hsends' : ∀ i, s'.send i = none) (m : UInt64) (term : UInt64) (e : Errno) (fuel : ℕ)
    (hfuel : block.rest.length < fuel) :
    ∃ first rest, s.getBlockData fuel ⟨blockId, 0, term⟩ = some first ∧
      s'.getBlockData fuel ⟨blockId, m, term⟩ = some rest ∧
      recvBlock (received first (some (m.toNat, e))).chunks.flatten rest.chunks rest.err =
        .ok block.rest := by
  obtain ⟨ps, err, hps, hall, hclean⟩ := BlockServer.fileChunks_spec (s := s) hsize hfuel
  have hps' : s'.fileChunks fuel block = some (ps, err) := by
    rw [← hps, BlockServer.fileChunks, BlockServer.fileChunks, hsame]
  cases hclean hreads
  obtain ⟨first, hfirst, hfirst'⟩ := BlockServer.sendBlock_spec hopen hps ⟨blockId, 0, term⟩
  obtain ⟨rest, hrest, hrest'⟩ := BlockServer.sendBlock_spec hopen' hps' ⟨blockId, m, term⟩
  refine ⟨first, rest, hfirst, hrest, ?_⟩
  rcases hfirst' with rfl | ⟨-, hbad⟩
  · rcases hrest' with rfl | ⟨-, hbad⟩
    · rw [recvBlock_eq]
      dsimp only [received]
      rw [UInt64.toNat_zero, List.drop_zero, ← List.flatten_append, List.take_append_drop, hall rfl]
    · exact absurd hsends' hbad
  · exact absurd hsends hbad

/-- Three bytes in chunks of two, with the connection lost after the first chunk. -/
theorem resumed_threeBytes :
    ∃ first rest, (fileServer [1, 2, 3]).getBlockData 4 ⟨[98], 0, 1⟩ = some first ∧
      (fileServer [1, 2, 3]).getBlockData 4 ⟨[98], 1, 1⟩ = some rest ∧
      recvBlock (received first (some (1, .other "reset"))).chunks.flatten rest.chunks rest.err =
        .ok [1, 2, 3] :=
  resumed_download_exact (fileServer [1, 2, 3]) (fileServer [1, 2, 3]) (by decide) rfl [98]
    ⟨[1, 2, 3], [.short 0]⟩ rfl rfl (fun e he => by simp at he) (fun _ => rfl) (fun _ => rfl) 1 1
    (.other "reset") 4 (by decide)

end Ecos.Client
