import Ecos.Rainbow.Message

namespace Ecos.Rainbow
open Go Moon Gaia

def splitPrefixWithoutSlotID (keyPrefix : Bytes) : Except String (Bytes × Bytes × Bytes) :=
  match splitN slash 3 (cleanObjectKey keyPrefix) with
  | [volumeID, bucketName] => .ok (volumeID, genBucketID volumeID bucketName, [])
  | [volumeID, bucketName, key] =>
    .ok (volumeID, genBucketID volumeID bucketName, trimPrefix [slash] key)
  | _ => .error "split prefix error"

/-- The chunks that `GetBlockData` delivers, and how the stream ends: with `io.EOF` or another
error. -/
structure BlockStream where
  chunks : List Bytes
  err : Option Errno
  deriving DecidableEq, Repr

structure Outpost where
  /-- whether `getClient` returns a client; its error is ignored -/
  getClient : Bool
  listObjects : Bytes → Bytes → Except Errno (List PositionedMeta)
  /-- whether the volume has a bucket of this name; the error is ignored -/
  getBucket : Bytes → Bool
  getObject : Bytes → Bytes → Except Errno PositionedMeta
  getInfoDirect : InfoType → Bytes → Except Errno BaseInfo
  getCurrentClusterInfo : ClusterInfo
  /-- the first node of the group of an object, by bucket and key, under the current cluster
  info; `none` where a nil pointer is dereferenced on the way -/
  metaServer : BaseInfo → Bytes → Option NodeInfo
  getRpcConnByNodeInfo : NodeInfo → Option Errno
  recordObjectMeta : NodeInfo → PositionedMeta → Option Errno
  getClusterInfoByTerm : UInt64 → Except Errno ClusterInfo
  /-- the nodes of the group of a block -/
  blockNodes : ClusterInfo → Bytes → Except Errno (List UInt64)
  getNodeInfo : UInt64 → Except Errno NodeInfo
  getBlockData : NodeInfo → Bytes → UInt64 → Except Errno BlockStream

namespace Outpost
variable (o : Outpost) (request : Request)

def returnFail (err : Errno) : Response :=
  { responseTo := request.requestSeq, result := some ⟨.FAIL, 0, err.error⟩ }

def returnOK : Response := { responseTo := request.requestSeq, result := some ⟨.OK, 0, ""⟩ }

/-- The bucket name and the key of a `LIST`. The error of `SplitPrefixWithoutSlotID` is not looked
at, and `strings.Split(bucketID, "/")[2]` panics where there is no third part. -/
def listArguments : Option (Bytes × Bytes) :=
  match splitPrefixWithoutSlotID request.requestId with
  | .error _ => none
  | .ok (_, bucketID, key) => (bucketID.splitOn slash)[2]?.map fun bucketName => (bucketName, key)

/-- The bucket ID and the key of an object ID, empty where `SplitID` fails. -/
def splitObject (objID : Bytes) : Bytes × Bytes :=
  match splitID objID with
  | .ok r => (r.bucketID, r.key)
  | .error _ => ([], [])

def doMetaList : Option (List Response) := do
  let (bucketName, key) ← listArguments request
  if !o.getClient then none
  else
    match o.listObjects bucketName key with
    | .error e => return [returnFail request e]
    | .ok metas => return [{ returnOK request with metas := metas, isLast := true }]

def doMetaGet : Option (List Response) :=
  let (bucketID, key) := splitObject request.requestId
  let bucketName := (bucketID.splitOn slash).getLastD []
  if !o.getClient || !o.getBucket bucketName then none
  else
    match o.getObject bucketName key with
    | .error e => some [returnFail request e]
    | .ok objectMeta => some [{ returnOK request with metas := [objectMeta] }]

def doMetaPut : Option (List Response) := do
  let objectMeta ← request.objectMeta
  let (bucketID, key) := splitObject objectMeta.objId
  match o.getInfoDirect .BUCKET_INFO bucketID with
  | .error e => return [returnFail request e]
  | .ok bucketInfo =>
    let nodeInfo ← o.metaServer bucketInfo key
    match o.getRpcConnByNodeInfo nodeInfo with
    | some e => return [returnFail request e]
    | none =>
      match o.recordObjectMeta nodeInfo objectMeta with
      | some e => return [returnFail request e]
      | none => return [returnOK request]

def doMetaRequest : Option (List Response) :=
  match request.method with
  | .LIST => o.doMetaList request
  | .GET => o.doMetaGet request
  | .PUT => o.doMetaPut request
  | _ => some [returnFail request (.other "not support method")]

/-- One node of the loop in `doBlockRequest`: what it sends and whether the handler returns. -/
def fetchBlock (nodeID : UInt64) : List Response × Bool :=
  match o.getNodeInfo nodeID with
  | .error _ => ([], false)
  | .ok nodeInfo =>
    match o.getRpcConnByNodeInfo nodeInfo with
    | some _ => ([], false)
    | none =>
      match o.getBlockData nodeInfo request.requestId request.term with
      | .error _ => ([], false)
      | .ok stream =>
        let sent := stream.chunks.map fun c => { returnOK request with chunk := c }
        match stream.err with
        | none => (sent ++ [{ returnOK request with isLast := true }], true)
        | some e => (if stream.chunks = [] then [] else sent ++ [returnFail request e], false)

def fetchBlocks : List UInt64 → List Response
  | [] => [returnFail request (.other "no available node")]
  | nodeID :: nodeIds =>
    match o.fetchBlock request nodeID with
    | (sent, true) => sent
    | (sent, false) => sent ++ fetchBlocks nodeIds

def doBlockRequest : List Response :=
  match request.method with
  | .GET =>
    match o.getClusterInfoByTerm request.term with
    | .error e => [returnFail request e]
    | .ok clusterInfo =>
      match o.blockNodes clusterInfo request.requestId with
      | .error e => [returnFail request e]
      | .ok nodeIds => o.fetchBlocks request nodeIds
  | _ => []

def doInfoRequest : List Response :=
  match request.method with
  | .GET =>
    let info := if request.infoType = .CLUSTER_INFO ∧ request.requestId = ascii ['0']
      then .ok (.clusterInfo o.getCurrentClusterInfo)
      else o.getInfoDirect request.infoType request.requestId
    match info with
    | .error e => [returnFail request e]
    | .ok info => [{ returnOK request with infos := [info] }]
  | _ => []

/-- The request branch of `streamLoop`. -/
def handle : Option (List Response) :=
  match request.resource with
  | .META => o.doMetaRequest request
  | .BLOCK => some (o.doBlockRequest request)
  | .INFO => some (o.doInfoRequest request)
  | _ => some []

end Outpost

/-- The part of `Rainbow` that its handlers use. -/
structure CloudRainbow where
  clusterInfo : Option ClusterInfo
  /-- `CloudAlaya.doDelete` -/
  doDelete : Bytes → Option Errno

namespace CloudRainbow
variable (r : CloudRainbow) (request : Request)

def sendError (err : Errno) : Response :=
  { responseTo := request.requestSeq, result := some ⟨.FAIL, -1, err.error⟩, isLast := true }

/-- `processMetaRequest`, whose `DELETE` branch falls through to the last line. -/
def processMetaRequest : List Response :=
  (match request.method with
    | .DELETE =>
      (match r.doDelete request.requestId with
        | some e => [sendError request e]
        | none => []) ++ [{ responseTo := request.requestSeq, isLast := true }]
    | _ => []) ++ [sendError request (.other "not support method")]

/-- The second half of the request branch of `eventLoop`. -/
def process : List Response :=
  match request.resource with
  | .META => r.processMetaRequest request
  | _ => [sendError request (.other "not support resource")]

def updateClusterInfo (info : ClusterInfo) : CloudRainbow :=
  match r.clusterInfo with
  | none => { r with clusterInfo := some info }
  | some old => if old.term ≤ info.term then { r with clusterInfo := some info } else r

/-- The request branch of `eventLoop`; a `PUT` of an info that is missing panics. -/
def handle : Option (CloudRainbow × List Response) :=
  if request.method = .PUT ∧ request.resource = .INFO then
    match request.info with
    | none => none
    | some (.clusterInfo info) => some (r.updateClusterInfo info, [])
    | some _ => some (r, r.process request)
  else some (r, r.process request)

/-- The first exchange of `GetStream`. -/
def accept : Option (List Response) :=
  match request.info with
  | some (.nodeInfo _) => some [{ responseTo := request.requestSeq, isLast := true }]
  | _ => none

end CloudRainbow

/-- `SendRequestToNode`. What comes after the lookup of the stream, the registration of the request
and the send, is `none` where it panics. -/
def sendRequestToNode {β : Type} (streams : List UInt64) (nodeId : UInt64)
    (send : Option (Except Errno β)) : Option (Except Errno β) :=
  if nodeId ∉ streams then some (.error (.other "stream not found")) else send

/-- `SendRequestToEdgeLeader`; `none` also where it dereferences a nil cluster info. -/
def sendRequestToEdgeLeader {β : Type} (clusterInfo : Option ClusterInfo) (streams : List UInt64)
    (send : Option (Except Errno β)) : Option (Except Errno β) := do
  let info ← clusterInfo
  match info.leaderInfo with
  | none => return .error (.other "cluster leader not found")
  | some leader => sendRequestToNode streams leader.raftId send

theorem sendRequestToEdgeLeader_eq_ok {β : Type} {clusterInfo : Option ClusterInfo}
    {streams : List UInt64} {send : Option (Except Errno β)} {b : β}
    (h : sendRequestToEdgeLeader clusterInfo streams send = some (.ok b)) :
    send = some (.ok b) := by
  obtain ⟨info, -, h⟩ := Option.bind_eq_some_iff.mp h
  split at h
  · cases h
  · unfold sendRequestToNode at h
    split_ifs at h
    · exact h
    · cases h

end Ecos.Rainbow
