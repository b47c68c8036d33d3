import Ecos.Go.Bufio
import Ecos.Moon.InfoStorage
import Ecos.Object

namespace Ecos.Gaia
open Go Moon

structure Pipeline where
  pgId : UInt64 := 0
  raftId : List UInt64
  deriving DecidableEq, Repr

inductive Code where
  | BEGIN
  | EOF
  | unknown (code : Int32)
  deriving DecidableEq, Repr

structure ControlMessage where
  code : Code
  block : Option BlockInfo
  pipeline : Option Pipeline
  term : UInt64
  deriving DecidableEq, Repr

/-- The payload of an `UploadBlockRequest`. -/
inductive Payload where
  | message (m : ControlMessage)
  | chunk (content : Bytes)
  | blank
  deriving DecidableEq, Repr

inductive Status where
  | OK
  | FAIL
  deriving DecidableEq, Repr

structure Result where
  status : Status
  code : Int32 := 0
  message : String := ""
  deriving DecidableEq, Repr

structure Node where
  selfID : UInt64
  basePath : Bytes
  getClusterInfoByTerm : UInt64 → Except Errno ClusterInfo
  /-- whether `os.Create` succeeds on this path -/
  create : Bytes → Bool := fun _ => true
  /-- whether a chunk can be written to the block file after this content -/
  writeFile : Bytes → Bytes → Bool := fun _ _ => true
  /-- whether a stream to this node can be opened -/
  openStream : UInt64 → Bool := fun _ => true
  /-- whether the last of these payloads can be sent on a stream to this node -/
  send : UInt64 → List Payload → Bool := fun _ _ => true
  /-- what `CloseAndRecv` returns on a stream to this node that was sent these payloads,
  unless it returns an error -/
  reply : UInt64 → List Payload → Option Result

structure RemoteWriter where
  /-- the node that the client is connected to -/
  node : UInt64
  blockInfo : Option BlockInfo
  pipeline : Pipeline
  /-- the payloads sent on the stream, once it is open -/
  stream : Option (List Payload) := none
  deriving DecidableEq, Repr

def getNodeInfo (clusterInfo : ClusterInfo) (nodeID : UInt64) : Option NodeInfo :=
  clusterInfo.nodesInfo.find? fun info => info.raftId = nodeID

def makeSingleNodePipeline (info : NodeInfo) (p : Pipeline) : Pipeline := ⟨p.pgId, [info.raftId]⟩

def newRemoteWriter (blockInfo : Option BlockInfo) (nodeInfo : NodeInfo) (p : Pipeline) :
    RemoteWriter where
  node := nodeInfo.raftId
  blockInfo := blockInfo
  pipeline := makeSingleNodePipeline nodeInfo p

variable (n : Node)

namespace RemoteWriter

/-- The `BEGIN` of `init`, which leaves the term unset. -/
def begin (w : RemoteWriter) : Payload := .message ⟨.BEGIN, w.blockInfo, some w.pipeline, 0⟩

/-- The `EOF` of `Close`. -/
def eof (w : RemoteWriter) : Payload := .message ⟨.EOF, w.blockInfo, none, 0⟩

def init (w : RemoteWriter) : RemoteWriter × Option Errno :=
  if n.openStream w.node then
    ({ w with stream := some [w.begin] },
      if n.send w.node [w.begin] then none else some (.other "EOF"))
  else (w, some (.other "open stream"))

/-- `stream.Send` of a payload. -/
def sendOn (w : RemoteWriter) (sent : List Payload) (payload : Payload) :
    RemoteWriter × Option Errno :=
  ({ w with stream := some (sent ++ [payload]) },
    if n.send w.node (sent ++ [payload]) then none else some (.other "EOF"))

def write (w : RemoteWriter) (chunk : Bytes) : RemoteWriter × Option Errno :=
  match w.stream with
  | some sent => w.sendOn n sent (.chunk chunk)
  | none =>
    match w.init n with
    | (w, some e) => (w, some e)
    | (w, none) => w.sendOn n [w.begin] (.chunk chunk)

/-- `Close`. An error of its `Send` is overwritten by the result of `CloseAndRecv`. -/
def close (w : RemoteWriter) : RemoteWriter × Option Errno :=
  match w.stream with
  | none => (w, some .remoteGaiaFail)
  | some sent =>
    let w := { w with stream := some (sent ++ [w.eof]) }
    match n.reply w.node (sent ++ [w.eof]) with
    | some ⟨.OK, _, _⟩ => (w, none)
    | _ => (w, some .remoteGaiaFail)

end RemoteWriter

/-- The dynamic types of `localWriter` that `Close` distinguishes. -/
inductive LocalWriter where
  | file (content : Bytes)
  | buffered (w : Bufio.Writer UInt8 4096)

def LocalWriter.content : LocalWriter → Bytes
  | file content => content
  | buffered w => w.sink

def LocalWriter.write (chunk : Bytes) : LocalWriter → LocalWriter
  | file content => file (content ++ chunk)
  | buffered w => buffered (w.write chunk)

structure PrimaryCopyTransporter where
  info : Option BlockInfo := none
  pipeline : Option Pipeline := none
  basePath : Bytes := []
  localWriter : Option LocalWriter := none
  remoteWriters : List RemoteWriter := []

/-- `NewPrimaryCopyTransporter`; `none` where it dereferences a nil pipeline or the nil info of
an unknown node. -/
def newPrimaryCopyTransporter (info : Option BlockInfo) (pipeline : Option Pipeline)
    (selfID : UInt64) (clusterInfo : ClusterInfo) (basePath : Bytes) :
    Option PrimaryCopyTransporter := do
  let p ← pipeline
  let remoteWriters ← (p.raftId.filter (· ≠ selfID)).mapM fun nodeID =>
    (getNodeInfo clusterInfo nodeID).map fun nodeInfo => newRemoteWriter info nodeInfo p
  return { info := info, pipeline := some p, basePath := basePath, remoteWriters := remoteWriters }

def eachRemote (op : RemoteWriter → RemoteWriter × Option Errno) :
    List RemoteWriter → List RemoteWriter × Option Errno
  | [] => ([], none)
  | w :: ws =>
    match op w with
    | (w, some e) => (w :: ws, some e)
    | (w, none) =>
      let (ws, err) := eachRemote op ws
      (w :: ws, err)

namespace PrimaryCopyTransporter

/-- `GetStoragePath`; a nil block info panics. -/
def getStoragePath (t : PrimaryCopyTransporter) : Option Bytes :=
  t.info.map fun info => pathJoin [t.basePath, info.blockId]

/-- `init`: creates the file and buffers it. -/
def init (t : PrimaryCopyTransporter) : Option (PrimaryCopyTransporter × Option Errno) := do
  let path ← t.getStoragePath
  if n.create path then
    return ({ t with localWriter := some (.buffered .new) }, none)
  else return (t, some (.other "create"))

/-- `io.MultiWriter(append(remoteWriters, localWriter)...).Write`. -/
def multiWrite (t : PrimaryCopyTransporter) (chunk : Bytes) : PrimaryCopyTransporter × Option Errno :=
  match eachRemote (fun w => w.write n chunk) t.remoteWriters with
  | (ws, some e) => ({ t with remoteWriters := ws }, some e)
  | (ws, none) =>
    if t.localWriter.all fun w => n.writeFile w.content chunk then
      ({ t with
        remoteWriters := ws
        localWriter := t.localWriter.map (LocalWriter.write chunk) }, none)
    else ({ t with remoteWriters := ws }, some (.other "write"))

def write (t : PrimaryCopyTransporter) (chunk : Bytes) :
    Option (PrimaryCopyTransporter × Option Errno) :=
  match t.localWriter with
  | some _ => some (t.multiWrite n chunk)
  | none => do
    match ← t.init n with
    | (t, some e) => return (t, some e)
    | (t, none) => return t.multiWrite n chunk

/-- `Close`: a file is synced and closed, which keeps its content. A buffered writer is neither
flushed nor closed. -/
def close (t : PrimaryCopyTransporter) : PrimaryCopyTransporter × Option Errno :=
  let localWriter := match t.localWriter with
    | some (.file content) => some (.file content)
    | w => w
  let (ws, err) := eachRemote (fun w => w.close n) t.remoteWriters
  ({ t with localWriter := localWriter, remoteWriters := ws }, err)

def blockFile (t : PrimaryCopyTransporter) : Option (Bytes × Bytes) := do
  return (← t.getStoragePath, (← t.localWriter).content)

end PrimaryCopyTransporter

end Ecos.Gaia
