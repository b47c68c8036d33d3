import Ecos.Gaia.Transporter

namespace Ecos.Gaia
open Go Moon

inductive Ending where
  | returned (err : Option Errno)
  | panicked
  deriving DecidableEq, Repr

/-- The variables of one call of `UploadBlockData`. -/
structure Session where
  transporter : PrimaryCopyTransporter := {}
  /-- the results sent -/
  results : List Result := []
  ended : Option Ending := none

variable (n : Node)

namespace Session

def sendAndClose (s : Session) (r : Result) : Session := { s with results := s.results ++ [r] }

/-- The `BEGIN` branch of `processControlMessage`. Both the log line after it and the check of
the caller on the pipeline's length dereference the message. -/
def processBegin (s : Session) (msg : ControlMessage) : Session :=
  match n.getClusterInfoByTerm msg.term with
  | .error e =>
    if msg.pipeline = none then { s with ended := some .panicked }
    else { s with ended := some (.returned (some e)) }
  | .ok clusterInfo =>
    match newPrimaryCopyTransporter msg.block msg.pipeline n.selfID clusterInfo n.basePath with
    | none => { s with ended := some .panicked }
    | some t =>
      if msg.block = none then { s with transporter := t, ended := some .panicked }
      else { s with transporter := t }

def processEOF (s : Session) (msg : ControlMessage) : Session :=
  match s.transporter.close n with
  | (t, some e) => { s with transporter := t }.sendAndClose ⟨.FAIL, 0, e.error⟩
  | (t, none) =>
    if msg.block = none then { s with transporter := t, ended := some .panicked }
    else { s with transporter := t }.sendAndClose ⟨.OK, 0, ""⟩

def processControlMessage (s : Session) (msg : ControlMessage) : Session :=
  match msg.code with
  | .BEGIN => s.processBegin n msg
  | .EOF => s.processEOF n msg
  | .unknown _ => s.sendAndClose ⟨.FAIL, 0, ""⟩

def processChunk (s : Session) (data : Bytes) : Session :=
  match s.transporter.write n data with
  | none => { s with ended := some .panicked }
  | some (t, some e) =>
    { s with transporter := t }.sendAndClose
      ⟨.FAIL, Errno.transporterWriteFail.code, Errno.transporterWriteFail.error ++ e.error⟩
  | some (t, none) => { s with transporter := t }

def handle (s : Session) (payload : Payload) : Session :=
  if s.ended ≠ none then s
  else
    match payload with
    | .message msg => s.processControlMessage n msg
    | .chunk data => s.processChunk n data
    | .blank => { s.sendAndClose ⟨.FAIL, 0, ""⟩ with ended := some (.returned none) }

variable {n} {s : Session}

theorem handle_of_ended (h : s.ended ≠ none) (payload : Payload) : s.handle n payload = s := by
  unfold handle
  rw [if_pos h]

theorem handle_message (h : s.ended = none) (msg : ControlMessage) :
    s.handle n (.message msg) = s.processControlMessage n msg := by
  unfold handle
  rw [if_neg (not_not.mpr h)]

theorem handle_chunk (h : s.ended = none) (data : Bytes) :
    s.handle n (.chunk data) = s.processChunk n data := by
  unfold handle
  rw [if_neg (not_not.mpr h)]

/-- What the peer receives after closing its side, which makes the handler return nil unless it
has ended before: the one result that was sent, or an error. -/
def answer (s : Session) : Option Result :=
  match s.ended, s.results with
  | none, [r] => some r
  | some (.returned none), [r] => some r
  | _, _ => none

end Session

def uploadBlockData (payloads : List Payload) : Session := payloads.foldl (Session.handle n) {}

def transfer (info : BlockInfo) (p : Pipeline) (term : UInt64) (eofPipeline : Option Pipeline)
    (eofTerm : UInt64) (chunks : List Bytes) : List Payload :=
  .message ⟨.BEGIN, some info, some p, term⟩ :: chunks.map Payload.chunk ++
    [.message ⟨.EOF, some info, eofPipeline, eofTerm⟩]

end Ecos.Gaia
