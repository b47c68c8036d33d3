import Ecos.Gaia.UploadOutcome

namespace Ecos.Rainbow
open Go Moon Gaia

/-- `CloudGaia`, with what happens to its files. -/
structure CloudGaia where
  basePath : Bytes
  create : Bytes → Bool := fun _ => true
  writeFile : Bytes → Bytes → Bool := fun _ _ => true

namespace CloudGaia
variable (g : CloudGaia)

/-- The pipeline that every block gets in the cloud, whatever the message says. -/
def pipeline : Pipeline := ⟨0, [0]⟩

/-- `path.Join(g.conf.BasePath, "gaia", "blocks")` -/
def blocks : Bytes :=
  pathJoin [g.basePath, [103, 97, 105, 97], [98, 108, 111, 99, 107, 115]]

def node : Node where
  selfID := 0
  basePath := g.blocks
  getClusterInfoByTerm := fun _ => .ok .zero
  create := g.create
  writeFile := g.writeFile
  reply := fun _ _ => none

def processControlMessage (s : Session) (msg : ControlMessage) : Session :=
  match msg.code with
  | .BEGIN =>
    -- a transporter without remote writers never looks at its nil cluster info
    match newPrimaryCopyTransporter msg.block (some pipeline) 0 .zero g.blocks with
    | none => { s with ended := some .panicked }
    | some t =>
      if msg.block = none then { s with transporter := t, ended := some .panicked }
      else { s with transporter := t }
  | .EOF => s.processEOF g.node msg
  | .unknown _ => s.sendAndClose ⟨.FAIL, 0, ""⟩

/-- One round of the loop of `UploadBlockData`. -/
def handle (s : Session) (payload : Payload) : Session :=
  if s.ended ≠ none then s
  else
    match payload with
    | .message msg => g.processControlMessage s msg
    | .chunk data => s.processChunk g.node data
    | .blank => { s.sendAndClose ⟨.FAIL, 0, ""⟩ with ended := some (.returned none) }

def uploadBlockData (payloads : List Payload) : Session := payloads.foldl g.handle {}

end CloudGaia

def redirect : Payload → Payload
  | .message msg => .message { msg with pipeline := some CloudGaia.pipeline }
  | payload => payload

/-- The cloud handles an upload as an edge node would that is alone in the pipeline. -/
theorem CloudGaia.handle_eq (g : CloudGaia) (s : Session) (payload : Payload) :
    g.handle s payload = s.handle g.node (redirect payload) := by
  unfold handle Session.handle
  split_ifs with hended
  · rfl
  · cases payload with
    | message msg =>
      dsimp only [redirect, processControlMessage, Session.processControlMessage]
      cases msg.code <;> rfl
    | chunk data => rfl
    | blank => rfl

theorem CloudGaia.uploadBlockData_eq (g : CloudGaia) (payloads : List Payload) :
    g.uploadBlockData payloads = Gaia.uploadBlockData g.node (payloads.map redirect) := by
  unfold uploadBlockData Gaia.uploadBlockData
  rw [List.foldl_map]
  congr 1
  funext s payload
  exact g.handle_eq s payload

end Ecos.Rainbow
