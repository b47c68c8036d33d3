import Ecos.Gaia.Transporter

namespace Ecos.Rainbow
open Go Std Moon Gaia

inductive Method where
  | UNKNOWN
  | GET
  | PUT
  | DELETE
  | LIST
  deriving DecidableEq, Repr

inductive Resource where
  | UNKNOWN
  | INFO
  | META
  | OBJECT
  | BLOCK
  deriving DecidableEq, Repr

inductive Position where
  | UNKNOWN
  | EDGE
  | CLOUD
  | EDGE_CLOUD
  deriving DecidableEq, Repr

/-- An `ObjectMeta` with its field `Position`, which cloud and edge read. -/
structure PositionedMeta extends ObjectMeta where
  position : Position
  deriving DecidableEq, Repr

structure Request where
  requestSeq : UInt64
  method : Method
  resource : Resource
  term : UInt64 := 0
  requestId : Bytes := []
  infoType : InfoType := .INVALID
  info : Option BaseInfo := none
  objectMeta : Option PositionedMeta := none
  deriving DecidableEq, Repr

structure Response where
  responseTo : UInt64
  result : Option Result := none
  chunk : Bytes := []
  metas : List PositionedMeta := []
  infos : List BaseInfo := []
  isLast : Bool := false
  deriving DecidableEq, Repr

/-- The registered channels with what was sent on each of them, and the channels that were
closed. -/
structure Router where
  m : ExtTreeMap UInt64 (List Response) compare := ∅
  closed : List (UInt64 × List Response) := []

namespace Router

/-- `Register`, which panics on an ID that is registered. -/
def register (r : Router) (id : UInt64) : Option Router :=
  match r.m[id]? with
  | none => some { r with m := r.m.insert id [] }
  | some _ => none

/-- `Unregister`. Closing the nil channel of an unknown ID panics. -/
def unregister (r : Router) (id : UInt64) : Option Router :=
  match r.m[id]? with
  | none => none
  | some sent => some ⟨r.m.erase id, r.closed ++ [(id, sent)]⟩

/-- `Send`, which drops what has no channel. -/
def send (r : Router) (id : UInt64) (x : Response) : Router :=
  match r.m[id]? with
  | none => r
  | some sent => { r with m := r.m.insert id (sent ++ [x]) }

/-- What `streamLoop` and `eventLoop` do with a response. -/
def receive (r : Router) (x : Response) : Option Router :=
  let r := r.send x.responseTo x
  if x.isLast then r.unregister x.responseTo else some r

end Router

end Ecos.Rainbow
