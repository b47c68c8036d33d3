import Ecos.Infos

namespace Ecos
open Go

structure BlockInfo where
  blockId : Bytes
  partId : Int32 := 0
  blockSize : UInt64
  blockHash : Bytes := []
  pgId : UInt64 := 0
  deriving DecidableEq, Repr

structure Timestamp where
  seconds : Int64
  nanos : Int32
  deriving DecidableEq, Repr

structure ObjectMeta where
  objId : Bytes
  objSize : UInt64
  updateTime : Timestamp := ⟨0, 0⟩
  objHash : Bytes := []
  pgId : UInt64
  blocks : List BlockInfo
  term : UInt64
  deriving DecidableEq, Repr

/-- `NewMapper(n).MapIDtoPG(id)`. The hash ring is a fixed function of the number
of groups and the id. -/
abbrev Mapper := UInt64 → Bytes → UInt64

/-- Go's conversion of an `int32` to a string: the UTF-8 encoding of the code point,
and of U+FFFD where the value is no code point. -/
def stringOfRune (r : Int32) : Bytes :=
  if h : 0 ≤ r.toInt ∧ r.toInt.toNat.isValidChar then
    String.utf8EncodeChar (Char.ofNatAux r.toInt.toNat h.2)
  else [0xEF, 0xBF, 0xBD]

section Placement
variable (ring : Mapper)

def mapIDtoPG (pgNum : Int32) (id : Bytes) : UInt64 := ring pgNum.toInt64.toUInt64 id

def genSlotPgID (bucketID : Bytes) (slot pgNum : Int32) : UInt64 :=
  mapIDtoPG ring pgNum (bucketID ++ [slash] ++ stringOfRune slot)

def cleanObjectKey (objectKey : Bytes) : Bytes := trimPrefix [slash] (pathClean objectKey)

def calculateSlot (objectKey : Bytes) (slotNum : Int32) : Int32 :=
  (mapIDtoPG ring slotNum (cleanObjectKey objectKey)).toUInt32.toInt32

structure SplitIDResult where
  volumeID : Bytes
  bucketID : Bytes
  key : Bytes
  slotID : Int32
  deriving DecidableEq, Repr

def splitID (objectID : Bytes) : Except String SplitIDResult :=
  match splitN slash 4 (cleanObjectKey objectID) with
  | [volumeID, bucketName, slot, key] =>
    match atoi slot with
    | some i =>
      .ok ⟨volumeID, genBucketID volumeID bucketName, trimPrefix [slash] key, Int32.ofInt i⟩
    | none => .error "split objectID error"
  | _ => .error "split objectID error"

def genObjPgID (bucketInfo : BucketInfo) (objectKey : Bytes) (pgNum : Int32) : UInt64 :=
  genSlotPgID ring bucketInfo.getID
    (calculateSlot ring (cleanObjectKey objectKey) bucketInfo.config.keySlotNum) pgNum

def genObjectId (bucketInfo : BucketInfo) (key : Bytes) : Bytes :=
  let key := trim slash (pathClean key)
  let slot := calculateSlot ring key bucketInfo.config.keySlotNum
  cleanObjectKey (pathJoin [bucketInfo.getID, formatInt slot.toInt, key])

/-- The lookups of `Alaya.calculateObjectPGID`: the bucket infos held by Moon and
`MetaPgNum` of the cluster info of a term. -/
structure AlayaEnv where
  getInfoDirect : Bytes → Option BucketInfo
  metaPgNumByTerm : UInt64 → Option Int32

def calculateObjectPGID (a : AlayaEnv) (term : UInt64) (objectID : Bytes) : UInt64 :=
  match splitID objectID with
  | .error _ => 0
  | .ok r =>
    match a.getInfoDirect r.bucketID with
    | none => 0
    | some bucketInfo =>
      match a.metaPgNumByTerm term with
      | none => 0
      | some metaPgNum => genObjPgID ring bucketInfo r.key metaPgNum

end Placement
end Ecos
