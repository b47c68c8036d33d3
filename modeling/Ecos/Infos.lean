import Ecos.Go.Strings

namespace Ecos
open Go

abbrev slash : UInt8 := 47
abbrev dot : UInt8 := 46

/-- `path.Clean` and `path.Join` on Go strings. -/
abbrev pathClean (p : Bytes) : Bytes := Path.clean slash dot p
abbrev pathJoin (ps : List Bytes) : Bytes := Path.join slash dot ps
abbrev pathElements (p : Bytes) : List Bytes := Path.elements slash dot p

/-- A non-empty name without `/` that is neither `.` nor `..`. -/
abbrev IsName (s : Bytes) : Prop := Path.IsName slash dot s

/-- The error values of `utils/errno` that the modelled code returns. -/
inductive Errno where
  | metaNotExist
  | metaStorageNotExist
  | infoTypeNotSupport
  | infoNotFound
  | termNotMatch
  | pgNotMatch
  | raftNodeNotFound
  | incompatibleSize
  | illegalStatus
  | repeatedClose
  | methodNotAllowed
  | invalidArgument
  | invalidPart
  | invalidPartOrder
  | noSuchUpload
  | invalidObjectState
  | poolClosed
  | clusterNotOK
  | transporterWriteFail
  | gaiaClosed
  | remoteGaiaFail
  | other (message : String)
  deriving DecidableEq, Repr

def Errno.code : Errno → Int32
  | metaNotExist => 1001
  | metaStorageNotExist => 1002
  | transporterWriteFail => 2001
  | gaiaClosed => 2002
  | remoteGaiaFail => 2003
  | infoTypeNotSupport => 3002
  | infoNotFound => 3003
  | termNotMatch => 3004
  | pgNotMatch => 3005
  | raftNodeNotFound => 3006
  | incompatibleSize => 5000
  | illegalStatus => 5002
  | repeatedClose => 5003
  | methodNotAllowed => 5004
  | invalidArgument => 5005
  | invalidPart => 6010
  | invalidPartOrder => 6011
  | noSuchUpload => 6012
  | invalidObjectState => 6014
  | poolClosed => 7000
  | clusterNotOK => 7002
  | other _ => 0

def Errno.message : Errno → String
  | metaNotExist => "meta data not exist"
  | metaStorageNotExist => "meta data storage not exist"
  | transporterWriteFail => "transporter write fail"
  | gaiaClosed => "gaia context done"
  | remoteGaiaFail => "remote gaia fail"
  | infoTypeNotSupport => "info type not support"
  | infoNotFound => "info not found"
  | termNotMatch => "term not match"
  | pgNotMatch => "place group not match"
  | raftNodeNotFound => "raft node not found"
  | incompatibleSize => "incompatible size"
  | illegalStatus => "block illegal status"
  | repeatedClose => "block repeated close"
  | methodNotAllowed => "method not allowed"
  | invalidArgument => "invalid argument"
  | invalidPart => "invalid part"
  | invalidPartOrder => "invalid part order"
  | noSuchUpload => "no such upload"
  | invalidObjectState => "invalid object state"
  | poolClosed => "pool has closed"
  | clusterNotOK => "cluster not ok"
  | other message => message

/-- `Error()`. An error from outside `utils/errno` has its own text. -/
def Errno.error : Errno → String
  | other message => message
  | e => "[" ++ toString e.code ++ "] " ++ e.message

theorem bind_eq_ok {ε α β : Type} {x : Except ε α} {f : α → Except ε β} {b : β}
    (h : x.bind f = .ok b) : ∃ y, x = .ok y ∧ f y = .ok b := by
  cases x with
  | error e => cases h
  | ok y => exact ⟨y, rfl, h⟩

theorem toOption_eq_some {ε α : Type} {x : Except ε α} {y : α} (h : x.toOption = some y) :
    x = .ok y := by
  cases x with
  | error => cases h
  | ok z => cases h; rfl

inductive HashType where
  | off
  | sha256
  | murmur3_128
  | murmur3_32
  deriving DecidableEq, Repr

structure BucketConfig where
  keySlotNum : Int32
  blockSize : UInt64
  historyVersionEnable : Bool := false
  blockHashType : HashType := .off
  objectHashType : HashType := .off
  deriving DecidableEq, Repr

structure BucketInfo where
  volumeId : Bytes
  bucketName : Bytes
  userId : Bytes := []
  config : BucketConfig
  deriving DecidableEq, Repr

def genBucketID (volumeId bucketName : Bytes) : Bytes := pathJoin [[slash], volumeId, bucketName]

def BucketInfo.getID (m : BucketInfo) : Bytes := genBucketID m.volumeId m.bucketName

/-- `GenBucketInfo`, nil where a cleaned name has a slash. -/
def genBucketInfo (volumeID bucketName userID : Bytes) : Option BucketInfo :=
  if slash ∈ pathClean bucketName ∨ slash ∈ pathClean volumeID then none
  else some
    { volumeId := pathClean volumeID
      bucketName := pathClean bucketName
      userId := userID
      config :=
        { keySlotNum := 5
          blockSize := 4 * 1024 * 1024
          historyVersionEnable := false
          blockHashType := .murmur3_128
          objectHashType := .murmur3_128 } }

theorem slash_ne_dot : slash ≠ dot := by decide

theorem names_pair {v n : Bytes} (hv : IsName v) (hn : IsName n) : ∀ e ∈ [v, n], IsName e := by
  intro e he
  rcases List.mem_cons.mp he with rfl | h
  · exact hv
  · rw [List.mem_singleton.mp h]
    exact hn

/-- The ID of a bucket with proper names is `/volume/bucket`. -/
theorem genBucketID_eq {v n : Bytes} (hv : IsName v) (hn : IsName n) :
    genBucketID v n = Path.render slash dot true [v, n] := by
  have hr : Path.resolve dot true [v, n] = [v, n] :=
    Path.resolve_normal ⟨0, [v, n], rfl, names_pair hv hn, fun _ => rfl⟩
  rw [genBucketID, pathJoin, Path.join_of_rooted (by rfl)]
  simp only [List.flatMap_cons, List.flatMap_nil, Path.elements_sep_cons, Path.elements_nil,
    Path.elements_of_isElement hv.toIsElement, Path.elements_of_isElement hn.toIsElement,
    List.nil_append, List.append_nil, List.singleton_append, hr]

theorem elements_genBucketID {v n : Bytes} (hv : IsName v) (hn : IsName n) :
    pathElements (genBucketID v n) = [v, n] := by
  rw [genBucketID_eq hv hn]
  exact Path.elements_render true fun e he => (names_pair hv hn e he).toIsElement

theorem genBucketID_injective {v n v' n' : Bytes} (hv : IsName v) (hn : IsName n)
    (hv' : IsName v') (hn' : IsName n') (h : genBucketID v n = genBucketID v' n') :
    v = v' ∧ n = n' := by
  have he := congrArg pathElements h
  rw [elements_genBucketID hv hn, elements_genBucketID hv' hn'] at he
  simpa using he

end Ecos
