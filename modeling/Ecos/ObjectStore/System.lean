import Ecos.BlockReferences
import Ecos.Client.RoundTrip
import Ecos.ObjectMap

namespace Ecos.ObjectStore
open Go Logic Std Alaya Client

/-- A writer in `Close`. -/
structure Put where
  /-- all that was written -/
  content : Bytes
  /-- the blocks whose upload has not ended, with their IDs -/
  unsent : List (Bytes × Bytes)
  objectMeta : ObjectMeta

/-- A call of `Read` that has not returned. -/
structure Reading where
  state : ReadState
  /-- the spans whose goroutines have not run -/
  pending : List CalcBlock
  /-- whether `calcBlocks` returned `io.EOF` -/
  eof : Bool
  /-- some goroutine ended without a signal to the wait group -/
  hangs : Bool := false

/-- An open reader. It is not used after its first `io.EOF`. -/
structure Get where
  reader : EcosReader
  reading : Option Reading := none
  eof : Bool := false

structure System where
  /-- term of the current cluster info -/
  term : UInt64
  /-- what has been agreed on in the metadata groups, and before each change of it, the last one
  first -/
  register : Register
  past : List Register := []
  /-- the block files of Gaia -/
  gaia : ByteMap Bytes := ∅
  /-- the block IDs generated so far -/
  generated : List Bytes := []
  puts : List Put := []
  gets : List Get := []
  /-- metas that `copyObject` has looked up and not yet written -/
  copies : List ObjectMeta := []
  /-- metas that `DeleteMeta` has looked up and not yet deleted -/
  deletes : List ObjectMeta := []
  /-- what the goroutines of `RemoveObjectBlocks` have still to remove -/
  cleanups : List (List BlockInfo) := []
  /-- changes of the metadata and results of readers, in their order -/
  events : List (ObjectEvent Bytes UInt8) := []

inductive Action where
  | newTerm (term : UInt64)
  /-- a writer opened under `term` gets these writes and is closed -/
  | close (f : Factory) (key : Bytes) (term : UInt64) (ps : List Bytes)
    (completions : List (ℕ × Bool))
  /-- an upload of a closed writer ends; `stored` is the number of bytes in the file, if there is
  one -/
  | upload (i n : ℕ) (stored : Option ℕ)
  /-- `SubmitMeta` of a closed writer -/
  | submit (i : ℕ) (clientTerm : UInt64)
  /-- the lookup of a new reader, on a node that has not applied the last `behind` changes -/
  | getObjMeta (c : Capacity) (objID : Bytes) (clientTerm : UInt64) (behind : ℕ)
  | beginRead (j : ℕ) (buffer : Bytes)
  /-- the goroutine of a span; `reached` is whether its nodes answer -/
  | span (j k : ℕ) (reached : Bool)
  | endRead (j : ℕ)
  | lookUpSource (objID : Bytes) (clientTerm : UInt64) (behind : ℕ)
  | copy (bucketInfo : BucketInfo) (key : Bytes) (i : ℕ) (clientTerm : UInt64)
  | lookUpDeleted (objID : Bytes) (clientTerm : UInt64) (behind : ℕ)
  | delete (i : ℕ)
  /-- `RemoveBlock` on the next block of a clean-up: whether the block is gone afterwards and
  whether nil was returned -/
  | removeBlock (i : ℕ) (gone ok : Bool)

/-- The metadata on a node that has not applied the last `behind` changes. -/
def registerAt (s : System) (behind : ℕ) : Option Register := (s.register :: s.past)[behind]?

def setGet (s : System) (j : ℕ) (g : Get) : System := { s with gets := s.gets.set j g }

section
variable (ring : Mapper) (a : AlayaEnv)

/-- What one round of `uploadMeta` does: the new register, whether the client submits again, and
the error with which it gives up. -/
inductive Submitted where
  | recorded (register : Register)
  | again
  | failed

def submitMeta (s : System) (clientTerm : UInt64) (m : ObjectMeta) : Submitted :=
  match recordObjectMeta ring a s.register s.term clientTerm m with
  | .ok register => .recorded register
  | .error .termNotMatch => .again
  | .error _ => .failed

def runSpan (s : System) (g : Get) (rd : Reading) (k : ℕ) (span : CalcBlock) (reached : Bool) :
    Reading :=
  let fetch : Bytes → Option Bytes := fun id => if reached then s.gaia[id]? else none
  match readSpan g.reader.capacity fetch g.reader.objectMeta.blocks rd.state span with
  | some state => { rd with state := state, pending := rd.pending.eraseIdx k }
  | none => { rd with pending := rd.pending.eraseIdx k, hangs := true }

def step (s : System) : Action → Option System
  | .newTerm term => some { s with term := term }
  | .close f key term ps completions => do
    let r ← Client.close f (writes f { key := key, term := term } ps) completions [.ok]
    let m ← r.submitted.head?
    let ids := r.writer.sent.map Prod.fst
    -- `GenBlockId` gives a new UUID
    if ids.Nodup ∧ ∀ id ∈ ids, id ∉ s.generated then
      some { s with
        generated := ids ++ s.generated
        puts := ⟨ps.flatten, r.writer.sent, m⟩ :: s.puts }
    else none
  | .upload i n stored => do
    let p ← s.puts[i]?
    let (id, block) ← p.unsent[n]?
    return { s with
      gaia := match stored with
        | some size => s.gaia.insert id (block.take size)
        | none => s.gaia
      puts := s.puts.set i { p with unsent := p.unsent.eraseIdx n } }
  | .submit i clientTerm => do
    let p ← s.puts[i]?
    if p.unsent = [] then
      match submitMeta ring a s clientTerm p.objectMeta with
      | .recorded register =>
        some { s with
          register := register
          past := s.register :: s.past
          puts := s.puts.eraseIdx i
          events := s.events ++ [.put (cleanObjectKey p.objectMeta.objId) p.content] }
      | .again => some s
      | .failed => some { s with puts := s.puts.eraseIdx i }
    else none
  | .getObjMeta c objID clientTerm behind => do
    let register ← registerAt s behind
    match getObjectMeta ring a register s.term clientTerm objID with
    | .ok m =>
      some { s with
        gets := s.gets ++ [{ reader := { capacity := c, objectMeta := m } }]
        events := s.events ++ [.opened (cleanObjectKey objID)] }
    | .error .metaNotExist =>
      some { s with events := s.events ++ [.missing (cleanObjectKey objID)] }
    | .error _ => some s
  | .beginRead j buffer => do
    let g ← s.gets[j]?
    if g.reading.isSome || g.eof then none
    else
      let (spans, reader, eof) := calcBlocks g.reader buffer.length
      let rd : Reading := ⟨⟨buffer, reader.cachedBlocks, 0⟩, spans, eof, false⟩
      return setGet s j { g with reader := reader, reading := some rd }
  | .span j k reached => do
    let g ← s.gets[j]?
    let rd ← g.reading
    let span ← rd.pending[k]?
    return setGet s j { g with reading := some (runSpan s g rd k span reached) }
  | .endRead j => do
    let g ← s.gets[j]?
    let rd ← g.reading
    if rd.pending = [] ∧ rd.hangs = false then
      let reader := { g.reader with cachedBlocks := rd.state.cached }
      return { setGet s j ⟨reader, none, rd.eof⟩ with
        events := s.events ++
          [.data j rd.state.buffer.length (rd.state.buffer.take rd.state.count) rd.eof] }
    else none
  | .lookUpSource objID clientTerm behind => do
    let register ← registerAt s behind
    let m ← (getObjectMeta ring a register s.term clientTerm objID).toOption
    return { s with
      copies := m :: s.copies
      events := s.events ++ [.taken (cleanObjectKey objID)] }
  | .copy bucketInfo key i clientTerm => do
    let m ← s.copies[i]?
    let m := BlockReferences.addressed ring bucketInfo key m
    match submitMeta ring a s clientTerm m with
    | .recorded register =>
      some { s with
        register := register
        past := s.register :: s.past
        copies := s.copies.eraseIdx i
        events := s.events ++ [.copied i (cleanObjectKey m.objId)] }
    | .again | .failed => some s
  | .lookUpDeleted objID clientTerm behind => do
    let register ← registerAt s behind
    let m ← (getObjectMeta ring a register s.term clientTerm objID).toOption
    return { s with deletes := m :: s.deletes }
  | .delete i => do
    let m ← s.deletes[i]?
    let register ← (deleteMeta s.register m).toOption
    return { s with
      register := register
      past := s.register :: s.past
      deletes := s.deletes.eraseIdx i
      cleanups := m.blocks :: s.cleanups
      events := s.events ++ [.deleted m.objId] }
  | .removeBlock i gone ok =>
    match s.cleanups[i]? with
    | some (b :: rest) =>
      some { s with
        gaia := if gone then s.gaia.erase b.blockId else s.gaia
        cleanups := s.cleanups.set i (if ok then rest else []) }
    | _ => none

/-- Pools give out whole chunks, and a closed writer hears of every upload. A copy is made of what
its source is now. -/
def Proper (_ : System) : Action → Prop
  | .close f key term ps completions =>
    PoolOk f ∧ Arrive (committedAll f (writes f { key := key, term := term } ps)) completions
  | .lookUpSource _ _ behind => behind = 0
  | _ => True

/-- A file has the whole block or is not there, and readers look up what is recorded now. -/
def Whole (s : System) : Action → Prop
  | .upload i n stored => ∀ p ∈ s.puts[i]?, ∀ e ∈ p.unsent[n]?, ∀ size ∈ stored, e.2.length ≤ size
  | .getObjMeta _ _ _ behind => behind = 0
  | _ => True

instance decidableWhole (s : System) : ∀ action, Decidable (Whole s action)
  | .upload i n stored => inferInstanceAs (Decidable
    (∀ p ∈ s.puts[i]?, ∀ e ∈ p.unsent[n]?, ∀ size ∈ stored, e.2.length ≤ size))
  | .getObjMeta _ _ _ behind => inferInstanceAs (Decidable (behind = 0))
  | .newTerm _ | .close _ _ _ _ _ | .submit _ _ | .beginRead _ _ | .span _ _ _ | .endRead _
  | .lookUpSource _ _ _ | .copy _ _ _ _ | .lookUpDeleted _ _ _ | .delete _ | .removeBlock _ _ _ =>
    isTrue trivial

end

def Steady (a : AlayaEnv) : Prop := ∀ t t', a.metaPgNumByTerm t = a.metaPgNumByTerm t'

section
variable {ring : Mapper} {a : AlayaEnv} {r r' : Register}

def found (r : Register) (pg : UInt64) (id : Bytes) : Option ObjectMeta :=
  r[pg]?.bind fun storage => storage.metaMap[id]?

def objectAt (ring : Mapper) (a : AlayaEnv) (r : Register) (id : Bytes) : Option ObjectMeta :=
  found r (calculateObjectPGID ring a 0 id) id

theorem Steady.calculateObjectPGID (ha : Steady a) (term : UInt64) (id : Bytes) :
    Ecos.calculateObjectPGID ring a term id = Ecos.calculateObjectPGID ring a 0 id := by
  unfold Ecos.calculateObjectPGID
  rw [ha term 0]

theorem found_propose {pgID : UInt64} {o : MetaOperate}
    (h : proposeObjectMetaOperate r pgID o = .ok r') (pg : UInt64) (id : Bytes) :
    found r' pg id = if pg = pgID ∧ id = o.objectMeta.objId then
      (match o.operate with
        | .PUT => some o.objectMeta
        | .DELETE => none)
      else found r pg id := by
  obtain ⟨storage, hs, rfl⟩ := propose_eq_ok h
  unfold found
  rw [ExtTreeMap.getElem?_insert]
  simp only [LawfulEqCmp.compare_eq_iff_eq]
  by_cases hpg : pgID = pg
  · subst hpg
    rw [if_pos rfl, hs, Option.bind_some, Option.bind_some]
    by_cases hid : id = o.objectMeta.objId
    · rw [if_pos ⟨rfl, hid⟩, hid]
      unfold MemoryMetaStorage.operate
      cases o.operate with
      | PUT => exact ExtTreeMap.getElem?_insert_self
      | DELETE => exact ExtTreeMap.getElem?_erase_self
    · have hne : o.objectMeta.objId ≠ id := Ne.symm hid
      rw [if_neg (by simp [hid])]
      unfold MemoryMetaStorage.operate
      cases o.operate <;> simp [MemoryMetaStorage.recordMeta, MemoryMetaStorage.delete,
        ExtTreeMap.getElem?_insert, ExtTreeMap.getElem?_erase, hne]
  · rw [if_neg hpg, if_neg (by simp [Ne.symm hpg])]

def cleaned (m : ObjectMeta) : ObjectMeta := { m with objId := cleanObjectKey m.objId }

theorem objectAt_record (ha : Steady a) {current clientTerm : UInt64} {m : ObjectMeta}
    (h : recordObjectMeta ring a r current clientTerm m = .ok r') :
    m.pgId = calculateObjectPGID ring a 0 (cleaned m).objId ∧
      objectAt ring a r' =
        Function.update (objectAt ring a r) (cleaned m).objId (some (cleaned m)) := by
  obtain ⟨term, -, h⟩ := bind_eq_ok h
  obtain ⟨m', hm', h⟩ := bind_eq_ok h
  unfold checkObject at hm'
  dsimp only at hm'
  split_ifs at hm' with hpg
  cases hm'
  rw [not_not] at hpg
  have hpg' : m.pgId = calculateObjectPGID ring a 0 (cleaned m).objId :=
    hpg.trans (ha.calculateObjectPGID term _)
  refine ⟨hpg', ?_⟩
  funext id
  rw [objectAt, found_propose h, Function.update_apply]
  by_cases hid : id = (cleaned m).objId
  · rw [if_pos hid, if_pos ⟨by rw [hid]; exact hpg'.symm, hid⟩]
    rfl
  · rw [if_neg hid, if_neg fun hboth => hid hboth.2]
    rfl

theorem objectAt_delete {m : ObjectMeta} (h : deleteMeta r m = .ok r')
    (hm : m.pgId = calculateObjectPGID ring a 0 m.objId) :
    objectAt ring a r' = Function.update (objectAt ring a r) m.objId none := by
  funext id
  rw [objectAt, found_propose h, Function.update_apply]
  by_cases hid : id = m.objId
  · rw [if_pos hid, if_pos ⟨by rw [hid, hm], hid⟩]
  · rw [if_neg hid, if_neg fun hboth => hid hboth.2]
    rfl

/-- A lookup that the service answers with a meta or with `MetaNotExist`. -/
theorem objectAt_get (ring : Mapper) (ha : Steady a) (r : Register) (current clientTerm : UInt64)
    (objID : Bytes) :
    (∀ m, getObjectMeta ring a r current clientTerm objID = .ok m →
      objectAt ring a r (cleanObjectKey objID) = some m) ∧
    (getObjectMeta ring a r current clientTerm objID = .error .metaNotExist →
      objectAt ring a r (cleanObjectKey objID) = none) := by
  unfold getObjectMeta checkClientTerm
  by_cases hterm : clientTerm = current
  · rw [if_neg (not_not.mpr hterm)]
    simp only [objectAt, found, ← ha.calculateObjectPGID clientTerm, bind, Except.bind]
    cases hs : r[calculateObjectPGID ring a clientTerm (cleanObjectKey objID)]? with
    | none => simp
    | some storage =>
      simp only [Option.bind_some, MemoryMetaStorage.getMeta]
      cases storage.metaMap[cleanObjectKey objID]? <;> simp
  · rw [if_pos hterm]
    simp [bind, Except.bind]

end

end Ecos.ObjectStore
