import Ecos.Alaya.RaftGroups
import Ecos.Client.Closing
import Ecos.ObjectId

namespace Ecos.Client
open Go Alaya Moon

/-- `blockPgNum` of `client/io/block.go` -/
def blockPgNum : Int32 := 100

section Nodes
variable (ring : Mapper) (select : Select)

def genBlockPgID (blockID : Bytes) (pgNum : Int32) : UInt64 := mapIDtoPG ring pgNum blockID

def genBlockPG (block : BlockInfo) : UInt64 := mapIDtoPG ring blockPgNum block.blockId

/-- `GetBlockPG` on the pipelines of a cluster info, `none` where there are none or the index is
out of range. -/
def getBlockPG (info : ClusterInfo) (pgID : UInt64) : Option (List UInt64) := do
  let pipes ← (newClusterPipelines select info).toOption
  let p ← pipes.blockPipelines[(pgID - 1).toNat]?
  return p.raftId

/-- The nodes that `uploadByEdge` turns to, for a writer that was made with this cluster info. -/
def uploadNodes (info : ClusterInfo) (block : BlockInfo) : Option (List UInt64) :=
  getBlockPG select info block.pgId

/-- The nodes that `GetBlockByEdge` takes the first one of. `lookUp` finds cluster infos by their
terms. -/
def readNodes (lookUp : UInt64 → Option ClusterInfo) (m : ObjectMeta) (block : BlockInfo) :
    Option (List UInt64) := do
  let info ← lookUp m.term
  getBlockPG select info (genBlockPgID ring block.blockId info.blockPgNum)

/-- The nodes of the pipeline that `RemoveBlock` sends. -/
def removeNodes (current : ClusterInfo) (block : BlockInfo) : Option (List UInt64) :=
  getBlockPG select current (genBlockPgID ring block.blockId current.blockPgNum)

end Nodes

/-- The writer was made with this cluster info, and gave each block its group. -/
structure WrittenUnder (ring : Mapper) (info : ClusterInfo) (m : ObjectMeta) : Prop where
  term : m.term = info.term
  pgId : ∀ b ∈ m.blocks, b.pgId = genBlockPG ring b

section Writers
variable {f : Factory}

/-- The meta that a writer submits when it is closed. -/
theorem writtenUnder_generated (hf : f.genBlockPG = genBlockPG f.ring) {bs : List Block}
    {size : UInt64} {w : EcosWriter} {m : ObjectMeta} {info : ClusterInfo}
    (hw : w.term = info.term) (hm : genMeta f w = some m) (hgen : Generated f bs size w m) :
    WrittenUnder f.ring info m where
  term := by
    simp only [genMeta, Option.bind_eq_bind, Option.bind_eq_some_iff] at hm
    obtain ⟨blocks, -, hm⟩ := hm
    rw [← Option.some.inj hm, ← hw]
  pgId b hb := by
    rw [hgen.blocks, listedInfos] at hb
    obtain ⟨i, hi, rfl⟩ := List.mem_mapIdx.mp hb
    rw [closedInfo, hf]
    rfl

end Writers

def chosen (select : Select) (info : ClusterInfo) (pgID : UInt64) : List UInt64 :=
  (select (healthyNodes info) pgID info.blockPgSize.toInt64.toUInt64).map NodeInfo.raftId

section Placement
variable {ring : Mapper} {select : Select} {info : ClusterInfo} {pgID : UInt64}

/-- The pipeline of a group. -/
theorem exists_blockPipeline (henough : Enough select info) (hpos : 1 ≤ pgID.toNat)
    (hle : pgID.toNat ≤ info.blockPgNum.toInt64.toUInt64.toNat) :
    ∃ p ∈ genBlockPipelines select info, p.pgId = pgID ∧ p.raftId = chosen select info pgID ∧
      getBlockPG select info pgID = some p.raftId := by
  obtain ⟨pipes, hpipes⟩ := henough
  have hne : genBlockPipelines select info ≠ [] := by
    intro hnil
    simp [newClusterPipelines, hnil] at hpipes
  obtain ⟨p, hp, hid⟩ := getElem?_genPipelines hne hpos hle
  obtain ⟨i, -, -, hgen, hi⟩ := mem_genPipelines (List.mem_of_getElem? hp)
  have hpg : UInt64.ofNat i = pgID := by rw [← hi, hid, UInt64.ofNat_toNat]
  refine ⟨p, List.mem_of_getElem? hp, hid, ?_, ?_⟩
  · rw [hgen, genPipeline, hpg]
    rfl
  · have hblock : pipes.blockPipelines[(pgID - 1).toNat]? = some p := by
      rw [newClusterPipelines_eq hpipes]
      exact hp
    simp only [getBlockPG, hpipes, Except.toOption, Option.bind_eq_bind, Option.bind_some, hblock]
    rfl

theorem enough_of_getBlockPG {nodes : List UInt64} (h : getBlockPG select info pgID = some nodes) :
    Enough select info := by
  by_contra hnot
  rw [getBlockPG, toOption_eq_none_iff.mpr hnot] at h
  cases h

theorem genBlockPG_bounds (hring : InRange ring) (hnum : info.blockPgNum = 100) (b : BlockInfo) :
    1 ≤ (genBlockPG ring b).toNat ∧
      (genBlockPG ring b).toNat ≤ info.blockPgNum.toInt64.toUInt64.toNat := by
  have hpg : (1 : Int32) ≤ blockPgNum := by decide
  obtain ⟨hlo, hhi⟩ := mapIDtoPG_bounds hring hpg b.blockId
  have hcast := toNat_pgNum hpg
  rw [hnum]
  change ((100 : Int32).toInt64.toUInt64.toNat : ℤ) = blockPgNum.toInt at hcast
  exact ⟨hlo, by rw [genBlockPG]; omega⟩

end Placement

/-- The reader addresses the pipeline that the writer wrote to, under every later cluster info. The
cleaner does so exactly where crush selects the same nodes under the current one. -/
theorem addressed_iff (ring : Mapper) (hring : InRange ring) (select : Select) (h : History)
    (hnum : ∀ info ∈ h.infos, info.blockPgNum = 100) (j k : ℕ) (hjk : j ≤ k)
    (info current : ClusterInfo) (hj : h.infos[j]? = some info) (hk : h.infos[k]? = some current)
    (henough : Enough select info) (m : ObjectMeta) (hm : WrittenUnder ring info m)
    (b : BlockInfo) (hb : b ∈ m.blocks) :
    ∃ p ∈ genBlockPipelines select info, p.pgId = b.pgId ∧
      uploadNodes select info b = some p.raftId ∧
      readNodes ring select (h.lookUp k) m b = some p.raftId ∧
      (removeNodes ring select current b = some p.raftId ↔
        Enough select current ∧ chosen select current b.pgId = chosen select info b.pgId) := by
  have hinfo := hnum info (List.mem_of_getElem? hj)
  have hcurrent := hnum current (List.mem_of_getElem? hk)
  have hpg := hm.pgId b hb
  obtain ⟨hpos, hle⟩ := genBlockPG_bounds hring hinfo b
  obtain ⟨-, hle'⟩ := genBlockPG_bounds hring hcurrent b
  rw [← hpg] at hpos hle hle'
  have hid : ∀ i : ClusterInfo, i.blockPgNum = 100 →
      genBlockPgID ring b.blockId i.blockPgNum = b.pgId := by
    intro i hi
    rw [hi, hpg]
    rfl
  obtain ⟨p, hp, hppg, hchosen, hget⟩ := exists_blockPipeline henough hpos hle
  refine ⟨p, hp, hppg, hget, ?_, ?_⟩
  · simp only [readNodes, hm.term, h.lookUp_eq hj hjk, Option.bind_eq_bind, Option.bind_some,
      hid info hinfo, hget]
  · rw [removeNodes, hid current hcurrent, hchosen]
    constructor
    · intro hremove
      have henough' := enough_of_getBlockPG hremove
      obtain ⟨q, -, -, hqchosen, hqget⟩ := exists_blockPipeline henough' hpos hle'
      rw [hqget, hqchosen] at hremove
      exact ⟨henough', Option.some.inj hremove⟩
    · rintro ⟨henough', hsame⟩
      obtain ⟨q, -, -, hqchosen, hqget⟩ := exists_blockPipeline henough' hpos hle'
      rw [hqget, hqchosen, hsame]

/-- A cluster info as `genNewClusterInfo` makes it, over nodes with these IDs. -/
def clusterOf (term lastTerm : UInt64) (ids : List UInt64) : ClusterInfo where
  term := term
  leaderInfo := none
  nodesInfo := ids.map fun id => ⟨id, [], [], 0, 0, .ONLINE⟩
  metaPgNum := 10
  metaPgSize := 3
  blockPgNum := 100
  blockPgSize := 3
  lastTerm := lastTerm

def joining : History where
  infos := [clusterOf 1 0 [3, 2, 1], clusterOf 2 1 [3, 2, 1], clusterOf 3 2 [4, 3, 2, 1]]
  linked := by
    unfold Linked
    decide

def oneBlock : BlockInfo := { blockId := [98], blockSize := 1, pgId := 1 }

def firstMeta : ObjectMeta :=
  { objId := [], objSize := 1, pgId := 1, blocks := [oneBlock], term := 1 }

theorem writtenUnder_firstMeta :
    WrittenUnder (fun _ _ => 1) (clusterOf 1 0 [3, 2, 1]) firstMeta where
  term := rfl
  pgId b hb := by
    rw [firstMeta, List.mem_singleton] at hb
    rw [hb]
    rfl

/-- While the nodes stay the same, all three agree. -/
theorem addressed_sameNodes :
    removeNodes (fun _ _ => 1) firstNodes (clusterOf 2 1 [3, 2, 1]) oneBlock = some [3, 2, 1] := by
  obtain ⟨p, -, -, hupload, -, hremove⟩ := addressed_iff (fun _ _ => 1)
    (fun _ _ h => ⟨UInt64.le_refl _, h⟩) firstNodes joining (by decide) 0 1 (by decide)
    (clusterOf 1 0 [3, 2, 1]) (clusterOf 2 1 [3, 2, 1]) rfl rfl (by decide) firstMeta
    writtenUnder_firstMeta oneBlock List.mem_cons_self
  have hnodes : uploadNodes firstNodes (clusterOf 1 0 [3, 2, 1]) oneBlock = some [3, 2, 1] := by
    decide
  rw [hupload] at hnodes
  rw [hremove.mpr ⟨by decide, by decide⟩, hnodes]

/-- Once the fourth node has joined, the cleaner leaves out node 1. -/
theorem cleaner_misses_node :
    joining.infos[0]? = some (clusterOf 1 0 [3, 2, 1]) ∧
      joining.infos[2]? = some (clusterOf 3 2 [4, 3, 2, 1]) ∧
      WrittenUnder (fun _ _ => 1) (clusterOf 1 0 [3, 2, 1]) firstMeta ∧
      uploadNodes firstNodes (clusterOf 1 0 [3, 2, 1]) oneBlock = some [3, 2, 1] ∧
      readNodes (fun _ _ => 1) firstNodes (joining.lookUp 2) firstMeta oneBlock =
        some [3, 2, 1] ∧
      removeNodes (fun _ _ => 1) firstNodes (clusterOf 3 2 [4, 3, 2, 1]) oneBlock =
        some [4, 3, 2] :=
  ⟨rfl, rfl, writtenUnder_firstMeta, by decide, by decide, by decide⟩

end Ecos.Client
