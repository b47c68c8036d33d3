import Ecos.Moon.InfoStorage

namespace Ecos.Alaya
open Go Moon

inductive SyncType where
  | RAFT
  | STREAM
  deriving DecidableEq, Repr

structure Pipeline where
  pgId : UInt64
  raftId : List UInt64
  syncType : SyncType := .RAFT
  clusterTerm : UInt64
  deriving DecidableEq, Repr

structure ClusterPipelines where
  term : UInt64
  metaPipelines : List Pipeline
  blockPipelines : List Pipeline
  deriving DecidableEq, Repr

/-- `MetaPipelines[pgID-1]`, `none` where the index is out of range. -/
def ClusterPipelines.getMetaPipeline (cp : ClusterPipelines) (pgID : UInt64) : Option Pipeline :=
  cp.metaPipelines[(pgID - 1).toNat]?

/-- `gocrush.Select` over a straw selector of the healthy nodes: the nodes chosen for an input
and a count. -/
abbrev Select := List NodeInfo → UInt64 → UInt64 → List NodeInfo

def firstNodes : Select := fun nodes _ count => nodes.take count.toNat

def healthyNodes (clusterInfo : ClusterInfo) : List NodeInfo :=
  clusterInfo.nodesInfo.filter fun info => info.state ≠ .OFFLINE

variable (select : Select)

def genPipeline (clusterInfo : ClusterInfo) (groupSize : UInt64) (i : ℕ) : Pipeline where
  pgId := UInt64.ofNat i
  raftId := (select (healthyNodes clusterInfo) (UInt64.ofNat i) groupSize).map NodeInfo.raftId
  clusterTerm := clusterInfo.term

/-- `GenPipelines`. Too few healthy nodes give a nil slice. -/
def genPipelines (clusterInfo : ClusterInfo) (pgNum groupSize : UInt64) : List Pipeline :=
  if (healthyNodes clusterInfo).length < groupSize.toNat then []
  else (List.range' 1 pgNum.toNat).map (genPipeline select clusterInfo groupSize)

def genMetaPipelines (clusterInfo : ClusterInfo) : List Pipeline :=
  genPipelines select clusterInfo clusterInfo.metaPgNum.toInt64.toUInt64
    clusterInfo.metaPgSize.toInt64.toUInt64

def genBlockPipelines (clusterInfo : ClusterInfo) : List Pipeline :=
  genPipelines select clusterInfo clusterInfo.blockPgNum.toInt64.toUInt64
    clusterInfo.blockPgSize.toInt64.toUInt64

def newClusterPipelines (info : ClusterInfo) : Except Errno ClusterPipelines :=
  let metaPipelines := genMetaPipelines select info
  let blockPipelines := genBlockPipelines select info
  if metaPipelines.length = 0 ∨ blockPipelines.length = 0 then .error .clusterNotOK
  else .ok ⟨info.term, metaPipelines, blockPipelines⟩

def Enough (info : ClusterInfo) : Prop :=
  ∃ p, newClusterPipelines select info = .ok p

instance (info : ClusterInfo) : Decidable (Enough select info) :=
  match h : newClusterPipelines select info with
  | .ok p => isTrue ⟨p, h⟩
  | .error _ => isFalse fun ⟨_, hp⟩ => by simp [h] at hp

variable {select}

theorem genPipelines_eq_nil_iff {clusterInfo : ClusterInfo} {pgNum groupSize : UInt64} :
    genPipelines select clusterInfo pgNum groupSize = [] ↔
      (healthyNodes clusterInfo).length < groupSize.toNat ∨ pgNum = 0 := by
  unfold genPipelines
  split_ifs with h
  · exact iff_of_true rfl (Or.inl h)
  · rw [List.map_eq_nil_iff, List.range'_eq_nil_iff, or_iff_right h]
    exact ⟨fun h0 => UInt64.toNat_inj.mp h0, fun h0 => by rw [h0]; rfl⟩

/-- With group numbers that are not zero only a lack of healthy nodes makes it fail. -/
theorem enough_iff {info : ClusterInfo} (hm : info.metaPgNum.toInt64.toUInt64 ≠ 0)
    (hb : info.blockPgNum.toInt64.toUInt64 ≠ 0) :
    Enough select info ↔
      info.metaPgSize.toInt64.toUInt64.toNat ≤ (healthyNodes info).length ∧
        info.blockPgSize.toInt64.toUInt64.toNat ≤ (healthyNodes info).length := by
  unfold Enough newClusterPipelines
  simp only [List.length_eq_zero_iff, genMetaPipelines, genBlockPipelines, genPipelines_eq_nil_iff,
    hm, hb, or_false]
  split_ifs with h
  · simp only [exists_false, false_iff]
    omega
  · simp only [Except.ok.injEq, exists_eq', true_iff]
    omega

theorem toOption_eq_none_iff {info : ClusterInfo} :
    (newClusterPipelines select info).toOption = none ↔ ¬ Enough select info := by
  unfold Enough
  cases newClusterPipelines select info <;> simp [Except.toOption]

theorem newClusterPipelines_eq {info : ClusterInfo} {cp : ClusterPipelines}
    (hcp : newClusterPipelines select info = .ok cp) :
    cp = ⟨info.term, genMetaPipelines select info, genBlockPipelines select info⟩ := by
  simp only [newClusterPipelines] at hcp
  split_ifs at hcp
  exact (Except.ok.inj hcp).symm

/-- The pipeline of a group stands at the index before its number. -/
theorem getElem?_genPipelines {info : ClusterInfo} {pgNum groupSize : UInt64}
    (h : genPipelines select info pgNum groupSize ≠ []) {pgID : UInt64} (hpos : 1 ≤ pgID.toNat)
    (hle : pgID.toNat ≤ pgNum.toNat) :
    ∃ p, (genPipelines select info pgNum groupSize)[(pgID - 1).toNat]? = some p ∧
      p.pgId = pgID := by
  have hsub : (pgID - 1).toNat = pgID.toNat - 1 :=
    UInt64.toNat_sub_of_le _ _ (UInt64.le_iff_toNat_le.mpr hpos)
  unfold genPipelines at h ⊢
  split_ifs at h ⊢ with hsize
  · exact absurd rfl h
  · refine ⟨genPipeline select info groupSize pgID.toNat, ?_, UInt64.ofNat_toNat⟩
    rw [List.getElem?_map, List.getElem?_range' (by omega), hsub, Option.map_some,
      show 1 + 1 * (pgID.toNat - 1) = pgID.toNat by omega]

theorem mem_genPipelines {info : ClusterInfo} {pgNum groupSize : UInt64} {p : Pipeline}
    (hp : p ∈ genPipelines select info pgNum groupSize) :
    ∃ i, 1 ≤ i ∧ i ≤ pgNum.toNat ∧ p = genPipeline select info groupSize i ∧ p.pgId.toNat = i := by
  unfold genPipelines at hp
  split_ifs at hp
  · cases hp
  · obtain ⟨i, hi, rfl⟩ := List.mem_map.mp hp
    have hi' := List.mem_range'_1.mp hi
    have hlt : pgNum.toNat < UInt64.size := pgNum.toNat_lt
    exact ⟨i, hi'.1, by omega, rfl, UInt64.toNat_ofNat_of_lt (by omega)⟩

/-- Every pipeline stands at the index of its group. -/
theorem getElem?_pgId_of_mem {info : ClusterInfo} {pgNum groupSize : UInt64} {p : Pipeline}
    (hp : p ∈ genPipelines select info pgNum groupSize) :
    1 ≤ p.pgId.toNat ∧ p.pgId.toNat ≤ pgNum.toNat ∧
      (genPipelines select info pgNum groupSize)[(p.pgId - 1).toNat]? = some p := by
  obtain ⟨i, hpos, hle, hi, hnat⟩ := mem_genPipelines hp
  obtain ⟨q, hq, hid⟩ := getElem?_genPipelines (List.ne_nil_of_mem hp)
    (show 1 ≤ p.pgId.toNat by omega) (show p.pgId.toNat ≤ pgNum.toNat by omega)
  obtain ⟨j, -, -, hj, hnat'⟩ := mem_genPipelines (List.mem_of_getElem? hq)
  have hij : i = j := by rw [← hnat, ← hnat', hid]
  refine ⟨by omega, by omega, ?_⟩
  rw [hq, hj, hi, hij]

theorem nodup_pgId (info : ClusterInfo) (pgNum groupSize : UInt64) :
    ((genPipelines select info pgNum groupSize).map Pipeline.pgId).Nodup := by
  unfold genPipelines
  split_ifs
  · exact List.nodup_nil
  · have hid : ∀ i ∈ List.range' 1 pgNum.toNat, (UInt64.ofNat i).toNat = i := by
      intro i hi
      have hi' := List.mem_range'_1.mp hi
      have hlt : pgNum.toNat < UInt64.size := pgNum.toNat_lt
      exact UInt64.toNat_ofNat_of_lt (by omega)
    apply List.Nodup.of_map UInt64.toNat
    rw [List.map_map, List.map_map]
    change ((List.range' 1 pgNum.toNat).map fun i => (UInt64.ofNat i).toNat).Nodup
    rw [List.map_congr_left hid, List.map_id']
    exact List.nodup_range'

theorem clusterTerm_of_mem {info : ClusterInfo} {p : Pipeline}
    (hp : p ∈ genMetaPipelines select info) : p.clusterTerm = info.term := by
  obtain ⟨i, -, -, rfl, -⟩ := mem_genPipelines hp
  rfl

end Ecos.Alaya
