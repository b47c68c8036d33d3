import Ecos.Rainbow.Framing

namespace Ecos.Rainbow
open Go Moon Gaia

def chunkResponse (request : Request) (chunk : Bytes) : Response :=
  { Outpost.returnOK request with chunk := chunk }

def lastResponse (request : Request) : Response :=
  { Outpost.returnOK request with isLast := true }

/-- All chunks of the block in order and the end, or some of them and one failure. -/
def CleanStream (request : Request) (block : List Bytes) (sent : List Response) : Prop :=
  sent = block.map (chunkResponse request) ++ [lastResponse request] ∨
    ∃ n e, sent = (block.take n).map (chunkResponse request) ++ [Outpost.returnFail request e]

theorem returnFail_ne_chunkResponse (request : Request) (e : Errno) (chunk : Bytes) :
    Outpost.returnFail request e ≠ chunkResponse request chunk := by
  intro h
  have hresult := congrArg Response.result h
  simp [Outpost.returnFail, chunkResponse, Outpost.returnOK] at hresult

/-- Nothing follows a failure in a clean stream. -/
theorem CleanStream.eq_nil {request : Request} {block : List Bytes} {front back : List Response}
    {e : Errno} (h : CleanStream request block (front ++ Outpost.returnFail request e :: back)) :
    back = [] := by
  have hinit : ∀ (chunks : List Bytes) (last : Response),
      front ++ Outpost.returnFail request e :: back = chunks.map (chunkResponse request) ++ [last] →
        back = [] := by
    intro chunks last heq
    rcases List.eq_nil_or_concat back with hnil | ⟨back, x, rfl⟩
    · exact hnil
    · have hmem : Outpost.returnFail request e ∈ chunks.map (chunkResponse request) := by
        rw [List.concat_eq_append, ← List.cons_append, ← List.append_assoc] at heq
        rw [← (List.append_inj' heq rfl).1]
        simp
      obtain ⟨chunk, -, hchunk⟩ := List.mem_map.1 hmem
      exact absurd hchunk.symm (returnFail_ne_chunkResponse request e chunk)
  rcases h with h | ⟨n, e', h⟩
  · exact hinit _ _ h
  · exact hinit _ _ h

namespace Outpost
variable (o : Outpost) (request : Request)

/-- Every node that answers has the block: it delivers these chunks, or fails after some of
them. -/
def Replicates (block : List Bytes) : Prop :=
  ∀ nodeInfo stream, o.getBlockData nodeInfo request.requestId request.term = .ok stream →
    stream.chunks <+: block ∧ (stream.err = none → stream.chunks = block)

def FailsMidway (nodeID : UInt64) : Prop :=
  ∃ nodeInfo stream, o.getNodeInfo nodeID = .ok nodeInfo ∧
    o.getRpcConnByNodeInfo nodeInfo = none ∧
    o.getBlockData nodeInfo request.requestId request.term = .ok stream ∧ stream.err ≠ none ∧
    stream.chunks ≠ []

def Tries (nodeIds : List UInt64) : Prop :=
  ∃ clusterInfo, o.getClusterInfoByTerm request.term = .ok clusterInfo ∧
    o.blockNodes clusterInfo request.requestId = .ok nodeIds

/-- A node that fails midway is not reached: one before it delivers the block. -/
def Shielded (nodeIds : List UInt64) : Prop :=
  ∀ front nodeID back, nodeIds = front ++ nodeID :: back → o.FailsMidway request nodeID →
    ∃ x ∈ front, o.Delivers request x

variable {o request} {block : List Bytes} {nodeID : UInt64} {nodeIds : List UInt64}

/-- A node delivers the block, fails midway, or sends nothing. -/
theorem fetchBlock_cases (hblock : o.Replicates request block) (nodeID : UInt64) :
    (o.Delivers request nodeID ∧ ¬o.FailsMidway request nodeID ∧ o.fetchBlock request nodeID =
        (block.map (chunkResponse request) ++ [lastResponse request], true)) ∨
      (¬o.Delivers request nodeID ∧ o.FailsMidway request nodeID ∧ ∃ n e,
        o.fetchBlock request nodeID =
          ((block.take n).map (chunkResponse request) ++ [returnFail request e], false)) ∨
      (¬o.Delivers request nodeID ∧ ¬o.FailsMidway request nodeID ∧
        o.fetchBlock request nodeID = ([], false)) := by
  unfold fetchBlock Delivers FailsMidway
  cases hinfo : o.getNodeInfo nodeID with
  | error e => simp
  | ok nodeInfo =>
    cases hconn : o.getRpcConnByNodeInfo nodeInfo with
    | some e => simp [hconn]
    | none =>
      cases hdata : o.getBlockData nodeInfo request.requestId request.term with
      | error e => simp [hconn, hdata]
      | ok stream =>
        obtain ⟨hbegins, hall⟩ := hblock nodeInfo stream hdata
        cases hend : stream.err with
        | none =>
          rw [← hall hend]
          simp [hconn, hdata, hend, chunkResponse, lastResponse]
        | some e =>
          by_cases hnil : stream.chunks = []
          · simp [hconn, hdata, hend, hnil]
          · refine .inr (.inl ⟨by simp [hdata, hend], ?_, stream.chunks.length, e, ?_⟩)
            · exact ⟨nodeInfo, stream, rfl, hconn, hdata, by simp [hend], hnil⟩
            · rw [← List.prefix_iff_eq_take.1 hbegins]
              simp only [hconn, hdata, hend, hnil, if_false]
              rfl

theorem shielded_cons (hdelivers : ¬o.Delivers request nodeID) :
    o.Shielded request (nodeID :: nodeIds) ↔
      ¬o.FailsMidway request nodeID ∧ o.Shielded request nodeIds := by
  constructor
  · intro h
    refine ⟨fun hmidway => ?_, fun front x back hsplit hmidway => ?_⟩
    · obtain ⟨x, hx, -⟩ := h [] nodeID nodeIds rfl hmidway
      cases hx
    · obtain ⟨y, hy, hdel⟩ := h (nodeID :: front) x back (by rw [hsplit]; rfl) hmidway
      rcases List.mem_cons.1 hy with rfl | hy
      · exact absurd hdel hdelivers
      · exact ⟨y, hy, hdel⟩
  · rintro ⟨hsilent, h⟩ front x back hsplit hmidway
    cases front with
    | nil =>
      cases hsplit
      exact absurd hmidway hsilent
    | cons y front =>
      cases hsplit
      obtain ⟨z, hz, hdel⟩ := h front x back rfl hmidway
      exact ⟨z, List.mem_cons_of_mem _ hz, hdel⟩

theorem shielded_of_delivers (hdelivers : o.Delivers request nodeID)
    (hmidway : ¬o.FailsMidway request nodeID) : o.Shielded request (nodeID :: nodeIds) := by
  intro front x back hsplit hx
  cases front with
  | nil =>
    cases hsplit
    exact absurd hx hmidway
  | cons y front =>
    cases hsplit
    exact ⟨nodeID, List.mem_cons_self, hdelivers⟩

/-- The handler always sends something for the nodes that are left. -/
theorem fetchBlocks_ne_nil (hblock : o.Replicates request block) (nodeIds : List UInt64) :
    o.fetchBlocks request nodeIds ≠ [] := by
  induction nodeIds with
  | nil => simp [fetchBlocks]
  | cons nodeID nodeIds ih =>
    rw [fetchBlocks]
    rcases fetchBlock_cases hblock nodeID with ⟨-, -, h⟩ | ⟨-, -, n, e, h⟩ | ⟨-, -, h⟩ <;>
      simp [h, ih]

theorem fetchBlocks_clean_iff (hblock : o.Replicates request block) (nodeIds : List UInt64) :
    CleanStream request block (o.fetchBlocks request nodeIds) ↔ o.Shielded request nodeIds := by
  induction nodeIds with
  | nil =>
    refine iff_of_true (.inr ⟨0, _, by simp [fetchBlocks]; rfl⟩) ?_
    intro front x back hsplit
    simp at hsplit
  | cons nodeID nodeIds ih =>
    rw [fetchBlocks]
    rcases fetchBlock_cases hblock nodeID with
      ⟨hdel, hmidway, h⟩ | ⟨hdel, hmidway, n, e, h⟩ | ⟨hdel, hsilent, h⟩
    · rw [h]
      exact iff_of_true (.inl rfl) (shielded_of_delivers hdel hmidway)
    · rw [h, shielded_cons hdel]
      refine iff_of_false (fun hclean => ?_) (fun hshielded => hshielded.1 hmidway)
      dsimp only at hclean
      rw [List.append_assoc] at hclean
      exact fetchBlocks_ne_nil hblock nodeIds hclean.eq_nil
    · rw [h, shielded_cons hdel]
      simp only [hsilent, not_false_eq_true, true_and]
      exact ih

/-- The responses to a block request are one clean stream exactly when no node that fails midway is
reached. -/
theorem doBlockRequest_clean_iff (o : Outpost) (request : Request) (block : List Bytes)
    (hget : request.method = .GET) (hblock : o.Replicates request block) :
    CleanStream request block (o.doBlockRequest request) ↔
      ∀ nodeIds, o.Tries request nodeIds → o.Shielded request nodeIds := by
  have hfail : ∀ e, CleanStream request block [returnFail request e] := fun e =>
    .inr ⟨0, e, rfl⟩
  simp only [doBlockRequest, hget, Tries]
  cases hinfo : o.getClusterInfoByTerm request.term with
  | error e => exact iff_of_true (hfail e) (by simp)
  | ok clusterInfo =>
    cases hnodes : o.blockNodes clusterInfo request.requestId with
    | error e => exact iff_of_true (by simpa [hnodes] using hfail e) (by simp [hnodes])
    | ok nodeIds => simpa [hnodes] using fetchBlocks_clean_iff hblock nodeIds

/-- Two replicas of a block of two chunks: the first fails after one chunk, the second delivers
it. -/
def twoReplicas (nodeIds : List UInt64) : Outpost where
  getClient := false
  listObjects _ _ := .error (.other "")
  getBucket _ := false
  getObject _ _ := .error .metaNotExist
  getInfoDirect _ _ := .error .infoNotFound
  getCurrentClusterInfo := ⟨1, none, [], 0, 0, 0, 0, 0⟩
  metaServer _ _ := none
  getRpcConnByNodeInfo _ := none
  recordObjectMeta _ _ := none
  getClusterInfoByTerm _ := .ok ⟨1, none, [], 0, 0, 0, 0, 0⟩
  blockNodes _ _ := .ok nodeIds
  getNodeInfo id := .ok ⟨id, [], [], 0, 0, .ONLINE⟩
  getBlockData nodeInfo _ _ :=
    .ok (if nodeInfo.raftId = 1 then ⟨[[1]], some (.other "reset")⟩ else ⟨[[1], [2]], none⟩)

def blockRequest : Request := { requestSeq := 7, method := .GET, resource := .BLOCK }

theorem replicates_twoReplicas (nodeIds : List UInt64) :
    (twoReplicas nodeIds).Replicates blockRequest [[1], [2]] := by
  intro nodeInfo stream h
  obtain rfl := Except.ok.inj h
  split_ifs
  · exact ⟨⟨[[2]], rfl⟩, fun h => (by cases h)⟩
  · exact ⟨List.prefix_rfl, fun _ => rfl⟩

theorem doBlockRequest_clean_of_first_delivers :
    CleanStream blockRequest [[1], [2]] ((twoReplicas [2, 1]).doBlockRequest blockRequest) := by
  rw [doBlockRequest_clean_iff (twoReplicas [2, 1]) blockRequest [[1], [2]] rfl
    (replicates_twoReplicas _)]
  rintro nodeIds ⟨clusterInfo, -, hnodes⟩
  obtain rfl := Except.ok.inj hnodes
  apply shielded_of_delivers
  · exact ⟨_, _, rfl, rfl, rfl, rfl⟩
  · rintro ⟨nodeInfo, stream, hinfo, -, hdata, herr, -⟩
    obtain rfl := Except.ok.inj hinfo
    obtain rfl := Except.ok.inj hdata
    exact herr rfl

/-- A replica that fails midway is followed by all chunks of the next one, or by another failure
where there is none. -/
theorem failed_stream_continued :
    (twoReplicas [1, 2]).doBlockRequest blockRequest =
        [chunkResponse blockRequest [1], returnFail blockRequest (.other "reset"),
          chunkResponse blockRequest [1], chunkResponse blockRequest [2],
          lastResponse blockRequest] ∧
      ¬CleanStream blockRequest [[1], [2]] ((twoReplicas [1, 2]).doBlockRequest blockRequest) ∧
      (twoReplicas [1]).doBlockRequest blockRequest =
        [chunkResponse blockRequest [1], returnFail blockRequest (.other "reset"),
          returnFail blockRequest (.other "no available node")] ∧
      ¬CleanStream blockRequest [[1], [2]] ((twoReplicas [1]).doBlockRequest blockRequest) := by
  have hboth : (twoReplicas [1, 2]).doBlockRequest blockRequest =
      [chunkResponse blockRequest [1]] ++ returnFail blockRequest (.other "reset") ::
        [chunkResponse blockRequest [1], chunkResponse blockRequest [2],
          lastResponse blockRequest] := by decide +kernel
  have hone : (twoReplicas [1]).doBlockRequest blockRequest =
      [chunkResponse blockRequest [1]] ++ returnFail blockRequest (.other "reset") ::
        [returnFail blockRequest (.other "no available node")] := by decide +kernel
  rw [hboth, hone]
  exact ⟨rfl, fun h => absurd h.eq_nil (by simp), rfl, fun h => absurd h.eq_nil (by simp)⟩

end Outpost

end Ecos.Rainbow
