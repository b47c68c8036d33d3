import Ecos.Client.Filling

namespace Ecos.Client
open Go Std

variable {f : Factory} {w : EcosWriter} {bs : List Block} {cs : List LocalChunk}

theorem length_content (c : LocalChunk) : c.content.length = c.data.length - c.freeSize := by
  rw [LocalChunk.content, List.length_take]
  omega

theorem sum_content (cs : List LocalChunk) :
    (cs.map fun c => c.data.length - c.freeSize).sum =
      (cs.flatMap LocalChunk.content).length := by
  rw [List.length_flatMap]
  congr 1
  exact List.map_congr_left fun c _ => (length_content c).symm

/-- The info of block `i` once it is closed with `size` bytes in it. -/
def closedInfo (f : Factory) (i size : ℕ) : BlockInfo :=
  let info : BlockInfo := ⟨f.genBlockId i, 0, UInt64.ofNat size, [], 0⟩
  { info with pgId := f.genBlockPG info }

theorem close_blockOf (i : ℕ) (hcs : cs ≠ []) :
    (blockOf cs).close f i = .ok { blockOf cs with
      status := .UPLOADING, info := closedInfo f i (blockOf cs).bytes.length } := by
  have hsum := sum_content cs
  unfold Block.close Block.updateBlockInfo Block.genBlockHash
  simp only [blockOf, getNewBlock, hcs, if_false, ne_eq, not_true_eq_false, hsum]
  rfl

def uploadedBlock (f : Factory) (i : ℕ) (uploaded : Bool) (b : Block) : Block :=
  { b with
    info := closedInfo f i b.bytes.length
    status := if uploaded then .FINISHED else .FAILED
    chunks := [] }

theorem uploadBlock_eq {i : ℕ} {b : Block} (uploaded : Bool) (hb : IsFilled b)
    (hi : w.blocks[i]? = some b) :
    uploadBlock f w i uploaded = { w with
      sent := w.sent ++ [(f.genBlockId i, b.bytes)]
      released := w.released ++ b.chunks.map fun c => { c with freeSize := f.chunkSize }
      blocks := w.blocks.insert i (uploadedBlock f i uploaded b) } := by
  obtain ⟨cs, hcs, rfl⟩ := hb
  simp only [uploadBlock, hi, close_blockOf i hcs]
  rfl

theorem Numbered.set (h : Numbered w bs) {j : ℕ} (hj : j < bs.length) (b : Block) {w' : EcosWriter}
    (hb : w'.blocks = w.blocks.insert (j + 1) b) (hu : w'.uploads = w.uploads) :
    Numbered w' (bs.set j b) := by
  refine ⟨?_, ?_, ?_⟩
  · intro i
    rw [hb, ExtTreeMap.getElem?_insert, h.get]
    simp only [LawfulEqCmp.compare_eq_iff_eq]
    rcases i with _ | i
    · simp
    · simp only [Nat.add_right_cancel_iff, Nat.add_sub_cancel, Nat.succ_ne_zero, if_false]
      rw [List.getElem?_set]
      by_cases hi : j = i
      · subst hi
        simp [hj]
      · simp [hi]
  · have hmem : w.blocks.contains (j + 1) = true := by
      rw [← ExtTreeMap.mem_iff_contains, ExtTreeMap.mem_iff_isSome_getElem?, h.get]
      simp [hj]
    rw [hb, ExtTreeMap.size_insert, if_pos hmem, h.size, List.length_set]
  · rw [hu, h.uploads, List.length_set]

theorem mapM_getElem? {α : Type} {g : ℕ → Option α} {l : List α} {k : ℕ}
    (h : ∀ j, g (k + j) = l[j]?) : (List.range' k l.length).mapM g = some l := by
  induction l generalizing k with
  | nil => rfl
  | cons a l ih =>
    have hk : g k = some a := h 0
    have htail : (List.range' (k + 1) l.length).mapM g = some l :=
      ih fun j => by rw [show k + 1 + j = k + (j + 1) by omega, h]; rfl
    rw [List.length_cons, List.range'_succ, List.mapM_cons, hk, htail]
    rfl

theorem genMeta_of_numbered (h : Numbered w bs) :
    genMeta f w = some {
      objId := genObjectId f.ring f.bucketInfo w.key
      objSize := w.writeSize
      updateTime := f.now
      objHash := if f.bucketInfo.config.objectHashType ≠ .off
        then f.hexSum f.bucketInfo.config.objectHashType w.hashed else []
      pgId := genObjPgID f.ring f.bucketInfo w.key 10
      blocks := bs.map Block.info
      term := w.term } := by
  have hm : (List.range' 1 w.blocks.size).mapM (fun i => w.blocks[i]?.map Block.info) =
      some (bs.map Block.info) := by
    rw [h.size, ← List.length_map Block.info]
    apply mapM_getElem?
    intro j
    rw [h.get, if_neg (by omega), Nat.add_sub_cancel_left, List.getElem?_map]
  unfold genMeta
  rw [hm]
  rfl

/-- The completions that arrive are for distinct blocks, all waiting for their uploads. -/
def Awaited (bs : List Block) (completions : List (ℕ × Bool)) : Prop :=
  (completions.map Prod.fst).Nodup ∧
    ∀ e ∈ completions, ∃ j b, e.1 = j + 1 ∧ bs[j]? = some b ∧ IsFilled b

def chunksIn (bs : List Block) : ℕ := (bs.map fun b => b.chunks.length).sum

theorem chunksIn_set {j : ℕ} {b : Block} (hb : bs[j]? = some b) (b' : Block) :
    chunksIn (bs.set j b') + b.chunks.length = chunksIn bs + b'.chunks.length := by
  unfold chunksIn
  induction bs generalizing j with
  | nil => cases hb
  | cons x bs ih =>
    cases j with
    | zero =>
      cases hb
      simp only [List.set_cons_zero, List.map_cons, List.sum_cons]
      omega
    | succ j =>
      have hrest := ih (List.getElem?_cons_succ ▸ hb)
      simp only [List.set_cons_succ, List.map_cons, List.sum_cons]
      omega

/-- One completion: its block is uploaded, and the other completions are for other blocks. -/
theorem Awaited.uploadBlock (h : Numbered w bs) {i : ℕ} {uploaded : Bool}
    {completions : List (ℕ × Bool)} (ha : Awaited bs ((i, uploaded) :: completions)) :
    ∃ j b, i = j + 1 ∧ bs[j]? = some b ∧ IsFilled b ∧ w.blocks[i]? = some b ∧
      j + 1 ∉ completions.map Prod.fst ∧
      Numbered (uploadBlock f w i uploaded) (bs.set j (uploadedBlock f i uploaded b)) ∧
      Awaited (bs.set j (uploadedBlock f i uploaded b)) completions := by
  obtain ⟨hnodup, hfilled⟩ := ha
  rw [List.map_cons, List.nodup_cons] at hnodup
  obtain ⟨j, b, rfl, hbj, hb⟩ := hfilled (i, uploaded) List.mem_cons_self
  have hget : w.blocks[j + 1]? = some b := by rw [h.get]; simpa using hbj
  have hup := uploadBlock_eq (f := f) uploaded hb hget
  refine ⟨j, b, rfl, hbj, hb, hget, hnodup.1,
    h.set (List.getElem?_eq_some_iff.mp hbj).1 _ (by rw [hup]) (by rw [hup]), hnodup.2,
    fun e he => ?_⟩
  obtain ⟨k, b', hk, hbk, hb'⟩ := hfilled e (List.mem_cons_of_mem _ he)
  refine ⟨k, b', hk, ?_, hb'⟩
  rw [List.getElem?_set_ne, hbk]
  rintro rfl
  exact hnodup.1 (List.mem_map.mpr ⟨e, he, hk⟩)

/-- After these completions the blocks they are for are uploaded and have given their chunks back,
the others are untouched. -/
structure ReceivedAll (f : Factory) (w : EcosWriter) (bs : List Block)
    (completions : List (ℕ × Bool)) (w' : EcosWriter) (bs' : List Block) : Prop where
  numbered : Numbered w' bs'
  length : bs'.length = bs.length
  others : ∀ j, j + 1 ∉ completions.map Prod.fst → bs'[j]? = bs[j]?
  uploaded : ∀ e ∈ completions, ∀ j b, e.1 = j + 1 → bs[j]? = some b →
    bs'[j]? = some (uploadedBlock f e.1 e.2 b) ∧ (f.genBlockId e.1, b.bytes) ∈ w'.sent
  sent : ∀ x ∈ w.sent, x ∈ w'.sent
  released : w'.released.length + chunksIn bs' = w.released.length + chunksIn bs
  frame : w' = { w with blocks := w'.blocks, sent := w'.sent, released := w'.released }

theorem receiveFinished_spec (h : Numbered w bs) {completions : List (ℕ × Bool)}
    (ha : Awaited bs completions) :
    ∃ w' bs', receiveFinished f completions.length w completions = some w' ∧
      ReceivedAll f w bs completions w' bs' := by
  -- the completions are for distinct blocks, so an upload never sees a block twice
  induction completions generalizing w bs with
  | nil => exact ⟨w, bs, rfl, h, rfl, by simp, by simp, fun _ hx => hx, rfl, rfl⟩
  | cons e completions ih =>
    obtain ⟨i, uploaded⟩ := e
    obtain ⟨j, b, rfl, hbj, hb, hget, hnot, hnum, hawaited⟩ := ha.uploadBlock (f := f) h
    have hup := uploadBlock_eq (f := f) uploaded hb hget
    have hj : j < bs.length := (List.getElem?_eq_some_iff.mp hbj).1
    have hothers : ∀ k, k ≠ j →
        (bs.set j (uploadedBlock f (j + 1) uploaded b))[k]? = bs[k]? :=
      fun k hk => List.getElem?_set_ne (Ne.symm hk)
    obtain ⟨w', bs', hrecv, hall⟩ := ih hnum hawaited
    have hsent : ∀ x ∈ w.sent ++ [(f.genBlockId (j + 1), b.bytes)], x ∈ w'.sent := by
      intro x hx
      exact hall.sent x (by rw [hup]; exact hx)
    refine ⟨w', bs', hrecv, hall.numbered, by rw [hall.length, List.length_set], ?_, ?_,
      fun x hx => hsent x (List.mem_append_left _ hx), ?_, ?_⟩
    · intro k hk
      rw [List.map_cons, List.mem_cons, not_or] at hk
      rw [hall.others k hk.2]
      exact hothers k fun hkj => hk.1 (by rw [hkj])
    · intro e he k b' hk hbk
      rcases List.mem_cons.mp he with rfl | he'
      · have hkj : k = j := by simpa using hk.symm
        subst hkj
        rw [hbj, Option.some.injEq] at hbk
        subst hbk
        refine ⟨?_, hsent _ (List.mem_append_right _ (List.mem_singleton_self _))⟩
        rw [hall.others k hnot, List.getElem?_set_self hj]
      · refine hall.uploaded e he' k b' hk ?_
        rw [hothers k, hbk]
        rintro rfl
        exact hnot (List.mem_map.mpr ⟨e, he', hk⟩)
    · have hset := chunksIn_set hbj (uploadedBlock f (j + 1) uploaded b)
      have hrest := hall.released
      rw [hup] at hrest
      simp only [uploadedBlock, List.length_nil, List.length_append, List.length_map] at hset hrest
      omega
    · rw [hall.frame, hup]

/-- Exactly the uploads that were started complete, once each, in any order. -/
def Arrive (w : EcosWriter) (completions : List (ℕ × Bool)) : Prop :=
  (completions.map Prod.fst).Perm w.uploads

instance (w : EcosWriter) (completions : List (ℕ × Bool)) : Decidable (Arrive w completions) :=
  inferInstanceAs (Decidable ((completions.map Prod.fst).Perm w.uploads))

theorem Arrive.length (h : Numbered w bs) {completions : List (ℕ × Bool)}
    (ha : Arrive w completions) : completions.length = bs.length := by
  have hl := ha.length_eq
  rwa [List.length_map, h.uploads, List.length_range'] at hl

theorem Arrive.awaited (h : Committed f w bs []) {completions : List (ℕ × Bool)}
    (ha : Arrive w completions) : Awaited bs completions := by
  refine ⟨ha.nodup_iff.mpr (h.numbered.uploads ▸ List.nodup_range'), fun e he => ?_⟩
  have hmem : e.1 ∈ w.uploads := ha.subset (List.mem_map_of_mem he)
  rw [h.numbered.uploads, List.mem_range'_1] at hmem
  have hlt : e.1 - 1 < bs.length := by omega
  exact ⟨e.1 - 1, bs[e.1 - 1], by omega, List.getElem?_eq_getElem hlt,
    h.filled _ (List.getElem_mem hlt)⟩

theorem Arrive.exists_outcome (h : Numbered w bs) {completions : List (ℕ × Bool)}
    (ha : Arrive w completions) {j : ℕ} (hj : j < bs.length) : ∃ ok, (j + 1, ok) ∈ completions := by
  have hmem : j + 1 ∈ w.uploads := by
    rw [h.uploads, List.mem_range'_1]
    omega
  obtain ⟨⟨i, ok⟩, he, rfl⟩ := List.mem_map.mp (ha.symm.subset hmem)
  exact ⟨ok, he⟩

def listedInfos (f : Factory) (bs : List Block) : List BlockInfo :=
  bs.mapIdx fun j b => closedInfo f (j + 1) b.bytes.length

/-- What `Close` has once all completions are in: the meta lists the blocks in order, and all of
them have been sent. -/
structure Generated (f : Factory) (bs : List Block) (size : UInt64) (w' : EcosWriter)
    (m : ObjectMeta) : Prop where
  blocks : m.blocks = listedInfos f bs
  objSize : m.objSize = size
  sent : ∀ j b, bs[j]? = some b → (f.genBlockId (j + 1), b.bytes) ∈ w'.sent

theorem Committed.receiveAll (h : Committed f w bs []) {completions : List (ℕ × Bool)}
    (ha : Arrive w completions) :
    ∃ w' m, receiveFinished f w.blockCount w completions = some w' ∧ genMeta f w' = some m ∧
      Generated f bs w.writeSize w' m := by
  obtain ⟨w', bs', hrecv, hall⟩ := receiveFinished_spec (f := f) h.numbered (ha.awaited h)
  have hlen := hall.length
  have hsize : w'.writeSize = w.writeSize := by rw [hall.frame]
  have hcount : w.blockCount = completions.length := by
    rw [h.blockCount, if_pos rfl, ha.length h.numbered]
    rfl
  have hinfos : bs'.map Block.info = listedInfos f bs := by
    apply List.ext_getElem?
    intro j
    rw [List.getElem?_map, listedInfos, List.getElem?_mapIdx]
    by_cases hj : j < bs.length
    · obtain ⟨ok, he⟩ := ha.exists_outcome h.numbered hj
      rw [(hall.uploaded _ he j _ rfl (List.getElem?_eq_getElem hj)).1,
        List.getElem?_eq_getElem hj]
      rfl
    · rw [List.getElem?_eq_none (by omega), List.getElem?_eq_none (by omega)]
      rfl
  refine ⟨w', _, hcount ▸ hrecv, genMeta_of_numbered hall.numbered, hinfos, hsize, ?_⟩
  intro j b hb
  obtain ⟨ok, he⟩ := ha.exists_outcome h.numbered (List.getElem?_eq_some_iff.mp hb).1
  exact (hall.uploaded _ he j b rfl hb).2

/-- The current chunk and the current block become the last block. -/
theorem Committed.committedAll (h : Committed f w bs cs) :
    Committed f (committedAll f w) (bs ++ if cs ++ w.curChunk.toList = [] then []
      else [blockOf (cs ++ w.curChunk.toList)]) [] := by
  unfold Client.committedAll
  cases hc : w.curChunk with
  | none =>
    have hnone : Client.commitCurChunk f w = w := by simp only [Client.commitCurChunk, hc]
    rw [hnone, Option.toList_none, List.append_nil]
    exact h.commitCurBlock.frame rfl rfl rfl rfl
  | some c =>
    have hne : cs ++ [c] ≠ [] := by simp
    have hall := (h.commitCurChunk hc).commitCurBlock
    rw [Option.toList_some, if_neg hne]
    by_cases hfull : cs.length + 1 = f.perBlock
    · rw [if_pos hfull, if_pos hfull, if_pos rfl, List.append_nil] at hall
      exact hall.frame rfl rfl rfl rfl
    · rw [if_neg hfull, if_neg hfull, if_neg hne, List.append_nil] at hall
      exact hall.frame rfl rfl rfl rfl

theorem Committed.writeSize_committedAll (h : Committed f w bs cs) :
    (Client.committedAll f w).writeSize = w.writeSize :=
  (h.sameObject_commitCurChunk.trans (sameObject_commitCurBlock _)).writeSize

/-- What `Close` returns once the completions are in, for every behaviour of `SubmitMeta`. -/
theorem close_eq (hstatus : w.status = .READING) (h : Committed f (committedAll f w) bs [])
    {completions : List (ℕ × Bool)} (ha : Arrive (committedAll f w) completions) :
    ∃ w' m, Generated f bs (committedAll f w).writeSize w' m ∧
      ∀ replies, close f w completions replies = (uploadMeta replies).map fun r =>
        ⟨if r.1 = none then { w' with status := .FINISHED } else w', r.1, List.replicate r.2 m⟩ := by
  obtain ⟨w', m, hrecv, hgen, hm⟩ := h.receiveAll ha
  refine ⟨w', m, hm, ?_⟩
  intro replies
  rw [close, if_neg (by rw [hstatus]; simp)]
  simp only [hrecv, Option.bind_eq_bind, Option.bind_some, hgen]
  cases uploadMeta replies with
  | none => rfl
  | some r =>
    obtain ⟨err, n⟩ := r
    cases err <;> rfl

end Ecos.Client
