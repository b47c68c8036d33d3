import Ecos.Client.Upload

namespace Ecos.Client
open Go Std

/-- The map of a writer as a list: block `i` of the list has number `i + 1`. -/
structure Numbered (w : EcosWriter) (bs : List Block) : Prop where
  get : ∀ i, w.blocks[i]? = if i = 0 then none else bs[i - 1]?
  size : w.blocks.size = bs.length
  uploads : w.uploads = List.range' 1 bs.length

def blockOf (cs : List LocalChunk) : Block := { getNewBlock with chunks := cs }

def IsFilled (b : Block) : Prop := ∃ cs, cs ≠ [] ∧ b = blockOf cs

/-- What a writer has committed: the blocks `bs`, and the chunks `cs` of the current block. -/
structure Committed (f : Factory) (w : EcosWriter) (bs : List Block) (cs : List LocalChunk) :
    Prop where
  numbered : Numbered w bs
  filled : ∀ b ∈ bs, IsFilled b
  curBlock : w.curBlock = if cs = [] then none else some (blockOf cs)
  blockCount : w.blockCount = bs.length + if cs = [] then 0 else 1
  not_full : cs ≠ [] → cs.length ≠ f.perBlock

variable {f : Factory} {w : EcosWriter} {bs : List Block} {cs : List LocalChunk}

theorem Numbered.insert (h : Numbered w bs) (b : Block) {w' : EcosWriter}
    (hb : w'.blocks = w.blocks.insert (bs.length + 1) b)
    (hu : w'.uploads = w.uploads ++ [bs.length + 1]) : Numbered w' (bs ++ [b]) := by
  refine ⟨?_, ?_, ?_⟩
  · intro i
    rw [hb, ExtTreeMap.getElem?_insert, h.get]
    simp only [LawfulEqCmp.compare_eq_iff_eq]
    rcases i with _ | i
    · simp
    · simp only [Nat.add_right_cancel_iff, Nat.add_sub_cancel, Nat.succ_ne_zero, if_false]
      rw [List.getElem?_append, List.getElem?_singleton]
      by_cases hi : bs.length = i
      · simp [hi]
      · by_cases hlt : i < bs.length
        · simp [hi, hlt]
        · simp [hi, hlt]
          omega
  · have hnot : ¬ w.blocks.contains (bs.length + 1) = true := by
      rw [← ExtTreeMap.mem_iff_contains, ExtTreeMap.mem_iff_isSome_getElem?, h.get]
      simp
    rw [hb, ExtTreeMap.size_insert, if_neg hnot, h.size, List.length_append]
    rfl
  · rw [hu, h.uploads, List.length_append, List.length_singleton, List.range'_concat]
    simp [add_comm]

theorem Committed.filled_concat (h : Committed f w bs cs) {cs' : List LocalChunk} (hcs : cs' ≠ []) :
    ∀ b ∈ bs ++ [blockOf cs'], IsFilled b := by
  intro b hb
  rcases List.mem_append.mp hb with hb | hb
  · exact h.filled b hb
  · exact ⟨cs', hcs, List.mem_singleton.mp hb⟩

/-- Either no block is open, or the open one holds the chunks and is counted. -/
theorem Committed.curBlock_cases (h : Committed f w bs cs) :
    (cs = [] ∧ w.curBlock = none ∧ w.blockCount = bs.length) ∨
      (cs ≠ [] ∧ w.curBlock = some (blockOf cs) ∧ w.blockCount = bs.length + 1) := by
  have hc := h.curBlock
  have hn := h.blockCount
  by_cases hcs : cs = []
  · rw [if_pos hcs] at hc hn
    exact .inl ⟨hcs, hc, hn⟩
  · rw [if_neg hcs] at hc hn
    exact .inr ⟨hcs, hc, hn⟩

theorem Committed.commitCurBlock (h : Committed f w bs cs) :
    Committed f (commitCurBlock w) (bs ++ if cs = [] then [] else [blockOf cs]) [] := by
  rcases h.curBlock_cases with ⟨hcs, hc, hn⟩ | ⟨hcs, hc, hn⟩
  · simp only [Client.commitCurBlock, hc, if_pos hcs, List.append_nil]
    exact ⟨⟨h.numbered.get, h.numbered.size, h.numbered.uploads⟩, h.filled, rfl, hn,
      fun h => absurd rfl h⟩
  · simp only [Client.commitCurBlock, hc, if_neg hcs]
    refine ⟨h.numbered.insert (blockOf cs) ?_ ?_, h.filled_concat hcs, rfl, ?_,
      fun h => absurd rfl h⟩
    · simp only [hn]
    · simp only [hn]
    · simp [hn]

/-- The block that a chunk goes into. The writer is given up to its `curBlock`, which the
caller replaces. -/
theorem getCurBlock_of_committed (h : Committed f w bs cs) :
    ∃ w', getCurBlock f w = (w', blockOf cs) ∧ ∀ b : Option Block,
      { w' with curBlock := b } = { w with blockCount := bs.length + 1, curBlock := b } := by
  rcases h.curBlock_cases with ⟨hcs, hc, hn⟩ | ⟨hcs, hc, hn⟩
  · refine ⟨{ w with blockCount := w.blockCount + 1, curBlock := some getNewBlock }, ?_, ?_⟩
    · simp only [getCurBlock, hc, hcs]
      rfl
    · simp [hn]
  · have hlen : (blockOf cs).chunks.length ≠ f.perBlock := h.not_full hcs
    refine ⟨w, ?_, by simp [← hn]⟩
    simp only [getCurBlock, hc, if_neg hlen]

theorem commitCurChunk_full (h : Committed f w bs cs) {c : LocalChunk} (hc : w.curChunk = some c)
    (hfull : cs.length + 1 = f.perBlock) :
    commitCurChunk f w = { w with
      curChunk := none
      reserveChunks := []
      blocks := w.blocks.insert (bs.length + 1) (blockOf (cs ++ [c]))
      curBlock := none
      blockCount := bs.length + 1
      released := w.released ++ w.reserveChunks
      uploads := w.uploads ++ [bs.length + 1] } := by
  obtain ⟨w', hget, hw'⟩ := getCurBlock_of_committed h
  have hlen : (cs ++ [c]).length = f.perBlock := by rw [List.length_append, ← hfull]; rfl
  simp only [commitCurChunk, hc, hget, blockOf, hlen, if_true, hw']
  rfl

theorem commitCurChunk_not_full (h : Committed f w bs cs) {c : LocalChunk}
    (hc : w.curChunk = some c) (hfull : cs.length + 1 ≠ f.perBlock) :
    commitCurChunk f w = { w with
      curChunk := none
      curBlock := some (blockOf (cs ++ [c]))
      blockCount := bs.length + 1 } := by
  obtain ⟨w', hget, hw'⟩ := getCurBlock_of_committed h
  have hlen : ¬ (cs ++ [c]).length = f.perBlock := by rwa [List.length_append]
  simp only [commitCurChunk, hc, hget, blockOf, if_neg hlen, hw']

/-- Committing a chunk adds it to the current block, and commits the block when it is full. -/
theorem Committed.commitCurChunk (h : Committed f w bs cs) {c : LocalChunk}
    (hc : w.curChunk = some c) :
    Committed f (commitCurChunk f w)
      (bs ++ if cs.length + 1 = f.perBlock then [blockOf (cs ++ [c])] else [])
      (if cs.length + 1 = f.perBlock then [] else cs ++ [c]) := by
  by_cases hfull : cs.length + 1 = f.perBlock
  · rw [commitCurChunk_full h hc hfull, if_pos hfull, if_pos hfull]
    exact ⟨h.numbered.insert (blockOf (cs ++ [c])) rfl rfl, h.filled_concat (by simp), rfl, by simp,
      fun h => absurd rfl h⟩
  · rw [commitCurChunk_not_full h hc hfull, if_neg hfull, if_neg hfull, List.append_nil]
    have hne : cs ++ [c] ≠ [] := by simp
    refine ⟨⟨h.numbered.get, h.numbered.size, h.numbered.uploads⟩, h.filled, ?_, ?_, ?_⟩
    · rw [if_neg hne]
    · rw [if_neg hne]
    · intro _
      rwa [List.length_append]

theorem Committed.frame (h : Committed f w bs cs) {w' : EcosWriter} (hb : w'.blocks = w.blocks)
    (hu : w'.uploads = w.uploads) (hc : w'.curBlock = w.curBlock)
    (hn : w'.blockCount = w.blockCount) : Committed f w' bs cs :=
  ⟨⟨hb ▸ h.numbered.get, hb ▸ h.numbered.size, hu ▸ h.numbered.uploads⟩, h.filled, hc ▸ h.curBlock,
    hn ▸ h.blockCount, h.not_full⟩

theorem committed_new (key : Bytes) (term : UInt64) :
    Committed f { key := key, term := term } [] [] := by
  refine ⟨⟨?_, ?_, rfl⟩, by simp, rfl, rfl, fun h => absurd rfl h⟩
  · intro i
    rw [List.getElem?_nil, ite_self]
    exact ExtTreeMap.getElem?_empty
  · exact ExtTreeMap.size_empty

structure SameObject (w w' : EcosWriter) : Prop where
  key : w'.key = w.key
  term : w'.term = w.term
  status : w'.status = w.status
  partObject : w'.partObject = w.partObject
  writeSize : w'.writeSize = w.writeSize
  hashed : w'.hashed = w.hashed
  sent : w'.sent = w.sent

theorem SameObject.refl (w : EcosWriter) : SameObject w w := ⟨rfl, rfl, rfl, rfl, rfl, rfl, rfl⟩

theorem SameObject.trans {w₁ w₂ w₃ : EcosWriter} (h : SameObject w₁ w₂) (h' : SameObject w₂ w₃) :
    SameObject w₁ w₃ :=
  ⟨h'.key.trans h.key, h'.term.trans h.term, h'.status.trans h.status,
    h'.partObject.trans h.partObject, h'.writeSize.trans h.writeSize, h'.hashed.trans h.hashed,
    h'.sent.trans h.sent⟩

theorem sameObject_commitCurBlock (w : EcosWriter) : SameObject w (commitCurBlock w) := by
  unfold commitCurBlock
  dsimp only
  split <;> exact ⟨rfl, rfl, rfl, rfl, rfl, rfl, rfl⟩

theorem Committed.sameObject_commitCurChunk (h : Committed f w bs cs) :
    SameObject w (Client.commitCurChunk f w) := by
  cases hc : w.curChunk with
  | none =>
    simp only [Client.commitCurChunk, hc]
    exact SameObject.refl w
  | some c =>
    by_cases hfull : cs.length + 1 = f.perBlock
    · rw [commitCurChunk_full h hc hfull]
      exact ⟨rfl, rfl, rfl, rfl, rfl, rfl, rfl⟩
    · rw [commitCurChunk_not_full h hc hfull]
      exact ⟨rfl, rfl, rfl, rfl, rfl, rfl, rfl⟩

end Ecos.Client
