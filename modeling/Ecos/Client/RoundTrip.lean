import Ecos.Client.Closing
import Ecos.Client.ReadStream

namespace Ecos.Client
open Go Std

variable {f : Factory} {w : EcosWriter} {bs : List Block} {cs : List LocalChunk} {total : Bytes}

/-- The blocks hold `total`, all of them full but the last. -/
structure Split (f : Factory) (bs : List Block) (total : Bytes) : Prop where
  content : bs.flatMap Block.bytes = total
  nonempty : ∀ b ∈ bs, b.bytes ≠ []
  size_le : ∀ b ∈ bs, b.bytes.length ≤ f.perBlock * f.chunkSize
  full : ∀ b ∈ bs.dropLast, b.bytes.length = f.perBlock * f.chunkSize

theorem length_content_of_full (h : ∀ c ∈ cs, IsFull f c) :
    (cs.flatMap LocalChunk.content).length = cs.length * f.chunkSize := by
  have hall : ∀ n ∈ cs.map fun c => c.content.length, n = f.chunkSize := by
    intro n hn
    obtain ⟨c, hc, rfl⟩ := List.mem_map.mp hn
    rw [length_content, (h c hc).1, (h c hc).2, Nat.sub_zero]
  rw [List.length_flatMap, List.sum_eq_card_nsmul _ _ hall, List.length_map, smul_eq_mul]

theorem length_content_le (h : ∀ c ∈ cs, c.data.length = f.chunkSize) :
    (cs.flatMap LocalChunk.content).length ≤ cs.length * f.chunkSize := by
  have hall : ∀ n ∈ cs.map fun c => c.content.length, n ≤ f.chunkSize := by
    intro n hn
    obtain ⟨c, hc, rfl⟩ := List.mem_map.mp hn
    rw [length_content, h c hc]
    omega
  rw [List.length_flatMap, ← List.length_map fun c : LocalChunk => c.content.length, ← smul_eq_mul]
  exact List.sum_le_card_nsmul _ _ hall

/-- The chunks that `Close` makes the last block of. -/
theorem Filling.last_chunks (hf : PoolOk f) (h : Filling f w bs cs total) :
    (∀ c ∈ cs ++ w.curChunk.toList, c.data.length = f.chunkSize ∧ c.content ≠ []) ∧
      (cs ++ w.curChunk.toList).length ≤ f.perBlock := by
  have hC := hf.chunkSize_pos
  have hne : ∀ c : LocalChunk, c.data.length = f.chunkSize → c.freeSize < f.chunkSize →
      c.data.length = f.chunkSize ∧ c.content ≠ [] := by
    intro c hlen hfree
    refine ⟨hlen, List.ne_nil_of_length_pos ?_⟩
    rw [length_content]
    omega
  constructor
  · intro c hc
    rcases List.mem_append.mp hc with hc | hc
    · obtain ⟨hlen, hfree⟩ := h.fullChunks c hc
      exact hne c hlen (by omega)
    · obtain ⟨hlen, -, hfree⟩ := h.curChunk c (Option.mem_toList.mp hc)
      exact hne c hlen hfree
  · have hbelow := h.below
    rw [List.length_append, Option.length_toList]
    split <;> omega

theorem Filling.committedAll (hf : PoolOk f) (h : Filling f w bs cs total) :
    ∃ bs', Committed f (committedAll f w) bs' [] ∧ Split f bs' total := by
  obtain ⟨hlast, hcount⟩ := h.last_chunks hf
  have hK := hf.perBlock_pos
  have hC := hf.chunkSize_pos
  have hcontent := h.content
  rw [List.append_assoc, ← List.flatMap_append] at hcontent
  have hblocks : ∀ b ∈ bs, b.bytes.length = f.perBlock * f.chunkSize := by
    intro b hb
    obtain ⟨cs', rfl, hlen, hfull⟩ := h.fullBlocks b hb
    rw [bytes_blockOf, length_content_of_full hfull, hlen]
  have hpos : 0 < f.perBlock * f.chunkSize := Nat.mul_pos hK hC
  have hne : ∀ b ∈ bs, b.bytes ≠ [] := by
    intro b hb
    apply List.ne_nil_of_length_pos
    rwa [hblocks b hb]
  refine ⟨_, h.committed.committedAll, ?_⟩
  -- only the block that `Close` itself commits can be shorter than the others
  generalize cs ++ w.curChunk.toList = last at *
  by_cases hnil : last = []
  · subst hnil
    rw [if_pos rfl, List.append_nil]
    exact ⟨by simpa using hcontent, hne, fun b hb => (hblocks b hb).le,
      fun b hb => hblocks b (List.mem_of_mem_dropLast hb)⟩
  · rw [if_neg hnil]
    refine ⟨?_, ?_, ?_, ?_⟩
    · rw [List.flatMap_append, List.flatMap_singleton, bytes_blockOf, hcontent]
    · intro b hb
      rcases List.mem_append.mp hb with hb | hb
      · exact hne b hb
      · rw [List.mem_singleton.mp hb, bytes_blockOf]
        obtain ⟨c, rest, rfl⟩ := List.exists_cons_of_ne_nil hnil
        rw [List.flatMap_cons]
        exact List.append_ne_nil_of_left_ne_nil (hlast c List.mem_cons_self).2 _
    · intro b hb
      rcases List.mem_append.mp hb with hb | hb
      · exact (hblocks b hb).le
      · rw [List.mem_singleton.mp hb, bytes_blockOf]
        exact (length_content_le fun c hc => (hlast c hc).1).trans
          (Nat.mul_le_mul_right f.chunkSize hcount)
    · rw [List.dropLast_concat]
      exact hblocks

theorem perBlock_mul_chunkSize_lt (f : Factory) : f.perBlock * f.chunkSize < 2 ^ 64 :=
  (Nat.div_mul_le_self _ _).trans_lt (UInt64.toNat_lt _)

theorem Split.toNat_blockSize (h : Split f bs total) {b : Block} (hb : b ∈ bs) (i : ℕ) :
    (closedInfo f i b.bytes.length).blockSize.toNat = b.bytes.length :=
  UInt64.toNat_ofNat_of_lt' ((h.size_le b hb).trans_lt (perBlock_mul_chunkSize_lt f))

/-- A store that returns the bytes sent serves the blocks that the meta lists. -/
theorem Split.describes (h : Split f bs total) {size : UInt64} {w' : EcosWriter} {m : ObjectMeta}
    (hm : Generated f bs size w' m) {fetch : Bytes → Option Bytes}
    (hfetch : ∀ e ∈ w'.sent, fetch e.1 = some e.2) :
    Describes fetch m.blocks (bs.map Block.bytes) := by
  rw [hm.blocks]
  apply List.forall₂_iff_get.mpr
  refine ⟨by simp [listedInfos], fun j h₁ h₂ => ?_⟩
  have hj : j < bs.length := by simpa using h₂
  have hmem : bs[j] ∈ bs := List.getElem_mem hj
  simp only [listedInfos, List.get_eq_getElem, List.getElem_mapIdx, List.getElem_map]
  exact ⟨h.toNat_blockSize hmem _, hfetch _ (hm.sent j _ (List.getElem?_eq_getElem hj))⟩

theorem Split.sizes (h : Split f bs total) :
    (listedInfos f bs).map (fun b => b.blockSize.toNat) = bs.map fun b => b.bytes.length := by
  apply List.ext_getElem (by simp [listedInfos])
  intro j h₁ h₂
  simp only [listedInfos, List.getElem_map, List.getElem_mapIdx]
  exact h.toNat_blockSize (List.getElem_mem _) _

theorem Split.sum_sizes (h : Split f bs total) :
    ((listedInfos f bs).map fun b => b.blockSize.toNat).sum = total.length := by
  rw [h.sizes, ← h.content, List.length_flatMap]

theorem Split.full_sizes (h : Split f bs total) :
    ∀ b ∈ (listedInfos f bs).dropLast, b.blockSize.toNat = f.perBlock * f.chunkSize := by
  intro b hb
  have hmem : b.blockSize.toNat ∈ (bs.map fun b => b.bytes.length).dropLast := by
    rw [← h.sizes, ← List.map_dropLast]
    exact List.mem_map_of_mem hb
  rw [← List.map_dropLast] at hmem
  obtain ⟨b', hb', heq⟩ := List.mem_map.mp hmem
  rw [← heq, h.full b' hb']

/-- After any writes, `Close` submits one meta of the right sizes, whatever order the uploads
complete in and however often it is submitted. Reading that object back, with buffers of any
lengths, gives the bytes written: all of them by the first `io.EOF`, and a prefix of them
before. -/
theorem write_read_round_trip (f : Factory) (hf : PoolOk f) (key : Bytes) (term : UInt64)
    (ps : List Bytes) (completions : List (ℕ × Bool))
    (ha : Arrive (committedAll f (writes f { key := key, term := term } ps)) completions) :
    ∃ w' m, (∀ replies, close f (writes f { key := key, term := term } ps) completions replies =
        (uploadMeta replies).map fun r =>
          ⟨if r.1 = none then { w' with status := .FINISHED } else w', r.1,
            List.replicate r.2 m⟩) ∧
      m.objSize = UInt64.ofNat (ps.map List.length).sum ∧
      (m.blocks.map fun b => b.blockSize.toNat).sum = (ps.map List.length).sum ∧
      (∀ b ∈ m.blocks.dropLast, b.blockSize.toNat = f.perBlock * f.chunkSize) ∧
      ∀ fetch : Bytes → Option Bytes, (∀ e ∈ w'.sent, fetch e.1 = some e.2) →
        ∀ (c : Capacity) (calls : List ReadCall), (∀ call ∈ calls, call.Fair) →
          ∃ out eof,
            readUntilEOF fetch { capacity := c, objectMeta := m } calls = some (out, eof) ∧
            out <+: ps.flatten ∧ (eof = true → out = ps.flatten) ∧
            (eof = true ↔ calls ≠ [] ∧ ps.flatten.length ≤ roomOf calls) := by
  obtain ⟨hstatus, -, hsize, bs, cs, hfill⟩ := (written_new hf key term).writes hf ps
  obtain ⟨bs', hcommitted, hsplit⟩ := hfill.committedAll hf
  obtain ⟨w', m, hm, hclose⟩ := close_eq hstatus hcommitted ha
  rw [List.nil_append] at hsplit hsize
  rw [← List.length_flatten]
  refine ⟨w', m, hclose, ?_, ?_, ?_, ?_⟩
  · rw [hm.objSize, hfill.committed.writeSize_committedAll, hsize]
  · rw [hm.blocks, hsplit.sum_sizes]
  · rw [hm.blocks]
    exact hsplit.full_sizes
  · intro fetch hfetch c calls hfair
    have hstart := standsBefore_new (c := c) (hsplit.describes hm hfetch)
    rw [← List.flatMap_def, hsplit.content] at hstart
    obtain ⟨eof, hread, heof⟩ := hstart.readUntilEOF hfair
    refine ⟨_, eof, hread, List.take_prefix _ _, ?_, heof⟩
    intro he
    exact List.take_of_length_le (heof.mp he).2

/-- Two writes make a full block and one of a single byte, which are read in two reads that
run their goroutines in reverse order. -/
theorem three_bytes_round_trip :
    ∃ r m, close smallFactory (writes smallFactory { key := [107], term := 1 } [[1], [2, 3]])
        [(2, true), (1, true)] [.ok] = some r ∧ r.submitted = [m] ∧
      r.writer.sent = [([2], [3]), ([1], [1, 2])] ∧ m.objSize = 3 ∧
      readUntilEOF (fun k => if k = [1] then some [1, 2] else some [3])
        { capacity := ⟨2, fun _ => 0⟩, objectMeta := m }
        [⟨[0], List.reverse⟩, ⟨[0, 0, 0], List.reverse⟩] = some ([1, 2, 3], true) := by
  obtain ⟨w', m, hclose, hsize, -, -, hread⟩ := write_read_round_trip smallFactory
    poolOk_smallFactory [107] 1 [[1], [2, 3]] [(2, true), (1, true)] (by decide)
  have hok : close smallFactory (writes smallFactory { key := [107], term := 1 } [[1], [2, 3]])
      [(2, true), (1, true)] [.ok] = some ⟨{ w' with status := .FINISHED }, none, [m]⟩ :=
    hclose [.ok]
  have hsent : (close smallFactory (writes smallFactory { key := [107], term := 1 } [[1], [2, 3]])
      [(2, true), (1, true)] [.ok]).map (fun r => r.writer.sent) =
        some [([2], [3]), ([1], [1, 2])] := rfl
  rw [hok, Option.map_some, Option.some.injEq] at hsent
  obtain ⟨out, eof, hout, -, hall, heof⟩ := hread
    (fun k => if k = [1] then some [1, 2] else some [3]) (by rw [hsent]; decide)
    ⟨2, fun _ => 0⟩ [⟨[0], List.reverse⟩, ⟨[0, 0, 0], List.reverse⟩]
    (by simp [ReadCall.Fair, List.reverse_perm])
  have he : eof = true := heof.mpr ⟨by simp, by decide⟩
  refine ⟨_, m, hok, rfl, hsent, hsize, ?_⟩
  rw [hout, hall he, he]
  rfl

end Ecos.Client
