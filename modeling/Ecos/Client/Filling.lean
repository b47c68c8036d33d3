import Ecos.Client.Blocks

namespace Ecos.Client
open Go Std

variable {f : Factory} {w : EcosWriter} {bs : List Block} {cs : List LocalChunk}

theorem getCurChunk_frame {w' : EcosWriter} {c : LocalChunk} (h : getCurChunk f w = .ok (w', c)) :
    w'.blocks = w.blocks ∧ w'.uploads = w.uploads ∧ w'.curBlock = w.curBlock ∧
      w'.blockCount = w.blockCount ∧ SameObject w w' ∧ w'.curChunk = some c := by
  unfold getCurChunk at h
  split at h
  · rename_i hc
    cases h
    exact ⟨rfl, rfl, rfl, rfl, SameObject.refl w, hc⟩
  · split at h
    · cases h
    · cases h
    · cases h
      exact ⟨rfl, rfl, rfl, rfl, ⟨rfl, rfl, rfl, rfl, rfl, rfl, rfl⟩, rfl⟩

/-- A sequence of `Write` calls, whatever each of them returns. -/
def writes (f : Factory) (w : EcosWriter) (ps : List Bytes) : EcosWriter :=
  ps.foldl (fun w p => (write f w p).1) w

/-- What every round of `Write` keeps, and what does not depend on the size and the hash. -/
structure Rounds (f : Factory) (I : EcosWriter → Prop) : Prop where
  getCurChunk : ∀ {w w' c}, I w → getCurChunk f w = .ok (w', c) → I w'
  putChunk : ∀ {w c} (c' : LocalChunk), I w → w.curChunk = some c → I (putChunk f w c')
  frame : ∀ {w} (size : UInt64) (hashed : Bytes), I w →
    I { w with writeSize := size, hashed := hashed }

section
variable {I : EcosWriter → Prop}

theorem Rounds.writeLoop (hI : Rounds f I) (hw : I w) (fuel : ℕ) (p : Bytes) :
    I (writeLoop f fuel w p).1 := by
  induction fuel generalizing w p with
  | zero => cases p <;> exact hw
  | succ fuel ih =>
    rcases p with _ | ⟨x, p⟩
    · exact hw
    · unfold Client.writeLoop
      cases hg : Client.getCurChunk f w with
      | error e => exact hw
      | ok r =>
        obtain ⟨w₁, c⟩ := r
        obtain ⟨-, -, -, -, -, hc⟩ := getCurChunk_frame hg
        exact ih (hI.putChunk (fillChunk f c (x :: p)).1 (hI.getCurChunk hw hg) hc) _

theorem Rounds.write (hI : Rounds f I) (hw : I w) (p : Bytes) : I (write f w p).1 := by
  by_cases hpart : w.partObject = true
  · rw [Client.write, if_pos hpart]
    exact hw
  by_cases hstatus : w.status ≠ .READING
  · rw [Client.write, if_neg hpart, if_pos hstatus]
    exact hw
  have hloop := hI.writeLoop hw p.length p
  rw [Client.write, if_neg hpart, if_neg hstatus]
  generalize Client.writeLoop f p.length w p = r at hloop
  obtain ⟨w', offset, err⟩ := r
  cases err with
  | some e => exact hloop
  | none =>
    dsimp only
    split_ifs <;> exact hI.frame _ _ hloop

theorem Rounds.writes (hI : Rounds f I) (hw : I w) (ps : List Bytes) : I (writes f w ps) := by
  induction ps generalizing w with
  | nil => exact hw
  | cons p ps ih => exact ih (hI.write hw p)

end

theorem Committed.putChunk (h : Committed f w bs cs) (c : LocalChunk) :
    (putChunk f w c).status = w.status ∧ ∃ bs' cs', Committed f (putChunk f w c) bs' cs' := by
  have hset : Committed f { w with curChunk := some c } bs cs := h.frame rfl rfl rfl rfl
  unfold Client.putChunk
  dsimp only
  split_ifs
  · exact ⟨hset.sameObject_commitCurChunk.status, _, _, hset.commitCurChunk rfl⟩
  · exact ⟨rfl, _, _, hset⟩

theorem Committed.writes (h : Committed f w bs cs) (ps : List Bytes) :
    (writes f w ps).status = w.status ∧ ∃ bs' cs', Committed f (writes f w ps) bs' cs' := by
  have hI : Rounds f fun w' => w'.status = w.status ∧ ∃ bs cs, Committed f w' bs cs := by
    refine ⟨?_, ?_, ?_⟩
    · rintro w₁ w₂ c ⟨hstatus, bs, cs, h⟩ hg
      obtain ⟨hb, hu, hc, hn, hsame, -⟩ := getCurChunk_frame hg
      exact ⟨hsame.status.trans hstatus, bs, cs, h.frame hb hu hc hn⟩
    · rintro w₁ c c' ⟨hstatus, bs, cs, h⟩ -
      obtain ⟨hstatus', h'⟩ := h.putChunk c'
      exact ⟨hstatus'.trans hstatus, h'⟩
    · rintro w₁ size hashed ⟨hstatus, bs, cs, h⟩
      exact ⟨hstatus, bs, cs, h.frame rfl rfl rfl rfl⟩
  exact hI.writes ⟨rfl, bs, cs, h⟩ ps

def IsFree (f : Factory) (c : LocalChunk) : Prop :=
  c.data.length = f.chunkSize ∧ c.freeSize = f.chunkSize

/-- A pool whose acquisitions succeed with the chunks asked for, all of them free. The bytes
in them may be anything. -/
structure PoolOk (f : Factory) : Prop where
  chunkSize_pos : 0 < f.chunkSize
  perBlock_pos : 0 < f.perBlock
  acquire : ∀ i, ∃ chunks, f.acquireMultiple i f.perBlock = some chunks ∧
    chunks.length = f.perBlock ∧
    ∀ c ∈ chunks, IsFree f c

def smallFactory : Factory where
  chunkSize := 1
  bucketInfo := ⟨[118], [98], [], { keySlotNum := 1, blockSize := 2 }⟩
  ring _ _ := 0
  acquireMultiple _ n := some (List.replicate n ⟨[0], 1⟩)
  genBlockId i := [UInt8.ofNat i]
  genBlockPG _ := 0
  hexSum _ _ := []
  now := ⟨0, 0⟩

theorem poolOk_smallFactory : PoolOk smallFactory := by
  refine ⟨by decide, by decide, fun i => ⟨_, rfl, List.length_replicate, ?_⟩⟩
  intro c hc
  rw [List.eq_of_mem_replicate hc]
  exact ⟨rfl, rfl⟩

def IsFull (f : Factory) (c : LocalChunk) : Prop := c.data.length = f.chunkSize ∧ c.freeSize = 0

/-- All bytes written so far. The current chunk is neither empty nor full. -/
structure Filling (f : Factory) (w : EcosWriter) (bs : List Block) (cs : List LocalChunk)
    (total : Bytes) : Prop where
  committed : Committed f w bs cs
  below : cs.length < f.perBlock
  fullBlocks : ∀ b ∈ bs, ∃ cs', b = blockOf cs' ∧ cs'.length = f.perBlock ∧ ∀ c ∈ cs', IsFull f c
  fullChunks : ∀ c ∈ cs, IsFull f c
  reserve : ∀ c ∈ w.reserveChunks, IsFree f c
  curChunk : ∀ c, w.curChunk = some c →
    c.data.length = f.chunkSize ∧ 0 < c.freeSize ∧ c.freeSize < f.chunkSize
  content : bs.flatMap Block.bytes ++ cs.flatMap LocalChunk.content ++
    w.curChunk.toList.flatMap LocalChunk.content = total

theorem filling_new (hf : PoolOk f) (key : Bytes) (term : UInt64) :
    Filling f { key := key, term := term } [] [] [] :=
  ⟨committed_new key term, hf.perBlock_pos, by simp, by simp, by simp, by simp, rfl⟩

theorem IsFree.content {c : LocalChunk} (h : IsFree f c) : c.content = [] := by
  rw [LocalChunk.content, h.1, h.2, Nat.sub_self, List.take_zero]

/-- The chunk that the next bytes go into has room. -/
theorem Filling.getCurChunk {total : Bytes} (hf : PoolOk f) (h : Filling f w bs cs total) :
    ∃ w' c, getCurChunk f w = .ok (w', c) ∧ c.data.length = f.chunkSize ∧ 0 < c.freeSize ∧
      c.freeSize ≤ f.chunkSize ∧ c.content = w.curChunk.toList.flatMap LocalChunk.content ∧
      ∀ c ∈ w'.reserveChunks, IsFree f c := by
  cases hc : w.curChunk with
  | some c =>
    obtain ⟨hlen, hpos, hlt⟩ := h.curChunk c hc
    refine ⟨w, c, ?_, hlen, hpos, hlt.le, ?_, h.reserve⟩
    · simp only [Client.getCurChunk, hc]
    · simp
  | none =>
    obtain ⟨chunks, hres, hne, hfree⟩ : ∃ chunks, Client.reserve f w = some chunks ∧ chunks ≠ [] ∧
        ∀ c ∈ chunks, IsFree f c := by
      by_cases hr : w.reserveChunks = []
      · obtain ⟨chunks, hacq, hlen, hfree⟩ := hf.acquire w.acquired
        refine ⟨chunks, by rw [Client.reserve, if_pos hr, hacq], ?_, hfree⟩
        have := hf.perBlock_pos
        exact List.ne_nil_of_length_pos (hlen ▸ this)
      · exact ⟨w.reserveChunks, by rw [Client.reserve, if_neg hr], hr, h.reserve⟩
    obtain ⟨c, rest, rfl⟩ := List.exists_cons_of_ne_nil hne
    have hfc := hfree c List.mem_cons_self
    have hget : Client.getCurChunk f w = .ok ({ w with
        curChunk := some c
        reserveChunks := rest
        chunkCount := w.chunkCount + 1
        acquired := if w.reserveChunks = [] then w.acquired + 1 else w.acquired }, c) := by
      simp only [Client.getCurChunk, hc, hres]
    exact ⟨_, c, hget, hfc.1, hfc.2 ▸ hf.chunkSize_pos, hfc.2.le, hfc.content,
      fun c' hc' => hfree c' (List.mem_cons_of_mem c hc')⟩

/-- Filling a chunk appends what fits. -/
theorem fillChunk_spec {c : LocalChunk} {p : Bytes} (hlen : c.data.length = f.chunkSize)
    (hle : c.freeSize ≤ f.chunkSize) :
    (fillChunk f c p).2 = min c.freeSize p.length ∧
      (fillChunk f c p).1.data.length = f.chunkSize ∧
      (fillChunk f c p).1.freeSize = c.freeSize - min c.freeSize p.length ∧
      (fillChunk f c p).1.content = c.content ++ p.take (min c.freeSize p.length) := by
  have hn : min (c.data.length - (f.chunkSize - c.freeSize)) p.length = min c.freeSize p.length := by
    omega
  have htake : (p.take (min c.freeSize p.length)).length = min c.freeSize p.length := by
    rw [List.length_take]
    omega
  have hstart : (c.data.take (f.chunkSize - c.freeSize)).length = f.chunkSize - c.freeSize := by
    rw [List.length_take]
    omega
  unfold fillChunk
  dsimp only
  rw [hn]
  refine ⟨rfl, ?_, rfl, ?_⟩
  · simp only [List.length_append, hstart, htake, List.length_drop]
    omega
  · have hall : (c.data.take (f.chunkSize - c.freeSize) ++ p.take (min c.freeSize p.length) ++
        c.data.drop (f.chunkSize - c.freeSize + min c.freeSize p.length)).length = f.chunkSize := by
      simp only [List.length_append, hstart, htake, List.length_drop]
      omega
    simp only [LocalChunk.content, hall, hlen]
    apply List.take_left'
    rw [List.length_append, hstart, htake]
    omega

theorem IsFull.content {c : LocalChunk} (h : IsFull f c) : c.content = c.data := by
  rw [LocalChunk.content, h.2, Nat.sub_zero, List.take_length]

theorem bytes_blockOf (cs : List LocalChunk) :
    (blockOf cs).bytes = cs.flatMap LocalChunk.content := rfl

/-- A full chunk moves from `curChunk` into the blocks. -/
theorem Filling.commitCurChunk {total : Bytes} {c : LocalChunk} (hK : 0 < f.perBlock)
    (h : Committed f w bs cs) (hbelow : cs.length < f.perBlock)
    (hblocks : ∀ b ∈ bs, ∃ cs', b = blockOf cs' ∧ cs'.length = f.perBlock ∧ ∀ c ∈ cs', IsFull f c)
    (hchunks : ∀ c ∈ cs, IsFull f c) (hres : ∀ c ∈ w.reserveChunks, IsFree f c)
    (hc : w.curChunk = some c) (hfull : IsFull f c)
    (htotal : bs.flatMap Block.bytes ++ cs.flatMap LocalChunk.content ++ c.content = total) :
    ∃ bs' cs', Filling f (commitCurChunk f w) bs' cs' total := by
  have hcommitted := h.commitCurChunk hc
  have hall : ∀ x ∈ cs ++ [c], IsFull f x := by
    intro x hx
    rcases List.mem_append.mp hx with hx | hx
    · exact hchunks x hx
    · rw [List.mem_singleton.mp hx]
      exact hfull
  have hbytes : (cs ++ [c]).flatMap LocalChunk.content =
      cs.flatMap LocalChunk.content ++ c.content := by
    rw [List.flatMap_append, List.flatMap_singleton]
  -- with the last chunk of a block, `commitCurBlock` also drops the reserved chunks
  by_cases hlast : cs.length + 1 = f.perBlock
  · rw [if_pos hlast, if_pos hlast] at hcommitted
    refine ⟨_, _, hcommitted, hK, ?_, by simp, ?_, ?_, ?_⟩
    · intro b hb
      rcases List.mem_append.mp hb with hb | hb
      · exact hblocks b hb
      · exact ⟨cs ++ [c], List.mem_singleton.mp hb, by rw [List.length_append, ← hlast]; rfl, hall⟩
    · rw [commitCurChunk_full h hc hlast]
      intro x hx
      cases hx
    · rw [commitCurChunk_full h hc hlast]
      intro x hx
      cases hx
    · rw [commitCurChunk_full h hc hlast, List.flatMap_append, List.flatMap_singleton,
        bytes_blockOf, hbytes, ← htotal]
      simp
  · rw [if_neg hlast, if_neg hlast, List.append_nil] at hcommitted
    refine ⟨_, _, hcommitted, ?_, hblocks, hall, ?_, ?_, ?_⟩
    · rw [List.length_append, List.length_singleton]
      omega
    · rw [commitCurChunk_not_full h hc hlast]
      exact hres
    · rw [commitCurChunk_not_full h hc hlast]
      intro x hx
      cases hx
    · rw [commitCurChunk_not_full h hc hlast, hbytes, ← htotal]
      simp

/-- One round of the loop: some bytes move from `p` into the writer. -/
theorem Filling.round {total : Bytes} (hf : PoolOk f) (h : Filling f w bs cs total) {p : Bytes}
    (hp : p ≠ []) :
    ∃ w₁ c, Client.getCurChunk f w = .ok (w₁, c) ∧ 0 < (fillChunk f c p).2 ∧
      SameObject w (putChunk f w₁ (fillChunk f c p).1) ∧
      ∃ bs' cs', Filling f (putChunk f w₁ (fillChunk f c p).1) bs' cs'
        (total ++ p.take (fillChunk f c p).2) := by
  obtain ⟨w₁, c, hget, hlen, hpos, hle, hcontent, hres⟩ := h.getCurChunk hf
  obtain ⟨hb, hu, hcur, hcount, hsame, -⟩ := getCurChunk_frame hget
  obtain ⟨hn, hlen', hfree', hcontent'⟩ := fillChunk_spec (p := p) hlen hle
  have hplen : 0 < p.length := List.length_pos_of_ne_nil hp
  have htotal : bs.flatMap Block.bytes ++ cs.flatMap LocalChunk.content ++
      (fillChunk f c p).1.content = total ++ p.take (fillChunk f c p).2 := by
    rw [hcontent', hn, hcontent, ← h.content]
    simp only [List.append_assoc]
  refine ⟨w₁, c, hget, by omega, ?_⟩
  generalize (fillChunk f c p).1 = c' at *
  have hset : Committed f { w₁ with curChunk := some c' } bs cs :=
    h.committed.frame hb hu hcur hcount
  have hsame' : SameObject w { w₁ with curChunk := some c' } :=
    hsame.trans ⟨rfl, rfl, rfl, rfl, rfl, rfl, rfl⟩
  -- `Write` commits a chunk as soon as it is full, so a current chunk always has room
  by_cases hzero : c'.freeSize = 0
  · rw [putChunk, if_pos hzero]
    exact ⟨hsame'.trans hset.sameObject_commitCurChunk,
      Filling.commitCurChunk hf.perBlock_pos hset h.below h.fullBlocks h.fullChunks hres rfl
        ⟨hlen', hzero⟩ htotal⟩
  · rw [putChunk, if_neg hzero]
    refine ⟨hsame', bs, cs, hset, h.below, h.fullBlocks, h.fullChunks, hres, ?_, ?_⟩
    · intro x hx
      cases hx
      exact ⟨hlen', by omega, by omega⟩
    · rw [← htotal]
      simp

/-- The loop takes all of `p`. -/
theorem Filling.writeLoop {total : Bytes} (hf : PoolOk f) (h : Filling f w bs cs total) {fuel : ℕ}
    {p : Bytes} (hfuel : p.length ≤ fuel) :
    ∃ w' bs' cs', Client.writeLoop f fuel w p = (w', p.length, none) ∧
      Filling f w' bs' cs' (total ++ p) ∧ SameObject w w' := by
  induction fuel generalizing w bs cs total p with
  | zero =>
    have hp : p = [] := List.eq_nil_of_length_eq_zero (by omega)
    subst hp
    refine ⟨w, bs, cs, by rw [Client.writeLoop]; rfl, ?_, SameObject.refl w⟩
    rwa [List.append_nil]
  | succ fuel ih =>
    rcases p with _ | ⟨x, p⟩
    · refine ⟨w, bs, cs, by rw [Client.writeLoop]; rfl, ?_, SameObject.refl w⟩
      rwa [List.append_nil]
    · obtain ⟨w₁, c, hget, hpos, hsame, bs₂, cs₂, hfill⟩ := h.round hf (List.cons_ne_nil x p)
      have hdrop : ((x :: p).drop (fillChunk f c (x :: p)).2).length ≤ fuel := by
        rw [List.length_drop]
        omega
      obtain ⟨w', bs', cs', hloop, hfill', hsame'⟩ := ih hfill hdrop
      refine ⟨w', bs', cs', ?_, ?_, hsame.trans hsame'⟩
      · have hn : (fillChunk f c (x :: p)).2 ≤ (x :: p).length := min_le_right _ _
        simp only [Client.writeLoop, hget, hloop, List.length_drop, Nat.add_sub_cancel' hn]
      · rwa [List.append_assoc, List.take_append_drop] at hfill'

theorem Filling.frame {total : Bytes} (h : Filling f w bs cs total) (size : UInt64)
    (hashed : Bytes) : Filling f { w with writeSize := size, hashed := hashed } bs cs total :=
  ⟨h.committed.frame rfl rfl rfl rfl, h.below, h.fullBlocks, h.fullChunks, h.reserve, h.curChunk,
    h.content⟩

/-- An open writer that has been given the bytes `total`. -/
structure Written (f : Factory) (w : EcosWriter) (total : Bytes) : Prop where
  status : w.status = .READING
  single : w.partObject = false
  writeSize : w.writeSize = UInt64.ofNat total.length
  filling : ∃ bs cs, Filling f w bs cs total

theorem written_new (hf : PoolOk f) (key : Bytes) (term : UInt64) :
    Written f { key := key, term := term } [] :=
  ⟨rfl, rfl, rfl, [], [], filling_new hf key term⟩

theorem Written.write {total : Bytes} (hf : PoolOk f) (h : Written f w total) (p : Bytes) :
    (Client.write f w p).2 = (p.length, none) ∧ Written f (Client.write f w p).1 (total ++ p) := by
  obtain ⟨hstatus, hsingle, hsize, bs, cs, hfill⟩ := h
  obtain ⟨w', bs', cs', hloop, hfill', hsame⟩ := hfill.writeLoop hf (Nat.le_refl p.length)
  unfold Client.write
  rw [if_neg (by rw [hsingle]; simp), if_neg (by rw [hstatus]; simp), hloop]
  simp only [ne_eq, not_true_eq_false, if_false]
  refine ⟨trivial, ?_⟩
  have hnew : w'.writeSize + UInt64.ofNat p.length = UInt64.ofNat (total ++ p).length := by
    rw [hsame.writeSize, hsize, List.length_append, UInt64.ofNat_add]
  split_ifs
  · exact ⟨hsame.status.trans hstatus, hsame.partObject.trans hsingle, hnew, bs', cs',
      hfill'.frame _ w'.hashed⟩
  · exact ⟨hsame.status.trans hstatus, hsame.partObject.trans hsingle, hnew, bs', cs',
      hfill'.frame _ _⟩

theorem Written.writes {total : Bytes} (hf : PoolOk f) (h : Written f w total) (ps : List Bytes) :
    Written f (Client.writes f w ps) (total ++ ps.flatten) := by
  induction ps generalizing w total with
  | nil => rwa [List.flatten_nil, List.append_nil]
  | cons p ps ih =>
    rw [List.flatten_cons, ← List.append_assoc]
    exact ih (h.write hf p).2

end Ecos.Client
