import Ecos.Client.ChunkPool

namespace Ecos.Client.ChunkPool
open Logic

variable {cfg : Config}

namespace Phase

/-- In `AcquireMultiple`, before its mutex or behind it. -/
def waits : Phase → Bool
  | locking _ => true
  | acquiring _ _ => true
  | _ => false

/-- In `AcquireMultiple` with the mutex. -/
def acquires : Phase → Bool
  | acquiring _ _ => true
  | _ => false

end Phase

namespace Writer

/-- The number of chunks in the writer's fields: those of the current block, the current chunk and
the reserved ones. -/
def inHand (w : Writer) : ℕ :=
  (w.curBlock.getD []).length + w.curChunk.toList.length + w.reserveChunks.length

variable (cfg) in
structure Aligned (w : Writer) : Prop where
  inHand : w.inHand = 0 ∨ w.inHand = cfg.perBlock
  block : (w.curBlock.getD []).length < cfg.perBlock
  waits : w.phase.waits = true → w.inHand = 0
  ret : w.phase.ret.length < cfg.perBlock

theorem length_held (w : Writer) : w.held.length = w.phase.ret.length + w.inHand := by
  simp only [held, untouched, inHand, List.length_append]
  omega

/-- The chunks in the writer's fields have not changed in number, and it does not wait. -/
theorem Aligned.keep {w w' : Writer} (h : w.Aligned cfg) (hhand : w'.inHand = w.inHand)
    (hblock : w'.curBlock = w.curBlock) (hphase : w'.phase.waits = false) : w'.Aligned cfg where
  inHand := hhand ▸ h.inHand
  block := hblock ▸ h.block
  waits hw := by
    rw [hphase] at hw
    cases hw
  ret := by
    have hret : w'.phase.ret = [] := by
      cases hp : w'.phase <;> simp [hp, Phase.waits] at hphase ⊢
    rw [hret]
    exact Nat.zero_lt_of_lt h.block

end Writer

namespace Turn

variable {t t' : Turn} {i : ℕ}

theorem commitCurBlock_writer (t : Turn) (i : ℕ) : (t.commitCurBlock cfg i).writer =
    { t.writer with reserveChunks := [], curBlock := none } := by
  cases hb : t.writer.curBlock <;> simp [commitCurBlock, hb]

/-- A block that is not full stays open. -/
theorem getCurBlock_of_lt (h : (t.writer.curBlock.getD []).length < cfg.perBlock) :
    ∃ n, (t.getCurBlock cfg i).writer = { t.writer with
      blockCount := n, curBlock := some (t.writer.curBlock.getD []) } := by
  have hnot : t.writer.curBlock.map List.length ≠ some cfg.perBlock := by
    intro heq
    obtain ⟨block, hblock, hlen⟩ := Option.map_eq_some_iff.mp heq
    rw [hblock, Option.getD_some, hlen] at h
    exact lt_irrefl _ h
  rw [getCurBlock, if_neg hnot]
  cases hb : t.writer.curBlock with
  | none =>
    refine ⟨t.writer.blockCount + 1, ?_⟩
    simp only [openBlock, hb, Option.getD_none]
  | some block =>
    have hopen : t.openBlock = t := by simp only [openBlock, hb]
    refine ⟨t.writer.blockCount, ?_⟩
    rw [hopen, Option.getD_some, ← hb]

/-- The current chunk goes into the block, and a full block takes all chunks with it. -/
theorem commitCurChunk_writer {chunk : ℕ} (hc : t.writer.curChunk = some chunk)
    (h : (t.writer.curBlock.getD []).length < cfg.perBlock) :
    ∃ n, (t.commitCurChunk cfg i).writer =
      if (t.writer.curBlock.getD []).length + 1 = cfg.perBlock then
        { t.writer with blockCount := n, curBlock := none, reserveChunks := [], curChunk := none }
      else { t.writer with
        blockCount := n
        curBlock := some (t.writer.curBlock.getD [] ++ [chunk])
        curChunk := none } := by
  obtain ⟨n, hget⟩ := getCurBlock_of_lt (i := i) h
  refine ⟨n, ?_⟩
  simp only [commitCurChunk, hc, hget, Option.getD_some, List.length_append, List.length_singleton]
  split_ifs
  · rw [commitCurBlock_writer]
  · rfl

theorem commitCurChunk_phase (h : (t.writer.curBlock.getD []).length < cfg.perBlock) :
    (t.commitCurChunk cfg i).writer.phase = t.writer.phase := by
  cases hc : t.writer.curChunk with
  | none => simp only [commitCurChunk, hc]
  | some chunk =>
    obtain ⟨n, hn⟩ := commitCurChunk_writer (i := i) hc h
    rw [hn]
    split_ifs <;> rfl

theorem commitCurChunk_aligned (h : t.writer.Aligned cfg) (hp : t.writer.phase.waits = false) :
    (t.commitCurChunk cfg i).writer.Aligned cfg := by
  cases hc : t.writer.curChunk with
  | none => simpa only [commitCurChunk, hc] using h
  | some chunk =>
    have hhand := h.inHand
    have hblock := h.block
    rw [Writer.inHand, hc, Option.toList_some, List.length_singleton] at hhand
    obtain ⟨n, hn⟩ := commitCurChunk_writer (i := i) hc hblock
    rw [hn]
    split_ifs with hfull
    · refine ⟨.inl rfl, Nat.zero_lt_of_lt hblock, fun _ => rfl, h.ret⟩
    · refine ⟨?_, ?_, fun hw => absurd hw (by rw [hp]; exact Bool.false_ne_true), h.ret⟩
      · simp only [Writer.inHand, Option.getD_some, Option.toList_none, List.length_append,
          List.length_singleton, List.length_nil]
        omega
      · rw [Option.getD_some, List.length_append, List.length_singleton]
        omega

theorem fill_aligned (h : t.writer.Aligned cfg) (chunk pending : ℕ) :
    (t.fill cfg i chunk pending).writer.Aligned cfg ∧
      (t.fill cfg i chunk pending).writer.phase.acquires = false := by
  have hkeep : ∀ n, { t.writer with phase := .writing n }.Aligned cfg :=
    fun n => h.keep rfl rfl rfl
  unfold fill
  dsimp only
  split_ifs
  · refine ⟨commitCurChunk_aligned (hkeep _) rfl, ?_⟩
    rw [commitCurChunk_phase]
    · rfl
    · exact h.block
  · exact ⟨hkeep _, rfl⟩

/-- A writer without chunks has an empty block, since a block is closed with its last chunk. -/
theorem inHand_eq_zero (h : t.writer.Aligned cfg) (hc : t.writer.curChunk = none)
    (hr : t.writer.reserveChunks = []) : t.writer.inHand = 0 := by
  have hhand := h.inHand
  have hblock := h.block
  simp only [Writer.inHand, hc, hr, Option.toList_none, List.length_nil] at hhand ⊢
  omega

theorem writeRound_aligned (h : t.writer.Aligned cfg) {pending : ℕ}
    (hp : t.writer.phase = .writing pending) :
    (t.writeRound cfg i pending).writer.Aligned cfg ∧
      (t.writeRound cfg i pending).writer.phase.acquires = false := by
  unfold writeRound
  split
  · exact fill_aligned h _ pending
  · -- a reserved chunk becomes the current one
    rename_i chunk rest hc hr
    refine ⟨h.keep ?_ rfl ?_, ?_⟩
    · simp only [Writer.inHand, hc, hr, Option.toList_some, Option.toList_none,
        List.length_cons, List.length_nil]
      omega
    · rw [hp]
      rfl
    · rw [hp]
      rfl
  · rename_i hc hr
    have hzero := inHand_eq_zero h hc hr
    exact ⟨⟨.inl hzero, h.block, fun _ => hzero, Nat.zero_lt_of_lt h.block⟩, rfl⟩

theorem write_aligned (h : t.writer.Aligned cfg) (hw : t.write cfg i = some t') :
    t'.writer.Aligned cfg ∧ t'.writer.phase.acquires = false := by
  unfold write at hw
  split at hw
  · rename_i pending hp
    split_ifs at hw with hzero
    · cases hw
      exact ⟨h.keep rfl rfl rfl, rfl⟩
    · cases hw
      exact writeRound_aligned h hp
  · cases hw

theorem acquires_of_write (hw : t.write cfg i = some t') : t.writer.phase.acquires = false := by
  unfold write at hw
  split at hw
  · rename_i pending hp
    rw [hp]
    rfl
  · cases hw

theorem close_aligned (h : t.writer.Aligned cfg) (hp : t.writer.phase = .idle) :
    (t.close cfg i).writer.Aligned cfg ∧ (t.close cfg i).writer.phase.acquires = false := by
  have hphase : (t.close cfg i).writer.phase = .idle := by
    simp only [close, commitCurBlock_writer, commitCurChunk_phase h.block]
    exact hp
  have hnone : (t.close cfg i).writer.curBlock = none := by
    simp only [close, commitCurBlock_writer]
  have hhand : (t.close cfg i).writer.inHand = 0 := by
    simp [close, commitCurBlock_writer, Writer.inHand, commitCurChunk_curChunk]
  refine ⟨⟨.inl hhand, ?_, fun _ => hhand, ?_⟩, ?_⟩
  · rw [hnone]
    exact Nat.zero_lt_of_lt h.block
  · rw [hphase]
    exact Nat.zero_lt_of_lt h.block
  · rw [hphase]
    rfl

end Turn

namespace State

variable {s s' : State} {i : ℕ} {w w' : Writer} {acts : List Action}

variable (cfg) in
structure Aligned (s : State) : Prop where
  writers : ∀ w ∈ s.writers, w.Aligned cfg
  mutex : s.writers.countP (fun w => w.phase.acquires) = s.locked.toNat

/-- A step of one writer, which can take the mutex or give it back. -/
theorem Aligned.set (h : s.Aligned cfg) (hw : s.writers[i]? = some w) (hw' : w'.Aligned cfg)
    (hs : s'.writers = s.writers.set i w')
    (hm : s'.locked.toNat + w.phase.acquires.toNat = s.locked.toNat + w'.phase.acquires.toNat) :
    s'.Aligned cfg where
  writers v hv := by
    rw [hs] at hv
    rcases List.mem_or_eq_of_mem_set hv with hv | rfl
    · exact h.writers v hv
    · exact hw'
  mutex := by
    obtain ⟨hi, rfl⟩ := List.getElem?_eq_some_iff.mp hw
    have hold := h.mutex
    rw [← (List.getElem_cons_eraseIdx_perm hi).countP_eq, List.countP_cons] at hold
    have hnew : ((s.writers.set i w').eraseIdx i) = s.writers.eraseIdx i := List.eraseIdx_set_eq
    have hi' : i < (s.writers.set i w').length := by rwa [List.length_set]
    rw [hs, ← (List.getElem_cons_eraseIdx_perm hi').countP_eq, List.countP_cons, hnew,
      List.getElem_set_self]
    cases hb : s.writers[i].phase.acquires <;> cases hb' : w'.phase.acquires <;>
      simp only [hb, hb', Bool.toNat_true, Bool.toNat_false, if_true, if_false,
        Bool.false_eq_true] at hold hm ⊢ <;> omega

/-- A step of a writer outside of `AcquireMultiple`. -/
theorem Aligned.setWriter (h : s.Aligned cfg) (hw : s.writers[i]? = some w) (hw' : w'.Aligned cfg)
    (hs : s'.writers = s.writers.set i w') (hlocked : s'.locked = s.locked)
    (hp : w'.phase.acquires = w.phase.acquires) : s'.Aligned cfg :=
  h.set hw hw' hs (by rw [hlocked, hp])

theorem Aligned.acquire (h : s.Aligned cfg) (hw : s.writers[i]? = some w) {pending : ℕ}
    {ret : List ℕ} (hp : w.phase = .acquiring pending ret)
    (hstep : s.acquire cfg i w pending ret = some s') : s'.Aligned cfg := by
  have hal := h.writers w (List.mem_of_getElem? hw)
  have hhand : w.inHand = 0 := hal.waits (by rw [hp]; rfl)
  have hret : ret.length < cfg.perBlock := by
    have hret := hal.ret
    rwa [hp] at hret
  have hlocked : s.locked = true := by
    have hpos : 0 < s.writers.countP (fun w => w.phase.acquires) :=
      List.countP_pos_iff.mpr ⟨w, List.mem_of_getElem? hw, by rw [hp]; rfl⟩
    rw [h.mutex] at hpos
    cases hl : s.locked with
    | false => simp [hl] at hpos
    | true => rfl
  simp only [State.acquire, bind, Option.bind_eq_some_iff] at hstep
  obtain ⟨x, -, hstep⟩ := hstep
  split_ifs at hstep with hfull
  · cases hstep
    have hal' : Writer.Aligned cfg { w with
        phase := .writing pending, reserveChunks := w.reserveChunks ++ (ret ++ [x.1]) } := by
      refine ⟨.inr ?_, hal.block, fun hwaits => (by cases hwaits), Nat.zero_lt_of_lt hret⟩
      rw [Writer.inHand] at hhand ⊢
      dsimp only
      rw [List.length_append]
      omega
    exact h.set hw hal' rfl (by rw [hlocked, hp]; rfl)
  · cases hstep
    have hal' : Writer.Aligned cfg { w with phase := .acquiring pending (ret ++ [x.1]) } := by
      refine ⟨hal.inHand, hal.block, fun _ => hhand, ?_⟩
      rw [Phase.ret_acquiring]
      rw [List.length_append, List.length_singleton] at hfull ⊢
      omega
    exact h.setWriter hw hal' rfl rfl (by rw [hp]; rfl)

theorem Aligned.lock (h : s.Aligned cfg) (hw : s.writers[i]? = some w) {pending : ℕ}
    (hp : w.phase = .locking pending) (hfree : s.locked = false) :
    Aligned cfg { s with
      locked := true, writers := s.writers.set i { w with phase := .acquiring pending [] } } := by
  have hal := h.writers w (List.mem_of_getElem? hw)
  have hhand : w.inHand = 0 := hal.waits (by rw [hp]; rfl)
  have hal' : Writer.Aligned cfg { w with phase := .acquiring pending [] } :=
    ⟨hal.inHand, hal.block, fun _ => hhand, Nat.zero_lt_of_lt hal.block⟩
  exact h.set hw hal' rfl (by rw [hfree, hp]; rfl)

theorem Aligned.delFunc (h : s.Aligned cfg) {j : ℕ} (hstep : s.delFunc cfg j = some s') :
    s'.Aligned cfg := by
  simp only [State.delFunc, bind, Option.bind_eq_some_iff] at hstep
  obtain ⟨u, -, hstep⟩ := hstep
  split at hstep
  · cases hstep
    exact ⟨h.writers, h.mutex⟩
  · simp only [Option.bind_eq_some_iff] at hstep
    obtain ⟨w, hw, hstep⟩ := hstep
    cases hstep
    have hal := h.writers w (List.mem_of_getElem? hw)
    have hal' : Writer.Aligned cfg { w with finishedBlocks := w.finishedBlocks + 1 } :=
      ⟨hal.inHand, hal.block, hal.waits, hal.ret⟩
    exact h.setWriter hw hal' rfl rfl rfl

theorem aligned_step {a : Action} (hK : 1 ≤ cfg.perBlock) (h : s.Aligned cfg)
    (hstep : s.step cfg a = some s') : s'.Aligned cfg := by
  cases a with
  | getEcosWriter =>
    cases hstep
    refine ⟨List.forall_mem_append.mpr ⟨h.writers, List.forall_mem_singleton.mpr ?_⟩, ?_⟩
    · exact ⟨.inl rfl, hK, fun _ => rfl, hK⟩
    · rw [List.countP_append, h.mutex]
      rfl
  | write i length =>
    simp only [step, bind, Option.bind_eq_some_iff] at hstep
    obtain ⟨w, hw, hstep⟩ := hstep
    split_ifs at hstep with hp
    · cases hstep
      have hal := h.writers w (List.mem_of_getElem? hw)
      have hal' : Writer.Aligned cfg { w with phase := .writing length } := hal.keep rfl rfl rfl
      exact h.setWriter hw hal' rfl rfl (by rw [hp]; rfl)
    · cases hstep
      exact h
  | continueWrite i =>
    simp only [step, bind, Option.bind_eq_some_iff] at hstep
    obtain ⟨w, hw, t, ht, hstep⟩ := hstep
    cases hstep
    obtain ⟨hal, hp⟩ := Turn.write_aligned (h.writers w (List.mem_of_getElem? hw)) ht
    exact h.setWriter hw hal rfl rfl (hp.trans (Turn.acquires_of_write ht).symm)
  | lock i =>
    simp only [step, bind, Option.bind_eq_some_iff] at hstep
    obtain ⟨w, hw, hstep⟩ := hstep
    split at hstep
    · rename_i pending hp
      split_ifs at hstep with hlocked hzero
      · omega
      · cases hstep
        exact h.lock hw hp (Bool.eq_false_iff.mpr hlocked)
    · cases hstep
  | acquire i =>
    simp only [step, bind, Option.bind_eq_some_iff] at hstep
    obtain ⟨w, hw, hstep⟩ := hstep
    split at hstep
    · rename_i pending ret hp
      exact h.acquire hw hp hstep
    · cases hstep
  | close i =>
    simp only [step, bind, Option.bind_eq_some_iff] at hstep
    obtain ⟨w, hw, hstep⟩ := hstep
    split_ifs at hstep with hp
    · cases hstep
      obtain ⟨hal, hacq⟩ := Turn.close_aligned (t := s.turn w) (i := i)
        (h.writers w (List.mem_of_getElem? hw)) hp
      exact h.setWriter hw hal rfl rfl (hacq.trans (by rw [hp]; rfl))
    · cases hstep
      exact h
  | finish i =>
    simp only [step, bind, Option.bind_eq_some_iff] at hstep
    obtain ⟨w, hw, hstep⟩ := hstep
    split_ifs at hstep
    cases hstep
    have hal := h.writers w (List.mem_of_getElem? hw)
    have hal' : Writer.Aligned cfg { w with status := .FINISHED } :=
      ⟨hal.inHand, hal.block, hal.waits, hal.ret⟩
    exact h.setWriter hw hal' rfl rfl rfl
  | delFunc j => exact h.delFunc hstep

theorem aligned_run (hK : 1 ≤ cfg.perBlock) (h : run (step cfg) {} acts = some s) :
    s.Aligned cfg := by
  have hinit : Aligned cfg {} := ⟨fun _ hw => absurd hw List.not_mem_nil, rfl⟩
  exact run_preserved (fun _ _ _ hs h => aligned_step hK hs h) hinit h

/-- Some chunk is with an upload or with a writer outside of `AcquireMultiple`, so that it comes
back without a chunk from the pool. -/
def AtWork (s : State) : Prop :=
  (∃ u ∈ s.uploads, u.chunks ≠ []) ∨ ∃ w ∈ s.writers, w.phase.waits = false ∧ w.inHand ≠ 0

/-- The pool is empty and can make no chunk. -/
theorem Sound.made_of_blocked (hs : s.Sound cfg) (hmax : 1 ≤ cfg.maxChunk)
    (h : s.pool.acquire cfg = none) : s.pool.resources = [] ∧ s.pool.made = cfg.maxChunk := by
  have hnone : (s.pool.grow cfg).resources = [] := by
    unfold Pool.acquire at h
    split at h
    · assumption
    · cases h
  unfold Pool.grow at hnone
  split_ifs at hnone with hcond
  · rw [Pool.send] at hnone
    split_ifs at hnone with hroom
    · simp at hnone
    · exact absurd hcond.2 hroom
  · refine ⟨hnone, le_antisymm hs.made_le ?_⟩
    rw [hnone, List.length_nil, hs.curCount] at hcond
    omega

theorem Aligned.not_acquires (h : s.Aligned cfg) (hw : s.writers[i]? = some w)
    (hacq : w.phase.acquires = true) : ∀ v ∈ s.writers.eraseIdx i, v.phase.acquires = false := by
  obtain ⟨hi, rfl⟩ := List.getElem?_eq_some_iff.mp hw
  have hcount := h.mutex
  rw [← (List.getElem_cons_eraseIdx_perm hi).countP_eq, List.countP_cons, if_pos hacq] at hcount
  have hle := Bool.toNat_le s.locked
  have hzero : (s.writers.eraseIdx i).countP (fun w => w.phase.acquires) = 0 := by omega
  intro v hv
  exact Bool.eq_false_iff.mpr (List.countP_eq_zero.mp hzero v hv)

/-- A writer that finds the pool empty has less than a block collected. The rest is at work. -/
theorem Sound.atWork (hs : s.Sound cfg) (h : s.Aligned cfg) (hfit : cfg.perBlock ≤ cfg.maxChunk)
    (hw : s.writers[i]? = some w) (hacq : w.phase.acquires = true)
    (hblocked : s.pool.acquire cfg = none) : s.AtWork := by
  have hal := h.writers w (List.mem_of_getElem? hw)
  have hret := hal.ret
  obtain ⟨hres, hmade⟩ := hs.made_of_blocked (by omega) hblocked
  by_contra hidle
  rw [AtWork, not_or] at hidle
  obtain ⟨huploads, hwriters⟩ := hidle
  have hhand : ∀ v ∈ s.writers, v.inHand = 0 := by
    intro v hv
    cases hwaits : v.phase.waits with
    | true => exact (h.writers v hv).waits hwaits
    | false =>
      by_contra hne
      exact hwriters ⟨v, hv, hwaits, hne⟩
  have hothers : s.others i = [] := by
    refine List.flatMap_eq_nil_iff.mpr fun v hv => List.length_eq_zero_iff.mp ?_
    have hphase : v.phase.ret = [] := by
      have hnot := h.not_acquires hw hacq v hv
      cases hv : v.phase <;> simp [hv, Phase.acquires] at hnot ⊢
    rw [v.length_held, hphase, hhand v (List.mem_of_mem_eraseIdx hv)]
    rfl
  have hnone : s.uploads.flatMap Upload.chunks = [] := by
    refine List.flatMap_eq_nil_iff.mpr fun u hu => ?_
    by_contra hne
    exact huploads ⟨u, hu, hne⟩
  have hlen := (hs.held.symm.trans (held_perm hw)).length_eq
  simp only [List.length_range, List.length_append, turn, Turn.held, hres, hothers, hnone,
    List.length_nil, w.length_held, hhand w (List.mem_of_getElem? hw)] at hlen
  omega

variable (cfg) in
/-- The writer is in `AcquireMultiple` and cannot go on. -/
def Blocked (s : State) (i : ℕ) : Prop :=
  (∃ w, s.writers[i]? = some w ∧ w.phase.waits = true) ∧
    s.step cfg (.lock i) = none ∧ s.step cfg (.acquire i) = none

/-- Behind the mutex a writer is blocked by another one that collects its chunks. -/
theorem Aligned.blocked (h : s.Aligned cfg) (hb : s.Blocked cfg i) :
    ∃ j w, s.writers[j]? = some w ∧ w.phase.acquires = true ∧
      (s.step cfg (.acquire j) = none → s.pool.acquire cfg = none) := by
  have hstep : ∀ {j : ℕ} {w : Writer}, s.writers[j]? = some w → w.phase.acquires = true →
      s.step cfg (.acquire j) = none → s.pool.acquire cfg = none := by
    intro j w hw hacq hnone
    cases hp : w.phase with
    | acquiring pending ret =>
      by_contra hsome
      obtain ⟨x, hx⟩ := Option.ne_none_iff_exists'.mp hsome
      simp only [step, hw, hp, State.acquire, hx, bind, Option.bind_some] at hnone
      split_ifs at hnone
    | _ => simp [hp, Phase.acquires] at hacq
  obtain ⟨⟨w, hw, hwaits⟩, hlock, -⟩ := hb
  cases hp : w.phase with
  | acquiring pending ret =>
    have hacq : w.phase.acquires = true := by rw [hp]; rfl
    exact ⟨i, w, hw, hacq, hstep hw hacq⟩
  | locking pending =>
    have hlocked : s.locked = true := by
      by_contra hfree
      simp only [step, hw, hp, bind, Option.bind_some] at hlock
      split_ifs at hlock
    have hpos : 0 < s.writers.countP (fun w => w.phase.acquires) := by
      rw [h.mutex, hlocked]
      exact Nat.zero_lt_one
    obtain ⟨v, hv, hacq⟩ := List.countP_pos_iff.mp hpos
    obtain ⟨j, hj⟩ := List.mem_iff_getElem?.mp hv
    exact ⟨j, v, hj, hacq, hstep hj hacq⟩
  | _ => simp [hp, Phase.waits] at hwaits

/-- A writer's fields have no chunk or those of one block, none when it waits for the pool. One
that waits for the mutex holds nothing at all, and behind the mutex there is only one. So a blocked
writer waits for a writer that can go on or for chunks that are at work. -/
theorem no_hold_and_wait (hK : 1 ≤ cfg.perBlock) (hrun : run (step cfg) {} acts = some s) :
    (∀ w ∈ s.writers, (w.inHand = 0 ∨ w.inHand = cfg.perBlock) ∧
      (w.phase.waits = true → w.inHand = 0 ∧ (w.phase.acquires = false → w.held = []))) ∧
    s.writers.countP (fun w => w.phase.acquires) ≤ 1 ∧
    (cfg.perBlock ≤ cfg.maxChunk → ∀ i, s.Blocked cfg i →
      s.AtWork ∨ ∃ j, s.step cfg (.acquire j) ≠ none) := by
  have hs := sound_run hrun
  have h := aligned_run hK hrun
  refine ⟨fun w hw => ⟨(h.writers w hw).inHand, fun hwaits => ?_⟩, ?_, fun hfit i hb => ?_⟩
  · have hhand := (h.writers w hw).waits hwaits
    refine ⟨hhand, fun hnot => List.length_eq_zero_iff.mp ?_⟩
    cases hp : w.phase with
    | locking pending => rw [w.length_held, hhand, hp, Phase.ret_locking, List.length_nil]
    | _ => simp [hp, Phase.waits, Phase.acquires] at hwaits hnot
  · rw [h.mutex]
    exact Bool.toNat_le s.locked
  · obtain ⟨j, w, hw, hacq, hpool⟩ := h.blocked hb
    by_cases hstep : s.step cfg (.acquire j) = none
    · exact .inl (hs.atWork h hfit hw hacq (hpool hstep))
    · exact .inr ⟨j, hstep⟩

/-- The second writer is blocked, and the first one has the chunks of a block. -/
theorem no_hold_and_wait_secondWaits :
    (after ⟨1, 2, 3⟩ secondWaits).Blocked ⟨1, 2, 3⟩ 1 ∧
      (after ⟨1, 2, 3⟩ secondWaits).writers.map Writer.inHand = [2, 0] ∧
      ((after ⟨1, 2, 3⟩ secondWaits).AtWork ∨
        ∃ j, (after ⟨1, 2, 3⟩ secondWaits).step ⟨1, 2, 3⟩ (.acquire j) ≠ none) := by
  have hb : (after ⟨1, 2, 3⟩ secondWaits).Blocked ⟨1, 2, 3⟩ 1 := ⟨⟨_, rfl, rfl⟩, rfl, rfl⟩
  have hrun : run (step ⟨1, 2, 3⟩) {} secondWaits = some (after ⟨1, 2, 3⟩ secondWaits) := rfl
  exact ⟨hb, by decide, (no_hold_and_wait (by decide) hrun).2.2 (by decide) 1 hb⟩

end State

end Ecos.Client.ChunkPool
