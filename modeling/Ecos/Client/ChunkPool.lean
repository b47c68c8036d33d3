import Ecos.Client.Writer
import Ecos.Logic.Custody
import Ecos.Logic.Machine

namespace Ecos.Client.ChunkPool
open Logic

structure Config where
  chunkSize : ℕ
  blockSize : ℕ
  uploadBuffer : ℕ

/-- `BlockSize / ChunkSize` -/
def Config.perBlock (cfg : Config) : ℕ := cfg.blockSize / cfg.chunkSize

/-- The capacity of the channel and the pool's `maxCount`. -/
def Config.maxChunk (cfg : Config) : ℕ := cfg.uploadBuffer / cfg.chunkSize

variable (cfg : Config)

structure Pool where
  resources : List ℕ := []
  curCount : ℕ := 0
  /-- calls of the factory -/
  made : ℕ := 0
  freeSize : ℕ → ℕ := fun _ => 0
  /-- a send has found the channel full -/
  overflow : Bool := false

namespace Pool

def send (p : Pool) (chunk : ℕ) : Pool :=
  if p.resources.length < cfg.maxChunk then { p with resources := p.resources ++ [chunk] }
  else { p with overflow := true }

def release (p : Pool) (chunk : ℕ) : Pool := p.send cfg chunk

def releaseAll (p : Pool) (chunks : List ℕ) : Pool := chunks.foldl (release cfg) p

def newLocalChunk (p : Pool) : Pool :=
  { p with made := p.made + 1, freeSize := Function.update p.freeSize p.made cfg.chunkSize }

/-- The first part of `Acquire`. -/
def grow (p : Pool) : Pool :=
  if p.curCount < cfg.maxChunk ∧ p.resources.length < cfg.maxChunk then
    let p' := (p.newLocalChunk cfg).send cfg p.made
    { p' with curCount := p'.curCount + 1 }
  else p

/-- `Acquire` with the chunk it returns; `none` where it blocks. -/
def acquire (p : Pool) : Option (ℕ × Pool) :=
  match (p.grow cfg).resources with
  | [] => none
  | chunk :: rest => some (chunk, { p.grow cfg with resources := rest })

end Pool

/-- Where a writer is. The pending bytes are those of its `Write` call. -/
inductive Phase where
  | idle
  | writing (pending : ℕ)
  /-- before the mutex of `AcquireMultiple` -/
  | locking (pending : ℕ)
  /-- in `AcquireMultiple`, with the chunks it has collected -/
  | acquiring (pending : ℕ) (ret : List ℕ)
  deriving DecidableEq, Repr

def Phase.ret : Phase → List ℕ
  | acquiring _ ret => ret
  | _ => []

@[simp] theorem Phase.ret_idle : Phase.idle.ret = [] := rfl
@[simp] theorem Phase.ret_writing (n : ℕ) : (Phase.writing n).ret = [] := rfl
@[simp] theorem Phase.ret_locking (n : ℕ) : (Phase.locking n).ret = [] := rfl
@[simp] theorem Phase.ret_acquiring (n : ℕ) (l : List ℕ) : (Phase.acquiring n l).ret = l := rfl

structure Writer where
  phase : Phase := .idle
  status : BlockStatus := .READING
  curChunk : Option ℕ := none
  reserveChunks : List ℕ := []
  /-- the chunks of the current block -/
  curBlock : Option (List ℕ) := none
  blockCount : ℕ := 0
  /-- blocks whose upload has come to its end -/
  finishedBlocks : ℕ := 0
  deriving DecidableEq, Repr

structure Upload where
  writer : ℕ
  chunks : List ℕ
  deriving DecidableEq, Repr

structure Turn where
  pool : Pool
  uploads : List Upload
  writer : Writer

namespace Turn

variable (i : ℕ)

def commitCurBlock (t : Turn) : Turn :=
  let w := t.writer
  let pool := t.pool.releaseAll cfg w.reserveChunks
  match w.curBlock with
  | none => ⟨pool, t.uploads, { w with reserveChunks := [] }⟩
  | some block =>
    ⟨pool, t.uploads ++ [⟨i, block⟩], { w with reserveChunks := [], curBlock := none }⟩

/-- The second half of `getCurBlock`: where there is no block, a new one is there. -/
def openBlock (t : Turn) : Turn :=
  match t.writer.curBlock with
  | some _ => t
  | none =>
    { t with writer := { t.writer with
        blockCount := t.writer.blockCount + 1, curBlock := some [] } }

/-- `getCurBlock`. A full block is committed first. -/
def getCurBlock (t : Turn) : Turn :=
  if t.writer.curBlock.map List.length = some cfg.perBlock
  then (t.commitCurBlock cfg i).openBlock else t.openBlock

def commitCurChunk (t : Turn) : Turn :=
  match t.writer.curChunk with
  | none => t
  | some chunk =>
    let t := t.getCurBlock cfg i
    let block := t.writer.curBlock.getD [] ++ [chunk]
    let t := { t with writer := { t.writer with curBlock := some block } }
    let t := if block.length = cfg.perBlock then t.commitCurBlock cfg i else t
    { t with writer := { t.writer with curChunk := none } }

def fill (t : Turn) (chunk pending : ℕ) : Turn :=
  let free := t.pool.freeSize chunk
  let n := min free pending
  let pool := { t.pool with freeSize := Function.update t.pool.freeSize chunk (free - n) }
  let t := { t with pool, writer := { t.writer with phase := .writing (pending - n) } }
  if free - n = 0 then t.commitCurChunk cfg i else t

/-- The round of `Write` with bytes pending. -/
def writeRound (t : Turn) (pending : ℕ) : Turn :=
  match t.writer.curChunk, t.writer.reserveChunks with
  | some chunk, _ => t.fill cfg i chunk pending
  | none, chunk :: rest =>
    { t with writer := { t.writer with curChunk := some chunk, reserveChunks := rest } }
  | none, [] => { t with writer := { t.writer with phase := .locking pending } }

/-- The next step of `Write`; `none` where the writer is not in its loop. -/
def write (t : Turn) : Option Turn :=
  match t.writer.phase with
  | .writing pending =>
    if pending = 0 then some { t with writer := { t.writer with phase := .idle } }
    else some (t.writeRound cfg i pending)
  | _ => none

def close (t : Turn) : Turn :=
  let t := (t.commitCurChunk cfg i).commitCurBlock cfg i
  { t with writer := { t.writer with status := .UPLOADING } }

end Turn

structure State where
  pool : Pool := {}
  /-- the mutex of the pool is held -/
  locked : Bool := false
  writers : List Writer := []
  uploads : List Upload := []

inductive Action where
  | getEcosWriter
  /-- `Write` is called with so many bytes -/
  | write (i length : ℕ)
  | continueWrite (i : ℕ)
  | lock (i : ℕ)
  | acquire (i : ℕ)
  | close (i : ℕ)
  /-- `Close` has received all its blocks -/
  | finish (i : ℕ)
  /-- an upload has ended, whether it has succeeded or not -/
  | delFunc (j : ℕ)
  deriving DecidableEq, Repr

namespace State

/-- The writer `i` takes its turn. -/
def turn (s : State) (w : Writer) : Turn := ⟨s.pool, s.uploads, w⟩

def put (s : State) (i : ℕ) (t : Turn) : State :=
  { s with pool := t.pool, uploads := t.uploads, writers := s.writers.set i t.writer }

/-- One chunk more in `AcquireMultiple`. -/
def acquire (s : State) (i : ℕ) (w : Writer) (pending : ℕ) (ret : List ℕ) : Option State := do
  let x ← s.pool.acquire cfg
  let ret := ret ++ [x.1]
  if ret.length = cfg.perBlock then
    let w := { w with phase := .writing pending, reserveChunks := w.reserveChunks ++ ret }
    return { s.put i ⟨x.2, s.uploads, w⟩ with locked := false }
  else return s.put i ⟨x.2, s.uploads, { w with phase := .acquiring pending ret }⟩

/-- The next step of a block's `delFunc`: a chunk is reset and goes back to the pool, or the block
goes to `finishedBlocks`. -/
def delFunc (s : State) (j : ℕ) : Option State := do
  let u ← s.uploads[j]?
  match u.chunks with
  | chunk :: rest =>
    let freeSize := Function.update s.pool.freeSize chunk cfg.chunkSize
    return { s with
      pool := { s.pool with freeSize }.release cfg chunk
      uploads := s.uploads.set j { u with chunks := rest } }
  | [] =>
    let w ← s.writers[u.writer]?
    return { s with
      writers := s.writers.set u.writer { w with finishedBlocks := w.finishedBlocks + 1 }
      uploads := s.uploads.eraseIdx j }

def step (s : State) : Action → Option State
  | .getEcosWriter => some { s with writers := s.writers ++ [{}] }
  | .write i length => do
    let w ← s.writers[i]?
    if w.phase = .idle then
      -- a closed writer returns `IllegalStatus`
      if w.status = .READING then
        return { s with writers := s.writers.set i { w with phase := .writing length } }
      else return s
    else none
  | .continueWrite i => do
    let w ← s.writers[i]?
    let t ← (s.turn w).write cfg i
    return s.put i t
  | .lock i => do
    let w ← s.writers[i]?
    match w.phase with
    | .locking pending =>
      if s.locked then none
      -- `AcquireMultiple(0)` is an error that `Write` returns
      else if cfg.perBlock = 0 then
        return { s with writers := s.writers.set i { w with phase := .idle } }
      else
        return { s with
          locked := true, writers := s.writers.set i { w with phase := .acquiring pending [] } }
    | _ => none
  | .acquire i => do
    let w ← s.writers[i]?
    match w.phase with
    | .acquiring pending ret => s.acquire cfg i w pending ret
    | _ => none
  | .close i => do
    let w ← s.writers[i]?
    if w.phase = .idle then
      -- a second `Close` returns `RepeatedClose`
      if w.status = .READING then return s.put i ((s.turn w).close cfg i) else return s
    else none
  | .finish i => do
    let w ← s.writers[i]?
    if w.status = .UPLOADING ∧ w.finishedBlocks = w.blockCount then
      return { s with writers := s.writers.set i { w with status := .FINISHED } }
    else none
  | .delFunc j => s.delFunc cfg j

end State

def Writer.untouched (w : Writer) : List ℕ := w.phase.ret ++ w.reserveChunks

def Writer.held (w : Writer) : List ℕ :=
  w.untouched ++ w.curChunk.toList ++ w.curBlock.getD []

def Turn.held (t : Turn) : List ℕ :=
  t.pool.resources ++ t.writer.held ++ t.uploads.flatMap Upload.chunks

def State.held (s : State) : List ℕ :=
  s.pool.resources ++ s.writers.flatMap Writer.held ++ s.uploads.flatMap Upload.chunks

variable {cfg}

theorem Pool.releaseAll_eq {p : Pool} {chunks : List ℕ}
    (h : p.resources.length + chunks.length ≤ cfg.maxChunk) :
    p.releaseAll cfg chunks = { p with resources := p.resources ++ chunks } := by
  induction chunks generalizing p with
  | nil => simp [releaseAll]
  | cons chunk chunks ih =>
    rw [List.length_cons] at h
    have hsend : p.release cfg chunk = { p with resources := p.resources ++ [chunk] } :=
      if_pos (by omega)
    rw [releaseAll, List.foldl_cons, hsend]
    refine (ih ?_).trans ?_
    · simp only [List.length_append, List.length_singleton]
      omega
    · simp

namespace Turn

variable {t t' t'' : Turn} {i : ℕ}

variable (cfg) in
/-- There is room in the channel for everything that the turn can see. -/
def Roomy (t : Turn) : Prop := t.held.length ≤ cfg.maxChunk

/-- Chunks have changed hands: none was lost, doubled or written to, and no send had to wait. -/
structure Moves (t t' : Turn) : Prop where
  held : t'.held.Perm t.held
  pool : t'.pool = { t.pool with resources := t'.pool.resources }
  untouched : ∀ c ∈ t'.pool.resources ++ t'.writer.untouched,
    c ∈ t.pool.resources ++ t.writer.untouched
  phase : t'.writer.phase = t.writer.phase
  status : t'.writer.status = t.writer.status

theorem Moves.refl (t : Turn) : Moves t t := ⟨List.Perm.refl _, rfl, fun _ h => h, rfl, rfl⟩

theorem Moves.trans (h : Moves t t') (h' : Moves t' t'') : Moves t t'' where
  held := h'.held.trans h.held
  pool := by rw [h'.pool, h.pool]
  untouched c hc := h.untouched c (h'.untouched c hc)
  phase := h'.phase.trans h.phase
  status := h'.status.trans h.status

theorem Moves.roomy (h : Moves t t') (hr : t.Roomy cfg) : t'.Roomy cfg := by
  unfold Roomy
  rw [h.held.length_eq]
  exact hr

theorem commitCurBlock_eq (hr : t.Roomy cfg) :
    t.commitCurBlock cfg i =
      ⟨{ t.pool with resources := t.pool.resources ++ t.writer.reserveChunks },
        t.uploads ++ t.writer.curBlock.toList.map (Upload.mk i),
        { t.writer with reserveChunks := [], curBlock := none }⟩ := by
  have hlen : t.pool.resources.length + t.writer.reserveChunks.length ≤ cfg.maxChunk := by
    simp only [Roomy, held, Writer.held, Writer.untouched, List.length_append] at hr
    omega
  simp only [commitCurBlock, Pool.releaseAll_eq hlen]
  cases hb : t.writer.curBlock <;> simp

theorem moves_commitCurBlock (hr : t.Roomy cfg) : Moves t (t.commitCurBlock cfg i) := by
  rw [commitCurBlock_eq hr]
  refine ⟨?_, rfl, ?_, rfl, rfl⟩
  · rw [List.perm_iff_count]
    intro c
    cases hb : t.writer.curBlock <;>
      simp only [held, Writer.held, Writer.untouched, hb, List.count_append, List.flatMap_append,
        Option.toList, Option.getD, List.map_nil, List.map_cons, List.flatMap_nil, List.flatMap_cons,
        List.append_nil] <;> omega
  · intro c hc
    simp only [Writer.untouched, List.mem_append, List.append_nil] at hc ⊢
    tauto

theorem openBlock_spec (t : Turn) :
    Moves t t.openBlock ∧ t.openBlock.writer.curChunk = t.writer.curChunk ∧
      ∃ block, t.openBlock.writer.curBlock = some block := by
  cases hb : t.writer.curBlock with
  | none =>
    simp only [openBlock, hb]
    refine ⟨⟨?_, rfl, fun c hc => hc, rfl, rfl⟩, trivial, [], rfl⟩
    simp only [held, Writer.held, Writer.untouched, hb, Option.getD]
    exact List.Perm.refl _
  | some block =>
    simp only [openBlock, hb]
    exact ⟨Moves.refl t, trivial, block, rfl⟩

theorem getCurBlock_spec (hr : t.Roomy cfg) :
    Moves t (t.getCurBlock cfg i) ∧ (t.getCurBlock cfg i).writer.curChunk = t.writer.curChunk ∧
      ∃ block, (t.getCurBlock cfg i).writer.curBlock = some block := by
  unfold getCurBlock
  split_ifs
  · obtain ⟨hmoves, hchunk, hblock⟩ := (t.commitCurBlock cfg i).openBlock_spec
    refine ⟨(moves_commitCurBlock hr).trans hmoves, hchunk.trans ?_, hblock⟩
    rw [commitCurBlock_eq hr]
  · exact t.openBlock_spec

/-- Emptying `curChunk` does not touch the block. -/
theorem commitCurBlock_curChunk (t : Turn) :
    { t.commitCurBlock cfg i with
      writer := { (t.commitCurBlock cfg i).writer with curChunk := none } } =
    { t with writer := { t.writer with curChunk := none } }.commitCurBlock cfg i := by
  cases hb : t.writer.curBlock <;> simp only [commitCurBlock, hb]

/-- The current chunk goes into the current block. -/
theorem moves_append {chunk : ℕ} {block : List ℕ} (hc : t.writer.curChunk = some chunk)
    (hb : t.writer.curBlock = some block) :
    Moves t { t with writer := { t.writer with
      curBlock := some (block ++ [chunk]), curChunk := none } } := by
  refine ⟨?_, rfl, fun c h => h, rfl, rfl⟩
  rw [List.perm_iff_count]
  intro c
  simp only [held, Writer.held, Writer.untouched, hc, hb, Option.toList, Option.getD,
    List.count_append, List.append_nil]
  omega

theorem moves_commitCurChunk (hr : t.Roomy cfg) : Moves t (t.commitCurChunk cfg i) := by
  cases hc : t.writer.curChunk with
  | none =>
    simp only [commitCurChunk, hc]
    exact Moves.refl t
  | some chunk =>
    obtain ⟨hmoves, hchunk, block, hblock⟩ := @getCurBlock_spec cfg t i hr
    have happend := hmoves.trans (moves_append (hchunk.trans hc) hblock)
    simp only [commitCurChunk, hc, hblock, Option.getD_some]
    split_ifs
    · rw [commitCurBlock_curChunk]
      exact happend.trans (moves_commitCurBlock (happend.roomy hr))
    · exact happend

theorem commitCurChunk_curChunk (t : Turn) : (t.commitCurChunk cfg i).writer.curChunk = none := by
  cases hc : t.writer.curChunk with
  | none => simp only [commitCurChunk, hc]
  | some chunk => simp only [commitCurChunk, hc]

variable (cfg) in
/-- What a turn leaves behind: the same chunks, none of anybody else changed, and those that
no byte was written to with all their room. A writer that is closed holds nothing. -/
structure Fair (t t' : Turn) : Prop where
  held : t'.held.Perm t.held
  made : t'.pool.made = t.pool.made
  curCount : t'.pool.curCount = t.pool.curCount
  overflow : t'.pool.overflow = t.pool.overflow
  freeSize : ∀ c ∉ t.held, t'.pool.freeSize c = t.pool.freeSize c
  room : ∀ c ∈ t'.pool.resources ++ t'.writer.untouched, t'.pool.freeSize c = cfg.chunkSize
  closed : t'.writer.status ≠ .READING → t'.writer.held = [] ∧ t'.writer.phase = .idle

theorem Fair.moves (h : Fair cfg t t') (hm : Moves t' t'') (hs : t'.writer.status = .READING) :
    Fair cfg t t'' where
  held := hm.held.trans h.held
  made := by rw [hm.pool]; exact h.made
  curCount := by rw [hm.pool]; exact h.curCount
  overflow := by rw [hm.pool]; exact h.overflow
  freeSize c hc := by rw [hm.pool]; exact h.freeSize c hc
  room c hc := by rw [hm.pool]; exact h.room c (hm.untouched c hc)
  closed hne := absurd (hm.status.trans hs) hne

variable (cfg) in
structure Ready (t : Turn) : Prop where
  roomy : t.Roomy cfg
  nodup : t.held.Nodup
  room : ∀ c ∈ t.pool.resources ++ t.writer.untouched, t.pool.freeSize c = cfg.chunkSize
  closed : t.writer.status ≠ .READING → t.writer.held = [] ∧ t.writer.phase = .idle

/-- The chunk in hand is not among those that no byte was written to. -/
theorem Ready.curChunk_not_mem (h : t.Ready cfg) {chunk : ℕ} (hc : t.writer.curChunk = some chunk) :
    chunk ∉ t.pool.resources ++ t.writer.untouched := by
  have hle := List.nodup_iff_count_le_one.mp h.nodup chunk
  simp only [held, Writer.held, hc, Option.toList, List.count_append, List.count_singleton_self] at hle
  rw [← List.count_eq_zero, List.count_append]
  omega

/-- A writer that only goes on to another phase, or takes a chunk in hand. -/
theorem Ready.fair_writer (h : t.Ready cfg) {w : Writer} (hheld : w.held.Perm t.writer.held)
    (hun : ∀ c ∈ w.untouched, c ∈ t.writer.untouched)
    (hclosed : w.status ≠ .READING → w.held = [] ∧ w.phase = .idle) :
    Fair cfg t { t with writer := w } := by
  refine ⟨?_, rfl, rfl, rfl, fun _ _ => rfl, fun c hc => h.room c ?_, hclosed⟩
  · exact (hheld.append_left _).append_right _
  · rcases List.mem_append.mp hc with hc | hc
    · exact List.mem_append_left _ hc
    · exact List.mem_append_right _ (hun c hc)

theorem Ready.fair_fill (h : t.Ready cfg) {chunk pending : ℕ}
    (hc : t.writer.curChunk = some chunk) (hp : t.writer.phase.ret = [])
    (hs : t.writer.status = .READING) : Fair cfg t (t.fill cfg i chunk pending) := by
  have hmem : chunk ∈ t.held := by simp [held, Writer.held, hc]
  have hfilled : ∀ n k, Fair cfg t
      ⟨{ t.pool with freeSize := Function.update t.pool.freeSize chunk n }, t.uploads,
        { t.writer with phase := .writing k }⟩ := by
    intro n k
    refine ⟨?_, rfl, rfl, rfl, fun c hne => ?_, fun c hin => ?_, fun hne => absurd hs hne⟩
    · simp only [held, Writer.held, Writer.untouched, hp, Phase.ret_writing]
      exact List.Perm.refl _
    · have hcc : c ≠ chunk := fun he => hne (he ▸ hmem)
      exact Function.update_of_ne hcc _ _
    · have hin' : c ∈ t.pool.resources ++ t.writer.untouched := by
        simpa only [Writer.untouched, hp, Phase.ret_writing] using hin
      have hcc : c ≠ chunk := fun he => h.curChunk_not_mem hc (he ▸ hin')
      exact (Function.update_of_ne hcc _ _).trans (h.room c hin')
  simp only [fill]
  split_ifs
  · have hf := hfilled (t.pool.freeSize chunk - min (t.pool.freeSize chunk) pending)
      (pending - min (t.pool.freeSize chunk) pending)
    refine hf.moves (moves_commitCurChunk ?_) hs
    unfold Roomy
    rw [hf.held.length_eq]
    exact h.roomy
  · exact hfilled _ _

theorem Ready.fair_write (h : t.Ready cfg) (hw : t.write cfg i = some t') : Fair cfg t t' := by
  unfold write at hw
  split at hw
  · rename_i pending hp
    have hs : t.writer.status = .READING := by
      by_contra hne
      exact absurd ((h.closed hne).2.symm.trans hp) (by simp)
    have hret : t.writer.phase.ret = [] := by rw [hp, Phase.ret_writing]
    split_ifs at hw
    · cases hw
      refine h.fair_writer ?_ ?_ fun hne => absurd hs hne
      · simp [Writer.held, Writer.untouched, hret]
      · simp [Writer.untouched, hret]
    · cases hw
      unfold writeRound
      split
      · rename_i hc
        exact h.fair_fill hc hret hs
      · rename_i chunk rest hc hr
        refine h.fair_writer ?_ ?_ fun hne => absurd hs hne
        · rw [List.perm_iff_count]
          intro c
          simp only [Writer.held, Writer.untouched, hret, hc, hr, Option.toList, List.count_append,
            List.count_cons, List.count_nil]
          omega
        · intro c hin
          simp only [Writer.untouched, hret, hr, List.nil_append] at hin ⊢
          exact List.mem_cons_of_mem _ hin
      · rename_i hc hr
        refine h.fair_writer ?_ ?_ fun hne => absurd hs hne
        · simp [Writer.held, Writer.untouched, hret]
        · simp [Writer.untouched, hret]
  · cases hw

theorem Ready.fair_close (h : t.Ready cfg) (hp : t.writer.phase = .idle)
    (hs : t.writer.status = .READING) : Fair cfg t (t.close cfg i) := by
  have h₁ : Moves t (t.commitCurChunk cfg i) := moves_commitCurChunk h.roomy
  have hr₁ := h₁.roomy h.roomy
  have hf : Fair cfg t t := ⟨List.Perm.refl _, rfl, rfl, rfl, fun _ _ => rfl, h.room, h.closed⟩
  have h₂ := hf.moves (h₁.trans (moves_commitCurBlock (i := i) hr₁)) hs
  have hheld : ((t.commitCurChunk cfg i).commitCurBlock cfg i).writer.held = [] := by
    rw [commitCurBlock_eq hr₁]
    simp [Writer.held, Writer.untouched, commitCurChunk_curChunk, h₁.phase, hp]
  have hphase : ((t.commitCurChunk cfg i).commitCurBlock cfg i).writer.phase = .idle := by
    rw [commitCurBlock_eq hr₁]
    exact h₁.phase.trans hp
  exact ⟨h₂.held, h₂.made, h₂.curCount, h₂.overflow, h₂.freeSize, h₂.room,
    fun _ => ⟨hheld, hphase⟩⟩

end Turn

namespace State

variable {s s' : State} {i : ℕ} {w : Writer}

variable (cfg) in
structure Sound (s : State) : Prop where
  held : s.held.Perm (List.range s.pool.made)
  curCount : s.pool.curCount = s.pool.made
  made_le : s.pool.made ≤ cfg.maxChunk
  overflow : s.pool.overflow = false
  room : ∀ c ∈ s.pool.resources ++ s.writers.flatMap Writer.untouched,
    s.pool.freeSize c = cfg.chunkSize
  closed : ∀ w ∈ s.writers, w.status ≠ .READING → w.held = [] ∧ w.phase = .idle

def others (s : State) (i : ℕ) : List ℕ := (s.writers.eraseIdx i).flatMap Writer.held

theorem held_perm (hw : s.writers[i]? = some w) : s.held.Perm ((s.turn w).held ++ s.others i) := by
  have hperm := perm_flatMap_eraseIdx Writer.held hw
  rw [List.perm_iff_count] at hperm ⊢
  intro c
  have hc := hperm c
  simp only [held, turn, Turn.held, others, List.count_append] at hc ⊢
  omega

theorem put_held_perm (hw : s.writers[i]? = some w) (t : Turn) :
    (s.put i t).held.Perm (t.held ++ s.others i) := by
  have hperm := perm_flatMap_set Writer.held hw t.writer
  rw [List.perm_iff_count] at hperm ⊢
  intro c
  have hc := hperm c
  simp only [held, put, Turn.held, others, List.count_append] at hc ⊢
  omega

theorem Sound.nodup (hs : s.Sound cfg) : s.held.Nodup :=
  hs.held.nodup_iff.mpr List.nodup_range

theorem Sound.ready (hs : s.Sound cfg) (hw : s.writers[i]? = some w) : (s.turn w).Ready cfg where
  roomy := by
    have hlen := (held_perm hw).length_eq
    rw [hs.held.length_eq, List.length_range, List.length_append] at hlen
    have := hs.made_le
    unfold Turn.Roomy
    omega
  nodup := ((held_perm hw).nodup_iff.mp hs.nodup).of_append_left
  room c hc := by
    apply hs.room c
    rcases List.mem_append.mp hc with hc | hc
    · exact List.mem_append_left _ hc
    · exact List.mem_append_right _ (List.mem_flatMap.mpr ⟨w, List.mem_of_getElem? hw, hc⟩)
  closed := hs.closed w (List.mem_of_getElem? hw)

theorem untouched_subset_held (w : Writer) : w.untouched ⊆ w.held := by
  intro c hc
  simp only [Writer.held, List.append_assoc]
  exact List.mem_append_left _ hc

/-- A fair turn of one writer leaves everything sound. -/
theorem Sound.put (hs : s.Sound cfg) (hw : s.writers[i]? = some w) {t : Turn}
    (hf : Turn.Fair cfg (s.turn w) t) : (s.put i t).Sound cfg where
  held := by
    have h₁ : (t.held ++ s.others i).Perm ((s.turn w).held ++ s.others i) := hf.held.append_right _
    have hmade : (s.put i t).pool.made = s.pool.made := hf.made
    rw [hmade]
    exact ((put_held_perm hw t).trans h₁).trans ((held_perm hw).symm.trans hs.held)
  curCount := hf.curCount.trans (hs.curCount.trans hf.made.symm)
  made_le := hf.made.symm ▸ hs.made_le
  overflow := hf.overflow.trans hs.overflow
  room c hc := by
    rcases List.mem_append.mp hc with hres | hset
    · exact hf.room c (List.mem_append_left _ hres)
    rcases List.mem_append.mp ((perm_flatMap_set Writer.untouched hw t.writer).mem_iff.mp hset) with
      hown | hother
    · exact hf.room c (List.mem_append_right _ hown)
    · -- a chunk of another writer, which this turn has not touched
      obtain ⟨w', hw', hc'⟩ := List.mem_flatMap.mp hother
      have hmem : c ∈ s.others i := List.mem_flatMap.mpr ⟨w', hw', untouched_subset_held w' hc'⟩
      have hnot : c ∉ (s.turn w).held := fun hin =>
        List.disjoint_of_nodup_append ((held_perm hw).nodup_iff.mp hs.nodup) hin hmem
      have hbefore : c ∈ s.writers.flatMap Writer.untouched :=
        List.mem_flatMap.mpr ⟨w', List.mem_of_mem_eraseIdx hw', hc'⟩
      exact (hf.freeSize c hnot).trans (hs.room c (List.mem_append_right _ hbefore))
  closed w' hw' hne := by
    rcases List.mem_or_eq_of_mem_set hw' with hmem | rfl
    · exact hs.closed w' hmem hne
    · exact hf.closed hne

/-- A writer in the middle of a `Write` is not closed. -/
theorem Sound.reading (hs : s.Sound cfg) (hw : s.writers[i]? = some w) (hp : w.phase ≠ .idle) :
    w.status = .READING := by
  by_contra hne
  exact hp (hs.closed w (List.mem_of_getElem? hw) hne).2

/-- A step that changes no more than a writer's place in its code. -/
theorem Sound.setWriter (hs : s.Sound cfg) (hw : s.writers[i]? = some w) (w' : Writer)
    (hheld : w'.held = w.held) (hun : w'.untouched = w.untouched)
    (hclosed : w'.status ≠ .READING → w'.held = [] ∧ w'.phase = .idle) :
    Sound cfg { s with writers := s.writers.set i w' } := by
  have hf := (hs.ready hw).fair_writer (w := w') (by rw [hheld]; exact List.Perm.refl _)
    (by rw [hun]; exact fun _ h => h) hclosed
  exact hs.put hw hf

/-- `Acquire` makes a chunk while there may be more; the channel has room for it. -/
theorem Sound.grow (hs : s.Sound cfg) : Sound cfg { s with pool := s.pool.grow cfg } := by
  unfold Pool.grow
  split_ifs with hcond
  · obtain ⟨hcount, hlen⟩ := hcond
    have hsend : (s.pool.newLocalChunk cfg).send cfg s.pool.made =
        { s.pool.newLocalChunk cfg with resources := s.pool.resources ++ [s.pool.made] } :=
      if_pos hlen
    rw [hsend]
    refine ⟨?_, ?_, ?_, hs.overflow, fun c hc => ?_, hs.closed⟩
    · have hperm := hs.held
      rw [List.perm_iff_count] at hperm ⊢
      intro c
      have hc := hperm c
      simp only [State.held, Pool.newLocalChunk, List.range_succ, List.count_append] at hc ⊢
      omega
    · exact congrArg Nat.succ hs.curCount
    · have := hs.curCount
      exact (by omega : s.pool.made + 1 ≤ cfg.maxChunk)
    · by_cases hnew : c = s.pool.made
      · rw [hnew]
        exact Function.update_self _ _ _
      · have hold : c ∈ s.pool.resources ++ s.writers.flatMap Writer.untouched := by
          simp only [List.mem_append, List.mem_singleton, hnew, or_false] at hc
          exact List.mem_append.mpr hc
        exact (Function.update_of_ne hnew _ _).trans (hs.room c hold)
  · exact hs

/-- One chunk goes from the channel to the writer. -/
theorem Sound.receive (hs : s.Sound cfg) (hw : s.writers[i]? = some w) {c : ℕ} {rest : List ℕ}
    (hres : s.pool.resources = c :: rest) {w' : Writer}
    (hun : w'.untouched.Perm (c :: w.untouched)) (hchunk : w'.curChunk = w.curChunk)
    (hblock : w'.curBlock = w.curBlock) (hst : w'.status = .READING) :
    Sound cfg (s.put i ⟨{ s.pool with resources := rest }, s.uploads, w'⟩) := by
  have hroom := (hs.ready hw).room
  refine hs.put hw ⟨?_, rfl, rfl, rfl, fun _ _ => rfl, fun x hx => hroom x ?_,
    fun hne => absurd hst hne⟩
  · rw [List.perm_iff_count] at hun ⊢
    intro x
    have hx := hun x
    simp only [turn, Turn.held, Writer.held, hres, hchunk, hblock, List.count_append,
      List.count_cons] at hx ⊢
    omega
  · simp only [turn, hres, List.mem_append, List.mem_cons, hun.mem_iff] at hx ⊢
    tauto

theorem Sound.acquire (hs : s.Sound cfg) (hw : s.writers[i]? = some w) {pending : ℕ}
    {ret : List ℕ} (hp : w.phase = .acquiring pending ret)
    (h : s.acquire cfg i w pending ret = some s') : s'.Sound cfg := by
  have hst : w.status = .READING := hs.reading hw (by simp [hp])
  simp only [State.acquire, bind, Option.bind_eq_some_iff] at h
  obtain ⟨x, hx, h⟩ := h
  unfold Pool.acquire at hx
  split at hx
  · cases hx
  · rename_i c rest hres
    cases hx
    have hreceive : ∀ w' : Writer, w'.untouched.Perm (c :: w.untouched) →
        w'.curChunk = w.curChunk → w'.curBlock = w.curBlock → w'.status = .READING → _ :=
      fun w' => hs.grow.receive hw hres
    split_ifs at h
    · cases h
      have hsound := hreceive
        { w with phase := .writing pending, reserveChunks := w.reserveChunks ++ (ret ++ [c]) }
        (by
          rw [List.perm_iff_count]
          intro x
          simp only [Writer.untouched, hp, Phase.ret_writing, Phase.ret_acquiring, List.count_append,
            List.count_cons, List.count_nil]
          omega) rfl rfl hst
      exact ⟨hsound.held, hsound.curCount, hsound.made_le, hsound.overflow, hsound.room, hsound.closed⟩
    · cases h
      exact hreceive { w with phase := .acquiring pending (ret ++ [c]) }
        (by
          rw [List.perm_iff_count]
          intro x
          simp only [Writer.untouched, hp, Phase.ret_acquiring, List.count_append, List.count_cons,
            List.count_nil]
          omega) rfl rfl hst

/-- A chunk of an upload goes back to the channel, with all its room. -/
theorem Sound.release (hs : s.Sound cfg) {j chunk : ℕ} {u : Upload} {rest : List ℕ}
    (hu : s.uploads[j]? = some u) (hc : u.chunks = chunk :: rest) :
    Sound cfg { s with
      pool := { s.pool with freeSize := Function.update s.pool.freeSize chunk cfg.chunkSize }.release
        cfg chunk
      uploads := s.uploads.set j { u with chunks := rest } } := by
  have hold := perm_flatMap_eraseIdx Upload.chunks hu
  have hnew := perm_flatMap_set Upload.chunks hu { u with chunks := rest }
  rw [hc] at hold
  have hroom : s.pool.resources.length < cfg.maxChunk := by
    have hlen := hs.held.length_eq
    have hle := hs.made_le
    simp only [State.held, List.length_append, hold.length_eq, List.length_cons,
      List.length_range] at hlen
    omega
  rw [Pool.release, Pool.send, if_pos hroom]
  refine ⟨?_, hs.curCount, hs.made_le, hs.overflow, fun c hin => ?_, hs.closed⟩
  · refine List.Perm.trans ?_ hs.held
    rw [List.perm_iff_count] at hold hnew ⊢
    intro c
    have hold := hold c
    have hnew := hnew c
    simp only [State.held, List.count_append, List.count_cons, List.count_nil] at hold hnew ⊢
    omega
  · by_cases hchunk : c = chunk
    · rw [hchunk]
      exact Function.update_self ..
    · refine (Function.update_of_ne hchunk ..).trans (hs.room c ?_)
      simpa [hchunk] using hin

theorem Sound.delFunc (hs : s.Sound cfg) {j : ℕ} (h : s.delFunc cfg j = some s') :
    s'.Sound cfg := by
  simp only [State.delFunc, bind, Option.bind_eq_some_iff] at h
  obtain ⟨u, hu, h⟩ := h
  split at h
  · rename_i chunk rest hc
    cases h
    exact hs.release hu hc
  · rename_i hc
    simp only [Option.bind_eq_some_iff] at h
    obtain ⟨w, hw, h⟩ := h
    cases h
    have hset := hs.setWriter hw { w with finishedBlocks := w.finishedBlocks + 1 } rfl rfl
      (hs.closed w (List.mem_of_getElem? hw))
    -- the block has no chunk left
    have hperm := perm_flatMap_eraseIdx Upload.chunks hu
    rw [hc, List.nil_append] at hperm
    refine ⟨?_, hset.curCount, hset.made_le, hset.overflow, hset.room, hset.closed⟩
    exact (List.Perm.append_left _ hperm.symm).trans hset.held

theorem sound_step {a : Action} (hs : s.Sound cfg) (h : s.step cfg a = some s') : s'.Sound cfg := by
  cases a with
  | getEcosWriter =>
    cases h
    have hnone : Writer.held {} = [] := rfl
    refine ⟨?_, hs.curCount, hs.made_le, hs.overflow, fun c hc => ?_, fun w hw hne => ?_⟩
    · simp only [held, List.flatMap_append, List.flatMap_singleton, hnone, List.append_nil]
      exact hs.held
    · apply hs.room c
      simpa [Writer.untouched] using hc
    · rcases List.mem_append.mp hw with hw | hw
      · exact hs.closed w hw hne
      · rw [List.mem_singleton.mp hw] at hne
        exact absurd rfl hne
  | write i length =>
    simp only [step, bind, Option.bind_eq_some_iff] at h
    obtain ⟨w, hw, h⟩ := h
    split_ifs at h with hp hst
    · cases h
      refine hs.setWriter hw _ ?_ ?_ fun hne => absurd hst hne
      · simp [Writer.held, Writer.untouched, hp]
      · simp [Writer.untouched, hp]
    · cases h
      exact hs
  | continueWrite i =>
    simp only [step, bind, Option.bind_eq_some_iff] at h
    obtain ⟨w, hw, t, ht, h⟩ := h
    cases h
    exact hs.put hw ((hs.ready hw).fair_write ht)
  | lock i =>
    simp only [step, bind, Option.bind_eq_some_iff] at h
    obtain ⟨w, hw, h⟩ := h
    split at h
    · rename_i pending hp
      have hst : w.status = .READING := hs.reading hw (by simp [hp])
      split_ifs at h
      · cases h
        refine hs.setWriter hw _ ?_ ?_ fun hne => absurd hst hne
        · simp [Writer.held, Writer.untouched, hp]
        · simp [Writer.untouched, hp]
      · cases h
        -- the mutex is in none of the conditions
        have hset := hs.setWriter hw { w with phase := .acquiring pending [] }
          (by simp [Writer.held, Writer.untouched, hp]) (by simp [Writer.untouched, hp])
          fun hne => absurd hst hne
        exact ⟨hset.held, hset.curCount, hset.made_le, hset.overflow, hset.room, hset.closed⟩
    · cases h
  | acquire i =>
    simp only [step, bind, Option.bind_eq_some_iff] at h
    obtain ⟨w, hw, h⟩ := h
    split at h
    · rename_i pending ret hp
      exact hs.acquire hw hp h
    · cases h
  | close i =>
    simp only [step, bind, Option.bind_eq_some_iff] at h
    obtain ⟨w, hw, h⟩ := h
    split_ifs at h with hp hst
    · cases h
      exact hs.put hw ((hs.ready hw).fair_close hp hst)
    · cases h
      exact hs
  | finish i =>
    simp only [step, bind, Option.bind_eq_some_iff] at h
    obtain ⟨w, hw, h⟩ := h
    split_ifs at h with hdone
    cases h
    have hclosed := hs.closed w (List.mem_of_getElem? hw) (by simp [hdone.1])
    exact hs.setWriter hw _ rfl rfl fun _ => hclosed
  | delFunc j => exact hs.delFunc h

theorem sound_run {acts : List Action} (h : run (step cfg) {} acts = some s) : s.Sound cfg := by
  have hinit : Sound cfg {} :=
    ⟨List.Perm.refl _, rfl, Nat.zero_le _, rfl, fun _ hc => absurd hc List.not_mem_nil,
      fun _ hw => absurd hw List.not_mem_nil⟩
  exact run_preserved (fun _ _ _ hs h => sound_step hs h) hinit h

end State

inductive Holder where
  | resources
  /-- the slice of an `AcquireMultiple` in progress -/
  | ret (i : ℕ)
  | reserveChunks (i : ℕ)
  | curChunk (i : ℕ)
  | curBlock (i : ℕ)
  | upload (j : ℕ)
  deriving DecidableEq, Repr

namespace Holder

variable {s : State}

def chunks (s : State) : Holder → List ℕ
  | resources => s.pool.resources
  | ret i => s.writers[i]?.elim [] fun w => w.phase.ret
  | reserveChunks i => s.writers[i]?.elim [] Writer.reserveChunks
  | curChunk i => s.writers[i]?.elim [] fun w => w.curChunk.toList
  | curBlock i => s.writers[i]?.elim [] fun w => w.curBlock.getD []
  | upload j => s.uploads[j]?.elim [] Upload.chunks

def all (s : State) : List Holder :=
  resources :: (List.range s.writers.length).flatMap
    (fun i => [ret i, reserveChunks i, curChunk i, curBlock i]) ++
    (List.range s.uploads.length).map upload

theorem flatMap_all (s : State) : (all s).flatMap (chunks s) = s.held := by
  have hwriter : ∀ i, [ret i, reserveChunks i, curChunk i, curBlock i].flatMap (chunks s) =
      s.writers[i]?.elim [] Writer.held := by
    intro i
    cases hw : s.writers[i]? <;> simp [chunks, hw, Writer.held, Writer.untouched]
  simp only [all, List.flatMap_append, List.flatMap_cons, List.flatMap_assoc, List.flatMap_map,
    State.held, ← flatMap_range_getElem? Writer.held, ← flatMap_range_getElem? Upload.chunks]
  simp only [← hwriter]
  rfl

theorem lt_of_mem_elim {α : Type*} {l : List α} {i c : ℕ} {f : α → List ℕ}
    (h : c ∈ l[i]?.elim [] f) : i < l.length := by
  by_contra hle
  rw [List.getElem?_eq_none (Nat.le_of_not_lt hle)] at h
  exact absurd h List.not_mem_nil

theorem mem_all {h : Holder} {c : ℕ} (hc : c ∈ h.chunks s) : h ∈ all s := by
  cases h with
  | resources => simp [all]
  | ret | reserveChunks | curChunk | curBlock | upload => simp [all, lt_of_mem_elim hc]

end Holder

variable (cfg) in
structure Conserved (s : State) : Prop where
  owner : ∀ c < s.pool.made, ∃! h : Holder, c ∈ h.chunks s
  once : ∀ h : Holder, (h.chunks s).Nodup
  made : s.pool.made = s.pool.curCount ∧ s.pool.curCount ≤ cfg.maxChunk
  freeSize : ∀ c ∈ s.pool.resources, s.pool.freeSize c = cfg.chunkSize
  /-- no send has found the channel full -/
  sends : s.pool.overflow = false
  returned : (∀ w ∈ s.writers, w.status ≠ .READING) → s.uploads = [] →
    s.pool.resources.Perm (List.range s.pool.made)

theorem State.Sound.nodup_all {s : State} (hs : s.Sound cfg) :
    ((Holder.all s).flatMap (Holder.chunks s)).Nodup := by
  rw [Holder.flatMap_all]
  exact hs.nodup

theorem State.Sound.conserved {s : State} (hs : s.Sound cfg) : Conserved cfg s where
  owner c hc := by
    refine existsUnique_holder hs.nodup_all (fun _ _ => Holder.mem_all) ?_
    rw [Holder.flatMap_all, hs.held.mem_iff]
    exact List.mem_range.mpr hc
  once h := by
    by_cases hh : h ∈ Holder.all s
    · exact (List.nodup_flatMap.mp hs.nodup_all).1 h hh
    · have hnil : h.chunks s = [] :=
        List.eq_nil_iff_forall_not_mem.mpr fun c hc => hh (Holder.mem_all hc)
      rw [hnil]
      exact List.nodup_nil
  made := ⟨hs.curCount.symm, hs.curCount.le.trans hs.made_le⟩
  freeSize c hc := hs.room c (List.mem_append_left _ hc)
  sends := hs.overflow
  returned hclosed huploads := by
    have hnone : s.writers.flatMap Writer.held = [] :=
      List.flatMap_eq_nil_iff.mpr fun w hw => (hs.closed w hw (hclosed w hw)).1
    have hheld := hs.held
    rwa [State.held, hnone, huploads, List.flatMap_nil, List.append_nil, List.append_nil] at hheld

/-- For any number of writers and in any order of their calls and uploads. -/
theorem conserved_run (cfg : Config) (acts : List Action) {s : State}
    (h : run (State.step cfg) {} acts = some s) : Conserved cfg s :=
  (State.sound_run h).conserved

def after (cfg : Config) (acts : List Action) : State := (run (State.step cfg) {} acts).getD {}

def writeThree : List Action :=
  [.getEcosWriter, .getEcosWriter, .write 0 3, .continueWrite 0, .lock 0, .acquire 0, .acquire 0,
    .continueWrite 0, .continueWrite 0, .continueWrite 0, .continueWrite 0, .continueWrite 0,
    .close 1, .close 0]

theorem conserved_run_writeThree :
    (after ⟨2, 4, 8⟩ writeThree).uploads = [⟨0, [0, 1]⟩] ∧
      (after ⟨2, 4, 8⟩ (writeThree ++ [.delFunc 0, .delFunc 0, .delFunc 0])).pool.resources =
        [0, 1] ∧
      Conserved ⟨2, 4, 8⟩ (after ⟨2, 4, 8⟩ (writeThree ++ [.delFunc 0, .delFunc 0, .delFunc 0])) :=
  ⟨by decide, by decide,
    conserved_run ⟨2, 4, 8⟩ (writeThree ++ [.delFunc 0, .delFunc 0, .delFunc 0]) rfl⟩

def secondWaits : List Action :=
  [.getEcosWriter, .getEcosWriter, .write 0 1, .continueWrite 0, .lock 0, .acquire 0, .acquire 0,
    .write 1 1, .continueWrite 1, .lock 1, .acquire 1]

/-- The chunk that a waiting `AcquireMultiple` has collected is in the channel no more and in no
field of the writer yet. -/
theorem collected_chunk_in_no_field :
    State.step ⟨1, 2, 3⟩ (after ⟨1, 2, 3⟩ secondWaits) (.acquire 1) = none ∧
      2 < (after ⟨1, 2, 3⟩ secondWaits).pool.made ∧
      ∀ h : Holder, (∀ i, h ≠ .ret i) → 2 ∉ h.chunks (after ⟨1, 2, 3⟩ secondWaits) := by
  refine ⟨rfl, by decide, fun h hne hin => ?_⟩
  have hrun : run (State.step ⟨1, 2, 3⟩) {} secondWaits = some (after ⟨1, 2, 3⟩ secondWaits) := rfl
  have hret : 2 ∈ (Holder.ret 1).chunks (after ⟨1, 2, 3⟩ secondWaits) := by decide
  have howner := (State.sound_run hrun).conserved.owner 2 (by decide)
  exact hne 1 (howner.unique hin hret)

end Ecos.Client.ChunkPool
