import Ecos.Client.Reader
import Ecos.Go.Int64
import Ecos.Logic.Tiling

namespace Ecos.Client
open Go Logic

namespace Word

structure CalcBlock where
  blockIndex : ℕ
  blockStart : Int64
  blockEnd : Int64
  bufferStart : Int64
  bufferEnd : Int64
  deriving DecidableEq, Repr

/-- The loop of `calcBlocks` with `int` offsets, which wrap around. -/
def calcLoop (expect : Int64) : List BlockInfo → (i : ℕ) → (blockOffset bufferOffset : Int64) →
    ℕ × Int64 → List CalcBlock × (ℕ × Int64) × Bool
  | [], _, _, _, cur => ([], cur, false)
  | block :: blocks, i, blockOffset, bufferOffset, _ =>
    let pending := expect - bufferOffset
    if (blockOffset + pending).toUInt64 ≥ block.blockSize then
      let size := block.blockSize.toInt64
      let next := bufferOffset + (size - blockOffset)
      let (spans, cur, finish) := calcLoop expect blocks (i + 1) 0 next (i, 0)
      (⟨i, blockOffset, size, bufferOffset, bufferOffset + size - blockOffset⟩ :: spans, cur, finish)
    else
      ([⟨i, blockOffset, blockOffset + pending, bufferOffset, bufferOffset + pending⟩],
        (i, blockOffset + pending), true)

/-- `calcBlocks`: the spans, the new position, and whether it returns `io.EOF`. -/
def calcBlocks (blocks : List BlockInfo) (curBlockIndex : ℕ) (curBlockOffset expect : Int64) :
    List CalcBlock × (ℕ × Int64) × Bool :=
  let (spans, cur, finish) := calcLoop expect (blocks.drop curBlockIndex) curBlockIndex
    curBlockOffset 0 (curBlockIndex, curBlockOffset)
  (spans, cur, !finish)

end Word

structure Piece where
  block : ℕ
  blockStart : ℤ
  blockEnd : ℤ
  bufferStart : ℤ
  bufferEnd : ℤ
  deriving DecidableEq, Repr

def CalcBlock.piece (s : CalcBlock) : Piece :=
  ⟨s.blockIndex, s.blockStart, s.blockEnd, s.bufferStart, s.bufferEnd⟩

def Word.CalcBlock.piece (s : Word.CalcBlock) : Piece :=
  ⟨s.blockIndex, s.blockStart.toInt, s.blockEnd.toInt, s.bufferStart.toInt, s.bufferEnd.toInt⟩

section
variable (blocks : List BlockInfo)

def blockSizes : List ℕ := blocks.map fun block => block.blockSize.toNat

def objectOffset (i : ℕ) : ℕ := ((blockSizes blocks).take i).sum

def Piece.objectStart (p : Piece) : ℤ := objectOffset blocks p.block + p.blockStart

def Piece.objectEnd (p : Piece) : ℤ := objectOffset blocks p.block + p.blockEnd

def bytesLeft (i o : ℕ) : ℕ := ((blockSizes blocks).drop i).sum - o

/-- The piece copies as many bytes as it has room for, all of one block. -/
structure Piece.Within (p : Piece) : Prop where
  length : p.bufferEnd - p.bufferStart = p.blockEnd - p.blockStart
  start : 0 ≤ p.blockStart
  le : p.blockStart ≤ p.blockEnd
  stop : ∃ block, blocks[p.block]? = some block ∧ p.blockEnd ≤ block.blockSize.toNat

def PlacedAt (i o : ℕ) : Prop := ∀ block, blocks[i]? = some block → o ≤ block.blockSize.toNat

end

/-- The pieces tile `[q, m)` in the buffer, and as many bytes from the position on in the object. -/
structure Tiled (blocks : List BlockInfo) (i o : ℕ) (q m : ℤ) (ps : List Piece) : Prop where
  buffer : Tiles Piece.bufferStart Piece.bufferEnd ps q m
  object : Tiles (Piece.objectStart blocks) (Piece.objectEnd blocks) ps
    (objectOffset blocks i + o) (objectOffset blocks i + o + (m - q))
  within : ∀ p ∈ ps, p.Within blocks

variable {blocks : List BlockInfo} {block : BlockInfo} {i o q expect : ℕ}

theorem drop_eq_cons {rest : List BlockInfo} (h : blocks.drop i = block :: rest) :
    blocks[i]? = some block ∧ blocks.drop (i + 1) = rest := by
  have hget : (blocks.drop i)[0]? = some block := by rw [h]; rfl
  rw [List.getElem?_drop, Nat.add_zero] at hget
  refine ⟨hget, ?_⟩
  rw [← List.drop_drop, h]
  rfl

theorem objectOffset_succ (h : blocks[i]? = some block) :
    objectOffset blocks (i + 1) = objectOffset blocks i + block.blockSize.toNat := by
  have hsize : (blockSizes blocks)[i]? = some block.blockSize.toNat := by
    rw [blockSizes, List.getElem?_map, h, Option.map_some]
  rw [objectOffset, List.take_add_one, hsize, List.sum_append]
  rfl

theorem bytesLeft_of_getElem? (h : blocks[i]? = some block) (ho : o ≤ block.blockSize.toNat) :
    bytesLeft blocks i o = block.blockSize.toNat - o + bytesLeft blocks (i + 1) 0 := by
  obtain ⟨hi, rfl⟩ := List.getElem?_eq_some_iff.mp h
  rw [bytesLeft, bytesLeft, blockSizes, ← List.map_drop, List.drop_eq_getElem_cons hi,
    List.map_cons, List.sum_cons, List.map_drop]
  omega

/-- The rest of a block is read, and the pieces go on with the next block. -/
theorem Tiled.cons (h : blocks[i]? = some block) (ho : o ≤ block.blockSize.toNat) {m : ℤ}
    {ps : List Piece}
    (hps : Tiled blocks (i + 1) 0 ((q + (block.blockSize.toNat - o) : ℕ) : ℤ) m ps) :
    Tiled blocks i o q m
      (⟨i, o, block.blockSize.toNat, q, (q + (block.blockSize.toNat - o) : ℕ)⟩ :: ps) where
  buffer := ⟨rfl, by dsimp only; omega, hps.buffer⟩
  object := by
    have hobject := hps.object
    rw [objectOffset_succ h] at hobject
    refine ⟨rfl, by dsimp only [Piece.objectEnd]; omega, ?_⟩
    convert hobject using 1
    · dsimp only [Piece.objectEnd]
      omega
    · omega
  within := List.forall_mem_cons.mpr
    ⟨⟨by dsimp only; omega, Int.natCast_nonneg o, by dsimp only; omega, block, h, le_rfl⟩,
      hps.within⟩

/-- The read ends in a block. -/
theorem Tiled.singleton (h : blocks[i]? = some block) {n : ℕ} (hn : o + n ≤ block.blockSize.toNat) :
    Tiled blocks i o q ((q + n : ℕ) : ℤ) [⟨i, o, (o + n : ℕ), q, (q + n : ℕ)⟩] where
  buffer := ⟨rfl, by dsimp only; omega, rfl⟩
  object := by
    refine ⟨rfl, by dsimp only [Piece.objectEnd]; omega, ?_⟩
    dsimp only [Tiles, Piece.objectEnd]
    omega
  within := List.forall_mem_singleton.mpr
    ⟨by dsimp only; omega, Int.natCast_nonneg o, by dsimp only; omega, block, h,
      Int.ofNat_le.mpr hn⟩

/-- The loop over the blocks from `i` on, with room for `expect` bytes of which `q` are filled. -/
theorem tiled_calcLoop (hq : q ≤ expect) (ho : PlacedAt blocks i o) (cur : ℕ × ℕ) :
    ∃ m : ℕ, m ≤ expect ∧
      Tiled blocks i o q m ((calcLoop expect (blocks.drop i) i o q cur).1.map CalcBlock.piece) ∧
      ((calcLoop expect (blocks.drop i) i o q cur).2.2 = true → m = expect) ∧
      ((calcLoop expect (blocks.drop i) i o q cur).2.2 = false → m = q + bytesLeft blocks i o) := by
  induction hdrop : blocks.drop i generalizing i o q cur with
  | nil =>
    refine ⟨q, hq, ⟨rfl, by simp [calcLoop, Tiles], fun _ h => absurd h List.not_mem_nil⟩,
      fun h => (by cases h), fun _ => ?_⟩
    rw [bytesLeft, blockSizes, ← List.map_drop, hdrop]
    simp
  | cons block rest ih =>
    obtain ⟨hget, hrest⟩ := drop_eq_cons hdrop
    have hsize := ho block hget
    rw [calcLoop]
    dsimp only
    split_ifs with hfull
    · obtain ⟨m, hm, htiled, hfin, heof⟩ := ih (i := i + 1) (o := 0)
        (q := q + (block.blockSize.toNat - o)) (by omega) (fun _ _ => Nat.zero_le _) (i, 0) hrest
      refine ⟨m, hm, htiled.cons hget hsize, hfin, fun h => ?_⟩
      rw [heof h, bytesLeft_of_getElem? hget hsize, Nat.add_assoc]
    · refine ⟨expect, le_rfl, ?_, fun _ => rfl, fun h => (by cases h)⟩
      have hm : q + (expect - q) = expect := Nat.add_sub_cancel' hq
      have htiled := Tiled.singleton (o := o) (q := q) hget (n := expect - q) (by omega)
      change Tiled blocks i o q expect [⟨i, o, (o + (expect - q) : ℕ), q, (q + (expect - q) : ℕ)⟩]
      rw [hm] at htiled ⊢
      exact htiled

namespace Word

/-- The loop in words does what the loop in numbers does, where an `int` can hold every block
size. -/
theorem calcLoop_eq {rest : List BlockInfo} {expect' o' q' : Int64} (cur : ℕ × ℕ) (cur' : ℕ × Int64)
    (hexpect : expect'.toInt = expect) (ho' : o'.toInt = o) (hq' : q'.toInt = q) (hq : q ≤ expect)
    (hsizes : ∀ block ∈ rest, block.blockSize.toNat < 2 ^ 63)
    (ho : ∀ block ∈ rest.head?, o ≤ block.blockSize.toNat) :
    (calcLoop expect' rest i o' q' cur').1.map CalcBlock.piece =
        (Client.calcLoop expect rest i o q cur).1.map Client.CalcBlock.piece ∧
      (calcLoop expect' rest i o' q' cur').2.2 = (Client.calcLoop expect rest i o q cur).2.2 := by
  induction rest generalizing i o' q' o q cur cur' with
  | nil => exact ⟨rfl, rfl⟩
  | cons block rest ih =>
    have hlt := hsizes block List.mem_cons_self
    have hsize : block.blockSize.toInt64.toInt = block.blockSize.toNat := toInt_toInt64 rfl hlt
    have hle := ho block rfl
    have hbound := expect'.toInt_lt
    have hpending : (expect' - q').toInt = (expect - q : ℕ) := by
      rw [toInt_sub_of_fits] <;> omega
    have hcond : (o' + (expect' - q')).toUInt64 ≥ block.blockSize ↔
        o + (expect - q) ≥ block.blockSize.toNat := by
      have hsum := toNat_toUInt64_add (x := o') (y := expect' - q') (by omega) (by omega)
      rw [ge_iff_le, UInt64.le_iff_toNat_le]
      omega
    rw [calcLoop, Client.calcLoop]
    dsimp only
    by_cases hfull : o + (expect - q) ≥ block.blockSize.toNat
    · -- the sums stay below a block size or `expect`, so that none of them wraps
      rw [if_pos (hcond.mpr hfull), if_pos hfull]
      have hrest : (block.blockSize.toInt64 - o').toInt = (block.blockSize.toNat - o : ℕ) := by
        rw [toInt_sub_of_fits] <;> omega
      have hnext : (q' + (block.blockSize.toInt64 - o')).toInt =
          (q + (block.blockSize.toNat - o) : ℕ) := by
        rw [toInt_add_of_fits] <;> omega
      have hstop : q' + block.blockSize.toInt64 - o' = q' + (block.blockSize.toInt64 - o') := by
        rw [Int64.sub_eq_add_neg, Int64.sub_eq_add_neg, Int64.add_assoc]
      have hzero : (0 : Int64).toInt = (0 : ℕ) := rfl
      obtain ⟨hspans, hfinish⟩ := ih (i := i + 1) (i, 0) (i, 0) hzero hnext (by omega)
        (fun b hb => hsizes b (List.mem_cons_of_mem _ hb)) (fun _ _ => Nat.zero_le _)
      refine ⟨?_, hfinish⟩
      rw [List.map_cons, List.map_cons, hspans, hstop]
      simp only [CalcBlock.piece, Client.CalcBlock.piece, ho', hsize, hq', hnext]
    · rw [if_neg (mt hcond.mp hfull), if_neg hfull]
      have hstop : (o' + (expect' - q')).toInt = (o + (expect - q) : ℕ) := by
        rw [toInt_add_of_fits] <;> omega
      have hend : (q' + (expect' - q')).toInt = (q + (expect - q) : ℕ) := by
        rw [toInt_add_of_fits] <;> omega
      refine ⟨?_, rfl⟩
      simp only [List.map_cons, List.map_nil, CalcBlock.piece, Client.CalcBlock.piece, ho', hq',
        hstop, hend]

end Word

/-- The first `m` bytes of the buffer are cut into pieces, for as many bytes of the object. -/
structure Partition (blocks : List BlockInfo) (i o : ℕ) (expect : ℤ) (ps : List Piece) (eof : Bool)
    (m : ℤ) : Prop where
  le : m ≤ expect
  consecutive : ps.IsChain fun p p' => p.bufferEnd = p'.bufferStart
  disjoint : ps.Pairwise fun p p' => p.bufferEnd ≤ p'.bufferStart
  cover : ∀ x, (∃ p ∈ ps, p.bufferStart ≤ x ∧ x < p.bufferEnd) ↔ 0 ≤ x ∧ x < m
  within : ∀ p ∈ ps, p.Within blocks
  object : ps.IsChain fun p p' => p.objectEnd blocks = p'.objectStart blocks
  objectCover : ∀ x, (∃ p ∈ ps, p.objectStart blocks ≤ x ∧ x < p.objectEnd blocks) ↔
    objectOffset blocks i + o ≤ x ∧ x < objectOffset blocks i + o + m
  full : eof = false → m = expect
  rest : eof = true → m = bytesLeft blocks i o

theorem Tiled.partition {m : ℤ} {ps : List Piece} {expect : ℤ} {eof : Bool}
    (h : Tiled blocks i o 0 m ps) (hle : m ≤ expect) (hfull : eof = false → m = expect)
    (hrest : eof = true → m = bytesLeft blocks i o) : Partition blocks i o expect ps eof m where
  le := hle
  consecutive := h.buffer.isChain
  disjoint := h.buffer.pairwise
  cover := h.buffer.exists_mem_iff
  within := h.within
  object := h.object.isChain
  objectCover x := by
    rw [h.object.exists_mem_iff, sub_zero]
  full := hfull
  rest := hrest

/-- The spans of `calcBlocks` are a partition, where an `int` can hold every block size. -/
theorem partition_calcBlocks (blocks : List BlockInfo)
    (hsizes : ∀ block ∈ blocks, block.blockSize.toNat < 2 ^ 63) (i : ℕ) (o expect : Int64)
    (ho : 0 ≤ o.toInt) (hplaced : PlacedAt blocks i o.toInt.toNat) (hexpect : 0 ≤ expect.toInt) :
    ∃ m, Partition blocks i o.toInt.toNat expect.toInt
      ((Word.calcBlocks blocks i o expect).1.map Word.CalcBlock.piece)
      (Word.calcBlocks blocks i o expect).2.2 m := by
  have ho' : o.toInt = o.toInt.toNat := (Int.toNat_of_nonneg ho).symm
  have hexpect' : expect.toInt = expect.toInt.toNat := (Int.toNat_of_nonneg hexpect).symm
  have hzero : (0 : Int64).toInt = (0 : ℕ) := rfl
  have hle : 0 ≤ expect.toInt.toNat := Nat.zero_le _
  have hrest : ∀ block ∈ blocks.drop i, block.blockSize.toNat < 2 ^ 63 :=
    fun block hb => hsizes block (List.mem_of_mem_drop hb)
  have hhead : ∀ block ∈ (blocks.drop i).head?, o.toInt.toNat ≤ block.blockSize.toNat := by
    rw [List.head?_drop]
    exact hplaced
  obtain ⟨m, hm, htiled, hfin, heof⟩ := tiled_calcLoop hle hplaced (i, o.toInt.toNat)
  obtain ⟨hspans, hfinish⟩ := Word.calcLoop_eq (i := i) (i, o.toInt.toNat) (i, o) hexpect' ho' hzero
    hle hrest hhead
  rw [← hspans] at htiled
  rw [← hfinish] at hfin heof
  refine ⟨m, htiled.partition (by omega) (fun h => ?_) fun h => ?_⟩
  · rw [hexpect', hfin (by simpa [Word.calcBlocks] using h)]
  · rw [heof (by simpa [Word.calcBlocks] using h), Nat.zero_add]

def twoBlocks : List BlockInfo :=
  [{ blockId := [], blockSize := 3 }, { blockId := [], blockSize := 2 }]

theorem partition_twoBlocks :
    (Word.calcBlocks twoBlocks 0 1 3).1 = [⟨0, 1, 3, 0, 2⟩, ⟨1, 0, 1, 2, 3⟩] ∧
      ∃ m, Partition twoBlocks 0 1 3
        ((Word.calcBlocks twoBlocks 0 1 3).1.map Word.CalcBlock.piece)
        (Word.calcBlocks twoBlocks 0 1 3).2.2 m := by
  refine ⟨by decide, partition_calcBlocks twoBlocks ?_ 0 1 3 (by decide) ?_ (by decide)⟩
  · exact List.forall_mem_cons.mpr ⟨by decide, List.forall_mem_singleton.mpr (by decide)⟩
  · intro block hb
    cases hb
    decide

def hugeBlock : BlockInfo := { blockId := [], blockSize := 0x8000000000000000 }

/-- The end of a span of such a block is negative. -/
theorem hugeBlock_not_partition :
    PlacedAt [hugeBlock] 0 1 ∧
      (Word.calcBlocks [hugeBlock] 0 1 Int64.maxValue).1 =
        [⟨0, 1, Int64.minValue, 0, Int64.maxValue⟩] ∧
      ¬∃ m, Partition [hugeBlock] 0 1 Int64.maxValue.toInt
        ((Word.calcBlocks [hugeBlock] 0 1 Int64.maxValue).1.map Word.CalcBlock.piece)
        (Word.calcBlocks [hugeBlock] 0 1 Int64.maxValue).2.2 m := by
  have hspans : (Word.calcBlocks [hugeBlock] 0 1 Int64.maxValue).1 =
      [⟨0, 1, Int64.minValue, 0, Int64.maxValue⟩] := by decide
  refine ⟨fun block hb => ?_, hspans, ?_⟩
  · cases hb
    decide
  · rintro ⟨m, h⟩
    have hwithin := h.within
    rw [hspans, List.map_cons, List.forall_mem_cons] at hwithin
    exact absurd hwithin.1.le (by decide)

end Ecos.Client
