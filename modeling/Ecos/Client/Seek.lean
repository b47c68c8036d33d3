import Ecos.Client.ReadStream
import Ecos.Go.Int64
import Ecos.Logic.Machine

namespace Ecos.Client
open Go Std

inductive Whence where
  | SeekStart
  | SeekCurrent
  | SeekEnd
  | other (whence : Int64)
  deriving DecidableEq, Repr

inductive SeekError where
  | eof
  | illegalStatus
  /-- "seek out of range, offset: %d, size: %d" -/
  | outOfRange (offset : Int64) (size : UInt64)
  deriving DecidableEq, Repr

structure SeekResult where
  reader : EcosReader
  newOffset : Int64
  err : Option SeekError

/-- The loop of `calcBlocks` for a number of bytes that may be negative, without the spans, which
`Seek` drops. All of its sums are words: only `uint64(blockOffset+pending)` is looked at. -/
def moveLoop (expect : ℤ) : List BlockInfo → (i blockOffset : ℕ) → (bufferOffset : ℤ) → ℕ × ℕ →
    (ℕ × ℕ) × Bool
  | [], _, _, _, cur => (cur, false)
  | block :: blocks, i, blockOffset, bufferOffset, _ =>
    let pending := expect - bufferOffset
    let size := block.blockSize.toNat
    let next := ((blockOffset + pending) % 2 ^ 64).toNat
    if next ≥ size then
      moveLoop expect blocks (i + 1) 0 (bufferOffset + (size - blockOffset)) (i, 0)
    else ((i, next), true)

/-- `calcBlocks` as `Seek` calls it: the reader at its new position, and whether it returns
`io.EOF`. -/
def moveBlocks (r : EcosReader) (expect : ℤ) : EcosReader × Bool :=
  let (cur, finish) := moveLoop expect (r.objectMeta.blocks.drop r.curBlockIndex)
    r.curBlockIndex r.curBlockOffset 0 (r.curBlockIndex, r.curBlockOffset)
  ({ r with curBlockIndex := cur.1, curBlockOffset := cur.2 }, !finish)

/-- The current offset as `Seek` sums it up: the sizes of the blocks up to the current one, which
is included. An index that is out of range panics. -/
def curOffset (r : EcosReader) : Option Int64 :=
  if r.curBlockIndex < r.objectMeta.blocks.length then
    some ((r.objectMeta.blocks.take (r.curBlockIndex + 1)).foldl
      (fun n block => n + block.blockSize.toInt64) 0)
  else none

/-- The end of `Seek`, which moves by `offset`. -/
def seekBy (r : EcosReader) (newOffset offset : Int64) : SeekResult :=
  let (r, eof) := moveBlocks r offset.toInt
  if eof then ⟨r, newOffset, some .eof⟩
  else if newOffset < 0 ∨ newOffset > r.objectMeta.objSize.toInt64 then
    ⟨r, 0, some (.outOfRange newOffset r.objectMeta.objSize)⟩
  else ⟨r, newOffset, none⟩

/-- `Seek` on a reader that has its meta. -/
def seek (r : EcosReader) (offset : Int64) (whence : Whence) : Option SeekResult := do
  let curOffset ← curOffset r
  match whence with
  | .SeekStart => return seekBy { r with curBlockIndex := 0, curBlockOffset := 0 } offset offset
  | .SeekCurrent => return seekBy r (curOffset + offset) offset
  | .SeekEnd =>
    let newOffset := r.objectMeta.objSize.toInt64 - offset
    return seekBy r newOffset (newOffset - curOffset)
  | .other _ => return ⟨r, 0, some .illegalStatus⟩

variable {fetch : Bytes → Option Bytes}

/-- From the first of these blocks on, the loop moves `o + expect - q` bytes forward. A number
that is negative or leads past the last block is `io.EOF`. -/
theorem moveLoop_spec {infos : List BlockInfo} {ds : List Bytes} (h : Describes fetch infos ds)
    {expect q : ℤ} {i o : ℕ} {cur : ℕ × ℕ} {t : ℤ} (ht : t = o + (expect - q)) (hlt : t < 2 ^ 64)
    (hle : ds.flatten.length ≤ t + 2 ^ 64) :
    if 0 ≤ t ∧ t < ds.flatten.length then
      ∃ j o', moveLoop expect infos i o q cur = ((i + j, o'), true) ∧ Inside ds j o' ∧
        remaining ds j o' = ds.flatten.drop t.toNat
    else moveLoop expect infos i o q cur =
      (if ds = [] then cur else (i + (ds.length - 1), 0), false) := by
  induction h generalizing q i o cur t with
  | nil =>
    rw [if_neg (by simp), if_pos rfl]
    rfl
  | @cons info d infos ds hd h ih =>
    have hsize := hd.1
    rw [List.flatten_cons, List.length_append] at hle ⊢
    rw [moveLoop]
    simp only [hsize, ← ht]
    by_cases hfull : (t % 2 ^ 64).toNat ≥ d.length
    · -- this block is passed, and what is left to move is less by its size
      have hnext := @ih (q + (d.length - o)) (i + 1) 0 (i, 0) (t - d.length)
        (by rw [ht]; push_cast; ring) (by omega) (by omega)
      have hiff : (0 ≤ t - d.length ∧ t - d.length < ds.flatten.length) ↔
          0 ≤ t ∧ t < ↑(d.length + ds.flatten.length) := by
        push_cast
        omega
      rw [if_pos hfull, if_neg (List.cons_ne_nil d ds)]
      by_cases hmove : 0 ≤ t - d.length ∧ t - d.length < ds.flatten.length
      · rw [if_pos hmove] at hnext
        rw [if_pos (hiff.mp hmove)]
        obtain ⟨j, o', hloop, hin, hrem⟩ := hnext
        refine ⟨j + 1, o', by rw [hloop, Nat.add_right_comm, Nat.add_assoc], hin, ?_⟩
        have hskip : t.toNat = d.length + (t - d.length).toNat := by omega
        rw [hskip, ← List.drop_drop, List.drop_left]
        exact hrem
      · rw [if_neg hmove] at hnext
        rw [if_neg (mt hiff.mpr hmove), hnext]
        cases ds with
        | nil => rfl
        | cons d' ds =>
          rw [if_neg (List.cons_ne_nil d' ds)]
          simp only [List.length_cons, Nat.add_sub_cancel, Prod.mk.injEq, and_true]
          omega
    · -- a negative number would be a word past every block
      have hpos : 0 ≤ t := by omega
      have hin : t.toNat < d.length := by omega
      rw [if_neg hfull, if_pos (by omega)]
      refine ⟨0, t.toNat, ?_, ⟨d, rfl, hin⟩, ?_⟩
      · rw [Nat.add_zero, Int.emod_eq_of_lt hpos hlt]
      · rfl

def startOf (ds : List Bytes) (i : ℕ) : ℕ := (ds.take i).flatten.length

theorem startOf_add (ds : List Bytes) (i : ℕ) :
    startOf ds i + (remaining ds i 0).length = ds.flatten.length := by
  rw [startOf, remaining, List.drop_zero, ← List.length_append, ← List.flatten_append,
    List.take_append_drop]

theorem remaining_eq_drop (ds : List Bytes) (i o : ℕ) :
    remaining ds i o = ds.flatten.drop (startOf ds i + o) := by
  have hsplit : ds.flatten = (ds.take i).flatten ++ (ds.drop i).flatten := by
    rw [← List.flatten_append, List.take_append_drop]
  rw [hsplit, startOf, ← List.drop_drop, List.drop_left]
  rfl

theorem startOf_succ {ds : List Bytes} {i : ℕ} {d : Bytes} (hd : ds[i]? = some d) :
    startOf ds (i + 1) = startOf ds i + d.length := by
  obtain ⟨hi, rfl⟩ := List.getElem?_eq_some_iff.mp hd
  rw [startOf, List.take_succ_eq_append_getElem hi, List.flatten_append, List.length_append,
    List.flatten_singleton]
  rfl

def positionOf (ds : List Bytes) (r : EcosReader) : ℕ :=
  startOf ds r.curBlockIndex + r.curBlockOffset

theorem Within.startOf_le {ds : List Bytes} {i o : ℕ} (h : Within ds i o) :
    startOf ds i + o ≤ ds.flatten.length := by
  obtain ⟨d, hd, ho⟩ := h
  have hsucc := startOf_succ hd
  have hadd := startOf_add ds (i + 1)
  omega

theorem StandsBefore.positionOf_le {ds : List Bytes} {r : EcosReader} {rest : Bytes}
    (h : StandsBefore fetch ds r rest) : positionOf ds r ≤ ds.flatten.length := by
  rcases h.position with hin | ⟨rfl, hi, ho⟩
  · exact hin.startOf_le
  · rw [positionOf, hi, ho]
    rfl

/-- Moving a reader by a number of bytes that fits a word. -/
theorem StandsBefore.moveBlocks {ds : List Bytes} {r : EcosReader} {rest : Bytes}
    (h : StandsBefore fetch ds r rest) (hlt : ds.flatten.length < 2 ^ 63) {expect : ℤ}
    (hmin : -2 ^ 63 ≤ expect) (hmax : expect < 2 ^ 63) :
    ∃ r' eof, moveBlocks r expect = (r', eof) ∧ r'.objectMeta = r.objectMeta ∧
      if eof then StandsBefore fetch ds r' (afterEnd ds) ∧
        (startOf ds r.curBlockIndex ≤ positionOf ds r + expect →
          ds.flatten.length ≤ positionOf ds r + expect)
      else ∃ p : ℕ, p = positionOf ds r + expect ∧ p < ds.flatten.length ∧
        startOf ds r.curBlockIndex ≤ p ∧ StandsBefore fetch ds r' (ds.flatten.drop p) := by
  have hle := h.positionOf_le
  have hadd := startOf_add ds r.curBlockIndex
  rw [positionOf] at hle ⊢
  rw [show Client.remaining ds r.curBlockIndex 0 = (ds.drop r.curBlockIndex).flatten from rfl]
    at hadd
  have hmove := @moveLoop_spec fetch (r.objectMeta.blocks.drop r.curBlockIndex)
    (ds.drop r.curBlockIndex) (List.forall₂_drop r.curBlockIndex h.describes) expect 0
    r.curBlockIndex r.curBlockOffset (r.curBlockIndex, r.curBlockOffset)
    (r.curBlockOffset + (expect - 0)) rfl (by omega) (by omega)
  unfold Client.moveBlocks
  -- only the result of the loop matters from here on
  generalize moveLoop expect (r.objectMeta.blocks.drop r.curBlockIndex) r.curBlockIndex
    r.curBlockOffset 0 (r.curBlockIndex, r.curBlockOffset) = res at hmove
  by_cases hin : 0 ≤ r.curBlockOffset + (expect - 0) ∧
      r.curBlockOffset + (expect - 0) < (ds.drop r.curBlockIndex).flatten.length
  · rw [if_pos hin] at hmove
    obtain ⟨j, o', rfl, ⟨d, hd, ho'⟩, hrem⟩ := hmove
    rw [List.getElem?_drop] at hd
    refine ⟨_, false, rfl, rfl,
      startOf ds r.curBlockIndex + (r.curBlockOffset + (expect - 0)).toNat, by omega, by omega,
      by omega, h.describes, .inl ⟨d, hd, ho'.le⟩, ?_, h.coherent⟩
    rw [← remaining_eq_drop]
    rwa [Client.remaining, List.drop_drop] at hrem
  · -- the loop leaves the reader at the last block, wherever it stood
    rw [if_neg hin] at hmove
    have hend : (if ds.drop r.curBlockIndex = [] then (r.curBlockIndex, r.curBlockOffset)
        else (r.curBlockIndex + ((ds.drop r.curBlockIndex).length - 1), 0)) =
          (ds.length - 1, 0) := by
      rcases h.position with hin | ⟨rfl, hi, ho⟩
      · have hlt := hin.lt_length
        rw [if_neg (by rw [List.drop_eq_nil_iff]; omega), List.length_drop]
        congr 1
        omega
      · rw [hi, ho]
        rfl
    rw [hmove, hend]
    exact ⟨_, true, rfl, rfl, ⟨h.describes, within_or_nil le_rfl, remaining_last ds, h.coherent⟩,
      by omega⟩

theorem toInt64_blockSize {info : BlockInfo} {n : ℕ} (h : info.blockSize.toNat = n) :
    info.blockSize.toInt64 = Int64.ofNat n := by
  rw [← h, ← UInt64.toInt64_ofNat', UInt64.ofNat_toNat]

theorem Describes.foldl_sizes {infos : List BlockInfo} {ds : List Bytes}
    (h : Describes fetch infos ds) (n : ℕ) :
    infos.foldl (fun n block => n + block.blockSize.toInt64) (Int64.ofNat n) =
      Int64.ofNat (n + ds.flatten.length) := by
  induction h generalizing n with
  | nil => rfl
  | @cons info d infos ds hd h ih =>
    rw [List.foldl_cons, toInt64_blockSize hd.1, ← Int64.ofNat_add, ih, List.flatten_cons,
      List.length_append, Nat.add_assoc]

/-- `Seek` takes the end of the current block for the current offset. -/
theorem Describes.curOffset {r : EcosReader} {ds : List Bytes} {d : Bytes}
    (h : Describes fetch r.objectMeta.blocks ds) (hd : ds[r.curBlockIndex]? = some d) :
    curOffset r = some (Int64.ofNat (startOf ds r.curBlockIndex + d.length)) := by
  have hi : r.curBlockIndex < r.objectMeta.blocks.length :=
    h.length ▸ (List.getElem?_eq_some_iff.mp hd).1
  rw [Client.curOffset, if_pos hi]
  congr 1
  have htake : Describes fetch (r.objectMeta.blocks.take (r.curBlockIndex + 1))
      (ds.take (r.curBlockIndex + 1)) := List.forall₂_take _ h
  have hfold := htake.foldl_sizes 0
  rw [Nat.zero_add] at hfold
  rw [← startOf_succ hd]
  exact hfold

/-- A move succeeds exactly if it ends in the object and not before the current block, and the
offset that is returned lies in the object. -/
theorem StandsBefore.seekBy {ds : List Bytes} {r : EcosReader} {rest : Bytes}
    (h : StandsBefore fetch ds r rest) (hlt : ds.flatten.length < 2 ^ 63)
    (hsize : r.objectMeta.objSize.toNat = ds.flatten.length) (newOffset offset : Int64) :
    ∃ res, seekBy r newOffset offset = res ∧ res.reader.objectMeta = r.objectMeta ∧
      (∃ rest', StandsBefore fetch ds res.reader rest') ∧
      (res.err = none ↔ 0 ≤ newOffset.toInt ∧ newOffset.toInt ≤ ds.flatten.length ∧
        startOf ds r.curBlockIndex ≤ positionOf ds r + offset.toInt ∧
        positionOf ds r + offset.toInt < ds.flatten.length) ∧
      (res.err = none → res.newOffset = newOffset ∧
        ∃ p : ℕ, p = positionOf ds r + offset.toInt ∧
          StandsBefore fetch ds res.reader (ds.flatten.drop p)) := by
  obtain ⟨r', eof, hmove, hmeta, hpos⟩ := h.moveBlocks hlt offset.le_toInt offset.toInt_lt
  refine ⟨_, rfl, ?_⟩
  unfold Client.seekBy
  rw [hmove]
  cases eof with
  | true =>
    obtain ⟨hst, hout⟩ := hpos
    refine ⟨hmeta, ⟨_, hst⟩, iff_of_false (fun herr => by cases herr) ?_,
      fun herr => by cases herr⟩
    omega
  | false =>
    obtain ⟨p, hp, hin, hstart, hst⟩ := hpos
    have hzero : newOffset < 0 ↔ newOffset.toInt < 0 := Int64.lt_iff_toInt_lt
    have hgt : r'.objectMeta.objSize.toInt64 < newOffset ↔ ds.flatten.length < newOffset.toInt := by
      rw [hmeta, Int64.lt_iff_toInt_lt, toInt_toInt64 hsize hlt]
    simp only [Bool.false_eq_true, if_false, hzero, hgt]
    split_ifs with hrange
    · refine ⟨hmeta, ⟨_, hst⟩, iff_of_false (fun herr => by cases herr) ?_,
        fun herr => by cases herr⟩
      omega
    · refine ⟨hmeta, ⟨_, hst⟩, iff_of_true rfl ?_, fun _ => ⟨rfl, p, hp, hst⟩⟩
      omega

/-- How far the offset that `Seek` returns lies behind the new position: the bytes that were left
of the current block, unless the seek is from the start. -/
def lead (whence : Whence) (d : Bytes) (r : EcosReader) : ℤ :=
  if whence = .SeekStart then 0 else d.length - r.curBlockOffset

theorem StandsBefore.restart {ds : List Bytes} {r : EcosReader} {rest : Bytes}
    (h : StandsBefore fetch ds r rest) :
    StandsBefore fetch ds { r with curBlockIndex := 0, curBlockOffset := 0 } ds.flatten :=
  ⟨h.describes, within_or_nil (Nat.zero_le _), rfl, h.coherent⟩

/-- The end of the current block, which `Seek` takes for the position of the reader. -/
def blockEnd (r : EcosReader) : ℕ :=
  ((r.objectMeta.blocks.take (r.curBlockIndex + 1)).map fun block => block.blockSize.toNat).sum

def target (r : EcosReader) (offset : Int64) : Whence → Option ℤ
  | .SeekStart => some offset.toInt
  | .SeekCurrent => some (blockEnd r + offset.toInt)
  | .SeekEnd => some (r.objectMeta.objSize.toNat - offset.toInt)
  | .other _ => none

/-- The offsets in the object that are not further back from the end of the current block than the
start of that block is from the reader. -/
def InReach (r : EcosReader) (n : ℤ) : Prop :=
  blockEnd r ≤ n + r.curBlockOffset ∧ n ≤ r.objectMeta.objSize.toNat

theorem Describes.sum_sizes {infos : List BlockInfo} {ds : List Bytes}
    (h : Describes fetch infos ds) :
    (infos.map fun block => block.blockSize.toNat).sum = ds.flatten.length := by
  induction h with
  | nil => rfl
  | cons hd h ih => rw [List.map_cons, List.sum_cons, ih, hd.1, List.flatten_cons,
      List.length_append]

theorem Describes.blockEnd {r : EcosReader} {ds : List Bytes} {d : Bytes}
    (h : Describes fetch r.objectMeta.blocks ds) (hd : ds[r.curBlockIndex]? = some d) :
    blockEnd r = startOf ds r.curBlockIndex + d.length := by
  have htake : Describes fetch (r.objectMeta.blocks.take (r.curBlockIndex + 1))
      (ds.take (r.curBlockIndex + 1)) := List.forall₂_take _ h
  rw [Client.blockEnd, htake.sum_sizes, ← startOf_succ hd]
  rfl

/-- `Seek` on a reader in the block `d`. With bytes of that block left, a seek that is not from the
start fails exactly if its target is out of reach. -/
theorem StandsBefore.seek {ds : List Bytes} {r : EcosReader} {rest d : Bytes}
    (h : StandsBefore fetch ds r rest) (hlt : ds.flatten.length < 2 ^ 63)
    (hsize : r.objectMeta.objSize.toNat = ds.flatten.length)
    (hd : ds[r.curBlockIndex]? = some d) (offset : Int64) (whence : Whence) :
    ∃ res, seek r offset whence = some res ∧ res.reader.objectMeta = r.objectMeta ∧
      (∃ rest', StandsBefore fetch ds res.reader rest') ∧
      (whence ≠ .SeekStart → r.curBlockOffset < d.length →
        (res.err = none ↔ ∃ n ∈ target r offset whence, InReach r n)) ∧
      (res.err = none → ∃ p : ℕ, p < ds.flatten.length ∧
        res.newOffset.toInt = p + lead whence d r ∧
        StandsBefore fetch ds res.reader (ds.flatten.drop p)) := by
  have hend : startOf ds r.curBlockIndex + d.length ≤ ds.flatten.length :=
    Within.startOf_le ⟨d, hd, le_rfl⟩
  have hcur : (Int64.ofNat (startOf ds r.curBlockIndex + d.length)).toInt =
      startOf ds r.curBlockIndex + d.length := by
    rw [Int64.toInt_ofNat_of_lt (by omega)]
    push_cast
    rfl
  have hpos := h.positionOf_le
  have hseek := Describes.curOffset h.describes hd
  have hblock := Describes.blockEnd h.describes hd
  unfold Client.seek
  rw [hseek, Option.bind_eq_bind, Option.bind_some]
  cases whence with
  | SeekStart =>
    obtain ⟨res, hres, hmeta, hrest, herr, hok⟩ := h.restart.seekBy hlt hsize offset offset
    refine ⟨res, congrArg some hres, hmeta, hrest, fun hne => absurd rfl hne, fun hnone => ?_⟩
    obtain ⟨hnew, p, hp, hst⟩ := hok hnone
    have hin := herr.mp hnone
    refine ⟨p, by omega, ?_, hst⟩
    rw [hnew, hp]
    simp [lead, positionOf, startOf]
  | SeekCurrent =>
    obtain ⟨res, hres, hmeta, hrest, herr, hok⟩ :=
      h.seekBy hlt hsize (Int64.ofNat (startOf ds r.curBlockIndex + d.length) + offset) offset
    obtain ⟨k, hk⟩ :=
      toInt_add_word (Int64.ofNat (startOf ds r.curBlockIndex + d.length)) offset
    have hmin := (Int64.ofNat (startOf ds r.curBlockIndex + d.length) + offset).le_toInt
    have hmax := (Int64.ofNat (startOf ds r.curBlockIndex + d.length) + offset).toInt_lt
    have hlow := offset.le_toInt
    have hhigh := offset.toInt_lt
    rw [hcur] at hk
    unfold positionOf at herr hok hpos
    refine ⟨res, congrArg some hres, hmeta, hrest, fun _ hleft => ?_, fun hnone => ?_⟩
    · simp only [herr, target, InReach, hblock, hsize, Option.mem_def, Option.some.injEq,
        exists_eq_left']
      push_cast
      omega
    · obtain ⟨hnew, p, hp, hst⟩ := hok hnone
      have hin := herr.mp hnone
      refine ⟨p, by omega, ?_, hst⟩
      rw [hnew, lead, if_neg (by decide)]
      omega
  | SeekEnd =>
    obtain ⟨res, hres, hmeta, hrest, herr, hok⟩ :=
      h.seekBy hlt hsize (r.objectMeta.objSize.toInt64 - offset) (r.objectMeta.objSize.toInt64 -
        offset - Int64.ofNat (startOf ds r.curBlockIndex + d.length))
    obtain ⟨k, hk⟩ := toInt_sub_word (r.objectMeta.objSize.toInt64 - offset)
      (Int64.ofNat (startOf ds r.curBlockIndex + d.length))
    obtain ⟨k', hk'⟩ := toInt_sub_word r.objectMeta.objSize.toInt64 offset
    have hmin := (r.objectMeta.objSize.toInt64 - offset).le_toInt
    have hmax := (r.objectMeta.objSize.toInt64 - offset).toInt_lt
    have hlow := offset.le_toInt
    have hhigh := offset.toInt_lt
    -- the number of bytes to move may wrap as well, but then the target is negative
    have hmove := (r.objectMeta.objSize.toInt64 - offset -
      Int64.ofNat (startOf ds r.curBlockIndex + d.length)).le_toInt
    have hmove' := (r.objectMeta.objSize.toInt64 - offset -
      Int64.ofNat (startOf ds r.curBlockIndex + d.length)).toInt_lt
    rw [hcur] at hk
    rw [toInt_toInt64 hsize hlt] at hk'
    unfold positionOf at herr hok hpos
    refine ⟨res, congrArg some hres, hmeta, hrest, fun _ hleft => ?_, fun hnone => ?_⟩
    · simp only [herr, target, InReach, hblock, hsize, Option.mem_def, Option.some.injEq,
        exists_eq_left']
      push_cast
      omega
    · obtain ⟨hnew, p, hp, hst⟩ := hok hnone
      have hin := herr.mp hnone
      refine ⟨p, by omega, ?_, hst⟩
      rw [hnew, lead, if_neg (by decide)]
      omega
  | other n =>
    refine ⟨_, rfl, rfl, ⟨rest, h⟩, fun _ _ => ?_, fun hnone => by cases hnone⟩
    exact iff_of_false (fun hnone => by cases hnone) fun ⟨_, hn, _⟩ => by cases hn

theorem StandsBefore.exists_block {ds : List Bytes} {r : EcosReader} {rest : Bytes}
    (h : StandsBefore fetch ds r rest) (hne : ds ≠ []) :
    ∃ d, ds[r.curBlockIndex]? = some d ∧ r.curBlockOffset ≤ d.length :=
  h.position.resolve_right fun hnil => hne hnil.1

theorem Describes.eq_nil_iff {infos : List BlockInfo} {ds : List Bytes}
    (h : Describes fetch infos ds) : infos = [] ↔ ds = [] := by
  rw [← List.length_eq_zero_iff, h.length, List.length_eq_zero_iff]

/-- Without blocks there is no current one, and `Seek` panics. -/
theorem seek_eq_none {r : EcosReader} (hnil : r.objectMeta.blocks = []) (offset : Int64)
    (whence : Whence) : seek r offset whence = none := by
  unfold seek
  rw [curOffset, hnil, if_neg (by simp)]
  rfl

/-- A seek from the start reaches every offset inside the object, and `io.EOF` otherwise. -/
theorem StandsBefore.seekStart {ds : List Bytes} {r : EcosReader} {rest : Bytes}
    (h : StandsBefore fetch ds r rest) (hne : ds ≠ []) (hlt : ds.flatten.length < 2 ^ 63)
    (hsize : r.objectMeta.objSize.toNat = ds.flatten.length) (offset : Int64) :
    ∃ res, Client.seek r offset .SeekStart = some res ∧ res.reader.objectMeta = r.objectMeta ∧
      if 0 ≤ offset.toInt ∧ offset.toInt < ds.flatten.length then
        res.err = none ∧ StandsBefore fetch ds res.reader (ds.flatten.drop offset.toInt.toNat)
      else res.err = some .eof ∧ StandsBefore fetch ds res.reader (afterEnd ds) := by
  obtain ⟨d, hd, -⟩ := h.exists_block hne
  obtain ⟨r', eof, hmove, hmeta, hpos⟩ :=
    h.restart.moveBlocks hlt offset.le_toInt offset.toInt_lt
  have hstart : positionOf ds { r with curBlockIndex := 0, curBlockOffset := 0 } = 0 := rfl
  have hseek : Client.seek r offset .SeekStart =
      some (Client.seekBy { r with curBlockIndex := 0, curBlockOffset := 0 } offset offset) := by
    unfold Client.seek
    rw [Describes.curOffset h.describes hd]
    rfl
  rw [hstart] at hpos
  refine ⟨_, hseek, ?_⟩
  unfold Client.seekBy
  rw [hmove]
  cases eof with
  | true =>
    obtain ⟨hst, hout⟩ := hpos
    have hzero : startOf ds 0 = 0 := rfl
    rw [if_neg (by rw [hzero] at hout; omega)]
    exact ⟨hmeta, rfl, hst⟩
  | false =>
    obtain ⟨p, hp, hin, -, hst⟩ := hpos
    have hlow : ¬ offset < 0 := by
      rw [Int64.lt_iff_toInt_lt]
      have : (0 : Int64).toInt = 0 := rfl
      omega
    have hhigh : ¬ r'.objectMeta.objSize.toInt64 < offset := by
      rw [hmeta, Int64.lt_iff_toInt_lt, toInt_toInt64 hsize hlt]
      omega
    rw [if_pos (by omega)]
    simp only [Bool.false_eq_true, if_false, hlow, hhigh, or_self]
    refine ⟨hmeta, trivial, ?_⟩
    rwa [show offset.toInt.toNat = p by omega]

theorem Describes.afterEnd_eq_nil_iff {infos : List BlockInfo} {ds : List Bytes}
    (h : Describes fetch infos ds) :
    afterEnd ds = [] ↔ ∀ b ∈ infos.getLast?, b.blockSize = 0 := by
  rw [afterEnd, List.getLastD_eq_getLast?, List.getLast?_eq_getElem?, List.getLast?_eq_getElem?,
    h.length]
  cases hd : ds[ds.length - 1]? with
  | none =>
    have hnone : infos[ds.length - 1]? = none := by
      rw [List.getElem?_eq_none_iff, h.length]
      exact List.getElem?_eq_none_iff.mp hd
    simp [hnone]
  | some d =>
    obtain ⟨info, -, hinfo, hsize, -⟩ := h.get hd
    rw [hinfo]
    simp only [Option.getD_some, Option.mem_def, Option.some.injEq, forall_eq']
    rw [← List.length_eq_zero_iff, ← hsize, ← UInt64.toNat_inj]
    rfl

def pairMeta : ObjectMeta where
  objId := [107]
  objSize := 3
  pgId := 1
  blocks := [{ blockId := [1], blockSize := 2 }, { blockId := [2], blockSize := 1 }]
  term := 1

def pairCapacity : Capacity where
  blockSize := 2
  grown _ := 0

def pairFetch (id : Bytes) : Option Bytes := if id = [1] then some [1, 2] else some [3]

theorem describes_pairMeta : Describes pairFetch pairMeta.blocks [[1, 2], [3]] :=
  .cons ⟨rfl, rfl⟩ (.cons ⟨rfl, rfl⟩ .nil)

inductive Call where
  | read (call : ReadCall)
  | seek (offset : Int64) (whence : Whence)

/-- A reader in use, and whether a `Read` has returned `io.EOF` since the last `Seek`. -/
structure ReaderSession where
  reader : EcosReader
  ended : Bool := false

namespace ReaderSession

def step (fetch : Bytes → Option Bytes) (s : ReaderSession) : Call → Option ReaderSession
  | .read call => do
    let res ← read fetch s.reader call
    return ⟨res.reader, s.ended || res.eof⟩
  | .seek offset whence => do
    let res ← seek s.reader offset whence
    return ⟨res.reader, false⟩

end ReaderSession

/-- Reads up to the first `io.EOF` give the content from offset `n` on. -/
def Delivers (fetch : Bytes → Option Bytes) (content : Bytes) (r : EcosReader) (n : ℕ) : Prop :=
  ∀ calls : List ReadCall, (∀ call ∈ calls, call.Fair) →
    ∃ eof, readUntilEOF fetch r calls = some ((content.drop n).take (roomOf calls), eof) ∧
      (eof = true ↔ calls ≠ [] ∧ (content.drop n).length ≤ roomOf calls)

/-- A reader that stands before `content.drop p` delivers the content from `n` on only if `n` is
`p`: all of the rest fits one buffer. -/
theorem delivers_iff {ds : List Bytes} {r : EcosReader} {p n : ℕ}
    (hp : p < ds.flatten.length) (hst : StandsBefore fetch ds r (ds.flatten.drop p)) :
    Delivers fetch ds.flatten r n ↔ n = p := by
  constructor
  · intro hdel
    let call : ReadCall := ⟨ds.flatten, id⟩
    have hfair : ∀ c ∈ [call], c.Fair := by simp [call, ReadCall.Fair]
    obtain ⟨eof, hread, -⟩ := hst.readUntilEOF hfair
    obtain ⟨eof', hread', -⟩ := hdel [call] hfair
    rw [hread] at hread'
    have hlen := congrArg (fun out : Option (Bytes × Bool) => out.map fun o => o.1.length) hread'
    simp only [Option.map_some, List.length_take, List.length_drop, Option.some.injEq, roomOf,
      List.map_cons, List.map_nil, List.sum_cons, List.sum_nil, call] at hlen
    omega
  · rintro rfl calls hfair
    exact hst.readUntilEOF hfair

def Call.Fair : Call → Prop
  | .read call => call.Fair
  | .seek _ _ => True

namespace ReaderSession

/-- A `Seek` does not panic, and where it returns no error the content follows from the offset
returned. A `Read` after the end delivers nothing but `io.EOF`. -/
def Coherent (fetch : Bytes → Option Bytes) (content : Bytes) (s : ReaderSession) : Call → Prop
  | .read call => s.ended = true →
    ∃ res, read fetch s.reader call = some res ∧ res.n = 0 ∧ res.eof = true
  | .seek offset whence => ∃ res, seek s.reader offset whence = some res ∧
    (res.err = none → 0 ≤ res.newOffset.toInt ∧
      Delivers fetch content res.reader res.newOffset.toInt.toNat)

/-- The calls that the reader serves. After the end it reads on only where the last block is empty,
and it seeks in objects that have blocks: from the start, to where it does not reach, or with the
current block at its end. -/
def Sound (s : ReaderSession) : Call → Prop
  | .read _ => s.ended = true → ∀ b ∈ s.reader.objectMeta.blocks.getLast?, b.blockSize = 0
  | .seek offset whence => s.reader.objectMeta.blocks ≠ [] ∧
    (whence = .SeekStart ∨ (∀ n ∈ target s.reader offset whence, ¬ InReach s.reader n) ∨
      ∀ b ∈ s.reader.objectMeta.blocks[s.reader.curBlockIndex]?,
        b.blockSize.toNat = s.reader.curBlockOffset)

/-- What every session keeps. A reader that has come to the end has bytes before it exactly where
the last block has some. -/
structure Invariant (fetch : Bytes → Option Bytes) (m : ObjectMeta) (ds : List Bytes)
    (s : ReaderSession) : Prop where
  objectMeta : s.reader.objectMeta = m
  stands : ∃ rest, StandsBefore fetch ds s.reader rest ∧
    (s.ended = true → (rest = [] ↔ afterEnd ds = []))

variable {m : ObjectMeta} {ds : List Bytes} {s s' : ReaderSession}

theorem invariant_new (c : Capacity) (h : Describes fetch m.blocks ds) :
    Invariant fetch m ds { reader := { capacity := c, objectMeta := m } } :=
  ⟨rfl, _, standsBefore_new h, fun h => by cases h⟩

theorem Invariant.read (h : Invariant fetch m ds s) {call : ReadCall} (hfair : call.Fair)
    (hs : step fetch s (.read call) = some s') : Invariant fetch m ds s' := by
  obtain ⟨rest, hst, hended⟩ := h.stands
  obtain ⟨res, hread, -, -, -, hmeta, heof, hnext⟩ := hst.read hfair
  simp only [step, hread, Option.bind_eq_bind, Option.bind_some] at hs
  cases hs
  refine ⟨hmeta.trans h.objectMeta, _, hnext, fun he => ?_⟩
  cases hre : res.eof with
  | true => rw [if_pos rfl]
  | false =>
    -- bytes were left over, so the session had not come to an end without a last block
    have hlong : ¬ rest.length ≤ call.buffer.length := fun hle => by simp [heof.mpr hle] at hre
    rw [hre, Bool.or_false] at he
    rw [if_neg Bool.false_ne_true, ← hended he, List.drop_eq_nil_iff]
    refine iff_of_false hlong fun hnil => hlong ?_
    rw [hnil]
    exact Nat.zero_le _

theorem Invariant.seek (h : Invariant fetch m ds s) (hlt : ds.flatten.length < 2 ^ 63)
    (hsize : m.objSize.toNat = ds.flatten.length) {offset : Int64} {whence : Whence}
    (hs : step fetch s (.seek offset whence) = some s') : Invariant fetch m ds s' := by
  obtain ⟨rest, hst, -⟩ := h.stands
  by_cases hne : ds = []
  · rw [step, seek_eq_none (hst.describes.eq_nil_iff.mpr hne)] at hs
    cases hs
  · obtain ⟨d, hd, -⟩ := hst.exists_block hne
    obtain ⟨res, hseek, hmeta, ⟨rest', hrest⟩, -, -⟩ :=
      hst.seek hlt (h.objectMeta ▸ hsize) hd offset whence
    simp only [step, hseek, Option.bind_eq_bind, Option.bind_some] at hs
    cases hs
    exact ⟨hmeta.trans h.objectMeta, rest', hrest, fun he => by cases he⟩

theorem Invariant.step (h : Invariant fetch m ds s) (hlt : ds.flatten.length < 2 ^ 63)
    (hsize : m.objSize.toNat = ds.flatten.length) {call : Call} (hfair : call.Fair)
    (hs : step fetch s call = some s') : Invariant fetch m ds s' := by
  cases call with
  | read call => exact h.read hfair hs
  | seek offset whence => exact h.seek hlt hsize hs

theorem Invariant.coherent_read_iff (h : Invariant fetch m ds s) {call : ReadCall}
    (hfair : call.Fair) :
    s.Coherent fetch ds.flatten (.read call) ↔ s.Sound (.read call) := by
  obtain ⟨rest, hst, hended⟩ := h.stands
  obtain ⟨res, hread, -, hn, -, -, heof, -⟩ := hst.read hfair
  refine imp_congr_right fun he => ?_
  rw [← hst.describes.afterEnd_eq_nil_iff, ← hended he, hread]
  constructor
  · rintro ⟨res', hres, hzero, heof'⟩
    cases hres
    have hle := heof.mp heof'
    rw [← List.length_eq_zero_iff]
    omega
  · rintro rfl
    exact ⟨res, rfl, by simpa using hn, heof.mpr (Nat.zero_le _)⟩

theorem Invariant.coherent_seek_iff (h : Invariant fetch m ds s) (hlt : ds.flatten.length < 2 ^ 63)
    (hsize : m.objSize.toNat = ds.flatten.length) (offset : Int64) (whence : Whence) :
    s.Coherent fetch ds.flatten (.seek offset whence) ↔ s.Sound (.seek offset whence) := by
  obtain ⟨rest, hst, -⟩ := h.stands
  by_cases hne : ds = []
  · have hnil := hst.describes.eq_nil_iff.mpr hne
    simp [Coherent, Sound, seek_eq_none hnil, hnil]
  · obtain ⟨d, hd, hle⟩ := hst.exists_block hne
    obtain ⟨info, -, hinfo, hinfosize, -⟩ := hst.describes.get hd
    obtain ⟨res, hseek, -, -, herr, hok⟩ := hst.seek hlt (h.objectMeta ▸ hsize) hd offset whence
    simp only [Coherent, Sound, hseek, hinfo, Option.some.injEq, exists_eq_left',
      Option.mem_def, forall_eq', hinfosize, mt hst.describes.eq_nil_iff.mp hne, not_false_eq_true,
      ne_eq, true_and]
    have hserved : (res.err = none → 0 ≤ res.newOffset.toInt ∧
        Delivers fetch ds.flatten res.reader res.newOffset.toInt.toNat) ↔
          whence = .SeekStart ∨ res.err ≠ none ∨ d.length = s.reader.curBlockOffset := by
      cases hres : res.err with
      | some e => simp
      | none =>
        obtain ⟨p, hp, hnew, hrest⟩ := hok hres
        have hiff := delivers_iff (n := res.newOffset.toInt.toNat) hp hrest
        rw [hiff]
        unfold lead at hnew
        split_ifs at hnew with hw
        · simp only [hw, true_or, iff_true, forall_const]
          omega
        · simp only [hw, false_or, forall_const, ne_eq, not_true_eq_false]
          omega
    rw [hserved]
    -- what `Seek` returns is ahead of the position by what is left of the current block
    refine or_congr_right' fun hw => ?_
    by_cases hleft : s.reader.curBlockOffset < d.length
    · refine or_congr_left ?_
      rw [ne_eq, herr hw hleft]
      simp only [Option.mem_def, not_exists, not_and]
    · exact iff_of_true (.inr (by omega)) (.inr (by omega))

/-- In every session on an object, a call is coherent exactly where the reader serves it. -/
theorem coherent_iff_sound (c : Capacity) (fetch : Bytes → Option Bytes) (m : ObjectMeta)
    (ds : List Bytes) (h : Describes fetch m.blocks ds)
    (hsize : m.objSize.toNat = ds.flatten.length) (hlt : ds.flatten.length < 2 ^ 63)
    (calls : List Call) (hfair : ∀ call ∈ calls, call.Fair) {s : ReaderSession}
    (hs : Logic.run (step fetch) { reader := { capacity := c, objectMeta := m } } calls = some s)
    (call : Call) (hc : call.Fair) : s.Coherent fetch ds.flatten call ↔ s.Sound call := by
  have hinv : Invariant fetch m ds s :=
    Logic.run_invariant (G := fun _ call => call.Fair)
      (fun _ _ _ hs hfair hstep => hs.step hlt hsize hfair hstep) (invariant_new c h)
      (Logic.meets_of_forall (fun call hmem _ => hfair call hmem) _) hs
  cases call with
  | read call => exact hinv.coherent_read_iff hc
  | seek offset whence => exact hinv.coherent_seek_iff hlt hsize offset whence

/-- One byte is read, then the reader seeks to the last one. -/
theorem coherent_iff_sound_pairMeta :
    ∃ s, Logic.run (step pairFetch) { reader := ⟨pairCapacity, pairMeta, 0, 0, ∅⟩ }
        [.read ⟨[0], id⟩] = some s ∧
      s.reader.curBlockOffset = 1 ∧ s.Coherent pairFetch [1, 2, 3] (.seek 2 .SeekStart) := by
  have hfair : ∀ call ∈ [Call.read ⟨[0], id⟩], call.Fair := by
    simp [Call.Fair, ReadCall.Fair]
  exact ⟨_, rfl, rfl, (coherent_iff_sound pairCapacity pairFetch pairMeta [[1, 2], [3]]
    describes_pairMeta rfl (by decide) _ hfair rfl (.seek 2 .SeekStart) trivial).mpr
      ⟨by decide, .inl rfl⟩⟩

/-- `Seek` panics on an object without blocks. From the start of the object it returns 2 for the
current offset, and the content follows from 0 on. After `io.EOF` the last block is read again. -/
theorem seek_and_read_incoherent :
    seek ⟨pairCapacity, { pairMeta with objSize := 0, blocks := [] }, 0, 0, ∅⟩ 0 .SeekStart =
      none ∧
    (∃ res, seek ⟨pairCapacity, pairMeta, 0, 0, ∅⟩ 0 .SeekCurrent = some res ∧
      res.newOffset = 2 ∧ res.err = none ∧
      readUntilEOF pairFetch res.reader [⟨[0, 0, 0], id⟩] = some ([1, 2, 3], true)) ∧
    ∃ res res', read pairFetch ⟨pairCapacity, pairMeta, 0, 0, ∅⟩ ⟨[0, 0, 0], id⟩ = some res ∧
      res.n = 3 ∧ res.eof = true ∧
      read pairFetch res.reader ⟨[0, 0, 0], id⟩ = some res' ∧ res'.n = 1 ∧ res'.eof = true :=
  ⟨rfl, ⟨_, rfl, by decide, rfl, rfl⟩, _, _, rfl, rfl, rfl, rfl, rfl, rfl⟩

end ReaderSession

end Ecos.Client
