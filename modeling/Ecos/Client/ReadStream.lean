import Ecos.Client.Reader

namespace Ecos.Client
open Go Std

def Describes (fetch : Bytes → Option Bytes) : List BlockInfo → List Bytes → Prop :=
  List.Forall₂ fun info d => info.blockSize.toNat = d.length ∧ fetch info.blockId = some d

/-- The span copies the part of `out` that belongs at its place in the buffer. -/
structure Serves (ds : List Bytes) (out : Bytes) (s : CalcBlock) : Prop where
  block : ∃ d, ds[s.blockIndex]? = some d ∧ s.blockEnd ≤ d.length ∧
    (d.drop s.blockStart).take (s.blockEnd - s.blockStart) =
      (out.drop s.bufferStart).take (s.bufferEnd - s.bufferStart)
  block_le : s.blockStart ≤ s.blockEnd
  buffer_le : s.bufferStart ≤ s.bufferEnd
  same_size : s.bufferEnd - s.bufferStart = s.blockEnd - s.blockStart
  within : s.bufferEnd ≤ out.length

def spanSize (s : CalcBlock) : ℕ := s.bufferEnd - s.bufferStart

/-- What the loop of `calcBlocks` computes from buffer offset `q` on: spans that serve and
cover the rest of `out`, and the position after it. -/
structure Calculated (ds : List Bytes) (out : Bytes) (q : ℕ) (spans : List CalcBlock) : Prop where
  serves : ∀ s ∈ spans, Serves ds out s
  covers : ∀ j, q ≤ j → j < out.length → ∃ s ∈ spans, s.bufferStart ≤ j ∧ j < s.bufferEnd
  size : (spans.map spanSize).sum = out.length - q

variable {fetch : Bytes → Option Bytes}

/-- A position inside the blocks: some bytes of the block at `i` remain. -/
def Inside (ds : List Bytes) (i o : ℕ) : Prop := ∃ d, ds[i]? = some d ∧ o < d.length

/-- A position in the block at `i` or at its end. -/
def Within (ds : List Bytes) (i o : ℕ) : Prop := ∃ d, ds[i]? = some d ∧ o ≤ d.length

theorem Inside.within {ds : List Bytes} {i o : ℕ} (h : Inside ds i o) : Within ds i o := by
  obtain ⟨d, hd, ho⟩ := h
  exact ⟨d, hd, ho.le⟩

theorem Within.lt_length {ds : List Bytes} {i o : ℕ} (h : Within ds i o) : i < ds.length := by
  obtain ⟨d, hd, -⟩ := h
  exact (List.getElem?_eq_some_iff.mp hd).1

theorem within_zero {ds : List Bytes} {i : ℕ} (hi : i < ds.length) : Within ds i 0 :=
  ⟨_, List.getElem?_eq_getElem hi, Nat.zero_le _⟩

def remaining (ds : List Bytes) (i o : ℕ) : Bytes := (ds.drop i).flatten.drop o

theorem remaining_of_getElem? {ds : List Bytes} {i o : ℕ} {d : Bytes} (hd : ds[i]? = some d)
    (ho : o ≤ d.length) : remaining ds i o = d.drop o ++ (ds.drop (i + 1)).flatten := by
  obtain ⟨hi, rfl⟩ := List.getElem?_eq_some_iff.mp hd
  rw [remaining, List.drop_eq_getElem_cons hi, List.flatten_cons, List.drop_append_of_le_length ho]

theorem remaining_succ (ds : List Bytes) (i : ℕ) :
    remaining ds (i + 1) 0 = (ds.drop (i + 1)).flatten := rfl

theorem serves_of_take {ds : List Bytes} {out d : Bytes} {i o q n : ℕ} (hd : ds[i]? = some d)
    (hn : o + n ≤ d.length) (hq : q + n ≤ out.length)
    (heq : (out.drop q).take n = (d.drop o).take n) : Serves ds out ⟨i, o, o + n, q, q + n⟩ := by
  refine ⟨⟨d, hd, hn, ?_⟩, Nat.le_add_right o n, Nat.le_add_right q n, ?_, hq⟩
  · simp only [Nat.add_sub_cancel_left]
    exact heq.symm
  · simp only [Nat.add_sub_cancel_left]

theorem calculated_nil {ds : List Bytes} {out : Bytes} {q : ℕ} (h : out.length ≤ q) :
    Calculated ds out q [] :=
  ⟨by simp, fun j h₁ h₂ => by omega, by simp; omega⟩

theorem Calculated.cons {ds : List Bytes} {out : Bytes} {q : ℕ} {s : CalcBlock}
    {spans : List CalcBlock} (h : Calculated ds out s.bufferEnd spans) (hs : Serves ds out s)
    (hq : s.bufferStart = q) : Calculated ds out q (s :: spans) := by
  have hle := hs.buffer_le
  have hin := hs.within
  refine ⟨?_, ?_, ?_⟩
  · intro t ht
    rcases List.mem_cons.mp ht with rfl | ht
    · exact hs
    · exact h.serves t ht
  · intro j hj hlt
    by_cases hjs : j < s.bufferEnd
    · exact ⟨s, List.mem_cons_self, by omega, hjs⟩
    · obtain ⟨t, ht, hcov⟩ := h.covers j (by omega) hlt
      exact ⟨t, List.mem_cons_of_mem s ht, hcov⟩
  · rw [List.map_cons, List.sum_cons, h.size, spanSize]
    omega

/-- Every byte of the result lies in some span. -/
theorem Calculated.take_eq {ds : List Bytes} {out buffer : Bytes} {spans : List CalcBlock}
    (h : Calculated ds out 0 spans)
    (hbuf : ∀ j, ∀ t ∈ spans, t.bufferStart ≤ j ∧ j < t.bufferEnd → buffer[j]? = out[j]?) :
    buffer.take out.length = out := by
  ext1 j
  by_cases hj : j < out.length
  · rw [List.getElem?_take_of_lt hj]
    obtain ⟨t, ht, hcov⟩ := h.covers j (Nat.zero_le j) hj
    exact hbuf j t ht hcov
  · rw [List.getElem?_eq_none (by rw [List.length_take]; omega),
      List.getElem?_eq_none (by omega)]

theorem Describes.length {infos : List BlockInfo} {ds : List Bytes} (h : Describes fetch infos ds) :
    infos.length = ds.length := List.Forall₂.length_eq h

theorem Describes.get {infos : List BlockInfo} {ds : List Bytes} (h : Describes fetch infos ds)
    {i : ℕ} {d : Bytes} (hd : ds[i]? = some d) :
    ∃ info, infos.drop i = info :: infos.drop (i + 1) ∧ infos[i]? = some info ∧
      info.blockSize.toNat = d.length ∧ fetch info.blockId = some d := by
  obtain ⟨hi, rfl⟩ := List.getElem?_eq_some_iff.mp hd
  have hi' : i < infos.length := h.length ▸ hi
  exact ⟨infos[i], List.drop_eq_getElem_cons hi', List.getElem?_eq_getElem hi',
    List.Forall₂.get h hi' hi⟩

section Past

variable {ds : List Bytes} {i o n : ℕ} {d : Bytes} (hd : ds[i]? = some d) (ho : o ≤ d.length)
  (hn : d.length - o ≤ n)
include hd ho hn

/-- A read of `n` bytes that takes the rest of a block goes on with the next one. -/
theorem take_remaining : (remaining ds i o).take n =
    d.drop o ++ (remaining ds (i + 1) 0).take (n - (d.length - o)) := by
  rw [remaining_of_getElem? hd ho, List.take_append,
    List.take_of_length_le (by rwa [List.length_drop]), List.length_drop, remaining_succ]

theorem drop_remaining : (remaining ds i o).drop n =
    (remaining ds (i + 1) 0).drop (n - (d.length - o)) := by
  rw [remaining_of_getElem? hd ho, List.drop_append,
    List.drop_eq_nil_of_le (by rwa [List.length_drop]), List.length_drop, List.nil_append,
    remaining_succ]

theorem length_remaining_le_iff : (remaining ds i o).length ≤ n ↔
    (remaining ds (i + 1) 0).length ≤ n - (d.length - o) := by
  rw [remaining_of_getElem? hd ho, List.length_append, List.length_drop, remaining_succ]
  omega

end Past

/-- The loop of `calcBlocks` from block `i` on, where the buffer has room for `expect` bytes.
Where it runs to the end of the blocks it leaves the reader at the start of the last one. -/
theorem calcLoop_spec {infos : List BlockInfo} {ds : List Bytes} (h : Describes fetch infos ds)
    {expect i o q : ℕ} {cur : ℕ × ℕ} {out : Bytes} (hq : q ≤ expect) (hqo : q ≤ out.length)
    (ho : Within ds i o ∨ i = ds.length ∧ o = 0)
    (hout : out.drop q = (remaining ds i o).take (expect - q)) :
    Calculated ds out q (calcLoop expect (infos.drop i) i o q cur).1 ∧
      if (remaining ds i o).length ≤ expect - q
      then (calcLoop expect (infos.drop i) i o q cur).2 =
        (if i < ds.length then (ds.length - 1, 0) else cur, false)
      else (calcLoop expect (infos.drop i) i o q cur).2.2 = true ∧
        ∃ i' o', (calcLoop expect (infos.drop i) i o q cur).2.1 = (i', o') ∧ Inside ds i' o' ∧
          remaining ds i' o' = (remaining ds i o).drop (expect - q) := by
  -- induction on the number of blocks that are left
  induction hk : ds.length - i generalizing i o q cur with
  | zero =>
    have hend : i = ds.length ∧ o = 0 := by
      refine ho.resolve_left fun hin => ?_
      have := hin.lt_length
      omega
    obtain ⟨rfl, rfl⟩ := hend
    have hnil : infos.drop ds.length = [] := by rw [← h.length, List.drop_length]
    have hrem : remaining ds ds.length 0 = [] := by rw [remaining, List.drop_length]; rfl
    rw [hrem, List.take_nil, List.drop_eq_nil_iff] at hout
    rw [hnil, hrem, calcLoop]
    exact ⟨calculated_nil hout, by simp⟩
  | succ k ih =>
    have hi : i < ds.length := by omega
    obtain ⟨d, hd, hod⟩ : Within ds i o := ho.resolve_right (by omega)
    obtain ⟨info, hdrop, -, hsize, -⟩ := h.get hd
    have hrem := remaining_of_getElem? hd hod
    have hlen : (d.drop o).length = d.length - o := List.length_drop
    have houtlen : out.length - q = min (expect - q) (remaining ds i o).length := by
      rw [← List.length_drop, hout, List.length_take]
    rw [hdrop, calcLoop]
    simp only [hsize]
    rw [hrem, List.length_append, hlen] at houtlen
    by_cases hfull : o + (expect - q) ≥ d.length
    · -- the rest of this block is read, the loop goes on with the next one
      have hfit : d.length - o ≤ expect - q := by omega
      have hsplit : out.drop q = d.drop o ++
          (remaining ds (i + 1) 0).take (expect - (q + (d.length - o))) := by
        rw [hout, take_remaining hd hod hfit, Nat.sub_sub]
      have hnext : out.drop (q + (d.length - o)) =
          (remaining ds (i + 1) 0).take (expect - (q + (d.length - o))) := by
        rw [← List.drop_drop, hsplit, ← hlen, List.drop_left]
      have hpos : Within ds (i + 1) 0 ∨ i + 1 = ds.length ∧ 0 = 0 := by
        by_cases hlt : i + 1 < ds.length
        · exact .inl (within_zero hlt)
        · exact .inr ⟨by omega, rfl⟩
      obtain ⟨hcalc, hrest⟩ := @ih (i + 1) 0 (q + (d.length - o)) (i, 0)
        (by omega) (by omega) hpos hnext (by omega)
      have hserves : Serves ds out ⟨i, o, o + (d.length - o), q, q + (d.length - o)⟩ :=
        serves_of_take hd (by omega) (by omega)
          (by rw [hsplit, ← hlen, List.take_left, List.take_length])
      rw [Nat.add_sub_cancel' hod] at hserves
      rw [if_pos hfull]
      refine ⟨hcalc.cons hserves rfl, ?_⟩
      have hcur : (if i + 1 < ds.length then (ds.length - 1, 0) else (i, 0)) =
          if i < ds.length then (ds.length - 1, 0) else cur := by
        rw [if_pos hi]
        split_ifs with hlt
        · rfl
        · rw [show i = ds.length - 1 by omega]
      have hiff := length_remaining_le_iff hd hod hfit
      have hskip := drop_remaining hd hod hfit
      rw [Nat.sub_sub] at hiff hskip
      simpa only [hiff, hskip, hcur] using hrest
    · -- the read ends inside this block
      have hpart : out.drop q = (d.drop o).take (expect - q) := by
        rw [hout, hrem, List.take_append_of_le_length (by omega)]
      have hserves : Serves ds out ⟨i, o, o + (expect - q), q, q + (expect - q)⟩ :=
        serves_of_take hd (by omega) (by omega) (by rw [hpart, List.take_take, Nat.min_self])
      rw [if_neg hfull]
      refine ⟨(calculated_nil (by simp only; omega)).cons hserves rfl, ?_⟩
      rw [if_neg (by rw [hrem, List.length_append, hlen]; omega)]
      refine ⟨rfl, i, o + (expect - q), rfl, ⟨d, hd, by omega⟩, ?_⟩
      rw [hrem, remaining_of_getElem? hd (by omega), List.drop_append_of_le_length (by omega),
        List.drop_drop]

def Coherent (fetch : Bytes → Option Bytes) (cached : ByteMap Bytes) : Prop :=
  ∀ k d, cached[k]? = some d → fetch k = some d

theorem coherent_empty : Coherent fetch ∅ := by
  intro k d h
  rw [ExtTreeMap.getElem?_empty] at h
  cases h

theorem Coherent.insert {cached : ByteMap Bytes} (h : Coherent fetch cached) {k d : Bytes}
    (hk : fetch k = some d) : Coherent fetch (cached.insert k d) := by
  intro k' d' h'
  rw [ExtTreeMap.getElem?_insert] at h'
  split_ifs at h' with heq
  · rw [LawfulEqCmp.compare_eq_iff_eq] at heq
    rw [← heq, hk, h']
  · exact h k' d' h'

theorem Coherent.erase {cached : ByteMap Bytes} (h : Coherent fetch cached) (k : Bytes) :
    Coherent fetch (cached.erase k) := by
  intro k' d' h'
  rw [ExtTreeMap.getElem?_erase] at h'
  split_ifs at h'
  exact h k' d' h'

theorem getBlock_spec {cached : ByteMap Bytes} (h : Coherent fetch cached) {info : BlockInfo}
    {d : Bytes} (hd : fetch info.blockId = some d) :
    ∃ cached', getBlock fetch cached info = some (d, cached') ∧ Coherent fetch cached' := by
  unfold getBlock
  cases hc : cached[info.blockId]? with
  | some d' =>
    have : d' = d := Option.some.inj ((h _ _ hc).symm.trans hd)
    exact ⟨cached, by rw [this], h⟩
  | none => exact ⟨cached.insert info.blockId d, by simp [hd], h.insert hd⟩

variable {c : Capacity}

theorem Capacity.length_le_cap (c : Capacity) (block : Bytes) : block.length ≤ c.cap block := by
  unfold cap
  split_ifs <;> omega

/-- A slice of the block itself. -/
theorem Capacity.slice_of_le {block : Bytes} {l r : ℕ} (hlr : l ≤ r) (hr : r ≤ block.length) :
    c.slice block l r = some ((block.drop l).take (r - l)) := by
  have hcap := c.length_le_cap block
  unfold slice
  rw [if_pos ⟨hlr, hr.trans hcap⟩, List.take_append_of_le_length hr, List.drop_take]

/-- Writing a part of `out` to its place: the buffer agrees with `out` there, and is
unchanged elsewhere. -/
theorem getElem?_copy {buffer src out : Bytes} {l r : ℕ} (hlr : l ≤ r) (hr : r ≤ buffer.length)
    (hout : r ≤ out.length) (hsrc : src = (out.drop l).take (r - l)) (j : ℕ) :
    (buffer.take l ++ src ++ buffer.drop r)[j]? =
      if l ≤ j ∧ j < r then out[j]? else buffer[j]? := by
  have hl : (buffer.take l).length = l := by rw [List.length_take]; omega
  have hs : src.length = r - l := by
    rw [hsrc, List.length_take, List.length_drop]
    omega
  rw [List.getElem?_append, List.getElem?_append, List.length_append, hl, hs]
  by_cases h₁ : j < l
  · rw [if_pos (by omega), if_pos h₁, if_neg (by omega), List.getElem?_take_of_lt h₁]
  · by_cases h₂ : j < r
    · rw [if_pos (by omega), if_neg h₁, if_pos (by omega), hsrc,
        List.getElem?_take_of_lt (by omega), List.getElem?_drop]
      congr 1
      omega
    · rw [if_neg (by omega), if_neg (by omega), List.getElem?_drop]
      congr 1
      omega

/-- A goroutine that has the block its span is about. The span fits the buffer and the block, so
neither slice panics. -/
theorem copySpan_spec {ds : List Bytes} {out d : Bytes} {span : CalcBlock} {s : ReadState}
    (hs : Serves ds out span) (hd : ds[span.blockIndex]? = some d)
    (hlen : out.length ≤ s.buffer.length) (info : BlockInfo) (cached : ByteMap Bytes) :
    ∃ s', copySpan c s span info d cached = some s' ∧
      s'.cached = (if span.blockEnd = d.length then cached.erase info.blockId else cached) ∧
      s'.buffer.length = s.buffer.length ∧ s'.count = s.count + spanSize span ∧
      ∀ j, s'.buffer[j]? =
        if span.bufferStart ≤ j ∧ j < span.bufferEnd then out[j]? else s.buffer[j]? := by
  obtain ⟨d', hd', hend, heq⟩ := hs.block
  obtain rfl : d = d' := Option.some.inj (hd.symm.trans hd')
  have hin := hs.within
  have hle := hs.buffer_le
  have hslice := c.slice_of_le hs.block_le hend
  have hsrc : ((d.drop span.blockStart).take (span.blockEnd - span.blockStart)).length =
      span.bufferEnd - span.bufferStart := by
    rw [hs.same_size, List.length_take, List.length_drop]
    omega
  have hright : span.bufferStart + (span.bufferEnd - span.bufferStart) = span.bufferEnd := by
    omega
  have hcopy := getElem?_copy hle (hin.trans hlen) hin heq
  unfold copySpan
  rw [hslice, Option.bind_eq_bind, Option.bind_some, if_pos (hin.trans hlen)]
  simp only [hsrc, Nat.min_self, hright]
  rw [List.take_of_length_le hsrc.le]
  refine ⟨_, rfl, rfl, ?_, rfl, hcopy⟩
  simp only [List.length_append, hsrc, List.length_take, List.length_drop]
  omega

theorem readSpan_spec {infos : List BlockInfo} {ds : List Bytes} {out : Bytes} {span : CalcBlock}
    {s : ReadState} (h : Describes fetch infos ds) (hs : Serves ds out span)
    (hc : Coherent fetch s.cached) (hlen : out.length ≤ s.buffer.length) :
    ∃ s', readSpan c fetch infos s span = some s' ∧ Coherent fetch s'.cached ∧
      s'.buffer.length = s.buffer.length ∧ s'.count = s.count + spanSize span ∧
      ∀ j, s'.buffer[j]? =
        if span.bufferStart ≤ j ∧ j < span.bufferEnd then out[j]? else s.buffer[j]? := by
  obtain ⟨d, hd, -⟩ := hs.block
  obtain ⟨info, -, hinfo, -, hfetch⟩ := h.get hd
  obtain ⟨cached, hget, hcached⟩ := getBlock_spec hc hfetch
  unfold readSpan
  rw [hinfo]
  simp only [Option.bind_eq_bind, Option.bind_some, hget]
  obtain ⟨s', hcopy, hcached', hspec⟩ := copySpan_spec (c := c) hs hd hlen info cached
  refine ⟨s', hcopy, ?_, hspec⟩
  rw [hcached']
  split_ifs
  · exact hcached.erase _
  · exact hcached

/-- The goroutines of one read, in the order in which they run. A byte that is right stays
right, since every span writes bytes of `out`. -/
theorem readSpans_spec {infos : List BlockInfo} {ds : List Bytes} {out : Bytes}
    (h : Describes fetch infos ds) {spans : List CalcBlock} (hs : ∀ t ∈ spans, Serves ds out t)
    {s : ReadState} (hc : Coherent fetch s.cached) (hlen : out.length ≤ s.buffer.length) :
    ∃ s', spans.foldlM (readSpan c fetch infos) s = some s' ∧ Coherent fetch s'.cached ∧
      s'.buffer.length = s.buffer.length ∧ s'.count = s.count + (spans.map spanSize).sum ∧
      ∀ j, (s.buffer[j]? = out[j]? ∨ ∃ t ∈ spans, t.bufferStart ≤ j ∧ j < t.bufferEnd) →
        s'.buffer[j]? = out[j]? := by
  induction spans generalizing s with
  | nil => exact ⟨s, rfl, hc, rfl, rfl, fun j hj => hj.resolve_right (by simp)⟩
  | cons t ts ih =>
    obtain ⟨s₁, h₁, hc₁, hlen₁, hcount₁, hbuf₁⟩ :=
      readSpan_spec h (hs t List.mem_cons_self) hc hlen
    obtain ⟨s₂, h₂, hc₂, hlen₂, hcount₂, hbuf₂⟩ :=
      ih (fun u hu => hs u (List.mem_cons_of_mem t hu)) hc₁ (hlen₁ ▸ hlen)
    refine ⟨s₂, ?_, hc₂, hlen₂.trans hlen₁, ?_, ?_⟩
    · rw [List.foldlM_cons, h₁]
      exact h₂
    · rw [hcount₂, hcount₁, List.map_cons, List.sum_cons, Nat.add_assoc]
    · intro j hj
      apply hbuf₂ j
      rw [hbuf₁ j]
      split_ifs with hin
      · exact .inl rfl
      · rcases hj with hj | ⟨u, hu, hcov⟩
        · exact .inl hj
        · rcases List.mem_cons.mp hu with rfl | hu
          · exact absurd hcov hin
          · exact .inr ⟨u, hu, hcov⟩

/-- The reader stands before the bytes `rest` of the blocks. -/
structure StandsBefore (fetch : Bytes → Option Bytes) (ds : List Bytes) (r : EcosReader)
    (rest : Bytes) : Prop where
  describes : Describes fetch r.objectMeta.blocks ds
  position : Within ds r.curBlockIndex r.curBlockOffset ∨
    ds = [] ∧ r.curBlockIndex = 0 ∧ r.curBlockOffset = 0
  remaining : remaining ds r.curBlockIndex r.curBlockOffset = rest
  coherent : Coherent fetch r.cachedBlocks

/-- The start of the blocks, or of the last of them. -/
theorem within_or_nil {ds : List Bytes} {i : ℕ} (hi : i ≤ ds.length - 1) :
    Within ds i 0 ∨ ds = [] ∧ i = 0 ∧ 0 = 0 := by
  rcases ds.eq_nil_or_concat with rfl | ⟨init, d, rfl⟩
  · exact .inr ⟨rfl, by simpa using hi, rfl⟩
  · refine .inl (within_zero ?_)
    simp only [List.concat_eq_append, List.length_append, List.length_singleton] at hi ⊢
    omega

theorem standsBefore_new {ds : List Bytes} {m : ObjectMeta} (h : Describes fetch m.blocks ds) :
    StandsBefore fetch ds { capacity := c, objectMeta := m } ds.flatten :=
  ⟨h, within_or_nil (Nat.zero_le _), rfl, coherent_empty⟩

/-- What a reader delivers that has come to the end of the blocks: `calcBlocks` leaves it at the
start of the last block. -/
def afterEnd (ds : List Bytes) : Bytes := ds.getLastD []

theorem remaining_last (ds : List Bytes) : remaining ds (ds.length - 1) 0 = afterEnd ds := by
  rcases ds.eq_nil_or_concat with rfl | ⟨init, d, rfl⟩
  · rfl
  · simp [remaining, afterEnd]

theorem StandsBefore.calcBlocks {ds : List Bytes} {r : EcosReader} {rest : Bytes}
    (h : StandsBefore fetch ds r rest) (expect : ℕ) :
    ∃ spans r' eof, calcBlocks r expect = (spans, r', eof) ∧
      Calculated ds (rest.take expect) 0 spans ∧ (eof = true ↔ rest.length ≤ expect) ∧
      StandsBefore fetch ds r' (if eof then afterEnd ds else rest.drop expect) ∧
      r'.objectMeta = r.objectMeta ∧ r'.cachedBlocks = r.cachedBlocks := by
  obtain ⟨hdesc, hpos, rfl, hcoh⟩ := h
  have hpos' : Within ds r.curBlockIndex r.curBlockOffset ∨
      r.curBlockIndex = ds.length ∧ r.curBlockOffset = 0 :=
    hpos.imp_right fun hnil => ⟨by rw [hnil.1, hnil.2.1, List.length_nil], hnil.2.2⟩
  obtain ⟨hcalc, hrest⟩ := @calcLoop_spec fetch _ _ hdesc expect r.curBlockIndex r.curBlockOffset 0
    (r.curBlockIndex, r.curBlockOffset)
    ((Client.remaining ds r.curBlockIndex r.curBlockOffset).take expect)
    (Nat.zero_le _) (Nat.zero_le _) hpos' rfl
  -- `io.EOF` leaves the reader at the start of the last block
  have hend : (if r.curBlockIndex < ds.length then (ds.length - 1, 0)
      else (r.curBlockIndex, r.curBlockOffset)) = (ds.length - 1, 0) := by
    rcases hpos with hin | ⟨rfl, hi, ho⟩
    · rw [if_pos hin.lt_length]
    · rw [hi, ho]
      rfl
  rw [Nat.sub_zero, hend] at hrest
  unfold Client.calcBlocks
  generalize calcLoop expect (r.objectMeta.blocks.drop r.curBlockIndex) r.curBlockIndex
    r.curBlockOffset 0 (r.curBlockIndex, r.curBlockOffset) = res at hcalc hrest
  obtain ⟨spans, ⟨i, o⟩, finish⟩ := res
  refine ⟨spans, _, _, rfl, hcalc, ?_, ?_, rfl, rfl⟩
  · split_ifs at hrest with hle
    · simpa [hle] using congrArg Prod.snd hrest
    · simpa [hle] using hrest.1
  · split_ifs at hrest with hle
    · cases hrest
      exact ⟨hdesc, within_or_nil le_rfl, remaining_last ds, hcoh⟩
    · obtain ⟨hfinish, i', o', hcur, hin, hrem⟩ := hrest
      cases hfinish
      cases hcur
      exact ⟨hdesc, .inl hin.within, hrem, hcoh⟩

def ReadCall.Fair (call : ReadCall) : Prop := ∀ spans, (call.schedule spans).Perm spans

/-- One `Read`: the next bytes that fit the buffer, and `io.EOF` with the last of them. -/
theorem StandsBefore.read {ds : List Bytes} {r : EcosReader} {rest : Bytes}
    (h : StandsBefore fetch ds r rest) {call : ReadCall} (hfair : call.Fair) :
    ∃ res, read fetch r call = some res ∧
      res.buffer.take res.n = rest.take call.buffer.length ∧
      res.n = min call.buffer.length rest.length ∧ res.buffer.length = call.buffer.length ∧
      res.reader.objectMeta = r.objectMeta ∧
      (res.eof = true ↔ rest.length ≤ call.buffer.length) ∧
      StandsBefore fetch ds res.reader
        (if res.eof then afterEnd ds else rest.drop call.buffer.length) := by
  obtain ⟨spans, r', eof, hcalc, hspans, heof, hnext, hmeta, hcached⟩ :=
    h.calcBlocks call.buffer.length
  have hperm := hfair spans
  obtain ⟨s, hfold, hcoh, hlen, hcount, hbuf⟩ := @readSpans_spec fetch r'.capacity
    r'.objectMeta.blocks ds (rest.take call.buffer.length) (hmeta ▸ h.describes)
    (call.schedule spans)
    (fun t ht => hspans.serves t (hperm.mem_iff.mp ht)) ⟨call.buffer, r'.cachedBlocks, 0⟩
    (hcached ▸ h.coherent) (by simp)
  have hn : s.count = (rest.take call.buffer.length).length := by
    rw [hcount, (hperm.map spanSize).sum_eq, hspans.size]
    simp
  refine ⟨⟨{ r' with cachedBlocks := s.cached }, s.buffer, s.count, eof⟩, ?_, ?_, ?_, hlen,
    hmeta, heof, ?_⟩
  · unfold Client.read
    rw [hcalc]
    simp only [hfold]
    rfl
  · rw [hn]
    exact hspans.take_eq fun j t ht hcov => hbuf j (.inr ⟨t, hperm.mem_iff.mpr ht, hcov⟩)
  · exact hn.trans List.length_take
  · exact ⟨hnext.describes, hnext.position, hnext.remaining, hcoh⟩

def roomOf (calls : List ReadCall) : ℕ := (calls.map fun call => call.buffer.length).sum

/-- Reading up to the first `io.EOF` returns the rest of the bytes, as far as the buffers go. -/
theorem StandsBefore.readUntilEOF {ds : List Bytes} {r : EcosReader} {rest : Bytes}
    (h : StandsBefore fetch ds r rest) {calls : List ReadCall} (hfair : ∀ c ∈ calls, c.Fair) :
    ∃ eof, readUntilEOF fetch r calls = some (rest.take (roomOf calls), eof) ∧
      (eof = true ↔ calls ≠ [] ∧ rest.length ≤ roomOf calls) := by
  induction calls generalizing r rest with
  | nil => exact ⟨false, by simp [Client.readUntilEOF, roomOf], by simp⟩
  | cons call calls ih =>
    obtain ⟨res, hread, hbytes, -, -, -, heof, hnext⟩ := h.read (hfair call List.mem_cons_self)
    have hroom : roomOf (call :: calls) = call.buffer.length + roomOf calls := rfl
    rw [Client.readUntilEOF, hread, hroom]
    cases he : res.eof with
    | true =>
      have hle := heof.mp he
      refine ⟨true, ?_, by simp; omega⟩
      simp only [Option.bind_eq_bind, Option.bind_some, he, if_true, hbytes]
      rw [List.take_of_length_le hle, List.take_of_length_le (by omega)]
      rfl
    | false =>
      rw [he, if_neg Bool.false_ne_true] at hnext
      obtain ⟨eof, hrec, hiff⟩ := ih hnext fun c hc => hfair c (List.mem_cons_of_mem call hc)
      have hgt : ¬rest.length ≤ call.buffer.length := fun hle => by simp [heof.mpr hle] at he
      refine ⟨eof, ?_, ?_⟩
      · simp only [Option.bind_eq_bind, Option.bind_some, he, hbytes, hrec]
        rw [List.take_add]
        rfl
      · rw [hiff, List.length_drop]
        constructor
        · rintro ⟨-, hle⟩
          exact ⟨List.cons_ne_nil call calls, by omega⟩
        · rintro ⟨-, hle⟩
          -- without a further call the bytes left over would have been an `io.EOF`
          refine ⟨?_, by omega⟩
          rintro rfl
          exact hgt (by simpa [roomOf] using hle)

end Ecos.Client
