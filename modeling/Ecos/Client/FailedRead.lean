import Ecos.Client.Seek

namespace Ecos.Client
open Go Std

/-- The step at which `genPipelines` fails. -/
inductive Loading where
  | metaFailed
  | clusterInfoFailed
  | pipelinesFailed
  | loaded
  deriving DecidableEq, Repr

/-- What one `Read` meets. -/
structure Remote where
  /-- the meta of the object -/
  objectMeta : ObjectMeta
  genPipelines : Loading := .loaded
  /-- `ConnectType` is `ConnectCloud` -/
  connectCloud : Bool := false
  /-- what the fetch of the block at this index returns, unless it is an error -/
  fetchBlock : ℕ → Option Bytes

/-- An `EcosReader` whose meta and pipelines may be nil. -/
structure OpenReader where
  capacity : Capacity
  objectMeta : Option ObjectMeta := none
  pipes : Bool := false
  curBlockIndex : ℕ := 0
  curBlockOffset : ℕ := 0
  cachedBlocks : ByteMap Bytes := ∅

/-- The result of `GetBlock`: the block with the new cache, or an error. A fetch from the edge
panics where the pipelines are nil. -/
inductive BlockResult where
  | block (content : Bytes) (cached : ByteMap Bytes)
  | error
  | panicked

inductive ReadError where
  | eof
  | failed (message : String)
  deriving DecidableEq, Repr

/-- The goroutines of a read: what they have copied, the counter of the wait group and the number
of `GetBlock` calls that returned an error. -/
structure Gathered where
  state : ReadState
  pending : ℕ
  failed : ℕ := 0

inductive ReadOutcome where
  | panicked
  /-- the wait group never reaches zero -/
  | hangs
  | returns (reader : OpenReader) (buffer : Bytes) (n : ℕ) (err : Option ReadError)

namespace OpenReader

def withMeta (r : OpenReader) (m : ObjectMeta) : EcosReader where
  capacity := r.capacity
  objectMeta := m
  curBlockIndex := r.curBlockIndex
  curBlockOffset := r.curBlockOffset
  cachedBlocks := r.cachedBlocks

/-- `genPipelines`, whose error `Read` only logs. -/
def genPipelines (env : Remote) (r : OpenReader) : OpenReader :=
  match env.genPipelines with
  | .metaFailed => { r with objectMeta := none }
  | .clusterInfoFailed => { r with objectMeta := some env.objectMeta }
  | .pipelinesFailed => { r with objectMeta := some env.objectMeta, pipes := false }
  | .loaded => { r with objectMeta := some env.objectMeta, pipes := true }

/-- The beginning of `Read`. -/
def load (env : Remote) (r : OpenReader) : OpenReader :=
  if r.objectMeta = none ∨ r.pipes = false then r.genPipelines env else r

def getBlock (env : Remote) (pipes : Bool) (cached : ByteMap Bytes) (index : ℕ)
    (info : BlockInfo) : BlockResult :=
  match cached[info.blockId]? with
  | some block => .block block cached
  | none =>
    if env.connectCloud = false ∧ pipes = false then .panicked
    else match env.fetchBlock index with
      | some block => .block block (cached.insert info.blockId block)
      | none => .error

/-- The goroutine of one span; `none` is a panic. After an error of `GetBlock` it returns without
a signal to the wait group. -/
def runSpan (c : Capacity) (env : Remote) (pipes : Bool) (blocks : List BlockInfo) (g : Gathered)
    (span : CalcBlock) : Option Gathered := do
  let info ← blocks[span.blockIndex]?
  match getBlock env pipes g.state.cached span.blockIndex info with
  | .panicked => none
  | .error => some { g with failed := g.failed + 1 }
  | .block block cached =>
    let state ← copySpan c g.state span info block cached
    return { g with state := state, pending := g.pending - 1 }

def gather (env : Remote) (r : OpenReader) (m : ObjectMeta) (call : ReadCall) : Option Gathered :=
  let (spans, _, _) := calcBlocks (r.withMeta m) call.buffer.length
  (call.schedule spans).foldlM (runSpan r.capacity env r.pipes m.blocks)
    { state := ⟨call.buffer, r.cachedBlocks, 0⟩, pending := spans.length }

/-- `Read`. The error it returns is the one of `calcBlocks`, which reads the blocks of a meta that
may be nil. -/
def read (env : Remote) (r : OpenReader) (call : ReadCall) : ReadOutcome :=
  let r := r.load env
  match r.objectMeta with
  | none => .panicked
  | some m =>
    let (_, moved, eof) := calcBlocks (r.withMeta m) call.buffer.length
    match r.gather env m call with
    | none => .panicked
    | some g =>
      if g.pending = 0 then
        .returns { r with
            curBlockIndex := moved.curBlockIndex
            curBlockOffset := moved.curBlockOffset
            cachedBlocks := g.state.cached }
          g.state.buffer g.state.count (if eof then some .eof else none)
      else .hangs

/-- The block at this index is returned when it is asked for: from the edge only where there are
pipelines to find it with. -/
def Fetchable (env : Remote) (pipes : Bool) (index : ℕ) : Prop :=
  (env.connectCloud = true ∨ pipes = true) ∧ ∃ block, env.fetchBlock index = some block

/-- Each of the goroutines finds its block in the cache, or fetches it. A block stays in the cache
until it has been read to its end. -/
def Available (env : Remote) (pipes : Bool) (blocks : List BlockInfo) :
    Set Bytes → List CalcBlock → Prop
  | _, [] => True
  | cached, span :: spans => ∃ info, blocks[span.blockIndex]? = some info ∧
    (info.blockId ∈ cached ∨ Fetchable env pipes span.blockIndex) ∧
    Available env pipes blocks
      (if span.blockEnd = info.blockSize.toNat then cached \ {info.blockId}
        else insert info.blockId cached) spans

/-- The meta can be fetched, and so can every block that the read asks for and does not find in its
cache. -/
def FetchesAll (env : Remote) (r : OpenReader) (call : ReadCall) : Prop :=
  ∃ m, (r.load env).objectMeta = some m ∧
    Available env (r.load env).pipes m.blocks {id | id ∈ r.cachedBlocks}
      (call.schedule (calcBlocks (r.withMeta m) call.buffer.length).1)

/-- What a caller may expect of a `Read` before the bytes `rest`: it returns, a failed fetch is an
error that is not `io.EOF`, and otherwise the bytes counted are the next ones. -/
def Reports (env : Remote) (r : OpenReader) (call : ReadCall) (rest : Bytes) : Prop :=
  ∃ r' buffer n err, r.read env call = .returns r' buffer n err ∧
    (¬ r.FetchesAll env call → ∃ message, err = some (.failed message)) ∧
    (err = none ∨ err = some .eof → n ≤ rest.length ∧ buffer.take n = rest.take n)

variable {c : Capacity} {store : Bytes → Option Bytes} {env : Remote} {pipes : Bool}
  {infos : List BlockInfo} {ds : List Bytes} {out : Bytes}

def Truthful (env : Remote) (store : Bytes → Option Bytes) (infos : List BlockInfo) : Prop :=
  ∀ i info block, infos[i]? = some info → env.fetchBlock i = some block →
    store info.blockId = some block

/-- `GetBlock` returns the block exactly where it is cached or can be fetched, and leaves it in the
cache. -/
theorem getBlock_cases {cached : ByteMap Bytes} {i : ℕ} {info : BlockInfo} {d : Bytes}
    (hc : Coherent store cached) (ht : Truthful env store infos) (hi : infos[i]? = some info)
    (hd : store info.blockId = some d) :
    ((getBlock env pipes cached i info = .panicked ∨ getBlock env pipes cached i info = .error) ∧
      ¬ (info.blockId ∈ cached ∨ Fetchable env pipes i)) ∨
    ∃ cached', getBlock env pipes cached i info = .block d cached' ∧ Coherent store cached' ∧
      (info.blockId ∈ cached ∨ Fetchable env pipes i) ∧
      ∀ id, id ∈ cached' ↔ id = info.blockId ∨ id ∈ cached := by
  unfold getBlock
  cases hk : cached[info.blockId]? with
  | some block =>
    have hmem : info.blockId ∈ cached := by
      rw [ExtTreeMap.mem_iff_isSome_getElem?, hk]
      rfl
    obtain rfl : d = block := Option.some.inj (hd.symm.trans (hc _ _ hk))
    refine .inr ⟨cached, rfl, hc, .inl hmem, fun id => ⟨.inr, ?_⟩⟩
    rintro (rfl | hid)
    · exact hmem
    · exact hid
  | none =>
    have hmem : info.blockId ∉ cached := by
      rw [ExtTreeMap.mem_iff_isSome_getElem?, hk]
      exact Bool.false_ne_true
    dsimp only
    split_ifs with hedge
    · -- the nil pipelines are dereferenced
      exact .inl ⟨.inl rfl, by simp [hmem, Fetchable, hedge]⟩
    · have hpipes : env.connectCloud = true ∨ pipes = true := by
        rw [not_and_or, Bool.not_eq_false, Bool.not_eq_false] at hedge
        exact hedge
      cases hf : env.fetchBlock i with
      | none => exact .inl ⟨.inr rfl, by simp [hmem, Fetchable, hf]⟩
      | some block =>
        obtain rfl : d = block := Option.some.inj (hd.symm.trans (ht i info block hi hf))
        refine .inr ⟨_, rfl, hc.insert hd, .inr ⟨hpipes, d, hf⟩, fun id => ?_⟩
        rw [ExtTreeMap.mem_insert, LawfulEqCmp.compare_eq_iff_eq, eq_comm]

/-- A goroutine without its block panics or ends without a signal. One that has it copies its part
and signals. -/
theorem runSpan_cases {g : Gathered} {span : CalcBlock} (h : Describes store infos ds)
    (ht : Truthful env store infos) (hs : Serves ds out span) (hc : Coherent store g.state.cached)
    (hlen : out.length ≤ g.state.buffer.length) :
    ∃ info, infos[span.blockIndex]? = some info ∧
      (((runSpan c env pipes infos g span = none ∨
          runSpan c env pipes infos g span = some { g with failed := g.failed + 1 }) ∧
        ¬ (info.blockId ∈ g.state.cached ∨ Fetchable env pipes span.blockIndex)) ∨
      ∃ s, runSpan c env pipes infos g span =
          some { g with state := s, pending := g.pending - 1 } ∧
        (info.blockId ∈ g.state.cached ∨ Fetchable env pipes span.blockIndex) ∧
        {id | id ∈ s.cached} = (if span.blockEnd = info.blockSize.toNat then
          {id | id ∈ g.state.cached} \ {info.blockId}
          else insert info.blockId {id | id ∈ g.state.cached}) ∧
        Coherent store s.cached ∧ s.buffer.length = g.state.buffer.length ∧
        s.count = g.state.count + spanSize span ∧
        ∀ j, s.buffer[j]? =
          if span.bufferStart ≤ j ∧ j < span.bufferEnd then out[j]? else g.state.buffer[j]?) := by
  obtain ⟨d, hd, -⟩ := hs.block
  obtain ⟨info, -, hinfo, hsize, hstore⟩ := h.get hd
  refine ⟨info, hinfo, ?_⟩
  unfold runSpan
  rw [hinfo, Option.bind_eq_bind, Option.bind_some]
  rcases @getBlock_cases store env pipes infos _ _ _ _ hc ht hinfo hstore with
    ⟨hget | hget, hout⟩ | ⟨cached, hget, hc', hin, hmem⟩
  · exact .inl ⟨.inl (by simp [hget]), hout⟩
  · exact .inl ⟨.inr (by simp [hget]), hout⟩
  · obtain ⟨s, hcopy, hcached, hspec⟩ := copySpan_spec (c := c) hs hd hlen info cached
    refine .inr ⟨s, by simp [hget, hcopy], hin, ?_, ?_, hspec⟩
    · ext id
      rw [hcached, hsize]
      split_ifs
      · have hne : compare info.blockId id ≠ .eq ↔ id ≠ info.blockId := by
          rw [ne_eq, LawfulEqCmp.compare_eq_iff_eq, eq_comm]
        simp only [Set.mem_ofPred_eq, ExtTreeMap.mem_erase, hne, hmem, Set.mem_sdiff,
          Set.mem_singleton_iff]
        tauto
      · simp only [Set.mem_ofPred_eq, hmem, Set.mem_insert_iff]
    · rw [hcached]
      split_ifs
      · exact hc'.erase _
      · exact hc'

/-- What the goroutines of these spans leave behind, begun in `g`. Each of them that does not fail
takes one off the counter, and where none fails the bytes of all spans are right. -/
structure Gathers (out : Bytes) (spans : List CalcBlock) (g g' : Gathered) : Prop where
  failed_le : g.failed ≤ g'.failed
  pending : g'.pending = g.pending - spans.length + (g'.failed - g.failed)
  count : g'.failed = g.failed →
    g'.state.count = g.state.count + (spans.map spanSize).sum
  bytes : g'.failed = g.failed →
    ∀ j, (g.state.buffer[j]? = out[j]? ∨ ∃ t ∈ spans, t.bufferStart ≤ j ∧ j < t.bufferEnd) →
      g'.state.buffer[j]? = out[j]?

namespace Gathers

variable {t : CalcBlock} {ts : List CalcBlock} {g g' : Gathered}

theorem refl (g : Gathered) : Gathers out [] g g := by
  refine ⟨le_rfl, by simp, fun _ => rfl, fun _ j hj => ?_⟩
  exact hj.resolve_right (by simp)

/-- A goroutine that ends without a signal. -/
theorem cons_failed (h : Gathers out ts { g with failed := g.failed + 1 } g')
    (hpending : ts.length < g.pending) : Gathers out (t :: ts) g g' := by
  obtain ⟨hle, hpend, -, -⟩ := h
  dsimp only at hle hpend
  refine ⟨by omega, by rw [List.length_cons]; omega, ?_, ?_⟩ <;> intro hno <;> omega

theorem cons_copied {s : ReadState}
    (h : Gathers out ts { g with state := s, pending := g.pending - 1 } g')
    (hcount : s.count = g.state.count + spanSize t)
    (hbytes : ∀ j, s.buffer[j]? =
      if t.bufferStart ≤ j ∧ j < t.bufferEnd then out[j]? else g.state.buffer[j]?) :
    Gathers out (t :: ts) g g' := by
  obtain ⟨hle, hpend, hcount', hbytes'⟩ := h
  dsimp only at hpend
  refine ⟨hle, by rw [List.length_cons]; omega, fun hno => ?_, fun hno j hj => ?_⟩
  · rw [hcount' hno, hcount, List.map_cons, List.sum_cons, Nat.add_assoc]
  · apply hbytes' hno j
    rw [hbytes j]
    split_ifs with hcov
    · exact .inl rfl
    · rcases hj with hj | ⟨u, hu, hu'⟩
      · exact .inl hj
      · rcases List.mem_cons.mp hu with rfl | hu
        · exact absurd hu' hcov
        · exact .inr ⟨u, hu, hu'⟩

end Gathers

theorem runSpans_cases {spans : List CalcBlock} {g : Gathered} (h : Describes store infos ds)
    (ht : Truthful env store infos) (hs : ∀ t ∈ spans, Serves ds out t)
    (hc : Coherent store g.state.cached) (hlen : out.length ≤ g.state.buffer.length)
    (hpending : spans.length ≤ g.pending) :
    (spans.foldlM (runSpan c env pipes infos) g = none ∧
      ¬ Available env pipes infos {id | id ∈ g.state.cached} spans) ∨
    ∃ g', spans.foldlM (runSpan c env pipes infos) g = some g' ∧ Gathers out spans g g' ∧
      (g'.failed = g.failed ↔ Available env pipes infos {id | id ∈ g.state.cached} spans) := by
  induction spans generalizing g with
  | nil => exact .inr ⟨g, rfl, .refl g, iff_of_true rfl trivial⟩
  | cons t ts ih =>
    rw [List.length_cons] at hpending
    have hts : ∀ u ∈ ts, Serves ds out u := fun u hu => hs u (List.mem_cons_of_mem t hu)
    obtain ⟨info, hinfo, hcases⟩ :=
      @runSpan_cases c store env pipes infos ds out g t h ht (hs t List.mem_cons_self) hc hlen
    rw [List.foldlM_cons]
    simp only [Available, hinfo, Option.some.injEq, exists_eq_left']
    rcases hcases with ⟨hrun | hrun, hout⟩ | ⟨s, hrun, hin, hkeys, hc', hlen', hcount, hbytes⟩
    · exact .inl ⟨by rw [hrun]; rfl, fun hall => hout hall.1⟩
    · -- one failure is enough for the counter not to reach zero
      rw [hrun]
      rcases ih (g := { g with failed := g.failed + 1 }) hts hc hlen
        (Nat.le_of_succ_le hpending) with ⟨hnone, -⟩ | ⟨g', hg', hgathers, -⟩
      · exact .inl ⟨hnone, fun hall => hout hall.1⟩
      · have hle : g.failed + 1 ≤ g'.failed := hgathers.failed_le
        exact .inr ⟨g', hg', hgathers.cons_failed hpending,
          iff_of_false (by omega) fun hall => hout hall.1⟩
    · rw [hrun, ← hkeys]
      rcases ih (g := { g with state := s, pending := g.pending - 1 }) hts hc' (hlen'.symm ▸ hlen)
        (by simp only; omega) with ⟨hnone, hno⟩ | ⟨g', hg', hgathers, hiff⟩
      · exact .inl ⟨hnone, fun hall => hno hall.2⟩
      · exact .inr ⟨g', hg', hgathers.cons_copied hcount hbytes,
          hiff.trans (and_iff_right hin).symm⟩

variable {m : ObjectMeta} {r : OpenReader} {rest : Bytes} {call : ReadCall}

/-- The goroutines of one read before `rest`: one of them panics, or the counter ends at the number
of failed `GetBlock` calls, and at zero the next bytes are in the buffer. -/
theorem gather_cases (hst : StandsBefore store ds (r.withMeta m) rest)
    (ht : Truthful env store m.blocks) (hfair : call.Fair) {spans : List CalcBlock}
    (hspans : (calcBlocks (r.withMeta m) call.buffer.length).1 = spans) :
    (r.gather env m call = none ∧
      ¬ Available env r.pipes m.blocks {id | id ∈ r.cachedBlocks} (call.schedule spans)) ∨
    ∃ g, r.gather env m call = some g ∧ g.pending = g.failed ∧
      (g.failed = 0 ↔
        Available env r.pipes m.blocks {id | id ∈ r.cachedBlocks} (call.schedule spans)) ∧
      (g.failed = 0 → g.state.count ≤ rest.length ∧
        g.state.buffer.take g.state.count = rest.take g.state.count) := by
  obtain ⟨spans', r', eof, hcalc, hserves, -, -, -, -⟩ := hst.calcBlocks call.buffer.length
  obtain rfl : spans' = spans := by rw [← hspans, hcalc]
  have hperm := hfair spans'
  unfold gather
  rw [hcalc]
  refine (@runSpans_cases r.capacity store env r.pipes m.blocks ds
    (rest.take call.buffer.length) (call.schedule spans')
    { state := ⟨call.buffer, r.cachedBlocks, 0⟩, pending := spans'.length }
    hst.describes ht (fun t h => hserves.serves t (hperm.mem_iff.mp h)) hst.coherent (by simp)
    hperm.length_eq.le).imp_right ?_
  rintro ⟨g, hg, hgathers, hall⟩
  have hpending := hgathers.pending
  simp only [hperm.length_eq, Nat.sub_self, Nat.zero_add, Nat.sub_zero] at hpending
  refine ⟨g, hg, hpending, hall, fun hzero => ?_⟩
  have hn : g.state.count = (rest.take call.buffer.length).length := by
    rw [hgathers.count hzero, (hperm.map spanSize).sum_eq, hserves.size]
    simp
  rw [hn]
  refine ⟨List.length_take_le' _ _, ?_⟩
  have hbytes := hserves.take_eq fun j t hmem hcov =>
    hgathers.bytes hzero j (.inr ⟨t, hperm.mem_iff.mpr hmem, hcov⟩)
  rw [hbytes]
  exact List.prefix_iff_eq_take.mp (List.take_prefix _ _)

/-- The meta of the object, once it is loaded. -/
theorem load_objectMeta (hr : ∀ m ∈ r.objectMeta, m = env.objectMeta) :
    ∀ m ∈ (r.load env).objectMeta, m = env.objectMeta := by
  unfold load genPipelines
  split_ifs
  · cases env.genPipelines <;> simp
  · exact hr

theorem load_cachedBlocks (env : Remote) (r : OpenReader) :
    (r.load env).cachedBlocks = r.cachedBlocks := by
  unfold load genPipelines
  split_ifs
  · cases env.genPipelines <;> rfl
  · rfl

theorem load_withMeta (env : Remote) (r : OpenReader) (m : ObjectMeta) :
    (r.load env).withMeta m = r.withMeta m := by
  unfold load genPipelines
  split_ifs
  · cases env.genPipelines <;> rfl
  · rfl

/-- In every state before the bytes `rest` of its object, and whatever fails, a reader reports as
it should exactly where everything can be fetched: without its meta it panics, and without one of
the blocks it waits for ever, or panics where the pipelines are missing. -/
theorem reports_iff_fetchesAll (env : Remote) (store : Bytes → Option Bytes) (ds : List Bytes)
    (r : OpenReader) (rest : Bytes) (call : ReadCall)
    (hst : StandsBefore store ds (r.withMeta env.objectMeta) rest)
    (hr : ∀ m ∈ r.objectMeta, m = env.objectMeta) (ht : Truthful env store env.objectMeta.blocks)
    (hfair : call.Fair) : r.Reports env call rest ↔ r.FetchesAll env call := by
  have hload := load_objectMeta hr
  cases hm : (r.load env).objectMeta with
  | none => simp [Reports, FetchesAll, read, hm]
  | some m =>
    obtain rfl : m = env.objectMeta := hload m hm
    rw [← load_withMeta env] at hst
    have hall : r.FetchesAll env call ↔
        Available env (r.load env).pipes env.objectMeta.blocks
          {id | id ∈ (r.load env).cachedBlocks}
          (call.schedule (calcBlocks ((r.load env).withMeta env.objectMeta)
            call.buffer.length).1) := by
      simp only [FetchesAll, hm, Option.some.injEq, exists_eq_left', load_withMeta,
        load_cachedBlocks]
    rw [hall]
    rcases gather_cases hst ht hfair rfl with ⟨hg, hno⟩ | ⟨g, hg, hpending, havail, hbytes⟩
    · simp [Reports, hno, read, hm, hg]
    · rw [← havail]
      by_cases hzero : g.failed = 0
      · refine iff_of_true ?_ hzero
        obtain ⟨hn, hbuf⟩ := hbytes hzero
        obtain ⟨r', err, hread⟩ : ∃ r' err,
            r.read env call = .returns r' g.state.buffer g.state.count err := by
          simp only [read, hm, hg, hpending, hzero, if_true]
          exact ⟨_, _, rfl⟩
        exact ⟨r', _, _, err, hread, fun hno => absurd (hall.mpr (havail.mp hzero)) hno,
          fun _ => ⟨hn, hbuf⟩⟩
      · simp [Reports, read, hm, hg, hpending, hzero]

def pairRemote (genPipelines : Loading) (fetchable : List ℕ) : Remote where
  objectMeta := pairMeta
  genPipelines := genPipelines
  fetchBlock i := if i ∈ fetchable then [[1, 2], [3]][i]? else none

theorem truthful_pairRemote (genPipelines : Loading) (fetchable : List ℕ) :
    Truthful (pairRemote genPipelines fetchable) pairFetch pairMeta.blocks := by
  intro i info block hi hf
  simp only [pairRemote] at hf
  split_ifs at hf
  rcases i with _ | _ | i
  · cases hi
    cases hf
    rfl
  · cases hi
    cases hf
    rfl
  · cases hi

/-- A new reader loads its meta and reads both blocks. -/
theorem reports_iff_fetchesAll_pairMeta :
    OpenReader.FetchesAll (pairRemote .loaded [0, 1]) { capacity := pairCapacity }
        ⟨[0, 0, 0], List.reverse⟩ ∧
      OpenReader.Reports (pairRemote .loaded [0, 1]) { capacity := pairCapacity }
        ⟨[0, 0, 0], List.reverse⟩ [1, 2, 3] := by
  have hall : OpenReader.FetchesAll (pairRemote .loaded [0, 1]) { capacity := pairCapacity }
      ⟨[0, 0, 0], List.reverse⟩ :=
    ⟨pairMeta, rfl, _, rfl, .inr ⟨.inr rfl, _, rfl⟩, _, rfl, .inr ⟨.inr rfl, _, rfl⟩, trivial⟩
  exact ⟨hall, (reports_iff_fetchesAll (pairRemote .loaded [0, 1]) pairFetch [[1, 2], [3]]
    { capacity := pairCapacity } [1, 2, 3] ⟨[0, 0, 0], List.reverse⟩
    (standsBefore_new describes_pairMeta) (by simp) (truthful_pairRemote .loaded [0, 1])
    List.reverse_perm).mpr hall⟩

/-- Without the meta `Read` panics, and so it does without the cluster info, in the goroutine of a
block. Where the second block cannot be fetched it never returns. -/
theorem read_panics_or_hangs :
    OpenReader.read (pairRemote .metaFailed [0, 1]) { capacity := pairCapacity }
        ⟨[0, 0, 0], id⟩ = .panicked ∧
      OpenReader.read (pairRemote .clusterInfoFailed [0, 1]) { capacity := pairCapacity }
        ⟨[0, 0, 0], id⟩ = .panicked ∧
      OpenReader.read (pairRemote .loaded [0]) { capacity := pairCapacity }
        ⟨[0, 0, 0], id⟩ = .hangs :=
  ⟨rfl, rfl, rfl⟩

end OpenReader

end Ecos.Client
