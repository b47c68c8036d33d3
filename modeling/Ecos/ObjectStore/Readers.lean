import Ecos.ObjectStore.System

namespace Ecos.ObjectStore
open Go Logic Std Alaya Client

section
variable {ideal ideal' : Bytes → Option Bytes} {ds : List Bytes} {infos : List BlockInfo}

/-- The infos list blocks that together are `content`. `ideal` has the blocks as their writers cut
them. -/
def Content (ideal : Bytes → Option Bytes) (infos : List BlockInfo) (content : Bytes) : Prop :=
  ∃ ds, Describes ideal infos ds ∧ ds.flatten = content

def Trimmed (ideal : Bytes → Option Bytes) (blocks : ByteMap Bytes) : Prop :=
  ∀ id d, blocks[id]? = some d → ∃ c, ideal id = some c ∧ d <+: c

def Grows (ideal ideal' : Bytes → Option Bytes) : Prop :=
  ∀ id c, ideal id = some c → ideal' id = some c

theorem describes_mono (h : Grows ideal ideal') (hd : Describes ideal infos ds) :
    Describes ideal' infos ds :=
  hd.imp fun _ _ hb => ⟨hb.1, h _ _ hb.2⟩

theorem Content.mono (h : Grows ideal ideal') {content : Bytes} (hc : Content ideal infos content) :
    Content ideal' infos content := by
  obtain ⟨ds, hd, heq⟩ := hc
  exact ⟨ds, describes_mono h hd, heq⟩

theorem Trimmed.mono (h : Grows ideal ideal') {blocks : ByteMap Bytes} (ht : Trimmed ideal blocks) :
    Trimmed ideal' blocks := by
  intro id d hd
  obtain ⟨c, hc, hle⟩ := ht id d hd
  exact ⟨c, h id c hc, hle⟩

theorem coherent_mono (h : Grows ideal ideal') {blocks : ByteMap Bytes}
    (hc : Coherent ideal blocks) : Coherent ideal' blocks :=
  fun id d hd => h id d (hc id d hd)

theorem trimmed_empty : Trimmed ideal ∅ := by
  intro id d h
  rw [ExtTreeMap.getElem?_empty] at h
  cases h

theorem Trimmed.insert {blocks : ByteMap Bytes} (h : Trimmed ideal blocks) {id d c : Bytes}
    (hc : ideal id = some c) (hd : d <+: c) : Trimmed ideal (blocks.insert id d) := by
  intro id' d' h'
  rw [ExtTreeMap.getElem?_insert] at h'
  split_ifs at h' with heq
  · rw [LawfulEqCmp.compare_eq_iff_eq] at heq
    cases h'
    exact ⟨c, heq ▸ hc, hd⟩
  · exact h id' d' h'

theorem Trimmed.erase {blocks : ByteMap Bytes} (h : Trimmed ideal blocks) (id : Bytes) :
    Trimmed ideal (blocks.erase id) := by
  intro id' d' h'
  rw [ExtTreeMap.getElem?_erase] at h'
  split_ifs at h'
  exact h id' d' h'

def extend (ideal : Bytes → Option Bytes) (sent : List (Bytes × Bytes)) (id : Bytes) :
    Option Bytes :=
  (sent.lookup id).or (ideal id)

theorem extend_sent {sent : List (Bytes × Bytes)} (hnodup : (sent.map Prod.fst).Nodup)
    {e : Bytes × Bytes} (he : e ∈ sent) : extend ideal sent e.1 = some e.2 := by
  have hlookup : sent.lookup e.1 = some e.2 := by
    obtain ⟨l₁, l₂, rfl⟩ := List.append_of_mem he
    refine List.lookup_eq_some_iff.mpr ⟨l₁, l₂, rfl, ?_⟩
    intro p hp
    rw [List.map_append, List.map_cons, List.nodup_append] at hnodup
    have hne := hnodup.2.2 p.1 (List.mem_map_of_mem hp) e.1 List.mem_cons_self
    simpa using hne.symm
  rw [extend, hlookup]
  rfl

theorem extend_of_notMem {sent : List (Bytes × Bytes)} {id : Bytes}
    (hid : id ∉ sent.map Prod.fst) : extend ideal sent id = ideal id := by
  have hlookup : sent.lookup id = none := by
    rw [List.lookup_eq_none_iff]
    intro p hp
    have hne : id ≠ p.1 := fun heq => hid (heq ▸ List.mem_map_of_mem hp)
    simpa using hne
  rw [extend, hlookup]
  rfl

theorem grows_extend {sent : List (Bytes × Bytes)}
    (hfresh : ∀ id ∈ sent.map Prod.fst, ideal id = none) : Grows ideal (extend ideal sent) := by
  intro id c hc
  by_cases hid : id ∈ sent.map Prod.fst
  · rw [hfresh id hid] at hc
    cases hc
  · rw [extend_of_notMem hid, hc]

/-- The meta that a closed writer submits lists the bytes written. -/
theorem close_content {f : Factory} (hf : PoolOk f) {key : Bytes} {term : UInt64} {ps : List Bytes}
    {completions : List (ℕ × Bool)}
    (harrive : Arrive (committedAll f (writes f { key := key, term := term } ps)) completions)
    {res : CloseResult}
    (hclose : close f (writes f { key := key, term := term } ps) completions [.ok] = some res)
    {m : ObjectMeta} (hm : res.submitted.head? = some m)
    (hsent : ∀ e ∈ res.writer.sent, ideal e.1 = some e.2) :
    Content ideal m.blocks ps.flatten := by
  obtain ⟨hstatus, -, -, bs, cs, hfill⟩ := (written_new hf key term).writes hf ps
  obtain ⟨bs', hcommitted, hsplit⟩ := hfill.committedAll hf
  obtain ⟨w', m', hgen, hall⟩ := close_eq hstatus hcommitted harrive
  rw [hall [.ok]] at hclose
  cases hclose
  cases hm
  refine ⟨bs'.map Block.bytes, hsplit.describes hgen hsent, ?_⟩
  rw [← List.flatMap_def, hsplit.content, List.nil_append]

end

section
variable {ideal fetch : Bytes → Option Bytes} {ds : List Bytes} {infos : List BlockInfo}

theorem getBlock_whole (hfetch : ∀ id d, fetch id = some d → ideal id = some d)
    {cached cached' : ByteMap Bytes} (hc : Coherent ideal cached) {info : BlockInfo} {d : Bytes}
    (h : getBlock fetch cached info = some (d, cached')) :
    ideal info.blockId = some d ∧ Coherent ideal cached' := by
  unfold getBlock at h
  cases hhit : cached[info.blockId]? with
  | some d' =>
    rw [hhit] at h
    cases h
    exact ⟨hc _ _ hhit, hc⟩
  | none =>
    rw [hhit] at h
    obtain ⟨d', hd', heq⟩ := Option.map_eq_some_iff.mp h
    cases heq
    exact ⟨hfetch _ _ hd', hc.insert (hfetch _ _ hd')⟩

/-- What a goroutine copies is right, or it never signals because its block is gone. -/
theorem readSpan_whole {c : Capacity} (hfetch : ∀ id d, fetch id = some d → ideal id = some d)
    (h : Describes ideal infos ds) {out : Bytes} {span : CalcBlock} (hs : Serves ds out span)
    {s s' : ReadState} (hc : Coherent ideal s.cached) (hlen : out.length ≤ s.buffer.length)
    (hread : readSpan c fetch infos s span = some s') :
    Coherent ideal s'.cached ∧ s'.buffer.length = s.buffer.length ∧
      s'.count = s.count + spanSize span ∧
      ∀ j, s'.buffer[j]? =
        if span.bufferStart ≤ j ∧ j < span.bufferEnd then out[j]? else s.buffer[j]? := by
  obtain ⟨d, hd, -⟩ := hs.block
  obtain ⟨info, -, hinfo, -, hideal⟩ := h.get hd
  unfold readSpan at hread
  simp only [hinfo, Option.bind_eq_bind, Option.bind_some, Option.bind_eq_some_iff,
    Prod.exists] at hread
  obtain ⟨block, cached, hget, hcopy⟩ := hread
  obtain ⟨hblock, hcached⟩ := getBlock_whole hfetch hc hget
  rw [hideal] at hblock
  cases hblock
  obtain ⟨s₁, hcopy₁, hcached₁, hspec⟩ := @copySpan_spec c ds out d span s hs hd hlen info cached
  rw [hcopy] at hcopy₁
  cases hcopy₁
  refine ⟨?_, hspec⟩
  rw [hcached₁]
  split_ifs
  · exact hcached.erase _
  · exact hcached

end

def uncached (r : EcosReader) : EcosReader := { r with cachedBlocks := ∅ }

/-- The goroutines that have run have copied their parts of the next bytes. -/
structure Reading.Copied (rd : Reading) (ds : List Bytes) (rest : Bytes) : Prop where
  spans : ∃ done spans, Calculated ds (rest.take rd.state.buffer.length) 0 spans ∧
    (done ++ rd.pending).Perm spans ∧ rd.state.count = (done.map spanSize).sum ∧
    ∀ j, ∀ t ∈ done, t.bufferStart ≤ j ∧ j < t.bufferEnd →
      rd.state.buffer[j]? = (rest.take rd.state.buffer.length)[j]?
  eof : rd.eof = true ↔ rest.length ≤ rd.state.buffer.length

/-- The reader of the blocks `ds` has still to deliver `rest`. Nothing is said of a `Read` that
hangs. -/
structure Delivers (ideal : Bytes → Option Bytes) (ds : List Bytes) (g : Get) (rest : Bytes) :
    Prop where
  describes : Describes ideal g.reader.objectMeta.blocks ds
  idle : g.reading = none → Coherent ideal g.reader.cachedBlocks ∧
    (g.eof = false → StandsBefore ideal ds (uncached g.reader) rest)
  busy : ∀ rd, g.reading = some rd → rd.hangs = false → Coherent ideal rd.state.cached ∧
    rd.Copied ds rest ∧ (rd.eof = false →
      StandsBefore ideal ds (uncached g.reader) (rest.drop rd.state.buffer.length))

def Serving (ideal : Bytes → Option Bytes) (g : Get) (rest : Bytes) : Prop :=
  ∃ ds, Delivers ideal ds g rest

section
variable {ideal ideal' : Bytes → Option Bytes} {ds : List Bytes} {g : Get} {rest : Bytes}
  {rd : Reading}

theorem standsBefore_mono (h : Grows ideal ideal') {r : EcosReader}
    (hs : StandsBefore ideal ds (uncached r) rest) : StandsBefore ideal' ds (uncached r) rest :=
  ⟨describes_mono h hs.describes, hs.position, hs.remaining, coherent_empty⟩

theorem Serving.mono (h : Grows ideal ideal') (hs : Serving ideal g rest) :
    Serving ideal' g rest := by
  obtain ⟨ds, hs⟩ := hs
  refine ⟨ds, describes_mono h hs.describes, ?_, ?_⟩
  · intro hnone
    obtain ⟨hcached, hstands⟩ := hs.idle hnone
    exact ⟨coherent_mono h hcached, fun heof => standsBefore_mono h (hstands heof)⟩
  · intro rd hrd hhangs
    obtain ⟨hcached, hcopied, hstands⟩ := hs.busy rd hrd hhangs
    exact ⟨coherent_mono h hcached, hcopied, fun heof => standsBefore_mono h (hstands heof)⟩

theorem serving_new (c : Capacity) {m : ObjectMeta} (h : Content ideal m.blocks rest) :
    Serving ideal { reader := { capacity := c, objectMeta := m } } rest := by
  obtain ⟨ds, hds, rfl⟩ := h
  refine ⟨ds, hds, fun _ => ⟨coherent_empty, fun _ => standsBefore_new hds⟩, ?_⟩
  intro rd hrd
  cases hrd

theorem Delivers.begin (h : Delivers ideal ds g rest) (hidle : g.reading = none)
    (heof : g.eof = false) (buffer : Bytes) {spans : List CalcBlock} {reader : EcosReader}
    {eof : Bool} (hcalc : calcBlocks g.reader buffer.length = (spans, reader, eof)) :
    Delivers ideal ds { g with
      reader := reader
      reading := some ⟨⟨buffer, reader.cachedBlocks, 0⟩, spans, eof, false⟩ } rest := by
  obtain ⟨spans', r', eof', hcalc', hspans, heof', hnext, -, -⟩ :=
    ((h.idle hidle).2 heof).calcBlocks buffer.length
  -- the cache plays no part in `calcBlocks`
  have hsame : calcBlocks (uncached g.reader) buffer.length = (spans, uncached reader, eof) := by
    have hparts : calcBlocks (uncached g.reader) buffer.length =
        ((calcBlocks g.reader buffer.length).1, uncached (calcBlocks g.reader buffer.length).2.1,
          (calcBlocks g.reader buffer.length).2.2) := rfl
    rw [hparts, hcalc]
  rw [hsame] at hcalc'
  cases hcalc'
  have hmeta : reader.objectMeta = g.reader.objectMeta := by
    rw [← show (calcBlocks g.reader buffer.length).2.1 = reader by rw [hcalc]]
    rfl
  have hcache : reader.cachedBlocks = g.reader.cachedBlocks := by
    rw [← show (calcBlocks g.reader buffer.length).2.1 = reader by rw [hcalc]]
    rfl
  have hcached := (h.idle hidle).1
  refine ⟨?_, ?_, ?_⟩
  · show Describes ideal reader.objectMeta.blocks ds
    rw [hmeta]
    exact h.describes
  · intro hnone
    cases hnone
  · intro rd hrd _
    cases hrd
    refine ⟨?_, ⟨⟨[], spans, hspans, List.Perm.refl _, rfl, ?_⟩, heof'⟩, ?_⟩
    · show Coherent ideal reader.cachedBlocks
      rw [hcache]
      exact hcached
    · intro j t ht
      cases ht
    · intro hmore
      dsimp only at hmore
      subst hmore
      exact hnext

theorem Reading.Copied.span (h : rd.Copied ds rest) {infos : List BlockInfo}
    {fetch : Bytes → Option Bytes} (hfetch : ∀ id d, fetch id = some d → ideal id = some d)
    (hdesc : Describes ideal infos ds) (hc : Coherent ideal rd.state.cached) {k : ℕ}
    {span : CalcBlock} (hk : rd.pending[k]? = some span) {c : Capacity} {state : ReadState}
    (hread : readSpan c fetch infos rd.state span = some state) :
    Coherent ideal state.cached ∧ state.buffer.length = rd.state.buffer.length ∧
      { rd with state := state, pending := rd.pending.eraseIdx k }.Copied ds rest := by
  obtain ⟨⟨done, spans, hcalc, hperm, hcount, hbuf⟩, heof⟩ := h
  obtain ⟨hlt, rfl⟩ := List.getElem?_eq_some_iff.mp hk
  have hmem : rd.pending[k] ∈ spans :=
    hperm.subset (List.mem_append_right _ (List.getElem_mem hlt))
  obtain ⟨hcached, hlen, hcount', hbuf'⟩ :=
    readSpan_whole hfetch hdesc (hcalc.serves _ hmem) hc (by simp) hread
  refine ⟨hcached, hlen, ⟨rd.pending[k] :: done, spans, ?_, ?_, ?_, ?_⟩, ?_⟩
  · dsimp only
    rw [hlen]
    exact hcalc
  · -- the span moves from the pending ones to those that have run
    have hmove : (rd.pending[k] :: done ++ rd.pending.eraseIdx k).Perm
        (done ++ rd.pending[k] :: rd.pending.eraseIdx k) := List.perm_middle.symm
    exact hmove.trans (((List.getElem_cons_eraseIdx_perm hlt).append_left done).trans hperm)
  · dsimp only
    rw [hcount', hcount, List.map_cons, List.sum_cons, Nat.add_comm]
  · intro j t ht hcov
    dsimp only
    rw [hlen, hbuf' j]
    -- a byte that two spans cover is the same in both
    by_cases hin : rd.pending[k].bufferStart ≤ j ∧ j < rd.pending[k].bufferEnd
    · rw [if_pos hin]
    · rw [if_neg hin]
      rcases List.mem_cons.mp ht with rfl | ht
      · exact absurd hcov hin
      · exact hbuf j t ht hcov
  · dsimp only
    rw [hlen]
    exact heof

theorem Delivers.span (h : Delivers ideal ds g rest) (hrd : g.reading = some rd) {s : System}
    (hgaia : Coherent ideal s.gaia) {k : ℕ} {span : CalcBlock} (hk : rd.pending[k]? = some span)
    (reached : Bool) :
    Delivers ideal ds { g with reading := some (runSpan s g rd k span reached) } rest := by
  have hfetch : ∀ id d, (if reached then s.gaia[id]? else none) = some d → ideal id = some d := by
    intro id d hd
    split_ifs at hd
    exact hgaia id d hd
  refine ⟨h.describes, ?_, ?_⟩
  · intro hnone
    cases hnone
  · intro rd' hrd' hhangs
    cases hrd'
    unfold runSpan at hhangs ⊢
    dsimp only at hhangs ⊢
    cases hread : readSpan g.reader.capacity (fun id => if reached then s.gaia[id]? else none)
        g.reader.objectMeta.blocks rd.state span with
    | none =>
      rw [hread] at hhangs
      cases hhangs
    | some state =>
      rw [hread] at hhangs
      obtain ⟨hcached, hcopied, hstands⟩ := h.busy rd hrd hhangs
      obtain ⟨hcached', hlen, hcopied'⟩ := hcopied.span hfetch h.describes hcached hk hread
      refine ⟨hcached', hcopied', fun heof => ?_⟩
      show StandsBefore ideal ds (uncached g.reader) (rest.drop state.buffer.length)
      rw [hlen]
      exact hstands heof

/-- `Read` returns the next bytes. -/
theorem Delivers.finish (h : Delivers ideal ds g rest) (hrd : g.reading = some rd)
    (hpending : rd.pending = []) (hhangs : rd.hangs = false) :
    rd.state.buffer.take rd.state.count = rest.take rd.state.buffer.length ∧
      rd.eof = decide (rest.length ≤ rd.state.buffer.length) ∧
      Delivers ideal ds ⟨{ g.reader with cachedBlocks := rd.state.cached }, none, rd.eof⟩
        (rest.drop rd.state.buffer.length) := by
  obtain ⟨hcached, ⟨⟨done, spans, hcalc, hperm, hcount, hbuf⟩, heof⟩, hstands⟩ :=
    h.busy rd hrd hhangs
  rw [hpending, List.append_nil] at hperm
  have hn : rd.state.count = (rest.take rd.state.buffer.length).length := by
    rw [hcount, (hperm.map spanSize).sum_eq, hcalc.size, Nat.sub_zero]
  refine ⟨?_, ?_, h.describes, ?_, ?_⟩
  · rw [hn]
    apply hcalc.take_eq
    intro j t ht hcov
    exact hbuf j t (hperm.mem_iff.mpr ht) hcov
  · rw [Bool.eq_iff_iff, heof, decide_eq_true_iff]
  · exact fun _ => ⟨hcached, hstands⟩
  · intro rd' hrd'
    cases hrd'

end

end Ecos.ObjectStore
