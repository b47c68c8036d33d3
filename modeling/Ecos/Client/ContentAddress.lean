import Ecos.Client.RoundTrip

namespace Ecos.Client
open Go Std

/-- A writer from its first `Write` to the end of `Close`. -/
structure Upload (f : Factory) where
  key : Bytes
  term : UInt64
  ps : List Bytes
  completions : List (ℕ × Bool)
  arrive : Arrive (committedAll f (writes f { key := key, term := term } ps)) completions

namespace Upload
variable {f : Factory}

def written (u : Upload f) : Bytes := u.ps.flatten

/-- The blocks of the meta that `Close` submits. -/
def blocks (u : Upload f) : List BlockInfo :=
  match close f (writes f { key := u.key, term := u.term } u.ps) u.completions [.ok] with
  | none => []
  | some r => r.submitted.flatMap ObjectMeta.blocks

theorem blocks_eq (hf : PoolOk f) (u : Upload f) :
    ∃ bs, Split f bs u.written ∧ u.blocks = listedInfos f bs := by
  obtain ⟨hstatus, -, -, bs, cs, hfill⟩ := (written_new hf u.key u.term).writes hf u.ps
  obtain ⟨bs', hcommitted, hsplit⟩ := hfill.committedAll hf
  obtain ⟨w', m, hm, hclose⟩ := close_eq hstatus hcommitted u.arrive
  refine ⟨bs', hsplit, ?_⟩
  rw [blocks, hclose, ← hm.blocks]
  exact List.append_nil _

end Upload

/-- The blocks hold these bytes, and each is named by the configured hash of its own. -/
def Addressed (f : Factory) (infos : List BlockInfo) (total : Bytes) : Prop :=
  ∃ ds : List Bytes, ds.flatten = total ∧ List.Forall₂ (fun info d =>
    info.blockSize.toNat = d.length ∧
      info.blockHash = f.hexSum f.bucketInfo.config.blockHashType d ∧
      info.blockId = info.blockHash) infos ds

/-- Two writers of one bucket: only the chunks they receive and the UUIDs they draw may differ. -/
structure Peers (f f' : Factory) : Prop where
  pool : PoolOk f
  pool' : PoolOk f'
  chunkSize : f'.chunkSize = f.chunkSize
  bucketInfo : f'.bucketInfo = f.bucketInfo
  hexSum : f'.hexSum = f.hexSum
  genBlockPG : f'.genBlockPG = f.genBlockPG
  /-- a UUID is not the empty string -/
  uuid : ∀ i, f.genBlockId i ≠ []

/-- Where the bucket asks for it, the blocks are addressed by their content, and those of the two
runs agree. -/
def ContentAddressed {f f' : Factory} (u : Upload f) (u' : Upload f') : Prop :=
  f.bucketInfo.config.blockHashType ≠ .off →
    Addressed f u.blocks u.written ∧ Addressed f' u'.blocks u'.written ∧
      u'.blocks.map BlockInfo.blockHash = u.blocks.map BlockInfo.blockHash ∧
      u'.blocks.map BlockInfo.blockId = u.blocks.map BlockInfo.blockId ∧
      u'.blocks.map BlockInfo.pgId = u.blocks.map BlockInfo.pgId

theorem Split.eq_nil_iff {f : Factory} {bs : List Block} {total : Bytes} (h : Split f bs total) :
    bs = [] ↔ total = [] := by
  constructor
  · rintro rfl
    exact h.content.symm
  · intro htotal
    have hcontent := h.content
    rw [htotal, List.flatMap_eq_nil_iff] at hcontent
    exact List.eq_nil_iff_forall_not_mem.2 fun b hb => h.nonempty b hb (hcontent b hb)

/-- A block of the writer has no hash and a UUID for its name. -/
theorem Addressed.eq_nil {f : Factory} (huuid : ∀ i, f.genBlockId i ≠ []) {bs : List Block}
    {total : Bytes} (h : Addressed f (listedInfos f bs) total) : bs = [] := by
  obtain ⟨ds, -, hds⟩ := h
  cases bs with
  | nil => rfl
  | cons b bs =>
    rw [listedInfos, List.mapIdx_cons] at hds
    cases hds with
    | cons hinfo _ => exact absurd hinfo.2.2 (huuid 1)

/-- The blocks of two writers of the same bytes are addressed by their content only where there
are none. -/
theorem contentAddressed_iff {f f' : Factory} (hp : Peers f f') (u : Upload f) (u' : Upload f')
    (hwritten : u'.written = u.written) :
    ContentAddressed u u' ↔
      f.bucketInfo.config.blockHashType = .off ∨ u.written = [] := by
  obtain ⟨bs, hsplit, hblocks⟩ := u.blocks_eq hp.pool
  obtain ⟨bs', hsplit', hblocks'⟩ := u'.blocks_eq hp.pool'
  rw [hwritten] at hsplit'
  constructor
  · intro haddressed
    by_cases hoff : f.bucketInfo.config.blockHashType = .off
    · exact .inl hoff
    · obtain ⟨hown, -⟩ := haddressed hoff
      rw [hblocks] at hown
      exact .inr (hsplit.eq_nil_iff.1 (hown.eq_nil hp.uuid))
  · rintro (hoff | hnil)
    · exact fun hne => absurd hoff hne
    · intro _
      have hempty : u.blocks = [] := by rw [hblocks, hsplit.eq_nil_iff.2 hnil]; rfl
      have hempty' : u'.blocks = [] := by rw [hblocks', hsplit'.eq_nil_iff.2 hnil]; rfl
      rw [hwritten, hnil, hempty, hempty']
      exact ⟨⟨[], rfl, .nil⟩, ⟨[], rfl, .nil⟩, rfl, rfl, rfl⟩

def hashFactory (uuid : UInt8) : Factory where
  chunkSize := 1
  bucketInfo := ⟨[118], [98], [], { keySlotNum := 1, blockSize := 2, blockHashType := .sha256 }⟩
  ring _ _ := 0
  acquireMultiple _ n := some (List.replicate n ⟨[0], 1⟩)
  genBlockId _ := [uuid]
  genBlockPG info := info.blockId.headD 0 |>.toUInt64
  hexSum _ s := 35 :: s
  now := ⟨0, 0⟩

theorem peers_hashFactory (a b : UInt8) : Peers (hashFactory a) (hashFactory b) := by
  have hpool : ∀ uuid, PoolOk (hashFactory uuid) := by
    intro uuid
    have hper : 0 < (2 : UInt64).toNat / 1 := by decide
    refine ⟨Nat.one_pos, hper, fun i => ⟨_, rfl, List.length_replicate, ?_⟩⟩
    intro c hc
    rw [List.eq_of_mem_replicate hc]
    exact ⟨rfl, rfl⟩
  exact ⟨hpool a, hpool b, rfl, rfl, rfl, rfl, fun _ => List.cons_ne_nil _ _⟩

theorem contentAddressed_of_empty :
    ContentAddressed (⟨[107], 1, [], [], by decide⟩ : Upload (hashFactory 1))
      (⟨[107], 1, [[]], [], by decide⟩ : Upload (hashFactory 2)) :=
  (contentAddressed_iff (peers_hashFactory 1 2) _ _ rfl).2 (.inr rfl)

def typedBlock (t : HashType) (cs : List LocalChunk) : Block :=
  { blockOf cs with blockHashType := t }

/-- The hash is that of whole chunks, the bytes beyond the written ones included. -/
theorem close_typedBlock (f : Factory) {t : HashType} (ht : t ≠ .off) {cs : List LocalChunk}
    (hcs : cs ≠ []) (i : ℕ) :
    ∃ b, (typedBlock t cs).close f i = .ok b ∧ b.info.blockId = b.info.blockHash ∧
      b.info.blockHash = f.hexSum t (cs.flatMap LocalChunk.data) := by
  unfold Block.close Block.updateBlockInfo Block.genBlockHash
  simp only [typedBlock, blockOf, getNewBlock, hcs, ht, if_false, ne_eq, not_true_eq_false]
  exact ⟨_, rfl, rfl, rfl⟩

theorem flatMap_content_eq_iff (cs : List LocalChunk) :
    cs.flatMap LocalChunk.content = cs.flatMap LocalChunk.data ↔
      ∀ c ∈ cs, c.content = c.data := by
  have hle : ∀ cs : List LocalChunk,
      (cs.flatMap LocalChunk.content).length ≤ (cs.flatMap LocalChunk.data).length := by
    intro cs
    rw [List.length_flatMap, List.length_flatMap]
    exact List.sum_le_sum fun c _ => (List.take_sublist _ _).length_le
  induction cs with
  | nil => simp
  | cons c cs ih =>
    rw [List.flatMap_cons, List.flatMap_cons, List.forall_mem_cons]
    constructor
    · intro h
      -- the content of a chunk is shorter than its data, and so is that of the others
      have hlen := congrArg List.length h
      rw [List.length_append, List.length_append] at hlen
      have hown : c.content.length ≤ c.data.length := (List.take_sublist _ _).length_le
      have hothers := hle cs
      obtain ⟨hc, hcs⟩ := List.append_inj h (by omega)
      exact ⟨hc, ih.1 hcs⟩
    · rintro ⟨hc, hcs⟩
      rw [hc, ih.2 hcs]

/-- Under a hash without collisions a block is named by its content exactly when its chunks hold
nothing else. -/
theorem close_typedBlock_iff (f : Factory) {t : HashType} (ht : t ≠ .off)
    (hinj : Function.Injective (f.hexSum t)) {cs : List LocalChunk} (hcs : cs ≠ []) (i : ℕ) :
    ∃ b, (typedBlock t cs).close f i = .ok b ∧
      (b.info.blockHash = f.hexSum t (typedBlock t cs).bytes ↔ ∀ c ∈ cs, c.content = c.data) := by
  obtain ⟨b, hb, -, hhash⟩ := close_typedBlock f ht hcs i
  refine ⟨b, hb, ?_⟩
  rw [hhash, hinj.eq_iff, ← flatMap_content_eq_iff, eq_comm]
  exact Iff.rfl

/-- One byte is written by two writers: their blocks have no hash and different names. With the
hash type set, blocks of the same byte over different stale bytes have different hashes. -/
theorem blocks_not_addressed :
    ¬ContentAddressed (⟨[107], 1, [[1]], [(1, true)], by decide⟩ : Upload (hashFactory 1))
        (⟨[107], 1, [[1]], [(1, true)], by decide⟩ : Upload (hashFactory 2)) ∧
      (⟨[107], 1, [[1]], [(1, true)], by decide⟩ : Upload (hashFactory 1)).blocks =
        [⟨[1], 0, 1, [], 1⟩] ∧
      (⟨[107], 1, [[1]], [(1, true)], by decide⟩ : Upload (hashFactory 2)).blocks =
        [⟨[2], 0, 1, [], 2⟩] ∧
      ((typedBlock .sha256 [⟨[1, 7], 1⟩]).bytes = (typedBlock .sha256 [⟨[1, 9], 1⟩]).bytes ∧
        ((typedBlock .sha256 [⟨[1, 7], 1⟩]).close (hashFactory 1) 1).map (·.info.blockHash) ≠
          ((typedBlock .sha256 [⟨[1, 9], 1⟩]).close (hashFactory 1) 1).map (·.info.blockHash)) := by
  have hblocks : (⟨[107], 1, [[1]], [(1, true)], by decide⟩ : Upload (hashFactory 1)).blocks =
      [⟨[1], 0, 1, [], 1⟩] := rfl
  refine ⟨?_, hblocks, rfl, rfl, by decide⟩
  intro h
  obtain ⟨⟨ds, -, hds⟩, -⟩ := h (by decide)
  rw [hblocks] at hds
  cases hds with
  | cons hinfo _ => exact absurd hinfo.2.2 (by decide)

end Ecos.Client
