import Ecos.BlockReferences
import Ecos.Client.Multipart
import Ecos.Logic.Ledger

namespace Ecos.Client.Multipart
open Go Logic BlockReferences

theorem int32_lt_trans {a b c : Int32} (h : a < b) (h' : b < c) : a < c := by
  rw [Int32.lt_iff_toInt_lt] at *
  omega

/-- `addPartID` keeps the numbers in order. -/
theorem sorted_addPartID {ids ids' : List Int32} {p : Int32} (hs : ids.Pairwise (· < ·))
    (h : addPartID ids p = some ids') : ids'.Pairwise (· < ·) := by
  induction ids generalizing ids' with
  | nil =>
    cases h
    exact List.pairwise_singleton _ _
  | cons id ids ih =>
    rw [List.pairwise_cons] at hs
    rw [addPartID] at h
    split_ifs at h with heq hlt
    · cases h
      refine List.pairwise_cons.mpr ⟨fun q hq => ?_, List.pairwise_cons.mpr hs⟩
      rcases List.mem_cons.mp hq with rfl | hq
      · exact hlt
      · exact int32_lt_trans hlt (hs.1 q hq)
    · obtain ⟨rest, hrest, rfl⟩ := Option.map_eq_some_iff.mp h
      refine List.pairwise_cons.mpr ⟨fun q hq => ?_, ih hs.2 hrest⟩
      rcases Job.mem_addPartID hrest hq with rfl | hq
      · rw [Int32.lt_iff_toInt_lt] at *
        have hne : q.toInt ≠ id.toInt := fun h => heq (Int32.toInt_inj.mp h)
        omega
      · exact hs.1 q hq

theorem addPartID_subset {ids ids' : List Int32} {p : Int32} (h : addPartID ids p = some ids') :
    p ∈ ids' ∧ ∀ q ∈ ids, q ∈ ids' := by
  induction ids generalizing ids' with
  | nil =>
    cases h
    exact ⟨List.mem_singleton_self p, nofun⟩
  | cons id ids ih =>
    rw [addPartID] at h
    split_ifs at h with heq hlt
    · cases h
      exact ⟨List.mem_cons_self, fun q hq => List.mem_cons_of_mem p hq⟩
    · obtain ⟨rest, hrest, rfl⟩ := Option.map_eq_some_iff.mp h
      obtain ⟨hp, hsub⟩ := ih hrest
      exact ⟨List.mem_cons_of_mem id hp, List.cons_subset_cons id hsub⟩

theorem not_mem_of_addPartID {ids ids' : List Int32} {p : Int32} (hs : ids.Pairwise (· < ·))
    (h : addPartID ids p = some ids') : p ∉ ids := by
  induction ids generalizing ids' with
  | nil => exact List.not_mem_nil
  | cons id ids ih =>
    rw [List.pairwise_cons] at hs
    rw [addPartID] at h
    split_ifs at h with heq hlt
    · rw [List.mem_cons, not_or]
      refine ⟨heq, fun hp => ?_⟩
      have hgt := hs.1 p hp
      rw [Int32.lt_iff_toInt_lt] at hlt hgt
      omega
    · obtain ⟨rest, hrest, -⟩ := Option.map_eq_some_iff.mp h
      rw [List.mem_cons, not_or]
      exact ⟨heq, ih hs.2 hrest⟩

theorem mem_of_addPartID_eq_none {ids : List Int32} {p : Int32} (h : addPartID ids p = none) :
    p ∈ ids := by
  induction ids with
  | nil => cases h
  | cons id ids ih =>
    rw [addPartID] at h
    split_ifs at h with heq hlt
    · exact heq ▸ List.mem_cons_self
    · exact List.mem_cons_of_mem id (ih (Option.map_eq_none_iff.mp h))

namespace Job

variable {f : Factory} {j j' : Job}

def blockIdAt (j : Job) (h : ℕ) : Option Bytes := j.heap[h]?.map fun b => b.info.blockId

/-- The ID of the block that `w.blocks` has for a part. -/
def blockIdOf (j : Job) (p : Int32) : Option Bytes := (j.blocks.lookup p).bind j.blockIdAt

def currentIds (j : Job) : List Bytes := j.partIDs.filterMap j.blockIdOf

def heapIds (j : Job) : List Bytes := j.heap.map fun b => b.info.blockId

def active (j : Job) : Bool := j.status = .READING ∨ j.status = .UPLOADING

def maker (j : Job) : Maker Bytes where
  made := j.heapIds
  live := if j.active then j.currentIds else []
  held := if j.active then j.currentIds else []
  pending := j.uploading.filterMap j.blockIdAt
  committed := if j.status = .FINISHED then some j.currentIds else none

/-- The job is completed or aborted, and all its uploads have ended. -/
def Done (j : Job) : Prop := (j.status = .FINISHED ∨ j.status = .ABORTED) ∧ j.uploading = []

instance decidableDone (j : Job) : Decidable j.Done := inferInstanceAs (Decidable (_ ∧ _))

structure WF (j : Job) : Prop where
  sound : j.Sound
  sorted : j.partIDs.Pairwise (· < ·)
  heap : j.heapIds.Nodup
  uploading : ∀ h ∈ j.uploading, h < j.heap.length
  closing : ∀ c, j.closing = some c → j.status = .UPLOADING
  finished : j.status = .FINISHED → j.uploading = []

theorem mem_heapIds {h : ℕ} {id : Bytes} (hid : j.blockIdAt h = some id) : id ∈ j.heapIds := by
  obtain ⟨b, hb, rfl⟩ := Option.map_eq_some_iff.mp hid
  exact List.mem_map_of_mem (List.mem_of_getElem? hb)

theorem mem_currentIds {id : Bytes} :
    id ∈ j.currentIds ↔ ∃ p ∈ j.partIDs, j.blockIdOf p = some id := List.mem_filterMap

/-- A block belongs to one part. -/
theorem WF.part_unique (hj : j.WF) {p q : Int32} {id : Bytes} (hp : j.blockIdOf p = some id)
    (hq : j.blockIdOf q = some id) : p = q := by
  obtain ⟨h, hh, hid⟩ := Option.bind_eq_some_iff.mp hp
  obtain ⟨g, hg, hid'⟩ := Option.bind_eq_some_iff.mp hq
  obtain ⟨b, hb, hbp⟩ := hj.sound.keyed p h hh
  obtain ⟨b', hb', hbq⟩ := hj.sound.keyed q g hg
  have hhg : h = g := by
    have heq : j.heapIds[h]? = j.heapIds[g]? := by
      rw [heapIds, List.getElem?_map, List.getElem?_map]
      exact hid.trans hid'.symm
    have hlt : h < j.heapIds.length := by
      rw [heapIds, List.length_map]
      exact (List.getElem?_eq_some_iff.mp hb).1
    exact (List.getElem?_inj hlt hj.heap).mp heq
  rw [hhg, hb'] at hb
  rw [← hbp, ← hbq, Option.some.inj hb]

theorem WF.nodup_currentIds (hj : j.WF) : j.currentIds.Nodup := by
  have hids : j.partIDs.Nodup := hj.sorted.imp fun hlt heq => by
    rw [heq, Int32.lt_iff_toInt_lt] at hlt
    omega
  exact hids.filterMap fun p q id hp hq => hj.part_unique hp hq

theorem currentIds_made {id : Bytes} (h : id ∈ j.currentIds) : id ∈ j.heapIds := by
  obtain ⟨p, -, hp⟩ := mem_currentIds.mp h
  obtain ⟨g, -, hg⟩ := Option.bind_eq_some_iff.mp hp
  exact mem_heapIds hg

theorem WF.maker (hj : j.WF) : j.maker.WF := by
  refine ⟨?_, fun x hx => hx, fun x hx => ?_, fun x hx => ?_, fun L hL => ?_, fun L hL x hx => ?_,
    fun L hL => ?_⟩
  · simp only [Job.maker]
    split_ifs
    · exact hj.nodup_currentIds
    · exact List.nodup_nil
  · simp only [Job.maker] at hx
    split_ifs at hx
    · exact currentIds_made hx
    · cases hx
  · obtain ⟨g, -, hg⟩ := List.mem_filterMap.mp hx
    exact mem_heapIds hg
  · simp only [Job.maker] at hL
    split_ifs at hL
    cases hL
    exact hj.nodup_currentIds
  · simp only [Job.maker] at hL
    split_ifs at hL
    cases hL
    exact currentIds_made hx
  · simp only [Job.maker] at hL ⊢
    split_ifs at hL with hfinished
    rw [if_neg]
    simp [active, hfinished]

/-- Only a job that is being written or completed has something to commit. -/
theorem maker_active (h : j.active = true) : j.maker =
    ⟨j.heapIds, j.currentIds, j.currentIds, j.uploading.filterMap j.blockIdAt, none⟩ := by
  have hfinished : j.status ≠ .FINISHED := by
    intro hs
    simp [active, hs] at h
  rw [Job.maker, if_pos h, if_neg hfinished]

def withPart (j : Job) (p : Int32) (block : Block) (partIDs : List Int32) : Job :=
  { j.withBlock p block (j.uploading ++ [j.heap.length]) with partIDs }

theorem writePart_ok {p : Int32} {reader : Reader} {id : Bytes}
    (h : j.writePart f p reader none = (j', .ok id)) :
    j.status = .READING ∧ ∃ block partIDs, block.info.blockId = id ∧ block.info.partId = p ∧
      (addPartID j.partIDs p = some partIDs ∨
        (addPartID j.partIDs p = none ∧ partIDs = j.partIDs)) ∧
      j' = j.withPart p block partIDs := by
  have hwrite : ∀ {j₀ : Job}, j₀.writeBlock f p reader = (j', .ok id) →
      ∃ block, block.info.blockId = id ∧ block.info.partId = p ∧
        j' = j₀.withBlock p block (j₀.uploading ++ [j₀.heap.length]) := by
    intro j₀ h
    have hid := partId_readPart (f := f) j₀.heap.length p reader
    unfold writeBlock at h
    dsimp only at h
    split at h
    · cases h
    · rename_i block hr
      cases h
      rw [hr] at hid
      exact ⟨block, rfl, hid, rfl⟩
  unfold writePart at h
  split_ifs at h with hread hrange
  · cases h
  · cases h
  · rw [not_not] at hread
    refine ⟨hread, ?_⟩
    split at h
    · rename_i partIDs hids
      obtain ⟨block, hid, hpart, rfl⟩ := hwrite h
      exact ⟨block, partIDs, hid, hpart, .inl hids, rfl⟩
    · rename_i hids
      split at h
      · cases h
      · obtain ⟨block, hid, hpart, rfl⟩ := hwrite h
        exact ⟨block, j.partIDs, hid, hpart, .inr ⟨hids, rfl⟩, rfl⟩

section Part
variable {p : Int32} {block : Block} {partIDs : List Int32}

theorem heapIds_withPart :
    (j.withPart p block partIDs).heapIds = j.heapIds ++ [block.info.blockId] := by
  simp [heapIds, withPart, withBlock]

theorem blockIdAt_withPart {h : ℕ} (hh : h < j.heap.length) :
    (j.withPart p block partIDs).blockIdAt h = j.blockIdAt h := by
  rw [blockIdAt, withPart, withBlock, List.getElem?_append_left hh, blockIdAt]

theorem blockIdAt_withPart_new :
    (j.withPart p block partIDs).blockIdAt j.heap.length = some block.info.blockId := by
  rw [blockIdAt, withPart, withBlock, List.getElem?_concat_length, Option.map_some]

theorem blockIdOf_withPart_self :
    (j.withPart p block partIDs).blockIdOf p = some block.info.blockId := by
  rw [blockIdOf, withPart, withBlock, AList.lookup_insert]
  exact blockIdAt_withPart_new

theorem WF.blockIdOf_withPart_of_ne (hj : j.WF) {q : Int32} (hq : q ≠ p) :
    (j.withPart p block partIDs).blockIdOf q = j.blockIdOf q := by
  have hlookup : (j.withPart p block partIDs).blocks.lookup q = j.blocks.lookup q := by
    rw [withPart, withBlock, AList.lookup_insert_ne hq]
  rw [blockIdOf, blockIdOf, hlookup]
  cases hh : j.blocks.lookup q with
  | none => rfl
  | some h =>
    obtain ⟨b, hb, -⟩ := hj.sound.keyed q h hh
    exact blockIdAt_withPart (List.getElem?_eq_some_iff.mp hb).1

/-- The new block takes the place of the part's old one. -/
theorem WF.mem_currentIds_withPart (hj : j.WF) (hparts : ∀ q, q ∈ partIDs ↔ q = p ∨ q ∈ j.partIDs)
    {x : Bytes} : x ∈ (j.withPart p block partIDs).currentIds ↔
      x = block.info.blockId ∨ ∃ q ∈ j.partIDs, q ≠ p ∧ j.blockIdOf q = some x := by
  rw [mem_currentIds]
  constructor
  · rintro ⟨q, hq, hx⟩
    by_cases hqp : q = p
    · rw [hqp, blockIdOf_withPart_self] at hx
      exact .inl (Option.some.inj hx).symm
    · rw [hj.blockIdOf_withPart_of_ne hqp] at hx
      exact .inr ⟨q, ((hparts q).mp hq).resolve_left hqp, hqp, hx⟩
  · rintro (rfl | ⟨q, hq, hqp, hx⟩)
    · exact ⟨p, (hparts p).mpr (.inl rfl), blockIdOf_withPart_self⟩
    · exact ⟨q, (hparts q).mpr (.inr hq), by rw [hj.blockIdOf_withPart_of_ne hqp, hx]⟩

theorem WF.mem_pending_withPart (hj : j.WF) {x : Bytes} :
    x ∈ (j.withPart p block partIDs).uploading.filterMap
        (j.withPart p block partIDs).blockIdAt ↔
      x ∈ j.uploading.filterMap j.blockIdAt ∨ x = block.info.blockId := by
  have hold : j.uploading.filterMap (j.withPart p block partIDs).blockIdAt =
      j.uploading.filterMap j.blockIdAt :=
    List.filterMap_congr fun h hh => blockIdAt_withPart (hj.uploading h hh)
  rw [show (j.withPart p block partIDs).uploading = j.uploading ++ [j.heap.length] from rfl,
    List.filterMap_append, hold, List.mem_append, List.filterMap_cons, blockIdAt_withPart_new]
  simp

theorem WF.withPart (hj : j.WF) (hread : j.status = .READING) (hid : block.info.partId = p)
    (hparts : ∀ q, q ∈ partIDs ↔ q = p ∨ q ∈ j.partIDs) (hsorted : partIDs.Pairwise (· < ·))
    (hnew : block.info.blockId ∉ j.heapIds) : (j.withPart p block partIDs).WF where
  sound := hj.sound.withBlock hread hid _ fun q hq => (hparts q).mp hq
  sorted := hsorted
  heap := by
    rw [heapIds_withPart, List.nodup_append]
    refine ⟨hj.heap, List.nodup_singleton _, ?_⟩
    rintro x hx y hy rfl
    exact hnew (List.mem_singleton.mp hy ▸ hx)
  uploading h hh := by
    have hlen : (j.withPart p block partIDs).heap.length = j.heap.length + 1 := by
      simp [Job.withPart, withBlock]
    rw [hlen]
    rcases List.mem_append.mp hh with hh | hh
    · exact Nat.lt_succ_of_lt (hj.uploading h hh)
    · rw [List.mem_singleton.mp hh]
      exact Nat.lt_succ_self _
  closing c hc := by
    have hs := hj.closing c hc
    rw [hread] at hs
    cases hs
  finished hs := by
    change j.status = .FINISHED at hs
    rw [hread] at hs
    cases hs

variable {l : Ledger Bytes}

/-- Writing a part makes a block, and gives up the one that the part had. -/
theorem WF.withPart_moves (hj : j.WF) (hread : j.status = .READING)
    (hid : block.info.partId = p) (hparts : ∀ q, q ∈ partIDs ↔ q = p ∨ q ∈ j.partIDs)
    (hsorted : partIDs.Pairwise (· < ·)) {gone : List Bytes}
    (hgone : ∀ x, x ∈ gone ↔ p ∈ j.partIDs ∧ j.blockIdOf p = some x)
    (hcreated : ∀ x ∈ gone, x ∈ l.created) (hmade : ∀ x ∈ j.heapIds, x ∈ l.generated)
    (hnew : block.info.blockId ∉ l.generated)
    (hawaited : ∀ x ∈ j.maker.pending, x ∈ j.maker.held ∨ x ∈ l.created) :
    (j.withPart p block partIDs).WF ∧
      l.Moves j.maker (j.withPart p block partIDs).maker [block.info.blockId] gone := by
  have hwf := hj.withPart hread hid hparts hsorted fun hmem => hnew (hmade _ hmem)
  refine ⟨hwf, ?_⟩
  have hactive : j.active = true := by simp [active, hread]
  have hactive' : (j.withPart p block partIDs).active = true := hactive
  have hmaker := hwf.maker
  rw [maker_active hactive'] at hmaker ⊢
  rw [maker_active hactive] at hawaited ⊢
  have hgone_made : ∀ x ∈ gone, x ∈ j.heapIds := by
    intro x hx
    obtain ⟨hp, hx⟩ := (hgone x).mp hx
    exact currentIds_made (mem_currentIds.mpr ⟨p, hp, hx⟩)
  -- a part keeps its block, unless it is the one that is written
  have hheld : ∀ x ∈ j.currentIds, x ∈ (j.withPart p block partIDs).currentIds ∨ x ∈ gone := by
    intro x hx
    obtain ⟨q, hq, hx⟩ := mem_currentIds.mp hx
    by_cases hqp : q = p
    · exact .inr ((hgone x).mpr ⟨hqp ▸ hq, hqp ▸ hx⟩)
    · exact .inl ((hj.mem_currentIds_withPart hparts).mpr (.inr ⟨q, hq, hqp, hx⟩))
  refine ⟨hmaker, rfl, rfl, by simpa using hnew, ?_, ?_, ?_, ?_, hheld, hgone_made, ?_⟩
  · intro x
    rw [heapIds_withPart, List.mem_append]
  · intro x hx
    rcases (hj.mem_currentIds_withPart hparts).mp hx with rfl | ⟨q, hq, -, hx⟩
    · exact .inr ⟨List.mem_singleton_self _, hj.mem_pending_withPart.mpr (.inr rfl)⟩
    · exact .inl (mem_currentIds.mpr ⟨q, hq, hx⟩)
  · exact fun x hx => .inl (hj.mem_pending_withPart.mpr (.inl hx))
  · intro x hx
    rcases hj.mem_pending_withPart.mp hx with hx | rfl
    · rcases hawaited x hx with hx | hx
      · exact (hheld x hx).imp_right (hcreated x)
      · exact .inr hx
    · exact .inl ((hj.mem_currentIds_withPart hparts).mpr (.inl rfl))
  · intro x hx hmem
    rcases (hj.mem_currentIds_withPart hparts).mp hmem with rfl | ⟨q, -, hqp, hq⟩
    · exact hnew (hmade _ (hgone_made _ hx))
    · exact hqp (hj.part_unique hq ((hgone x).mp hx).2)

end Part

variable {l : Ledger Bytes}

/-- The block that ends its upload keeps its ID. -/
theorem uploadBlock_eq {h : ℕ} (hstep : j.uploadBlock h true = some j') :
    h ∈ j.uploading ∧ j'.blockIdAt = j.blockIdAt ∧ j'.heapIds = j.heapIds ∧
      j'.heap.length = j.heap.length ∧ j'.partIDs = j.partIDs ∧ j'.blocks = j.blocks ∧
      j'.status = j.status ∧ j'.closing = j.closing ∧ j'.uploading = j.uploading.erase h := by
  obtain ⟨block, hblock, hin, rfl⟩ := uploadBlock_cases hstep
  have hids : (j.heap.set h { block with status := uploadStatus true, chunks := [] }).map
      (fun b => b.info.blockId) = j.heap.map fun b => b.info.blockId := by
    rw [List.map_set]
    refine List.ext_getElem? fun g => ?_
    by_cases hgh : h = g
    · obtain ⟨hlt, -⟩ := List.getElem?_eq_some_iff.mp hblock
      rw [← hgh, List.getElem?_set_self (by rw [List.length_map]; exact hlt), List.getElem?_map,
        hblock, Option.map_some]
    · rw [List.getElem?_set_ne hgh]
  refine ⟨hin, ?_, hids, List.length_set, rfl, rfl, rfl, rfl, rfl⟩
  funext g
  have hg := congrArg (fun ids => ids[g]?) hids
  simp only [List.getElem?_map] at hg
  exact hg

theorem WF.uploadBlock (hj : j.WF) {h : ℕ} (hstep : j.uploadBlock h true = some j')
    (hc : ∀ x, j.blockIdAt h = some x → x ∈ l.created)
    (hawaited : ∀ x ∈ j.maker.pending, x ∈ j.maker.held ∨ x ∈ l.created) :
    j'.WF ∧ l.Moves j.maker j'.maker [] [] := by
  obtain ⟨hin, hat, hids, hlen, hparts, hblocks, hstatus, hclosing, hup⟩ := uploadBlock_eq hstep
  have hopen : j.status ≠ .FINISHED := by
    intro hf
    rw [hj.finished hf] at hin
    cases hin
  have hcurrent : j'.currentIds = j.currentIds := by
    unfold currentIds blockIdOf
    rw [hparts, hblocks, hat]
  have hwf : j'.WF := by
    refine ⟨hj.sound.uploadBlock hstep, by rw [hparts]; exact hj.sorted, by rw [hids]; exact hj.heap,
      ?_, ?_, fun hf => absurd (hstatus ▸ hf) hopen⟩
    · intro g hg
      rw [hup] at hg
      rw [hlen]
      exact hj.uploading g (List.mem_of_mem_erase hg)
    · rw [hclosing, hstatus]
      exact hj.closing
  refine ⟨hwf, ?_⟩
  have hmaker : j'.maker =
      { j.maker with pending := (j.uploading.erase h).filterMap j.blockIdAt } := by
    unfold Job.maker active
    rw [hids, hcurrent, hstatus, hup, hat]
  have hnone : j.maker.committed = none := if_neg hopen
  have hm := hwf.maker
  rw [hmaker] at hm ⊢
  refine ⟨hm, hnone, hnone, nofun, by simp, fun x hx => .inl hx, ?_, ?_, fun x hx => .inl hx,
    nofun, nofun⟩
  · intro x hx
    obtain ⟨g, hg, hx⟩ := List.mem_filterMap.mp hx
    by_cases hgh : g = h
    · exact .inr (hc x (hgh ▸ hx))
    · exact .inl (List.mem_filterMap.mpr ⟨g, (List.mem_erase_of_ne hgh).mpr hg, hx⟩)
  · intro x hx
    obtain ⟨g, hg, hx⟩ := List.mem_filterMap.mp hx
    exact hawaited x (List.mem_filterMap.mpr ⟨g, List.mem_of_mem_erase hg, hx⟩)

/-- Completing a job without an error makes it wait for the parts that it is given. -/
theorem complete_eq {entry : Entry} {parts : List Int32} (h : j.complete entry parts = (j', none)) :
    j.status = .READING ∧ (∀ p ∈ entry.passed parts, ∃ h, j.blocks.lookup p = some h) ∧
      j' = { j with
        status := .UPLOADING
        closing := some ⟨entry, parts, (entry.passed parts).toFinset,
          (entry.passed parts).length⟩ } := by
  have hclose : ∀ {entry : Entry}, j.closeMultiPart entry parts = (j', none) →
      j.status = .READING ∧ (∀ p ∈ entry.passed parts, ∃ h, j.blocks.lookup p = some h) ∧
        j' = { j with
          status := .UPLOADING
          closing := some ⟨entry, parts, (entry.passed parts).toFinset,
            (entry.passed parts).length⟩ } := by
    intro entry h
    unfold closeMultiPart at h
    split_ifs at h with hread
    · cases h
    · rw [not_not] at hread
      dsimp only at h
      split at h
      · cases h
      · rename_i s hs
        have hblocks := pendingMap_lookup hs
        cases h
        rw [pendingMap_eq hs]
        exact ⟨hread, hblocks, rfl⟩
  unfold complete at h
  split at h
  · exact hclose h
  · split_ifs at h <;> first | exact hclose h | cases h

theorem WF.complete (hj : j.WF) {entry : Entry} {parts : List Int32}
    (h : j.complete entry parts = (j', none)) : j'.WF ∧ j'.maker = j.maker := by
  have hsound := hj.sound.complete entry parts
  rw [h] at hsound
  obtain ⟨hread, -, rfl⟩ := complete_eq h
  refine ⟨⟨hsound, hj.sorted, hj.heap, hj.uploading, fun _ _ => rfl, nofun⟩, ?_⟩
  have hactive : j.active = true := by simp [active, hread]
  rw [maker_active hactive, maker_active (by simp [active])]
  rfl

theorem WF.receive (hj : j.WF) {h : ℕ} (hstep : j.receive h = some j') :
    j'.WF ∧ j'.maker = j.maker := by
  have hsound := hj.sound.receive hstep
  obtain ⟨c, block, hc, -, -, -, ⟨-, -, rfl⟩ | ⟨-, rfl⟩⟩ := receive_cases hstep
  · exact ⟨⟨hsound, hj.sorted, hj.heap, hj.uploading, fun _ _ => hj.closing c hc, hj.finished⟩, rfl⟩
  · exact ⟨⟨hsound, hj.sorted, hj.heap, hj.uploading, hj.closing, hj.finished⟩, rfl⟩

/-- An aborted job forgets its parts, so it must not have any. -/
theorem WF.abort (hj : j.WF) (h : j.abort = (j', none)) (hnone : j.partIDs = []) :
    j'.WF ∧ j'.maker = j.maker := by
  unfold Job.abort at h
  split_ifs at h with hreg hread
  · cases h
  · rw [not_not] at hread
    cases h
    have hnot : ∀ c, j.closing ≠ some c := fun c hc => hj.sound.reading c hc hread
    refine ⟨⟨⟨hj.sound.keyed, hj.sound.listed, hj.sound.ended, fun c hc => absurd hc (hnot c),
      hj.sound.pending, hj.sound.awaited⟩, hj.sorted, hj.heap, hj.uploading,
      fun c hc => absurd hc (hnot c), nofun⟩, ?_⟩
    have hcurrent : j.currentIds = [] := by rw [currentIds, hnone, List.filterMap_nil]
    have hcurrent' : currentIds { j with status := .ABORTED, registered := false } = [] := hcurrent
    simp only [Job.maker, hcurrent, hcurrent', ite_self, hread]
    rfl
  · cases h

theorem blockIds_genPartialMeta {m : ObjectMeta} (h : j.genPartialMeta f = some m) :
    blockIds m.blocks = j.currentIds := by
  obtain ⟨hblocks, -⟩ := genPartialMeta_eq h
  have hids := congrArg (List.filterMap (Option.map BlockInfo.blockId)) hblocks
  rw [List.filterMap_map, infos, List.filterMap_map] at hids
  rw [blockIds, ← List.filterMap_eq_map]
  refine hids.trans (List.filterMap_congr fun p _ => ?_)
  simp only [Function.comp_apply, current, blockIdOf, Option.map_map, Option.map_bind]
  rfl

theorem WF.commit (hj : j.WF) {c : Closing} {r : Completed} (hc : j.closing = some c)
    (h : j.commit f c [.ok] = some r) (hnone : j.uploading = [])
    (hstored : ∀ x ∈ j.maker.live, x ∈ l.store ∨ x ∈ j.maker.pending) :
    r.job.WF ∧ l.HandsOver j.maker r.job.maker ∧
      j.maker.live = blockIds r.objectMeta.blocks := by
  obtain ⟨hm, -, hjob⟩ := commit_job h
  have hfinished : r.job.status = .FINISHED := by
    simp only [Job.commit, bind, Option.bind_eq_some_iff, uploadMeta] at h
    obtain ⟨objectMeta, -, err, herr, h⟩ := h
    cases herr
    split_ifs at h <;> cases h <;> rfl
  have hactive : j.active = true := by simp [active, hj.closing c hc]
  have hlive := blockIds_genPartialMeta hm
  rw [maker_active hactive] at hstored ⊢
  rw [hnone] at hstored ⊢
  rw [hjob, hfinished]
  refine ⟨⟨?_, hj.sorted, hj.heap, hj.uploading, fun _ hc => (by cases hc), fun _ => hnone⟩, ?_,
    hlive.symm⟩
  · exact ⟨hj.sound.keyed, hj.sound.listed, hj.sound.ended, fun _ hc => (by cases hc),
      fun _ hc => (by cases hc), fun _ hc => (by cases hc)⟩
  · refine ⟨rfl, fun x hx => (hstored x hx).resolve_right List.not_mem_nil, fun x hx => hx,
      fun x => Iff.rfl, ?_, rfl, rfl, rfl⟩
    intro x hx
    simp [Job.maker, hnone] at hx

theorem held_of_done (h : j.Done) : j.maker.held = [] := by
  have hactive : j.active = false := by
    rcases h.1 with hs | hs <;> simp [active, hs]
  rw [Job.maker, hactive]
  rfl

theorem wf_new (key : Bytes) (term : UInt64) : (createMultipartUploadJob key term).WF where
  sound := ⟨fun p h hp => (by cases hp), nofun, nofun, nofun, nofun, nofun⟩
  sorted := List.Pairwise.nil
  heap := List.nodup_nil
  uploading := nofun
  closing := nofun
  finished := nofun

end Job
end Ecos.Client.Multipart
