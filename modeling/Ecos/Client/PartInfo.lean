import Ecos.Client.WritePart

namespace Ecos.Client.Multipart
open Go Logic

structure Part where
  eTag : Bytes
  partNumber : Int32
  size : Int64
  deriving DecidableEq, Repr

def Part.ofBlock (partID : Int32) (block : Block) : Part where
  eTag := block.info.blockId
  partNumber := partID
  size := block.info.blockSize.toInt64

namespace Job

/-- `ListParts`. The block of a number that is missing is a nil pointer. -/
def listParts (j : Job) : Option (List Part) :=
  j.partIDs.mapM fun partID => (j.current partID).map (Part.ofBlock partID)

def getPartBlockInfo (j : Job) (partID : Int32) : Except Errno BlockInfo :=
  if j.status ≠ .READING then .error .methodNotAllowed
  else if partID < 0 ∨ Int32.ofNat j.partIDs.length ≤ partID then .error .invalidArgument
  else
    match j.current partID with
    | none => .error .invalidPart
    | some block =>
      if block.status ≠ .FINISHED then .error .invalidObjectState else .ok block.info

def Uploaded (j : Job) (p : Int32) : Prop := (j.current p).map Block.status = some .FINISHED

instance (j : Job) (p : Int32) : Decidable (j.Uploaded p) :=
  inferInstanceAs (Decidable ((j.current p).map Block.status = some .FINISHED))

/-- The listed parts that have been uploaded are found, and no other part is. -/
structure Fetchable (j : Job) (parts : List Part) : Prop where
  listed : ∀ part ∈ parts, j.Uploaded part.partNumber →
    ∃ block, j.current part.partNumber = some block ∧
      j.getPartBlockInfo part.partNumber = .ok block.info
  unlisted : ∀ p ∉ parts.map Part.partNumber, ∃ e, j.getPartBlockInfo p = .error e

/-- The parts of a job are numbered from 1 to 10000, and each number has its block. -/
structure Catalogued (j : Job) : Prop where
  sound : j.Sound
  sorted : j.partIDs.Pairwise (· < ·)
  range : ∀ p ∈ j.partIDs, 1 ≤ p.toInt ∧ p.toInt ≤ 10000
  keys : ∀ p h, j.blocks.lookup p = some h → p ∈ j.partIDs

variable {f : Factory} {j j' : Job}

theorem range_of_not_refused {p : Int32} {victim : Option Errno} (h : ¬j.Refused p victim) :
    1 ≤ p.toInt ∧ p.toInt ≤ 10000 := by
  simp only [Refused, not_or, Int32.lt_iff_toInt_lt, not_lt] at h
  exact h.2.1

theorem Catalogued.withPart (hj : j.Catalogued) {p : Int32} (hp : 1 ≤ p.toInt ∧ p.toInt ≤ 10000)
    (hsound : j'.Sound) (hids : j'.partIDs = j.partIDsWith p)
    (hblocks : j'.blocks = j.blocks.insert p j.heap.length) : j'.Catalogued where
  sound := hsound
  sorted := by
    rw [hids]
    exact sorted_partIDsWith hj.sorted p
  range q hq := by
    rw [hids, mem_partIDsWith] at hq
    rcases hq with rfl | hq
    · exact hp
    · exact hj.range q hq
  keys q h hq := by
    rw [hids, mem_partIDsWith]
    by_cases hqp : q = p
    · exact .inl hqp
    · rw [hblocks, AList.lookup_insert_ne hqp] at hq
      exact .inr (hj.keys q h hq)

theorem catalogued_step {a : Action} (hj : j.Catalogued) (h : j.step f a = some j') :
    j'.Catalogued := by
  have hsound := sound_step hj.sound h
  by_cases ha : ∃ p reader victim, a = .writePart p reader victim
  · obtain ⟨p, reader, victim, rfl⟩ := ha
    cases h
    have hout := outcome_writePart (f := f) hj.sorted p reader victim
    generalize j.writePart f p reader victim = r at hout hsound
    cases hout with
    | refused e _ => exact hj
    | failed e block hp _ => exact hj.withPart (range_of_not_refused hp) hsound rfl rfl
    | written block hp _ => exact hj.withPart (range_of_not_refused hp) hsound rfl rfl
  · obtain ⟨hids, hblocks⟩ := step_frame h fun p reader victim heq => ha ⟨p, reader, victim, heq⟩
    exact ⟨hsound, hids ▸ hj.sorted, fun p hp => hj.range p (hids ▸ hp),
      fun p h hp => hids ▸ hj.keys p h (hblocks ▸ hp)⟩

theorem catalogued_run {key : Bytes} {term : UInt64} {acts : List Action}
    (h : run (step f) (createMultipartUploadJob key term) acts = some j) : j.Catalogued := by
  have hnil : run (step f) (createMultipartUploadJob key term) [] = some _ := rfl
  have hinit : (createMultipartUploadJob key term).Catalogued :=
    ⟨sound_run hnil, List.Pairwise.nil, fun p hp => absurd hp List.not_mem_nil,
      fun p h hp => (by cases hp)⟩
  exact run_preserved (fun _ _ _ hj h => catalogued_step hj h) hinit h

/-- There are no more part numbers than there are numbers up to the greatest. -/
theorem Catalogued.length_le (hj : j.Catalogued) {n : ℕ} (h : ∀ p ∈ j.partIDs, p.toInt ≤ n) :
    j.partIDs.length ≤ n := by
  have hnodup : (j.partIDs.map Int32.toInt).Nodup := by
    apply List.Pairwise.imp (R := (· < ·)) (fun hlt => ne_of_lt hlt)
    rw [List.pairwise_map]
    exact hj.sorted.imp fun hlt => Int32.lt_iff_toInt_lt.mp hlt
  have hsub : (j.partIDs.map Int32.toInt).toFinset ⊆ Finset.Icc 1 (n : ℤ) := by
    intro x hx
    obtain ⟨p, hp, rfl⟩ := List.mem_map.mp (List.mem_toFinset.mp hx)
    exact Finset.mem_Icc.mpr ⟨(hj.range p hp).1, h p hp⟩
  have hcard := Finset.card_le_card hsub
  rw [List.toFinset_card_of_nodup hnodup, List.length_map, Int.card_Icc] at hcard
  omega

theorem Catalogued.toInt_length (hj : j.Catalogued) :
    (Int32.ofNat j.partIDs.length).toInt = j.partIDs.length := by
  have hle := hj.length_le (n := 10000) fun p hp => (hj.range p hp).2
  exact Int32.toInt_ofNat_of_lt (by omega)

theorem Catalogued.exists_current (hj : j.Catalogued) {p : Int32} (hp : p ∈ j.partIDs) :
    ∃ block, j.current p = some block := by
  obtain ⟨h, hlookup⟩ := hj.sound.listed p hp
  obtain ⟨block, hblock, -⟩ := hj.sound.current hlookup
  exact ⟨block, hblock⟩

theorem Catalogued.current_eq_none (hj : j.Catalogued) {p : Int32} (hp : p ∉ j.partIDs) :
    j.current p = none := by
  have hlookup : j.blocks.lookup p = none := by
    by_contra hne
    obtain ⟨h, hh⟩ := Option.ne_none_iff_exists'.mp hne
    exact hp (hj.keys p h hh)
  rw [current, hlookup, Option.bind_none]

/-- Every part number is listed, in order. -/
theorem Catalogued.exists_listParts (hj : j.Catalogued) :
    ∃ parts, j.listParts = some parts ∧ parts.map Part.partNumber = j.partIDs := by
  have hall : ∀ ids : List Int32, (∀ p ∈ ids, p ∈ j.partIDs) → ∃ parts,
      ids.mapM (fun partID => (j.current partID).map (Part.ofBlock partID)) = some parts ∧
      parts.map Part.partNumber = ids := by
    intro ids hids
    induction ids with
    | nil => exact ⟨[], rfl, rfl⟩
    | cons p ids ih =>
      obtain ⟨block, hblock⟩ := hj.exists_current (hids p List.mem_cons_self)
      obtain ⟨parts, hparts, hnumbers⟩ := ih fun q hq => hids q (List.mem_cons_of_mem p hq)
      refine ⟨Part.ofBlock p block :: parts, ?_, congrArg (p :: ·) hnumbers⟩
      rw [List.mapM_cons, hblock, hparts]
      rfl
  exact hall j.partIDs fun p hp => hp

/-- A part that has been uploaded is found if its number is below the number of parts. -/
theorem Catalogued.getPartBlockInfo_iff (hj : j.Catalogued) (hread : j.status = .READING)
    {p : Int32} (hp : p ∈ j.partIDs) (hup : j.Uploaded p) :
    (∃ block, j.current p = some block ∧ j.getPartBlockInfo p = .ok block.info) ↔
      p.toInt < j.partIDs.length := by
  obtain ⟨block, hblock⟩ := hj.exists_current hp
  have hfinished : block.status = .FINISHED := by
    rw [Uploaded, hblock, Option.map_some, Option.some.injEq] at hup
    exact hup
  have hpos : ¬p.toInt < 0 := by
    have := (hj.range p hp).1
    omega
  have hcond : (p < 0 ∨ Int32.ofNat j.partIDs.length ≤ p) ↔ ¬p.toInt < j.partIDs.length := by
    rw [Int32.lt_iff_toInt_lt, Int32.le_iff_toInt_le, hj.toInt_length, not_lt]
    exact or_iff_right hpos
  unfold getPartBlockInfo
  rw [if_neg (not_not.mpr hread)]
  by_cases hlt : p.toInt < j.partIDs.length
  · rw [if_neg (mt hcond.mp (not_not.mpr hlt)), hblock]
    simp [hfinished, hlt]
  · rw [if_pos (hcond.mpr hlt)]
    simp [hlt]

theorem Catalogued.getPartBlockInfo_unlisted (hj : j.Catalogued) {p : Int32}
    (hp : p ∉ j.partIDs) : ∃ e, j.getPartBlockInfo p = .error e := by
  unfold getPartBlockInfo
  rw [hj.current_eq_none hp]
  split_ifs <;> exact ⟨_, rfl⟩

theorem Catalogued.fetchable_iff (hj : j.Catalogued) (hread : j.status = .READING)
    {parts : List Part} (hnumbers : parts.map Part.partNumber = j.partIDs) :
    j.Fetchable parts ↔
      ∀ part ∈ parts, j.Uploaded part.partNumber → part.partNumber.toInt < parts.length := by
  have hlen : parts.length = j.partIDs.length := by rw [← hnumbers, List.length_map]
  have hmem : ∀ part ∈ parts, part.partNumber ∈ j.partIDs :=
    fun part hpart => hnumbers ▸ List.mem_map_of_mem hpart
  rw [hlen]
  constructor
  · intro h part hpart hup
    exact (hj.getPartBlockInfo_iff hread (hmem part hpart) hup).mp (h.listed part hpart hup)
  · intro h
    refine ⟨fun part hpart hup => ?_, fun p hp => hj.getPartBlockInfo_unlisted (hnumbers ▸ hp)⟩
    exact (hj.getPartBlockInfo_iff hread (hmem part hpart) hup).mpr (h part hpart hup)

/-- A job whose parts have all been uploaded has one that is not found. -/
theorem Catalogued.not_fetchable (hj : j.Catalogued) (hread : j.status = .READING)
    (hne : j.partIDs ≠ []) (hall : ∀ p ∈ j.partIDs, j.Uploaded p) {parts : List Part}
    (hnumbers : parts.map Part.partNumber = j.partIDs) : ¬j.Fetchable parts := by
  intro h
  have hlen : parts.length = j.partIDs.length := by rw [← hnumbers, List.length_map]
  have hbelow : ∀ p ∈ j.partIDs, p.toInt ≤ (j.partIDs.length - 1 : ℕ) := by
    intro p hp
    obtain ⟨part, hpart, rfl⟩ := List.mem_map.mp (hnumbers ▸ hp)
    have hlt := (hj.fetchable_iff hread hnumbers).mp h part hpart (hall _ hp)
    omega
  have hle := hj.length_le hbelow
  have := List.length_pos_of_ne_nil hne
  omega

end Job

/-- In a job that is open, all listed parts that have been uploaded are found exactly if their
numbers are below the number of parts. -/
theorem fetchable_iff_below (f : Factory) (key : Bytes) (term : UInt64) (acts : List Action)
    {j : Job} (hr : run (Job.step f) (createMultipartUploadJob key term) acts = some j)
    (hread : j.status = .READING) :
    ∃ parts, j.listParts = some parts ∧ (j.Fetchable parts ↔
      ∀ part ∈ parts, j.Uploaded part.partNumber → part.partNumber.toInt < parts.length) := by
  have hj := Job.catalogued_run hr
  obtain ⟨parts, hparts, hnumbers⟩ := hj.exists_listParts
  exact ⟨parts, hparts, hj.fetchable_iff hread hnumbers⟩

/-- Part 1 of two parts has been uploaded. -/
theorem fetchable_writeTwo :
    (after writeTwo).getPartBlockInfo 1 = .ok ⟨[1], 1, 2, [], 1⟩ ∧
      ∃ parts, (after writeTwo).listParts = some parts ∧ (after writeTwo).Fetchable parts := by
  obtain ⟨parts, hparts, hiff⟩ := fetchable_iff_below hashing [107] 1 writeTwo
    (j := after writeTwo) rfl rfl
  refine ⟨by decide, parts, hparts, hiff.mpr ?_⟩
  have hlist : (after writeTwo).listParts = some [⟨[1], 1, 2⟩, ⟨[0], 2, 1⟩] := by decide
  rw [hparts, Option.some.injEq] at hlist
  subst hlist
  rw [List.forall_mem_cons, List.forall_mem_singleton]
  decide

def writeOne : List Action := [.writePart 1 ⟨[[1], [2]], [], none⟩ none, .uploadBlock 0 true]

/-- The only part of a job cannot be asked for. -/
theorem only_part_not_found :
    (after writeOne).listParts = some [⟨[0], 1, 2⟩] ∧ (after writeOne).Uploaded 1 ∧
      (after writeOne).getPartBlockInfo 1 = .error .invalidArgument ∧
      ¬(after writeOne).Fetchable [⟨[0], 1, 2⟩] := by
  have hup : (after writeOne).Uploaded 1 := by decide
  have hids : (after writeOne).partIDs = [1] := by decide
  refine ⟨by decide, hup, by decide, ?_⟩
  have hrun : run (Job.step hashing) (createMultipartUploadJob [107] 1) writeOne =
      some (after writeOne) := rfl
  have hj := Job.catalogued_run hrun
  refine hj.not_fetchable rfl (by rw [hids]; exact List.cons_ne_nil _ _) ?_ hids.symm
  rw [hids, List.forall_mem_singleton]
  exact hup

end Ecos.Client.Multipart
