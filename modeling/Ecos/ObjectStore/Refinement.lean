import Ecos.Logic.Refinement
import Ecos.ObjectStore.Readers

namespace Ecos.ObjectStore
open Go Logic Std Alaya Client

/-- The metadata stands for the objects of the map; `ideal` has all blocks as their writers cut
them. -/
structure Kept (ring : Mapper) (a : AlayaEnv) (ideal : Bytes → Option Bytes) (s : System)
    (o : ObjectMap Bytes UInt8) : Prop where
  generated : ∀ id c, ideal id = some c → id ∈ s.generated
  gaia : Trimmed ideal s.gaia
  unsent : ∀ p ∈ s.puts, ∀ e ∈ p.unsent, ideal e.1 = some e.2
  puts : ∀ p ∈ s.puts, Content ideal p.objectMeta.blocks p.content
  objects : ∀ id, Option.Rel (fun m c => Content ideal m.blocks c)
    (objectAt ring a s.register id) (o.objects id)
  addressed : ∀ r ∈ s.register :: s.past, ∀ id m, objectAt ring a r id = some m →
    m.objId = id ∧ m.pgId = calculateObjectPGID ring a 0 id
  deletes : ∀ m ∈ s.deletes, m.pgId = calculateObjectPGID ring a 0 m.objId
  copies : List.Forall₂ (fun m c => Content ideal m.blocks c) s.copies o.copies

structure Reads (ideal : Bytes → Option Bytes) (s : System) (o : ObjectMap Bytes UInt8) : Prop where
  gaia : Coherent ideal s.gaia
  gets : List.Forall₂ (Serving ideal) s.gets o.readers

namespace Kept

variable {ring : Mapper} {a : AlayaEnv} {ideal ideal' : Bytes → Option Bytes} {s s' : System}
  {o : ObjectMap Bytes UInt8}

/-- The meta and the content that an ID has. -/
theorem content_of_objectAt (h : Kept ring a ideal s o) {id : Bytes} {m : ObjectMeta}
    (hm : objectAt ring a s.register id = some m) :
    ∃ c, o.objects id = some c ∧ Content ideal m.blocks c := by
  have hrel := h.objects id
  rw [hm] at hrel
  cases hc : o.objects id with
  | none =>
    rw [hc] at hrel
    cases hrel
  | some c =>
    rw [hc] at hrel
    cases hrel with
    | some hcontent => exact ⟨c, rfl, hcontent⟩

theorem objects_none (h : Kept ring a ideal s o) {id : Bytes}
    (hm : objectAt ring a s.register id = none) : o.objects id = none := by
  have hrel := h.objects id
  rw [hm] at hrel
  cases hc : o.objects id with
  | none => rfl
  | some c =>
    rw [hc] at hrel
    cases hrel

/-- A change of the metadata at one ID. -/
theorem change (h : Kept ring a ideal s o) {register : Register} {id : Bytes}
    {m : Option ObjectMeta} {c : Option Bytes}
    (hat : objectAt ring a register = Function.update (objectAt ring a s.register) id m)
    (hc : Option.Rel (fun m c => Content ideal m.blocks c) m c)
    (hm : ∀ m' ∈ m, m'.objId = id ∧ m'.pgId = calculateObjectPGID ring a 0 id) :
    Kept ring a ideal { s with register := register, past := s.register :: s.past }
      { o with objects := Function.update o.objects id c } := by
  refine { h with objects := ?_, addressed := ?_ }
  · intro id'
    show Option.Rel _ (objectAt ring a register id') _
    rw [hat]
    exact related_update h.objects hc _ id'
  · intro r hr id' m' hm'
    rcases List.mem_cons.mp hr with hr | hr
    · rw [hr] at hm'
      change objectAt ring a register id' = some m' at hm'
      rw [hat] at hm'
      by_cases hid : id' = id
      · subst hid
        rw [Function.update_self] at hm'
        exact hm m' hm'
      · rw [Function.update_of_ne hid] at hm'
        exact h.addressed _ List.mem_cons_self id' m' hm'
    · exact h.addressed r hr id' m' hm'

theorem submitted (h : Kept ring a ideal s o) (ha : Steady a) {clientTerm : UInt64}
    {m : ObjectMeta} {register : Register}
    (hr : submitMeta ring a s clientTerm m = .recorded register) {c : Bytes}
    (hc : Content ideal m.blocks c) :
    Kept ring a ideal { s with register := register, past := s.register :: s.past }
      { o with objects := Function.update o.objects (cleanObjectKey m.objId) (some c) } := by
  unfold submitMeta at hr
  split at hr
  · rename_i r hok
    cases hr
    obtain ⟨hpg, hat⟩ := objectAt_record ha hok
    have hnew : Content ideal (cleaned m).blocks c := hc
    refine h.change hat (.some hnew) ?_
    intro m' hm'
    cases hm'
    exact ⟨rfl, hpg⟩
  · cases hr
  · cases hr

/-- A deletion clears the place of the meta that was looked up. -/
theorem delete (h : Kept ring a ideal s o) {m : ObjectMeta} (hm : m ∈ s.deletes)
    {register : Register} (hr : deleteMeta s.register m = .ok register) :
    Kept ring a ideal { s with register := register, past := s.register :: s.past }
      { o with objects := Function.update o.objects m.objId none } := by
  refine h.change (objectAt_delete hr (h.deletes m hm)) .none ?_
  intro m' hm'
  cases hm'

theorem mono (h : Kept ring a ideal s o) (hgrows : Grows ideal ideal')
    (hgenerated : ∀ id c, ideal' id = some c → id ∈ s.generated) : Kept ring a ideal' s o where
  generated := hgenerated
  gaia := h.gaia.mono hgrows
  unsent p hp e he := hgrows _ _ (h.unsent p hp e he)
  puts p hp := (h.puts p hp).mono hgrows
  objects id := by
    have hrel := h.objects id
    revert hrel
    generalize objectAt ring a s.register id = m
    generalize o.objects id = c
    intro hrel
    cases hrel with
    | some hc => exact .some (hc.mono hgrows)
    | none => exact .none
  addressed := h.addressed
  deletes := h.deletes
  copies := h.copies.imp fun _ _ hc => hc.mono hgrows

theorem fresh (h : Kept ring a ideal s o) {ids : List Bytes} (hids : ∀ id ∈ ids, id ∉ s.generated) :
    ∀ id ∈ ids, ideal id = none := by
  intro id hid
  by_contra hne
  obtain ⟨c, hc⟩ := Option.ne_none_iff_exists'.mp hne
  exact hids id hid (h.generated id c hc)

/-- The blocks of a closed writer have IDs that no block had before. -/
theorem close (h : Kept ring a ideal s o) {f : Factory} {key : Bytes} {term : UInt64}
    {ps : List Bytes} {completions : List (ℕ × Bool)}
    (hp : Proper s (.close f key term ps completions)) {res : CloseResult}
    (hclose : Client.close f (writes f { key := key, term := term } ps) completions [.ok] =
      some res) {m : ObjectMeta} (hm : res.submitted.head? = some m)
    (hnodup : (res.writer.sent.map Prod.fst).Nodup)
    (hfresh : ∀ id ∈ res.writer.sent.map Prod.fst, id ∉ s.generated) :
    Kept ring a (extend ideal res.writer.sent) { s with
      generated := res.writer.sent.map Prod.fst ++ s.generated
      puts := ⟨ps.flatten, res.writer.sent, m⟩ :: s.puts } o := by
  have hmore : Kept ring a ideal { s with
      generated := res.writer.sent.map Prod.fst ++ s.generated } o :=
    { h with generated := fun id c hc => List.mem_append_right _ (h.generated id c hc) }
  -- contents are kept, since the new IDs had none
  have hold := hmore.mono (grows_extend (h.fresh hfresh)) (by
    intro id c hc
    by_cases hid : id ∈ res.writer.sent.map Prod.fst
    · exact List.mem_append_left _ hid
    · rw [extend_of_notMem hid] at hc
      exact hmore.generated id c hc)
  have hsent : ∀ e ∈ res.writer.sent, extend ideal res.writer.sent e.1 = some e.2 :=
    fun e he => extend_sent hnodup he
  refine { hold with unsent := ?_, puts := ?_ }
  · intro p hp'
    rcases List.mem_cons.mp hp' with rfl | hp'
    · exact hsent
    · exact hold.unsent p hp'
  · intro p hp'
    rcases List.mem_cons.mp hp' with rfl | hp'
    · exact close_content hp.1 hp.2 hclose hm hsent
    · exact hold.puts p hp'

/-- An upload leaves a file with a beginning of its block, or none. -/
theorem upload (h : Kept ring a ideal s o) {i n : ℕ} {p : Put} (hi : s.puts[i]? = some p)
    {e : Bytes × Bytes} (he : p.unsent[n]? = some e) (stored : Option ℕ) :
    Kept ring a ideal { s with
      gaia := match stored with
        | some size => s.gaia.insert e.1 (e.2.take size)
        | none => s.gaia
      puts := s.puts.set i { p with unsent := p.unsent.eraseIdx n } } o := by
  have hp : p ∈ s.puts := List.mem_of_getElem? hi
  refine { h with gaia := ?_, unsent := ?_, puts := ?_ }
  · cases stored with
    | none => exact h.gaia
    | some size =>
      exact h.gaia.insert (h.unsent p hp e (List.mem_of_getElem? he)) (List.take_prefix _ _)
  · intro p' hp'
    rcases List.mem_or_eq_of_mem_set hp' with hp' | rfl
    · exact h.unsent p' hp'
    · exact fun e' he' => h.unsent p hp e' (List.mem_of_mem_eraseIdx he')
  · intro p' hp'
    rcases List.mem_or_eq_of_mem_set hp' with hp' | rfl
    · exact h.puts p' hp'
    · exact h.puts p hp

theorem dropPut (h : Kept ring a ideal s o) (i : ℕ) :
    Kept ring a ideal { s with puts := s.puts.eraseIdx i } o :=
  { h with
    unsent := fun p hp => h.unsent p (List.mem_of_mem_eraseIdx hp)
    puts := fun p hp => h.puts p (List.mem_of_mem_eraseIdx hp) }

theorem dropCopy (h : Kept ring a ideal s o) (i : ℕ) :
    Kept ring a ideal { s with copies := s.copies.eraseIdx i }
      { o with copies := o.copies.eraseIdx i } :=
  { h with copies := related_eraseIdx h.copies i }

end Kept

namespace Reads

variable {ideal ideal' : Bytes → Option Bytes} {s : System} {o : ObjectMap Bytes UInt8} {g : Get}
  {rest : Bytes}

theorem mono (h : Reads ideal s o) (hgrows : Grows ideal ideal') : Reads ideal' s o :=
  ⟨coherent_mono hgrows h.gaia, h.gets.imp fun _ _ hs => hs.mono hgrows⟩

theorem setGet (h : Reads ideal s o) (j : ℕ) (hg : Serving ideal g rest) :
    Reads ideal (setGet s j g) { o with readers := o.readers.set j rest } :=
  { h with gets := related_set h.gets hg j }

/-- A reader that has delivered nothing yet by this step. -/
theorem setGet_same (h : Reads ideal s o) {j : ℕ} (hrest : o.readers[j]? = some rest)
    (hg : Serving ideal g rest) : Reads ideal (ObjectStore.setGet s j g) o := by
  have hset := h.setGet j hg
  obtain ⟨hlt, rfl⟩ := List.getElem?_eq_some_iff.mp hrest
  rwa [List.set_getElem_self hlt] at hset

theorem stored (h : Reads ideal s o) {e : Bytes × Bytes} (he : ideal e.1 = some e.2) {size : ℕ}
    (hwhole : e.2.length ≤ size) (puts : List Put) :
    Reads ideal { s with gaia := s.gaia.insert e.1 (e.2.take size), puts := puts } o := by
  rw [List.take_of_length_le hwhole]
  exact { h with gaia := h.gaia.insert he }

end Reads

section
variable {ring : Mapper} {a : AlayaEnv} {ideal : Bytes → Option Bytes} {s s' : System}
  {o o' : ObjectMap Bytes UInt8} {action : Action}

/-- The metadata follows the events that a step logs. Where files are whole, the map accepts the
events and the readers follow too. -/
def Matched (ring : Mapper) (a : AlayaEnv) (ideal : Bytes → Option Bytes) (s : System)
    (action : Action) (s' : System) (o : ObjectMap Bytes UInt8) : Prop :=
  ∃ es ideal', s'.events = s.events ++ es ∧ Kept ring a ideal' s' (es.foldl ObjectMap.believe o) ∧
    (Whole s action → Reads ideal s o → ∃ o', run ObjectMap.next o es = some o' ∧
      Reads ideal' s' o')

theorem matched_silent (h : Kept ring a ideal s' o) (he : s'.events = s.events)
    (hreads : Whole s action → Reads ideal s o → Reads ideal s' o) :
    Matched ring a ideal s action s' o :=
  ⟨[], ideal, by rw [he, List.append_nil], h, fun hw hr => ⟨o, rfl, hreads hw hr⟩⟩

theorem matched_event {e : ObjectEvent Bytes UInt8} (he : s'.events = s.events ++ [e])
    (h : Kept ring a ideal s' (o.believe e))
    (hreads : Whole s action → Reads ideal s o → ∃ o', o.next e = some o' ∧ Reads ideal s' o') :
    Matched ring a ideal s action s' o := by
  refine ⟨[e], ideal, he, h, fun hw hr => ?_⟩
  obtain ⟨o', hn, hr'⟩ := hreads hw hr
  exact ⟨o', by rw [run_cons, hn]; rfl, hr'⟩

theorem matched_close (h : Kept ring a ideal s o) {f : Factory} {key : Bytes} {term : UInt64}
    {ps : List Bytes} {completions : List (ℕ × Bool)}
    (hp : Proper s (.close f key term ps completions))
    (hs : step ring a s (.close f key term ps completions) = some s') :
    Matched ring a ideal s (.close f key term ps completions) s' o := by
  simp only [step, Option.bind_eq_bind, Option.bind_eq_some_iff] at hs
  obtain ⟨res, hres, m, hm, hs⟩ := hs
  split_ifs at hs with hnew
  cases hs
  refine ⟨[], extend ideal res.writer.sent, (List.append_nil _).symm,
    h.close hp hres hm hnew.1 hnew.2, fun _ hr => ⟨o, rfl, ?_⟩⟩
  exact { hr.mono (grows_extend (h.fresh hnew.2)) with }

theorem matched_upload (h : Kept ring a ideal s o) {i n : ℕ} {stored : Option ℕ}
    (hs : step ring a s (.upload i n stored) = some s') :
    Matched ring a ideal s (.upload i n stored) s' o := by
  simp only [step, Option.bind_eq_bind, Option.bind_eq_some_iff] at hs
  obtain ⟨p, hi, e, he, hs⟩ := hs
  cases hs
  have hideal := h.unsent p (List.mem_of_getElem? hi) e (List.mem_of_getElem? he)
  refine matched_silent (h.upload hi he stored) rfl fun hw hr => ?_
  cases stored with
  | none => exact { hr with }
  | some size => exact hr.stored hideal (hw p hi e he size rfl) _

theorem matched_submit (h : Kept ring a ideal s o) (ha : Steady a) {i : ℕ}
    {clientTerm : UInt64} (hs : step ring a s (.submit i clientTerm) = some s') :
    Matched ring a ideal s (.submit i clientTerm) s' o := by
  simp only [step, Option.bind_eq_bind, Option.bind_eq_some_iff] at hs
  obtain ⟨p, hi, hs⟩ := hs
  split_ifs at hs with hsent
  cases hsub : submitMeta ring a s clientTerm p.objectMeta with
  | recorded register =>
    rw [hsub] at hs
    cases hs
    have hrec := h.submitted ha hsub (h.puts p (List.mem_of_getElem? hi))
    exact matched_event rfl { hrec.dropPut i with } fun _ hr => ⟨_, rfl, { hr with }⟩
  | again =>
    rw [hsub] at hs
    cases hs
    exact matched_silent h rfl fun _ hr => hr
  | failed =>
    rw [hsub] at hs
    cases hs
    exact matched_silent (h.dropPut i) rfl fun _ hr => { hr with }

theorem registerAt_zero {register : Register} (h : registerAt s 0 = some register) :
    register = s.register := (Option.some.inj h).symm

theorem matched_getObjMeta (h : Kept ring a ideal s o) (ha : Steady a) {c : Capacity}
    {objID : Bytes} {clientTerm : UInt64} {behind : ℕ}
    (hs : step ring a s (.getObjMeta c objID clientTerm behind) = some s') :
    Matched ring a ideal s (.getObjMeta c objID clientTerm behind) s' o := by
  simp only [step, Option.bind_eq_bind, Option.bind_eq_some_iff] at hs
  obtain ⟨register, hregister, hs⟩ := hs
  obtain ⟨hok, hmissing⟩ := objectAt_get ring ha register s.term clientTerm objID
  split at hs
  · rename_i m hget
    cases hs
    refine matched_event rfl { h with } fun hw hr => ?_
    cases hw
    obtain rfl := registerAt_zero hregister
    obtain ⟨content, hc, hcontent⟩ := h.content_of_objectAt (hok m hget)
    refine ⟨{ o with readers := o.readers ++ [content] }, ?_, { hr with
      gets := List.rel_append hr.gets (.cons (serving_new c hcontent) .nil) }⟩
    rw [ObjectMap.next, hc, Option.map_some]
  · rename_i hget
    cases hs
    refine matched_event rfl { h with } fun hw hr => ⟨o, ?_, { hr with }⟩
    cases hw
    obtain rfl := registerAt_zero hregister
    rw [ObjectMap.next, h.objects_none (hmissing hget)]
    rfl
  · cases hs
    exact matched_silent h rfl fun _ hr => hr

theorem matched_beginRead (h : Kept ring a ideal s o) {j : ℕ} {buffer : Bytes}
    (hs : step ring a s (.beginRead j buffer) = some s') :
    Matched ring a ideal s (.beginRead j buffer) s' o := by
  simp only [step, Option.bind_eq_bind, Option.bind_eq_some_iff] at hs
  obtain ⟨g, hg, hs⟩ := hs
  split_ifs at hs with hbusy
  rw [Bool.or_eq_true, not_or, Option.not_isSome_iff_eq_none, Bool.not_eq_true] at hbusy
  cases hcalc : calcBlocks g.reader buffer.length with
  | mk spans p =>
    obtain ⟨reader, eof⟩ := p
    rw [hcalc] at hs
    cases hs
    refine matched_silent { h with } rfl fun _ hr => ?_
    obtain ⟨rest, hrest, ds, hdel⟩ := related_getElem? hr.gets hg
    exact hr.setGet_same hrest ⟨ds, hdel.begin hbusy.1 hbusy.2 buffer hcalc⟩

theorem matched_span (h : Kept ring a ideal s o) {j k : ℕ} {reached : Bool}
    (hs : step ring a s (.span j k reached) = some s') :
    Matched ring a ideal s (.span j k reached) s' o := by
  simp only [step, Option.bind_eq_bind, Option.bind_eq_some_iff] at hs
  obtain ⟨g, hg, rd, hrd, span, hk, hs⟩ := hs
  cases hs
  refine matched_silent { h with } rfl fun _ hr => ?_
  obtain ⟨rest, hrest, ds, hdel⟩ := related_getElem? hr.gets hg
  exact hr.setGet_same hrest ⟨ds, hdel.span hrd hr.gaia hk reached⟩

theorem matched_endRead (h : Kept ring a ideal s o) {j : ℕ}
    (hs : step ring a s (.endRead j) = some s') : Matched ring a ideal s (.endRead j) s' o := by
  simp only [step, Option.bind_eq_bind, Option.bind_eq_some_iff] at hs
  obtain ⟨g, hg, rd, hrd, hs⟩ := hs
  split_ifs at hs with hdone
  cases hs
  refine matched_event rfl { h with } fun _ hr => ?_
  obtain ⟨rest, hrest, ds, hdel⟩ := related_getElem? hr.gets hg
  obtain ⟨hout, heof, hdel'⟩ := hdel.finish hrd hdone.1 hdone.2
  refine ⟨_, ?_, { hr.setGet j ⟨ds, hdel'⟩ with }⟩
  rw [ObjectMap.next, hrest, Option.bind_some, if_pos ⟨hout, heof⟩]

theorem matched_lookUpSource (h : Kept ring a ideal s o) (ha : Steady a) {objID : Bytes}
    {clientTerm : UInt64} {behind : ℕ} (hp : Proper s (.lookUpSource objID clientTerm behind))
    (hs : step ring a s (.lookUpSource objID clientTerm behind) = some s') :
    Matched ring a ideal s (.lookUpSource objID clientTerm behind) s' o := by
  simp only [step, Option.bind_eq_bind, Option.bind_eq_some_iff] at hs
  obtain ⟨register, hregister, m, hm, hs⟩ := hs
  cases hs
  cases hp
  obtain rfl := registerAt_zero hregister
  obtain ⟨c, hc, hcontent⟩ :=
    h.content_of_objectAt ((objectAt_get ring ha _ _ _ _).1 m (toOption_eq_some hm))
  have hnext : o.next (.taken (cleanObjectKey objID)) =
      some { o with copies := c :: o.copies } := by
    rw [ObjectMap.next, hc, Option.map_some]
  refine matched_event rfl ?_ fun _ hr => ⟨_, hnext, { hr with }⟩
  rw [ObjectMap.believe_of_next hnext]
  exact { h with copies := .cons hcontent h.copies }

theorem matched_copy (h : Kept ring a ideal s o) (ha : Steady a) {bucketInfo : BucketInfo}
    {key : Bytes} {i : ℕ} {clientTerm : UInt64}
    (hs : step ring a s (.copy bucketInfo key i clientTerm) = some s') :
    Matched ring a ideal s (.copy bucketInfo key i clientTerm) s' o := by
  simp only [step, Option.bind_eq_bind, Option.bind_eq_some_iff] at hs
  obtain ⟨m, hm, hs⟩ := hs
  obtain ⟨c, hc, hcontent⟩ := related_getElem? h.copies hm
  cases hsub : submitMeta ring a s clientTerm (BlockReferences.addressed ring bucketInfo key m) with
  | recorded register =>
    rw [hsub] at hs
    cases hs
    have hrec := h.submitted ha hsub (show Content ideal _ c from hcontent)
    have hnext : o.next (.copied i (cleanObjectKey
        (BlockReferences.addressed ring bucketInfo key m).objId)) = some { o with
          objects := Function.update o.objects (cleanObjectKey
            (BlockReferences.addressed ring bucketInfo key m).objId) (some c)
          copies := o.copies.eraseIdx i } := by
      rw [ObjectMap.next, hc, Option.map_some]
    refine matched_event rfl ?_ fun _ hr => ⟨_, hnext, { hr with }⟩
    rw [ObjectMap.believe_of_next hnext]
    exact { hrec.dropCopy i with }
  | again =>
    rw [hsub] at hs
    cases hs
    exact matched_silent h rfl fun _ hr => hr
  | failed =>
    rw [hsub] at hs
    cases hs
    exact matched_silent h rfl fun _ hr => hr

theorem matched_lookUpDeleted (h : Kept ring a ideal s o) (ha : Steady a) {objID : Bytes}
    {clientTerm : UInt64} {behind : ℕ}
    (hs : step ring a s (.lookUpDeleted objID clientTerm behind) = some s') :
    Matched ring a ideal s (.lookUpDeleted objID clientTerm behind) s' o := by
  simp only [step, Option.bind_eq_bind, Option.bind_eq_some_iff] at hs
  obtain ⟨register, hregister, m, hm, hs⟩ := hs
  cases hs
  obtain ⟨hid, hpg⟩ := h.addressed register (List.mem_of_getElem? hregister) _ m
    ((objectAt_get ring ha _ _ _ _).1 m (toOption_eq_some hm))
  refine matched_silent { h with deletes := ?_ } rfl fun _ hr => { hr with }
  intro m' hm'
  rcases List.mem_cons.mp hm' with rfl | hm'
  · rw [hid]
    exact hpg
  · exact h.deletes m' hm'

theorem matched_delete (h : Kept ring a ideal s o) {i : ℕ}
    (hs : step ring a s (.delete i) = some s') : Matched ring a ideal s (.delete i) s' o := by
  simp only [step, Option.bind_eq_bind, Option.bind_eq_some_iff] at hs
  obtain ⟨m, hm, register, hr, hs⟩ := hs
  cases hs
  have hdel := h.delete (List.mem_of_getElem? hm) (toOption_eq_some hr)
  exact matched_event rfl
    { hdel with deletes := fun m' hm' => h.deletes m' (List.mem_of_mem_eraseIdx hm') }
    fun _ hr => ⟨_, rfl, { hr with }⟩

theorem matched_removeBlock (h : Kept ring a ideal s o) {i : ℕ} {gone ok : Bool}
    (hs : step ring a s (.removeBlock i gone ok) = some s') :
    Matched ring a ideal s (.removeBlock i gone ok) s' o := by
  simp only [step] at hs
  split at hs
  · rename_i b rest hc
    cases hs
    refine matched_silent { h with gaia := ?_ } rfl fun _ hr => { hr with gaia := ?_ }
    · dsimp only
      split_ifs
      · exact h.gaia.erase _
      · exact h.gaia
    · dsimp only
      split_ifs
      · exact hr.gaia.erase _
      · exact hr.gaia
  · cases hs

theorem matched_step (ha : Steady a) (h : Kept ring a ideal s o) (hp : Proper s action)
    (hs : step ring a s action = some s') : Matched ring a ideal s action s' o := by
  cases action with
  | newTerm term =>
    cases hs
    exact matched_silent { h with } rfl fun _ hr => { hr with }
  | close f key term ps completions => exact matched_close h hp hs
  | upload i n stored => exact matched_upload h hs
  | submit i clientTerm => exact matched_submit h ha hs
  | getObjMeta c objID clientTerm behind => exact matched_getObjMeta h ha hs
  | beginRead j buffer => exact matched_beginRead h hs
  | span j k reached => exact matched_span h hs
  | endRead j => exact matched_endRead h hs
  | lookUpSource objID clientTerm behind => exact matched_lookUpSource h ha hp hs
  | copy bucketInfo key i clientTerm => exact matched_copy h ha hs
  | lookUpDeleted objID clientTerm behind => exact matched_lookUpDeleted h ha hs
  | delete i => exact matched_delete h hs
  | removeBlock i gone ok => exact matched_removeBlock h hs

theorem simulates (ring : Mapper) (ha : Steady a) :
    Simulates (step ring a) (fun s action => Proper s action ∧ Whole s action) ObjectMap.next
      System.events fun s o => ∃ ideal, Kept ring a ideal s o ∧ Reads ideal s o := by
  intro s action s' o ⟨ideal, h, hr⟩ ⟨hp, hw⟩ hs
  obtain ⟨es, ideal', hes, hkept, hreads⟩ := matched_step ha h hp hs
  obtain ⟨o', hrun, hr'⟩ := hreads hw hr
  rw [ObjectMap.run_next_eq hrun] at hkept
  exact ⟨es, o', hes, hrun, ideal', hkept, hr'⟩

end

def start (term : UInt64) (pgs : List UInt64) : System where
  term := term
  register := (BlockReferences.start term pgs).register

theorem objectAt_start (ring : Mapper) (a : AlayaEnv) (term : UInt64) (pgs : List UInt64)
    (id : Bytes) : objectAt ring a (start term pgs).register id = none := by
  unfold objectAt found
  cases hs : (start term pgs).register[calculateObjectPGID ring a 0 id]? with
  | none => rfl
  | some storage =>
    have hs' : (BlockReferences.start term pgs).register[calculateObjectPGID ring a 0 id]? =
        some storage := hs
    rw [BlockReferences.start_register hs']
    simp [MemoryMetaStorage.empty]

theorem kept_start (ring : Mapper) (a : AlayaEnv) (term : UInt64) (pgs : List UInt64) :
    Kept ring a (fun _ => none) (start term pgs) {} where
  generated _ _ h := (by cases h)
  gaia := trimmed_empty
  unsent _ h := (by cases h)
  puts _ h := (by cases h)
  objects id := by
    rw [objectAt_start]
    exact .none
  addressed r hr id m h := by
    obtain rfl : r = (start term pgs).register := by simpa [start] using hr
    rw [objectAt_start] at h
    cases h
  deletes _ h := (by cases h)
  copies := .nil

/-- The events of every run are accepted, by the map that they lead to. -/
theorem accepted (ring : Mapper) {a : AlayaEnv} (ha : Steady a) {term : UInt64} {pgs : List UInt64}
    {actions : List Action} {s : System}
    (hp : Meets (step ring a) Proper (start term pgs) actions)
    (hw : Meets (step ring a) Whole (start term pgs) actions)
    (hr : run (step ring a) (start term pgs) actions = some s) :
    run ObjectMap.next {} s.events = some (ObjectMap.replay s.events) := by
  have hinit : run ObjectMap.next {} (start term pgs).events = some {} := rfl
  obtain ⟨o, ho, -⟩ := (simulates ring ha).accepted hinit
    ⟨_, kept_start ring a term pgs, coherent_empty, .nil⟩ (meets_and hp hw) hr
  rw [ho, ObjectMap.replay, ObjectMap.run_next_eq ho]

def oneEnv : AlayaEnv := ⟨fun _ => some smallFactory.bucketInfo, fun _ => some 10⟩

section
variable (ring : Mapper) (a : AlayaEnv) (ha : Steady a) (term : UInt64) (pgs : List UInt64)
  (actions : List Action) (s : System)
  (hp : Meets (step ring a) Proper (start term pgs) actions)
  (hw : Meets (step ring a) Whole (start term pgs) actions)
  (hr : run (step ring a) (start term pgs) actions = some s)

include ha hp hw hr

end

section
variable (ring : Mapper) (a : AlayaEnv) (ha : Steady a) (term : UInt64) (pgs : List UInt64)
  (actions : List Action) (s : System)
  (hp : Meets (step ring a) Proper (start term pgs) actions)
  (hw : Meets (step ring a) Whole (start term pgs) actions)
  (hr : run (step ring a) (start term pgs) actions = some s)

include ha hp hw hr

end

end Ecos.ObjectStore
