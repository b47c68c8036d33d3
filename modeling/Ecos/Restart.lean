import Ecos.Alaya.Recovery
import Ecos.Moon.InfoStorage
import Ecos.RaftPublish

namespace Ecos
open Go Logic Std Raft

namespace Raft

/-- The data of the commands with indices in `(a, b]`. -/
def commandsBetween (L : Log) (a b : ℕ) : List Bytes :=
  ((List.range' (a + 1) (b - a)).filter (command L)).map fun i => (L i).2

theorem commandsBetween_self (L : Log) (a : ℕ) : commandsBetween L a a = [] := by
  rw [commandsBetween, Nat.sub_self]
  rfl

theorem commandsBetween_append (L : Log) {a b c : ℕ} (hab : a ≤ b) (hbc : b ≤ c) :
    commandsBetween L a b ++ commandsBetween L b c = commandsBetween L a c := by
  unfold commandsBetween
  have hr : List.range' (a + 1) (c - a) =
      List.range' (a + 1) (b - a) ++ List.range' (b + 1) (c - b) := by
    rw [show c - a = (b - a) + (c - b) by omega, ← List.range'_append_1,
      show a + 1 + (b - a) = b + 1 by omega]
  rw [hr, List.filter_append, List.map_append]

theorem fresh_map_data (L : Log) (a : ℕ) (d : Delivery) :
    ((fresh L a d).map fun i => (L i).2) = commandsBetween L (d.base a) (d.lastSeen a) := by
  rw [fresh, commandsBetween, Delivery.lastSeen,
    show max (d.base a) (d.lo + d.n - 1) - d.base a = d.lo + d.n - (d.base a + 1) by omega]

def segments (L : Log) : ℕ → List Delivery → List Bytes
  | _, [] => []
  | a, d :: ds => commandsBetween L (d.base a) (d.lastSeen a) ++ segments L (d.lastSeen a) ds

def NoInstall (ds : List Delivery) : Prop := ∀ d ∈ ds, d.snapshot = 0

/-- A node started from the snapshot at `s` has served the deliveries `ds`. -/
structure Served (unmarshal : Bytes → Option ConfChange) (L : Log) (s : ℕ) (ds : List Delivery)
    (l : Loop) : Prop where
  bounded : s + 1 < 2 ^ 64
  admissible : Admissible s ds
  run : serveChannels unmarshal (Loop.start (UInt64.ofNat s)) (ds.map (Delivery.ready L)) = .ok l

variable {unmarshal : Bytes → Option ConfChange} {L : Log}

theorem serveChannels_handed {l l' : Loop} {a : ℕ} {ds : List Delivery}
    (ha : l.rc.appliedIndex.toNat = a) (hb : a + 1 < 2 ^ 64) (hds : Admissible a ds)
    (h : serveChannels unmarshal l (ds.map (Delivery.ready L)) = .ok l') :
    handed l'.commitC = handed l.commitC ++ segments L a ds := by
  induction ds generalizing l a with
  | nil =>
    cases h
    exact (List.append_nil _).symm
  | cons d ds ih =>
    rw [serveChannels, List.map_cons, List.foldlM_cons] at h
    cases hstep : serveReady unmarshal l (d.ready L) with
    | error e => rw [hstep] at h; cases h
    | ok l₁ =>
      rw [hstep] at h
      obtain ⟨ha₁, hl₁⟩ := serveReady_ok ha hb hds.1 hstep
      rw [ih ha₁ (lastSeen_bound hb hds.1) hds.2 h, hl₁, fresh_map_data, segments,
        List.append_assoc]

theorem Served.handed_eq {s : ℕ} {ds : List Delivery} {l : Loop}
    (h : Served unmarshal L s ds l) : handed l.commitC = segments L s ds := by
  have hstart : (Loop.start (UInt64.ofNat s)).rc.appliedIndex.toNat = s :=
    UInt64.toNat_ofNat_of_lt' (by have := h.bounded; simp [UInt64.size]; omega)
  rw [serveChannels_handed hstart h.bounded h.admissible h.run]
  rfl

theorem Delivery.le_lastSeen {d : Delivery} {a : ℕ} (hd : d.Admissible a) : a ≤ d.lastSeen a :=
  (d.le_base hd).trans (le_max_left _ _)

theorem le_lastSeen {a : ℕ} {ds : List Delivery} (hds : Admissible a ds) : a ≤ lastSeen a ds := by
  induction ds generalizing a with
  | nil => exact le_rfl
  | cons d ds ih => exact (d.le_lastSeen hds.1).trans (ih hds.2)

theorem segments_noInstall {a : ℕ} {ds : List Delivery} (hno : NoInstall ds)
    (hds : Admissible a ds) : segments L a ds = commandsBetween L a (lastSeen a ds) := by
  induction ds generalizing a with
  | nil => exact (commandsBetween_self L a).symm
  | cons d ds ih =>
    have hbase : d.base a = a := if_pos (hno d List.mem_cons_self)
    rw [segments, hbase, ih (fun x hx => hno x (List.mem_cons_of_mem d hx)) hds.2]
    exact commandsBetween_append L (d.le_lastSeen hds.1) (le_lastSeen hds.2)

theorem admissible_append {a : ℕ} {ds ds' : List Delivery} :
    Admissible a (ds ++ ds') ↔ Admissible a ds ∧ Admissible (lastSeen a ds) ds' := by
  induction ds generalizing a with
  | nil => simp [Admissible, lastSeen]
  | cons d ds ih =>
    show d.Admissible a ∧ Admissible (d.lastSeen a) (ds ++ ds') ↔ _
    rw [ih, ← and_assoc]
    rfl

theorem segments_append (a : ℕ) (ds ds' : List Delivery) :
    segments L a (ds ++ ds') = segments L a ds ++ segments L (lastSeen a ds) ds' := by
  induction ds generalizing a with
  | nil => rfl
  | cons d ds ih =>
    rw [List.cons_append, segments, ih, segments, List.append_assoc]
    rfl

/-- A node with the log up to `n` behind it that did not apply all of it: restarted from its
own snapshot at `s`, or a follower at `a` on which the snapshot at `s` was installed. -/
inductive BroughtUp (unmarshal : Bytes → Option ConfChange) (L : Log) (s n : ℕ) : ℕ → Loop → Prop
  | restart {ds : List Delivery} {l : Loop} (served : Served unmarshal L s ds l)
      (noInstall : NoInstall ds) (last : lastSeen s ds = n) : BroughtUp unmarshal L s n 0 l
  | install {pre post : List Delivery} {d : Delivery} {l : Loop}
      (served : Served unmarshal L 0 (pre ++ d :: post) l) (noInstallPre : NoInstall pre)
      (noInstallPost : NoInstall post) (snapshot : d.snapshot = s) (nonempty : s ≠ 0)
      (last : lastSeen 0 (pre ++ d :: post) = n) :
      BroughtUp unmarshal L s n (lastSeen 0 pre) l

/-- Such a node hands over the commands up to `a` and those after `s`. -/
theorem BroughtUp.handed_eq {s n a : ℕ} {l : Loop} (h : BroughtUp unmarshal L s n a l) :
    handed l.commitC = commandsBetween L 0 a ++ commandsBetween L s n ∧ s ≤ n := by
  cases h with
  | restart served noInstall last =>
    rw [served.handed_eq, segments_noInstall noInstall served.admissible, last,
      commandsBetween_self]
    exact ⟨rfl, last ▸ le_lastSeen served.admissible⟩
  | @install pre post d _ served noInstallPre noInstallPost snapshot nonempty last =>
    obtain ⟨hpre, hd, hpost⟩ := admissible_append.mp served.admissible
    have hlast : lastSeen (d.lastSeen (lastSeen 0 pre)) post = n := by
      rw [← last, lastSeen, lastSeen, lastSeen, List.foldl_append, List.foldl_cons]
    have hbase : d.base (lastSeen 0 pre) = s := by
      rw [Delivery.base, if_neg (snapshot ▸ nonempty), snapshot]
    have hs : s ≤ d.lastSeen (lastSeen 0 pre) := by
      rw [Delivery.lastSeen, hbase]
      exact le_max_left _ _
    have hn : d.lastSeen (lastSeen 0 pre) ≤ n := hlast ▸ le_lastSeen hpost
    rw [served.handed_eq, segments_append, segments, segments_noInstall noInstallPre hpre,
      segments_noInstall noInstallPost hpost, hlast, hbase, commandsBetween_append L hs hn]
    exact ⟨rfl, hs.trans hn⟩

end Raft

/-- A storage behind a raft node: how the consumer applies the data of one entry, writes
and reads snapshots, and what it answers to a query. -/
structure Applier (σ κ ν : Type) where
  empty : σ
  apply : σ → Bytes → σ
  createSnapshot : σ → Bytes
  recover : σ → Bytes → σ
  get : σ → κ → Except Errno ν

namespace Applier
variable {σ κ ν : Type}

/-- One message of `CommitC`; `snapshot` is the data of the newest snapshot file. -/
def consume (A : Applier σ κ ν) (snapshot : Bytes) (s : σ) : CommitMsg → σ
  | .loadSnapshot => A.recover s snapshot
  | .commit data => data.foldl A.apply s

def storage (A : Applier σ κ ν) (snapshot : Bytes) (commitC : List CommitMsg) : σ :=
  commitC.foldl (A.consume snapshot) A.empty

/-- The storage keeps a map in memory: entries are puts and deletes (or have no effect),
and recovery does not change it. -/
structure InMemory (A : Applier σ κ ν) [DecidableEq κ] (op : Bytes → Option (Op κ ν)) where
  look : σ → κ → Option ν
  inv : σ → Prop
  inv_empty : inv A.empty
  inv_apply : ∀ s data, inv s → inv (A.apply s data)
  recover : ∀ s snapshot, A.recover s snapshot = s
  look_empty : look A.empty = fun _ => none
  look_apply : ∀ s data, inv s → look (A.apply s data) = replay (look s) (op data).toList
  get_eq_iff : ∀ s t k, inv s → inv t → (A.get s k = A.get t k ↔ look s k = look t k)

variable [DecidableEq κ] {A : Applier σ κ ν} {op : Bytes → Option (Op κ ν)}

theorem InMemory.foldl_apply (h : A.InMemory op) (s : σ) (data : List Bytes) (hs : h.inv s) :
    h.inv (data.foldl A.apply s) ∧
      h.look (data.foldl A.apply s) = replay (h.look s) (data.filterMap op) := by
  induction data generalizing s with
  | nil => exact ⟨hs, rfl⟩
  | cons x data ih =>
    obtain ⟨hinv, hlook⟩ := ih (A.apply s x) (h.inv_apply s x hs)
    refine ⟨hinv, ?_⟩
    rw [List.foldl_cons, hlook, h.look_apply s x hs, ← replay_append, List.filterMap_cons]
    cases op x <;> rfl

/-- Whatever is on `CommitC` besides the commits, the storage follows the data handed over. -/
theorem InMemory.storage_eq (h : A.InMemory op) (snapshot : Bytes) (commitC : List CommitMsg) :
    A.storage snapshot commitC = (handed commitC).foldl A.apply A.empty := by
  unfold Applier.storage
  generalize A.empty = s
  induction commitC generalizing s with
  | nil => rfl
  | cons m commitC ih =>
    rw [List.foldl_cons, ih]
    cases m with
    | loadSnapshot => rw [consume, h.recover]; rfl
    | commit data => rw [consume, ← List.foldl_append]; rfl

/-- The storage after the commands up to index `i`. -/
def after (A : Applier σ κ ν) (L : Log) (i : ℕ) : σ :=
  (commandsBetween L 0 i).foldl A.apply A.empty

/-- Every key whose value at `a` is not that at `s` is written again after `s`. -/
def Rewritten (A : Applier σ κ ν) (op : Bytes → Option (Op κ ν)) (L : Log) (a s n : ℕ) : Prop :=
  ∀ k, ¬ Touched ((commandsBetween L s n).filterMap op) k →
    A.get (A.after L a) k = A.get (A.after L s) k

/-- The answer of a node whose newest snapshot is that at `s`. -/
def answer (A : Applier σ κ ν) (L : Log) (s : ℕ) (l : Loop) (k : κ) : Except Errno ν :=
  A.get (A.storage (A.createSnapshot (A.after L s)) l.commitC) k

/-- The last command decides about its key. -/
theorem InMemory.answer_last (h : A.InMemory op) (L : Log) (s : ℕ) {l : Loop} {data : List Bytes}
    {x : Bytes} {o : Op κ ν} (hl : handed l.commitC = data ++ [x]) (ho : op x = some o) :
    A.answer L s l o.key = A.get (A.apply A.empty x) o.key := by
  obtain ⟨hinv, -⟩ := h.foldl_apply A.empty data h.inv_empty
  rw [answer, h.storage_eq, hl, List.foldl_append, List.foldl_cons, List.foldl_nil,
    h.get_eq_iff _ _ _ (h.inv_apply _ x hinv) (h.inv_apply _ x h.inv_empty),
    h.look_apply _ x hinv, h.look_apply _ x h.inv_empty, ho]
  exact replay_of_touched _ _ ⟨o, List.mem_singleton_self o, rfl⟩

theorem InMemory.broughtUp_iff (h : A.InMemory op) {unmarshal : Bytes → Option ConfChange}
    {L : Log} {s n a : ℕ} {l l' : Loop} {ds : List Delivery} (hl : Served unmarshal L 0 ds l)
    (hds : NoInstall ds) (hn : lastSeen 0 ds = n) (hl' : BroughtUp unmarshal L s n a l') :
    (∀ k, A.answer L s l' k = A.answer L s l k) ↔ A.Rewritten op L a s n := by
  obtain ⟨hup, hsn⟩ := hl'.handed_eq
  have hall : handed l.commitC = commandsBetween L 0 s ++ commandsBetween L s n := by
    rw [hl.handed_eq, segments_noInstall hds hl.admissible, hn,
      commandsBetween_append L (Nat.zero_le s) hsn]
  obtain ⟨hia, -⟩ := h.foldl_apply A.empty (commandsBetween L 0 a) h.inv_empty
  obtain ⟨his, -⟩ := h.foldl_apply A.empty (commandsBetween L 0 s) h.inv_empty
  obtain ⟨hia', hla⟩ := h.foldl_apply (A.after L a) (commandsBetween L s n) hia
  obtain ⟨his', hls⟩ := h.foldl_apply (A.after L s) (commandsBetween L s n) his
  unfold answer
  rw [h.storage_eq, h.storage_eq, hup, hall, List.foldl_append, List.foldl_append]
  calc (∀ k, A.get ((commandsBetween L s n).foldl A.apply (A.after L a)) k =
          A.get ((commandsBetween L s n).foldl A.apply (A.after L s)) k)
      ↔ replay (h.look (A.after L a)) ((commandsBetween L s n).filterMap op) =
          replay (h.look (A.after L s)) ((commandsBetween L s n).filterMap op) := by
        rw [← hla, ← hls, funext_iff]
        exact forall_congr' fun k => h.get_eq_iff _ _ k hia' his'
    _ ↔ A.Rewritten op L a s n := by
        rw [replay_eq_iff]
        exact forall_congr' fun k => imp_congr_right fun _ => (h.get_eq_iff _ _ k hia his).symm

end Applier

open Alaya Moon

def alayaMemory (decode : Bytes → MetaOperate) : Applier MemoryMetaStorage Bytes ObjectMeta where
  empty := .empty
  apply s data := s.operate (decode data)
  createSnapshot := MemoryMetaStorage.createSnapshot
  recover := MemoryMetaStorage.recoverFromSnapshot
  get := MemoryMetaStorage.getMeta

def moonMemory (decode : Bytes → ProposeInfoRequest) :
    Applier StorageRegister (InfoType × Bytes) BaseInfo where
  empty := .registerAllStorage
  apply r data := r.operate (decode data)
  createSnapshot := StorageRegister.getSnapshot
  recover := StorageRegister.recoverFromSnapshot
  get r k := r.get k.1 k.2

theorem MemoryMetaStorage.lookup_operate (s : MemoryMetaStorage) (o : MetaOperate) :
    (fun k => (s.operate o).metaMap[k]?) = applyOp (fun k => s.metaMap[k]?) (o.op id) := by
  unfold MemoryMetaStorage.operate MetaOperate.op
  cases o.operate
  · exact ByteMap.getElem?_insert s.metaMap _ _
  · exact ByteMap.getElem?_erase s.metaMap _

def alayaMemory_inMemory (decode : Bytes → MetaOperate) :
    (alayaMemory decode).InMemory fun data => some ((decode data).op id) where
  look s k := s.metaMap[k]?
  inv _ := True
  inv_empty := trivial
  inv_apply _ _ _ := trivial
  recover _ _ := rfl
  look_empty := funext fun _ => ExtTreeMap.getElem?_empty
  look_apply s data _ := MemoryMetaStorage.lookup_operate s (decode data)
  get_eq_iff s t k _ _ := by
    simp only [alayaMemory, MemoryMetaStorage.getMeta]
    cases s.metaMap[k]? <;> cases t.metaMap[k]? <;> simp

def moonMemory_inMemory (decode : Bytes → ProposeInfoRequest) :
    (moonMemory decode).InMemory fun data => (decode data).op where
  look := StorageRegister.lookup
  inv := StorageRegister.WellFormed
  inv_empty := StorageRegister.wellFormed_registerAllStorage
  inv_apply _ data h := StorageRegister.wellFormed_operate h (decode data)
  recover _ _ := rfl
  look_empty := StorageRegister.lookup_registerAllStorage
  look_apply _ data h := StorageRegister.lookup_operate h (decode data)
  get_eq_iff _ _ k h h' := StorageRegister.get_eq_get_iff h h' k

/-- A node brought up from a snapshot at `s` answers every `GetMeta` and every `Get` as a node
that applied the whole log exactly when every key whose value at `s` differs from the one
it had itself is written again after `s`. -/
theorem memory_broughtUp_iff (unmarshal : Bytes → Option ConfChange) (L : Log)
    (decodeMeta : Bytes → MetaOperate) (decodeInfo : Bytes → ProposeInfoRequest)
    (ds : List Delivery) (l l' : Loop) (s a : ℕ) (hl : Served unmarshal L 0 ds l)
    (hds : NoInstall ds) (hl' : BroughtUp unmarshal L s (lastSeen 0 ds) a l') :
    ((∀ k, (alayaMemory decodeMeta).answer L s l' k = (alayaMemory decodeMeta).answer L s l k) ↔
      (alayaMemory decodeMeta).Rewritten (fun data => some ((decodeMeta data).op id)) L a s
        (lastSeen 0 ds)) ∧
    ((∀ k, (moonMemory decodeInfo).answer L s l' k = (moonMemory decodeInfo).answer L s l k) ↔
      (moonMemory decodeInfo).Rewritten (fun data => (decodeInfo data).op) L a s
        (lastSeen 0 ds)) :=
  ⟨(alayaMemory_inMemory decodeMeta).broughtUp_iff hl hds rfl hl',
    (moonMemory_inMemory decodeInfo).broughtUp_iff hl hds rfl hl'⟩

def samplePut : MetaOperate := ⟨1, .PUT, sampleMeta⟩

def sampleNode : NodeInfo := ⟨1, [], [], 0, 10, .ONLINE⟩

def sampleAdd : ProposeInfoRequest := ⟨.ADD, 1, [49], .nodeInfo sampleNode⟩

def constantLog : Log := fun _ => (.normal, [0])

/-- The snapshot at 1 of a log that writes the same key again at 2. -/
theorem memory_broughtUp_rewritten :
    ∃ l l', Served (fun _ => none) constantLog 0 [⟨0, 1, 2, false, false⟩] l ∧
      BroughtUp (fun _ => none) constantLog 1 2 0 l' ∧
      ∀ k, (alayaMemory fun _ => samplePut).answer constantLog 1 l' k =
        (alayaMemory fun _ => samplePut).answer constantLog 1 l k := by
  have hl : Served (fun _ => none) constantLog 0 [⟨0, 1, 2, false, false⟩]
      ⟨⟨2, 0, 2000⟩, [], [.commit [[0], [0]]]⟩ :=
    ⟨by decide, ⟨⟨.inl rfl, by decide, by decide⟩, trivial⟩, by decide⟩
  have hl' : BroughtUp (fun _ => none) constantLog 1 2 0 ⟨⟨2, 1, 2000⟩, [], [.commit [[0]]]⟩ :=
    @BroughtUp.restart _ _ _ _ [⟨0, 2, 1, false, false⟩] _
      ⟨by decide, ⟨⟨.inl rfl, by decide, by decide⟩, trivial⟩, by decide⟩
      (by simp [NoInstall]) rfl
  refine ⟨_, _, hl, hl', (memory_broughtUp_iff (fun _ => none) constantLog
    (fun _ => samplePut) (fun _ => sampleAdd) _ _ _ 1 0
    hl (by simp [NoInstall]) hl').1.mpr ?_⟩
  intro k hk
  have hne : ¬ Touched [samplePut.op id] k := hk
  have h := alayaMemory_inMemory fun _ => samplePut
  have hone : (alayaMemory fun _ => samplePut).after constantLog 1 =
      (alayaMemory fun _ => samplePut).apply (alayaMemory fun _ => samplePut).empty [0] := rfl
  rw [hone]
  refine (h.get_eq_iff _ _ k h.inv_empty (h.inv_apply _ _ h.inv_empty)).mpr ?_
  rw [h.look_apply _ [0] h.inv_empty]
  exact (replay_of_not_touched hne).symm

/-- After 2001 entries a snapshot is taken at 2001. The node that restarts from it has
nothing to replay and knows neither the meta nor the node info. -/
theorem memory_restart_forgets :
    ∃ l l', Served (fun _ => none) constantLog 0 [⟨0, 1, 2001, false, false⟩] l ∧
      l.rc.snapshotIndex = 2001 ∧ BroughtUp (fun _ => none) constantLog 2001 2001 0 l' ∧
      (alayaMemory fun _ => samplePut).answer constantLog 2001 l [107] =
        .ok sampleMeta ∧
      (alayaMemory fun _ => samplePut).answer constantLog 2001 l' [107] =
        .error .metaNotExist ∧
      (moonMemory fun _ => sampleAdd).answer constantLog 2001 l
        (.NODE_INFO, [49]) = .ok (.nodeInfo sampleNode) ∧
      (moonMemory fun _ => sampleAdd).answer constantLog 2001 l'
        (.NODE_INFO, [49]) = .error .infoNotFound := by
  obtain ⟨data, hserved⟩ : ∃ data, Served (fun _ => none) constantLog 0
      [⟨0, 1, 2001, false, false⟩] ⟨⟨2001, 2001, 2000⟩, [], [.commit (data ++ [[0]])]⟩ := by
    refine ⟨List.replicate 2000 [0], by decide, ⟨⟨.inl rfl, by decide, by decide⟩, trivial⟩, ?_⟩
    rw [← List.replicate_succ']
    decide +kernel
  have hhanded : handed [.commit (data ++ [[0]])] = data ++ [[0]] := List.append_nil _
  refine ⟨_, Loop.start 2001, hserved, rfl,
    @BroughtUp.restart _ _ _ _ [] _ ⟨by decide, trivial, rfl⟩ (by simp [NoInstall]) rfl,
    ?_, ?_, ?_, ?_⟩
  · exact ((alayaMemory_inMemory _).answer_last _ _ hhanded rfl).trans (by decide +kernel)
  · decide +kernel
  · have hop : sampleAdd.op = some (.put (.NODE_INFO, [49]) (.nodeInfo sampleNode)) := by decide
    exact ((moonMemory_inMemory fun _ => sampleAdd).answer_last _ _ hhanded hop).trans
      (by decide +kernel)
  · decide +kernel

end Ecos
