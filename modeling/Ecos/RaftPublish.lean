import Ecos.RaftNode

namespace Ecos.Raft
open Go

abbrev Log := ℕ → EntryType × Bytes

def entryAt (L : Log) (i : ℕ) : Entry := ⟨UInt64.ofNat i, (L i).1, (L i).2⟩

def slice (L : Log) (lo n : ℕ) : List Entry := (List.range' lo n).map (entryAt L)

def command (L : Log) (i : ℕ) : Bool := isCommand (entryAt L i)

/-- What the raft library puts into one Ready: a snapshot index (zero for none) and the
committed entries `lo, …, lo + n - 1`. -/
structure Delivery where
  snapshot : ℕ
  lo : ℕ
  n : ℕ
  sendDone : Bool := false
  waitDone : Bool := false
  deriving DecidableEq, Repr

def Delivery.ready (L : Log) (d : Delivery) : Ready :=
  ⟨UInt64.ofNat d.snapshot, slice L d.lo d.n, d.sendDone, d.waitDone⟩

/-- `i` moved up to the snapshot, where one is installed. -/
def Delivery.base (d : Delivery) (i : ℕ) : ℕ := if d.snapshot = 0 then i else d.snapshot

def Delivery.lastSeen (d : Delivery) (last : ℕ) : ℕ := max (d.base last) (d.lo + d.n - 1)

def lastSeen (last : ℕ) (ds : List Delivery) : ℕ := ds.foldl (fun i d => d.lastSeen i) last

/-- An installed snapshot is ahead of everything seen, and the batch starts no later than
one past the last index seen. Every index has a successor in the machine word. -/
structure Delivery.Admissible (last : ℕ) (d : Delivery) : Prop where
  snapshot : d.snapshot = 0 ∨ last < d.snapshot ∧ d.snapshot + 1 < 2 ^ 64
  contiguous : d.lo ≤ d.base last + 1
  bounded : d.lo + d.n < 2 ^ 64

def Admissible : ℕ → List Delivery → Prop
  | _, [] => True
  | last, d :: ds => d.Admissible last ∧ Admissible (d.lastSeen last) ds

/-- `i` is committed in some batch, above the snapshot that the node holds by then. -/
def CommittedAbove : ℕ → List Delivery → ℕ → Prop
  | _, [], _ => False
  | base, d :: ds, i =>
    (d.base base < i ∧ d.lo ≤ i ∧ i < d.lo + d.n) ∨ CommittedAbove (d.base base) ds i

def handed (commitC : List CommitMsg) : List Bytes :=
  commitC.flatMap fun
    | .loadSnapshot => []
    | .commit data => data

@[simp] theorem handed_append (c c' : List CommitMsg) : handed (c ++ c') = handed c ++ handed c' :=
  List.flatMap_append

theorem slice_length (L : Log) (lo n : ℕ) : (slice L lo n).length = n := by
  rw [slice, List.length_map, List.length_range']

theorem slice_drop (L : Log) (lo n k : ℕ) : (slice L lo n).drop k = slice L (lo + k) (n - k) := by
  rw [slice, slice, ← List.map_drop, List.drop_range', mul_one]

theorem slice_succ (L : Log) (lo n : ℕ) :
    slice L lo (n + 1) = entryAt L lo :: slice L (lo + 1) n := by
  rw [slice, slice, List.range'_succ, List.map_cons]

theorem slice_getLast? (L : Log) (lo n : ℕ) :
    (slice L lo n).getLast? = if n = 0 then none else some (entryAt L (lo + n - 1)) := by
  rw [slice, List.getLast?_map, List.getLast?_range']
  split_ifs with h
  · rfl
  · rfl

theorem slice_commands (L : Log) (lo n : ℕ) :
    ((slice L lo n).filter isCommand).map Entry.data =
      ((List.range' lo n).filter (command L)).map fun i => (L i).2 := by
  rw [slice, List.filter_map, List.map_map]
  rfl

/-- The offset `appliedIndex - firstIdx + 1` wraps when the batch starts right after the
applied prefix, and is the length of the overlap in every case. -/
theorem overlap_toNat {a lo : ℕ} (ha : a + 1 < 2 ^ 64) (hlo : lo ≤ a + 1) {x : UInt64}
    (hx : x.toNat = a) : (x - UInt64.ofNat lo + 1).toNat = a + 1 - lo := by
  have h : (UInt64.ofNat lo).toNat = lo := UInt64.toNat_ofNat_of_lt' (by simp [UInt64.size]; omega)
  rw [UInt64.toNat_add, UInt64.toNat_sub, hx, h, UInt64.toNat_one]
  omega

/-- Of an admissible batch exactly the entries after the applied prefix remain. -/
theorem entriesToApply_slice (L : Log) {rc : RaftNode} {a lo n : ℕ}
    (ha : rc.appliedIndex.toNat = a) (hb : a + 1 < 2 ^ 64) (hlo : lo ≤ a + 1)
    (hn : lo + n < 2 ^ 64) :
    entriesToApply rc (slice L lo n) = .ok (slice L (a + 1) (lo + n - (a + 1))) := by
  rcases n with _ | n
  · rw [show lo + 0 - (a + 1) = 0 by omega]
    rfl
  have hnext : (rc.appliedIndex + 1).toNat = a + 1 := by
    rw [UInt64.toNat_add, ha, UInt64.toNat_one]
    omega
  -- no gap: the error branch of `entriesToApply` is not taken
  have hfirst : ¬ UInt64.ofNat lo > rc.appliedIndex + 1 := by
    rw [gt_iff_lt, UInt64.lt_iff_toNat_lt, hnext,
      UInt64.toNat_ofNat_of_lt' (by simp [UInt64.size]; omega)]
    omega
  have hlen : rc.appliedIndex - UInt64.ofNat lo + 1 < UInt64.ofNat (slice L lo (n + 1)).length ↔
      a + 1 < lo + (n + 1) := by
    rw [UInt64.lt_iff_toNat_lt, overlap_toNat hb hlo ha, slice_length,
      UInt64.toNat_ofNat_of_lt' (by simp [UInt64.size]; omega)]
    omega
  have hdrop : (slice L lo (n + 1)).drop (a + 1 - lo) =
      slice L (a + 1) (lo + (n + 1) - (a + 1)) := by
    rw [slice_drop]
    congr 1 <;> omega
  have hcase : entriesToApply rc (slice L lo (n + 1)) =
      if rc.appliedIndex - UInt64.ofNat lo + 1 < UInt64.ofNat (slice L lo (n + 1)).length then
        .ok ((slice L lo (n + 1)).drop (rc.appliedIndex - UInt64.ofNat lo + 1).toNat)
      else .ok [] := by
    rw [slice_succ]
    exact if_neg hfirst
  rw [hcase, overlap_toNat hb hlo ha, hdrop]
  split_ifs with h
  · rfl
  · rw [hlen] at h
    rw [show lo + (n + 1) - (a + 1) = 0 by omega]
    rfl

variable {unmarshal : Bytes → Option ConfChange}

theorem confChanges_error {ents : List Entry} {e : Exit}
    (h : confChanges unmarshal ents = .error e) :
    e = .badConfChange ∧ ∃ x ∈ ents, x.type = .confChange ∧ unmarshal x.data = none := by
  induction ents with
  | nil => cases h
  | cons x ents ih =>
    rw [confChanges] at h
    split at h
    · rename_i hx
      split at h
      · rename_i hu
        cases h
        exact ⟨rfl, x, List.mem_cons_self, hx, hu⟩
      · cases hr : confChanges unmarshal ents with
        | ok ccs => rw [hr] at h; cases h
        | error e' =>
          rw [hr] at h
          cases h
          obtain ⟨he, y, hy, hbad⟩ := ih hr
          exact ⟨he, y, List.mem_cons_of_mem x hy, hbad⟩
    · obtain ⟨he, y, hy, hbad⟩ := ih h
      exact ⟨he, y, List.mem_cons_of_mem x hy, hbad⟩

theorem publishEntries_ok {rc : RaftNode} {ents : List Entry} {ctxDone : Bool} {p : Published}
    (h : publishEntries unmarshal rc ents ctxDone = .ok p) :
    p.rc = rc.published ents ∧ handed p.commitC = (ents.filter isCommand).map Entry.data := by
  unfold publishEntries at h
  cases hc : confChanges unmarshal ents with
  | error e => rw [hc] at h; cases h
  | ok ccs =>
    simp only [hc, bind, Except.bind] at h
    split_ifs at h with hd hdone
    · cases h
      exact ⟨rfl, hd.symm⟩
    · cases h
      exact ⟨rfl, List.append_nil _⟩

theorem publishEntries_error {rc : RaftNode} {ents : List Entry} {ctxDone : Bool} {e : Exit}
    (h : publishEntries unmarshal rc ents ctxDone = .error e) :
    (e = .badConfChange ∧ ∃ x ∈ ents, x.type = .confChange ∧ unmarshal x.data = none) ∨
      (e = .ctxDone ∧ ctxDone = true) := by
  unfold publishEntries at h
  cases hc : confChanges unmarshal ents with
  | error e' =>
    rw [hc] at h
    cases h
    exact .inl (confChanges_error hc)
  | ok ccs =>
    simp only [hc, bind, Except.bind] at h
    split_ifs at h with hd hdone
    · cases h
    · cases h
      exact .inr ⟨rfl, hdone⟩
    · cases h

theorem published_slice (L : Log) {rc : RaftNode} {a m : ℕ} (ha : rc.appliedIndex.toNat = a)
    (hm : a + m < 2 ^ 64) : (rc.published (slice L (a + 1) m)).appliedIndex.toNat = a + m := by
  rw [RaftNode.published, slice_getLast?]
  rcases m with _ | m
  · exact ha
  · rw [if_neg (Nat.succ_ne_zero m)]
    show (UInt64.ofNat (a + 1 + (m + 1) - 1)).toNat = _
    rw [UInt64.toNat_ofNat_of_lt' (by simp [UInt64.size]; omega)]
    omega

/-- The rest of a batch, where it goes beyond what is applied. -/
theorem published_rest (L : Log) {rc : RaftNode} {a lo n : ℕ} (ha : rc.appliedIndex.toNat = a)
    (hn : lo + n < 2 ^ 64) :
    (rc.published (slice L (a + 1) (lo + n - (a + 1)))).appliedIndex.toNat =
      max a (lo + n - 1) := by
  by_cases hlt : a + 1 ≤ lo + n
  · rw [published_slice L ha (by omega)]
    omega
  · rw [show lo + n - (a + 1) = 0 by omega]
    show rc.appliedIndex.toNat = _
    omega

@[simp] theorem maybeTriggerSnapshot_appliedIndex (rc : RaftNode) (waits ctxDone : Bool) :
    (maybeTriggerSnapshot rc waits ctxDone).appliedIndex = rc.appliedIndex := by
  unfold maybeTriggerSnapshot
  split_ifs <;> rfl

/-- An admissible snapshot is never stale: the node moves up to it. -/
theorem publishSnapshot_admissible {rc : RaftNode} {a : ℕ} {d : Delivery}
    (ha : rc.appliedIndex.toNat = a) (hd : d.Admissible a) :
    ∃ rc' msgs, publishSnapshot rc (UInt64.ofNat d.snapshot) = .ok (rc', msgs) ∧
      rc'.appliedIndex.toNat = d.base a ∧ handed msgs = [] := by
  rcases hd.snapshot with h0 | ⟨hlt, hb⟩
  · refine ⟨rc, [], ?_, ?_, rfl⟩
    · rw [h0]
      rfl
    · rw [Delivery.base, if_pos h0, ha]
  · have hnat : (UInt64.ofNat d.snapshot).toNat = d.snapshot :=
      UInt64.toNat_ofNat_of_lt' (by simp [UInt64.size]; omega)
    have hne : UInt64.ofNat d.snapshot ≠ 0 := by
      intro h
      rw [h] at hnat
      simp only [UInt64.toNat_zero] at hnat
      omega
    have hnew : ¬ UInt64.ofNat d.snapshot ≤ rc.appliedIndex := by
      rw [UInt64.le_iff_toNat_le, hnat, ha]
      omega
    refine ⟨{ rc with
      snapshotIndex := UInt64.ofNat d.snapshot, appliedIndex := UInt64.ofNat d.snapshot },
      [.loadSnapshot], ?_, ?_, rfl⟩
    · rw [publishSnapshot, if_neg hne, if_neg hnew]
    · rw [Delivery.base, if_neg (by omega)]
      exact hnat

/-- One Ready, with everything before `publishEntries` carried out. -/
theorem serveReady_eq (unmarshal : Bytes → Option ConfChange) (L : Log) {l : Loop} {a : ℕ}
    {d : Delivery} (ha : l.rc.appliedIndex.toNat = a) (hb : a + 1 < 2 ^ 64) (hd : d.Admissible a) :
    ∃ rc msgs, rc.appliedIndex.toNat = d.base a ∧ handed msgs = [] ∧
      serveReady unmarshal l (d.ready L) =
        (publishEntries unmarshal rc
          (slice L (d.base a + 1) (d.lo + d.n - (d.base a + 1))) d.sendDone).map fun p =>
            ⟨maybeTriggerSnapshot p.rc (!p.commitC.isEmpty) d.waitDone,
              l.applyConfChangeC ++ p.applyConfChangeC, l.commitC ++ msgs ++ p.commitC⟩ := by
  obtain ⟨rc, msgs, hsnap, hrc, hmsgs⟩ := publishSnapshot_admissible ha hd
  refine ⟨rc, msgs, hrc, hmsgs, ?_⟩
  have hbase : d.base a + 1 < 2 ^ 64 := by
    rcases hd.snapshot with h0 | ⟨hlt, hs⟩
    · rwa [Delivery.base, if_pos h0]
    · rwa [Delivery.base, if_neg (by omega)]
  have hents := entriesToApply_slice L hrc hbase hd.contiguous hd.bounded
  unfold serveReady
  simp only [Delivery.ready, hsnap, hents, bind, Except.bind]
  rfl

def fresh (L : Log) (a : ℕ) (d : Delivery) : List ℕ :=
  (List.range' (d.base a + 1) (d.lo + d.n - (d.base a + 1))).filter (command L)

theorem mem_fresh {L : Log} {a i : ℕ} {d : Delivery} :
    i ∈ fresh L a d ↔ command L i = true ∧ d.base a < i ∧ i < d.lo + d.n := by
  rw [fresh, List.mem_filter, List.mem_range'_1, and_comm]
  refine and_congr_right fun _ => ?_
  omega

theorem serveReady_ok {L : Log} {l l' : Loop} {a : ℕ} {d : Delivery}
    (ha : l.rc.appliedIndex.toNat = a) (hb : a + 1 < 2 ^ 64) (hd : d.Admissible a)
    (h : serveReady unmarshal l (d.ready L) = .ok l') :
    l'.rc.appliedIndex.toNat = d.lastSeen a ∧
      handed l'.commitC = handed l.commitC ++ (fresh L a d).map fun i => (L i).2 := by
  obtain ⟨rc, msgs, hrc, hmsgs, heq⟩ := serveReady_eq unmarshal L ha hb hd
  rw [heq] at h
  cases hp : publishEntries unmarshal rc
      (slice L (d.base a + 1) (d.lo + d.n - (d.base a + 1))) d.sendDone with
  | error e => rw [hp] at h; cases h
  | ok p =>
    rw [hp] at h
    cases h
    obtain ⟨hprc, hpc⟩ := publishEntries_ok hp
    constructor
    · rw [maybeTriggerSnapshot_appliedIndex, hprc]
      exact published_rest L hrc hd.bounded
    · rw [handed_append, handed_append, hmsgs, hpc, slice_commands, List.append_nil, fresh]

theorem serveReady_error {L : Log} {l : Loop} {a : ℕ} {d : Delivery} {e : Exit}
    (ha : l.rc.appliedIndex.toNat = a) (hb : a + 1 < 2 ^ 64) (hd : d.Admissible a)
    (h : serveReady unmarshal l (d.ready L) = .error e) :
    (e = .badConfChange ∧ ∃ i, d.lo ≤ i ∧ i < d.lo + d.n ∧
        (L i).1 = .confChange ∧ unmarshal (L i).2 = none) ∨
      (e = .ctxDone ∧ d.sendDone = true) := by
  obtain ⟨rc, msgs, hrc, hmsgs, heq⟩ := serveReady_eq unmarshal L ha hb hd
  rw [heq] at h
  cases hp : publishEntries unmarshal rc
      (slice L (d.base a + 1) (d.lo + d.n - (d.base a + 1))) d.sendDone with
  | ok p => rw [hp] at h; cases h
  | error e' =>
    rw [hp] at h
    cases h
    refine (publishEntries_error hp).imp_left ?_
    rintro ⟨he, x, hx, hbad⟩
    obtain ⟨i, hi, rfl⟩ := List.mem_map.mp hx
    have hc := hd.contiguous
    rw [List.mem_range'_1] at hi
    exact ⟨he, i, by omega, by omega, hbad⟩

/-- What the node has handed over, `P` being the indices: in increasing order, nothing
beyond `a`, and all commands between its snapshot and `a`. -/
structure Handed (L : Log) (base a : ℕ) (P : List ℕ) : Prop where
  increasing : P.Pairwise (· < ·)
  upTo : ∀ i ∈ P, i ≤ a
  covers : ∀ i, base < i → i ≤ a → command L i = true → i ∈ P
  base_le : base ≤ a

theorem Delivery.base_le_base {d : Delivery} {base a : ℕ} (hle : base ≤ a) :
    d.base base ≤ d.base a := by
  unfold Delivery.base
  split_ifs <;> omega

theorem Delivery.le_base {d : Delivery} {a : ℕ} (hd : d.Admissible a) : a ≤ d.base a := by
  rcases hd.snapshot with h0 | ⟨hlt, -⟩
  · rw [Delivery.base, if_pos h0]
  · rw [Delivery.base, if_neg (by omega)]
    omega

theorem mem_handed_step {L : Log} {base a i : ℕ} {P : List ℕ} {d : Delivery}
    (hP : Handed L base a P) (hd : d.Admissible a) :
    i ∈ P ++ fresh L a d ↔ i ∈ P ∨
      command L i = true ∧ d.base base < i ∧ d.lo ≤ i ∧ i < d.lo + d.n := by
  have hc := hd.contiguous
  have hbb := d.base_le_base hP.base_le
  rw [List.mem_append, mem_fresh]
  constructor
  · rintro (hi | ⟨hcmd, hlt, hi⟩)
    · exact .inl hi
    · exact .inr ⟨hcmd, by omega, by omega, hi⟩
  · rintro (hi | ⟨hcmd, hlt, hlo, hi⟩)
    · exact .inl hi
    · by_cases hold : i ≤ d.base a
      · -- a redelivered entry: without a new snapshot it is in the applied prefix
        rcases hd.snapshot with h0 | ⟨hs, -⟩
        · rw [Delivery.base, if_pos h0] at hlt hold
          exact .inl (hP.covers i hlt hold hcmd)
        · rw [Delivery.base, if_neg (by omega)] at hlt hold
          omega
      · exact .inr ⟨hcmd, by omega, hi⟩

theorem handed_step {L : Log} {base a : ℕ} {P : List ℕ} {d : Delivery}
    (hP : Handed L base a P) (hd : d.Admissible a) :
    Handed L (d.base base) (d.lastSeen a) (P ++ fresh L a d) := by
  have hle := d.le_base hd
  refine ⟨?_, ?_, ?_, ?_⟩
  · rw [List.pairwise_append]
    refine ⟨hP.increasing, (List.pairwise_lt_range' (s := d.base a + 1)).filter _, ?_⟩
    intro i hi j hj
    have := hP.upTo i hi
    have := (mem_fresh.mp hj).2.1
    omega
  · intro i hi
    rw [Delivery.lastSeen]
    rcases List.mem_append.mp hi with hi | hi
    · have := hP.upTo i hi
      omega
    · have := mem_fresh.mp hi
      omega
  · intro i hlt hi hcmd
    rw [Delivery.lastSeen] at hi
    have hc := hd.contiguous
    rw [List.mem_append, mem_fresh]
    -- at most `d.base a`: handed out before, or skipped with an installed snapshot
    by_cases hold : i ≤ d.base a
    · rcases hd.snapshot with h0 | ⟨hs, -⟩
      · rw [Delivery.base, if_pos h0] at hlt hold
        exact .inl (hP.covers i hlt hold hcmd)
      · rw [Delivery.base, if_neg (by omega)] at hlt hold
        omega
    · exact .inr ⟨hcmd, by omega, by omega⟩
  · have := d.base_le_base hP.base_le
    rw [Delivery.lastSeen]
    omega

theorem lastSeen_bound {a : ℕ} {d : Delivery} (hb : a + 1 < 2 ^ 64) (hd : d.Admissible a) :
    d.lastSeen a + 1 < 2 ^ 64 := by
  have hbd := hd.bounded
  rw [Delivery.lastSeen]
  rcases hd.snapshot with h0 | ⟨hlt, hs⟩
  · rw [Delivery.base, if_pos h0]
    omega
  · rw [Delivery.base, if_neg (by omega)]
    omega

/-- The loop from any point of its run on. -/
theorem serveChannels_ok {L : Log} {l l' : Loop} {base a : ℕ} {P : List ℕ} {ds : List Delivery}
    (ha : l.rc.appliedIndex.toNat = a) (hb : a + 1 < 2 ^ 64) (hP : Handed L base a P)
    (hl : handed l.commitC = P.map fun i => (L i).2) (hds : Admissible a ds)
    (h : serveChannels unmarshal l (ds.map (Delivery.ready L)) = .ok l') :
    l'.rc.appliedIndex.toNat = lastSeen a ds ∧ ∃ Q : List ℕ, Q.Pairwise (· < ·) ∧
      (∀ i, i ∈ Q ↔ i ∈ P ∨ command L i = true ∧ CommittedAbove base ds i) ∧
      handed l'.commitC = Q.map fun i => (L i).2 := by
  induction ds generalizing l base a P with
  | nil =>
    cases h
    exact ⟨ha, P, hP.increasing, fun i => by simp [CommittedAbove], hl⟩
  | cons d ds ih =>
    rw [serveChannels, List.map_cons, List.foldlM_cons] at h
    cases hstep : serveReady unmarshal l (d.ready L) with
    | error e => rw [hstep] at h; cases h
    | ok l₁ =>
      rw [hstep] at h
      obtain ⟨ha₁, hl₁⟩ := serveReady_ok ha hb hds.1 hstep
      obtain ⟨hlast, Q, hinc, hmem, hQ⟩ := ih ha₁ (lastSeen_bound hb hds.1)
        (handed_step hP hds.1) (by rw [hl₁, hl, List.map_append]) hds.2 h
      refine ⟨hlast, Q, hinc, fun i => ?_, hQ⟩
      rw [hmem, mem_handed_step hP hds.1, CommittedAbove]
      tauto

theorem serveChannels_error {L : Log} {l : Loop} {a : ℕ} {ds : List Delivery} {e : Exit}
    (ha : l.rc.appliedIndex.toNat = a) (hb : a + 1 < 2 ^ 64) (hds : Admissible a ds)
    (h : serveChannels unmarshal l (ds.map (Delivery.ready L)) = .error e) :
    (e = .badConfChange ∧ ∃ d ∈ ds, ∃ i, d.lo ≤ i ∧ i < d.lo + d.n ∧
        (L i).1 = .confChange ∧ unmarshal (L i).2 = none) ∨
      (e = .ctxDone ∧ ∃ d ∈ ds, d.sendDone = true) := by
  induction ds generalizing l a with
  | nil => cases h
  | cons d ds ih =>
    rw [serveChannels, List.map_cons, List.foldlM_cons] at h
    cases hstep : serveReady unmarshal l (d.ready L) with
    | error e' =>
      rw [hstep] at h
      cases h
      exact (serveReady_error ha hb hds.1 hstep).imp
        (fun ⟨he, hbad⟩ => ⟨he, d, List.mem_cons_self, hbad⟩)
        (fun ⟨he, hdone⟩ => ⟨he, d, List.mem_cons_self, hdone⟩)
    | ok l₁ =>
      rw [hstep] at h
      obtain ⟨ha₁, -⟩ := serveReady_ok ha hb hds.1 hstep
      exact (ih ha₁ (lastSeen_bound hb hds.1) hds.2 h).imp
        (fun ⟨he, d', hd', hbad⟩ => ⟨he, d', List.mem_cons_of_mem d hd', hbad⟩)
        (fun ⟨he, d', hd', hdone⟩ => ⟨he, d', List.mem_cons_of_mem d hd', hdone⟩)

/-- In every run over admissible deliveries `appliedIndex` is the last index seen, and the
data handed to the consumer is that of the commands committed above the initial or
installed snapshot, each once and in increasing order of their indices. The loop leaves
early only for a configuration change that does not decode or a cancelled context, so
neither a gap in the entries nor a stale snapshot is ever found. -/
theorem commands_published_once (unmarshal : Bytes → Option ConfChange) (L : Log) (s : ℕ)
    (ds : List Delivery) (hs : s + 1 < 2 ^ 64) (hds : Admissible s ds) :
    (∀ l, serveChannels unmarshal (Loop.start (UInt64.ofNat s)) (ds.map (Delivery.ready L)) = .ok l →
      l.rc.appliedIndex.toNat = lastSeen s ds ∧ ∃ P : List ℕ, P.Pairwise (· < ·) ∧
        (∀ i, i ∈ P ↔ command L i = true ∧ CommittedAbove s ds i) ∧
        handed l.commitC = P.map fun i => (L i).2) ∧
    (∀ e, serveChannels unmarshal (Loop.start (UInt64.ofNat s)) (ds.map (Delivery.ready L)) =
        .error e →
      (e = .badConfChange ∧ ∃ d ∈ ds, ∃ i, d.lo ≤ i ∧ i < d.lo + d.n ∧
          (L i).1 = .confChange ∧ unmarshal (L i).2 = none) ∨
        (e = .ctxDone ∧ ∃ d ∈ ds, d.sendDone = true)) := by
  have hstart : (Loop.start (UInt64.ofNat s)).rc.appliedIndex.toNat = s :=
    UInt64.toNat_ofNat_of_lt' (by simp [UInt64.size]; omega)
  refine ⟨fun l h => ?_, fun e h => serveChannels_error hstart hs hds h⟩
  have hP : Handed L s s [] :=
    ⟨List.Pairwise.nil, by simp, fun i h₁ h₂ _ => by omega, le_refl s⟩
  obtain ⟨hlast, P, hinc, hmem, hl⟩ := serveChannels_ok hstart hs hP rfl hds h
  exact ⟨hlast, P, hinc, fun i => by rw [hmem]; simp, hl⟩

/-- Two overlapping batches, then a snapshot at 10 followed by a batch that starts below it. -/
theorem commands_published_once_overlap :
    ∃ l, serveChannels (fun _ => none) (Loop.start 0)
        ([⟨0, 1, 3, false, false⟩, ⟨0, 2, 3, false, false⟩, ⟨10, 8, 5, false, false⟩].map
          (Delivery.ready fun i => (.normal, [UInt8.ofNat i]))) = .ok l ∧
      l.rc.appliedIndex.toNat = 12 ∧ ∃ P : List ℕ, P.Pairwise (· < ·) ∧
        handed l.commitC = P.map fun i => [UInt8.ofNat i] := by
  have h := (commands_published_once (fun _ => none) (fun i => (.normal, [UInt8.ofNat i])) 0
    [⟨0, 1, 3, false, false⟩, ⟨0, 2, 3, false, false⟩, ⟨10, 8, 5, false, false⟩] (by decide)
    ⟨⟨.inl rfl, by decide, by decide⟩, ⟨.inl rfl, by decide, by decide⟩,
      ⟨.inr (by decide), by decide, by decide⟩, trivial⟩).1 _ rfl
  obtain ⟨hlast, P, hinc, -, hP⟩ := h
  exact ⟨_, rfl, hlast, P, hinc, hP⟩

end Ecos.Raft
