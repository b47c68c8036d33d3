import Ecos.Rainbow.MetaSync

namespace Ecos.Rainbow.MetaSync
open Go Logic

variable {e : Env} {s s' : State} {a : Action} {new : Option Traced}

def State.moving (s : State) : List Traced :=
  s.answers ++ s.fetched ++ s.sending ++ s.syncEdgeChan ++ s.loop.requeued ++ s.puts ++
    s.proposals.flatMap Proposal.recording

/-- The same version, under whatever position and key. -/
structure Traced.Same (m m' : Traced) : Prop where
  write : m'.write = m.write
  readFrom : m'.readFrom = m.readFrom

theorem Traced.Same.refl (m : Traced) : m.Same m := ⟨rfl, rfl⟩

def State.Moved (s : State) (new : Option Traced) (l : List Traced) : Prop :=
  ∀ c ∈ l, ∃ m ∈ new.toList ++ s.moving, m.Same c

namespace State

variable {l : List Traced}

theorem Moved.eraseIdx (h : s.Moved new l) (j : ℕ) : s.Moved new (l.eraseIdx j) :=
  fun c hc => h c (List.mem_of_mem_eraseIdx hc)

theorem moved_append {l l' : List Traced} :
    s.Moved new (l ++ l') ↔ s.Moved new l ∧ s.Moved new l' := by
  simp only [Moved, List.mem_append, or_imp, forall_and]

/-- A copy comes into a list. -/
theorem Moved.concat (h : s.Moved new l) {c : Traced} (hc : s.Moved new [c]) :
    s.Moved new (l ++ [c]) := moved_append.mpr ⟨h, hc⟩

theorem Moved.singleton (h : s.Moved new l) {m c : Traced} (hm : m ∈ l) (hsame : m.Same c) :
    s.Moved new [c] := by
  intro x hx
  obtain ⟨m₀, hm₀, hsame₀⟩ := h m hm
  rw [List.mem_singleton.mp hx]
  exact ⟨m₀, hm₀, hsame.write.trans hsame₀.write, hsame.readFrom.trans hsame₀.readFrom⟩

theorem moved_new {m c : Traced} (hsame : m.Same c) : s.Moved (some m) [c] := by
  intro x hx
  rw [List.mem_singleton.mp hx]
  exact ⟨m, List.mem_cons_self, hsame⟩

theorem moved_nil : s.Moved new [] := fun _ hc => absurd hc List.not_mem_nil

theorem moved_moving (s : State) (new : Option Traced) : s.Moved new s.moving :=
  fun c hc => ⟨c, List.mem_append_right _ hc, .refl c⟩

theorem moved_moving_iff : s.Moved new s'.moving ↔ s.Moved new s'.answers ∧
    s.Moved new s'.fetched ∧ s.Moved new s'.sending ∧ s.Moved new s'.syncEdgeChan ∧
    s.Moved new s'.loop.requeued ∧ s.Moved new s'.puts ∧
    s.Moved new (s'.proposals.flatMap Proposal.recording) := by
  simp only [moving, moved_append, and_assoc]

theorem moved_proposals_eraseIdx (i : ℕ) :
    s.Moved new ((s.proposals.eraseIdx i).flatMap Proposal.recording) := by
  intro c hc
  obtain ⟨p, hp, hcp⟩ := List.mem_flatMap.mp hc
  refine s.moved_moving new c (List.mem_append_right _ ?_)
  exact List.mem_flatMap.mpr ⟨p, List.mem_of_mem_eraseIdx hp, hcp⟩

theorem mem_moving_of_proposals {i : ℕ} {p : Proposal} (hp : s.proposals[i]? = some p) {m : Traced}
    (hm : m ∈ p.recording) : m ∈ s.moving :=
  List.mem_append_right _ (List.mem_flatMap.mpr ⟨p, List.mem_of_getElem? hp, hm⟩)

end State

/-- A step that moves copies, towards the cloud's storage at most. -/
structure Carries (new : Option Traced) (s s' : State) : Prop where
  moving : s.Moved new s'.moving
  storage : ∀ k c, s'.storage.lookup k = some c → s.storage.lookup k = some c ∨ s.Moved new [c]
  stored : s'.stored = s.stored
  versions : s'.versions = s.versions
  acked : s'.acked = s.acked
  superseded : s'.superseded = s.superseded

/-- Where the storages stay, it is enough to look at what moves. -/
theorem Carries.of_moved (h : s.Moved new s'.moving) (hstorage : s'.storage = s.storage := by rfl)
    (hstored : s'.stored = s.stored := by rfl) (hversions : s'.versions = s.versions := by rfl)
    (hacked : s'.acked = s.acked := by rfl)
    (hsuperseded : s'.superseded = s.superseded := by rfl) : Carries new s s' :=
  ⟨h, fun _ _ hk => .inl (hstorage ▸ hk), hstored, hversions, hacked, hsuperseded⟩

theorem Carries.refl (s : State) : Carries new s s :=
  .of_moved (s.moved_moving new)

variable (e s) in
/-- What a step does: it carries copies along, brings a client's write, answers a `GET` with a
copy, or applies a proposal. -/
inductive Effect : Action → State → Prop
  | carry {a : Action} {s' : State} (h : Carries none s s') (hs : s'.writes = s.writes) :
      Effect a s'
  | write {a : Action} {s' : State} {m : Traced} (h : Carries (some m) s s')
      (hw : m.write = s.writes) (hr : m.readFrom = none) (hs : s'.writes = s.writes + 1) :
      Effect a s'
  | answer {a : Action} {s' : State} {m old : Traced} {k : Slot} (h : Carries (some m) s s')
      (hold : s.stored.lookup k = some old) (hw : m.write = old.write)
      (hr : m.readFrom = some (old.slot, s.versions)) (hs : s'.writes = s.writes) : Effect a s'
  | apply {i : ℕ} {p : Proposal} (hp : s.proposals[i]? = some p) :
      Effect (.apply i) (finish e { s with proposals := s.proposals.eraseIdx i } p)

theorem recordObjectMeta_eq_put {caller : Caller} {current clientTerm : UInt64} {m : Traced}
    {p : Proposal} (h : recordObjectMeta e s caller current clientTerm m = .ok p) :
    ∃ m' syncToCloud, p = .put caller m' syncToCloud ∧ m.Same m' := by
  obtain ⟨term, -, h⟩ := bind_eq_ok h
  obtain ⟨checked, -, h⟩ := bind_eq_ok h
  cases h
  exact ⟨_, _, rfl, rfl, rfl⟩

theorem getObjectMeta_lookup {current clientTerm : UInt64} {objID : Bytes} {m : Traced}
    (h : getObjectMeta e s current clientTerm objID = .ok m) : ∃ k, s.stored.lookup k = some m := by
  obtain ⟨term, -, h⟩ := bind_eq_ok h
  dsimp only at h
  split at h
  · cases h
  · rename_i m' hm
    cases h
    exact ⟨_, hm⟩

theorem answer_eq {current clientTerm : UInt64} {requestId : Bytes} {m : Traced}
    (h : answer e s current clientTerm requestId = some m) :
    ∃ k old, s.stored.lookup k = some old ∧ m.write = old.write ∧
      m.readFrom = some (old.slot, s.versions) := by
  simp only [answer, bind, Option.bind_eq_some_iff] at h
  obtain ⟨objID, -, old, hold, h⟩ := h
  obtain ⟨k, hk⟩ := getObjectMeta_lookup (toOption_eq_some hold)
  cases h
  exact ⟨k, old, hk, rfl, rfl⟩

theorem carries_lose (q : Queue) (j : ℕ) : Carries none s (s.lose j q) := by
  obtain ⟨ha, hf, hsend, hchan, hloop, hputs, hprops⟩ :=
    State.moved_moving_iff.mp (s.moved_moving none)
  cases q <;> refine .of_moved (State.moved_moving_iff.mpr ?_)
  · exact ⟨ha, hf, hsend, hchan, hloop, hputs, hprops⟩
  · exact ⟨ha.eraseIdx j, hf, hsend, hchan, hloop, hputs, hprops⟩
  · exact ⟨ha, hf, hsend, hchan, hloop, hputs.eraseIdx j, hprops⟩
  · exact ⟨ha, hf, hsend, hchan, hloop, hputs, State.moved_proposals_eraseIdx j⟩

/-- What `CloudAlaya` records goes into its storage and to `syncEdgeChan`. -/
theorem carries_record {t : State} {m : Traced} (h : Carries new s t)
    (hm : s.Moved new [{ m with objId := cleanObjectKey m.objId }]) :
    Carries new s (t.cloudRecord m) := by
  obtain ⟨ha, hf, hsend, hchan, hloop, hputs, hprops⟩ := State.moved_moving_iff.mp h.moving
  refine ⟨State.moved_moving_iff.mpr ?_, fun k c hk => ?_, h.stored, h.versions, h.acked,
    h.superseded⟩
  · exact ⟨ha, hf, hsend.concat hm, hchan, hloop, hputs, hprops⟩
  · simp only [State.cloudRecord, CloudAlaya.recordObjectMeta] at hk
    by_cases hkey : k = cleanObjectKey m.objId
    · rw [hkey, AList.lookup_insert] at hk
      cases hk
      exact .inr hm
    · rw [AList.lookup_insert_ne hkey] at hk
      exact h.storage k c hk

theorem carries_edgePut {j : ℕ} {m : Traced} (hm : s.puts[j]? = some m)
    {current clientTerm : UInt64} {p : Proposal}
    (hp : doMetaPut e s current clientTerm m = some p) :
    Carries none s { s with puts := s.puts.eraseIdx j, proposals := s.proposals ++ [p] } := by
  obtain ⟨ha, hf, hsend, hchan, hloop, hputs, hprops⟩ :=
    State.moved_moving_iff.mp (s.moved_moving none)
  simp only [doMetaPut, bind, Option.bind_eq_some_iff] at hp
  obtain ⟨-, -, hp⟩ := hp
  obtain ⟨m', syncToCloud, rfl, hsame⟩ := recordObjectMeta_eq_put (toOption_eq_some hp)
  refine .of_moved (State.moved_moving_iff.mpr ⟨ha, hf, hsend, hchan, hloop, hputs.eraseIdx j, ?_⟩)
  rw [List.flatMap_append]
  exact hprops.concat (hputs.singleton (List.mem_of_getElem? hm) hsame)

theorem step_effect (h : step e s a = some s') : Effect e s a s' := by
  -- the places where there are copies
  obtain ⟨ha, hf, hsend, hchan, hloop, hputs, hprops⟩ :=
    State.moved_moving_iff.mp (s.moved_moving none)
  cases a with
  | edgeWrite current clientTerm objectMeta =>
    simp only [step] at h
    split at h
    · cases h
      exact .carry (.refl s) rfl
    · rename_i p hp
      cases h
      obtain ⟨m, syncToCloud, rfl, hm⟩ := recordObjectMeta_eq_put hp
      refine .write (.of_moved ?_) hm.write hm.readFrom rfl
      rw [State.moving, List.flatMap_append, ← List.append_assoc]
      exact (s.moved_moving (some m)).concat (State.moved_new (.refl m))
  | edgeDelete current clientTerm objID =>
    simp only [step] at h
    split at h
    · cases h
      exact .carry (.refl s) rfl
    · rename_i m hm
      cases h
      refine .carry (.of_moved ?_) rfl
      rw [State.moving, List.flatMap_append, List.flatMap_singleton, Proposal.recording,
        List.append_nil]
      exact s.moved_moving none
  | apply i =>
    simp only [step, bind, Option.bind_eq_some_iff] at h
    obtain ⟨p, hp, h⟩ := h
    cases h
    exact .apply hp
  | cloudWrite objectMeta =>
    cases h
    have hrecord := carries_record (m := submitMeta objectMeta .CLOUD s.writes) (.refl s)
      (State.moved_new (.refl _))
    exact .write ⟨hrecord.moving, hrecord.storage, rfl, rfl, rfl, rfl⟩ rfl rfl rfl
  | cloudRead objID =>
    simp only [step] at h
    split at h <;> cases h
    · exact .carry (.refl s) rfl
    · exact .carry (.of_moved (s.moved_moving none)) rfl
  | edgeAnswer j current clientTerm =>
    simp only [step, bind, Option.bind_eq_some_iff] at h
    obtain ⟨requestId, -, h⟩ := h
    split at h
    · cases h
      exact .carry (.of_moved (s.moved_moving none)) rfl
    · rename_i m hm
      cases h
      obtain ⟨k, old, hold, hw, hr⟩ := answer_eq hm
      refine .answer (.of_moved ?_) hold hw hr rfl
      obtain ⟨ha, hrest⟩ := State.moved_moving_iff.mp (s.moved_moving (some m))
      exact State.moved_moving_iff.mpr ⟨ha.concat (State.moved_new (.refl m)), hrest⟩
  | cloudReceive j =>
    simp only [step, bind, Option.bind_eq_some_iff] at h
    obtain ⟨m, hm, h⟩ := h
    cases h
    have hmoved : s.Moved none [{ m with position := .EDGE_CLOUD }] :=
      ha.singleton (List.mem_of_getElem? hm) ⟨rfl, rfl⟩
    refine .carry (.of_moved (State.moved_moving_iff.mpr ?_)) rfl
    exact ⟨ha.eraseIdx j, hf.concat hmoved, hsend, hchan, hloop, hputs, hprops⟩
  | cloudRecord j =>
    simp only [step, bind, Option.bind_eq_some_iff] at h
    obtain ⟨m, hm, h⟩ := h
    cases h
    refine .carry (carries_record (.of_moved (State.moved_moving_iff.mpr ?_))
      (hf.singleton (List.mem_of_getElem? hm) ⟨rfl, rfl⟩)) rfl
    exact ⟨ha, hf.eraseIdx j, hsend, hchan, hloop, hputs, hprops⟩
  | sendSync j =>
    simp only [step, bind, Option.bind_eq_some_iff] at h
    obtain ⟨⟨m, c⟩, hnotify, h⟩ := h
    obtain ⟨hm, rfl⟩ := CloudAlaya.notify_eq hnotify
    cases h
    have hmoved := hsend.singleton (List.mem_of_getElem? hm) (.refl m)
    refine .carry (.of_moved (State.moved_moving_iff.mpr ?_)) rfl
    exact ⟨ha, hf, hsend.eraseIdx j, hchan.concat hmoved, hloop, hputs, hprops⟩
  | syncPut =>
    simp only [step, bind, Option.bind_eq_some_iff] at h
    obtain ⟨⟨m, c⟩, hsync, h⟩ := h
    obtain ⟨-, rest, heq, rfl⟩ := CloudAlaya.sync_eq hsync
    cases h
    rw [heq, ← List.singleton_append, State.moved_append] at hchan
    refine .carry (.of_moved (State.moved_moving_iff.mpr ?_)) rfl
    exact ⟨ha, hf, hsend, hchan.2, State.moved_nil, hputs.concat hchan.1, hprops⟩
  | syncError err =>
    simp only [step, bind, Option.bind_eq_some_iff] at h
    obtain ⟨⟨m, c⟩, hsync, h⟩ := h
    obtain ⟨-, rest, heq, rfl⟩ := CloudAlaya.sync_eq hsync
    cases h
    rw [heq, ← List.singleton_append, State.moved_append] at hchan
    refine .carry (.of_moved (State.moved_moving_iff.mpr ?_)) rfl
    exact ⟨ha, hf, hsend, hchan.2, hchan.1, hputs, hprops⟩
  | requeue =>
    simp only [step, bind, Option.bind_eq_some_iff] at h
    obtain ⟨c, hrequeue, h⟩ := h
    obtain ⟨m, heq, rfl⟩ := CloudAlaya.requeue_eq hrequeue
    cases h
    rw [heq] at hloop
    refine .carry (.of_moved (State.moved_moving_iff.mpr ?_)) rfl
    exact ⟨ha, hf, hsend, hchan.concat hloop, State.moved_nil, hputs, hprops⟩
  | edgePut j current clientTerm =>
    simp only [step, bind, Option.bind_eq_some_iff] at h
    obtain ⟨m, hm, h⟩ := h
    split at h
    · cases h
      refine .carry (.of_moved (State.moved_moving_iff.mpr ?_)) rfl
      exact ⟨ha, hf, hsend, hchan, hloop, hputs.eraseIdx j, hprops⟩
    · rename_i p hp
      cases h
      exact .carry (carries_edgePut hm hp) rfl
  | putAnswered =>
    simp only [step, bind, Option.bind_eq_some_iff] at h
    obtain ⟨⟨m, c⟩, hanswered, h⟩ := h
    obtain ⟨-, rfl⟩ := CloudAlaya.answered_eq hanswered
    split_ifs at h
    cases h
    refine .carry (.of_moved (State.moved_moving_iff.mpr ?_)) rfl
    exact ⟨ha, hf, hsend, hchan, State.moved_nil, hputs, hprops⟩
  | cloudDelete j =>
    simp only [step, bind, Option.bind_eq_some_iff] at h
    obtain ⟨objID, -, h⟩ := h
    cases h
    refine .carry ⟨s.moved_moving none, fun k c hk => .inl ?_, rfl, rfl, rfl, rfl⟩ rfl
    by_cases hkey : k = objID
    · rw [hkey, AList.lookup_erase] at hk
      cases hk
    · rwa [AList.lookup_erase_ne hkey] at hk
  | lose q j =>
    cases h
    exact .carry (carries_lose q j) (by cases q <;> rfl)

namespace Proposal

def slot : Proposal → Slot
  | put _ m _ => m.slot
  | delete m => m.slot

def newVersion : Proposal → Option Slot
  | put _ m false => if m.readFrom = none then some m.slot else none
  | _ => none

def updates : Proposal → Option Slot
  | put .client m false => some m.slot
  | delete m => some m.slot
  | _ => none

end Proposal

structure Applied (p : Proposal) (s s' : State) : Prop where
  moving : s'.moving = s.moving
  storage : s'.storage = s.storage
  writes : s'.writes = s.writes
  stored : ∀ k c, s'.stored.lookup k = some c →
    (c ∈ p.recording ∧ c.slot = k) ∨ (k ≠ p.slot ∧ s.stored.lookup k = some c)
  versions : s'.versions = p.newVersion.elim s.versions fun _ => s.versions + 1
  acked : s'.acked = p.newVersion.elim s.acked fun k => Function.update s.acked k (s.versions + 1)
  superseded : s'.superseded = s.superseded ++ p.updates.elim [] s.takenAway

theorem lookup_insert_slot {m c : Traced} {k : Slot}
    (h : (s.stored.insert m.slot m).lookup k = some c) :
    (c ∈ [m] ∧ c.slot = k) ∨ (k ≠ m.slot ∧ s.stored.lookup k = some c) := by
  by_cases hk : k = m.slot
  · rw [hk, AList.lookup_insert] at h
    cases h
    exact .inl ⟨List.mem_singleton_self m, hk.symm⟩
  · rw [AList.lookup_insert_ne hk] at h
    exact .inr ⟨hk, h⟩

theorem applied_finishPut (caller : Caller) (m : Traced) (syncToCloud : Bool) :
    Applied (.put caller m syncToCloud) s (finishPut e s caller m syncToCloud) := by
  cases syncToCloud with
  | true =>
    simp only [finishPut, if_true]
    cases caller <;> split_ifs <;>
      exact ⟨rfl, rfl, rfl, fun k c => lookup_insert_slot, rfl, rfl, (List.append_nil _).symm⟩
  | false =>
    by_cases hr : m.readFrom = none <;> cases caller <;>
      simp only [finishPut, State.acknowledge, hr, if_true, if_false, Bool.false_eq_true] <;>
      refine ⟨rfl, rfl, rfl, fun k c => lookup_insert_slot, ?_, ?_, ?_⟩ <;>
      simp [Proposal.newVersion, Proposal.updates, hr]

theorem applied_finish (p : Proposal) : Applied p s (finish e s p) := by
  cases p with
  | put caller m syncToCloud => exact applied_finishPut caller m syncToCloud
  | delete m =>
    refine ⟨rfl, rfl, rfl, fun k c hk => .inr ?_, rfl, rfl, rfl⟩
    replace hk : (s.stored.erase m.slot).lookup k = some c := hk
    by_cases hkey : k = m.slot
    · rw [hkey, AList.lookup_erase] at hk
      cases hk
    · rw [AList.lookup_erase_ne hkey] at hk
      exact ⟨hkey, hk⟩

theorem Proposal.newVersion_eq_some {p : Proposal} {k : Slot} (h : p.newVersion = some k) :
    k = p.slot ∧ ∀ m ∈ p.recording, m.readFrom = none := by
  cases p with
  | put caller m syncToCloud =>
    cases syncToCloud with
    | true => cases h
    | false =>
      rw [newVersion] at h
      split_ifs at h with hr
      cases h
      exact ⟨rfl, fun m' hm' => List.mem_singleton.mp hm' ▸ hr⟩
  | delete m => cases h

/-- No copy that was read before the last acknowledged version of a slot is stored there. -/
def State.Kept (s : State) : Prop :=
  ∀ k m t, s.stored.lookup k = some m → m.readFrom = some (k, t) → s.acked k ≤ t

def Action.newVersion (s : State) : Action → Option Slot
  | apply i => s.proposals[i]?.bind Proposal.newVersion
  | _ => none

/-- When a version is recorded, no copy that was read from its slot before is under way. -/
def Unhurried (s : State) (a : Action) : Prop :=
  ∀ k ∈ a.newVersion s, ∀ c ∈ s.moving, c.readFrom.map Prod.fst ≠ some k

instance (s : State) (a : Action) : Decidable (Unhurried s a) := by
  unfold Unhurried
  infer_instance

/-- No copy under way is older than the last acknowledged version. -/
structure State.Current (s : State) : Prop where
  le : ∀ k, s.acked k ≤ s.versions
  moving : ∀ c ∈ s.moving, ∀ k t, c.readFrom = some (k, t) → s.acked k ≤ t
  kept : s.Kept

theorem Carries.current (h : Carries new s s') (hs : s.Current)
    (hnew : ∀ m ∈ new, ∀ k t, m.readFrom = some (k, t) → s.acked k ≤ t) : s'.Current where
  le k := by
    rw [h.acked, h.versions]
    exact hs.le k
  moving c hc k t hr := by
    obtain ⟨m, hm, hsame⟩ := h.moving c hc
    rw [hsame.readFrom] at hr
    rw [h.acked]
    rcases List.mem_append.mp hm with hm | hm
    · exact hnew m (Option.mem_toList.mp hm) k t hr
    · exact hs.moving m hm k t hr
  kept k m t hm hr := by
    rw [h.stored] at hm
    rw [h.acked]
    exact hs.kept k m t hm hr

theorem Applied.current {p : Proposal} (h : Applied p s s') (hs : s.Current)
    (hp : ∀ m ∈ p.recording, ∀ k t, m.readFrom = some (k, t) → s.acked k ≤ t)
    (hg : ∀ k ∈ p.newVersion, ∀ c ∈ s.moving, c.readFrom.map Prod.fst ≠ some k) : s'.Current := by
  cases hv : p.newVersion with
  | none =>
    have hacked : s'.acked = s.acked := by rw [h.acked, hv]; rfl
    have hversions : s'.versions = s.versions := by rw [h.versions, hv]; rfl
    refine ⟨fun k => ?_, fun c hc k t hr => ?_, fun k m t hm hr => ?_⟩
    · rw [hacked, hversions]
      exact hs.le k
    · rw [hacked]
      exact hs.moving c (h.moving ▸ hc) k t hr
    · rw [hacked]
      rcases h.stored k m hm with ⟨hmem, -⟩ | ⟨-, hold⟩
      · exact hp m hmem k t hr
      · exact hs.kept k m t hold hr
  | some k₀ =>
    obtain ⟨hslot, hnone⟩ := Proposal.newVersion_eq_some hv
    have hacked : s'.acked = Function.update s.acked k₀ (s.versions + 1) := by rw [h.acked, hv]; rfl
    have hversions : s'.versions = s.versions + 1 := by rw [h.versions, hv]; rfl
    have hother : ∀ k, k ≠ k₀ → s'.acked k = s.acked k := fun k hk => by
      rw [hacked, Function.update_of_ne hk]
    refine ⟨fun k => ?_, fun c hc k t hr => ?_, fun k m t hm hr => ?_⟩
    · by_cases hk : k = k₀
      · rw [hacked, hversions, hk, Function.update_self]
      · rw [hother k hk, hversions]
        exact (hs.le k).trans (Nat.le_succ _)
    · rw [h.moving] at hc
      -- the guard: the copy was not read from the slot of the new version
      have hk : k ≠ k₀ := fun heq => hg k₀ hv c hc (by rw [hr, heq]; rfl)
      rw [hother k hk]
      exact hs.moving c hc k t hr
    · rcases h.stored k m hm with ⟨hmem, -⟩ | ⟨hne, hold⟩
      · rw [hnone m hmem] at hr
        cases hr
      · rw [hother k (hslot ▸ hne)]
        exact hs.kept k m t hold hr

theorem current_step (hs : s.Current) (hg : Unhurried s a) (h : step e s a = some s') :
    s'.Current := by
  cases step_effect h with
  | carry hc => exact hc.current hs fun _ hm => by cases hm
  | write hc _ hr =>
    refine hc.current hs fun m hm k t hmr => ?_
    cases hm
    rw [hr] at hmr
    cases hmr
  | answer hc _ _ hr =>
    refine hc.current hs fun m hm k t hmr => ?_
    cases hm
    rw [hr] at hmr
    cases hmr
    exact hs.le _
  | @apply i p hp =>
    have hlose : Carries none s (s.lose i .proposals) := carries_lose .proposals i
    refine (applied_finish p).current (hlose.current hs fun _ hm => by cases hm) ?_ ?_
    · exact fun m hm => hs.moving m (State.mem_moving_of_proposals hp hm)
    · intro k hk c hc
      obtain ⟨m, hm, hsame⟩ := hlose.moving c hc
      rw [hsame.readFrom]
      have hnew : k ∈ (Action.apply i).newVersion s := by
        rw [Action.newVersion, hp]
        exact hk
      exact hg k hnew m hm

/-- In a run in which no older copy is under way when a version is recorded, the write-back of the
cloud undoes no acknowledged version. -/
theorem kept_of_unhurried (e : Env) (acts : List Action) (hg : Meets (step e) Unhurried {} acts)
    (hr : run (step e) {} acts = some s) : s.Kept := by
  have hinit : State.Current {} :=
    ⟨fun _ => Nat.zero_le _, fun _ hc => absurd hc List.not_mem_nil, fun _ _ _ hm => by cases hm⟩
  exact (run_invariant (fun _ _ _ hs hg h => current_step hs hg h) hinit hg hr).kept

def oneGroup : Env where
  ring := fun _ _ => 1
  alaya := ⟨fun _ => some ⟨ascii ['v'], ascii ['b'], [], { keySlotNum := 1, blockSize := 2 }⟩,
    fun _ => some 1⟩
  userID := ascii ['v']

def objectKey : Bytes := ascii ['v', '/', 'b', '/', '1', '/', 'k']

def sized (objSize : UInt64) : ObjectMeta := ⟨objectKey, objSize, ⟨0, 0⟩, [], 1, [], 1⟩

def after (acts : List Action) : State := (run (step oneGroup) {} acts).getD {}

def writeBack : List Action :=
  [.cloudReceive 0, .cloudRecord 0, .sendSync 0, .syncPut, .edgePut 0 1 1, .apply 0, .putAnswered]

def fetchLast : List Action :=
  [.edgeWrite 1 1 (sized 1), .apply 0, .edgeWrite 1 1 (sized 2), .apply 0,
    .cloudRead objectKey, .edgeAnswer 0 1 1] ++ writeBack

theorem kept_of_unhurried_fetchLast :
    Meets (step oneGroup) Unhurried {} fetchLast ∧
      ((after fetchLast).stored.lookup (1, objectKey)).map (fun m => (m.objSize, m.position)) =
        some (2, .EDGE_CLOUD) ∧ (after fetchLast).Kept := by
  have hg : Meets (step oneGroup) Unhurried {} fetchLast := by decide
  exact ⟨hg, by decide, kept_of_unhurried oneGroup fetchLast hg rfl⟩

def overtaken : List Action :=
  [.edgeWrite 1 1 (sized 1), .apply 0, .cloudRead objectKey, .edgeAnswer 0 1 1,
    .edgeWrite 1 1 (sized 2), .apply 0] ++ writeBack

/-- The edge ends up with the first version, though the second one was acknowledged. -/
theorem overtaken_not_kept :
    (after overtaken).acked (1, objectKey) = 2 ∧
      ((after overtaken).stored.lookup (1, objectKey)).map (fun m => (m.objSize, m.readFrom)) =
        some (1, some ((1, objectKey), 1)) ∧ ¬ (after overtaken).Kept := by
  refine ⟨by decide, by decide, fun h => ?_⟩
  obtain ⟨m, hm, hr⟩ : ∃ m, (after overtaken).stored.lookup (1, objectKey) = some m ∧
      m.readFrom = some ((1, objectKey), 1) := ⟨_, rfl, rfl⟩
  exact absurd (h _ m 1 hm hr) (by decide)

/-- The cloud returns nothing from its storage that an acknowledged update at the edge has
superseded. -/
def State.Coherent (s : State) : Prop :=
  ∀ objID m, s.fromStorage objID = some m → m.write ∉ s.superseded

def Action.updates (s : State) : Action → Option Slot
  | apply i => s.proposals[i]?.bind Proposal.updates
  | _ => none

/-- A meta that was not at the edge only is taken away there when there is no other copy of it. -/
def LastCopy (s : State) (a : Action) : Prop :=
  ∀ k ∈ a.updates s, ∀ w ∈ s.takenAway k,
    (∀ c ∈ s.moving, c.write ≠ w) ∧ (∀ x ∈ s.storage.entries, x.2.write ≠ w) ∧
      ∀ x ∈ s.stored.entries, x.1 ≠ k → x.2.write ≠ w

instance (s : State) (a : Action) : Decidable (LastCopy s a) := by
  unfold LastCopy
  infer_instance

def State.Live (s : State) (c : Traced) : Prop := c.write < s.writes ∧ c.write ∉ s.superseded

structure State.Extinct (s : State) : Prop where
  lt : ∀ w ∈ s.superseded, w < s.writes
  moving : ∀ c ∈ s.moving, s.Live c
  storage : ∀ k c, s.storage.lookup k = some c → s.Live c
  stored : ∀ k c, s.stored.lookup k = some c → s.Live c

theorem Carries.extinct (h : Carries new s s') (hs : s.Extinct) (hle : s.writes ≤ s'.writes)
    (hnew : ∀ m ∈ new, s'.Live m) : s'.Extinct := by
  have hlive : ∀ c, s.Live c → s'.Live c := fun c hc =>
    ⟨hc.1.trans_le hle, h.superseded ▸ hc.2⟩
  have hmoved : ∀ l, s.Moved new l → ∀ c ∈ l, s'.Live c := by
    intro l hl c hc
    obtain ⟨m, hm, hsame⟩ := hl c hc
    rw [State.Live, hsame.write]
    rcases List.mem_append.mp hm with hm | hm
    · exact hnew m (Option.mem_toList.mp hm)
    · exact hlive m (hs.moving m hm)
  refine ⟨fun w hw => ?_, hmoved _ h.moving, fun k c hk => ?_, fun k c hk => ?_⟩
  · exact (hs.lt w (h.superseded ▸ hw)).trans_le hle
  · rcases h.storage k c hk with hk | hk
    · exact hlive c (hs.storage k c hk)
    · exact hmoved [c] hk c (List.mem_singleton_self c)
  · exact hlive c (hs.stored k c (h.stored ▸ hk))

theorem Proposal.updates_eq_some {p : Proposal} {k : Slot} (h : p.updates = some k) :
    k = p.slot := by
  cases p with
  | put caller m syncToCloud => cases caller <;> cases syncToCloud <;> cases h; rfl
  | delete m => cases h; rfl

theorem lt_of_mem_takenAway (hs : s.Extinct) {k : Slot} {w : ℕ} (hw : w ∈ s.takenAway k) :
    w < s.writes := by
  obtain ⟨old, hold, rfl⟩ := List.mem_map.mp hw
  obtain ⟨hold, -⟩ := Option.mem_filter_iff.mp (Option.mem_toList.mp hold)
  exact (hs.stored k old hold).1

theorem Applied.mem_superseded {p : Proposal} (h : Applied p s s') {w : ℕ} :
    w ∈ s'.superseded ↔ w ∈ s.superseded ∨ ∃ k ∈ p.updates, w ∈ s.takenAway k := by
  rw [h.superseded, List.mem_append]
  cases p.updates <;> simp

theorem Applied.extinct {p : Proposal} (h : Applied p s s') (hs : s.Extinct)
    (hp : ∀ m ∈ p.recording, s.Live m)
    (hg : ∀ k ∈ p.updates, ∀ w ∈ s.takenAway k, (∀ c ∈ p.recording, c.write ≠ w) ∧
      (∀ c ∈ s.moving, c.write ≠ w) ∧ (∀ x ∈ s.storage.entries, x.2.write ≠ w) ∧
      ∀ x ∈ s.stored.entries, x.1 ≠ k → x.2.write ≠ w) : s'.Extinct := by
  have hlive : ∀ c, s.Live c → (∀ k ∈ p.updates, c.write ∉ s.takenAway k) → s'.Live c := by
    intro c hc hne
    refine ⟨h.writes ▸ hc.1, fun hw => ?_⟩
    rcases h.mem_superseded.mp hw with hw | ⟨k, hk, hw⟩
    · exact hc.2 hw
    · exact hne k hk hw
  refine ⟨fun w hw => ?_, fun c hc => ?_, fun k c hk => ?_, fun k c hk => ?_⟩
  · rw [h.writes]
    rcases h.mem_superseded.mp hw with hw | ⟨k, -, hw⟩
    · exact hs.lt w hw
    · exact lt_of_mem_takenAway hs hw
  · rw [h.moving] at hc
    exact hlive c (hs.moving c hc) fun k hk hw => (hg k hk _ hw).2.1 c hc rfl
  · rw [h.storage] at hk
    refine hlive c (hs.storage k c hk) fun k' hk' hw => ?_
    exact (hg k' hk' _ hw).2.2.1 ⟨k, c⟩ (AList.mem_lookup_iff.mp hk) rfl
  · rcases h.stored k c hk with ⟨hc, -⟩ | ⟨hne, hk⟩
    · exact hlive c (hp c hc) fun k' hk' hw => (hg k' hk' _ hw).1 c hc rfl
    · refine hlive c (hs.stored k c hk) fun k' hk' hw => ?_
      have hkey : k ≠ k' := Proposal.updates_eq_some hk' ▸ hne
      exact (hg k' hk' _ hw).2.2.2 ⟨k, c⟩ (AList.mem_lookup_iff.mp hk) hkey rfl

theorem extinct_step (hs : s.Extinct) (hg : LastCopy s a) (h : step e s a = some s') :
    s'.Extinct := by
  cases step_effect h with
  | carry hc hw => exact hc.extinct hs hw.ge fun _ hm => by cases hm
  | write hc hw _ hs' =>
    refine hc.extinct hs (hs' ▸ Nat.le_succ _) fun m hm => ?_
    cases hm
    -- the number of the write is new
    refine ⟨by omega, fun hin => ?_⟩
    have hlt := hs.lt _ (hc.superseded ▸ hin)
    omega
  | answer hc hold hw _ hs' =>
    refine hc.extinct hs hs'.ge fun m hm => ?_
    cases hm
    rw [State.Live, hw, hs', hc.superseded]
    exact hs.stored _ _ hold
  | @apply i p hp =>
    have hlose : Carries none s (s.lose i .proposals) := carries_lose .proposals i
    have hrec : ∀ m ∈ p.recording, m ∈ s.moving := fun m => State.mem_moving_of_proposals hp
    refine (applied_finish p).extinct (hlose.extinct hs (Nat.le_refl _) fun _ hm => by cases hm)
      (fun m hm => hs.moving m (hrec m hm)) fun k hk w hw => ?_
    have hupdates : k ∈ (Action.apply i).updates s := by
      rw [Action.updates, hp]
      exact hk
    obtain ⟨hmoving, hstorage, hstored⟩ := hg k hupdates w hw
    refine ⟨fun c hc => hmoving c (hrec c hc), fun c hc => ?_, hstorage, hstored⟩
    obtain ⟨m, hm, hsame⟩ := hlose.moving c hc
    rw [hsame.write]
    exact hmoving m hm

/-- In a run in which acknowledged updates take away the last copy of what the cloud may have had,
the reads of the cloud are coherent. -/
theorem coherent_of_lastCopy (e : Env) (acts : List Action) (hg : Meets (step e) LastCopy {} acts)
    (hr : run (step e) {} acts = some s) : s.Coherent := by
  have hinit : State.Extinct {} :=
    ⟨fun _ hw => absurd hw List.not_mem_nil, fun _ hc => absurd hc List.not_mem_nil,
      fun _ _ hm => (by cases hm), fun _ _ hm => (by cases hm)⟩
  have hs := run_invariant (fun _ _ _ hs hg h => extinct_step hs hg h) hinit hg hr
  exact fun objID m hm => (hs.storage objID m hm).2

/-- The first of two writes of a cloud client is deleted at the edge, before the second one is
there. -/
def deleteOlder : List Action :=
  [.cloudWrite (sized 1), .sendSync 0, .syncPut, .edgePut 0 1 1, .apply 0, .putAnswered,
    .cloudWrite (sized 2), .edgeDelete 1 1 objectKey, .apply 0]

theorem coherent_of_lastCopy_deleteOlder :
    Meets (step oneGroup) LastCopy {} deleteOlder ∧ (after deleteOlder).superseded = [0] ∧
      ((after deleteOlder).fromStorage objectKey).map Traced.write = some 1 ∧
      (after deleteOlder).Coherent := by
  have hg : Meets (step oneGroup) LastCopy {} deleteOlder := by decide
  exact ⟨hg, by decide, by decide, coherent_of_lastCopy oneGroup deleteOlder hg rfl⟩

def deleteFetched : List Action :=
  [.edgeWrite 1 1 (sized 1), .apply 0, .cloudRead objectKey, .edgeAnswer 0 1 1] ++ writeBack ++
    [.edgeDelete 1 1 objectKey, .apply 0]

/-- The cloud goes on to return the meta that was deleted. -/
theorem deleteFetched_not_coherent :
    (after deleteFetched).stored.lookup (1, objectKey) = none ∧
      (after deleteFetched).superseded = [0] ∧
      ((after deleteFetched).fromStorage objectKey).map Traced.write = some 0 ∧
      ¬ (after deleteFetched).Coherent := by
  refine ⟨by decide, by decide, by decide, fun h => ?_⟩
  obtain ⟨m, hm, hw⟩ : ∃ m, (after deleteFetched).fromStorage objectKey = some m ∧ m.write = 0 :=
    ⟨_, rfl, rfl⟩
  exact h objectKey m hm (hw ▸ by decide)

end Ecos.Rainbow.MetaSync
