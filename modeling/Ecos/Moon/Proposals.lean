import Ecos.Go.Idutil
import Ecos.Logic.Machine
import Ecos.Moon.InfoRegister

namespace Ecos.Moon
open Go Logic StorageRegister

structure Proposal where
  origin : UInt64
  call : ℕ
  request : ProposeInfoRequest
  deriving DecidableEq, Repr

/-- What `readCommits` has taken from its channel. -/
inductive Processed (R : Type) where
  | entry (e : Proposal)
  /-- a snapshot of another register -/
  | snapshot (source : R)

def Processed.asEntry {R : Type} : Processed R → Option Proposal
  | entry e => some e
  | snapshot _ => none

structure MoonNode (R : Type) where
  reqIDGen : Idutil.Generator
  register : R
  /-- the requests that were given an ID, oldest first -/
  calls : List ProposeInfoRequest := []
  /-- the calls that are registered in `w` -/
  waiting : List Proposal := []
  /-- the calls that have returned a success -/
  returned : List Proposal := []
  /-- the number of log entries that the register is made of -/
  position : ℕ := 0
  processed : List (Processed R) := []

structure MoonCluster (R : Type) where
  node : UInt64 → MoonNode R
  /-- requests that are neither committed nor lost -/
  proposed : List Proposal := []
  log : List Proposal := []
  /-- snapshots with the positions they were made at -/
  saved : List (ℕ × R) := []

inductive MoonAction where
  | propose (n : UInt64) (request : ProposeInfoRequest)
  | commit (i : ℕ)
  | lose (i : ℕ)
  | apply (n : UInt64)
  | save (n : UInt64)
  | install (n : UInt64) (i : ℕ)

variable {R : Type} (reg : InfoRegister R)

/-- The request of a call of `ProposeInfo`, with the next ID. -/
def MoonNode.proposal (w : MoonNode R) (n : UInt64) (request : ProposeInfoRequest) : Proposal where
  origin := n
  call := w.calls.length
  request := { request with operateId := w.reqIDGen.next.1 }

/-- `ProposeInfo` up to the point where it waits. -/
def MoonNode.proposeInfo (w : MoonNode R) (e : Proposal) : MoonNode R :=
  { w with
    reqIDGen := w.reqIDGen.next.2
    calls := w.calls ++ [e.request]
    waiting := w.waiting ++ [e] }

/-- One entry in `readCommits`. -/
def MoonNode.readCommit (w : MoonNode R) (e : Proposal) : MoonNode R :=
  let own := fun x : Proposal => decide (x.request.operateId = e.request.operateId)
  { w with
    register := reg.operate w.register e.request
    position := w.position + 1
    processed := w.processed ++ [.entry e]
    -- `IsRegistered` and `Trigger`
    waiting := w.waiting.filter fun x => !own x
    returned := w.returned ++ w.waiting.filter own }

/-- The calls that returned on this node are its own, and `readCommits` has processed them. -/
def MoonNode.OwnReleases (n : UInt64) (w : MoonNode R) : Prop :=
  ∀ e ∈ w.returned, e.origin = n ∧ .entry e ∈ w.processed

namespace MoonCluster

/-- `NewMoon` on every node, at the given times in milliseconds. -/
def new (start : UInt64 → UInt64) : MoonCluster R where
  node n := { reqIDGen := Idutil.newGenerator 0 (start n), register := reg.registerAllStorage }

def setNode (c : MoonCluster R) (n : UInt64) (w : MoonNode R) : MoonCluster R :=
  { c with node := Function.update c.node n w }

def step (c : MoonCluster R) : MoonAction → Option (MoonCluster R)
  | .propose n request =>
    -- an empty key is refused before anything else
    if request.id = [] then some c
    else
      let e := (c.node n).proposal n request
      -- `Register` panics where the ID is registered already
      if ∃ x ∈ (c.node n).waiting, x.request.operateId = e.request.operateId then none
      else some { c.setNode n ((c.node n).proposeInfo e) with proposed := c.proposed ++ [e] }
  | .commit i => do
    let e ← c.proposed[i]?
    return { c with proposed := c.proposed.eraseIdx i, log := c.log ++ [e] }
  | .lose i => some { c with proposed := c.proposed.eraseIdx i }
  | .apply n => do
    let e ← c.log[(c.node n).position]?
    return c.setNode n ((c.node n).readCommit reg e)
  | .save n => some { c with saved := c.saved ++ [((c.node n).position, (c.node n).register)] }
  | .install n i => do
    let snapshot ← c.saved[i]?
    let w := c.node n
    if w.position < snapshot.1 then
      let register ← reg.recover w.register snapshot.2
      return c.setNode n { w with
        register
        position := snapshot.1
        processed := w.processed ++ [.snapshot snapshot.2] }
    else none

/-- Every call that has returned was returned by its own request: `readCommits` of its node has
processed it. -/
def OwnReleases (c : MoonCluster R) : Prop := ∀ n, (c.node n).OwnReleases n

def DistinctInFlight (c : MoonCluster R) : Prop :=
  ∀ n m, n ≠ m → ∀ e ∈ (c.node n).waiting, ∀ e' ∈ (c.node m).waiting,
    e.request.operateId ≠ e'.request.operateId

end MoonCluster

def operateID (start : UInt64) (call : ℕ) : UInt64 := (Idutil.newGenerator 0 start).nth call

def MoonAction.proposes (n : UInt64) : MoonAction → Bool
  | propose m request => decide (m = n ∧ request.id ≠ [])
  | _ => false

def proposals (n : UInt64) (actions : List MoonAction) : ℕ := actions.countP (·.proposes n)

/-- The IDs that the nodes take follow from their start times and the numbers of their calls. No
two of them are the same modulo `2 ^ 48`. -/
structure Apart (start : UInt64 → UInt64) (actions : List MoonAction) : Prop where
  calls : ∀ n, proposals n actions ≤ 2 ^ 48
  windows : ∀ n m, n ≠ m → ∀ i < proposals n actions, ∀ j < proposals m actions,
    (256 * (start n).toNat + i) % 2 ^ 48 ≠ (256 * (start m).toNat + j) % 2 ^ 48

theorem Apart.eq_of_operateID {start : UInt64 → UInt64} {actions : List MoonAction}
    (h : Apart start actions) {n m : UInt64} {i j : ℕ} (hi : i < proposals n actions)
    (hj : j < proposals m actions) (hid : operateID (start n) i = operateID (start m) j) :
    n = m ∧ i = j := by
  have hnat := congrArg UInt64.toNat hid
  rw [operateID, operateID, Idutil.toNat_nth, Idutil.toNat_nth] at hnat
  have hmod : (256 * (start n).toNat + i) % 2 ^ 48 = (256 * (start m).toNat + j) % 2 ^ 48 := by
    have : ((0 : UInt16).toNat) = 0 := rfl
    omega
  by_cases hnm : n = m
  · subst hnm
    have := h.calls n
    exact ⟨rfl, by omega⟩
  · exact absurd hmod (h.windows n m hnm i hi j hj)

namespace MoonCluster
variable {c c' : MoonCluster R} {n : UInt64} {e : Proposal}

theorem setNode_self (w : MoonNode R) : (c.setNode n w).node n = w := Function.update_self ..

theorem setNode_of_ne {m : UInt64} (h : m ≠ n) (w : MoonNode R) :
    (c.setNode n w).node m = c.node m := Function.update_of_ne h ..

/-- What holds of a node and of all others before holds of all after. -/
theorem forall_setNode {P : UInt64 → MoonNode R → Prop} {w : MoonNode R} (hw : P n w)
    (h : ∀ m, P m (c.node m)) (m : UInt64) : P m ((c.setNode n w).node m) := by
  by_cases hm : m = n
  · subst hm
    rwa [setNode_self]
  · rw [setNode_of_ne hm]
    exact h m

def Issued (c : MoonCluster R) (e : Proposal) : Prop :=
  (c.node e.origin).calls[e.call]? = some e.request

theorem Issued.mono (h : c.Issued e) (hcalls : ∀ n, (c.node n).calls <+: (c'.node n).calls) :
    c'.Issued e := by
  obtain ⟨rest, hrest⟩ := hcalls e.origin
  rw [Issued, ← hrest, List.getElem?_append_left (List.getElem?_eq_some_iff.mp h).1]
  exact h

/-- A call takes an ID only while its node has taken fewer than the bound. -/
def Within (bound : UInt64 → ℕ) (c : MoonCluster R) (a : MoonAction) : Prop :=
  ∀ n, a.proposes n = true → (c.node n).calls.length < bound n

structure Sound (start : UInt64 → UInt64) (bound : UInt64 → ℕ) (c : MoonCluster R) : Prop where
  reqIDGen : ∀ n, (c.node n).reqIDGen =
    (Idutil.newGenerator 0 (start n)).after (c.node n).calls.length
  operateIDs : ∀ n i request, (c.node n).calls[i]? = some request →
    request.operateId = operateID (start n) i
  bounded : ∀ n, (c.node n).calls.length ≤ bound n
  proposed : ∀ e ∈ c.proposed, c.Issued e
  log : ∀ e ∈ c.log, c.Issued e
  waiting : ∀ n, ∀ e ∈ (c.node n).waiting, e.origin = n ∧ c.Issued e
  returned : c.OwnReleases

variable {start : UInt64 → UInt64} {bound : UInt64 → ℕ}

theorem sound_new : Sound start bound (new reg start) where
  reqIDGen n := (Idutil.Generator.after_zero _).symm
  operateIDs n i request h := by cases h
  bounded n := Nat.zero_le _
  proposed _ he := absurd he List.not_mem_nil
  log _ he := absurd he List.not_mem_nil
  waiting _ _ he := absurd he List.not_mem_nil
  returned _ _ he := absurd he List.not_mem_nil

/-- A step that leaves the calls alone. -/
theorem Sound.move (hc : c.Sound start bound)
    (hgen : ∀ n, (c'.node n).reqIDGen = (c.node n).reqIDGen)
    (hcalls : ∀ n, (c'.node n).calls = (c.node n).calls)
    (hproposed : ∀ e ∈ c'.proposed, c.Issued e) (hlog : ∀ e ∈ c'.log, c.Issued e)
    (hwaiting : ∀ n, ∀ e ∈ (c'.node n).waiting, e ∈ (c.node n).waiting)
    (hreturned : c'.OwnReleases) : c'.Sound start bound := by
  have hissued : ∀ {e}, c.Issued e → c'.Issued e :=
    fun h => h.mono fun n => hcalls n ▸ List.prefix_refl _
  refine ⟨fun n => ?_, fun n i request h => ?_, fun n => ?_, fun e he => hissued (hproposed e he),
    fun e he => hissued (hlog e he), fun n e he => ?_, hreturned⟩
  · rw [hgen, hcalls, hc.reqIDGen]
  · exact hc.operateIDs n i request (hcalls n ▸ h)
  · exact hcalls n ▸ hc.bounded n
  · exact ⟨(hc.waiting n e (hwaiting n e he)).1, hissued (hc.waiting n e (hwaiting n e he)).2⟩

/-- A step of one node that leaves its calls alone. -/
theorem Sound.setNode (hc : c.Sound start bound) {w : MoonNode R}
    (hgen : w.reqIDGen = (c.node n).reqIDGen) (hcalls : w.calls = (c.node n).calls)
    (hwaiting : ∀ x ∈ w.waiting, x ∈ (c.node n).waiting) (hreturned : w.OwnReleases n) :
    (c.setNode n w).Sound start bound := by
  refine hc.move (fun m => ?_) (fun m => ?_) hc.proposed hc.log (fun m => ?_) fun m => ?_
  · exact forall_setNode (P := fun m w => w.reqIDGen = (c.node m).reqIDGen) hgen (fun _ => rfl) m
  · exact forall_setNode (P := fun m w => w.calls = (c.node m).calls) hcalls (fun _ => rfl) m
  · exact forall_setNode (P := fun m w => ∀ x ∈ w.waiting, x ∈ (c.node m).waiting) hwaiting
      (fun _ _ hx => hx) m
  · exact forall_setNode (P := MoonNode.OwnReleases) hreturned hc.returned m

theorem Sound.proposeInfo (hc : c.Sound start bound) {request : ProposeInfoRequest}
    (hlt : (c.node n).calls.length < bound n) (he : e = (c.node n).proposal n request) :
    Sound start bound
      { c.setNode n ((c.node n).proposeInfo e) with proposed := c.proposed ++ [e] } := by
  have hnext : (c.node n).reqIDGen.next = (operateID (start n) (c.node n).calls.length,
      (Idutil.newGenerator 0 (start n)).after ((c.node n).calls.length + 1)) := by
    rw [hc.reqIDGen]
    exact Idutil.Generator.next_after _ _
  have hrequest : e.request.operateId = operateID (start n) (c.node n).calls.length := by
    rw [he, MoonNode.proposal, hnext]
  have hissued : ∀ {x}, c.Issued x →
      Issued { c.setNode n ((c.node n).proposeInfo e) with proposed := c.proposed ++ [e] } x := by
    intro x hx
    refine hx.mono fun m => forall_setNode (P := fun m w => (c.node m).calls <+: w.calls) ?_
      (fun _ => List.prefix_refl _) m
    exact List.prefix_append _ _
  have hnew :
      Issued { c.setNode n ((c.node n).proposeInfo e) with proposed := c.proposed ++ [e] } e := by
    have horigin : e.origin = n := by rw [he, MoonNode.proposal]
    have hcall : e.call = (c.node n).calls.length := by rw [he, MoonNode.proposal]
    show ((c.setNode n ((c.node n).proposeInfo e)).node e.origin).calls[e.call]? = _
    rw [horigin, setNode_self, hcall, MoonNode.proposeInfo]
    exact List.getElem?_concat_length ..
  refine ⟨fun m => ?_, fun m => ?_, fun m => ?_, fun x hx => ?_, fun x hx => hissued (hc.log x hx),
    fun m x hx => ?_, fun m => ?_⟩
  · refine forall_setNode (P := fun m w => w.reqIDGen =
      (Idutil.newGenerator 0 (start m)).after w.calls.length) ?_ hc.reqIDGen m
    rw [MoonNode.proposeInfo, hnext, List.length_append]
    rfl
  · refine forall_setNode (P := fun m w => ∀ i request, w.calls[i]? = some request →
      request.operateId = operateID (start m) i) (fun i r hr => ?_) hc.operateIDs m
    rw [MoonNode.proposeInfo, List.getElem?_append] at hr
    split_ifs at hr with hi
    · exact hc.operateIDs n i r hr
    · obtain ⟨hi', rfl⟩ := List.getElem?_eq_some_iff.mp hr
      rw [List.length_singleton] at hi'
      have : i = (c.node n).calls.length := by omega
      simpa [this] using hrequest
  · refine forall_setNode (P := fun m w => w.calls.length ≤ bound m) ?_ hc.bounded m
    rw [MoonNode.proposeInfo, List.length_append]
    exact hlt
  · rcases List.mem_append.mp hx with hx | hx
    · exact hissued (hc.proposed x hx)
    · rw [List.mem_singleton.mp hx]
      exact hnew
  · have hwaits : ∀ x ∈ ((c.setNode n ((c.node n).proposeInfo e)).node m).waiting,
        x ∈ (c.node m).waiting ∨ x = e ∧ m = n := by
      refine forall_setNode (P := fun m w => ∀ x ∈ w.waiting, x ∈ (c.node m).waiting ∨
        x = e ∧ m = n) (fun x hx => ?_) (fun _ _ => .inl) m
      rcases List.mem_append.mp hx with hx | hx
      · exact .inl hx
      · exact .inr ⟨List.mem_singleton.mp hx, rfl⟩
    rcases hwaits x hx with hx | ⟨rfl, rfl⟩
    · exact ⟨(hc.waiting m x hx).1, hissued (hc.waiting m x hx).2⟩
    · exact ⟨by rw [he, MoonNode.proposal], hnew⟩
  · have hkept : ((c.node n).proposeInfo e).OwnReleases n := hc.returned n
    exact forall_setNode (P := MoonNode.OwnReleases) hkept hc.returned m

/-- A waiter is released by its own request, where no two calls have the same ID. -/
theorem Sound.released (hc : c.Sound start bound)
    (hdistinct : ∀ {n m i j}, i < bound n → j < bound m →
      operateID (start n) i = operateID (start m) j → n = m ∧ i = j)
    {x : Proposal} (hx : x ∈ (c.node n).waiting) (he : c.Issued e)
    (hid : x.request.operateId = e.request.operateId) : x = e := by
  obtain ⟨horigin, hissued⟩ := hc.waiting n x hx
  have hlt : ∀ {y : Proposal}, c.Issued y → y.call < bound y.origin := fun hy =>
    (List.getElem?_eq_some_iff.mp hy).1.trans_le (hc.bounded _)
  rw [hc.operateIDs _ _ _ hissued, hc.operateIDs _ _ _ he] at hid
  obtain ⟨ho, hcall⟩ := hdistinct (hlt hissued) (hlt he) hid
  have hrequest : x.request = e.request := by
    rw [Issued, ho, hcall] at hissued
    exact Option.some.inj (hissued.symm.trans he)
  obtain ⟨_, _, _⟩ := x
  obtain ⟨_, _, _⟩ := e
  cases ho
  cases hcall
  cases hrequest
  rfl

theorem Sound.apply (hc : c.Sound start bound)
    (hdistinct : ∀ {n m i j}, i < bound n → j < bound m →
      operateID (start n) i = operateID (start m) j → n = m ∧ i = j)
    (he : c.Issued e) : Sound start bound (c.setNode n ((c.node n).readCommit reg e)) := by
  refine hc.setNode rfl rfl (fun x hx => List.mem_of_mem_filter hx) fun x hx => ?_
  rcases List.mem_append.mp hx with hx | hx
  · exact ⟨(hc.returned n x hx).1, List.mem_append_left _ (hc.returned n x hx).2⟩
  · obtain ⟨hwait, hown⟩ := List.mem_filter.mp hx
    have hself := hc.released hdistinct hwait he (of_decide_eq_true hown)
    refine ⟨(hc.waiting n x hwait).1, List.mem_append_right _ ?_⟩
    rw [hself]
    exact List.mem_singleton_self _

theorem sound_step (hc : c.Sound start bound)
    (hdistinct : ∀ {n m i j}, i < bound n → j < bound m →
      operateID (start n) i = operateID (start m) j → n = m ∧ i = j)
    {a : MoonAction} (hg : c.Within bound a) (h : c.step reg a = some c') :
    c'.Sound start bound := by
  cases a with
  | propose n request =>
    simp only [step] at h
    split_ifs at h with hid hpanic
    · cases h
      exact hc
    · cases h
      exact hc.proposeInfo (hg n (by simp [MoonAction.proposes, hid])) rfl
  | commit i =>
    simp only [step, Option.bind_eq_bind, Option.bind_eq_some_iff] at h
    obtain ⟨e, he, h⟩ := h
    cases h
    refine hc.move (fun _ => rfl) (fun _ => rfl) (fun x hx => ?_) (fun x hx => ?_)
      (fun _ _ hx => hx) hc.returned
    · exact hc.proposed x (List.mem_of_mem_eraseIdx hx)
    · rcases List.mem_append.mp hx with hx | hx
      · exact hc.log x hx
      · rw [List.mem_singleton.mp hx]
        exact hc.proposed e (List.mem_of_getElem? he)
  | lose i =>
    cases h
    exact hc.move (fun _ => rfl) (fun _ => rfl)
      (fun x hx => hc.proposed x (List.mem_of_mem_eraseIdx hx)) hc.log (fun _ _ hx => hx) hc.returned
  | apply n =>
    simp only [step, Option.bind_eq_bind, Option.bind_eq_some_iff] at h
    obtain ⟨e, he, h⟩ := h
    cases h
    exact hc.apply reg hdistinct (hc.log e (List.mem_of_getElem? he))
  | save n =>
    cases h
    exact hc.move (fun _ => rfl) (fun _ => rfl) hc.proposed hc.log (fun _ _ hx => hx) hc.returned
  | install n i =>
    simp only [step, Option.bind_eq_bind, Option.bind_eq_some_iff] at h
    obtain ⟨snapshot, -, h⟩ := h
    split_ifs at h
    obtain ⟨r, -, h⟩ := Option.bind_eq_some_iff.mp h
    cases h
    refine hc.setNode rfl rfl (fun _ hx => hx) fun x hx => ?_
    exact ⟨(hc.returned n x hx).1, List.mem_append_left _ (hc.returned n x hx).2⟩

/-- A node takes one ID in a call, and none otherwise. -/
theorem length_calls_step {a : MoonAction} (h : c.step reg a = some c') (m : UInt64) :
    (c'.node m).calls.length = (c.node m).calls.length + (a.proposes m).toNat := by
  have hkept : ∀ n (w : MoonNode R), w.calls = (c.node n).calls →
      ((c.setNode n w).node m).calls.length = (c.node m).calls.length := by
    intro n w hw
    exact forall_setNode (P := fun m w => w.calls.length = (c.node m).calls.length)
      (congrArg _ hw) (fun _ => rfl) m
  cases a with
  | propose n request =>
    simp only [step] at h
    split_ifs at h with hid hpanic
    · cases h
      simp [MoonAction.proposes, hid]
    · cases h
      by_cases hm : m = n
      · subst hm
        simp [setNode, MoonNode.proposeInfo, MoonAction.proposes, hid]
      · simp [setNode, MoonAction.proposes, Function.update_of_ne hm, Ne.symm hm]
  | commit i =>
    simp only [step, Option.bind_eq_bind, Option.bind_eq_some_iff] at h
    obtain ⟨e, -, h⟩ := h
    cases h
    rfl
  | lose i => cases h; rfl
  | apply n =>
    simp only [step, Option.bind_eq_bind, Option.bind_eq_some_iff] at h
    obtain ⟨e, -, h⟩ := h
    cases h
    exact hkept n _ rfl
  | save n => cases h; rfl
  | install n i =>
    simp only [step, Option.bind_eq_bind, Option.bind_eq_some_iff] at h
    obtain ⟨snapshot, -, h⟩ := h
    split_ifs at h
    obtain ⟨r, -, h⟩ := Option.bind_eq_some_iff.mp h
    cases h
    exact hkept n _ rfl

theorem meets_within {actions : List MoonAction}
    (h : ∀ n, (c.node n).calls.length + proposals n actions ≤ bound n) :
    Meets (step reg) (Within bound) c actions := by
  induction actions generalizing c with
  | nil => trivial
  | cons a actions ih =>
    have hcons : ∀ n, proposals n (a :: actions) = proposals n actions + (a.proposes n).toNat := by
      intro n
      rw [proposals, List.countP_cons]
      cases a.proposes n <;> rfl
    refine ⟨fun n hn => ?_, fun c' hc' => ih fun n => ?_⟩
    · have := h n
      rw [hcons, hn] at this
      exact Nat.lt_of_lt_of_le (by simp) this
    · have := h n
      rw [hcons] at this
      rw [length_calls_step reg hc']
      omega

theorem sound_of_apart {actions : List MoonAction} (hapart : Apart start actions)
    (hr : run (step reg) (new reg start) actions = some c) :
    c.Sound start fun n => proposals n actions := by
  have hmeets : Meets (step reg) (Within fun n => proposals n actions) (new reg start) actions :=
    meets_within reg fun n => by simp [new]
  exact run_invariant (fun _ _ _ hc hg h => sound_step reg hc hapart.eq_of_operateID hg h)
    (sound_new reg) hmeets hr

/-- In every run in which the IDs are apart, a proposer is released by its own operation only, and
the IDs in flight on different nodes differ. -/
theorem own_releases_of_apart (start : UInt64 → UInt64) (actions : List MoonAction)
    (hapart : Apart start actions) (c : MoonCluster R)
    (hr : run (step reg) (new reg start) actions = some c) :
    c.OwnReleases ∧ c.DistinctInFlight := by
  have hsound := sound_of_apart reg hapart hr
  refine ⟨hsound.returned, fun n m hnm e he e' he' hid => hnm ?_⟩
  have hself := hsound.released hapart.eq_of_operateID he (hsound.waiting m e' he').2 hid
  rw [← (hsound.waiting n e he).1, hself, (hsound.waiting m e' he').1]

def addNode (raftId : UInt64) : ProposeInfoRequest where
  operate := .ADD
  id := formatNat raftId.toNat
  baseInfo := .nodeInfo ⟨raftId, [], [], 0, 10, .ONLINE⟩

def concurrent : List MoonAction :=
  [.propose 1 (addNode 7), .propose 2 (addNode 8), .commit 0, .apply 2]

def after (start : UInt64 → UInt64) (actions : List MoonAction) : MoonCluster StorageRegister :=
  (run (step memoryRegister) (new memoryRegister start) actions).getD (new memoryRegister start)

theorem run_eq_after {start : UInt64 → UInt64} {actions : List MoonAction}
    (h : (run (step memoryRegister) (new memoryRegister start) actions).isSome = true) :
    run (step memoryRegister) (new memoryRegister start) actions = some (after start actions) := by
  obtain ⟨c, hc⟩ := Option.isSome_iff_exists.mp h
  rw [after, hc, Option.getD_some]

theorem proposals_concurrent (n : UInt64) :
    proposals n concurrent = (decide (1 = n)).toNat + (decide (2 = n)).toNat := by
  have hid : ∀ m, (addNode m).id ≠ [] := fun m => formatNat_ne_nil _
  have hproposes : ∀ m k, (MoonAction.propose m (addNode k)).proposes n = decide (m = n) := by
    intro m k
    simp [MoonAction.proposes, hid]
  rw [proposals, concurrent]
  simp only [List.countP_cons, List.countP_nil, hproposes]
  by_cases h1 : 1 = n <;> by_cases h2 : 2 = n <;> simp [h1, h2, MoonAction.proposes]

/-- Each of the two nodes takes one ID. -/
theorem eq_of_lt_proposals {n : UInt64} {i : ℕ} (h : i < proposals n concurrent) :
    i = 0 ∧ (n = 1 ∨ n = 2) := by
  rw [proposals_concurrent] at h
  by_cases h1 : 1 = n
  · subst h1
    exact ⟨Nat.lt_one_iff.mp h, .inl rfl⟩
  · by_cases h2 : 2 = n
    · subst h2
      exact ⟨Nat.lt_one_iff.mp h, .inr rfl⟩
    · simp [h1, h2] at h

/-- Node `n` is started at millisecond `n`. -/
theorem apart_concurrent : Apart id concurrent where
  calls n := by
    rw [proposals_concurrent]
    exact (Nat.add_le_add (Bool.toNat_le _) (Bool.toNat_le _)).trans (by norm_num)
  windows n m hnm i hi j hj := by
    obtain ⟨rfl, hn⟩ := eq_of_lt_proposals hi
    obtain ⟨rfl, hm⟩ := eq_of_lt_proposals hj
    rcases hn with rfl | rfl <;> rcases hm with rfl | rfl
    · exact absurd rfl hnm
    · decide
    · decide
    · exact absurd rfl hnm

/-- The call of node 2 goes on waiting. -/
theorem own_releases_concurrent :
    (after id concurrent).OwnReleases ∧ (after id concurrent).DistinctInFlight ∧
      ((after id concurrent).node 2).waiting.map Proposal.origin = [2] := by
  obtain ⟨hown, hdistinct⟩ := own_releases_of_apart memoryRegister id concurrent apart_concurrent
    (after id concurrent) (run_eq_after (by decide +kernel))
  exact ⟨hown, hdistinct, by decide +kernel⟩

/-- On two nodes that were started in the same millisecond, the request of node 1 releases the
call of node 2, whose own request is not even committed. -/
theorem released_by_other :
    run (step memoryRegister) (new memoryRegister fun _ => 1) concurrent =
        some (after (fun _ => 1) concurrent) ∧
      ((after (fun _ => 1) concurrent).node 2).returned =
        [⟨2, 0, { addNode 8 with operateId := 257 }⟩] ∧
      (after (fun _ => 1) concurrent).log = [⟨1, 0, { addNode 7 with operateId := 257 }⟩] ∧
      ¬ (after (fun _ => 1) concurrent).OwnReleases := by
  have hreturned : ((after (fun _ => 1) concurrent).node 2).returned =
      [⟨2, 0, { addNode 8 with operateId := 257 }⟩] := by decide +kernel
  have hprocessed : ((after (fun _ => 1) concurrent).node 2).processed.filterMap Processed.asEntry =
      [⟨1, 0, { addNode 7 with operateId := 257 }⟩] := by decide +kernel
  refine ⟨run_eq_after (by decide +kernel), hreturned, by decide +kernel, fun h => ?_⟩
  obtain ⟨-, hmem⟩ := h 2 ⟨2, 0, { addNode 8 with operateId := 257 }⟩ (by simp [hreturned])
  have hentry := (List.mem_filterMap (f := Processed.asEntry)).mpr ⟨_, hmem, rfl⟩
  rw [hprocessed] at hentry
  exact absurd hentry (by decide +kernel)

end MoonCluster

/-- `GetInfo` on a running node: the info of the reply. -/
def MoonNode.getInfo (w : MoonNode R) (infoType : InfoType) (id : Bytes) : Except Errno BaseInfo :=
  reg.get w.register infoType id

/-- The entry is an operation on this type and ID, or the snapshot has an info there. -/
def Processed.Touches (k : InfoType × Bytes) : Processed R → Prop
  | entry e => Touched e.request.op.toList k
  | snapshot source => reg.look source k ≠ none

/-- What `readCommits` does to the register. -/
def Processed.recorded (r : R) : Processed R → Option R
  | entry e => some (reg.operate r e.request)
  | snapshot source => reg.recover r source

structure Kept (r : R) : Prop where
  valid : reg.Valid r
  typed : ∀ k info, reg.look r k = some info → info.getInfoType = k.1

section Kept
variable {reg} {r r' source : R} {k : InfoType × Bytes}

theorem Kept.operate (hr : Kept reg r) (msg : ProposeInfoRequest) : Kept reg (reg.operate r msg) where
  valid := reg.valid_operate hr.valid msg
  typed k info h := by
    rw [reg.look_operate hr.valid] at h
    rcases put_mem_of_replay h with hput | h
    · obtain ⟨-, htype, hvalue⟩ := ProposeInfoRequest.op_eq_some (Option.mem_toList.mp hput)
      rw [hvalue info rfl, ← htype]
      rfl
    · exact hr.typed k info h

theorem Kept.recover (hr : Kept reg r) (hsource : Kept reg source)
    (h : reg.recover r source = some r') :
    Kept reg r' ∧ ∀ k, reg.look source k = none → reg.look r' k = reg.look r k := by
  obtain ⟨r₁, h₁, hvalid, hlook⟩ := reg.look_recover hr.valid hsource.valid
  rw [h₁] at h
  cases h
  refine ⟨⟨hvalid, fun k info hk => ?_⟩, fun k hk => ?_⟩
  · rcases hlook k with heq | ⟨-, heq⟩
    · exact hr.typed k info (heq ▸ hk)
    · exact hsource.typed k info (heq ▸ hk)
  · rcases hlook k with heq | ⟨hne, -⟩
    · exact heq
    · exact absurd hk hne

/-- A step of `readCommits` changes only what it touches. -/
theorem Kept.recorded (hr : Kept reg r) {p : Processed R}
    (hp : ∀ source, p = .snapshot source → Kept reg source) (h : p.recorded reg r = some r') :
    Kept reg r' ∧ (¬ p.Touches reg k → reg.look r' k = reg.look r k) := by
  cases p with
  | entry e =>
    cases h
    refine ⟨hr.operate e.request, fun hk => ?_⟩
    rw [reg.look_operate hr.valid, replay_of_not_touched hk]
  | snapshot source =>
    obtain ⟨hr', hlook⟩ := hr.recover (hp source rfl) h
    exact ⟨hr', fun hk => hlook k (not_not.mp hk)⟩

theorem Kept.foldlM_recorded (hr : Kept reg r) {ps : List (Processed R)}
    (hps : ∀ source, .snapshot source ∈ ps → Kept reg source)
    (h : ps.foldlM (fun r p => p.recorded reg r) r = some r') :
    Kept reg r' ∧ ((∀ p ∈ ps, ¬ p.Touches reg k) → reg.look r' k = reg.look r k) := by
  induction ps generalizing r with
  | nil =>
    cases h
    exact ⟨hr, fun _ => rfl⟩
  | cons p ps ih =>
    rw [List.foldlM_cons] at h
    obtain ⟨r₁, h₁, h⟩ := Option.bind_eq_some_iff.mp h
    obtain ⟨hr₁, hlook₁⟩ := hr.recorded (k := k)
      (fun source hs => hps source (hs ▸ List.mem_cons_self)) h₁
    obtain ⟨hr', hlook⟩ := ih hr₁ (fun source hs => hps source (List.mem_cons_of_mem p hs)) h
    refine ⟨hr', fun hk => ?_⟩
    rw [hlook fun q hq => hk q (List.mem_cons_of_mem p hq), hlook₁ (hk p List.mem_cons_self)]

end Kept

/-- The register of a node is what its `readCommits` has made of what it processed. -/
structure MoonNode.Recorded (w : MoonNode R) : Prop where
  register : Kept reg w.register
  sources : ∀ source, .snapshot source ∈ w.processed → Kept reg source
  replayed : w.processed.foldlM (fun r p => p.recorded reg r) reg.registerAllStorage =
    some w.register

structure MoonCluster.Recorded (c : MoonCluster R) : Prop where
  node : ∀ n, (c.node n).Recorded reg
  saved : ∀ x ∈ c.saved, Kept reg x.2

namespace MoonCluster
variable {reg} {c c' : MoonCluster R} {n : UInt64} {e : Proposal}

theorem kept_registerAllStorage : Kept reg reg.registerAllStorage where
  valid := reg.valid_registerAllStorage
  typed k info h := by
    rw [reg.look_registerAllStorage] at h
    cases h

theorem recorded_new (start : UInt64 → UInt64) : (new reg start).Recorded reg where
  node _ := ⟨kept_registerAllStorage, fun _ h => absurd h List.not_mem_nil, rfl⟩
  saved _ h := absurd h List.not_mem_nil

theorem Recorded.setNode (hc : c.Recorded reg) {w : MoonNode R} (hw : w.Recorded reg) :
    (c.setNode n w).Recorded reg where
  node := forall_setNode (P := fun _ w => w.Recorded reg) hw hc.node
  saved := hc.saved

/-- One more step of `readCommits`. -/
theorem recorded_concat {w w' : MoonNode R} (hw : w.Recorded reg) {p : Processed R}
    (hp : ∀ source, p = .snapshot source → Kept reg source)
    (hprocessed : w'.processed = w.processed ++ [p])
    (hregister : p.recorded reg w.register = some w'.register) : w'.Recorded reg where
  register := (hw.register.recorded (k := (.INVALID, [])) hp hregister).1
  sources source hs := by
    rw [hprocessed] at hs
    rcases List.mem_append.mp hs with hs | hs
    · exact hw.sources source hs
    · exact hp source (List.mem_singleton.mp hs).symm
  replayed := by
    rw [hprocessed, List.foldlM_append, hw.replayed]
    simp [hregister]

theorem recorded_step (hc : c.Recorded reg) {a : MoonAction} (h : c.step reg a = some c') :
    c'.Recorded reg := by
  cases a with
  | propose n request =>
    simp only [step] at h
    split_ifs at h with hid hpanic
    · cases h
      exact hc
    · cases h
      have hw : ((c.node n).proposeInfo ((c.node n).proposal n request)).Recorded reg :=
        ⟨(hc.node n).register, (hc.node n).sources, (hc.node n).replayed⟩
      exact ⟨(hc.setNode hw).node, hc.saved⟩
  | commit i =>
    simp only [step, Option.bind_eq_bind, Option.bind_eq_some_iff] at h
    obtain ⟨e, -, h⟩ := h
    cases h
    exact ⟨hc.node, hc.saved⟩
  | lose i =>
    cases h
    exact ⟨hc.node, hc.saved⟩
  | apply n =>
    simp only [step, Option.bind_eq_bind, Option.bind_eq_some_iff] at h
    obtain ⟨e, -, h⟩ := h
    cases h
    exact hc.setNode (recorded_concat (hc.node n) (p := .entry e) nofun rfl rfl)
  | save n =>
    cases h
    refine ⟨hc.node, fun x hx => ?_⟩
    rcases List.mem_append.mp hx with hx | hx
    · exact hc.saved x hx
    · rw [List.mem_singleton.mp hx]
      exact (hc.node n).register
  | install n i =>
    simp only [step, Option.bind_eq_bind, Option.bind_eq_some_iff] at h
    obtain ⟨snapshot, hs, h⟩ := h
    split_ifs at h
    obtain ⟨r, hr, h⟩ := Option.bind_eq_some_iff.mp h
    cases h
    refine hc.setNode (recorded_concat (hc.node n) (p := .snapshot snapshot.2) ?_ rfl hr)
    intro source hsource
    cases hsource
    exact hc.saved snapshot (List.mem_of_getElem? hs)

end MoonCluster

/-- The types that `BaseInfo.GetInfoType` knows. -/
def knownTypes : List InfoType := [.NODE_INFO, .CLUSTER_INFO, .BUCKET_INFO]

theorem Information.base_of_known {info : Information} (h : info.getInfoType ∈ knownTypes) :
    info.base.getInfoType = info.getInfoType ∧ info.base.getID = info.getID := by
  cases info with
  | userInfo _ | volumeInfo _ => simp [Information.getInfoType, knownTypes] at h
  | _ => exact ⟨rfl, rfl⟩

theorem BaseInfo.getInfoType_known {info : BaseInfo} (h : info.getInfoType ∈ registeredTypes) :
    info.getInfoType ∈ knownTypes := by
  cases info with
  | nodeInfo _ | clusterInfo _ | bucketInfo _ => simp [getInfoType, knownTypes]
  | _ => simp [getInfoType, registeredTypes] at h

theorem registered_of_known : ∀ t ∈ knownTypes, t ∈ registeredTypes := by decide

/-- The effect of an entry whose type is known. -/
theorem ProposeInfoRequest.op_of_known {msg : ProposeInfoRequest}
    (h : msg.baseInfo.getInfoType ∈ knownTypes) :
    msg.op = some (if msg.operate = .DELETE then .delete (msg.baseInfo.getInfoType, msg.id)
      else .put (msg.baseInfo.getInfoType, msg.baseInfo.getID) msg.baseInfo) := by
  rw [ProposeInfoRequest.op, if_pos (registered_of_known _ h)]
  cases msg.operate <;> rfl

namespace MoonCluster
variable {reg} {c : MoonCluster R} {n : UInt64} {e : Proposal}

/-- What the register holds for an entry, while nothing has touched it since. -/
theorem Recorded.look_eq (hc : c.Recorded reg) {pre post : List (Processed R)}
    (hsplit : (c.node n).processed = pre ++ .entry e :: post) {k : InfoType × Bytes}
    (huntouched : ∀ p ∈ post, ¬ p.Touches reg k) :
    ∃ r, reg.look (c.node n).register k = replay (reg.look r) e.request.op.toList k := by
  obtain ⟨-, hsources, hreplayed⟩ := hc.node n
  rw [hsplit] at hsources hreplayed
  rw [List.foldlM_append] at hreplayed
  obtain ⟨r, hpre, hreplayed⟩ := Option.bind_eq_some_iff.mp hreplayed
  rw [List.foldlM_cons] at hreplayed
  obtain ⟨r₁, hentry, hpost⟩ := Option.bind_eq_some_iff.mp hreplayed
  have hr := (kept_registerAllStorage.foldlM_recorded (k := k)
    (fun source hs => hsources source (List.mem_append_left _ hs)) hpre).1
  have hr₁ := (hr.recorded (k := k) (p := .entry e) nofun hentry).1
  have hlook := (hr₁.foldlM_recorded (k := k)
    (fun source hs => hsources source (by simp [hs])) hpost).2 huntouched
  cases hentry
  exact ⟨r, by rw [hlook, reg.look_operate hr.valid]⟩

theorem Recorded.getInfo_eq_ok_iff (hc : c.Recorded reg) {t : InfoType} (ht : t ∈ registeredTypes)
    (id : Bytes) (info : BaseInfo) :
    (c.node n).getInfo reg t id = .ok info ↔ reg.look (c.node n).register (t, id) = some info :=
  reg.get_eq_ok_iff (hc.node n).register.valid ht id info

/-- Where the IDs are apart, an acknowledged request has been processed. While nothing touches its
type and ID afterwards, an info that was added or updated is readable exactly where its type is
known, and one that was deleted is not found. -/
theorem acknowledged_readable_iff (reg : InfoRegister R) (start : UInt64 → UInt64)
    (actions : List MoonAction) (hapart : Apart start actions) (c : MoonCluster R)
    (hr : run (step reg) (new reg start) actions = some c) (n : UInt64) (e : Proposal)
    (he : e ∈ (c.node n).returned) (info : Information)
    (htype : info.getInfoType ∈ registeredTypes) (hid : e.request.id = info.getID)
    (hbase : e.request.baseInfo = info.base) :
    .entry e ∈ (c.node n).processed ∧
      ∀ pre post, (c.node n).processed = pre ++ .entry e :: post →
        (∀ p ∈ post, ¬ p.Touches reg (info.getInfoType, info.getID)) →
        (e.request.operate ≠ .DELETE →
          ((c.node n).getInfo reg info.getInfoType info.getID = .ok info.base ↔
            info.getInfoType ∈ knownTypes)) ∧
        (e.request.operate = .DELETE →
          ∀ b, (c.node n).getInfo reg info.getInfoType info.getID ≠ .ok b) := by
  have hrecorded : c.Recorded reg :=
    run_preserved (fun _ _ _ hc h => recorded_step hc h) (recorded_new start) hr
  -- only known types are ever stored
  have hknown : ∀ b, (c.node n).getInfo reg info.getInfoType info.getID = .ok b →
      info.getInfoType ∈ knownTypes := by
    intro b hb
    rw [hrecorded.getInfo_eq_ok_iff htype] at hb
    have htyped : b.getInfoType = info.getInfoType := (hrecorded.node n).register.typed _ _ hb
    rw [← htyped]
    exact BaseInfo.getInfoType_known (htyped ▸ htype)
  refine ⟨((sound_of_apart reg hapart hr).returned n e he).2, ?_⟩
  intro pre post hsplit huntouched
  obtain ⟨r, hlook⟩ := hrecorded.look_eq hsplit huntouched
  refine ⟨fun hop => ⟨hknown _, fun ht => ?_⟩, fun hop b hb => ?_⟩
  · obtain ⟨hbt, hbid⟩ := Information.base_of_known ht
    rw [hrecorded.getInfo_eq_ok_iff htype, hlook,
      ProposeInfoRequest.op_of_known (by rw [hbase, hbt]; exact ht), if_neg hop, hbase, hbt, hbid]
    exact Function.update_self ..
  · have ht := hknown b hb
    obtain ⟨hbt, -⟩ := Information.base_of_known ht
    rw [hrecorded.getInfo_eq_ok_iff htype, hlook,
      ProposeInfoRequest.op_of_known (by rw [hbase, hbt]; exact ht), if_pos hop, hbase, hbt,
      hid] at hb
    cases (Function.update_self ..).symm.trans hb

def userRequest : ProposeInfoRequest where
  operate := .ADD
  id := [117]
  baseInfo := (Information.userInfo [117]).base

def adding (request : ProposeInfoRequest) : List MoonAction :=
  [.propose 1 request, .commit 0, .apply 1]

theorem apart_adding (request : ProposeInfoRequest) : Apart id (adding request) := by
  have hle : ∀ n, proposals n (adding request) ≤ 1 := by
    intro n
    rw [proposals, adding]
    simp only [List.countP_cons, List.countP_nil, MoonAction.proposes]
    split_ifs <;> simp_all
  have hone : ∀ {n i}, i < proposals n (adding request) → n = 1 := by
    intro n i hi
    by_contra hn
    have hzero : proposals n (adding request) = 0 := by
      simp [proposals, adding, MoonAction.proposes, Ne.symm hn]
    omega
  refine ⟨fun n => (hle n).trans (by norm_num), fun n m hnm i hi j hj => ?_⟩
  exact absurd ((hone hi).trans (hone hj).symm) hnm

/-- A node info that was added is readable. -/
theorem acknowledged_readable_node :
    ((after id (adding (addNode 7))).node 1).getInfo memoryRegister .NODE_INFO [55] =
      .ok (.nodeInfo ⟨7, [], [], 0, 10, .ONLINE⟩) := by
  have hreturned : (⟨1, 0, { addNode 7 with operateId := 257 }⟩ : Proposal) ∈
      ((after id (adding (addNode 7))).node 1).returned := by decide +kernel
  obtain ⟨-, hreadable⟩ := acknowledged_readable_iff memoryRegister id (adding (addNode 7))
    (apart_adding _) (after id (adding (addNode 7))) (run_eq_after (by decide +kernel)) 1 _ hreturned
    (.nodeInfo ⟨7, [], [], 0, 10, .ONLINE⟩) (by decide) rfl rfl
  exact ((hreadable [] [] rfl nofun).1 nofun).mpr (by decide)

/-- A user info is acknowledged and not found: `BaseInfo.GetInfoType` does not know its type, and
the error of `Update` is only logged. -/
theorem acknowledged_user_not_found :
    run (step memoryRegister) (new memoryRegister id) (adding userRequest) =
        some (after id (adding userRequest)) ∧
      ((after id (adding userRequest)).node 1).returned =
        [⟨1, 0, { userRequest with operateId := 257 }⟩] ∧
      (Information.userInfo [117]).getInfoType ∈ registeredTypes ∧
      ((after id (adding userRequest)).node 1).getInfo memoryRegister .USER_INFO [117] =
        .error .infoNotFound := by
  exact ⟨run_eq_after (by decide +kernel), by decide +kernel, by decide, by decide +kernel⟩

end MoonCluster

end Ecos.Moon
