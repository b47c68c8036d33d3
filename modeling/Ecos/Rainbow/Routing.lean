import Ecos.Logic.Machine
import Ecos.Rainbow.Message

namespace Ecos.Rainbow.Routing
open Logic Std

/-- A channel of capacity 1 with the ID it was registered for, what was ever sent on it and how
often it was closed. -/
structure Channel where
  id : UInt64
  buffer : List Response := []
  delivered : List Response := []
  closes : ℕ := 0
  deriving DecidableEq, Repr

inductive Loop where
  | receiving
  /-- in `Send`, with the channel that it has found -/
  | sending (x : Response) (ch : Option ℕ)
  /-- before `Unregister` -/
  | closing (x : Response)
  deriving DecidableEq, Repr

/-- The loop after `Send`. -/
def Loop.sent (x : Response) : Loop := if x.isLast then .closing x else .receiving

def Loop.response : Loop → Option Response
  | receiving => none
  | sending x _ => some x
  | closing x => some x

structure State where
  requestSeq : UInt64 := 10000
  /-- numbers that requests have taken, before `Register` -/
  pending : List UInt64 := []
  m : ExtTreeMap UInt64 ℕ compare := ∅
  chans : List Channel := []
  loops : List Loop
  panicked : Bool := false

inductive Action where
  /-- A request takes the next number. -/
  | request
  | register (i : ℕ)
  /-- A loop receives a response and looks up its channel. -/
  | receive (l : ℕ) (x : Response)
  | send (l : ℕ)
  | unregister (l : ℕ)
  /-- The owner of a channel receives from it. -/
  | take (c : ℕ)
  deriving DecidableEq, Repr

namespace State

def start (n : ℕ) : State := { loops := List.replicate n .receiving }

def register (s : State) (id : UInt64) : State :=
  match s.m[id]? with
  | none => { s with m := s.m.insert id s.chans.length, chans := s.chans ++ [{ id := id }] }
  | some _ => { s with panicked := true }

/-- `close`, which panics on a closed channel. -/
def close (s : State) (c : ℕ) : State :=
  { s with
    chans := s.chans.modify c fun ch => { ch with closes := ch.closes + 1 }
    panicked := s.panicked || s.chans[c]?.any fun ch => ch.closes ≠ 0 }

/-- `Unregister`. Closing the nil channel of an unknown ID panics. -/
def unregister (s : State) (id : UInt64) : State :=
  match s.m[id]? with
  | none => { s with panicked := true }
  | some c => { s.close c with m := s.m.erase id }

/-- `ch <- x`, which panics on a closed channel; `none` where it blocks. -/
def deliver (s : State) (c : ℕ) (x : Response) : Option State :=
  match s.chans[c]? with
  | none => none
  | some ch =>
    if ch.closes ≠ 0 then some { s with panicked := true }
    else if ch.buffer = [] then
      some { s with chans := s.chans.modify c fun ch =>
        { ch with buffer := [x], delivered := ch.delivered ++ [x] } }
    else none

def setLoop (s : State) (l : ℕ) (loop : Loop) : State := { s with loops := s.loops.set l loop }

end State

def act (s : State) : Action → Option State
  | .request =>
    some { s with requestSeq := s.requestSeq + 1, pending := s.pending ++ [s.requestSeq] }
  | .register i => do
    let id ← s.pending[i]?
    return { s with pending := s.pending.eraseIdx i }.register id
  | .receive l x =>
    match s.loops[l]? with
    | some .receiving => some (s.setLoop l (.sending x s.m[x.responseTo]?))
    | _ => none
  | .send l =>
    match s.loops[l]? with
    | some (.sending x none) => some (s.setLoop l (.sent x))
    | some (.sending x (some c)) => (s.setLoop l (.sent x)).deliver c x
    | _ => none
  | .unregister l =>
    match s.loops[l]? with
    | some (.closing x) => some ((s.setLoop l .receiving).unregister x.responseTo)
    | _ => none
  | .take c => some { s with chans := s.chans.modify c fun ch => { ch with buffer := [] } }

def step (s : State) (a : Action) : Option State := if s.panicked then none else act s a

/-- Channels are closed once at most and carry only responses to their own requests. -/
structure Routed (s : State) : Prop where
  closed : ∀ ch ∈ s.chans, ch.closes ≤ 1
  own : ∀ ch ∈ s.chans, ∀ x ∈ ch.delivered, x.responseTo = ch.id

/-- Of two responses to one request that are handled at the same time, none is the last one. -/
def Loop.Free (x : Response) (loop : Loop) : Prop :=
  ∀ y ∈ loop.response, y.responseTo = x.responseTo → x.isLast = false ∧ y.isLast = false

instance (x : Response) (loop : Loop) : Decidable (loop.Free x) := by
  unfold Loop.Free
  infer_instance

/-- A last response belongs to a registered request and meets no other response to it, and the
numbers have not come round. -/
def Orderly (s : State) : Action → Prop
  | .request => s.pending.length + s.chans.length < 2 ^ 64
  | .receive _ x => (x.isLast → x.responseTo ∈ s.m) ∧ ∀ loop ∈ s.loops, loop.Free x
  | _ => True

instance (s : State) : ∀ a, Decidable (Orderly s a)
  | .request => inferInstanceAs (Decidable (_ < _))
  | .receive _ _ => inferInstanceAs (Decidable (_ ∧ _))
  | .register _ | .send _ | .unregister _ | .take _ => isTrue trivial

theorem getElem?_modify_cases {α : Type} {l : List α} {f : α → α} {i j : ℕ} {b : α}
    (h : (l.modify i f)[j]? = some b) :
    (j = i ∧ ∃ a, l[i]? = some a ∧ b = f a) ∨ (j ≠ i ∧ l[j]? = some b) := by
  rw [List.getElem?_modify] at h
  obtain ⟨a, ha, rfl⟩ := Option.map_eq_some_iff.mp h
  by_cases hij : i = j
  · subst hij
    exact .inl ⟨rfl, a, ha, if_pos rfl⟩
  · rw [if_neg hij]
    exact .inr ⟨Ne.symm hij, ha⟩

theorem getElem?_modify_of_eq {α : Type} {l : List α} (f : α → α) (i : ℕ) {j : ℕ} {a : α}
    (h : l[j]? = some a) : (l.modify i f)[j]? = some (if i = j then f a else a) := by
  rw [List.getElem?_modify, h]
  rfl

theorem getElem?_set_cases {α : Type} {l : List α} {i j : ℕ} {a b : α}
    (h : (l.set i a)[j]? = some b) : (j = i ∧ b = a) ∨ (j ≠ i ∧ l[j]? = some b) := by
  rw [List.getElem?_set] at h
  split_ifs at h with hij
  · exact .inl ⟨hij.symm, (Option.some.inj h).symm⟩
  · exact .inr ⟨Ne.symm hij, h⟩

/-- The router knows open channels by their IDs, and a loop in `Send` has one for its response. -/
structure Sound (s : State) : Prop where
  mapped : ∀ (id : UInt64) (c : ℕ), s.m[id]? = some c →
    ∃ ch : Channel, s.chans[c]? = some ch ∧ ch.id = id ∧ ch.closes = 0
  held : ∀ (l : ℕ) x c, s.loops[l]? = some (Loop.sending x (some c)) →
    ∃ ch : Channel, s.chans[c]? = some ch ∧ ch.id = x.responseTo
  closed : ∀ (c : ℕ) (ch : Channel), s.chans[c]? = some ch → ch.closes ≤ 1
  own : ∀ (c : ℕ) (ch : Channel), s.chans[c]? = some ch → ∀ x ∈ ch.delivered, x.responseTo = ch.id

namespace Sound

variable {s : State} (h : Sound s)
include h

theorem routed : Routed s := by
  refine ⟨fun ch hch => ?_, fun ch hch => ?_⟩ <;> obtain ⟨c, hc⟩ := List.mem_iff_getElem?.mp hch
  · exact h.closed c ch hc
  · exact h.own c ch hc

theorem panic : Sound { s with panicked := true } := ⟨h.mapped, h.held, h.closed, h.own⟩

theorem setLoop {l : ℕ} {loop : Loop}
    (hloop : ∀ x c, loop = .sending x (some c) →
      ∃ ch : Channel, s.chans[c]? = some ch ∧ ch.id = x.responseTo) :
    Sound (s.setLoop l loop) := by
  refine ⟨h.mapped, fun l' x c hl => ?_, h.closed, h.own⟩
  rcases getElem?_set_cases hl with ⟨-, heq⟩ | ⟨-, hl⟩
  · exact hloop x c heq.symm
  · exact h.held l' x c hl

/-- A channel changes, but not in its ID and not from open to closed. -/
theorem modify {c : ℕ} {f : Channel → Channel} (hid : ∀ ch, (f ch).id = ch.id)
    (hcloses : ∀ ch, (f ch).closes = ch.closes)
    (hown : ∀ ch, s.chans[c]? = some ch → ∀ x ∈ (f ch).delivered, x.responseTo = ch.id) :
    Sound { s with chans := s.chans.modify c f } := by
  refine ⟨fun id c' hm => ?_, fun l x c' hl => ?_, fun c' ch hc => ?_, fun c' ch hc x hx => ?_⟩
  · obtain ⟨ch, hch, hi, hcl⟩ := h.mapped id c' hm
    refine ⟨_, getElem?_modify_of_eq f c hch, ?_, ?_⟩ <;> split_ifs
    · rw [hid, hi]
    · exact hi
    · rw [hcloses, hcl]
    · exact hcl
  · obtain ⟨ch, hch, hi⟩ := h.held l x c' hl
    refine ⟨_, getElem?_modify_of_eq f c hch, ?_⟩
    split_ifs
    · rw [hid, hi]
    · exact hi
  · rcases getElem?_modify_cases hc with ⟨-, a, ha, rfl⟩ | ⟨-, ha⟩
    · rw [hcloses]
      exact h.closed c a ha
    · exact h.closed c' ch ha
  · rcases getElem?_modify_cases hc with ⟨-, a, ha, rfl⟩ | ⟨-, ha⟩
    · rw [hid]
      exact hown a ha x hx
    · exact h.own c' ch ha x hx

theorem register (id : UInt64) : Sound (s.register id) := by
  unfold State.register
  cases hm : s.m[id]? with
  | some c => exact h.panic
  | none =>
    have hold : ∀ {c : ℕ} {ch : Channel}, s.chans[c]? = some ch →
        (s.chans ++ [{ id := id }])[c]? = some ch := by
      intro c ch hc
      rw [List.getElem?_append_left (List.getElem?_eq_some_iff.mp hc).1, hc]
    have hcases : ∀ {c : ℕ} {ch : Channel}, (s.chans ++ [{ id := id }])[c]? = some ch →
        s.chans[c]? = some ch ∨ ch = { id := id } := by
      intro c ch hc
      rw [List.getElem?_append] at hc
      split_ifs at hc
      · exact .inl hc
      · exact .inr (List.mem_singleton.mp (List.mem_of_getElem? hc))
    refine ⟨fun id' c hc => ?_, fun l x c hl => ?_, fun c ch hc => ?_, fun c ch hc x hx => ?_⟩
    · simp only [ExtTreeMap.getElem?_insert, LawfulEqCmp.compare_eq_iff_eq] at hc
      split_ifs at hc with heq
      · cases hc
        exact ⟨{ id := id }, by simp, heq, rfl⟩
      · obtain ⟨ch, hch, hrest⟩ := h.mapped id' c hc
        exact ⟨ch, hold hch, hrest⟩
    · obtain ⟨ch, hch, hi⟩ := h.held l x c hl
      exact ⟨ch, hold hch, hi⟩
    · rcases hcases hc with hc | rfl
      · exact h.closed c ch hc
      · exact Nat.zero_le 1
    · rcases hcases hc with hc | rfl
      · exact h.own c ch hc x hx
      · cases hx

/-- Only the channel of the ID is closed, so the others that the router knows stay open. -/
theorem unregister (id : UInt64) : Sound (s.unregister id) := by
  unfold State.unregister
  cases hm : s.m[id]? with
  | none => exact h.panic
  | some c =>
    obtain ⟨ch₀, hch₀, hid₀, hcl₀⟩ := h.mapped id c hm
    refine ⟨fun id' c' hc => ?_, fun l x c' hl => ?_, fun c' ch hc => ?_, fun c' ch hc x hx => ?_⟩
    · simp only [ExtTreeMap.getElem?_erase, LawfulEqCmp.compare_eq_iff_eq] at hc
      split_ifs at hc with heq
      obtain ⟨ch, hch, hi, hcl⟩ := h.mapped id' c' hc
      have hne : c ≠ c' := by
        rintro rfl
        rw [hch₀] at hch
        exact heq (hid₀.symm.trans (Option.some.inj hch ▸ hi))
      have hsame := getElem?_modify_of_eq (fun ch => { ch with closes := ch.closes + 1 }) c hch
      rw [if_neg hne] at hsame
      exact ⟨ch, hsame, hi, hcl⟩
    · obtain ⟨ch, hch, hi⟩ := h.held l x c' hl
      refine ⟨_, getElem?_modify_of_eq _ c hch, ?_⟩
      split_ifs <;> exact hi
    · rcases getElem?_modify_cases hc with ⟨-, a, ha, rfl⟩ | ⟨-, ha⟩
      · rw [hch₀] at ha
        rw [← Option.some.inj ha, hcl₀]
      · exact h.closed c' ch ha
    · rcases getElem?_modify_cases hc with ⟨-, a, ha, rfl⟩ | ⟨-, ha⟩
      · exact h.own c a ha x hx
      · exact h.own c' ch ha x hx

theorem deliver {c : ℕ} {x : Response} {s' : State}
    (hc : ∃ ch : Channel, s.chans[c]? = some ch ∧ ch.id = x.responseTo)
    (hs : s.deliver c x = some s') : Sound s' := by
  obtain ⟨ch, hch, hid⟩ := hc
  simp only [State.deliver, hch] at hs
  split_ifs at hs <;> cases hs
  · exact h.panic
  · refine h.modify (fun _ => rfl) (fun _ => rfl) fun ch' hch' y hy => ?_
    rw [hch] at hch'
    cases hch'
    rcases List.mem_append.mp hy with hy | hy
    · exact h.own c ch hch y hy
    · rw [List.mem_singleton.mp hy, hid]

end Sound

theorem Loop.sent_ne_sending (x y : Response) (c : Option ℕ) : Loop.sent x ≠ .sending y c := by
  unfold Loop.sent
  split_ifs <;> exact Loop.noConfusion

theorem Sound.act {s s' : State} {a : Action} (h : Sound s) (hs : act s a = some s') :
    Sound s' := by
  have hsent : ∀ {l x}, Sound (s.setLoop l (.sent x)) := fun {l x} =>
    h.setLoop fun y c heq => absurd heq (Loop.sent_ne_sending x y _)
  cases a with
  | request =>
    cases hs
    exact ⟨h.mapped, h.held, h.closed, h.own⟩
  | register i =>
    obtain ⟨id, -, hs⟩ := Option.bind_eq_some_iff.mp hs
    cases hs
    exact Sound.register (s := { s with pending := s.pending.eraseIdx i })
      ⟨h.mapped, h.held, h.closed, h.own⟩ id
  | receive l x =>
    simp only [Routing.act] at hs
    split at hs <;> cases hs
    refine h.setLoop fun y c heq => ?_
    obtain ⟨rfl, hm⟩ := Loop.sending.inj heq
    obtain ⟨ch, hch, hid, -⟩ := h.mapped _ c hm
    exact ⟨ch, hch, hid⟩
  | send l =>
    simp only [Routing.act] at hs
    split at hs
    · cases hs
      exact hsent
    · next x c hl => exact hsent.deliver (h.held l x c hl) hs
    · cases hs
  | unregister l =>
    simp only [Routing.act] at hs
    split at hs <;> cases hs
    exact (h.setLoop fun y c heq => Loop.noConfusion heq).unregister _
  | take c =>
    cases hs
    exact h.modify (fun _ => rfl) (fun _ => rfl) fun ch hch => h.own c ch hch

theorem getElem?_start {n l : ℕ} {loop : Loop} (h : (State.start n).loops[l]? = some loop) :
    loop = .receiving := List.eq_of_mem_replicate (List.mem_of_getElem? h)

theorem sound_start (n : ℕ) : Sound (State.start n) := by
  refine ⟨fun id c hc => ?_, fun l x c hl => ?_, fun c ch hc => ?_, fun c ch hc => ?_⟩
  · rw [show (State.start n).m[id]? = none from ExtTreeMap.getElem?_empty] at hc
    cases hc
  · cases getElem?_start hl
  all_goals simp [State.start] at hc

theorem act_of_step {s s' : State} {a : Action} (h : step s a = some s') :
    s.panicked = false ∧ act s a = some s' := by
  unfold step at h
  split_ifs at h with hp
  exact ⟨Bool.eq_false_iff.mpr hp, h⟩

/-- Whatever the peers send, a channel is closed once at most and carries its own responses. -/
theorem routed_run {n : ℕ} {as : List Action} {s : State}
    (hr : run step (State.start n) as = some s) : Routed s := by
  have hstep : ∀ s a s', Sound s → step s a = some s' → Sound s' :=
    fun s a s' h hs => h.act (act_of_step hs).2
  exact (run_preserved hstep (sound_start n) hr).routed

def number (k : ℕ) : UInt64 := 10000 + UInt64.ofNat k

theorem number_inj {j k : ℕ} (hj : j < 2 ^ 64) (hk : k < 2 ^ 64) (h : number j = number k) :
    j = k := by
  have hnat := congrArg UInt64.toNat ((UInt64.add_right_inj _).mp h)
  rwa [UInt64.toNat_ofNat', UInt64.toNat_ofNat', Nat.mod_eq_of_lt hj, Nat.mod_eq_of_lt hk] at hnat

def State.numbers (s : State) : List UInt64 := s.pending ++ s.chans.map Channel.id

theorem State.length_numbers (s : State) :
    s.numbers.length = s.pending.length + s.chans.length := by
  rw [State.numbers, List.length_append, List.length_map]

structure Numbered (s : State) : Prop where
  perm : s.numbers.Perm ((List.range s.numbers.length).map number)
  next : s.requestSeq = number s.numbers.length
  few : s.numbers.length ≤ 2 ^ 64

namespace Numbered

variable {s s' : State} (h : Numbered s)
include h

theorem nodup : s.numbers.Nodup := by
  refine h.perm.nodup_iff.mpr (List.Nodup.map_on (fun j hj k hk heq => ?_) List.nodup_range)
  exact number_inj ((List.mem_range.mp hj).trans_le h.few) ((List.mem_range.mp hk).trans_le h.few)
    heq

/-- The numbers are handed on, and none is taken. -/
theorem of_perm (hp : s'.numbers.Perm s.numbers) (hseq : s'.requestSeq = s.requestSeq) :
    Numbered s' := by
  have hlen := hp.length_eq
  exact ⟨by rw [hlen]; exact hp.trans h.perm, by rw [hlen, hseq]; exact h.next, hlen ▸ h.few⟩

theorem request (hg : Orderly s .request) :
    Numbered { s with requestSeq := s.requestSeq + 1, pending := s.pending ++ [s.requestSeq] } := by
  have hp : ((s.pending ++ [s.requestSeq]) ++ s.chans.map Channel.id).Perm
      (s.numbers ++ [s.requestSeq]) := by
    rw [State.numbers, List.append_assoc, List.append_assoc]
    exact List.perm_append_comm.append_left s.pending
  have hlen : ((s.pending ++ [s.requestSeq]) ++ s.chans.map Channel.id).length =
      s.numbers.length + 1 := hp.length_eq.trans (by simp)
  refine ⟨?_, ?_, ?_⟩ <;> simp only [State.numbers] at hlen ⊢ <;> rw [hlen]
  · rw [List.range_succ, List.map_append, List.map_singleton]
    refine hp.trans ?_
    rw [h.next]
    exact h.perm.append_right _
  · rw [h.next, number, number, State.numbers, UInt64.ofNat_add, UInt64.add_assoc]
    rfl
  · exact Nat.succ_le_of_lt (s.length_numbers ▸ hg)

/-- A number that waits for its registration has no channel. -/
theorem not_registered {i : ℕ} {id : UInt64} (hs : Sound s) (hi : s.pending[i]? = some id) :
    s.m[id]? = none := by
  by_contra hne
  obtain ⟨c, hc⟩ := Option.ne_none_iff_exists'.mp hne
  obtain ⟨ch, hch, hid, -⟩ := hs.mapped id c hc
  have hmem : id ∈ s.chans.map Channel.id :=
    List.mem_map.mpr ⟨ch, List.mem_of_getElem? hch, hid⟩
  exact List.disjoint_of_nodup_append h.nodup (List.mem_of_getElem? hi) hmem

end Numbered

/-- The loops handle last responses to registered requests only, each of them alone, and a
channel that a loop has found is still registered. -/
structure Handled (s : State) : Prop where
  apart : ∀ (l l' : ℕ) (a b : Loop), l ≠ l' → s.loops[l]? = some a → s.loops[l']? = some b →
    ∀ x ∈ a.response, b.Free x
  alive : ∀ (l : ℕ) (a : Loop), s.loops[l]? = some a →
    ∀ x ∈ a.response, x.isLast → x.responseTo ∈ s.m
  fresh : ∀ (l : ℕ) x c, s.loops[l]? = some (Loop.sending x (some c)) →
    s.m[x.responseTo]? = some c
  last : ∀ (l : ℕ) x, s.loops[l]? = some (Loop.closing x) → x.isLast

theorem Loop.Free.symm {x y : Response} {a b : Loop} (h : b.Free x) (hx : a.response = some x)
    (hy : y ∈ b.response) : a.Free y := by
  intro z hz heq
  have hzx : z = x := Option.some.inj (hz.symm.trans hx)
  subst hzx
  exact (h y hy heq.symm).symm

theorem Loop.response_sent {x y : Response} (h : y ∈ (Loop.sent x).response) :
    y = x ∧ x.isLast := by
  unfold Loop.sent at h
  split_ifs at h with hx
  · exact ⟨(Option.some.inj h).symm, hx⟩
  · cases h

namespace Handled

variable {s : State} (h : Handled s)
include h

/-- A loop goes on to handle no other response than before. -/
theorem setLoop {l : ℕ} {a b : Loop} (hl : s.loops[l]? = some a)
    (hsub : ∀ x ∈ b.response, x ∈ a.response)
    (hfresh : ∀ x c, b = .sending x (some c) → s.m[x.responseTo]? = some c)
    (hlast : ∀ x, b = .closing x → x.isLast) : Handled (s.setLoop l b) := by
  refine ⟨fun i j a' b' hij hi hj x hx => ?_, fun i a' hi x hx => ?_, fun i x c hi => ?_,
    fun i x hi => ?_⟩
  · rcases getElem?_set_cases hi with ⟨rfl, rfl⟩ | ⟨-, hi'⟩ <;>
      rcases getElem?_set_cases hj with ⟨rfl, rfl⟩ | ⟨-, hj'⟩
    · exact absurd rfl hij
    · exact h.apart i j a b' hij hl hj' x (hsub x hx)
    · exact fun y hy => h.apart i j a' a hij hi' hl x hx y (hsub y hy)
    · exact h.apart i j a' b' hij hi' hj' x hx
  · rcases getElem?_set_cases hi with ⟨rfl, rfl⟩ | ⟨-, hi⟩
    · exact h.alive i a hl x (hsub x hx)
    · exact h.alive i a' hi x hx
  · rcases getElem?_set_cases hi with ⟨-, heq⟩ | ⟨-, hi⟩
    · exact hfresh x c heq.symm
    · exact h.fresh i x c hi
  · rcases getElem?_set_cases hi with ⟨-, heq⟩ | ⟨-, hi⟩
    · exact hlast x heq.symm
    · exact h.last i x hi

theorem receive {l : ℕ} {x : Response} (hl : s.loops[l]? = some .receiving)
    (hg : Orderly s (.receive l x)) :
    Handled (s.setLoop l (.sending x s.m[x.responseTo]?)) := by
  obtain ⟨hknown, hfree⟩ := hg
  refine ⟨fun i j a b hij hi hj y hy => ?_, fun i a hi y hy => ?_, fun i y c hi => ?_,
    fun i y hi => ?_⟩
  · rcases getElem?_set_cases hi with ⟨rfl, rfl⟩ | ⟨-, hi'⟩ <;>
      rcases getElem?_set_cases hj with ⟨rfl, rfl⟩ | ⟨-, hj'⟩
    · exact absurd rfl hij
    · cases hy
      exact hfree b (List.mem_of_getElem? hj')
    · exact (hfree a (List.mem_of_getElem? hi')).symm rfl hy
    · exact h.apart i j a b hij hi' hj' y hy
  · rcases getElem?_set_cases hi with ⟨-, rfl⟩ | ⟨-, hi⟩
    · cases hy
      exact hknown
    · exact h.alive i a hi y hy
  · rcases getElem?_set_cases hi with ⟨-, heq⟩ | ⟨-, hi⟩
    · obtain ⟨rfl, hm⟩ := Loop.sending.inj heq
      exact hm.symm
    · exact h.fresh i y c hi
  · rcases getElem?_set_cases hi with ⟨-, heq⟩ | ⟨-, hi⟩
    · cases heq
    · exact h.last i y hi

theorem sent {l : ℕ} {x : Response} {ch : Option ℕ} (hl : s.loops[l]? = some (.sending x ch)) :
    Handled (s.setLoop l (.sent x)) := by
  refine h.setLoop hl (fun y hy => ?_) (fun y c heq => ?_) (fun y heq => ?_)
  · rw [(Loop.response_sent hy).1]
    rfl
  · exact absurd heq (Loop.sent_ne_sending x y _)
  · have hy : y ∈ (Loop.sent x).response := by rw [heq]; rfl
    obtain ⟨rfl, hlast⟩ := Loop.response_sent hy
    exact hlast

theorem register {id : UInt64} (hm : s.m[id]? = none) : Handled (s.register id) := by
  have hne : ∀ {id' : UInt64}, id' ∈ s.m → id ≠ id' := by
    rintro id' hmem rfl
    rw [ExtTreeMap.mem_iff_isSome_getElem?, hm] at hmem
    cases hmem
  have hstays : ∀ {id' : UInt64}, id' ∈ s.m →
      (s.m.insert id s.chans.length)[id']? = s.m[id']? := by
    intro id' hmem
    rw [ExtTreeMap.getElem?_insert, if_neg]
    rw [LawfulEqCmp.compare_eq_iff_eq]
    exact hne hmem
  simp only [State.register, hm]
  refine ⟨h.apart, fun l a hl x hx hlast => ?_, fun l x c hl => ?_, h.last⟩
  · exact ExtTreeMap.mem_insert.mpr (.inr (h.alive l a hl x hx hlast))
  · have hx := h.fresh l x c hl
    have hmem : x.responseTo ∈ s.m := by
      rw [ExtTreeMap.mem_iff_isSome_getElem?, hx]
      rfl
    rw [hstays hmem, hx]

/-- No other loop handles a response to the request that is unregistered. -/
theorem unregister {l : ℕ} {x : Response} (hl : s.loops[l]? = some (.closing x)) :
    Handled ((s.setLoop l .receiving).unregister x.responseTo) := by
  have hlast := h.last l x hl
  have hother : ∀ {i : ℕ} {a : Loop} {y : Response}, i ≠ l → s.loops[i]? = some a →
      y ∈ a.response → x.responseTo ≠ y.responseTo := by
    intro i a y hil hi hy heq
    have hfree := h.apart l i _ a (Ne.symm hil) hl hi x rfl y hy heq.symm
    rw [hlast] at hfree
    cases hfree.1
  have hidle : Handled (s.setLoop l .receiving) :=
    h.setLoop hl (fun _ hy => nomatch hy) (fun _ _ heq => nomatch heq) fun _ heq => nomatch heq
  have hkept : ∀ {i : ℕ} {a : Loop} {y : Response},
      (s.setLoop l .receiving).loops[i]? = some a → y ∈ a.response →
        x.responseTo ≠ y.responseTo := by
    intro i a y hi hy
    rcases getElem?_set_cases hi with ⟨-, rfl⟩ | ⟨hil, hi⟩
    · cases hy
    · exact hother hil hi hy
  unfold State.unregister
  split
  · exact ⟨hidle.apart, hidle.alive, hidle.fresh, hidle.last⟩
  · refine ⟨hidle.apart, fun i a hi y hy hylast => ?_, fun i y c hi => ?_, hidle.last⟩
    · refine ExtTreeMap.mem_erase.mpr ⟨?_, hidle.alive i a hi y hy hylast⟩
      rw [ne_eq, LawfulEqCmp.compare_eq_iff_eq]
      exact hkept hi hy
    · rw [ExtTreeMap.getElem?_erase, if_neg]
      · exact hidle.fresh i y c hi
      · rw [LawfulEqCmp.compare_eq_iff_eq]
        exact hkept hi rfl

end Handled

structure Calm (s : State) : Prop where
  panicked : s.panicked = false
  sound : Sound s
  numbered : Numbered s
  handled : Handled s

theorem map_id_modify (l : List Channel) (c : ℕ) {f : Channel → Channel}
    (hf : ∀ ch, (f ch).id = ch.id) : (l.modify c f).map Channel.id = l.map Channel.id := by
  apply List.ext_getElem?
  intro i
  rw [List.getElem?_map, List.getElem?_map, List.getElem?_modify, Option.map_eq_map,
    Option.map_map]
  refine Option.map_congr fun ch _ => ?_
  simp only [Function.comp_apply]
  split_ifs
  · exact hf ch
  · rfl

theorem State.numbers_modify (s : State) (c : ℕ) {f : Channel → Channel}
    (hf : ∀ ch, (f ch).id = ch.id) :
    s.pending ++ (s.chans.modify c f).map Channel.id = s.numbers := by
  rw [map_id_modify _ _ hf, State.numbers]

namespace Calm

variable {s s' : State} (h : Calm s)
include h

theorem register {i : ℕ} {id : UInt64} (hi : s.pending[i]? = some id) :
    Calm ({ s with pending := s.pending.eraseIdx i }.register id) := by
  have hm := h.numbered.not_registered h.sound hi
  have hsound : Sound { s with pending := s.pending.eraseIdx i } :=
    ⟨h.sound.mapped, h.sound.held, h.sound.closed, h.sound.own⟩
  have hhandled : Handled { s with pending := s.pending.eraseIdx i } :=
    ⟨h.handled.apart, h.handled.alive, h.handled.fresh, h.handled.last⟩
  refine ⟨?_, hsound.register id, h.numbered.of_perm ?_ ?_, hhandled.register hm⟩ <;>
    simp only [State.register, hm]
  · exact h.panicked
  · obtain ⟨hlt, rfl⟩ := List.getElem?_eq_some_iff.mp hi
    simp only [State.numbers, List.map_append, List.map_singleton]
    rw [← List.append_assoc]
    refine List.perm_append_comm.trans ?_
    rw [List.singleton_append, ← List.cons_append]
    exact (List.getElem_cons_eraseIdx_perm hlt).append_right _

/-- A channel that is still registered is open. -/
theorem send {l c : ℕ} {x : Response} (hl : s.loops[l]? = some (.sending x (some c)))
    (hs : (s.setLoop l (.sent x)).deliver c x = some s') : Calm s' := by
  obtain ⟨ch, hch, hid, hopen⟩ := h.sound.mapped _ c (h.handled.fresh l x c hl)
  have hsound : Sound (s.setLoop l (.sent x)) :=
    h.sound.setLoop fun y c heq => absurd heq (Loop.sent_ne_sending x y _)
  have hhandled := h.handled.sent hl
  have hs' := hsound.deliver ⟨ch, hch, hid⟩ hs
  simp only [State.deliver, State.setLoop, hch, hopen, ne_eq, not_true_eq_false, if_false] at hs
  split_ifs at hs
  cases hs
  refine ⟨h.panicked, hs', h.numbered.of_perm (.of_eq ?_) rfl,
    ⟨hhandled.apart, hhandled.alive, hhandled.fresh, hhandled.last⟩⟩
  exact s.numbers_modify c fun _ => rfl

theorem unregister {l : ℕ} {x : Response} (hl : s.loops[l]? = some (.closing x)) :
    Calm ((s.setLoop l .receiving).unregister x.responseTo) := by
  have hmem := h.handled.alive l _ hl x rfl (h.handled.last l x hl)
  obtain ⟨c, hc⟩ := Option.isSome_iff_exists.mp (ExtTreeMap.mem_iff_isSome_getElem?.mp hmem)
  obtain ⟨ch, hch, -, hopen⟩ := h.sound.mapped _ c hc
  have hsound : Sound (s.setLoop l .receiving) := h.sound.setLoop fun _ _ heq => nomatch heq
  refine ⟨?_, hsound.unregister _, h.numbered.of_perm (.of_eq ?_) ?_, h.handled.unregister hl⟩ <;>
    simp only [State.unregister, State.setLoop, hc, State.close]
  · rw [hch, h.panicked, Option.any_some, hopen]
    rfl
  · exact s.numbers_modify c fun _ => rfl

theorem act {a : Action} (hg : Orderly s a) (hs : act s a = some s') : Calm s' := by
  have hsound := h.sound.act hs
  cases a with
  | request =>
    cases hs
    exact ⟨h.panicked, hsound, h.numbered.request hg,
      ⟨h.handled.apart, h.handled.alive, h.handled.fresh, h.handled.last⟩⟩
  | register i =>
    obtain ⟨id, hi, hs⟩ := Option.bind_eq_some_iff.mp hs
    cases hs
    exact h.register hi
  | receive l x =>
    simp only [Routing.act] at hs
    split at hs <;> cases hs
    next hl =>
      exact ⟨h.panicked, hsound, h.numbered.of_perm (.refl _) rfl, h.handled.receive hl hg⟩
  | send l =>
    simp only [Routing.act] at hs
    split at hs
    · next x hl =>
        cases hs
        exact ⟨h.panicked, hsound, h.numbered.of_perm (.refl _) rfl, h.handled.sent hl⟩
    · next x c hl => exact h.send hl hs
    · cases hs
  | unregister l =>
    simp only [Routing.act] at hs
    split at hs <;> cases hs
    next x hl => exact h.unregister hl
  | take c =>
    cases hs
    exact ⟨h.panicked, hsound, h.numbered.of_perm (.of_eq (s.numbers_modify c fun _ => rfl)) rfl,
      ⟨h.handled.apart, h.handled.alive, h.handled.fresh, h.handled.last⟩⟩

end Calm

theorem calm_start (n : ℕ) : Calm (State.start n) := by
  refine ⟨rfl, sound_start n, ⟨.refl _, rfl, Nat.zero_le _⟩, ⟨?_, ?_, ?_, ?_⟩⟩
  · intro l l' a b _ hl _ x hx
    rw [getElem?_start hl] at hx
    cases hx
  · intro l a hl x hx
    rw [getElem?_start hl] at hx
    cases hx
  · intro l x c hl
    cases getElem?_start hl
  · intro l x hl
    cases getElem?_start hl

/-- While the peers answer in order, the loops do not panic, and the channels carry their own
responses and are closed once at most. -/
theorem routed_of_orderly (n : ℕ) (as : List Action) (hg : Meets step Orderly (State.start n) as)
    (s : State) (hr : run step (State.start n) as = some s) : s.panicked = false ∧ Routed s := by
  have hstep : ∀ s a s', Calm s → Orderly s a → step s a = some s' → Calm s' :=
    fun s a s' h hg hs => h.act hg (act_of_step hs).2
  have hcalm := run_invariant hstep (calm_start n) hg hr
  exact ⟨hcalm.panicked, hcalm.sound.routed⟩

def twoAnswers : List Action :=
  [.request, .request, .register 1, .register 0,
    .receive 0 { responseTo := 10001 }, .receive 1 { responseTo := 10000, isLast := true },
    .send 1, .send 0, .unregister 1, .take 0,
    .receive 0 { responseTo := 10001, isLast := true }, .send 0, .unregister 0]

theorem routed_twoAnswers :
    ((run step (State.start 2) twoAnswers).map fun s => s.chans.map fun ch =>
        (ch.id, ch.delivered.length, ch.closes)) = some [(10001, 2, 1), (10000, 1, 1)] ∧
      ∀ s, run step (State.start 2) twoAnswers = some s → s.panicked = false ∧ Routed s :=
  ⟨by decide +kernel, routed_of_orderly 2 twoAnswers (by decide +kernel)⟩

/-- A last response to a request that was never issued panics, and so does one that another loop
handles between lookup and delivery of a response to the same request. -/
theorem misbehaving_peer_panics :
    ((run step (State.start 1) [.receive 0 { responseTo := 5, isLast := true }, .send 0,
        .unregister 0]).map State.panicked) = some true ∧
      ((run step (State.start 2) [.request, .register 0, .receive 0 { responseTo := 10000 },
        .receive 1 { responseTo := 10000, isLast := true }, .send 1, .unregister 1,
        .send 0]).map State.panicked) = some true := by
  decide +kernel

/-- The sequential router holds for each ID what was sent on its channel. -/
def Routes (s : State) (r : Router) : Prop :=
  ∀ id : UInt64, r.m[id]? = s.m[id]?.bind fun c => s.chans[c]?.map Channel.delivered

/-- Different IDs have different channels. -/
theorem Sound.channel_ne {s : State} (h : Sound s) {id id' : UInt64} {c c' : ℕ}
    (hc : s.m[id]? = some c) (hc' : s.m[id']? = some c') (hne : id ≠ id') : c ≠ c' := by
  rintro rfl
  obtain ⟨ch, hch, hid, -⟩ := h.mapped id c hc
  obtain ⟨ch', hch', hid', -⟩ := h.mapped id' c hc'
  rw [hch] at hch'
  exact hne (hid.symm.trans (Option.some.inj hch' ▸ hid'))

/-- A channel changes only for the ID that is registered for it. -/
theorem Sound.bind_modify {s : State} (h : Sound s) {id id' : UInt64} {c : ℕ}
    (hc : s.m[id]? = some c) (hne : id ≠ id') (f : Channel → Channel) :
    (s.m[id']?.bind fun c' => (s.chans.modify c f)[c']?.map Channel.delivered) =
      s.m[id']?.bind fun c' => s.chans[c']?.map Channel.delivered := by
  refine Option.bind_congr fun c' hc' => ?_
  rw [List.getElem?_modify_ne _ _ (h.channel_ne hc hc' hne)]

theorem Routes.send {s : State} {r : Router} (hr : Routes s r) (h : Sound s) {c : ℕ} {ch : Channel}
    {x : Response} (hc : s.m[x.responseTo]? = some c) (hch : s.chans[c]? = some ch) :
    Routes { s with chans := s.chans.modify c fun ch =>
      { ch with buffer := [x], delivered := ch.delivered ++ [x] } } (r.send x.responseTo x) := by
  have hsent : r.m[x.responseTo]? = some ch.delivered := by rw [hr, hc, Option.bind_some, hch]; rfl
  intro id
  simp only [Router.send, hsent, ExtTreeMap.getElem?_insert, LawfulEqCmp.compare_eq_iff_eq]
  split_ifs with heq
  · rw [← heq, hc, Option.bind_some, getElem?_modify_of_eq _ c hch, if_pos rfl]
    rfl
  · rw [h.bind_modify hc heq]
    exact hr id

theorem Routes.unregister {s : State} {r : Router} (hr : Routes s r) (h : Sound s) (id : UInt64) :
    ((s.unregister id).panicked = (s.panicked || (r.unregister id).isNone)) ∧
      ∀ r', r.unregister id = some r' → Routes (s.unregister id) r' := by
  cases hc : s.m[id]? with
  | none =>
    have hnone : r.m[id]? = none := by rw [hr, hc, Option.bind_none]
    simp [State.unregister, Router.unregister, hc, hnone]
  | some c =>
    obtain ⟨ch, hch, -, hopen⟩ := h.mapped id c hc
    have hsent : r.m[id]? = some ch.delivered := by rw [hr, hc, Option.bind_some, hch]; rfl
    simp only [State.unregister, State.close, Router.unregister, hc, hsent, hch, Option.any_some,
      hopen, Option.isNone_some, Option.some.injEq]
    refine ⟨rfl, fun r' hr' id' => ?_⟩
    subst hr'
    simp only [ExtTreeMap.getElem?_erase, LawfulEqCmp.compare_eq_iff_eq]
    split_ifs with heq
    · rfl
    · rw [h.bind_modify hc heq]
      exact hr id'

/-- The steps of a loop from one `Recv` to the next. -/
def handling (l : ℕ) (x : Response) : List Action :=
  [.receive l x, .send l] ++ if x.isLast then [.unregister l] else []

/-- A loop that no other one interrupts does what the sequential router does. -/
theorem handling_refines {s s' : State} {r : Router} {l : ℕ} {x : Response} (h : Sound s)
    (hr : Routes s r) (hrun : run step s (handling l x) = some s') :
    s'.panicked = (r.receive x).isNone ∧ ∀ r', r.receive x = some r' → Routes s' r' := by
  rw [handling, run_append, Option.bind_eq_some_iff] at hrun
  obtain ⟨s₂, hrun, hlast⟩ := hrun
  rw [run_cons, Option.bind_eq_some_iff] at hrun
  obtain ⟨s₁, h₁, hrun⟩ := hrun
  rw [run_cons, Option.bind_eq_some_iff] at hrun
  obtain ⟨t, h₂, hrun⟩ := hrun
  cases hrun
  obtain ⟨hcalm, h₁⟩ := act_of_step h₁
  have hsound₂ := (h.act h₁).act (act_of_step h₂).2
  -- after `Send` nothing has panicked and the router has what was sent
  have hmid : s₂.panicked = false ∧ s₂.loops[l]? = some (.sent x) ∧
      Routes s₂ (r.send x.responseTo x) := by
    simp only [act] at h₁
    split at h₁ <;> cases h₁
    next hl =>
      have hlt := (List.getElem?_eq_some_iff.mp hl).1
      have h₂ := (act_of_step h₂).2
      simp only [act, State.setLoop, List.getElem?_set_self hlt] at h₂
      cases hc : s.m[x.responseTo]? with
      | none =>
        simp only [hc, List.set_set, Option.some.injEq] at h₂
        subst h₂
        have hnone : r.m[x.responseTo]? = none := by rw [hr, hc, Option.bind_none]
        simp only [Router.send, hnone]
        exact ⟨hcalm, List.getElem?_set_self hlt, hr⟩
      | some c =>
        obtain ⟨ch, hch, -, hopen⟩ := h.mapped _ c hc
        simp only [hc, State.deliver, hch, hopen, ne_eq, not_true_eq_false, if_false,
          List.set_set] at h₂
        split_ifs at h₂
        cases h₂
        exact ⟨hcalm, List.getElem?_set_self hlt, hr.send h hc hch⟩
  obtain ⟨hcalm₂, hloop, hr₂⟩ := hmid
  unfold Router.receive
  unfold Loop.sent at hloop
  by_cases hx : x.isLast
  · simp only [hx, if_true] at hlast hloop ⊢
    rw [run_cons, Option.bind_eq_some_iff] at hlast
    obtain ⟨s₃, h₃, hlast⟩ := hlast
    cases hlast
    have h₃ := (act_of_step h₃).2
    simp only [act, hloop, Option.some.injEq] at h₃
    subst h₃
    have hidle : Sound (s₂.setLoop l .receiving) := hsound₂.setLoop fun _ _ heq => nomatch heq
    obtain ⟨hp, hroutes⟩ :=
      Routes.unregister (s := s₂.setLoop l .receiving) hr₂ hidle x.responseTo
    rw [hp]
    exact ⟨by simp [State.setLoop, hcalm₂], hroutes⟩
  · simp only [hx] at hlast ⊢
    cases hlast
    refine ⟨hcalm₂, fun r' hr' => ?_⟩
    cases hr'
    exact hr₂

end Ecos.Rainbow.Routing
