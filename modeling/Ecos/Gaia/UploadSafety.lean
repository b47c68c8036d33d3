import Ecos.Gaia.StoredBlock
import Ecos.Logic.Machine

namespace Ecos.Gaia
open Go Moon Logic

variable (n : Node)

structure Conversation where
  session : Session := {}
  received : List Payload := []

namespace Conversation

def receive (c : Conversation) (payload : Payload) : Option Conversation :=
  some ⟨c.session.handle n payload, c.received ++ [payload]⟩

def blockId (c : Conversation) : Option Bytes :=
  match c.received with
  | .message msg :: _ => msg.block.map BlockInfo.blockId
  | _ => none

end Conversation

/-- One `BEGIN`, chunks, and one `EOF` for the same block. -/
def WholeBlock (payloads : List Payload) : Prop :=
  ∃ (first last : ControlMessage) (chunks : List Bytes) (blockId : Bytes),
    payloads = .message first :: chunks.map Payload.chunk ++ [.message last] ∧
      first.code = .BEGIN ∧ last.code = .EOF ∧ first.block.map BlockInfo.blockId = some blockId ∧
      last.block.map BlockInfo.blockId = some blockId

structure Safe (c : Conversation) : Prop where
  ended : c.session.ended ≠ some .panicked
  once : c.session.results.length ≤ 1
  whole : ∀ r ∈ c.session.results, r.status = .OK → WholeBlock c.received

def Node.knows (term : UInt64) (p : Pipeline) : Bool :=
  match n.getClusterInfoByTerm term with
  | .error _ => true
  | .ok clusterInfo =>
    (p.raftId.filter (· ≠ n.selfID)).all fun y => (getNodeInfo clusterInfo y).isSome

def MessageFits (c : Conversation) (msg : ControlMessage) : Code → Prop
  | .BEGIN => c.received = [] ∧ msg.block ≠ none ∧ msg.pipeline.any (n.knows msg.term)
  | .EOF => msg.block ≠ none ∧ msg.block.map BlockInfo.blockId = c.blockId
  | .unknown _ => True

def Fits (c : Conversation) : Payload → Prop
  | .message msg => MessageFits n c msg msg.code
  | .chunk _ => c.received ≠ []
  | .blank => True

/-- The peer sends nothing after a result. It begins with a complete `BEGIN` to known nodes, and
ends with the `EOF` of its block. -/
def Orderly (c : Conversation) (payload : Payload) : Prop :=
  c.session.results = [] ∧ Fits n c payload

instance (c : Conversation) (msg : ControlMessage) : ∀ code, Decidable (MessageFits n c msg code)
  | .BEGIN => inferInstanceAs (Decidable (_ ∧ _))
  | .EOF => inferInstanceAs (Decidable (_ ∧ _))
  | .unknown _ => isTrue trivial

instance (c : Conversation) : ∀ payload, Decidable (Fits n c payload)
  | .message msg => inferInstanceAs (Decidable (MessageFits n c msg msg.code))
  | .chunk _ => inferInstanceAs (Decidable (_ ≠ _))
  | .blank => isTrue trivial

instance (c : Conversation) (payload : Payload) : Decidable (Orderly n c payload) :=
  inferInstanceAs (Decidable (_ ∧ _))

inductive Phase : Conversation → Prop
  | fresh : Phase {}
  /-- after `BEGIN` -/
  | receiving {c : Conversation} {first : ControlMessage} (chunks : List Bytes)
      (hreceived : c.received = .message first :: chunks.map Payload.chunk)
      (hfirst : first.code = .BEGIN) (hended : c.session.ended = none)
      (hresults : c.session.results = []) (hinfo : c.session.transporter.info ≠ none) : Phase c
  /-- after the handler returned an error -/
  | returned {c : Conversation} {e : Errno} (hreceived : c.received ≠ [])
      (hended : c.session.ended = some (.returned (some e)))
      (hresults : c.session.results = []) : Phase c
  | answered {c : Conversation} {r : Result} (hended : c.session.ended ≠ some .panicked)
      (hresults : c.session.results = [r]) (hwhole : r.status = .OK → WholeBlock c.received) :
      Phase c

theorem Phase.safe {c : Conversation} (h : Phase c) : Safe c := by
  cases h with
  | fresh => exact ⟨nofun, Nat.zero_le 1, fun r hr => absurd hr List.not_mem_nil⟩
  | receiving _ _ _ hended hresults _ =>
    refine ⟨by rw [hended]; nofun, by rw [hresults]; exact Nat.zero_le 1, fun r hr => ?_⟩
    rw [hresults] at hr
    cases hr
  | returned _ hended hresults =>
    refine ⟨by rw [hended]; nofun, by rw [hresults]; exact Nat.zero_le 1, fun r hr => ?_⟩
    rw [hresults] at hr
    cases hr
  | answered hended hresults hwhole =>
    refine ⟨hended, by rw [hresults]; exact Nat.le_refl 1, fun r hr => ?_⟩
    rw [hresults, List.mem_singleton] at hr
    exact hr ▸ hwhole

variable {n}

theorem multiWrite_info (t : PrimaryCopyTransporter) (c : Bytes) :
    (t.multiWrite n c).1.info = t.info := by
  unfold PrimaryCopyTransporter.multiWrite
  split
  · rfl
  · split_ifs <;> rfl

/-- A transporter with a block info writes without a panic, and keeps it. -/
theorem write_of_info {t : PrimaryCopyTransporter} (h : t.info ≠ none) (c : Bytes) :
    ∃ t' err, t.write n c = some (t', err) ∧ t'.info = t.info := by
  obtain ⟨info, hinfo⟩ := Option.ne_none_iff_exists'.mp h
  unfold PrimaryCopyTransporter.write
  cases t.localWriter with
  | some w => exact ⟨_, _, rfl, multiWrite_info t c⟩
  | none =>
    simp only [PrimaryCopyTransporter.init, PrimaryCopyTransporter.getStoragePath, hinfo,
      Option.map_some, Option.bind_eq_bind, Option.bind_some]
    split_ifs
    · exact ⟨_, _, rfl, multiWrite_info _ c⟩
    · exact ⟨_, _, rfl, hinfo⟩

/-- `BEGIN` to known nodes makes a transporter. -/
theorem newPrimaryCopyTransporter_of_knows (info : BlockInfo) {term : UInt64} {p : Pipeline}
    {clusterInfo : ClusterInfo} (hknows : n.knows term p)
    (hinfo : n.getClusterInfoByTerm term = .ok clusterInfo) :
    ∃ t, newPrimaryCopyTransporter (some info) (some p) n.selfID clusterInfo n.basePath = some t ∧
      t.info = some info := by
  simp only [Node.knows, hinfo, List.all_eq_true] at hknows
  obtain ⟨ws, hws⟩ := @mapM_newRemoteWriter_isSome info p _ _ hknows
  simp only [newPrimaryCopyTransporter, Option.bind_eq_bind, Option.bind_some]
  rw [hws]
  exact ⟨_, rfl, rfl⟩

/-- A result that is not `OK` ends an orderly conversation. -/
theorem Phase.of_fail {c : Conversation} {r : Result} (hended : c.session.ended ≠ some .panicked)
    (hresults : c.session.results = [r]) (hfail : r.status ≠ .OK) : Phase c :=
  .answered hended hresults fun hok => absurd hok hfail

theorem Phase.begin {msg : ControlMessage} (hcode : msg.code = .BEGIN) (hblock : msg.block ≠ none)
    (hknows : msg.pipeline.any (n.knows msg.term)) :
    Phase ⟨Session.processBegin n {} msg, [.message msg]⟩ := by
  obtain ⟨info, hinfo⟩ := Option.ne_none_iff_exists'.mp hblock
  obtain ⟨p, hp, hknows⟩ : ∃ p, msg.pipeline = some p ∧ n.knows msg.term p := by
    cases hp : msg.pipeline with
    | none => simp [hp] at hknows
    | some p => exact ⟨p, rfl, by simpa [hp] using hknows⟩
  unfold Session.processBegin
  cases hterm : n.getClusterInfoByTerm msg.term with
  | error e =>
    simp only [hp, reduceCtorEq, if_false]
    exact .returned (by simp) rfl rfl
  | ok clusterInfo =>
    obtain ⟨t, ht, htinfo⟩ := newPrimaryCopyTransporter_of_knows info hknows hterm
    simp only [hinfo, hp, ht, reduceCtorEq, if_false]
    exact .receiving [] rfl hcode rfl rfl (by simp [htinfo])

theorem Phase.eof {c : Conversation} {first msg : ControlMessage} {chunks : List Bytes}
    (hreceived : c.received = .message first :: chunks.map Payload.chunk)
    (hfirst : first.code = .BEGIN) (hended : c.session.ended = none)
    (hresults : c.session.results = []) (hcode : msg.code = .EOF) (hblock : msg.block ≠ none)
    (hsame : msg.block.map BlockInfo.blockId = c.blockId) :
    Phase ⟨c.session.processEOF n msg, c.received ++ [.message msg]⟩ := by
  obtain ⟨info, hinfo⟩ := Option.ne_none_iff_exists'.mp hblock
  unfold Session.processEOF
  cases hclose : c.session.transporter.close n with
  | mk t err =>
    cases err with
    | some e =>
      refine .of_fail (r := ⟨.FAIL, 0, e.error⟩) ?_ ?_ (by simp)
      · simp [Session.sendAndClose, hended]
      · simp [Session.sendAndClose, hresults]
    | none =>
      simp only [hblock, if_false]
      refine .answered (r := ⟨.OK, 0, ""⟩) ?_ ?_ fun _ => ?_
      · simp [Session.sendAndClose, hended]
      · simp [Session.sendAndClose, hresults]
      · have hid : msg.block.map BlockInfo.blockId = some info.blockId := by rw [hinfo]; rfl
        have hfirstId : first.block.map BlockInfo.blockId = some info.blockId := by
          rw [← hid, hsame, Conversation.blockId, hreceived]
        exact ⟨first, msg, chunks, info.blockId, by rw [hreceived], hfirst, hcode, hfirstId, hid⟩

theorem Phase.chunk {c : Conversation} {first : ControlMessage} {chunks : List Bytes} {data : Bytes}
    (hreceived : c.received = .message first :: chunks.map Payload.chunk)
    (hfirst : first.code = .BEGIN) (hended : c.session.ended = none)
    (hresults : c.session.results = []) (hinfo : c.session.transporter.info ≠ none) :
    Phase ⟨c.session.processChunk n data, c.received ++ [.chunk data]⟩ := by
  obtain ⟨t, err, hwrite, ht⟩ := write_of_info (n := n) hinfo data
  unfold Session.processChunk
  rw [hwrite]
  cases err with
  | some e =>
    refine .of_fail (r := ⟨.FAIL, Errno.transporterWriteFail.code,
      Errno.transporterWriteFail.error ++ e.error⟩) ?_ ?_ (by simp)
    · simp [Session.sendAndClose, hended]
    · simp [Session.sendAndClose, hresults]
  | none =>
    refine .receiving (chunks ++ [data]) ?_ hfirst hended hresults ?_
    · simp [hreceived]
    · simpa [ht] using hinfo

theorem Phase.receive {c c' : Conversation} {payload : Payload} (h : Phase c)
    (hg : Orderly n c payload) (hc : c.receive n payload = some c') : Phase c' := by
  obtain ⟨hempty, hfits⟩ := hg
  cases hc
  have hne : c.received ++ [payload] ≠ [] := by simp
  -- a handler that has returned leaves everything as it is
  by_cases hended : c.session.ended = none
  · cases payload with
    | blank =>
      refine .of_fail (r := ⟨.FAIL, 0, ""⟩) ?_ ?_ (by simp) <;>
        simp [Session.handle, hended, Session.sendAndClose, hempty]
    | chunk data =>
      rw [Session.handle_chunk hended]
      cases h with
      | fresh => exact absurd rfl hfits
      | receiving _ hreceived hfirst _ _ hinfo => exact .chunk hreceived hfirst hended hempty hinfo
      | returned _ hreturned _ => rw [hended] at hreturned; cases hreturned
      | answered _ hresults _ => rw [hempty] at hresults; cases hresults
    | message msg =>
      rw [Session.handle_message hended]
      unfold Session.processControlMessage
      rw [Fits] at hfits
      cases hcode : msg.code with
      | unknown code =>
        refine .of_fail (r := ⟨.FAIL, 0, ""⟩) ?_ ?_ (by simp) <;>
          simp [Session.sendAndClose, hended, hempty]
      | BEGIN =>
        rw [hcode] at hfits
        obtain ⟨hreceived, hblock, hknows⟩ := hfits
        cases h with
        | fresh => exact .begin hcode hblock hknows
        | receiving _ hr _ _ _ _ => rw [hreceived] at hr; cases hr
        | returned hr _ _ => exact absurd hreceived hr
        | answered _ hresults _ => rw [hempty] at hresults; cases hresults
      | EOF =>
        rw [hcode] at hfits
        obtain ⟨hblock, hsame⟩ := hfits
        cases h with
        | fresh =>
          rw [show ({} : Conversation).blockId = none from rfl, Option.map_eq_none_iff] at hsame
          exact absurd hsame hblock
        | receiving _ hreceived hfirst _ _ _ =>
          exact .eof hreceived hfirst hended hempty hcode hblock hsame
        | returned _ hreturned _ => rw [hended] at hreturned; cases hreturned
        | answered _ hresults _ => rw [hempty] at hresults; cases hresults
  · rw [Session.handle_of_ended hended]
    cases h with
    | fresh => exact absurd rfl hended
    | receiving _ _ _ hopen _ _ => exact absurd hopen hended
    | returned _ hreturned _ => exact .returned hne hreturned hempty
    | answered _ hresults _ => rw [hempty] at hresults; cases hresults

/-- The conversation after these payloads is that of `uploadBlockData`. -/
theorem run_receive (c : Conversation) (payloads : List Payload) :
    run (Conversation.receive n) c payloads =
      some ⟨payloads.foldl (Session.handle n) c.session, c.received ++ payloads⟩ := by
  induction payloads generalizing c with
  | nil => rw [run_nil, List.append_nil]; rfl
  | cons payload payloads ih =>
    rw [run_cons, Conversation.receive, Option.bind_some, ih, List.append_assoc]
    rfl

/-- For an orderly peer the handler does not panic, sends one result at most, and sends `OK` only
for a whole block. -/
theorem safe_of_orderly (n : Node) (payloads : List Payload)
    (hg : Meets (Conversation.receive n) (Orderly n) {} payloads) :
    Safe ⟨uploadBlockData n payloads, payloads⟩ := by
  have hstep : ∀ c payload c', Phase c → Orderly n c payload → c.receive n payload = some c' →
      Phase c' := fun _ _ _ h hg hc => h.receive hg hc
  exact (run_invariant hstep .fresh hg (run_receive {} payloads)).safe

/-- Node 1 of three, whose remote writers are answered `OK`. -/
def firstNode : Node where
  selfID := 1
  basePath := []
  getClusterInfoByTerm _ := .ok threeNodes
  reply _ _ := some ⟨.OK, 0, ""⟩

def uploadedBlock : BlockInfo := { blockId := [98], blockSize := 2 }

def wholeUpload : List Payload :=
  transfer uploadedBlock { raftId := [1, 2, 3] } 1 none 1 [[7], [8]]

theorem safe_wholeUpload :
    (uploadBlockData firstNode wholeUpload).results = [⟨.OK, 0, ""⟩] ∧
      Safe ⟨uploadBlockData firstNode wholeUpload, wholeUpload⟩ :=
  ⟨by decide +kernel, safe_of_orderly firstNode wholeUpload (by decide +kernel)⟩

/-- An `EOF` alone is answered `OK`, a chunk without `BEGIN` panics, and two `EOF`s are answered
twice. -/
theorem disorderly_peer_unsafe :
    ((uploadBlockData firstNode [.message ⟨.EOF, some uploadedBlock, none, 0⟩]).results =
        [⟨.OK, 0, ""⟩] ∧ ¬ WholeBlock [.message ⟨.EOF, some uploadedBlock, none, 0⟩]) ∧
      (uploadBlockData firstNode [.chunk [7]]).ended = some .panicked ∧
      (uploadBlockData firstNode [.message ⟨.EOF, some uploadedBlock, none, 0⟩,
        .message ⟨.EOF, some uploadedBlock, none, 0⟩]).results.length = 2 := by
  refine ⟨⟨by decide +kernel, ?_⟩, by decide +kernel, by decide +kernel⟩
  rintro ⟨first, last, chunks, blockId, hpayloads, -⟩
  have hlen := congrArg List.length hpayloads
  simp at hlen

end Ecos.Gaia
