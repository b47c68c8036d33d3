import Ecos.Client.Upload
import Ecos.Rainbow.CloudGaia

namespace Ecos.Gaia
open Go Moon

variable {n : Node} {info : BlockInfo} {p : Pipeline} {term : UInt64} {chunks : List Bytes}

variable (n) in
def written (t : PrimaryCopyTransporter) : List Bytes → Option PrimaryCopyTransporter
  | [] => some t
  | c :: chunks =>
    match t.write n c with
    | some (t', none) => written t' chunks
    | _ => none

/-- The transporter of a block has written every chunk and was closed, without an error. -/
def Acknowledged (n : Node) (info : BlockInfo) (p : Pipeline) (term : UInt64)
    (chunks : List Bytes) : Prop :=
  ∃ clusterInfo t t', n.getClusterInfoByTerm term = .ok clusterInfo ∧
    newPrimaryCopyTransporter (some info) (some p) n.selfID clusterInfo n.basePath = some t ∧
    written n t chunks = some t' ∧ (t'.close n).2 = none

theorem written_receiving {before : List Bytes} (h : n.Writes info p (before ++ chunks)) :
    written n (receiving n info p before) chunks =
      some (receiving n info p (before ++ chunks)) := by
  induction chunks generalizing before with
  | nil => rw [List.append_nil, written]
  | cons c chunks ih =>
    obtain ⟨t, err, hw, hiff⟩ := @receiving_write_err_iff n info p before c
    have hc : n.WritesNext info p before c := h before c ⟨chunks, by simp⟩
    obtain rfl := hiff.mpr hc
    rw [List.append_cons] at h ⊢
    rw [written, hw, receiving_write hw]
    exact ih h

theorem acknowledged_of_replies (hbegins : n.Begins p term) (hwrites : n.Writes info p chunks)
    (hreplies : n.Replies info p chunks) : Acknowledged n info p term chunks := by
  obtain ⟨clusterInfo, hinfo, hknown⟩ := hbegins
  obtain ⟨ws, hws⟩ := @mapM_newRemoteWriter_isSome info p _ _ hknown
  obtain ⟨t, ht⟩ : ∃ t, newPrimaryCopyTransporter (some info) (some p) n.selfID clusterInfo
      n.basePath = some t := by
    simp only [newPrimaryCopyTransporter, Option.bind_eq_bind, Option.bind_some]
    rw [← Node.others, hws]
    exact ⟨_, rfl⟩
  refine ⟨clusterInfo, t, receiving n info p chunks, hinfo, ht, ?_,
    receiving_close_iff.mpr hreplies⟩
  rw [newPrimaryCopyTransporter_eq ht]
  exact written_receiving hwrites

end Ecos.Gaia

namespace Ecos.Client
open Go Moon Gaia Rainbow

inductive Server where
  | edge (n : Node)
  | cloud (g : CloudGaia)

namespace Server

def uploadBlockData : Server → List Payload → Session
  | edge n, payloads => Gaia.uploadBlockData n payloads
  | cloud g, payloads => g.uploadBlockData payloads

def node : Server → Node
  | edge n => n
  | cloud g => g.node

def pipeline : Server → Pipeline → Pipeline
  | edge _, p => p
  | cloud _, _ => CloudGaia.pipeline

theorem uploadBlockData_take (server : Server) (info : BlockInfo) (p : Pipeline) (term : UInt64)
    (chunks : List Bytes) (m : ℕ) :
    server.uploadBlockData ((transfer info p term (some p) term chunks).take m) =
      Gaia.uploadBlockData server.node ((transfer info (server.pipeline p) term
        (some (server.pipeline p)) term chunks).take m) := by
  cases server with
  | edge n => rfl
  | cloud g =>
    have hmap : (transfer info p term (some p) term chunks).map redirect =
        transfer info CloudGaia.pipeline term (some CloudGaia.pipeline) term chunks := by
      simp [transfer, redirect]
    exact (g.uploadBlockData_eq _).trans (by rw [List.map_take, hmap]; rfl)

end Server

inductive SendOutcome where
  | sent
  /-- `io.EOF`: the stream has ended -/
  | eof
  | failed (e : Errno)
  deriving DecidableEq, Repr

structure UploadStream where
  server : Server
  /-- after how many payloads the server's context is done -/
  doneAfter : Option ℕ := none
  /-- what sending the last of these payloads returns -/
  send : List Payload → SendOutcome := fun _ => .sent
  /-- whether the answer gets through -/
  recv : Bool := true

structure Sending where
  delivered : List Payload := []
  ended : Bool := false

inductive Dial where
  /-- no info of the node, whose nil address is dereferenced -/
  | unknown
  /-- no connection or no stream -/
  | refused
  | opened (st : UploadStream)

namespace UploadStream
variable (st : UploadStream)

/-- `stream.Send`, with `io.EOF` ignored as `uploadByStream` does. -/
def sendOne (s : Sending) (payload : Payload) : Except Errno Sending :=
  if s.ended then .ok s
  else
    match st.send (s.delivered ++ [payload]) with
    | .sent => .ok { s with delivered := s.delivered ++ [payload] }
    | .eof => .ok { s with ended := true }
    | .failed e => .error e

def sendAll (s : Sending) (payloads : List Payload) : Except Errno Sending :=
  payloads.foldlM st.sendOne s

def serve (delivered : List Payload) : Session :=
  match st.doneAfter with
  | none => st.server.uploadBlockData delivered
  | some k =>
    if k ≤ delivered.length then (st.server.uploadBlockData (delivered.take k)).shutDown
    else st.server.uploadBlockData delivered

/-- `CloseAndRecv`; a stream that ends before its handler is broken. -/
def closeAndRecv (s : Sending) : Option Result :=
  if st.recv ∧ (s.ended → (st.serve s.delivered).ended ≠ none) then (st.serve s.delivered).answer
  else none

/-- The first `m` of these payloads are sent, and the stream has ended at the next one. -/
def Sends (payloads : List Payload) (m : ℕ) : Prop :=
  m ≤ payloads.length ∧ (∀ i < m, st.send (payloads.take (i + 1)) = .sent) ∧
    (m < payloads.length → st.send (payloads.take (m + 1)) = .eof)

end UploadStream

namespace Block
variable (b : Block) (p : Pipeline) (term : UInt64)

def contents : List Bytes := b.chunks.map LocalChunk.content

def byteCount : UInt64 := UInt64.ofNat (b.chunks.map fun c => c.data.length - c.freeSize).sum

/-- `uploadByStream` up to the result that `CloseAndRecv` returns. -/
def exchange (st : UploadStream) : Except Errno Result := do
  let s ← st.sendAll {} (.message ⟨.BEGIN, some b.info, some p, term⟩ ::
    b.contents.map Payload.chunk)
  if b.byteCount ≠ b.info.blockSize then .error (.other "incompatible upload size")
  else
    let s ← st.sendOne s (.message ⟨.EOF, some b.info, some p, term⟩)
    match st.closeAndRecv s with
    | none => .error (.other "recv")
    | some r => .ok r

/-- `uploadByStream`, which does not look at the result. -/
def uploadByStream (st : UploadStream) : Except Errno Unit := do
  let _ ← b.exchange p term st
  return ()

/-- `uploadByCloud`, given the stream to the cloud if there is one. -/
def uploadByCloud : Option UploadStream → Except Errno Unit
  | none => .error (.other "connection")
  | some st => b.uploadByStream p term st

/-- `uploadByEdge`, given what the client gets from each node of the pipeline; `none` where it
panics. -/
def uploadByEdge : List Dial → Option (Except Errno Unit)
  | [] => some (.error .remoteGaiaFail)
  | .unknown :: _ => none
  | .refused :: dials => uploadByEdge dials
  | .opened st :: dials =>
    match b.uploadByStream p term st with
    | .error _ => uploadByEdge dials
    | .ok () => some (.ok ())

/-- The server has answered `OK`, and it has written all chunks and closed the block on all nodes
of the pipeline. -/
def Stored (st : UploadStream) : Prop :=
  (∃ r, b.exchange p term st = .ok r ∧ r.status = .OK) ∧
    Acknowledged st.server.node b.info (st.server.pipeline p) term b.contents

def payloads : List Payload := transfer b.info p term (some p) term b.contents

/-- The server's context is done within the `m` payloads that it gets, before the `EOF` and
before any failure. -/
def Interrupted (st : UploadStream) (m : ℕ) : Prop :=
  ∃ k ≤ m, st.doneAfter = some k ∧
    st.server.node.Accepts b.info (st.server.pipeline p) term b.contents k

structure Completed (st : UploadStream) (m : ℕ) : Prop where
  delivered : m = (b.payloads p term).length
  inTime : ∀ k ∈ st.doneAfter, m < k
  begins : st.server.node.Begins (st.server.pipeline p) term
  writes : st.server.node.Writes b.info (st.server.pipeline p) b.contents

/-- The answer gets through, and it is a failure: the server was interrupted, or another node of
the pipeline has not taken the block. -/
def Refused (st : UploadStream) : Prop :=
  b.byteCount = b.info.blockSize ∧ st.recv = true ∧ ∃ m, st.Sends (b.payloads p term) m ∧
    (b.Interrupted p term st m ∨ b.Completed p term st m ∧
      ¬ st.server.node.Replies b.info (st.server.pipeline p) b.contents)

/-- The answer gets through, and all nodes of the pipeline have taken the block. -/
def Approved (st : UploadStream) : Prop :=
  b.byteCount = b.info.blockSize ∧ st.recv = true ∧ ∃ m, st.Sends (b.payloads p term) m ∧
    b.Completed p term st m ∧ st.server.node.Replies b.info (st.server.pipeline p) b.contents

/-- The stream whose answer `uploadByEdge` ends with. -/
inductive Settles : List Dial → UploadStream → Prop
  | answered {st : UploadStream} {dials : List Dial}
      (h : b.Refused p term st ∨ b.Approved p term st) : Settles (.opened st :: dials) st
  | refused {st : UploadStream} {dials : List Dial} (h : Settles dials st) :
      Settles (.refused :: dials) st
  | failed {st st' : UploadStream} {dials : List Dial}
      (hno : ¬ (b.Refused p term st' ∨ b.Approved p term st')) (h : Settles dials st) :
      Settles (.opened st' :: dials) st

end Block

namespace UploadStream
variable {st : UploadStream} {s : Sending} {payload : Payload} {payloads : List Payload} {m : ℕ}

theorem take_concat_succ {i : ℕ} (hi : i < payloads.length) :
    (payloads ++ [payload]).take (i + 1) = payloads.take (i + 1) :=
  List.take_append_of_le_length (by omega)

theorem take_concat_all : (payloads ++ [payload]).take (payloads.length + 1) =
    payloads ++ [payload] :=
  List.take_of_length_le (by simp)

/-- One more payload is sent after all others, or meets the end of the stream there, or comes
after that end. -/
theorem sends_concat_iff : st.Sends (payloads ++ [payload]) m ↔
    (m < payloads.length ∧ st.Sends payloads m) ∨
      st.Sends payloads payloads.length ∧
        (m = payloads.length ∧ st.send (payloads ++ [payload]) = .eof ∨
          m = payloads.length + 1 ∧ st.send (payloads ++ [payload]) = .sent) := by
  unfold Sends
  rw [List.length_append, List.length_singleton]
  constructor
  · rintro ⟨hm, hsent, heof⟩
    have hbefore : ∀ i < m, i < payloads.length → st.send (payloads.take (i + 1)) = .sent :=
      fun i hi hlt => @take_concat_succ payload payloads i hlt ▸ hsent i hi
    rcases lt_trichotomy m payloads.length with hlt | rfl | hgt
    · refine .inl ⟨hlt, hlt.le, fun i hi => hbefore i hi (by omega), fun _ => ?_⟩
      rw [← @take_concat_succ payload payloads m hlt]
      exact heof (by omega)
    · refine .inr ⟨⟨le_rfl, fun i hi => hbefore i hi hi, fun h => absurd h (lt_irrefl _)⟩,
        .inl ⟨rfl, ?_⟩⟩
      rw [← take_concat_all]
      exact heof (by omega)
    · obtain rfl : m = payloads.length + 1 := by omega
      refine .inr ⟨⟨le_rfl, fun i hi => hbefore i (by omega) hi, fun h => absurd h (lt_irrefl _)⟩,
        .inr ⟨rfl, ?_⟩⟩
      rw [← take_concat_all]
      exact hsent payloads.length (by omega)
  · rintro (⟨hlt, -, hsent, heof⟩ | ⟨⟨-, hsent, -⟩, ⟨rfl, hlast⟩ | ⟨rfl, hlast⟩⟩)
    · refine ⟨by omega, fun i hi => ?_, fun _ => ?_⟩
      · rw [take_concat_succ (by omega)]
        exact hsent i hi
      · rw [take_concat_succ hlt]
        exact heof hlt
    · refine ⟨by omega, fun i hi => ?_, fun _ => ?_⟩
      · rw [take_concat_succ hi]
        exact hsent i hi
      · rw [take_concat_all]
        exact hlast
    · refine ⟨le_rfl, fun i hi => ?_, fun h => absurd h (lt_irrefl _)⟩
      rcases Nat.lt_succ_iff_lt_or_eq.mp hi with hi | rfl
      · rw [take_concat_succ hi]
        exact hsent i hi
      · rw [take_concat_all]
        exact hlast

theorem sendOne_ended {delivered : List Payload} :
    st.sendOne ⟨delivered, true⟩ payload = .ok s ↔ s = ⟨delivered, true⟩ := by
  simp [sendOne, eq_comm]

theorem sendOne_open {delivered : List Payload} :
    st.sendOne ⟨delivered, false⟩ payload = .ok s ↔
      (st.send (delivered ++ [payload]) = .eof ∧ s = ⟨delivered, true⟩) ∨
        st.send (delivered ++ [payload]) = .sent ∧ s = ⟨delivered ++ [payload], false⟩ := by
  unfold sendOne
  cases st.send (delivered ++ [payload]) <;> simp [eq_comm]

theorem sendAll_concat : st.sendAll {} (payloads ++ [payload]) = .ok s ↔
    ∃ s₁, st.sendAll {} payloads = .ok s₁ ∧ st.sendOne s₁ payload = .ok s := by
  unfold sendAll
  rw [List.foldlM_append]
  cases payloads.foldlM st.sendOne {} with
  | error e => simp [bind, Except.bind]
  | ok s₁ =>
    simp only [bind, Except.bind, List.foldlM_cons, List.foldlM_nil, Except.ok.injEq,
      exists_eq_left']
    cases st.sendOne s₁ payload <;> simp [pure, Except.pure]

/-- What has been sent is what the outcomes of the sends say. -/
theorem sendAll_iff : st.sendAll {} payloads = .ok s ↔
    ∃ m, st.Sends payloads m ∧ s = ⟨payloads.take m, decide (m < payloads.length)⟩ := by
  induction payloads using List.reverseRecOn generalizing s with
  | nil =>
    constructor
    · intro h
      cases h
      exact ⟨0, ⟨le_rfl, by simp, by simp⟩, rfl⟩
    · rintro ⟨m, ⟨hm, -⟩, rfl⟩
      simp [sendAll, pure, Except.pure]
  | append_singleton payloads payload ih =>
    rw [sendAll_concat]
    constructor
    · rintro ⟨s₁, h₁, h⟩
      obtain ⟨m, hm, rfl⟩ := ih.mp h₁
      rcases Nat.lt_or_eq_of_le hm.1 with hlt | rfl
      · -- the stream had ended before
        rw [decide_eq_true hlt, sendOne_ended] at h
        refine ⟨m, sends_concat_iff.mpr (.inl ⟨hlt, hm⟩), ?_⟩
        rw [h, List.take_append_of_le_length hm.1, decide_eq_true (by simp; omega)]
      · rw [List.take_length, decide_eq_false (lt_irrefl _), sendOne_open] at h
        rcases h with ⟨hlast, rfl⟩ | ⟨hlast, rfl⟩
        · exact ⟨_, sends_concat_iff.mpr (.inr ⟨hm, .inl ⟨rfl, hlast⟩⟩), by simp⟩
        · exact ⟨_, sends_concat_iff.mpr (.inr ⟨hm, .inr ⟨rfl, hlast⟩⟩), by simp⟩
    · rintro ⟨m, hm, rfl⟩
      rcases sends_concat_iff.mp hm with ⟨hlt, hm⟩ | ⟨hall, ⟨rfl, hlast⟩ | ⟨rfl, hlast⟩⟩
      · refine ⟨_, ih.mpr ⟨m, hm, rfl⟩, ?_⟩
        rw [decide_eq_true hlt, sendOne_ended, List.take_append_of_le_length hlt.le,
          decide_eq_true (by simp; omega)]
      · refine ⟨_, ih.mpr ⟨_, hall, rfl⟩, ?_⟩
        rw [List.take_length, decide_eq_false (lt_irrefl _), sendOne_open]
        exact .inl ⟨hlast, by simp⟩
      · refine ⟨_, ih.mpr ⟨_, hall, rfl⟩, ?_⟩
        rw [List.take_length, decide_eq_false (lt_irrefl _), sendOne_open]
        exact .inr ⟨hlast, by simp⟩

theorem shutDown_ended_ne (session : Session) : session.shutDown.ended ≠ none := by
  unfold Session.shutDown
  split_ifs with h
  · exact h
  · simp

end UploadStream

namespace Block
variable {b : Block} {p : Pipeline} {term : UInt64} {st : UploadStream} {r : Result} {m : ℕ}

theorem uploadBlockData_payloads (m : ℕ) :
    st.server.uploadBlockData ((b.payloads p term).take m) =
      Gaia.uploadBlockData st.server.node ((transfer b.info (st.server.pipeline p) term
        (some (st.server.pipeline p)) term b.contents).take m) :=
  st.server.uploadBlockData_take b.info p term b.contents m

/-- A server whose context is done answers with a `FAIL`, or not at all. -/
theorem closeAndRecv_done {k : ℕ} (hk : k ≤ m) (hm : m ≤ (b.payloads p term).length)
    (hdone : st.doneAfter = some k) :
    st.closeAndRecv ⟨(b.payloads p term).take m, decide (m < (b.payloads p term).length)⟩ = some r ↔
      st.recv = true ∧ st.server.node.Accepts b.info (st.server.pipeline p) term b.contents k ∧
        r = ⟨.FAIL, Errno.gaiaClosed.code, Errno.gaiaClosed.error⟩ := by
  have hserve : st.serve ((b.payloads p term).take m) =
      (st.server.uploadBlockData ((b.payloads p term).take k)).shutDown := by
    unfold UploadStream.serve
    rw [hdone, List.length_take, min_eq_left hm]
    simp only [hk, if_true]
    rw [List.take_take, min_eq_left hk]
  unfold UploadStream.closeAndRecv
  dsimp only
  rw [hserve, uploadBlockData_payloads, ← answer_shutDown st.server.node b.info
    (st.server.pipeline p) term (some (st.server.pipeline p)) term b.contents k]
  have hended := UploadStream.shutDown_ended_ne (Gaia.uploadBlockData st.server.node
    ((transfer b.info (st.server.pipeline p) term (some (st.server.pipeline p)) term
      b.contents).take k))
  cases st.recv <;> simp [hended]

/-- A server that is not interrupted answers an upload that it gets to the end. -/
theorem closeAndRecv_inTime (hm : m ≤ (b.payloads p term).length)
    (hdone : ∀ k ∈ st.doneAfter, m < k) :
    st.closeAndRecv ⟨(b.payloads p term).take m, decide (m < (b.payloads p term).length)⟩ = some r ↔
      st.recv = true ∧ m = (b.payloads p term).length ∧
        (Gaia.uploadBlockData st.server.node (transfer b.info (st.server.pipeline p) term
          (some (st.server.pipeline p)) term b.contents)).answer = some r := by
  have hserve : st.serve ((b.payloads p term).take m) =
      st.server.uploadBlockData ((b.payloads p term).take m) := by
    unfold UploadStream.serve
    split
    · rfl
    · next k hk =>
      rw [List.length_take, min_eq_left hm, if_neg (by have := hdone k hk; omega)]
  have hlength : (b.payloads p term).length = (transfer b.info (st.server.pipeline p) term
      (some (st.server.pipeline p)) term b.contents).length := by
    simp [payloads, transfer]
  unfold UploadStream.closeAndRecv
  dsimp only
  rw [hserve, uploadBlockData_payloads]
  rcases Nat.lt_or_eq_of_le hm with hlt | heq
  · -- the handler still waits, or has failed
    rw [decide_eq_true hlt]
    refine iff_of_false ?_ (by omega)
    intro h
    split_ifs at h with hrecv
    obtain ⟨-, hend | hend⟩ := Session.answer_eq_some h
    · exact hrecv.2 rfl hend
    · refine uploadBlockData_ended_ne ?_ hend
      exact fun hmem => not_blank_mem_transfer (List.mem_of_mem_take hmem)
  · rw [decide_eq_false (by omega), List.take_of_length_le (by omega)]
    cases st.recv <;> simp [heq]

theorem exchange_iff : b.exchange p term st = .ok r ↔ b.byteCount = b.info.blockSize ∧
    ∃ m, st.Sends (b.payloads p term) m ∧ st.closeAndRecv
      ⟨(b.payloads p term).take m, decide (m < (b.payloads p term).length)⟩ = some r := by
  have hpayloads : b.payloads p term = (.message ⟨.BEGIN, some b.info, some p, term⟩ ::
      b.contents.map Payload.chunk) ++ [.message ⟨.EOF, some b.info, some p, term⟩] := rfl
  constructor
  · intro h
    obtain ⟨s₁, h₁, h⟩ := bind_eq_ok h
    split_ifs at h with hsize
    obtain ⟨s₂, h₂, h⟩ := bind_eq_ok h
    obtain ⟨m, hm, rfl⟩ := UploadStream.sendAll_iff.mp
      (UploadStream.sendAll_concat.mpr ⟨s₁, h₁, h₂⟩)
    rw [← hpayloads] at hm h
    refine ⟨not_not.mp hsize, m, hm, ?_⟩
    split at h <;> cases h
    assumption
  · rintro ⟨hsize, m, hm, hrecv⟩
    obtain ⟨s₁, h₁, h₂⟩ := UploadStream.sendAll_concat.mp
      (hpayloads ▸ UploadStream.sendAll_iff.mpr ⟨m, hm, rfl⟩)
    unfold exchange
    rw [h₁]
    simp only [bind, Except.bind, hsize, ne_eq, not_true_eq_false, if_false, h₂]
    rw [← hpayloads, hrecv]

/-- The answer, by what happens to the sends, to the server and to the other nodes. -/
theorem exchange_cases : b.exchange p term st = .ok r ↔
    b.byteCount = b.info.blockSize ∧ st.recv = true ∧ ∃ m, st.Sends (b.payloads p term) m ∧
      (b.Interrupted p term st m ∧ r = ⟨.FAIL, Errno.gaiaClosed.code, Errno.gaiaClosed.error⟩ ∨
        b.Completed p term st m ∧
          (st.server.node.Replies b.info (st.server.pipeline p) b.contents ∧ r = ⟨.OK, 0, ""⟩ ∨
            ¬ st.server.node.Replies b.info (st.server.pipeline p) b.contents ∧
              r = ⟨.FAIL, 0, (((receiving st.server.node b.info (st.server.pipeline p)
                b.contents).close st.server.node).2.map Errno.error).getD ""⟩)) := by
  rw [exchange_iff]
  refine and_congr_right fun _ => ?_
  rw [← exists_and_left]
  refine exists_congr fun m => ?_
  rw [and_left_comm]
  refine and_congr_right fun hm => ?_
  -- the context is done before the server has all that was sent, or not
  by_cases hdone : ∃ k ≤ m, st.doneAfter = some k
  · obtain ⟨k, hk, hdone⟩ := hdone
    rw [closeAndRecv_done hk hm.1 hdone]
    refine and_congr_right fun _ => ?_
    constructor
    · rintro ⟨haccepts, rfl⟩
      exact .inl ⟨⟨k, hk, hdone, haccepts⟩, rfl⟩
    · rintro (⟨⟨k', -, hdone', haccepts⟩, rfl⟩ | ⟨hall, -⟩)
      · rw [hdone] at hdone'
        cases hdone'
        exact ⟨haccepts, rfl⟩
      · exact absurd (hall.inTime k hdone) (by omega)
  · have hinTime : ∀ k ∈ st.doneAfter, m < k := by
      intro k hk
      by_contra hle
      exact hdone ⟨k, not_lt.mp hle, hk⟩
    rw [closeAndRecv_inTime hm.1 hinTime, answer_transfer]
    refine and_congr_right fun _ => ?_
    constructor
    · rintro ⟨hall, ⟨hb, hw⟩, hr⟩
      exact .inr ⟨⟨hall, hinTime, hb, hw⟩, hr⟩
    · rintro (⟨⟨k, hk, hdone', -⟩, -⟩ | ⟨hall, hr⟩)
      · exact absurd ⟨k, hk, hdone'⟩ hdone
      · exact ⟨hall.delivered, ⟨hall.begins, hall.writes⟩, hr⟩

theorem exchange_ok_iff :
    (∃ r, b.exchange p term st = .ok r ∧ r.status = .OK) ↔ b.Approved p term st := by
  constructor
  · rintro ⟨r, hr, hok⟩
    obtain ⟨hsize, hrecv, m, hm, ⟨-, rfl⟩ | ⟨hall, ⟨hreplies, -⟩ | ⟨-, rfl⟩⟩⟩ :=
      exchange_cases.mp hr
    · cases hok
    · exact ⟨hsize, hrecv, m, hm, hall, hreplies⟩
    · cases hok
  · rintro ⟨hsize, hrecv, m, hm, hall, hreplies⟩
    exact ⟨_, exchange_cases.mpr ⟨hsize, hrecv, m, hm, .inr ⟨hall, .inl ⟨hreplies, rfl⟩⟩⟩, rfl⟩

theorem exchange_fail_iff :
    (∃ r, b.exchange p term st = .ok r ∧ r.status = .FAIL) ↔ b.Refused p term st := by
  constructor
  · rintro ⟨r, hr, hfail⟩
    obtain ⟨hsize, hrecv, m, hm, ⟨hdone, -⟩ | ⟨hall, ⟨-, rfl⟩ | ⟨hno, -⟩⟩⟩ := exchange_cases.mp hr
    · exact ⟨hsize, hrecv, m, hm, .inl hdone⟩
    · cases hfail
    · exact ⟨hsize, hrecv, m, hm, .inr ⟨hall, hno⟩⟩
  · rintro ⟨hsize, hrecv, m, hm, hdone | ⟨hall, hno⟩⟩
    · exact ⟨_, exchange_cases.mpr ⟨hsize, hrecv, m, hm, .inl ⟨hdone, rfl⟩⟩, rfl⟩
    · exact ⟨_, exchange_cases.mpr ⟨hsize, hrecv, m, hm, .inr ⟨hall, .inr ⟨hno, rfl⟩⟩⟩, rfl⟩

theorem uploadByStream_ok : b.uploadByStream p term st = .ok () ↔
    ∃ r, b.exchange p term st = .ok r := by
  unfold uploadByStream
  cases b.exchange p term st with
  | error e => simp [bind, Except.bind]
  | ok r => simp [bind, Except.bind, pure, Except.pure]

theorem uploadByStream_iff : b.uploadByStream p term st = .ok () ↔
    b.Refused p term st ∨ b.Approved p term st := by
  rw [uploadByStream_ok, ← exchange_ok_iff, ← exchange_fail_iff, ← exists_or]
  refine exists_congr fun r => ?_
  cases hr : r.status <;> simp

theorem stored_of_approved (h : b.Approved p term st) : b.Stored p term st := by
  refine ⟨exchange_ok_iff.mpr h, ?_⟩
  obtain ⟨-, -, m, -, hall, hreplies⟩ := h
  exact acknowledged_of_replies hall.begins hall.writes hreplies

theorem Stored.not_refused (h : b.Stored p term st) : ¬ b.Refused p term st := by
  intro hrefused
  obtain ⟨⟨r, hr, hok⟩, -⟩ := h
  obtain ⟨r', hr', hfail⟩ := exchange_fail_iff.mpr hrefused
  rw [hr] at hr'
  cases hr'
  rw [hok] at hfail
  cases hfail

theorem uploadByStream_sound_iff :
    (b.uploadByStream p term st = .ok () → b.Stored p term st) ↔ ¬ b.Refused p term st := by
  constructor
  · intro h hrefused
    exact (h (uploadByStream_iff.mpr (.inl hrefused))).not_refused hrefused
  · intro hno h
    exact stored_of_approved ((uploadByStream_iff.mp h).resolve_left hno)

theorem uploadByEdge_iff {dials : List Dial} :
    b.uploadByEdge p term dials = some (.ok ()) ↔ ∃ st, b.Settles p term dials st := by
  induction dials with
  | nil =>
    refine iff_of_false (by simp [uploadByEdge]) ?_
    rintro ⟨st, hst⟩
    cases hst
  | cons dial dials ih =>
    cases dial with
    | unknown =>
      refine iff_of_false (by simp [uploadByEdge]) ?_
      rintro ⟨st, hst⟩
      cases hst
    | refused =>
      rw [uploadByEdge, ih]
      constructor
      · rintro ⟨st, hst⟩
        exact ⟨st, .refused hst⟩
      · rintro ⟨st, _ | hst⟩
        exact ⟨st, hst⟩
    | opened st =>
      rw [uploadByEdge]
      cases hup : b.uploadByStream p term st with
      | ok =>
        exact iff_of_true rfl ⟨st, .answered (uploadByStream_iff.mp hup)⟩
      | error e =>
        have hno : ¬ (b.Refused p term st ∨ b.Approved p term st) := by
          rw [← uploadByStream_iff, hup]
          simp
        dsimp only
        rw [ih]
        constructor
        · rintro ⟨st', hst'⟩
          exact ⟨st', .failed hno hst'⟩
        · rintro ⟨st', hyes | _ | ⟨-, hst'⟩⟩
          · exact absurd hyes hno
          · exact ⟨st', hst'⟩

theorem Settles.answered_or {dials : List Dial} (h : b.Settles p term dials st) :
    b.Refused p term st ∨ b.Approved p term st := by
  induction h with
  | answered h => exact h
  | refused _ ih => exact ih
  | failed _ _ ih => exact ih

theorem Settles.unique {dials : List Dial} {st' : UploadStream} (h : b.Settles p term dials st)
    (h' : b.Settles p term dials st') : st = st' := by
  induction h with
  | answered h =>
    cases h' with
    | answered => rfl
    | failed hno => exact absurd h hno
  | refused _ ih =>
    cases h' with
    | refused h' => exact ih h'
  | failed hno _ ih =>
    cases h' with
    | answered h => exact absurd h hno
    | failed _ h' => exact ih h'

/-- Success of an upload means that the block is stored exactly where the server that answers does
not refuse it: it is not interrupted, and the other nodes of the pipeline take the block. -/
theorem upload_sound_iff (b : Block) (p : Pipeline) (term : UInt64) :
    (∀ st, (b.uploadByStream p term st = .ok () → b.Stored p term st) ↔ ¬ b.Refused p term st) ∧
      (∀ stream, (b.uploadByCloud p term stream = .ok () →
          ∃ st, stream = some st ∧ b.Stored p term st) ↔
        ∀ st, stream = some st → ¬ b.Refused p term st) ∧
      ∀ dials, (b.uploadByEdge p term dials = some (.ok ()) →
          ∃ st, b.Settles p term dials st ∧ b.Stored p term st) ↔
        ∀ st, b.Settles p term dials st → ¬ b.Refused p term st := by
  refine ⟨fun st => uploadByStream_sound_iff, fun stream => ?_, fun dials => ?_⟩
  · cases stream with
    | none => simp [uploadByCloud]
    | some st =>
      simp only [uploadByCloud, Option.some.injEq, exists_eq_left', forall_eq']
      exact uploadByStream_sound_iff
  · rw [uploadByEdge_iff]
    constructor
    · intro h st hst
      obtain ⟨st', hst', hstored⟩ := h ⟨st, hst⟩
      rw [hst.unique hst']
      exact hstored.not_refused
    · rintro h ⟨st, hst⟩
      exact ⟨st, hst, stored_of_approved (hst.answered_or.resolve_left (h st hst))⟩

def oneByte : Block := ⟨{ blockId := [98], blockSize := 1 }, .UPLOADING, [⟨[7], 0⟩], .off⟩

def streamTo (reply : Result) : UploadStream where
  server := .edge
    { selfID := 1
      basePath := []
      getClusterInfoByTerm := fun _ => .ok threeNodes
      reply := fun _ _ => some reply }

theorem not_refused_ok : ¬ oneByte.Refused { raftId := [1, 2, 3] } 1 (streamTo ⟨.OK, 0, ""⟩) := by
  have hok : oneByte.exchange { raftId := [1, 2, 3] } 1 (streamTo ⟨.OK, 0, ""⟩) =
      .ok ⟨.OK, 0, ""⟩ := rfl
  rw [← exchange_fail_iff, hok]
  rintro ⟨r, hr, hfail⟩
  cases hr
  cases hfail

/-- Where they answer `OK`, the block is stored. -/
theorem oneByte_stored :
    oneByte.uploadByEdge { raftId := [1, 2, 3] } 1 [.refused, .opened (streamTo ⟨.OK, 0, ""⟩)] =
        some (.ok ()) ∧
      ∃ st, oneByte.Settles { raftId := [1, 2, 3] } 1
          [.refused, .opened (streamTo ⟨.OK, 0, ""⟩)] st ∧
        oneByte.Stored { raftId := [1, 2, 3] } 1 st := by
  refine ⟨rfl, ((upload_sound_iff oneByte { raftId := [1, 2, 3] } 1).2.2 _).mpr ?_ rfl⟩
  rintro st (_ | hst | _)
  rcases hst with _ | _ | ⟨-, hst⟩
  · exact not_refused_ok
  · cases hst

/-- Where the other nodes fail, the server answers `FAIL` and the client reports success. -/
theorem failed_replica_acknowledged :
    oneByte.exchange { raftId := [1, 2, 3] } 1 (streamTo ⟨.FAIL, 0, ""⟩) =
        .ok ⟨.FAIL, 0, Errno.remoteGaiaFail.error⟩ ∧
      oneByte.uploadByStream { raftId := [1, 2, 3] } 1 (streamTo ⟨.FAIL, 0, ""⟩) = .ok () ∧
      ¬ oneByte.Stored { raftId := [1, 2, 3] } 1 (streamTo ⟨.FAIL, 0, ""⟩) := by
  have hfail : oneByte.exchange { raftId := [1, 2, 3] } 1 (streamTo ⟨.FAIL, 0, ""⟩) =
      .ok ⟨.FAIL, 0, Errno.remoteGaiaFail.error⟩ := rfl
  refine ⟨hfail, uploadByStream_ok.mpr ⟨_, hfail⟩, ?_⟩
  rintro ⟨⟨r, hr, hok⟩, -⟩
  rw [hfail] at hr
  cases hr
  cases hok

end Block

end Ecos.Client
