import Ecos.Gaia.StoredBlock

namespace Ecos.Gaia
open Go Moon

variable {n : Node} {info : BlockInfo} {p : Pipeline} {term : UInt64} {chunks : List Bytes}

def Session.shutDown (s : Session) : Session :=
  if s.ended ≠ none then s
  else { s.sendAndClose ⟨.FAIL, Errno.gaiaClosed.code, Errno.gaiaClosed.error⟩ with
    ended := some (.returned none) }

-- What the handler meets, from which its answer follows.

def sentTo (info : BlockInfo) (p : Pipeline) (y : UInt64) (chunks : List Bytes) : List Payload :=
  .message ⟨.BEGIN, some info, some (singleNode p y), 0⟩ :: chunks.map Payload.chunk

namespace Node

def others (n : Node) (p : Pipeline) : List UInt64 := p.raftId.filter (· ≠ n.selfID)

def Begins (n : Node) (p : Pipeline) (term : UInt64) : Prop :=
  ∃ clusterInfo, n.getClusterInfoByTerm term = .ok clusterInfo ∧
    ∀ y ∈ n.others p, (getNodeInfo clusterInfo y).isSome

/-- The chunk after these is written to the file and sent to the other nodes. The first chunk
also creates the file and opens the streams. -/
structure WritesNext (n : Node) (info : BlockInfo) (p : Pipeline) (chunks : List Bytes)
    (c : Bytes) : Prop where
  create : chunks = [] → n.create (pathJoin [n.basePath, info.blockId]) = true
  openStream : chunks = [] → ∀ y ∈ n.others p,
    n.openStream y = true ∧ n.send y (sentTo info p y []) = true
  send : ∀ y ∈ n.others p, n.send y (sentTo info p y (chunks ++ [c])) = true
  writeFile : n.writeFile (Bufio.Writer.new.writeAll chunks : Bufio.Writer UInt8 4096).sink c = true

def Writes (n : Node) (info : BlockInfo) (p : Pipeline) (chunks : List Bytes) : Prop :=
  ∀ before c, before ++ [c] <+: chunks → n.WritesNext info p before c

/-- The other nodes have been sent something, and reply `OK` to all of it. -/
def Replies (n : Node) (info : BlockInfo) (p : Pipeline) (chunks : List Bytes) : Prop :=
  ∀ y ∈ n.others p, chunks ≠ [] ∧
    ∃ r, n.reply y (transfer info (singleNode p y) 0 none 0 chunks) = some r ∧ r.status = .OK

/-- The first `k` payloads of an upload come before its `EOF`, and are handled without a
failure. -/
def Accepts (n : Node) (info : BlockInfo) (p : Pipeline) (term : UInt64) (chunks : List Bytes)
    (k : ℕ) : Prop :=
  k ≤ chunks.length + 1 ∧ (k ≠ 0 → n.Begins p term ∧ n.Writes info p (chunks.take (k - 1)))

theorem writes_nil : n.Writes info p [] := by
  intro before c h
  simp at h

theorem writes_concat {c : Bytes} :
    n.Writes info p (chunks ++ [c]) ↔ n.Writes info p chunks ∧ n.WritesNext info p chunks c := by
  constructor
  · intro h
    exact ⟨fun before d hd => h before d (hd.trans (List.prefix_append _ _)),
      h chunks c List.prefix_rfl⟩
  · rintro ⟨h, hc⟩ before d hd
    rcases List.prefix_concat_iff.mp hd with heq | hd
    · obtain ⟨rfl, hcd⟩ := List.append_inj' heq rfl
      cases hcd
      exact hc
    · exact h before d hd

end Node

theorem mapM_newRemoteWriter_eq_none {clusterInfo : ClusterInfo} {ids : List UInt64}
    (h : ¬ ∀ y ∈ ids, (getNodeInfo clusterInfo y).isSome) :
    ids.mapM (fun nodeID => (getNodeInfo clusterInfo nodeID).map fun nodeInfo =>
      newRemoteWriter (some info) nodeInfo p) = none := by
  induction ids with
  | nil => simp at h
  | cons y ids ih =>
    rw [List.mapM_cons]
    cases hy : getNodeInfo clusterInfo y with
    | none => rfl
    | some nodeInfo =>
      rw [ih fun hall => h (List.forall_mem_cons.mpr ⟨by rw [hy]; rfl, hall⟩)]
      rfl

theorem handle_begin_cases (n : Node) (info : BlockInfo) (p : Pipeline) (term : UInt64) :
    (n.Begins p term ∧ Session.handle n {} (.message ⟨.BEGIN, some info, some p, term⟩) =
        { transporter := receiving n info p [] }) ∨
      (¬ n.Begins p term ∧
        Spoiled (Session.handle n {} (.message ⟨.BEGIN, some info, some p, term⟩))) := by
  rw [Session.handle_message rfl]
  unfold Session.processControlMessage Session.processBegin Node.Begins
  dsimp only
  cases n.getClusterInfoByTerm term with
  | error e => exact .inr ⟨by simp, .inl ⟨.returned (some e), rfl, by simp⟩⟩
  | ok clusterInfo =>
    dsimp only
    cases ht : newPrimaryCopyTransporter (some info) (some p) n.selfID clusterInfo n.basePath with
    | none =>
      refine .inr ⟨?_, .inl ⟨.panicked, rfl, by simp⟩⟩
      rintro ⟨_, heq, hknown⟩
      cases heq
      obtain ⟨ws, hws⟩ := @mapM_newRemoteWriter_isSome info p _ _ hknown
      simp only [newPrimaryCopyTransporter, Option.bind_eq_bind, Option.bind_some] at ht
      rw [← Node.others, hws] at ht
      cases ht
    | some t =>
      refine .inl ⟨⟨clusterInfo, rfl, ?_⟩, by rw [newPrimaryCopyTransporter_eq ht]; rfl⟩
      by_contra hknown
      simp only [newPrimaryCopyTransporter, Option.bind_eq_bind, Option.bind_some] at ht
      rw [← Node.others, mapM_newRemoteWriter_eq_none hknown] at ht
      cases ht

theorem eachRemote_err_iff {op : RemoteWriter → RemoteWriter × Option Errno}
    {ws : List RemoteWriter} : (eachRemote op ws).2 = none ↔ ∀ w ∈ ws, (op w).2 = none :=
  ⟨fun h => (eachRemote_eq (Prod.ext rfl h)).2, eachRemote_of_ok⟩

theorem forwarding_write_iff {y : UInt64} {c : Bytes} :
    ((forwarding info p chunks y).write n c).2 = none ↔
      (chunks = [] → n.openStream y = true ∧ n.send y (sentTo info p y []) = true) ∧
        n.send y (sentTo info p y (chunks ++ [c])) = true := by
  by_cases hc : chunks = []
  · subst hc
    unfold RemoteWriter.write RemoteWriter.init
    simp only [forwarding, if_true, sentTo, RemoteWriter.begin, RemoteWriter.sendOn]
    by_cases hopen : n.openStream y = true
    · by_cases hsend : n.send y [.message ⟨.BEGIN, some info, some (singleNode p y), 0⟩] = true
      · by_cases hchunk : n.send y [.message ⟨.BEGIN, some info, some (singleNode p y), 0⟩,
            .chunk c] = true
        · simp [hopen, hsend, hchunk]
        · simp [hopen, hsend, hchunk]
      · simp [hopen, hsend]
    · simp [hopen]
  · unfold RemoteWriter.write
    simp [forwarding, hc, RemoteWriter.sendOn, sentTo]

theorem multiWrite_err_iff {t : PrimaryCopyTransporter} {c : Bytes} :
    (t.multiWrite n c).2 = none ↔ (∀ w ∈ t.remoteWriters, (w.write n c).2 = none) ∧
      t.localWriter.all (fun w => n.writeFile w.content c) = true := by
  rw [← eachRemote_err_iff]
  unfold PrimaryCopyTransporter.multiWrite
  generalize eachRemote (fun w => w.write n c) t.remoteWriters = r
  obtain ⟨ws, err⟩ := r
  cases err with
  | some e => simp
  | none => by_cases hall : t.localWriter.all (fun w => n.writeFile w.content c) <;> simp [hall]

/-- A write succeeds exactly where nothing that it meets fails. -/
theorem receiving_write_err_iff {c : Bytes} :
    ∃ t err, (receiving n info p chunks).write n c = some (t, err) ∧
      (err = none ↔ n.WritesNext info p chunks c) := by
  have hremote : (∀ w ∈ (n.others p).map (forwarding info p chunks), (w.write n c).2 = none) ↔
      (chunks = [] → ∀ y ∈ n.others p,
        n.openStream y = true ∧ n.send y (sentTo info p y []) = true) ∧
      ∀ y ∈ n.others p, n.send y (sentTo info p y (chunks ++ [c])) = true := by
    rw [List.forall_mem_map]
    simp only [forwarding_write_iff]
    exact ⟨fun h => ⟨fun hc y hy => (h y hy).1 hc, fun y hy => (h y hy).2⟩,
      fun h y hy => ⟨fun hc => h.1 hc y hy, h.2 y hy⟩⟩
  unfold PrimaryCopyTransporter.write
  by_cases hc : chunks = []
  · subst hc
    simp only [receiving, if_true, PrimaryCopyTransporter.init,
      PrimaryCopyTransporter.getStoragePath, Option.map_some, Option.bind_eq_bind,
      Option.bind_some]
    by_cases hcreate : n.create (pathJoin [n.basePath, info.blockId]) = true
    · simp only [hcreate, if_true]
      refine ⟨_, PrimaryCopyTransporter.multiWrite .. |>.2, rfl, ?_⟩
      rw [multiWrite_err_iff]
      constructor
      · rintro ⟨hws, hfile⟩
        obtain ⟨hopen, hsend⟩ := hremote.mp hws
        exact ⟨fun _ => hcreate, hopen, hsend, hfile⟩
      · intro h
        exact ⟨hremote.mpr ⟨h.openStream, h.send⟩, h.writeFile⟩
    · simp only [hcreate]
      refine ⟨_, _, rfl, ?_⟩
      exact iff_of_false (by simp) fun h => hcreate (h.create rfl)
  · simp only [receiving, if_neg hc]
    refine ⟨_, PrimaryCopyTransporter.multiWrite .. |>.2, rfl, ?_⟩
    rw [multiWrite_err_iff]
    constructor
    · rintro ⟨hws, hfile⟩
      obtain ⟨hopen, hsend⟩ := hremote.mp hws
      exact ⟨fun h => absurd h hc, hopen, hsend, hfile⟩
    · intro h
      exact ⟨hremote.mpr ⟨h.openStream, h.send⟩, h.writeFile⟩

theorem handle_chunk_cases (n : Node) (info : BlockInfo) (p : Pipeline) (chunks : List Bytes)
    (c : Bytes) :
    (n.WritesNext info p chunks c ∧
      Session.handle n { transporter := receiving n info p chunks } (.chunk c) =
        { transporter := receiving n info p (chunks ++ [c]) }) ∨
      (¬ n.WritesNext info p chunks c ∧
        Spoiled (Session.handle n { transporter := receiving n info p chunks } (.chunk c))) := by
  obtain ⟨t, err, hw, hiff⟩ := @receiving_write_err_iff n info p chunks c
  rw [Session.handle_chunk rfl]
  unfold Session.processChunk
  dsimp only
  rw [hw]
  cases err with
  | some e => exact .inr ⟨fun h => absurd (hiff.mpr h) (by simp), .inr ⟨_, [], rfl, by simp⟩⟩
  | none =>
    rw [receiving_write hw]
    exact .inl ⟨hiff.mp rfl, rfl⟩

/-- The handler before the `EOF`: it has received everything, or it has failed. -/
theorem uploadBlockData_sent (n : Node) (info : BlockInfo) (p : Pipeline) (term : UInt64)
    (chunks : List Bytes) :
    ((n.Begins p term ∧ n.Writes info p chunks) ∧
      uploadBlockData n (.message ⟨.BEGIN, some info, some p, term⟩ :: chunks.map Payload.chunk) =
        { transporter := receiving n info p chunks }) ∨
      (¬ (n.Begins p term ∧ n.Writes info p chunks) ∧ Spoiled (uploadBlockData n
        (.message ⟨.BEGIN, some info, some p, term⟩ :: chunks.map Payload.chunk))) := by
  induction chunks using List.reverseRecOn with
  | nil =>
    rcases handle_begin_cases n info p term with ⟨hb, heq⟩ | ⟨hb, hs⟩
    · exact .inl ⟨⟨hb, Node.writes_nil⟩, heq⟩
    · exact .inr ⟨fun h => hb h.1, hs⟩
  | append_singleton chunks c ih =>
    have hlast : uploadBlockData n
        (.message ⟨.BEGIN, some info, some p, term⟩ :: (chunks ++ [c]).map Payload.chunk) =
        Session.handle n (uploadBlockData n
          (.message ⟨.BEGIN, some info, some p, term⟩ :: chunks.map Payload.chunk)) (.chunk c) := by
      simp [uploadBlockData, List.foldl_append]
    rw [hlast, Node.writes_concat]
    rcases ih with ⟨⟨hb, hws⟩, heq⟩ | ⟨hnot, hs⟩
    · rw [heq]
      rcases handle_chunk_cases n info p chunks c with ⟨hc, heq⟩ | ⟨hc, hs⟩
      · exact .inl ⟨⟨hb, hws, hc⟩, heq⟩
      · exact .inr ⟨fun h => hc h.2.2, hs⟩
    · exact .inr ⟨fun h => hnot ⟨h.1, h.2.1⟩, hs.handle _⟩

theorem forwarding_close_iff {y : UInt64} : ((forwarding info p chunks y).close n).2 = none ↔
    chunks ≠ [] ∧
      ∃ r, n.reply y (transfer info (singleNode p y) 0 none 0 chunks) = some r ∧
        r.status = .OK := by
  by_cases hc : chunks = []
  · subst hc
    simp [RemoteWriter.close, forwarding]
  · constructor
    · intro h
      exact ⟨hc, (forwarding_close hc h).2⟩
    · rintro ⟨-, ⟨status, code, message⟩, hr, rfl⟩
      unfold RemoteWriter.close
      rw [stream_forwarding hc]
      dsimp only
      split
      · rfl
      · rename_i hfail
        exact absurd hr (hfail code message)

theorem receiving_close_iff :
    ((receiving n info p chunks).close n).2 = none ↔ n.Replies info p chunks := by
  rw [close_eq_eachRemote]
  dsimp only
  rw [eachRemote_err_iff]
  unfold Node.Replies
  simp only [receiving, List.forall_mem_map, forwarding_close_iff]
  rfl

-- The answer: exactly one result of a handler that has not failed otherwise.

theorem Session.answer_eq_some {s : Session} {r : Result} (h : s.answer = some r) :
    s.results = [r] ∧ (s.ended = none ∨ s.ended = some (.returned none)) := by
  unfold Session.answer at h
  split at h
  · rename_i hended hresults
    cases h
    exact ⟨hresults, .inl hended⟩
  · rename_i hended hresults
    cases h
    exact ⟨hresults, .inr hended⟩
  · cases h

/-- Only a blank payload makes the handler return nil. -/
theorem handle_ended_ne {s : Session} {payload : Payload} (hpayload : payload ≠ .blank)
    (h : s.ended ≠ some (.returned none)) :
    (s.handle n payload).ended ≠ some (.returned none) := by
  by_cases hended : s.ended ≠ none
  · rwa [Session.handle_of_ended hended]
  rw [not_not] at hended
  cases payload with
  | blank => exact absurd rfl hpayload
  | chunk data =>
    rw [Session.handle_chunk hended]
    unfold Session.processChunk
    split <;> simp [Session.sendAndClose, hended]
  | message msg =>
    rw [Session.handle_message hended]
    unfold Session.processControlMessage
    split
    · unfold Session.processBegin
      split
      · split_ifs <;> simp
      · split
        · simp
        · split_ifs <;> simp [hended]
    · unfold Session.processEOF
      split
      · simp [Session.sendAndClose, hended]
      · split_ifs <;> simp [Session.sendAndClose, hended]
    · simp [Session.sendAndClose, hended]

theorem uploadBlockData_ended_ne {payloads : List Payload} (h : .blank ∉ payloads) :
    (uploadBlockData n payloads).ended ≠ some (.returned none) := by
  have hfold : ∀ s : Session, s.ended ≠ some (.returned none) →
      (payloads.foldl (Session.handle n) s).ended ≠ some (.returned none) := by
    induction payloads with
    | nil => exact fun s hs => hs
    | cons payload payloads ih =>
      intro s hs
      rw [List.mem_cons, not_or] at h
      exact ih h.2 _ (handle_ended_ne (Ne.symm h.1) hs)
  exact hfold {} (by simp)

/-- A handler that goes on after a failure sends a second result, which the peer takes for an
error. -/
theorem Spoiled.answer_eof {s : Session} (h : Spoiled s) (hended : s.ended ≠ some (.returned none))
    {msg : ControlMessage} (hmsg : msg.code = .EOF) :
    (s.handle n (.message msg)).answer = none := by
  rw [Option.eq_none_iff_forall_ne_some]
  intro r hr
  obtain ⟨hresults, hend⟩ := Session.answer_eq_some hr
  rcases h with ⟨e, he, hne⟩ | ⟨r', rest, hr', -⟩
  · rw [Session.handle_of_ended (by rw [he]; simp), he] at hend
    simp [hne] at hend
  · by_cases hnone : s.ended = none
    · rw [Session.handle_message hnone, Session.processControlMessage, hmsg] at hresults hend
      dsimp only [Session.processEOF] at hresults hend
      split at hresults
      · simp [Session.sendAndClose, hr'] at hresults
      · rename_i hclose
        rw [hclose] at hend
        split_ifs at hresults hend with hblock
        · simp at hend
        · simp [Session.sendAndClose, hr'] at hresults
    · rw [Session.handle_of_ended hnone] at hend
      exact hend.elim hnone hended

theorem handle_eof_done (s : Session) {msg : ControlMessage} (hmsg : msg.code = .EOF) :
    (s.handle n (.message msg)).ended ≠ none ∨ (s.handle n (.message msg)).results ≠ [] := by
  by_cases hended : s.ended ≠ none
  · rw [Session.handle_of_ended hended]
    exact .inl hended
  · rw [Session.handle_message (not_not.mp hended), Session.processControlMessage, hmsg]
    dsimp only [Session.processEOF]
    split
    · exact .inr (by simp [Session.sendAndClose])
    · split_ifs
      · exact .inl (by simp)
      · exact .inr (by simp [Session.sendAndClose])

/-- A server that shuts down after it has ended or sent a result is not understood. -/
theorem answer_shutDown_of_done {s : Session} (h : s.ended ≠ none ∨ s.results ≠ [])
    (hended : s.ended ≠ some (.returned none)) : s.shutDown.answer = none := by
  rw [Option.eq_none_iff_forall_ne_some]
  intro r hr
  obtain ⟨hresults, hend⟩ := Session.answer_eq_some hr
  unfold Session.shutDown at hresults hend
  split_ifs at hresults hend with hnone
  · exact hend.elim hnone hended
  · apply h.resolve_left hnone
    simpa [Session.sendAndClose] using congrArg List.dropLast hresults

theorem Spoiled.done {s : Session} (h : Spoiled s) : s.ended ≠ none ∨ s.results ≠ [] := by
  rcases h with ⟨e, he, -⟩ | ⟨r, rest, hr, -⟩
  · exact .inl (by simp [he])
  · exact .inr (by simp [hr])

theorem uploadBlockData_transfer {eofPipeline : Option Pipeline} {eofTerm : UInt64} :
    uploadBlockData n (transfer info p term eofPipeline eofTerm chunks) =
      Session.handle n (uploadBlockData n (.message ⟨.BEGIN, some info, some p, term⟩ ::
        chunks.map Payload.chunk)) (.message ⟨.EOF, some info, eofPipeline, eofTerm⟩) := by
  simp [uploadBlockData, transfer, List.foldl_append]

theorem not_blank_mem_transfer {eofPipeline : Option Pipeline} {eofTerm : UInt64} :
    .blank ∉ transfer info p term eofPipeline eofTerm chunks := by
  simp [transfer]

theorem not_blank_mem_sent :
    .blank ∉ .message ⟨.BEGIN, some info, some p, term⟩ :: chunks.map Payload.chunk := by
  simp

/-- The answer to a whole upload. -/
theorem answer_transfer (n : Node) (info : BlockInfo) (p : Pipeline) (term : UInt64)
    (eofPipeline : Option Pipeline) (eofTerm : UInt64) (chunks : List Bytes) {r : Result} :
    (uploadBlockData n (transfer info p term eofPipeline eofTerm chunks)).answer = some r ↔
      (n.Begins p term ∧ n.Writes info p chunks) ∧
        ((n.Replies info p chunks ∧ r = ⟨.OK, 0, ""⟩) ∨
          ¬ n.Replies info p chunks ∧
            r = ⟨.FAIL, 0, (((receiving n info p chunks).close n).2.map Errno.error).getD ""⟩) := by
  rw [uploadBlockData_transfer]
  rcases uploadBlockData_sent n info p term chunks with ⟨hall, heq⟩ | ⟨hnot, hs⟩
  · rw [heq, Session.handle_message rfl, ← receiving_close_iff]
    unfold Session.processControlMessage Session.processEOF
    dsimp only
    generalize (receiving n info p chunks).close n = result
    obtain ⟨t, err⟩ := result
    cases err with
    | none => simp [hall, Session.answer, Session.sendAndClose, eq_comm]
    | some e => simp [hall, Session.answer, Session.sendAndClose, eq_comm]
  · rw [hs.answer_eof (uploadBlockData_ended_ne not_blank_mem_sent) rfl]
    simp [hnot]

/-- The answer to an upload that the server's context interrupts. -/
theorem answer_shutDown (n : Node) (info : BlockInfo) (p : Pipeline) (term : UInt64)
    (eofPipeline : Option Pipeline) (eofTerm : UInt64) (chunks : List Bytes) (k : ℕ) {r : Result} :
    (uploadBlockData n
      ((transfer info p term eofPipeline eofTerm chunks).take k)).shutDown.answer = some r ↔
      (n.Accepts info p term chunks k ∧
        r = ⟨.FAIL, Errno.gaiaClosed.code, Errno.gaiaClosed.error⟩) := by
  unfold Node.Accepts
  rcases Nat.eq_zero_or_pos k with rfl | hk
  · simp [uploadBlockData, Session.shutDown, Session.answer, Session.sendAndClose, eq_comm]
  obtain ⟨k, rfl⟩ := Nat.exists_eq_add_one.mpr hk
  by_cases hle : k ≤ chunks.length
  · have htake : (transfer info p term eofPipeline eofTerm chunks).take (k + 1) =
        .message ⟨.BEGIN, some info, some p, term⟩ :: (chunks.take k).map Payload.chunk := by
      simp [transfer, List.take_append_of_le_length, hle, List.map_take]
    rw [htake]
    rcases uploadBlockData_sent n info p term (chunks.take k) with ⟨hall, heq⟩ | ⟨hnot, hs⟩
    · rw [heq]
      simp [hall, hle, Session.shutDown, Session.answer, Session.sendAndClose, eq_comm]
    · rw [answer_shutDown_of_done hs.done (uploadBlockData_ended_ne not_blank_mem_sent)]
      simp only [Nat.add_sub_cancel, ne_eq, Nat.add_eq_zero_iff, one_ne_zero, and_false,
        not_false_eq_true, forall_const, hnot, false_and, reduceCtorEq]
  · -- after the `EOF` a result has been sent already
    have htake : (transfer info p term eofPipeline eofTerm chunks).take (k + 1) =
        transfer info p term eofPipeline eofTerm chunks :=
      List.take_of_length_le (by simp [transfer]; omega)
    have hdone :
        (uploadBlockData n (transfer info p term eofPipeline eofTerm chunks)).ended ≠ none ∨
        (uploadBlockData n (transfer info p term eofPipeline eofTerm chunks)).results ≠ [] := by
      rw [uploadBlockData_transfer]
      exact handle_eof_done _ rfl
    rw [htake, answer_shutDown_of_done hdone (uploadBlockData_ended_ne not_blank_mem_transfer)]
    simp only [add_le_add_iff_right, hle, false_and, reduceCtorEq]

end Ecos.Gaia
