import Ecos.Gaia.UploadBlockData

namespace Ecos.Gaia
open Go Moon

variable {n : Node}

/-- The handler has failed, or the first result it sent is not `OK`. -/
def Spoiled (s : Session) : Prop :=
  (∃ e, s.ended = some e ∧ e ≠ .returned none) ∨ ∃ r rest, s.results = r :: rest ∧ r.status ≠ .OK

/-- Results are never taken back. -/
theorem handle_results (s : Session) (payload : Payload) :
    ∃ rs, (s.handle n payload).results = s.results ++ rs := by
  by_cases hended : s.ended ≠ none
  · exact ⟨[], by rw [Session.handle_of_ended hended, List.append_nil]⟩
  rw [not_not] at hended
  cases payload with
  | message msg =>
    rw [Session.handle_message hended]
    simp only [Session.processControlMessage, Session.processBegin, Session.processEOF]
    split
    · split
      · split_ifs <;> exact ⟨[], (List.append_nil _).symm⟩
      · split
        · exact ⟨[], (List.append_nil _).symm⟩
        · split_ifs <;> exact ⟨[], (List.append_nil _).symm⟩
    · split
      · exact ⟨_, rfl⟩
      · split_ifs
        · exact ⟨[], (List.append_nil _).symm⟩
        · exact ⟨_, rfl⟩
    · exact ⟨_, rfl⟩
  | chunk data =>
    rw [Session.handle_chunk hended]
    unfold Session.processChunk
    split
    · exact ⟨[], (List.append_nil _).symm⟩
    · exact ⟨_, rfl⟩
    · exact ⟨[], (List.append_nil _).symm⟩
  | blank =>
    unfold Session.handle
    rw [if_neg (not_not.mpr hended)]
    exact ⟨_, rfl⟩

theorem Spoiled.handle {s : Session} (h : Spoiled s) (payload : Payload) :
    Spoiled (s.handle n payload) := by
  rcases h with ⟨e, he, hne⟩ | ⟨r, rest, hr, hfail⟩
  · rw [Session.handle_of_ended (by rw [he]; simp)]
    exact .inl ⟨e, he, hne⟩
  · obtain ⟨rs, hrs⟩ := handle_results (n := n) s payload
    exact .inr ⟨r, rest ++ rs, by rw [hrs, hr]; rfl, hfail⟩

theorem Spoiled.foldl {s : Session} (h : Spoiled s) (payloads : List Payload) :
    Spoiled (payloads.foldl (Session.handle n) s) := by
  induction payloads generalizing s with
  | nil => exact h
  | cons payload payloads ih => exact ih (h.handle payload)

theorem Spoiled.answer {s : Session} (h : Spoiled s) {r : Result} (hr : s.answer = some r) :
    r.status ≠ .OK := by
  unfold Session.answer at hr
  rcases h with ⟨e, he, hne⟩ | ⟨r', rest, hr', hfail⟩
  · rw [he] at hr
    split at hr
    · rename_i heq _
      cases heq
    · rename_i heq _
      exact absurd (Option.some.inj heq) hne
    · cases hr
  · rw [hr'] at hr
    split at hr
    · rename_i heq
      cases heq
      cases hr
      exact hfail
    · rename_i heq
      cases heq
      cases hr
      exact hfail
    · cases hr

theorem eachRemote_eq {op : RemoteWriter → RemoteWriter × Option Errno} {ws ws' : List RemoteWriter}
    (h : eachRemote op ws = (ws', none)) :
    ws' = ws.map (fun w => (op w).1) ∧ ∀ w ∈ ws, (op w).2 = none := by
  induction ws generalizing ws' with
  | nil =>
    cases h
    exact ⟨rfl, by simp⟩
  | cons w ws ih =>
    unfold eachRemote at h
    cases hop : op w with
    | mk w₁ err =>
      rw [hop] at h
      cases err with
      | some e => cases h
      | none =>
        cases hrest : eachRemote op ws with
        | mk ws₁ err =>
          rw [hrest] at h
          cases h
          obtain ⟨rfl, hall⟩ := ih hrest
          refine ⟨by rw [List.map_cons, hop], ?_⟩
          intro v hv
          rcases List.mem_cons.mp hv with rfl | hv
          · rw [hop]
          · exact hall v hv

/-- The pipeline that a remote writer to `y` sends. -/
def singleNode (p : Pipeline) (y : UInt64) : Pipeline := ⟨p.pgId, [y]⟩

/-- The remote writer to `y` once it has been given these chunks. -/
def forwarding (info : BlockInfo) (p : Pipeline) (chunks : List Bytes) (y : UInt64) :
    RemoteWriter where
  node := y
  blockInfo := some info
  pipeline := singleNode p y
  stream := if chunks = [] then none
    else some (.message ⟨.BEGIN, some info, some (singleNode p y), 0⟩ :: chunks.map Payload.chunk)

def receiving (n : Node) (info : BlockInfo) (p : Pipeline) (chunks : List Bytes) :
    PrimaryCopyTransporter where
  info := some info
  pipeline := some p
  basePath := n.basePath
  localWriter := if chunks = [] then none
    else some (.buffered (Bufio.Writer.new.writeAll chunks))
  remoteWriters := (p.raftId.filter (· ≠ n.selfID)).map (forwarding info p chunks)

theorem mapM_newRemoteWriter {info : BlockInfo} {p : Pipeline} {clusterInfo : ClusterInfo}
    {ids : List UInt64} {ws : List RemoteWriter}
    (h : ids.mapM (fun nodeID => (getNodeInfo clusterInfo nodeID).map fun nodeInfo =>
      newRemoteWriter (some info) nodeInfo p) = some ws) : ws = ids.map (forwarding info p []) := by
  induction ids generalizing ws with
  | nil =>
    cases h
    rfl
  | cons y ids ih =>
    rw [List.mapM_cons] at h
    cases hy : getNodeInfo clusterInfo y with
    | none => simp [hy] at h
    | some nodeInfo =>
      simp only [hy, Option.map_some, Option.bind_eq_bind, Option.bind_some,
        Option.bind_eq_some_iff] at h
      obtain ⟨ws', hws', heq⟩ := h
      cases heq
      have hid : nodeInfo.raftId = y := by simpa using List.find?_some hy
      rw [ih hws', List.map_cons]
      subst hid
      rfl

theorem newPrimaryCopyTransporter_eq {info : BlockInfo} {p : Pipeline} {clusterInfo : ClusterInfo}
    {t : PrimaryCopyTransporter} (h : newPrimaryCopyTransporter (some info) (some p) n.selfID
      clusterInfo n.basePath = some t) : t = receiving n info p [] := by
  simp only [newPrimaryCopyTransporter, Option.bind_eq_bind, Option.bind_some,
    Option.bind_eq_some_iff] at h
  obtain ⟨ws, hws, heq⟩ := h
  cases heq
  rw [mapM_newRemoteWriter hws]
  rfl

theorem handle_begin (info : BlockInfo) (p : Pipeline) (term : UInt64) :
    Session.handle n {} (.message ⟨.BEGIN, some info, some p, term⟩) =
        { transporter := receiving n info p [] } ∨
      Spoiled (Session.handle n {} (.message ⟨.BEGIN, some info, some p, term⟩)) := by
  rw [Session.handle_message rfl]
  unfold Session.processControlMessage Session.processBegin
  dsimp only
  cases n.getClusterInfoByTerm term with
  | error e => exact .inr (.inl ⟨.returned (some e), rfl, by simp⟩)
  | ok clusterInfo =>
    dsimp only
    cases ht : newPrimaryCopyTransporter (some info) (some p) n.selfID clusterInfo n.basePath with
    | none => exact .inr (.inl ⟨.panicked, rfl, by simp⟩)
    | some t =>
      rw [newPrimaryCopyTransporter_eq ht]
      exact .inl rfl

theorem forwarding_write {info : BlockInfo} {p : Pipeline} {chunks : List Bytes} {y : UInt64}
    {c : Bytes} (h : ((forwarding info p chunks y).write n c).2 = none) :
    ((forwarding info p chunks y).write n c).1 = forwarding info p (chunks ++ [c]) y := by
  have hne : chunks ++ [c] ≠ [] := by simp
  by_cases hc : chunks = []
  · -- the first chunk opens the stream
    subst hc
    unfold RemoteWriter.write RemoteWriter.init at h ⊢
    simp only [forwarding, if_true] at h ⊢
    split_ifs at h ⊢
    rfl
  · unfold RemoteWriter.write
    simp only [forwarding, if_neg hc, if_neg hne, RemoteWriter.sendOn, List.map_append,
      List.cons_append, List.map_cons, List.map_nil]

theorem multiWrite_eq {t t' : PrimaryCopyTransporter} {c : Bytes}
    (h : t.multiWrite n c = (t', none)) :
    t' = { t with
      remoteWriters := t.remoteWriters.map fun w => (w.write n c).1
      localWriter := t.localWriter.map (LocalWriter.write c) } ∧
    ∀ w ∈ t.remoteWriters, (w.write n c).2 = none := by
  unfold PrimaryCopyTransporter.multiWrite at h
  cases he : eachRemote (fun w => w.write n c) t.remoteWriters with
  | mk ws err =>
    rw [he] at h
    cases err with
    | some e => cases h
    | none =>
      dsimp only at h
      split_ifs at h <;> cases h
      obtain ⟨rfl, hall⟩ := eachRemote_eq he
      exact ⟨rfl, hall⟩

theorem map_forwarding_write {info : BlockInfo} {p : Pipeline} {chunks : List Bytes} {c : Bytes}
    {ids : List UInt64}
    (h : ∀ w ∈ ids.map (forwarding info p chunks), (w.write n c).2 = none) :
    (ids.map (forwarding info p chunks)).map (fun w => (w.write n c).1) =
      ids.map (forwarding info p (chunks ++ [c])) := by
  rw [List.map_map]
  apply List.map_congr_left
  intro y hy
  exact forwarding_write (h _ (List.mem_map_of_mem hy))

theorem receiving_write {info : BlockInfo} {p : Pipeline} {chunks : List Bytes} {c : Bytes}
    {t : PrimaryCopyTransporter} (h : (receiving n info p chunks).write n c = some (t, none)) :
    t = receiving n info p (chunks ++ [c]) := by
  have hne : chunks ++ [c] ≠ [] := by simp
  unfold PrimaryCopyTransporter.write at h
  by_cases hc : chunks = []
  · subst hc
    simp only [receiving, if_true, PrimaryCopyTransporter.init,
      PrimaryCopyTransporter.getStoragePath, Option.map_some, Option.bind_eq_bind,
      Option.bind_some] at h
    split_ifs at h
    · obtain ⟨rfl, hall⟩ := multiWrite_eq (Option.some.inj h)
      rw [map_forwarding_write hall]
      rfl
    · cases h
  · simp only [receiving, if_neg hc] at h
    obtain ⟨rfl, hall⟩ := multiWrite_eq (Option.some.inj h)
    rw [map_forwarding_write hall]
    simp only [receiving, if_neg hne, Option.map_some, LocalWriter.write, Bufio.Writer.writeAll,
      List.foldl_append, List.foldl_cons, List.foldl_nil]

theorem handle_chunk_receiving (info : BlockInfo) (p : Pipeline) (chunks : List Bytes) (c : Bytes) :
    Session.handle n { transporter := receiving n info p chunks } (.chunk c) =
        { transporter := receiving n info p (chunks ++ [c]) } ∨
      Spoiled (Session.handle n { transporter := receiving n info p chunks } (.chunk c)) := by
  rw [Session.handle_chunk rfl]
  unfold Session.processChunk
  dsimp only
  cases hw : (receiving n info p chunks).write n c with
  | none => exact .inr (.inl ⟨.panicked, rfl, by simp⟩)
  | some r =>
    obtain ⟨t, err⟩ := r
    cases err with
    | some e => exact .inr (.inr ⟨_, [], rfl, by simp⟩)
    | none =>
      rw [receiving_write hw]
      exact .inl rfl

theorem foldl_chunks_receiving (info : BlockInfo) (p : Pipeline) (chunks chunks' : List Bytes) :
    (chunks'.map Payload.chunk).foldl (Session.handle n)
        { transporter := receiving n info p chunks } =
        { transporter := receiving n info p (chunks ++ chunks') } ∨
      Spoiled ((chunks'.map Payload.chunk).foldl (Session.handle n)
        { transporter := receiving n info p chunks }) := by
  induction chunks' generalizing chunks with
  | nil => exact .inl (by rw [List.append_nil]; rfl)
  | cons c chunks' ih =>
    rw [List.map_cons, List.foldl_cons]
    rcases handle_chunk_receiving (n := n) info p chunks c with h | h
    · rw [h, List.append_cons chunks c chunks']
      exact ih (chunks ++ [c])
    · exact .inr (h.foldl _)

/-- All chunks have been received, if the upload is answered `OK`. -/
theorem foldl_transfer {info : BlockInfo} {p : Pipeline} {term eofTerm : UInt64}
    {eofPipeline : Option Pipeline} {chunks : List Bytes} {r : Result}
    (hr : (uploadBlockData n (transfer info p term eofPipeline eofTerm chunks)).answer = some r)
    (hok : r.status = .OK) :
    uploadBlockData n (transfer info p term eofPipeline eofTerm chunks) =
      Session.handle n { transporter := receiving n info p chunks }
        (.message ⟨.EOF, some info, eofPipeline, eofTerm⟩) := by
  unfold uploadBlockData transfer at hr ⊢
  rw [List.cons_append, List.foldl_cons, List.foldl_append] at hr ⊢
  rcases handle_begin (n := n) info p term with hb | hb
  · rw [hb] at hr ⊢
    rcases foldl_chunks_receiving (n := n) info p [] chunks with hc | hc
    · rw [hc, List.nil_append]
      rfl
    · exact absurd hok ((hc.foldl _).answer hr)
  · exact absurd hok (((hb.foldl _).foldl _).answer hr)

/-- The remote writer to `y` after `Close`. -/
def forwarded (info : BlockInfo) (p : Pipeline) (chunks : List Bytes) (y : UInt64) :
    RemoteWriter where
  node := y
  blockInfo := some info
  pipeline := singleNode p y
  stream := some (transfer info (singleNode p y) 0 none 0 chunks)

theorem stream_forwarding {info : BlockInfo} {p : Pipeline} {chunks : List Bytes} {y : UInt64}
    (hc : chunks ≠ []) : (forwarding info p chunks y).stream = some (.message ⟨.BEGIN, some info,
      some (singleNode p y), 0⟩ :: chunks.map Payload.chunk) := if_neg hc

theorem forwarding_close {info : BlockInfo} {p : Pipeline} {chunks : List Bytes} {y : UInt64}
    (hc : chunks ≠ []) (h : ((forwarding info p chunks y).close n).2 = none) :
    ((forwarding info p chunks y).close n).1 = forwarded info p chunks y ∧
      ∃ r, n.reply y (transfer info (singleNode p y) 0 none 0 chunks) = some r ∧ r.status = .OK := by
  unfold RemoteWriter.close at h ⊢
  rw [stream_forwarding hc] at h ⊢
  dsimp only at h ⊢
  split at h
  · rename_i code message hreply
    exact ⟨rfl, _, hreply, rfl⟩
  · cases h

/-- Whatever `localWriter` is, `Close` leaves it as it is. -/
theorem close_eq_eachRemote (t : PrimaryCopyTransporter) :
    t.close n = ({ t with remoteWriters := (eachRemote (fun w => w.close n) t.remoteWriters).1 },
      (eachRemote (fun w => w.close n) t.remoteWriters).2) := by
  unfold PrimaryCopyTransporter.close
  cases ht : t.localWriter with
  | none => rfl
  | some w => cases w <;> rfl

/-- What is left by an upload that was answered `OK`: the file of this node, and streams on
which every other node of the pipeline was sent the block and answered `OK`. -/
structure Left (n : Node) (info : BlockInfo) (p : Pipeline) (chunks : List Bytes)
    (t : PrimaryCopyTransporter) : Prop where
  blockFile : t.blockFile = some (pathJoin [n.basePath, info.blockId],
    (Bufio.Writer.new.writeAll chunks : Bufio.Writer UInt8 4096).sink)
  remoteWriters : t.remoteWriters =
    (p.raftId.filter (· ≠ n.selfID)).map (forwarded info p chunks)
  replies : ∀ y ∈ p.raftId.filter (· ≠ n.selfID),
    ∃ r, n.reply y (transfer info (singleNode p y) 0 none 0 chunks) = some r ∧ r.status = .OK

theorem receiving_close {info : BlockInfo} {p : Pipeline} {chunks : List Bytes} (hc : chunks ≠ [])
    {t : PrimaryCopyTransporter} (h : (receiving n info p chunks).close n = (t, none)) :
    Left n info p chunks t := by
  rw [close_eq_eachRemote, Prod.mk.injEq] at h
  obtain ⟨rfl, herr⟩ := h
  cases he : eachRemote (fun w => w.close n) (receiving n info p chunks).remoteWriters with
  | mk ws err =>
    rw [he] at herr
    cases herr
    obtain ⟨rfl, hall⟩ := eachRemote_eq he
    have hclosed : ∀ y ∈ p.raftId.filter (· ≠ n.selfID), _ := fun y hy =>
      forwarding_close hc (hall _ (List.mem_map_of_mem hy))
    refine ⟨?_, ?_, fun y hy => (hclosed y hy).2⟩
    · simp only [PrimaryCopyTransporter.blockFile, PrimaryCopyTransporter.getStoragePath, receiving,
        if_neg hc]
      rfl
    · simp only [receiving, List.map_map]
      apply List.map_congr_left
      intro y hy
      exact (hclosed y hy).1

theorem answered_left {info : BlockInfo} {p : Pipeline} {term eofTerm : UInt64}
    {eofPipeline : Option Pipeline} {chunks : List Bytes} {r : Result} (hc : chunks ≠ [])
    (hr : (uploadBlockData n (transfer info p term eofPipeline eofTerm chunks)).answer = some r)
    (hok : r.status = .OK) :
    Left n info p chunks
      (uploadBlockData n (transfer info p term eofPipeline eofTerm chunks)).transporter := by
  have hall := foldl_transfer hr hok
  rw [hall, Session.handle_message rfl] at hr
  rw [hall, Session.handle_message rfl]
  unfold Session.processControlMessage Session.processEOF at hr ⊢
  dsimp only at hr ⊢
  cases hclose : (receiving n info p chunks).close n with
  | mk t err =>
    rw [hclose] at hr
    cases err with
    | some e =>
      cases hr
      cases hok
    | none => exact receiving_close hc hclose

/-- Nodes that reach each other by ID. A result that arrives is what the handler of the other
node answered to the payloads it was sent. -/
structure Cluster where
  node : UInt64 → Node
  selfID : ∀ x, (node x).selfID = x
  delivers : ∀ x y payloads r, (node x).reply y payloads = some r →
    (uploadBlockData (node y) payloads).answer = some r

/-- The block file on node `y` after node `x` was sent the payloads of a block: that of its own
handler, or that of the handler which a remote writer of `x` sent the block to. -/
def Cluster.blockFile (c : Cluster) (x : UInt64) (payloads : List Payload) (y : UInt64) :
    Option (Bytes × Bytes) :=
  let t := (uploadBlockData (c.node x) payloads).transporter
  if y = x then t.blockFile
  else do
    let w ← t.remoteWriters.find? fun w => w.node = y
    (uploadBlockData (c.node y) (← w.stream)).transporter.blockFile

theorem find?_forwarded {info : BlockInfo} {p : Pipeline} {chunks : List Bytes} {ids : List UInt64}
    {y : UInt64} (hy : y ∈ ids) :
    (ids.map (forwarded info p chunks)).find? (fun w => w.node = y) =
      some (forwarded info p chunks y) := by
  induction ids with
  | nil => cases hy
  | cons z ids ih =>
    rw [List.map_cons, List.find?_cons]
    by_cases hz : z = y
    · subst hz
      simp [forwarded]
    · simp only [forwarded, hz, decide_false]
      exact ih ((List.mem_cons.mp hy).resolve_left (Ne.symm hz))

/-- Every node of the pipeline holds what the buffered writer passed on. -/
theorem Cluster.blockFile_eq (c : Cluster) {x y : UInt64} {info : BlockInfo} {p : Pipeline}
    {term eofTerm : UInt64} {eofPipeline : Option Pipeline} {chunks : List Bytes} {r : Result}
    (hc : chunks ≠ []) (hr : (uploadBlockData (c.node x)
      (transfer info p term eofPipeline eofTerm chunks)).answer = some r)
    (hok : r.status = .OK) (hy : y = x ∨ y ∈ p.raftId) :
    c.blockFile x (transfer info p term eofPipeline eofTerm chunks) y =
      some (pathJoin [(c.node y).basePath, info.blockId],
        (Bufio.Writer.new.writeAll chunks : Bufio.Writer UInt8 4096).sink) := by
  have hleft := answered_left hc hr hok
  unfold Cluster.blockFile
  dsimp only
  by_cases hxy : y = x
  · subst hxy
    rw [if_pos rfl, hleft.blockFile]
  · have hmem : y ∈ p.raftId.filter (· ≠ (c.node x).selfID) := by
      rw [List.mem_filter, c.selfID]
      exact ⟨hy.resolve_left hxy, by simpa using hxy⟩
    -- the other node ran the same handler, on a pipeline with itself as the only node
    obtain ⟨r', hreply, hok'⟩ := hleft.replies y hmem
    have hanswer := c.delivers x y _ r' hreply
    rw [if_neg hxy, hleft.remoteWriters, find?_forwarded hmem]
    exact (answered_left hc hanswer hok').blockFile

/-- Files can be created and written, and streams opened and sent on. -/
structure Working (n : Node) : Prop where
  create : ∀ path, n.create path = true
  writeFile : ∀ content chunk, n.writeFile content chunk = true
  openStream : ∀ y, n.openStream y = true
  send : ∀ y payloads, n.send y payloads = true

theorem eachRemote_of_ok {op : RemoteWriter → RemoteWriter × Option Errno} {ws : List RemoteWriter}
    (h : ∀ w ∈ ws, (op w).2 = none) : (eachRemote op ws).2 = none := by
  induction ws with
  | nil => rfl
  | cons w ws ih =>
    have hw := h w List.mem_cons_self
    have hrest := ih fun v hv => h v (List.mem_cons_of_mem w hv)
    unfold eachRemote
    generalize op w = r at hw
    obtain ⟨w', err⟩ := r
    cases hw
    exact hrest

theorem Working.remote_write (h : Working n) (w : RemoteWriter) (c : Bytes) :
    (w.write n c).2 = none := by
  unfold RemoteWriter.write RemoteWriter.init RemoteWriter.sendOn
  cases w.stream <;> simp [h.openStream, h.send]

theorem Working.multiWrite (h : Working n) (t : PrimaryCopyTransporter) (c : Bytes) :
    (t.multiWrite n c).2 = none := by
  have hok := eachRemote_of_ok fun w (_ : w ∈ t.remoteWriters) => h.remote_write w c
  unfold PrimaryCopyTransporter.multiWrite
  generalize eachRemote (fun w => w.write n c) t.remoteWriters = r at hok
  obtain ⟨ws, err⟩ := r
  cases hok
  have hall : t.localWriter.all (fun w => n.writeFile w.content c) = true := by
    cases t.localWriter with
    | none => rfl
    | some w => exact h.writeFile w.content c
  simp only [hall, if_true]

theorem Working.receiving_write (h : Working n) (info : BlockInfo) (p : Pipeline)
    (chunks : List Bytes) (c : Bytes) : (receiving n info p chunks).write n c =
      some (receiving n info p (chunks ++ [c]), none) := by
  obtain ⟨t, ht⟩ : ∃ t, (receiving n info p chunks).write n c = some (t, none) := by
    unfold PrimaryCopyTransporter.write
    by_cases hc : chunks = []
    · simp only [receiving, hc, if_true, PrimaryCopyTransporter.init,
        PrimaryCopyTransporter.getStoragePath, Option.map_some, Option.bind_eq_bind,
        Option.bind_some, h.create]
      exact ⟨_, congrArg some (Prod.ext rfl (h.multiWrite _ c))⟩
    · simp only [receiving, if_neg hc]
      exact ⟨_, congrArg some (Prod.ext rfl (h.multiWrite _ c))⟩
  rw [ht, Gaia.receiving_write ht]

theorem Working.foldl_chunks (h : Working n) (info : BlockInfo) (p : Pipeline)
    (chunks chunks' : List Bytes) :
    (chunks'.map Payload.chunk).foldl (Session.handle n)
        { transporter := receiving n info p chunks } =
      { transporter := receiving n info p (chunks ++ chunks') } := by
  induction chunks' generalizing chunks with
  | nil =>
    rw [List.append_nil]
    rfl
  | cons c chunks' ih =>
    rw [List.map_cons, List.foldl_cons, Session.handle_chunk rfl, Session.processChunk]
    simp only [h.receiving_write]
    rw [ih, List.append_assoc]
    rfl

theorem mapM_newRemoteWriter_isSome {info : BlockInfo} {p : Pipeline} {clusterInfo : ClusterInfo}
    {ids : List UInt64} (h : ∀ y ∈ ids, (getNodeInfo clusterInfo y).isSome) :
    ∃ ws, ids.mapM (fun nodeID => (getNodeInfo clusterInfo nodeID).map fun nodeInfo =>
      newRemoteWriter (some info) nodeInfo p) = some ws := by
  induction ids with
  | nil => exact ⟨[], rfl⟩
  | cons y ids ih =>
    obtain ⟨nodeInfo, hy⟩ := Option.isSome_iff_exists.mp (h y List.mem_cons_self)
    obtain ⟨ws, hws⟩ := ih fun z hz => h z (List.mem_cons_of_mem y hz)
    exact ⟨newRemoteWriter (some info) nodeInfo p :: ws, by rw [List.mapM_cons, hy, hws]; rfl⟩

theorem forwarding_close_of_reply {info : BlockInfo} {p : Pipeline} {chunks : List Bytes}
    {y : UInt64} (hc : chunks ≠ [])
    (h : n.reply y (transfer info (singleNode p y) 0 none 0 chunks) = some ⟨.OK, 0, ""⟩) :
    ((forwarding info p chunks y).close n).2 = none := by
  unfold RemoteWriter.close
  rw [stream_forwarding hc]
  dsimp only
  split
  · rfl
  · rename_i hfail
    exact absurd h (hfail 0 "")

/-- Without failures an upload to known nodes is answered `OK`. -/
theorem Working.answer (h : Working n) {info : BlockInfo} {p : Pipeline} {term eofTerm : UInt64}
    {eofPipeline : Option Pipeline} {chunks : List Bytes} {clusterInfo : ClusterInfo}
    (hc : chunks ≠ []) (hinfo : n.getClusterInfoByTerm term = .ok clusterInfo)
    (hknown : ∀ y ∈ p.raftId.filter (· ≠ n.selfID), (getNodeInfo clusterInfo y).isSome)
    (hreply : ∀ y ∈ p.raftId.filter (· ≠ n.selfID),
      n.reply y (transfer info (singleNode p y) 0 none 0 chunks) = some ⟨.OK, 0, ""⟩) :
    (uploadBlockData n (transfer info p term eofPipeline eofTerm chunks)).answer =
      some ⟨.OK, 0, ""⟩ := by
  obtain ⟨ws, hws⟩ := @mapM_newRemoteWriter_isSome info p _ _ hknown
  have hnew : newPrimaryCopyTransporter (some info) (some p) n.selfID clusterInfo n.basePath =
      some (receiving n info p []) := by
    obtain ⟨t, ht⟩ : ∃ t, newPrimaryCopyTransporter (some info) (some p) n.selfID clusterInfo
        n.basePath = some t := by
      simp only [newPrimaryCopyTransporter, Option.bind_eq_bind, Option.bind_some]
      rw [hws]
      exact ⟨_, rfl⟩
    rw [ht, newPrimaryCopyTransporter_eq ht]
  have hbegin : Session.handle n {} (.message ⟨.BEGIN, some info, some p, term⟩) =
      { transporter := receiving n info p [] } := by
    rw [Session.handle_message rfl]
    simp only [Session.processControlMessage, Session.processBegin, hinfo, hnew]
    rfl
  have hclose : ((receiving n info p chunks).close n).2 = none := by
    rw [close_eq_eachRemote]
    apply eachRemote_of_ok
    intro w hw
    obtain ⟨y, hy, rfl⟩ := List.mem_map.mp hw
    exact forwarding_close_of_reply hc (hreply y hy)
  unfold uploadBlockData transfer
  rw [List.cons_append, List.foldl_cons, List.foldl_append, hbegin, h.foldl_chunks,
    List.nil_append, List.foldl_cons, List.foldl_nil, Session.handle_message rfl]
  unfold Session.processControlMessage Session.processEOF
  dsimp only
  generalize (receiving n info p chunks).close n = r at hclose
  obtain ⟨t, err⟩ := r
  cases hclose
  rfl

/-- An upload that was answered `OK` is in full in the block files of all nodes of its pipeline
exactly when its chunks leave nothing in a buffer of 4096 bytes. -/
theorem stored_block_eq_iff (c : Cluster) (x : UInt64) (info : BlockInfo) (p : Pipeline)
    (term eofTerm : UInt64) (eofPipeline : Option Pipeline) (chunks : List Bytes) (r : Result)
    (hc : chunks ≠ []) (hr : (uploadBlockData (c.node x)
      (transfer info p term eofPipeline eofTerm chunks)).answer = some r)
    (hok : r.status = .OK) :
    (∀ y, y = x ∨ y ∈ p.raftId →
      c.blockFile x (transfer info p term eofPipeline eofTerm chunks) y =
        some (pathJoin [(c.node y).basePath, info.blockId], chunks.flatten)) ↔
      (chunks.map List.length).foldl (Bufio.leftover 4096) 0 = 0 := by
  rw [← Bufio.Writer.sink_writeAll_eq_iff]
  constructor
  · intro h
    have hx := h x (.inl rfl)
    rw [c.blockFile_eq hc hr hok (.inl rfl), Option.some.injEq, Prod.mk.injEq] at hx
    exact hx.2
  · intro h y hy
    rw [c.blockFile_eq hc hr hok hy, h]

/-- A cluster without failures, in which an upload of this block has been forwarded to the
nodes of its pipeline. -/
def workingCluster (clusterInfo : ClusterInfo) (info : BlockInfo) (p : Pipeline)
    (chunks : List Bytes) (hc : chunks ≠ []) : Cluster where
  node x :=
    { selfID := x
      basePath := []
      getClusterInfoByTerm := fun _ => .ok clusterInfo
      reply := fun y payloads =>
        if payloads = transfer info (singleNode p y) 0 none 0 chunks then some ⟨.OK, 0, ""⟩
        else none }
  selfID _ := rfl
  delivers x y payloads r h := by
    dsimp only at h
    split_ifs at h with heq
    cases h
    rw [heq]
    exact Working.answer ⟨fun _ => rfl, fun _ _ => rfl, fun _ => rfl, fun _ _ => rfl⟩ hc rfl
      (by simp [singleNode]) (by simp [singleNode])

theorem answer_workingCluster {clusterInfo : ClusterInfo} {info : BlockInfo} {p : Pipeline}
    {chunks : List Bytes} (hc : chunks ≠ []) (x : UInt64)
    (hknown : ∀ y ∈ p.raftId, (getNodeInfo clusterInfo y).isSome) :
    (uploadBlockData ((workingCluster clusterInfo info p chunks hc).node x)
      (transfer info p 1 (some p) 1 chunks)).answer = some ⟨.OK, 0, ""⟩ :=
  Working.answer ⟨fun _ => rfl, fun _ _ => rfl, fun _ => rfl, fun _ _ => rfl⟩ hc rfl
    (fun y hy => hknown y (List.mem_of_mem_filter hy)) (fun _ _ => if_pos rfl)

def nodeOf (raftId : UInt64) : NodeInfo := ⟨raftId, [], [], 0, 0, .ONLINE⟩

def threeNodes : ClusterInfo where
  term := 1
  leaderInfo := none
  nodesInfo := [nodeOf 1, nodeOf 2, nodeOf 3]
  metaPgNum := 1
  metaPgSize := 3
  blockPgNum := 1
  blockPgSize := 3
  lastTerm := 0

theorem isSome_threeNodes : ∀ y ∈ [1, 2, 3], (getNodeInfo threeNodes y).isSome := by
  intro y hy
  simp only [List.mem_cons, List.not_mem_nil, or_false] at hy
  rcases hy with rfl | rfl | rfl <;> rfl

def twoChunks : List Bytes := [List.replicate 4095 7, List.replicate 4098 7]

theorem twoChunks_ne_nil : twoChunks ≠ [] := List.cons_ne_nil _ _

/-- The second chunk fills up the buffer, which is flushed, and the rest of it is so long that
it goes to the file directly. -/
theorem stored_block_two_chunks :
    (workingCluster threeNodes ⟨[98], 0, 8193, [], 1⟩ ⟨1, [1, 2, 3]⟩ twoChunks
      twoChunks_ne_nil).blockFile 1 (transfer ⟨[98], 0, 8193, [], 1⟩ ⟨1, [1, 2, 3]⟩ 1
        (some ⟨1, [1, 2, 3]⟩) 1 twoChunks) 3 =
      some ([98], twoChunks.flatten) := by
  have hdrained : (twoChunks.map List.length).foldl (Bufio.leftover 4096) 0 = 0 := by
    simp only [twoChunks, List.map_cons, List.map_nil, List.length_replicate, List.foldl_cons,
      List.foldl_nil]
    decide
  exact (stored_block_eq_iff _ 1 ⟨[98], 0, 8193, [], 1⟩ ⟨1, [1, 2, 3]⟩ 1 1 (some ⟨1, [1, 2, 3]⟩)
    twoChunks _ twoChunks_ne_nil (answer_workingCluster _ 1 isSome_threeNodes) rfl).mpr
    hdrained 3 (.inr (by decide))

/-- A block of one byte is answered `OK`, and its files are empty on every node. -/
theorem small_block_lost :
    let c := workingCluster threeNodes ⟨[98], 0, 1, [], 1⟩ ⟨1, [1, 2, 3]⟩ [[7]] (by simp)
    let payloads := transfer ⟨[98], 0, 1, [], 1⟩ ⟨1, [1, 2, 3]⟩ 1 (some ⟨1, [1, 2, 3]⟩) 1 [[7]]
    (uploadBlockData (c.node 1) payloads).answer = some ⟨.OK, 0, ""⟩ ∧
      [1, 2, 3].map (c.blockFile 1 payloads) = List.replicate 3 (some ([98], [])) := by
  exact ⟨by decide +kernel, by decide +kernel⟩

end Ecos.Gaia
