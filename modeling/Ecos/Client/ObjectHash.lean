import Ecos.Client.WritePart

namespace Ecos.Client.ObjectHash
open Go Logic Multipart

/-- The `objHash` of `GetEcosWriter` with the bytes in it; `none` is nil. -/
def newHash : HashType → Option Bytes
  | .sha256 => some []
  | .murmur3_128 => some []
  | .murmur3_32 => some []
  | .off => none

inductive Writer where
  | plain (w : EcosWriter)
  /-- with the bytes that went into `objHash` -/
  | multipart (j : Job) (hashed : Bytes)

/-- `w.Status = FINISHED` -/
def Writer.finished : Writer → Writer
  | plain w => plain { w with status := .FINISHED }
  | multipart j hashed => multipart { j with status := .FINISHED } hashed

structure Session where
  writer : Writer
  /-- a method of a nil `objHash` was called -/
  nilUsed : Bool := false
  /-- the arguments of the calls of `SubmitMeta` -/
  submitted : List ObjectMeta := []

def getEcosWriter (key : Bytes) (term : UInt64) : Session := { writer := .plain { key, term } }

def createMultipartUploadJob (key : Bytes) (term : UInt64) : Session :=
  { writer := .multipart (Multipart.createMultipartUploadJob key term) [] }

inductive Action where
  | write (p : Bytes)
  /-- with the completions in the order of their arrival and the replies to `SubmitMeta` -/
  | close (completions : List (ℕ × Bool)) (replies : List SubmitReply)
  | writePart (partID : Int32) (reader : Reader) (victim : Option Errno)
  | commitPartialMeta (replies : List SubmitReply)
  /-- `CloseMultiPart` up to its second loop -/
  | closeMultiPart (parts : List Int32)
  /-- `Upload` of a block returns -/
  | uploadBlock (h : ℕ) (uploaded : Bool)
  | receive (h : ℕ)
  /-- `CloseMultiPart` after its loops -/
  | finish (replies : List SubmitReply)
  deriving DecidableEq, Repr

/-- `WritePart` gets to its loop. -/
def startsLoop (j : Job) (partID : Int32) (victim : Option Errno) : Bool :=
  j.status = .READING ∧ ¬(partID < 1 ∨ 10000 < partID) ∧
    (addPartID j.partIDs partID ≠ none ∨ j.victimError partID victim = none)

variable (f : Factory)

/-- `genMeta` of a multipart writer, which `Close` does not refuse. -/
def genMeta (j : Job) (hashed : Bytes) : Option ObjectMeta := do
  let blocks ← (List.range' 1 j.blocks.entries.length).mapM fun i =>
    (j.current (Int32.ofNat i)).map Block.info
  return {
    objId := genObjectId f.ring f.bucketInfo j.key
    objSize := 0
    updateTime := f.now
    objHash := if f.bucketInfo.config.objectHashType ≠ .off
      then f.hexSum f.bucketInfo.config.objectHashType hashed else []
    pgId := genObjPgID f.ring f.bucketInfo j.key 10
    blocks
    term := j.term }

namespace Session

/-- A call of a method of `objHash`. -/
def use (s : Session) : Session :=
  { s with nilUsed := s.nilUsed || (newHash f.bucketInfo.config.objectHashType).isNone }

def useUnlessOff (s : Session) : Session :=
  if f.bucketInfo.config.objectHashType ≠ .off then s.use f else s

def submit (s : Session) (n : ℕ) (m : ObjectMeta) : Session :=
  { s with submitted := s.submitted ++ List.replicate n m }

def write (s : Session) (w : EcosWriter) (p : Bytes) : Session :=
  let s := { s with writer := .plain (Client.write f w p).1 }
  -- a call that is refused and an error of the pool come before the hash
  if w.partObject = false ∧ w.status = .READING ∧ (writeLoop f p.length w p).2.2 = none
  then s.useUnlessOff f else s

def close (s : Session) (w : EcosWriter) (completions : List (ℕ × Bool))
    (replies : List SubmitReply) : Option Session := do
  let r ← Client.close f w completions replies
  let s := { s with writer := .plain r.writer, submitted := s.submitted ++ r.submitted }
  return if w.status = .READING then s.useUnlessOff f else s

/-- `Close` of a multipart writer, which counts no blocks and so waits for none. Where a number is
missing among the parts `genMeta` finds a nil block. -/
def closeJob (s : Session) (j : Job) (hashed : Bytes) (replies : List SubmitReply) :
    Option Session :=
  if j.status ≠ .READING then some s
  else
    let j := { j with status := .UPLOADING }
    let s := { s with writer := .multipart j hashed }.useUnlessOff f
    match genMeta f j hashed with
    | none => some s
    | some objectMeta => do
      let (err, n) ← uploadMeta replies
      match err with
      | some _ => return s.submit n objectMeta
      | none =>
        let s := s.submit n objectMeta
        return { s with writer := s.writer.finished }

/-- The loop feeds `objHash` with everything that it reads. -/
def writePart (s : Session) (j : Job) (hashed : Bytes) (partID : Int32) (reader : Reader)
    (victim : Option Errno) : Session :=
  let j' := (j.writePart f partID reader victim).1
  if startsLoop j partID victim
  then { s with writer := .multipart j' (hashed ++ reader.bytes) }.use f
  else { s with writer := .multipart j' hashed }

/-- `CommitPartialMeta` with its error; `genPartialHash` leaves the hash over the blocks' hashes. -/
def commitPartialMeta (s : Session) (j : Job) (replies : List SubmitReply) :
    Option (Session × Option Errno) := do
  let objectMeta ← j.genPartialMeta f
  let (err, n) ← uploadMeta replies
  let s := { s with
    writer := .multipart j (objectMeta.blocks.flatMap BlockInfo.blockHash) }.useUnlessOff f
  return (s.submit n objectMeta, err)

/-- The end of `CloseMultiPart`, whose result is the sum of `objHash`. -/
def finish (s : Session) (j : Job) (replies : List SubmitReply) : Option Session := do
  let c ← j.closing
  if 0 < c.pending then none
  else
    let (s, err) ← s.commitPartialMeta f { j with closing := none } replies
    match err with
    | some _ => return s
    | none => return { s with writer := s.writer.finished }.use f

/-- A plain writer answers the calls for parts with `MethodNotAllowed`, and so does a multipart
writer a `Write`. -/
def step (s : Session) (a : Action) : Option Session :=
  match s.writer, a with
  | .plain w, .write p => some (s.write f w p)
  | .plain w, .close completions replies => s.close f w completions replies
  | .plain _, .uploadBlock _ _ => none
  | .plain _, .receive _ => none
  | .plain _, .finish _ => none
  | .plain _, _ => some s
  | .multipart _ _, .write _ => some s
  | .multipart j hashed, .close _ replies => s.closeJob f j hashed replies
  | .multipart j hashed, .writePart partID reader victim =>
    some (s.writePart f j hashed partID reader victim)
  | .multipart j _, .commitPartialMeta replies => do
    let r ← s.commitPartialMeta f j replies
    return r.1
  | .multipart j hashed, .closeMultiPart parts =>
    some { s with writer := .multipart (j.closeMultiPart .closeMultiPart parts).1 hashed }
  | .multipart j hashed, .uploadBlock h uploaded => do
    let j ← j.uploadBlock h uploaded
    return { s with writer := .multipart j hashed }
  | .multipart j hashed, .receive h => do
    let j ← j.receive h
    return { s with writer := .multipart j hashed }
  | .multipart j _, .finish replies => s.finish f j replies

/-- No nil hash was used, and the hash of an object is empty exactly if it is off. -/
structure Proper (s : Session) : Prop where
  nilUsed : s.nilUsed = false
  objHash : ∀ m ∈ s.submitted, m.objHash = [] ↔ f.bucketInfo.config.objectHashType = .off

/-- The action gets to a use that does not ask for the hash type. -/
def unguarded (s : Session) (a : Action) : Bool :=
  match s.writer, a with
  | .multipart j _, .writePart partID _ victim => startsLoop j partID victim
  | .multipart _ _, .finish replies => (uploadMeta replies).map Prod.fst = some none
  | _, _ => false

variable {f} {s s' : Session} {a : Action}

@[simp] theorem use_submitted : (s.use f).submitted = s.submitted := rfl

@[simp] theorem useUnlessOff_submitted : (s.useUnlessOff f).submitted = s.submitted := by
  unfold useUnlessOff
  split_ifs <;> rfl

theorem isNone_newHash (t : HashType) : (newHash t).isNone = decide (t = .off) := by
  cases t <;> rfl

theorem use_nilUsed : (s.use f).nilUsed =
    (s.nilUsed || decide (f.bucketInfo.config.objectHashType = .off)) := by
  rw [use, isNone_newHash]

@[simp] theorem useUnlessOff_nilUsed : (s.useUnlessOff f).nilUsed = s.nilUsed := by
  unfold useUnlessOff
  split_ifs with h
  · rw [use_nilUsed, decide_eq_false h, Bool.or_false]
  · rfl

variable (f) in
/-- What an action does: it uses a nil hash in the places without a test and nowhere else, and it
submits metas with a hash of the right kind. -/
structure Does (s : Session) (unguarded : Bool) (s' : Session) : Prop where
  nilUsed : s'.nilUsed =
    (s.nilUsed || (unguarded && decide (f.bucketInfo.config.objectHashType = .off)))
  submitted : ∃ ms, s'.submitted = s.submitted ++ ms ∧
    ∀ m ∈ ms, m.objHash = [] ↔ f.bucketInfo.config.objectHashType = .off

theorem Does.of_eq (hnil : s'.nilUsed = s.nilUsed) (hsub : s'.submitted = s.submitted) :
    s.Does f false s' :=
  ⟨by rw [hnil, Bool.false_and, Bool.or_false], [], by rw [hsub, List.append_nil],
    fun _ h => absurd h List.not_mem_nil⟩

theorem Does.submit {m : ObjectMeta} (n : ℕ)
    (hm : m.objHash = [] ↔ f.bucketInfo.config.objectHashType = .off)
    (hnil : s'.nilUsed = s.nilUsed) (hsub : s'.submitted = s.submitted ++ List.replicate n m) :
    s.Does f false s' :=
  ⟨by rw [hnil, Bool.false_and, Bool.or_false], _, hsub,
    fun _ h => by rw [List.eq_of_mem_replicate h]; exact hm⟩

theorem Does.proper_iff {b : Bool} (h : s.Does f b s') :
    s'.Proper f ↔ s.Proper f ∧ (f.bucketInfo.config.objectHashType = .off → b = false) := by
  obtain ⟨hnil, ms, hsub, hms⟩ := h
  have hsplit : s'.nilUsed = false ↔
      s.nilUsed = false ∧ (f.bucketInfo.config.objectHashType = .off → b = false) := by
    rw [hnil]
    cases s.nilUsed <;> cases b <;> simp
  constructor
  · rintro ⟨hs', hall⟩
    obtain ⟨hs, hb⟩ := hsplit.mp hs'
    exact ⟨⟨hs, fun m hm => hall m (hsub ▸ List.mem_append_left _ hm)⟩, hb⟩
  · rintro ⟨⟨hs, hall⟩, hb⟩
    refine ⟨hsplit.mpr ⟨hs, hb⟩, fun m hm => ?_⟩
    rw [hsub] at hm
    exact (List.mem_append.mp hm).elim (hall m) (hms m)

section
variable (hsum : ∀ t, t ≠ .off → ∀ b, f.hexSum t b ≠ [])
include hsum

theorem objHash_eq_nil_iff (b : Bytes) :
    (if f.bucketInfo.config.objectHashType ≠ .off
      then f.hexSum f.bucketInfo.config.objectHashType b else []) = [] ↔
      f.bucketInfo.config.objectHashType = .off := by
  split_ifs with h
  · exact iff_of_false (hsum _ h b) h
  · exact iff_of_true rfl (not_not.mp h)

theorem objHash_genMeta {w : EcosWriter} {m : ObjectMeta} (h : Client.genMeta f w = some m) :
    m.objHash = [] ↔ f.bucketInfo.config.objectHashType = .off := by
  simp only [Client.genMeta, bind, Option.bind_eq_some_iff] at h
  obtain ⟨blocks, -, h⟩ := h
  cases h
  exact objHash_eq_nil_iff hsum w.hashed

theorem objHash_genMeta_job {j : Job} {hashed : Bytes} {m : ObjectMeta}
    (h : genMeta f j hashed = some m) :
    m.objHash = [] ↔ f.bucketInfo.config.objectHashType = .off := by
  simp only [genMeta, bind, Option.bind_eq_some_iff] at h
  obtain ⟨blocks, -, h⟩ := h
  cases h
  exact objHash_eq_nil_iff hsum hashed

theorem objHash_genPartialMeta {j : Job} {m : ObjectMeta} (h : j.genPartialMeta f = some m) :
    m.objHash = [] ↔ f.bucketInfo.config.objectHashType = .off := by
  simp only [Job.genPartialMeta, bind, Option.bind_eq_some_iff] at h
  obtain ⟨blocks, -, h⟩ := h
  cases h
  dsimp only
  rw [← ite_not]
  exact objHash_eq_nil_iff hsum _

theorem does_close {w : EcosWriter} {completions : List (ℕ × Bool)} {replies : List SubmitReply}
    (h : s.close f w completions replies = some s') : s.Does f false s' := by
  simp only [close, bind, Option.bind_eq_some_iff] at h
  obtain ⟨r, hr, h⟩ := h
  cases h
  unfold Client.close at hr
  split_ifs at hr with hstatus
  · cases hr
    rw [if_neg hstatus]
    exact .of_eq rfl (List.append_nil _)
  · simp only [bind, Option.bind_eq_some_iff] at hr
    obtain ⟨w', -, objectMeta, hmeta, ⟨err, n⟩, -, hr⟩ := hr
    have hm := objHash_genMeta hsum hmeta
    rw [if_pos (not_not.mp hstatus)]
    cases err <;> cases hr <;> exact .submit n hm useUnlessOff_nilUsed useUnlessOff_submitted

theorem does_closeJob {j : Job} {hashed : Bytes} {replies : List SubmitReply}
    (h : s.closeJob f j hashed replies = some s') : s.Does f false s' := by
  unfold closeJob at h
  split_ifs at h with hstatus
  · cases h
    exact .of_eq rfl rfl
  · dsimp only at h
    split at h
    · cases h
      exact .of_eq useUnlessOff_nilUsed useUnlessOff_submitted
    · rename_i objectMeta hmeta
      have hm := objHash_genMeta_job hsum hmeta
      simp only [bind, Option.bind_eq_some_iff] at h
      obtain ⟨⟨err, n⟩, -, h⟩ := h
      cases err <;> cases h <;>
        exact .submit n hm useUnlessOff_nilUsed (congrArg (· ++ _) useUnlessOff_submitted)

theorem does_commitPartialMeta {j : Job} {replies : List SubmitReply} {err : Option Errno}
    (h : s.commitPartialMeta f j replies = some (s', err)) :
    s.Does f false s' ∧ (uploadMeta replies).map Prod.fst = some err := by
  simp only [commitPartialMeta, bind, Option.bind_eq_some_iff] at h
  obtain ⟨objectMeta, hmeta, ⟨err', n⟩, hreplies, h⟩ := h
  cases h
  refine ⟨.submit n (objHash_genPartialMeta hsum hmeta) useUnlessOff_nilUsed
    (congrArg (· ++ _) useUnlessOff_submitted), ?_⟩
  rw [hreplies]
  rfl

theorem does_finish {j : Job} {replies : List SubmitReply} (h : s.finish f j replies = some s') :
    s.Does f ((uploadMeta replies).map Prod.fst = some none) s' := by
  simp only [finish, bind, Option.bind_eq_some_iff] at h
  obtain ⟨c, -, h⟩ := h
  split_ifs at h
  simp only [Option.bind_eq_some_iff] at h
  obtain ⟨⟨t, err⟩, ht, h⟩ := h
  obtain ⟨hdoes, hreplies⟩ := does_commitPartialMeta hsum ht
  rw [hreplies]
  cases err with
  | some e =>
    cases h
    exact hdoes
  | none =>
    cases h
    -- the sum for the result is taken for every hash type
    refine ⟨?_, hdoes.submitted⟩
    have hnil := hdoes.nilUsed
    rw [Bool.false_and, Bool.or_false] at hnil
    rw [use_nilUsed, decide_eq_true rfl, Bool.true_and]
    exact congrArg (· || _) hnil

theorem does_step (h : s.step f a = some s') : s.Does f (s.unguarded a) s' := by
  unfold step at h
  unfold unguarded
  cases hw : s.writer with
  | plain w =>
    rw [hw] at h
    cases a with
    | write p =>
      cases h
      unfold write
      dsimp only
      split_ifs
      · exact .of_eq useUnlessOff_nilUsed useUnlessOff_submitted
      · exact .of_eq rfl rfl
    | close completions replies => exact does_close hsum h
    | writePart | commitPartialMeta | closeMultiPart =>
      cases h
      exact .of_eq rfl rfl
    | uploadBlock | receive | finish => cases h
  | multipart j hashed =>
    rw [hw] at h
    cases a with
    | write p =>
      cases h
      exact .of_eq rfl rfl
    | close completions replies => exact does_closeJob hsum h
    | writePart partID reader victim =>
      cases h
      unfold writePart
      dsimp only
      split_ifs with hstarts
      · -- the loop does not ask for the hash type
        refine ⟨?_, [], (List.append_nil _).symm, fun _ h => absurd h List.not_mem_nil⟩
        rw [use_nilUsed, hstarts, Bool.true_and]
      · rw [Bool.eq_false_iff.mpr hstarts]
        exact .of_eq rfl rfl
    | commitPartialMeta replies =>
      simp only [bind, Option.bind_eq_some_iff] at h
      obtain ⟨⟨t, err⟩, ht, h⟩ := h
      cases h
      exact (does_commitPartialMeta hsum ht).1
    | closeMultiPart parts =>
      cases h
      exact .of_eq rfl rfl
    | uploadBlock g uploaded =>
      simp only [bind, Option.bind_eq_some_iff] at h
      obtain ⟨j', -, h⟩ := h
      cases h
      exact .of_eq rfl rfl
    | receive g =>
      simp only [bind, Option.bind_eq_some_iff] at h
      obtain ⟨j', -, h⟩ := h
      cases h
      exact .of_eq rfl rfl
    | finish replies => exact does_finish hsum h

end

/-- A plain writer stays one. -/
theorem plain_step {w : EcosWriter} (hw : s.writer = .plain w) (h : s.step f a = some s') :
    ∃ w', s'.writer = .plain w' := by
  unfold step at h
  rw [hw] at h
  cases a with
  | write p =>
    cases h
    unfold write useUnlessOff
    dsimp only
    split_ifs <;> exact ⟨_, rfl⟩
  | close completions replies =>
    simp only [close, bind, Option.bind_eq_some_iff] at h
    obtain ⟨r, -, h⟩ := h
    cases h
    unfold useUnlessOff
    split_ifs <;> exact ⟨_, rfl⟩
  | writePart | commitPartialMeta | closeMultiPart =>
    cases h
    exact ⟨w, hw⟩
  | uploadBlock | receive | finish => cases h

end Session

open Session

/-- A run is proper exactly if, in a bucket without object hashes, none of its calls is a
`WritePart` that gets to its loop or a `CloseMultiPart` whose meta is accepted. -/
theorem proper_iff_guarded (hsum : ∀ t, t ≠ .off → ∀ b, f.hexSum t b ≠ []) (key : Bytes)
    (term : UInt64) {s₀ s : Session}
    (hs₀ : s₀ = getEcosWriter key term ∨ s₀ = createMultipartUploadJob key term)
    (acts : List Action) (hrun : run (step f) s₀ acts = some s) :
    s.Proper f ↔ Meets (step f)
      (fun t a => f.bucketInfo.config.objectHashType = .off → t.unguarded a = false) s₀ acts := by
  have hinit : s₀.Proper f := by
    rcases hs₀ with rfl | rfl <;> exact ⟨rfl, fun m hm => absurd hm List.not_mem_nil⟩
  rw [run_iff_meets (fun t a t' h => (does_step hsum h).proper_iff) hrun]
  exact and_iff_right hinit

/-- A plain writer works for every hash type. -/
theorem proper_plain (hsum : ∀ t, t ≠ .off → ∀ b, f.hexSum t b ≠ []) {key : Bytes} {term : UInt64}
    {s : Session} {acts : List Action}
    (hrun : run (step f) (getEcosWriter key term) acts = some s) : s.Proper f := by
  have hinit : (getEcosWriter key term).Proper f := ⟨rfl, fun m hm => absurd hm List.not_mem_nil⟩
  have hboth := run_preserved (I := fun s : Session => s.Proper f ∧ ∃ w, s.writer = .plain w)
    (fun t a t' ht h => ?_) ⟨hinit, _, rfl⟩ hrun
  · exact hboth.1
  · obtain ⟨hproper, w, hw⟩ := ht
    have hguard : t.unguarded a = false := by
      unfold unguarded
      rw [hw]
    exact ⟨(does_step hsum h).proper_iff.mpr ⟨hproper, fun _ => hguard⟩, plain_step hw h⟩

def hashingAs (t : HashType) : Factory :=
  { hashing with
    bucketInfo := ⟨[118], [98], [], { keySlotNum := 1, blockSize := 2, objectHashType := t }⟩
    hexSum := fun _ b => 35 :: b }

def after (t : HashType) (acts : List Action) : Session :=
  (run (step (hashingAs t)) (createMultipartUploadJob [107] 1) acts).getD
    (createMultipartUploadJob [107] 1)

def upload : List Action :=
  [.writePart 1 ⟨[], [7], none⟩ none, .uploadBlock 0 true, .closeMultiPart [1], .receive 0,
    .finish [.ok]]

theorem proper_upload : (after .sha256 upload).submitted.map ObjectMeta.objHash = [[35]] ∧
    (after .sha256 upload).Proper (hashingAs .sha256) := by
  refine ⟨by decide, ?_⟩
  refine (proper_iff_guarded (f := hashingAs .sha256) (fun _ _ _ => List.cons_ne_nil _ _) [107] 1
    (.inr rfl) upload rfl).mpr (meets_of_forall (fun _ _ _ hoff => ?_) _)
  cases hoff

/-- Without object hashes the first part panics. A job without parts commits its meta and panics
then. -/
theorem nil_hash_used :
    run (step (hashingAs .off)) (createMultipartUploadJob [107] 1)
        [.writePart 1 ⟨[], [7], none⟩ none] =
      some (after .off [.writePart 1 ⟨[], [7], none⟩ none]) ∧
    ¬(after .off [.writePart 1 ⟨[], [7], none⟩ none]).Proper (hashingAs .off) ∧
    run (step (hashingAs .off)) (createMultipartUploadJob [107] 1)
        [.closeMultiPart [], .finish [.ok]] =
      some (after .off [.closeMultiPart [], .finish [.ok]]) ∧
    (after .off [.closeMultiPart [], .finish [.ok]]).submitted.map ObjectMeta.objHash = [[]] ∧
    ¬(after .off [.closeMultiPart [], .finish [.ok]]).Proper (hashingAs .off) :=
  ⟨rfl, fun h => absurd h.nilUsed (by decide), rfl, by decide,
    fun h => absurd h.nilUsed (by decide)⟩

end Ecos.Client.ObjectHash
