import Ecos.Go.Lines

namespace Ecos.Gateway
open Go

def isHexDigit (b : UInt8) : Bool := isDigit b || (65 ≤ b && b ≤ 70) || (97 ≤ b && b ≤ 102)

/-- The class `\w`. -/
def isWordChar (b : UInt8) : Bool :=
  isDigit b || (65 ≤ b && b ≤ 90) || (97 ≤ b && b ≤ 122) || b = 95

def hexDigitValue (b : UInt8) : ℕ :=
  if b ≤ 57 then b.toNat - 48 else if b ≤ 70 then b.toNat - 55 else b.toNat - 87

def hexValue (s : Bytes) : ℕ := s.foldl (fun n b => 16 * n + hexDigitValue b) 0

def crlf : Bytes := [13, 10]

def chunkSignature : Bytes :=
  ascii [';', 'c', 'h', 'u', 'n', 'k', '-', 's', 'i', 'g', 'n', 'a', 't', 'u', 'r', 'e', '=']

/-- A match of `([A-Fa-f\d]+);chunk-signature=(\w+)\r\n` at the beginning of a string. Neither run
can be continued by what follows it, so there is one way to match. -/
def matchSignature (s : Bytes) : Option (Bytes × Bytes) :=
  let hex := s.takeWhile isHexDigit
  let rest := s.dropWhile isHexDigit
  if hex ≠ [] ∧ chunkSignature <+: rest then
    let rest := rest.drop chunkSignature.length
    let sig := rest.takeWhile isWordChar
    if sig ≠ [] ∧ crlf <+: rest.dropWhile isWordChar then some (hex, sig) else none
  else none

/-- `FindStringSubmatch`: the leftmost match. -/
def findSubmatch : Bytes → Option (Bytes × Bytes)
  | [] => none
  | b :: s => (matchSignature (b :: s)).or (findSubmatch s)

inductive SignatureError where
  /-- `errno.SignatureDoesNotMatch` -/
  | signatureDoesNotMatch
  /-- the error of `strconv.ParseInt` -/
  | parseInt
  deriving DecidableEq, Repr

/-- `parseSignature`, which returns the length and the signature. -/
def parseSignature (line : Bytes) : Except SignatureError (ℕ × Bytes) :=
  match findSubmatch line with
  | none => .error .signatureDoesNotMatch
  | some (hex, sig) => if hexValue hex < 2 ^ 63 then .ok (hexValue hex, sig) else .error .parseInt

structure RequestBody where
  content : Bytes
  /-- reading on behind the content is an error other than `io.EOF` -/
  broken : Bool := false
  deriving DecidableEq, Repr

inductive PutOutcome where
  /-- it calls `Close` of the writer -/
  | closes
  | internalError
  | invalidArgument
  | signatureDoesNotMatch
  | preconditionFailed
  deriving DecidableEq, Repr

structure PutResult where
  written : Bytes
  outcome : PutOutcome
  /-- how often `IncompleteBody` was written -/
  incomplete : ℕ := 0
  deriving DecidableEq, Repr

def PutResult.addChunk (data line : Bytes) (r : PutResult) : PutResult :=
  { r with
    written := data ++ r.written
    incomplete := if line = crlf then r.incomplete else r.incomplete + 1 }

def putLoop (broken : Bool) : ℕ → Bytes → Option PutResult
  | 0, _ => none
  | fuel + 1, s =>
    match readString 10 s with
    | none => some { written := [], outcome := if broken then .internalError else .closes }
    | some (line, s) =>
      match parseSignature line with
      | .error .signatureDoesNotMatch => some { written := [], outcome := .invalidArgument }
      | .error .parseInt => some { written := [], outcome := .signatureDoesNotMatch }
      | .ok (length, _) =>
        if s.length < length then some { written := s, outcome := .preconditionFailed }
        else
          -- a line other than CRLF is reported, and the loop goes on
          let (line, rest) := nextLine 10 (s.drop length)
          (putLoop broken fuel rest).map (PutResult.addChunk (s.take length) line)

/-- `putObject` on a body with signed chunks. -/
def putStreaming (body : RequestBody) : Option PutResult :=
  putLoop body.broken (body.content.length + 1) body.content

def Commits (body : RequestBody) (data : Bytes) : Prop :=
  ∃ r, putStreaming body = some r ∧ r.outcome = .closes ∧ r.written = data

structure Signature where
  hex : Bytes
  sig : Bytes
  hex_ne_nil : hex ≠ []
  hexDigits : ∀ b ∈ hex, isHexDigit b = true
  sig_ne_nil : sig ≠ []
  wordChars : ∀ b ∈ sig, isWordChar b = true

def Signature.line (g : Signature) : Bytes := g.hex ++ (chunkSignature ++ (g.sig ++ crlf))

/-- A chunk `hex-length;chunk-signature=sig CRLF data CRLF`. -/
structure Chunk extends Signature where
  data : Bytes
  length_eq : hexValue hex = data.length

def Chunk.bytes (c : Chunk) : Bytes := c.line ++ (c.data ++ crlf)

/-- The body is a sequence of chunks that ends with one of length zero. -/
def WellFormed (body : RequestBody) (data : Bytes) : Prop :=
  body.broken = false ∧ ∃ chunks : List Chunk, (∃ last ∈ chunks.getLast?, last.data = []) ∧
    body.content = chunks.flatMap Chunk.bytes ∧ data = chunks.flatMap Chunk.data

def Exact (body : RequestBody) : Prop := ∀ data, Commits body data ↔ WellFormed body data

def HexFree (junk : Bytes) : Prop := ∀ b ∈ junk.getLast?, isHexDigit b = false

/-- The contents that the handler accepts. Before the length there may be anything in the line,
after the data there is any line, and the rest is dropped where it has no line end. -/
inductive Accepted : Bytes → Bytes → Prop
  | done {rest : Bytes} (hrest : 10 ∉ rest) : Accepted rest []
  | chunk (c : Chunk) {junk line rest out : Bytes} (hfits : c.data.length < 2 ^ 63)
      (hjunk : 10 ∉ junk) (hhex : HexFree junk) (hline : IsLine 10 line rest)
      (haccepted : Accepted rest out) :
      Accepted (junk ++ (c.line ++ (c.data ++ (line ++ rest)))) (c.data ++ out)

def Accepts (body : RequestBody) (data : Bytes) : Prop :=
  body.broken = false ∧ Accepted body.content data

theorem head_chunkSignature (t : Bytes) :
    ∀ b ∈ (chunkSignature ++ t).head?, isHexDigit b = false := by
  intro b hb
  obtain rfl : 59 = b := Option.some.inj hb
  decide

theorem head_crlf (t : Bytes) : ∀ b ∈ (crlf ++ t).head?, isWordChar b = false := by
  intro b hb
  obtain rfl : 13 = b := Option.some.inj hb
  decide

theorem getLast_chunkSignature (s : Bytes) :
    ∀ b ∈ (s ++ chunkSignature).getLast?, isWordChar b = false := by
  intro b hb
  rw [List.getLast?_append] at hb
  obtain rfl : 61 = b := Option.some.inj hb
  decide

theorem Signature.match_line (g : Signature) (t : Bytes) :
    matchSignature (g.line ++ t) = some (g.hex, g.sig) := by
  obtain ⟨hhex, hrest⟩ := span_run g.hexDigits (head_chunkSignature (g.sig ++ (crlf ++ t)))
  obtain ⟨hsig, hcrlf⟩ := span_run g.wordChars (head_crlf t)
  have hline : g.line ++ t = g.hex ++ (chunkSignature ++ (g.sig ++ (crlf ++ t))) := by
    simp only [Signature.line, List.append_assoc]
  rw [matchSignature, hline]
  simp only [hhex, hrest, List.drop_left, hsig, hcrlf]
  rw [if_pos ⟨g.hex_ne_nil, List.prefix_append _ _⟩, if_pos ⟨g.sig_ne_nil, List.prefix_append _ _⟩]

theorem exists_of_matchSignature {s hex sig : Bytes} (h : matchSignature s = some (hex, sig)) :
    ∃ g : Signature, ∃ t, s = g.line ++ t ∧ g.hex = hex ∧ g.sig = sig := by
  rw [matchSignature] at h
  dsimp only at h
  by_cases hhex : s.takeWhile isHexDigit ≠ [] ∧ chunkSignature <+: s.dropWhile isHexDigit
  swap
  · rw [if_neg hhex] at h
    cases h
  rw [if_pos hhex] at h
  obtain ⟨hne, u, hu⟩ := hhex
  rw [← hu, List.drop_left] at h
  by_cases hsig : u.takeWhile isWordChar ≠ [] ∧ crlf <+: u.dropWhile isWordChar
  swap
  · rw [if_neg hsig] at h
    cases h
  rw [if_pos hsig, Option.some.injEq, Prod.mk.injEq] at h
  obtain ⟨hsne, t, ht⟩ := hsig
  refine ⟨⟨hex, sig, h.1 ▸ hne, ?_, h.2 ▸ hsne, ?_⟩, t, ?_, rfl, rfl⟩
  · intro b hb
    rw [← h.1] at hb
    exact List.mem_takeWhile_imp hb
  · intro b hb
    rw [← h.2] at hb
    exact List.mem_takeWhile_imp hb
  · calc s = s.takeWhile isHexDigit ++ s.dropWhile isHexDigit :=
        List.takeWhile_append_dropWhile.symm
      _ = hex ++ (chunkSignature ++ u) := by rw [h.1, hu]
      _ = hex ++ (chunkSignature ++ (u.takeWhile isWordChar ++ u.dropWhile isWordChar)) := by
        rw [List.takeWhile_append_dropWhile]
      _ = hex ++ (chunkSignature ++ (sig ++ (crlf ++ t))) := by rw [h.2, ht]
      _ = _ := by simp only [Signature.line, List.append_assoc]

def Signature.extend (g : Signature) {b : UInt8} (hb : isHexDigit b = true) : Signature where
  hex := b :: g.hex
  sig := g.sig
  hex_ne_nil := List.cons_ne_nil _ _
  hexDigits := List.forall_mem_cons.2 ⟨hb, g.hexDigits⟩
  sig_ne_nil := g.sig_ne_nil
  wordChars := g.wordChars

theorem exists_of_findSubmatch {s hex sig : Bytes} (h : findSubmatch s = some (hex, sig)) :
    ∃ junk, ∃ g : Signature, ∃ t, s = junk ++ (g.line ++ t) ∧ HexFree junk ∧
      g.hex = hex ∧ g.sig = sig := by
  induction s with
  | nil => cases h
  | cons b s ih =>
    rw [findSubmatch] at h
    cases hm : matchSignature (b :: s) with
    | some m =>
      rw [hm, Option.some_or, Option.some.injEq] at h
      obtain ⟨g, t, hs, hhex, hsig⟩ := exists_of_matchSignature (hm.trans (congrArg some h))
      exact ⟨[], g, t, hs, fun _ hb => (by cases hb), hhex, hsig⟩
    | none =>
      rw [hm, Option.none_or] at h
      obtain ⟨junk, g, t, rfl, hjunk, hhex, hsig⟩ := ih h
      refine ⟨b :: junk, g, t, rfl, ?_, hhex, hsig⟩
      cases junk with
      | cons c junk =>
        rwa [HexFree, List.getLast?_cons_cons]
      | nil =>
        -- otherwise there was a match at `b` already
        intro x hx
        obtain rfl : b = x := by simpa using hx
        by_contra hb
        have hmatch := (g.extend (b := b) (by simpa using hb)).match_line t
        rw [show (g.extend (b := b) (by simpa using hb)).line ++ t = b :: ([] ++ (g.line ++ t))
          from rfl, hm] at hmatch
        cases hmatch

theorem Signature.notMem_before (g : Signature) :
    10 ∉ g.hex ++ (chunkSignature ++ (g.sig ++ [13])) := by
  have hhex : 10 ∉ g.hex := fun h => absurd (g.hexDigits 10 h) (by decide)
  have hsig : 10 ∉ g.sig := fun h => absurd (g.wordChars 10 h) (by decide)
  have hlit : (10 : UInt8) ∉ chunkSignature := by decide
  simp [hhex, hsig, hlit]

theorem Signature.line_eq (g : Signature) :
    g.line = g.hex ++ (chunkSignature ++ (g.sig ++ [13])) ++ [10] := by
  simp [Signature.line, crlf]

/-- A line has one signature at its end. -/
theorem Signature.line_inj {g k : Signature} {a b : Bytes} (ha : HexFree a) (hb : HexFree b)
    (h : a ++ g.line = b ++ k.line) : a = b ∧ g.hex = k.hex ∧ g.sig = k.sig := by
  have hbefore : a ++ g.hex ++ chunkSignature ++ g.sig = b ++ k.hex ++ chunkSignature ++ k.sig := by
    refine (List.append_left_inj crlf).mp ?_
    simpa only [Signature.line, List.append_assoc] using h
  obtain ⟨hlit, hsig⟩ := append_run_inj g.wordChars k.wordChars
    (getLast_chunkSignature _) (getLast_chunkSignature _) hbefore
  obtain ⟨hab, hhex⟩ := append_run_inj g.hexDigits k.hexDigits ha hb
    (List.append_cancel_right hlit)
  exact ⟨hab, hhex, hsig⟩

theorem exists_findSubmatch (junk : Bytes) (g : Signature) (t : Bytes) :
    ∃ m, findSubmatch (junk ++ (g.line ++ t)) = some m := by
  induction junk with
  | nil =>
    rw [List.nil_append]
    have hmatch := g.match_line t
    cases hs : g.line ++ t with
    | nil => simp [Signature.line, crlf] at hs
    | cons b s =>
      rw [hs] at hmatch
      exact ⟨_, by rw [findSubmatch, hmatch, Option.some_or]⟩
  | cons b junk ih =>
    obtain ⟨m, hm⟩ := ih
    rw [List.cons_append, findSubmatch, hm]
    cases matchSignature (b :: (junk ++ (g.line ++ t))) with
    | none => exact ⟨m, rfl⟩
    | some k => exact ⟨k, rfl⟩

/-- On a line the expression finds the signature that ends it. -/
theorem findSubmatch_line {l hex sig : Bytes} (hl : 10 ∉ l) :
    findSubmatch (l ++ [10]) = some (hex, sig) ↔
      ∃ junk, ∃ g : Signature, l ++ [10] = junk ++ g.line ∧ HexFree junk ∧
        g.hex = hex ∧ g.sig = sig := by
  have hsound : ∀ {hex sig}, findSubmatch (l ++ [10]) = some (hex, sig) →
      ∃ junk, ∃ g : Signature, l ++ [10] = junk ++ g.line ∧ HexFree junk ∧
        g.hex = hex ∧ g.sig = sig := by
    intro hex sig h
    obtain ⟨junk, g, t, hs, hjunk, hhex, hsig⟩ := exists_of_findSubmatch h
    rcases List.eq_nil_or_concat t with rfl | ⟨t, b, rfl⟩
    · exact ⟨junk, g, by rw [hs, List.append_nil], hjunk, hhex, hsig⟩
    · -- a match that ends earlier leaves a line end in `l`
      have hsplit : l ++ [10] = junk ++ (g.line ++ t) ++ [b] := by
        rw [hs, List.concat_eq_append, List.append_assoc, List.append_assoc]
      have hinit : l = junk ++ (g.line ++ t) := (List.append_inj' hsplit rfl).1
      exact absurd (by rw [hinit, g.line_eq]; simp) hl
  refine ⟨hsound, ?_⟩
  rintro ⟨junk, g, hs, hjunk, rfl, rfl⟩
  obtain ⟨m, hm⟩ := exists_findSubmatch junk g []
  rw [List.append_nil, ← hs] at hm
  obtain ⟨junk', g', hs', hjunk', hhex, hsig⟩ := hsound hm
  obtain ⟨-, hhex', hsig'⟩ := Signature.line_inj hjunk hjunk' (hs.symm.trans hs')
  rw [hm, Option.some.injEq, Prod.ext_iff]
  exact ⟨hhex.symm.trans hhex'.symm, hsig.symm.trans hsig'.symm⟩

theorem Signature.readString_line (g : Signature) {junk : Bytes} (hjunk : 10 ∉ junk) (t : Bytes) :
    readString 10 (junk ++ (g.line ++ t)) = some (junk ++ g.line, t) := by
  have hmem : 10 ∉ junk ++ (g.hex ++ (chunkSignature ++ (g.sig ++ [13]))) := by
    rw [List.mem_append, not_or]
    exact ⟨hjunk, g.notMem_before⟩
  have hread := readString_append hmem t
  simpa only [Signature.line, crlf, List.append_assoc, List.cons_append, List.nil_append]
    using hread

theorem accepted_of_notMem {s out : Bytes} (hs : 10 ∉ s) : Accepted s out ↔ out = [] := by
  constructor
  · intro h
    cases h with
    | done => rfl
    | chunk c => exact absurd (by rw [c.line_eq]; simp) hs
  · rintro rfl
    exact .done hs

/-- The rest after `n` bytes of data and the line that follows them. -/
def afterChunk (n : ℕ) (s : Bytes) : Bytes := (nextLine 10 (s.drop n)).2

theorem length_afterChunk_le (n : ℕ) (s : Bytes) : (afterChunk n s).length ≤ s.length := by
  obtain ⟨line, rest, hline, hrest⟩ := exists_nextLine 10 (s.drop n)
  have hlen := congrArg List.length hrest
  rw [List.length_drop, List.length_append] at hlen
  have hafter : afterChunk n s = rest := by rw [afterChunk, hrest, nextLine_append hline]
  rw [hafter]
  omega

structure Announces (l s : Bytes) (g : Signature) : Prop where
  line : ∃ junk, l ++ [10] = junk ++ g.line ∧ HexFree junk
  fits : hexValue g.hex < 2 ^ 63
  le : hexValue g.hex ≤ s.length

namespace Announces
variable {l s out : Bytes} {g k : Signature} {broken : Bool} {fuel : ℕ}

theorem hex_eq (hg : Announces l s g) (hk : Announces l s k) : g.hex = k.hex := by
  obtain ⟨a, ha, hafree⟩ := hg.line
  obtain ⟨b, hb, hbfree⟩ := hk.line
  exact (Signature.line_inj hafree hbfree (ha.symm.trans hb)).2.1

theorem accepted (h : Announces l s g) (hl : 10 ∉ l)
    (haccepted : Accepted (afterChunk (hexValue g.hex) s) out) :
    Accepted (l ++ 10 :: s) (s.take (hexValue g.hex) ++ out) := by
  obtain ⟨junk, hs, hjunk⟩ := h.line
  obtain ⟨line, rest, hline, hrest⟩ := exists_nextLine 10 (s.drop (hexValue g.hex))
  rw [afterChunk, hrest, nextLine_append hline] at haccepted
  have hlength : hexValue g.hex = (s.take (hexValue g.hex)).length := by
    rw [List.length_take, min_eq_left h.le]
  have hcontent : l ++ 10 :: s =
      junk ++ (g.line ++ (s.take (hexValue g.hex) ++ (line ++ rest))) := by
    rw [← hrest, List.take_append_drop, ← List.append_assoc, ← hs, List.append_assoc,
      List.singleton_append]
  have hmem : 10 ∉ junk := by
    intro hmem
    rw [g.line_eq, ← List.append_assoc] at hs
    exact hl (by rw [(List.append_inj' hs rfl).1]; exact List.mem_append_left _ hmem)
  rw [hcontent]
  exact .chunk ⟨g, s.take (hexValue g.hex), hlength⟩ (hlength ▸ h.fits) hmem hjunk hline haccepted

theorem of_accepted (hl : 10 ∉ l) (h : Accepted (l ++ 10 :: s) out) :
    ∃ g, Announces l s g ∧ ∃ out', Accepted (afterChunk (hexValue g.hex) s) out' ∧
      out = s.take (hexValue g.hex) ++ out' := by
  generalize hcontent : l ++ 10 :: s = content at h
  cases h with
  | done hrest => exact absurd (by rw [← hcontent]; simp) hrest
  | @chunk c junk line rest out hfits hjunk hhex hline haccepted =>
    have hread := readString_append hl s
    rw [hcontent, c.readString_line hjunk, Option.some.injEq, Prod.mk.injEq] at hread
    obtain ⟨hsame, rfl⟩ := hread
    have hlength := c.length_eq
    refine ⟨c.toSignature, ⟨⟨junk, hsame.symm, hhex⟩, by omega, by simp [hlength]⟩, out, ?_, ?_⟩
    · rw [afterChunk, hlength, List.drop_left, nextLine_append hline]
      exact haccepted
    · rw [hlength, List.take_left]

/-- A round of the loop over a chunk. -/
theorem putLoop_eq (h : Announces l s g) (hl : 10 ∉ l) :
    putLoop broken (fuel + 1) (l ++ 10 :: s) =
      (putLoop broken fuel (afterChunk (hexValue g.hex) s)).map (PutResult.addChunk
        (s.take (hexValue g.hex)) (nextLine 10 (s.drop (hexValue g.hex))).1) := by
  obtain ⟨junk, hs, hjunk⟩ := h.line
  have hparse : parseSignature (l ++ [10]) = .ok (hexValue g.hex, g.sig) := by
    simp only [parseSignature, (findSubmatch_line hl).2 ⟨junk, g, hs, hjunk, rfl, rfl⟩,
      if_pos h.fits]
  simp only [putLoop, readString_append hl, hparse, if_neg (Nat.not_lt.2 h.le), afterChunk]

/-- A round of the loop over anything else is the last one. -/
theorem putLoop_refused (broken : Bool) (fuel : ℕ) (h : ∀ g, ¬Announces l s g) (hl : 10 ∉ l) :
    ∃ r, putLoop broken (fuel + 1) (l ++ 10 :: s) = some r ∧ r.outcome ≠ .closes := by
  simp only [putLoop, readString_append hl, parseSignature]
  cases hfind : findSubmatch (l ++ [10]) with
  | none => exact ⟨_, rfl, by simp⟩
  | some m =>
    obtain ⟨hex, sig⟩ := m
    obtain ⟨junk, g, hs, hjunk, hhex, -⟩ := (findSubmatch_line hl).1 hfind
    by_cases hfits : hexValue hex < 2 ^ 63
    swap
    · simp only [if_neg hfits]
      exact ⟨_, rfl, by simp⟩
    · have hshort : s.length < hexValue hex := by
        by_contra hle
        exact h g ⟨⟨junk, hs, hjunk⟩, by rwa [hhex], by rw [hhex]; omega⟩
      simp only [if_pos hfits, if_pos hshort]
      exact ⟨_, rfl, by simp⟩

end Announces

/-- The loop ends, and it closes the writer exactly on an accepted content. -/
theorem putLoop_spec (broken : Bool) {fuel : ℕ} {s : Bytes} (hfuel : s.length < fuel) :
    ∃ r, putLoop broken fuel s = some r ∧
      ∀ out, r.outcome = .closes ∧ r.written = out ↔ broken = false ∧ Accepted s out := by
  induction fuel generalizing s with
  | zero => omega
  | succ fuel ih =>
    cases hread : readString 10 s with
    | none =>
      refine ⟨_, by rw [putLoop, hread], ?_⟩
      intro out
      rw [accepted_of_notMem (readString_eq_none_iff.1 hread)]
      cases broken <;> simp [eq_comm]
    | some m =>
      obtain ⟨line, s⟩ := m
      obtain ⟨l, hl, -, rfl⟩ := exists_of_readString hread
      by_cases hannounces : ∃ g, Announces l s g
      · obtain ⟨g, hg⟩ := hannounces
        have hless : (afterChunk (hexValue g.hex) s).length < fuel := by
          have hle := length_afterChunk_le (hexValue g.hex) s
          rw [List.length_append, List.length_cons] at hfuel
          omega
        obtain ⟨r, hr, hspec⟩ := ih hless
        refine ⟨_, by rw [hg.putLoop_eq hl, hr, Option.map_some], ?_⟩
        intro out
        constructor
        · rintro ⟨hcloses, rfl⟩
          obtain ⟨hbroken, haccepted⟩ := (hspec _).1 ⟨hcloses, rfl⟩
          exact ⟨hbroken, hg.accepted hl haccepted⟩
        · rintro ⟨hbroken, haccepted⟩
          obtain ⟨k, hk, out', hrest, rfl⟩ := Announces.of_accepted hl haccepted
          rw [hk.hex_eq hg] at hrest ⊢
          obtain ⟨hcloses, rfl⟩ := (hspec out').2 ⟨hbroken, hrest⟩
          exact ⟨hcloses, rfl⟩
      · obtain ⟨r, hr, hrefused⟩ :=
          Announces.putLoop_refused broken fuel (not_exists.1 hannounces) hl
        refine ⟨r, hr, fun out => ⟨fun h => absurd h.1 hrefused, fun h => ?_⟩⟩
        obtain ⟨g, hg, -⟩ := Announces.of_accepted hl h.2
        exact absurd ⟨g, hg⟩ hannounces

theorem commits_iff_accepts (body : RequestBody) (data : Bytes) :
    Commits body data ↔ Accepts body data := by
  obtain ⟨r, hr, hspec⟩ := putLoop_spec body.broken (Nat.lt_succ_self body.content.length)
  rw [Accepts, ← hspec data, Commits, putStreaming]
  constructor
  · rintro ⟨r', hr', hcommits⟩
    obtain rfl : r = r' := Option.some.inj (hr.symm.trans hr')
    exact hcommits
  · exact fun h => ⟨r, hr, h⟩

theorem Commits.unique {body : RequestBody} {data data' : Bytes} (h : Commits body data)
    (h' : Commits body data') : data = data' := by
  obtain ⟨r, hr, -, rfl⟩ := h
  obtain ⟨r', hr', -, rfl⟩ := h'
  rw [Option.some.inj (hr.symm.trans hr')]

theorem accepted_chunks {chunks : List Chunk} (hfits : ∀ c ∈ chunks, c.data.length < 2 ^ 63) :
    Accepted (chunks.flatMap Chunk.bytes) (chunks.flatMap Chunk.data) := by
  induction chunks with
  | nil => exact .done (by simp)
  | cons c chunks ih =>
    rw [List.forall_mem_cons] at hfits
    have hline : IsLine 10 crlf (chunks.flatMap Chunk.bytes) := .inl ⟨[13], rfl, by decide⟩
    have haccepted := Accepted.chunk c hfits.1 (List.not_mem_nil) (fun _ hb => (by cases hb)) hline
      (ih hfits.2)
    simpa only [List.flatMap_cons, Chunk.bytes, List.nil_append, List.append_assoc] using haccepted

theorem WellFormed.accepts {body : RequestBody} {data : Bytes} (h : WellFormed body data)
    (hsize : body.content.length < 2 ^ 63) : Accepts body data := by
  obtain ⟨hbroken, chunks, -, hcontent, rfl⟩ := h
  refine ⟨hbroken, ?_⟩
  rw [hcontent] at hsize ⊢
  apply accepted_chunks
  intro c hc
  have hle := (List.sublist_flatten_of_mem (List.mem_map_of_mem (f := Chunk.bytes) hc)).length_le
  rw [← List.flatMap_def] at hle
  simp only [Chunk.bytes, List.length_append] at hle
  omega

/-- The handler is exact on the well-formed bodies and on those that it refuses; every other body
that it accepts is committed all the same. -/
theorem exact_iff_wellFormed (body : RequestBody) (hsize : body.content.length < 2 ^ 63) :
    Exact body ↔ (∃ data, WellFormed body data) ∨ ¬∃ data, Accepts body data := by
  constructor
  · intro hexact
    by_cases haccepts : ∃ data, Accepts body data
    · obtain ⟨data, hdata⟩ := haccepts
      exact .inl ⟨data, (hexact data).1 ((commits_iff_accepts body data).2 hdata)⟩
    · exact .inr haccepts
  · rintro (⟨data, hdata⟩ | hrefused) out
    · have hcommits : ∀ {d}, WellFormed body d → Commits body d := fun h =>
        (commits_iff_accepts body _).2 (h.accepts hsize)
      refine ⟨fun hout => ?_, hcommits⟩
      rwa [hout.unique (hcommits hdata)]
    · refine ⟨fun hout => ?_, fun hout => ?_⟩
      · exact absurd ⟨out, (commits_iff_accepts body out).1 hout⟩ hrefused
      · exact absurd ⟨out, hout.accepts hsize⟩ hrefused

/-- The line `1;chunk-signature=a` with the data `A`. -/
def oneByte : Chunk where
  hex := [49]
  sig := [97]
  hex_ne_nil := by decide
  hexDigits := List.forall_mem_singleton.mpr (by decide)
  sig_ne_nil := by decide
  wordChars := List.forall_mem_singleton.mpr (by decide)
  data := [65]
  length_eq := by decide

/-- The line `0;chunk-signature=a`. -/
def lastChunk : Chunk where
  hex := [48]
  sig := [97]
  hex_ne_nil := by decide
  hexDigits := List.forall_mem_singleton.mpr (by decide)
  sig_ne_nil := by decide
  wordChars := List.forall_mem_singleton.mpr (by decide)
  data := []
  length_eq := by decide

theorem exact_iff_wellFormed_oneByte :
    (oneByte.bytes ++ lastChunk.bytes).length < 2 ^ 63 ∧
      Exact { content := oneByte.bytes ++ lastChunk.bytes } := by
  have hsize : (oneByte.bytes ++ lastChunk.bytes).length < 2 ^ 63 := by decide +kernel
  refine ⟨hsize, (exact_iff_wellFormed _ hsize).2 (.inl ⟨[65], rfl, [oneByte, lastChunk], ?_⟩)⟩
  exact ⟨⟨lastChunk, rfl, rfl⟩, by simp, rfl⟩

theorem WellFormed.suffix {body : RequestBody} {data : Bytes} (h : WellFormed body data) :
    crlf ++ crlf <:+ body.content := by
  obtain ⟨-, chunks, ⟨last, hlast, hdata⟩, hcontent, -⟩ := h
  obtain ⟨init, rfl⟩ := List.getLast?_eq_some_iff.1 hlast
  refine ⟨init.flatMap Chunk.bytes ++ (last.hex ++ (chunkSignature ++ last.sig)), ?_⟩
  simp [hcontent, Chunk.bytes, Signature.line, hdata]

/-- An empty body, one that is cut off after its first chunk, and one whose last chunk is followed
by another line than CRLF are committed. -/
theorem truncated_body_committed :
    (Commits { content := [] } [] ∧ ¬∃ data, WellFormed { content := [] } data) ∧
      (Commits { content := oneByte.bytes } [65] ∧
        ¬∃ data, WellFormed { content := oneByte.bytes } data) ∧
      (Commits { content := oneByte.bytes ++ lastChunk.line ++ [120, 10] } [65] ∧
        ¬∃ data, WellFormed { content := oneByte.bytes ++ lastChunk.line ++ [120, 10] } data) := by
  refine ⟨⟨⟨⟨[], .closes, 0⟩, by decide +kernel, rfl, rfl⟩, ?_⟩,
    ⟨⟨⟨[65], .closes, 0⟩, by decide +kernel, rfl, rfl⟩, ?_⟩,
    ⟨⟨[65], .closes, 1⟩, by decide +kernel, rfl, rfl⟩, ?_⟩
  all_goals
    rintro ⟨data, hdata⟩
    exact absurd hdata.suffix (by decide +kernel)

end Ecos.Gateway
