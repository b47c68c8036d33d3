import Ecos.Client.Seek

namespace Ecos.Gateway
open Go Client

structure HttpRange where
  start : Int64
  length : Int64
  deriving DecidableEq, Repr

def HttpRange.contentRange (r : HttpRange) (size : Int64) : Bytes :=
  ascii ['b', 'y', 't', 'e', 's', ' '] ++ formatInt r.start.toInt ++ ascii ['-'] ++
    formatInt (r.start + r.length - 1).toInt ++ ascii ['/'] ++ formatInt size.toInt

def isASCIISpace (b : UInt8) : Bool := b = 32 || b = 9 || b = 10 || b = 13

def trimString (s : Bytes) : Bytes :=
  ((s.dropWhile isASCIISpace).reverse.dropWhile isASCIISpace).reverse

inductive Part where
  | blank
  /-- it begins after the content -/
  | noOverlap
  | range (r : HttpRange)
  deriving DecidableEq, Repr

def parseSuffix (size : Int64) (last : Bytes) : Option Part := do
  let i ← parseInt last
  let i := if i > size then size else i
  let start := size - i
  return .range ⟨start, size - start⟩

def parseFrom (size : Int64) (start last : Bytes) : Option Part := do
  let i ← parseInt start
  if i < 0 then none
  else if i ≥ size then return .noOverlap
  else if last = [] then return .range ⟨i, size - i⟩
  else
    let j ← parseInt last
    if i > j then none
    else
      let j := if j ≥ size then size - 1 else j
      return .range ⟨i, j - i + 1⟩

/-- The loop body of `parseRange`; `none` is the error "invalid range". -/
def parsePart (size : Int64) (ra : Bytes) : Option Part :=
  let ra := trimString ra
  if ra = [] then some .blank
  else if 45 ∉ ra then none
  else
    let start := trimString (ra.takeWhile (· ≠ 45))
    let last := trimString (ra.dropWhile (· ≠ 45)).tail
    if start = [] then parseSuffix size last else parseFrom size start last

def parseParts (size : Int64) : List Bytes → Option (List HttpRange × Bool)
  | [] => some ([], false)
  | ra :: ras => do
    let part ← parsePart size ra
    let (ranges, noOverlap) ← parseParts size ras
    match part with
    | .blank => return (ranges, noOverlap)
    | .noOverlap => return (ranges, true)
    | .range r => return (r :: ranges, noOverlap)

def parseRange (s : Bytes) (size : Int64) : Except String (List HttpRange) :=
  if s = [] then .ok []
  else
    let b := ascii ['b', 'y', 't', 'e', 's', '=']
    if b <+: s then
      match parseParts size ((s.drop b.length).splitOn 44) with
      | none => .error "invalid range"
      | some (ranges, noOverlap) =>
        if noOverlap ∧ ranges = [] then .error "invalid range" else .ok ranges
    else .error "invalid range"

/-- The loop of `io.CopyN` behind its `LimitedReader`: the buffer, and what may still be read. -/
def copyLoop (fetch : Bytes → Option Bytes) (schedule : ℕ → List CalcBlock → List CalcBlock) :
    ℕ → EcosReader → Bytes → ℕ → Option (EcosReader × Bytes)
  | 0, _, _, _ => none
  | fuel + 1, r, buffer, left =>
    if left = 0 then some (r, [])
    else do
      let res ← read fetch r ⟨buffer.take left, schedule left⟩
      if res.eof then return (res.reader, res.buffer.take res.n)
      else
        let (r, out) ← copyLoop fetch schedule fuel res.reader (res.buffer ++ buffer.drop left)
          (left - res.n)
        return (r, res.buffer.take res.n ++ out)

/-- `io.CopyN` from a reader: the bytes copied, and whether it returns `io.EOF`. Every read but
the last takes a byte at least, so there are not more of them than bytes. -/
def copyN (fetch : Bytes → Option Bytes) (schedule : ℕ → List CalcBlock → List CalcBlock)
    (r : EcosReader) (length : Int64) : Option (EcosReader × Bytes × Bool) := do
  let n := length.toInt
  let size := if n < 1 then 1 else min n.toNat 32768
  let (r, out) ← copyLoop fetch schedule (n.toNat + 1) r (List.replicate size 0) n.toNat
  return (r, out, out.length < n)

structure BodyPart where
  contentRange : Bytes
  body : Bytes
  deriving DecidableEq, Repr

inductive RangeReply where
  /-- the handler panics or never returns -/
  | noReply
  /-- `StatusRequestedRangeNotSatisfiable` with `InvalidRange` -/
  | invalidRange
  /-- `StatusRequestedRangeNotSatisfiable` -/
  | notSatisfiable
  /-- `InternalError` after these parts -/
  | internalError (parts : List BodyPart)
  | partialContent (parts : List BodyPart)
  deriving DecidableEq, Repr

section
variable (fetch : Bytes → Option Bytes) (schedule : ℕ → List CalcBlock → List CalcBlock)

def getRange (r : EcosReader) (size : Int64) (range : HttpRange) : RangeReply :=
  match seek r range.start .SeekStart with
  | none => .noReply
  | some ⟨_, _, some _⟩ => .internalError []
  | some ⟨r, _, none⟩ =>
    match copyN fetch schedule r range.length with
    | none => .noReply
    | some (_, body, eof) =>
      if eof then .internalError [⟨range.contentRange size, body⟩]
      else .partialContent [⟨range.contentRange size, body⟩]

/-- The loop over several ranges. It seeks to the first of them before each part, and from there
to the range of the part. Then it takes an `io.EOF` for no error. -/
def getRanges (size first : Int64) : EcosReader → List HttpRange → List BodyPart → RangeReply
  | _, [], parts => .partialContent parts
  | r, range :: ranges, parts =>
    match seek r first .SeekStart with
    | none => .noReply
    | some ⟨_, _, some _⟩ => .internalError parts
    | some ⟨r, _, none⟩ =>
      match seek r range.start .SeekStart with
      | none => .noReply
      | some ⟨r, _, err⟩ =>
        if err ≠ none ∧ err ≠ some .eof then
          .internalError (parts ++ [⟨range.contentRange size, []⟩])
        else
          match copyN fetch schedule r range.length with
          | none => .noReply
          | some (r, body, _) =>
            getRanges size first r ranges (parts ++ [⟨range.contentRange size, body⟩])

/-- `getObject` for a request with this `Range` header. -/
def getObjectRange (c : Capacity) (m : ObjectMeta) (header : Bytes) : RangeReply :=
  let size := m.objSize.toInt64
  let r : EcosReader := { capacity := c, objectMeta := m }
  match parseRange header size with
  | .error _ => .invalidRange
  | .ok [] => .notSatisfiable
  | .ok [range] => getRange fetch schedule r size range
  | .ok (range :: ranges) => getRanges fetch schedule size range.start r (range :: ranges) []

end

def HttpRange.InBounds (n : ℕ) (r : HttpRange) : Prop :=
  0 ≤ r.start.toInt ∧ 0 ≤ r.length.toInt ∧ r.start.toInt + r.length.toInt ≤ n

/-- The range lies in the content unless its length is negative, and it begins inside the content
exactly where it is not empty. -/
structure HttpRange.Proper (n : ℕ) (r : HttpRange) : Prop where
  inBounds : 0 ≤ r.length.toInt → r.InBounds n
  start_lt : 0 ≤ r.length.toInt → (0 < r.length.toInt ↔ r.start.toInt < n)

theorem proper_suffix {n : ℕ} {size i : Int64} (hsize : size.toInt = n) (hi : i.toInt ≤ n) :
    HttpRange.Proper n ⟨size - i, size - (size - i)⟩ := by
  obtain ⟨k, hk⟩ := toInt_sub_word size i
  obtain ⟨l, hl⟩ := toInt_sub_word size (size - i)
  have hmin := i.le_toInt
  have hmin' := (size - (size - i)).le_toInt
  have hmax' := (size - (size - i)).toInt_lt
  have hmin'' := (size - i).le_toInt
  have hmax'' := (size - i).toInt_lt
  have hlt := size.toInt_lt
  constructor
  · intro h
    simp only [HttpRange.InBounds] at h ⊢
    omega
  · intro h
    simp only at h ⊢
    omega

theorem proper_open {n : ℕ} {size i : Int64} (hsize : size.toInt = n) (hi : 0 ≤ i.toInt)
    (hlt : i.toInt < n) : HttpRange.Proper n ⟨i, size - i⟩ ∧ 0 < (size - i).toInt := by
  obtain ⟨k, hk⟩ := toInt_sub_word size i
  have hmax := size.toInt_lt
  have hmin' := (size - i).le_toInt
  have hmax' := (size - i).toInt_lt
  refine ⟨⟨fun h => ?_, fun h => ?_⟩, by omega⟩
  · simp only [HttpRange.InBounds] at h ⊢
    omega
  · simp only at h ⊢
    omega

theorem proper_closed {n : ℕ} {size i j : Int64} (hsize : size.toInt = n) (hi : 0 ≤ i.toInt)
    (hij : i.toInt ≤ j.toInt) (hj : j.toInt < n) :
    HttpRange.Proper n ⟨i, j - i + 1⟩ ∧ 0 < (j - i + 1).toInt := by
  obtain ⟨k, hk⟩ := toInt_sub_word j i
  obtain ⟨l, hl⟩ := toInt_add_word (j - i) 1
  have hone : (1 : Int64).toInt = 1 := rfl
  have hlt := size.toInt_lt
  have hmin := (j - i).le_toInt
  have hmax := (j - i).toInt_lt
  have hmin' := (j - i + 1).le_toInt
  have hmax' := (j - i + 1).toInt_lt
  refine ⟨⟨fun h => ?_, fun h => ?_⟩, by omega⟩
  · simp only [HttpRange.InBounds] at h ⊢
    omega
  · simp only at h ⊢
    omega

theorem toInt_pred {n : ℕ} {size : Int64} (hsize : size.toInt = n) :
    (size - 1).toInt = n - 1 := by
  obtain ⟨k, hk⟩ := toInt_sub_word size 1
  have hone : (1 : Int64).toInt = 1 := rfl
  have hlt := size.toInt_lt
  have hmin := (size - 1).le_toInt
  have hmax := (size - 1).toInt_lt
  omega

theorem parseSuffix_proper {n : ℕ} {size : Int64} (hsize : size.toInt = n) {last : Bytes}
    {r : HttpRange} (h : parseSuffix size last = some (.range r)) : r.Proper n := by
  simp only [parseSuffix, Option.bind_eq_bind, Option.bind_eq_some_iff] at h
  obtain ⟨i, -, hr⟩ := h
  cases hr
  apply proper_suffix hsize
  by_cases hgt : i > size
  · rw [if_pos hgt, hsize]
  · rw [if_neg hgt]
    rw [gt_iff_lt, Int64.lt_iff_toInt_lt] at hgt
    omega

theorem parseFrom_proper {n : ℕ} {size : Int64} (hsize : size.toInt = n) {start last : Bytes}
    {r : HttpRange} (h : parseFrom size start last = some (.range r)) :
    r.Proper n ∧ 0 < r.length.toInt := by
  have hzero : (0 : Int64).toInt = 0 := rfl
  have hpred := toInt_pred hsize
  simp only [parseFrom, Option.bind_eq_bind, Option.bind_eq_some_iff] at h
  obtain ⟨i, -, hr⟩ := h
  split_ifs at hr with hneg hbeyond hlast
  · cases hr
  · cases hr
    rw [Int64.lt_iff_toInt_lt] at hneg
    rw [ge_iff_le, Int64.le_iff_toInt_le] at hbeyond
    exact proper_open hsize (by omega) (by omega)
  · obtain ⟨j, -, hr⟩ := Option.bind_eq_some_iff.mp hr
    rw [Int64.lt_iff_toInt_lt] at hneg
    rw [ge_iff_le, Int64.le_iff_toInt_le] at hbeyond
    split_ifs at hr with hgt hclamp
    · cases hr
      rw [gt_iff_lt, Int64.lt_iff_toInt_lt] at hgt
      exact proper_closed hsize (by omega) (by omega) (by omega)
    · cases hr
      rw [gt_iff_lt, Int64.lt_iff_toInt_lt] at hgt
      rw [ge_iff_le, Int64.le_iff_toInt_le] at hclamp
      exact proper_closed hsize (by omega) (by omega) (by omega)

theorem parsePart_proper {n : ℕ} {size : Int64} (hsize : size.toInt = n) {ra : Bytes}
    {r : HttpRange} (h : parsePart size ra = some (.range r)) : r.Proper n := by
  simp only [parsePart] at h
  split_ifs at h
  · cases h
  · exact parseSuffix_proper hsize h
  · exact (parseFrom_proper hsize h).1

theorem parseParts_proper {n : ℕ} {size : Int64} (hsize : size.toInt = n) {ras : List Bytes}
    {ranges : List HttpRange} {noOverlap : Bool}
    (h : parseParts size ras = some (ranges, noOverlap)) : ∀ r ∈ ranges, r.Proper n := by
  induction ras generalizing ranges noOverlap with
  | nil =>
    cases h
    simp
  | cons ra ras ih =>
    simp only [parseParts, Option.bind_eq_bind, Option.bind_eq_some_iff] at h
    obtain ⟨part, hpart, ⟨ranges', noOverlap'⟩, hrest, h⟩ := h
    have hproper := ih hrest
    cases part with
    | blank => cases h; exact hproper
    | noOverlap => cases h; exact hproper
    | range r =>
      cases h
      exact List.forall_mem_cons.mpr ⟨parsePart_proper hsize hpart, hproper⟩

theorem parseRange_proper {n : ℕ} {size : Int64} (hsize : size.toInt = n) {s : Bytes}
    {ranges : List HttpRange} (h : parseRange s size = .ok ranges) : ∀ r ∈ ranges, r.Proper n := by
  unfold parseRange at h
  by_cases hnil : s = []
  · rw [if_pos hnil] at h
    cases h
    simp
  · rw [if_neg hnil] at h
    simp only at h
    split_ifs at h
    cases hparts : parseParts size
        ((s.drop (ascii ['b', 'y', 't', 'e', 's', '=']).length).splitOn 44) with
    | none =>
      rw [hparts] at h
      cases h
    | some res =>
      rw [hparts] at h
      simp only at h
      split_ifs at h
      cases h
      exact parseParts_proper hsize hparts

variable {fetch : Bytes → Option Bytes} {schedule : ℕ → List CalcBlock → List CalcBlock}
  {ds : List Bytes} {r : EcosReader} {rest : Bytes}

/-- As long as there are bytes enough, the loop copies as many as it may. -/
theorem copyLoop_spec (hfair : ∀ n spans, (schedule n spans).Perm spans) {fuel left : ℕ}
    {buffer : Bytes} (hst : StandsBefore fetch ds r rest) (hfuel : left < fuel)
    (hbuffer : buffer ≠ []) (hleft : left ≤ rest.length) :
    ∃ r' rest', copyLoop fetch schedule fuel r buffer left = some (r', rest.take left) ∧
      StandsBefore fetch ds r' rest' ∧ r'.objectMeta = r.objectMeta := by
  induction fuel generalizing r rest buffer left with
  | zero => omega
  | succ fuel ih =>
    rw [copyLoop]
    by_cases hzero : left = 0
    · rw [if_pos hzero, hzero, List.take_zero]
      exact ⟨r, rest, rfl, hst, rfl⟩
    · have hpos := List.length_pos_iff.mpr hbuffer
      have hroom : (buffer.take left).length = min left buffer.length := List.length_take
      obtain ⟨res, hread, hbytes, hn, hlen, hmeta, heof, hnext⟩ :=
        @StandsBefore.read fetch ds r rest hst ⟨buffer.take left, schedule left⟩ (hfair left)
      simp only [hroom] at hbytes hn hlen heof hnext
      rw [if_neg hzero, hread, Option.bind_eq_bind, Option.bind_some]
      cases he : res.eof with
      | true =>
        -- the last read ends with the content, and with what may be read
        have hle := heof.mp he
        refine ⟨res.reader, _, ?_, hnext, hmeta⟩
        rw [if_pos rfl, hbytes, List.take_of_length_le hle, List.take_of_length_le (by omega)]
        rfl
      | false =>
        have hlong : ¬ rest.length ≤ min left buffer.length := fun hle => by
          simp [heof.mpr hle] at he
        rw [he, if_neg Bool.false_ne_true] at hnext
        have hcount : res.n = min left buffer.length := by omega
        obtain ⟨r', rest', hcopy, hst', hmeta'⟩ := @ih _ _ (left - res.n)
          (res.buffer ++ buffer.drop left) hnext (by omega)
          (by rw [← List.length_pos_iff, List.length_append, hlen]; omega)
          (by rw [List.length_drop]; omega)
        refine ⟨r', rest', ?_, hst', hmeta'.trans hmeta⟩
        rw [if_neg Bool.false_ne_true, hcopy, hbytes]
        have htake : rest.take left =
            rest.take res.n ++ (rest.drop res.n).take (left - res.n) := by
          rw [← List.take_add]
          congr 1
          omega
        rw [htake, hcount]
        rfl

theorem copyN_spec (hfair : ∀ n spans, (schedule n spans).Perm spans)
    (hst : StandsBefore fetch ds r rest) {length : Int64} (hzero : 0 ≤ length.toInt)
    (hle : length.toInt ≤ rest.length) :
    ∃ r' rest', copyN fetch schedule r length =
        some (r', rest.take length.toInt.toNat, false) ∧
      StandsBefore fetch ds r' rest' ∧ r'.objectMeta = r.objectMeta := by
  obtain ⟨r', rest', hcopy, hst', hmeta⟩ := @copyLoop_spec fetch schedule ds r rest hfair
    (length.toInt.toNat + 1) length.toInt.toNat
    (List.replicate (if length.toInt < 1 then 1 else min length.toInt.toNat 32768) 0) hst
    (Nat.lt_succ_self _) (by rw [← List.length_pos_iff, List.length_replicate]; split_ifs <;> omega)
    (by omega)
  refine ⟨r', rest', ?_, hst', hmeta⟩
  unfold copyN
  simp only [hcopy, Option.bind_eq_bind, Option.bind_some, Option.pure_def, List.length_take,
    Option.some.injEq, Prod.mk.injEq, true_and, decide_eq_false_iff_not]
  omega

def HttpRange.part (content : Bytes) (r : HttpRange) : BodyPart where
  contentRange := r.contentRange (Int64.ofNat content.length)
  body := (content.drop r.start.toInt.toNat).take r.length.toInt.toNat

def Regular (ranges : List HttpRange) : Prop :=
  (∀ r ∈ ranges, 0 ≤ r.length.toInt) ∧ ∀ r ∈ ranges.head?, 0 < r.length.toInt

/-- The header is rejected, or its ranges lie in the content and each of them is delivered. -/
def Served (fetch : Bytes → Option Bytes) (schedule : ℕ → List CalcBlock → List CalcBlock)
    (c : Capacity) (m : ObjectMeta) (content header : Bytes) : Prop :=
  ∀ ranges, parseRange header m.objSize.toInt64 = .ok ranges →
    (∀ r ∈ ranges, r.InBounds content.length) ∧
      (ranges ≠ [] → getObjectRange fetch schedule c m header =
        .partialContent (ranges.map (HttpRange.part content)))

structure Opened (fetch : Bytes → Option Bytes) (ds : List Bytes) (r : EcosReader) : Prop where
  stands : ∃ rest, StandsBefore fetch ds r rest
  objSize : r.objectMeta.objSize.toNat = ds.flatten.length
  fits : ds.flatten.length < 2 ^ 63

variable {range : HttpRange}

theorem Opened.toInt64_objSize (h : Opened fetch ds r) :
    r.objectMeta.objSize.toInt64 = Int64.ofNat ds.flatten.length := by
  rw [← h.objSize, ← UInt64.toInt64_ofNat', UInt64.ofNat_toNat]

/-- A range that is not empty begins inside the content. -/
theorem HttpRange.Proper.ne_nil (hproper : range.Proper ds.flatten.length)
    (hpos : 0 < range.length.toInt) : ds ≠ [] := by
  have hlt := (hproper.start_lt hpos.le).mp hpos
  have hstart := (hproper.inBounds hpos.le).1
  rintro rfl
  rw [List.flatten_nil, List.length_nil] at hlt
  omega

/-- The seek to a range, which is `io.EOF` where the range is empty: then it lies at the end of
the content. What has to be copied follows in both cases. -/
theorem Opened.seek (h : Opened fetch ds r) (hne : ds ≠ [])
    (hproper : range.Proper ds.flatten.length) (hlen : 0 ≤ range.length.toInt) :
    ∃ r' n, Client.seek r range.start .SeekStart =
        some ⟨r', n, if 0 < range.length.toInt then none else some .eof⟩ ∧ Opened fetch ds r' ∧
      ∃ rest, StandsBefore fetch ds r' rest ∧ range.length.toInt ≤ rest.length ∧
        rest.take range.length.toInt.toNat = (range.part ds.flatten).body := by
  obtain ⟨rest, hst⟩ := h.stands
  obtain ⟨hstart, -, hend⟩ := hproper.inBounds hlen
  have hiff := hproper.start_lt hlen
  obtain ⟨⟨r', n, err⟩, hseek, hmeta, hres⟩ := hst.seekStart hne h.fits h.objSize range.start
  have hopened : ∀ rest', StandsBefore fetch ds r' rest' → Opened fetch ds r' :=
    fun rest' hst' => ⟨⟨rest', hst'⟩, by rw [hmeta, h.objSize], h.fits⟩
  by_cases hpos : 0 < range.length.toInt
  · rw [if_pos ⟨hstart, hiff.mp hpos⟩] at hres
    obtain ⟨rfl, hst'⟩ := hres
    rw [if_pos hpos]
    exact ⟨r', n, hseek, hopened _ hst', _, hst', by rw [List.length_drop]; omega, rfl⟩
  · rw [if_neg fun hin => hpos (hiff.mpr hin.2)] at hres
    obtain ⟨rfl, hst'⟩ := hres
    have hzero : range.length.toInt = 0 := by omega
    rw [if_neg hpos]
    refine ⟨r', n, hseek, hopened _ hst', _, hst', by omega, ?_⟩
    simp [HttpRange.part, hzero]

theorem Opened.getRange (hfair : ∀ n spans, (schedule n spans).Perm spans)
    (h : Opened fetch ds r) (hproper : range.Proper ds.flatten.length)
    (hpos : 0 < range.length.toInt) :
    getRange fetch schedule r (Int64.ofNat ds.flatten.length) range =
      .partialContent [range.part ds.flatten] := by
  obtain ⟨r', n, hseek, -, rest, hst, hle, hbody⟩ :=
    h.seek (hproper.ne_nil hpos) hproper hpos.le
  obtain ⟨r'', rest', hcopy, -, -⟩ := copyN_spec hfair hst hpos.le hle
  rw [if_pos hpos] at hseek
  unfold Gateway.getRange
  simp only [hseek, hcopy, Bool.false_eq_true, if_false, hbody]
  rfl

theorem Opened.getRanges (hfair : ∀ n spans, (schedule n spans).Perm spans)
    (h : Opened fetch ds r) {first : HttpRange}
    (hfirst : first.Proper ds.flatten.length) (hpos : 0 < first.length.toInt)
    {ranges : List HttpRange} (hproper : ∀ range ∈ ranges, range.Proper ds.flatten.length)
    (hlen : ∀ range ∈ ranges, 0 ≤ range.length.toInt) (parts : List BodyPart) :
    getRanges fetch schedule (Int64.ofNat ds.flatten.length) first.start r ranges parts =
      .partialContent (parts ++ ranges.map (HttpRange.part ds.flatten)) := by
  induction ranges generalizing r parts with
  | nil => rw [List.map_nil, List.append_nil]; rfl
  | cons range ranges ih =>
    have hne := hfirst.ne_nil hpos
    -- to the first range, and from there to this one
    obtain ⟨r₁, n₁, hseek₁, h₁, -⟩ := h.seek hne hfirst hpos.le
    obtain ⟨r₂, n₂, hseek₂, h₂, rest, hst, hle, hbody⟩ :=
      h₁.seek hne (hproper range List.mem_cons_self) (hlen range List.mem_cons_self)
    obtain ⟨r₃, rest₃, hcopy, hst₃, hmeta⟩ :=
      copyN_spec hfair hst (hlen range List.mem_cons_self) hle
    have h₃ : Opened fetch ds r₃ := ⟨⟨rest₃, hst₃⟩, by rw [hmeta, h₂.objSize], h₂.fits⟩
    have herr : ¬ ((if 0 < range.length.toInt then none else some SeekError.eof) ≠ none ∧
        (if 0 < range.length.toInt then none else some SeekError.eof) ≠ some .eof) := by
      split_ifs <;> simp
    rw [if_pos hpos] at hseek₁
    unfold Gateway.getRanges
    simp only [hseek₁, hseek₂, herr, if_false, hcopy, hbody]
    rw [ih h₃ (fun range hmem => hproper range (List.mem_cons_of_mem _ hmem))
      (fun range hmem => hlen range (List.mem_cons_of_mem _ hmem)), List.map_cons,
      List.append_assoc]
    rfl

theorem Opened.delivered (hfair : ∀ n spans, (schedule n spans).Perm spans)
    {c : Capacity} {m : ObjectMeta} (h : Opened fetch ds { capacity := c, objectMeta := m })
    {header : Bytes} {range : HttpRange} {ranges : List HttpRange}
    (hparse : parseRange header (Int64.ofNat ds.flatten.length) = .ok (range :: ranges))
    (hproper : ∀ r ∈ range :: ranges, r.Proper ds.flatten.length)
    (hreg : Regular (range :: ranges)) :
    getObjectRange fetch schedule c m header =
      .partialContent ((range :: ranges).map (HttpRange.part ds.flatten)) := by
  have hpos : 0 < range.length.toInt := hreg.2 range rfl
  have hfirst := hproper range List.mem_cons_self
  have hsize := h.toInt64_objSize
  simp only at hsize
  unfold Gateway.getObjectRange
  simp only [hsize, hparse]
  cases ranges with
  | nil => exact Opened.getRange hfair h hfirst hpos
  | cons range' ranges => exact Opened.getRanges hfair h hfirst hpos hproper hreg.1 []

/-- At the end of the content there is `io.EOF`, or a panic where the object has no blocks. -/
theorem Opened.seek_empty (h : Opened fetch ds r) (hproper : range.Proper ds.flatten.length)
    (hzero : range.length.toInt = 0) :
    Client.seek r range.start .SeekStart = none ∨
      ∃ r' n, Client.seek r range.start .SeekStart = some ⟨r', n, some .eof⟩ := by
  by_cases hne : ds = []
  · obtain ⟨rest, hst⟩ := h.stands
    exact .inl (seek_eq_none (hst.describes.eq_nil_iff.mpr hne) _ _)
  · obtain ⟨r', n, hseek, -⟩ := h.seek hne hproper hzero.ge
    rw [if_neg (by omega)] at hseek
    exact .inr ⟨r', n, hseek⟩

/-- Where the first range is empty nothing is delivered. -/
theorem Opened.not_delivered {c : Capacity} {m : ObjectMeta}
    (h : Opened fetch ds { capacity := c, objectMeta := m }) {header : Bytes}
    {range : HttpRange} {ranges : List HttpRange}
    (hparse : parseRange header (Int64.ofNat ds.flatten.length) = .ok (range :: ranges))
    (hproper : range.Proper ds.flatten.length) (hzero : range.length.toInt = 0)
    (parts : List BodyPart) : getObjectRange fetch schedule c m header ≠ .partialContent parts := by
  have hsize := h.toInt64_objSize
  simp only at hsize
  unfold Gateway.getObjectRange
  simp only [hsize, hparse]
  rcases h.seek_empty hproper hzero with hseek | ⟨r', n, hseek⟩
  · cases ranges <;> simp [Gateway.getRange, Gateway.getRanges, hseek]
  · cases ranges <;> simp [Gateway.getRange, Gateway.getRanges, hseek]

/-- A request is served exactly if none of its ranges has a negative length and the first of them
is not empty: the `Seek` to the end of the content is an error. -/
theorem Opened.served_iff_regular (hfair : ∀ n spans, (schedule n spans).Perm spans)
    {c : Capacity} {m : ObjectMeta} (h : Opened fetch ds { capacity := c, objectMeta := m })
    (header : Bytes) :
    Served fetch schedule c m ds.flatten header ↔
      ∀ ranges, parseRange header m.objSize.toInt64 = .ok ranges → Regular ranges := by
  have hobj := h.toInt64_objSize
  simp only at hobj
  have hint : (Int64.ofNat ds.flatten.length).toInt = ds.flatten.length :=
    Int64.toInt_ofNat_of_lt h.fits
  rw [Served, hobj]
  refine forall₂_congr fun ranges hparse => ?_
  have hproper := parseRange_proper hint hparse
  constructor
  · rintro ⟨hbounds, hserved⟩
    have hlen : ∀ r ∈ ranges, 0 ≤ r.length.toInt := fun r hr => (hbounds r hr).2.1
    refine ⟨hlen, fun r hr => ?_⟩
    cases ranges with
    | nil => cases hr
    | cons range ranges =>
      obtain rfl : range = r := Option.some.inj hr
      by_contra hpos
      have hzero : range.length.toInt = 0 := by
        have := hlen range List.mem_cons_self
        omega
      exact h.not_delivered hparse (hproper range List.mem_cons_self) hzero _
        (hserved (List.cons_ne_nil range ranges))
  · intro hreg
    refine ⟨fun r hr => (hproper r hr).inBounds (hreg.1 r hr), fun hne => ?_⟩
    obtain ⟨range, ranges, rfl⟩ := List.exists_cons_of_ne_nil hne
    exact Opened.delivered hfair h hparse hproper hreg

inductive RangeSpec where
  | blank
  /-- "-5", the last bytes of the content -/
  | suffix (last : Bytes)
  /-- "2-4", or "2-" up to the end of the content -/
  | interval (start last : Bytes)
  deriving DecidableEq, Repr

def specOf (ra : Bytes) : Option RangeSpec :=
  let ra := trimString ra
  if ra = [] then some .blank
  else if 45 ∉ ra then none
  else
    let start := trimString (ra.takeWhile (· ≠ 45))
    let last := trimString (ra.dropWhile (· ≠ 45)).tail
    some (if start = [] then .suffix last else .interval start last)

namespace RangeSpec

/-- The part is written with numbers, and an interval that begins in the content does not end
before its start. -/
def WellFormed (size : Int64) : RangeSpec → Prop
  | .blank => True
  | .suffix last => ∃ i, parseInt last = some i
  | .interval start last => ∃ i, parseInt start = some i ∧ 0 ≤ i ∧
    (i < size → last = [] ∨ ∃ j, parseInt last = some j ∧ i ≤ j)

def skips (size : Int64) : RangeSpec → Bool
  | .blank => true
  | .suffix _ => false
  | .interval start _ => (parseInt start).any (size ≤ ·)

/-- The last bytes of the content are not asked for with a negative number. -/
def Nonneg : RangeSpec → Prop
  | .suffix last => ∀ i, parseInt last = some i → 0 ≤ i
  | _ => True

def Nonempty (size : Int64) : RangeSpec → Prop
  | .suffix last => ∀ i, parseInt last = some i → 0 < i ∧ 0 < size
  | _ => True

end RangeSpec

def rangeParts (header : Bytes) : List Bytes :=
  (header.drop (ascii ['b', 'y', 't', 'e', 's', '=']).length).splitOn 44

/-- Where all parts are well formed, none of them asks for a negative number of last bytes, and the
first that stands for a range does not ask for an empty one. -/
def Satisfiable (size : Int64) (header : Bytes) : Prop :=
  ascii ['b', 'y', 't', 'e', 's', '='] <+: header →
    (∀ ra ∈ rangeParts header, ∃ spec ∈ specOf ra, spec.WellFormed size) →
      (∀ spec ∈ (rangeParts header).filterMap specOf, spec.Nonneg) ∧
        ∀ spec ∈ ((rangeParts header).filterMap specOf).find? (!·.skips size), spec.Nonempty size

def RangeSpec.part (size : Int64) : RangeSpec → Option Part
  | .blank => some .blank
  | .suffix last => parseSuffix size last
  | .interval start last => parseFrom size start last

theorem parsePart_eq (size : Int64) (ra : Bytes) :
    parsePart size ra = (specOf ra).bind (RangeSpec.part size) := by
  simp only [parsePart, specOf]
  split_ifs <;> rfl

section
variable {n : ℕ} {size : Int64} (hsize : size.toInt = n)
include hsize

/-- The range of a suffix is as long as the suffix, or as the content. -/
theorem parseSuffix_length {last : Bytes} {i : Int64} (hi : parseInt last = some i) :
    ∃ r, parseSuffix size last = some (.range r) ∧ (0 ≤ r.length.toInt ↔ 0 ≤ i) ∧
      (0 < r.length.toInt ↔ 0 < i ∧ 0 < size) := by
  have hzero : (0 : Int64).toInt = 0 := rfl
  refine ⟨_, by rw [parseSuffix, hi]; rfl, ?_⟩
  rw [Int64.le_iff_toInt_le, Int64.lt_iff_toInt_lt, Int64.lt_iff_toInt_lt, hzero, hsize]
  have hlen : ∀ j : Int64, (size - (size - j)).toInt = j.toInt := fun j => by
    obtain ⟨k, hk⟩ := toInt_sub_word size j
    obtain ⟨l, hl⟩ := toInt_sub_word size (size - j)
    have hmin := j.le_toInt
    have hmax := j.toInt_lt
    have hmin' := (size - (size - j)).le_toInt
    have hmax' := (size - (size - j)).toInt_lt
    omega
  dsimp only
  rw [hlen]
  split_ifs with hgt
  · rw [gt_iff_lt, Int64.lt_iff_toInt_lt] at hgt
    omega
  · rw [gt_iff_lt, Int64.lt_iff_toInt_lt] at hgt
    omega

omit hsize in
theorem parseFrom_eq_noOverlap {start last : Bytes} {i : Int64} (hi : parseInt start = some i)
    (hpos : 0 ≤ i) (hbeyond : size ≤ i) : parseFrom size start last = some .noOverlap := by
  have hneg : ¬ i < 0 := Int64.not_lt.mpr hpos
  simp [parseFrom, hi, hneg, hbeyond]

omit hsize in
theorem parseFrom_eq_none {start last : Bytes}
    (h : ¬ (RangeSpec.interval start last).WellFormed size) : parseFrom size start last = none := by
  cases hi : parseInt start with
  | none => simp [parseFrom, hi]
  | some i =>
    simp only [RangeSpec.WellFormed, hi, Option.some.injEq, exists_eq_left', not_and,
      Classical.not_imp, not_or] at h
    by_cases hneg : i < 0
    · simp [parseFrom, hi, hneg]
    · obtain ⟨hin, hnil, hlast⟩ := h (Int64.not_lt.mp hneg)
      have hbeyond : ¬ size ≤ i := Int64.not_le.mpr hin
      cases hj : parseInt last with
      | none => simp [parseFrom, hi, hneg, hbeyond, hnil, hj]
      | some j =>
        have hgt : j < i := by simpa [hj] using hlast
        simp [parseFrom, hi, hneg, hbeyond, hnil, hj, hgt]

/-- An interval that begins in the content is not empty. -/
theorem parseFrom_length {start last : Bytes} {i : Int64} (hi : parseInt start = some i)
    (hpos : 0 ≤ i) (hin : i < size) (hlast : last = [] ∨ ∃ j, parseInt last = some j ∧ i ≤ j) :
    ∃ r, parseFrom size start last = some (.range r) ∧ 0 < r.length.toInt := by
  have hneg : ¬ i < 0 := Int64.not_lt.mpr hpos
  have hbeyond : ¬ size ≤ i := Int64.not_le.mpr hin
  obtain ⟨r, hr⟩ : ∃ r, parseFrom size start last = some (.range r) := by
    rcases hlast with hnil | ⟨j, hj, hij⟩
    · simp [parseFrom, hi, hneg, hbeyond, hnil]
    · have hgt : ¬ j < i := Int64.not_lt.mpr hij
      by_cases hnil : last = []
      · simp [parseFrom, hi, hneg, hbeyond, hnil]
      · simp [parseFrom, hi, hneg, hbeyond, hnil, hj, hgt]
  exact ⟨r, hr, (parseFrom_proper hsize hr).2⟩

/-- A part of the header is an error exactly if it is not well formed. It adds nothing where it is
skipped, and otherwise a range whose length has the sign of what is asked for. -/
theorem parsePart_spec (ra : Bytes) :
    (parsePart size ra = none ∧ ¬ ∃ spec ∈ specOf ra, spec.WellFormed size) ∨
    ∃ spec ∈ specOf ra, spec.WellFormed size ∧
      ((spec.skips size = true ∧ spec.Nonneg ∧
          (parsePart size ra = some .blank ∨ parsePart size ra = some .noOverlap)) ∨
        spec.skips size = false ∧ ∃ r, parsePart size ra = some (.range r) ∧
          (0 ≤ r.length.toInt ↔ spec.Nonneg) ∧ (0 < r.length.toInt ↔ spec.Nonempty size)) := by
  rw [parsePart_eq]
  cases hspec : specOf ra with
  | none => exact .inl ⟨rfl, by simp⟩
  | some spec =>
    simp only [Option.bind_some, Option.mem_def, Option.some.injEq, exists_eq_left']
    cases spec with
    | blank => exact .inr ⟨trivial, .inl ⟨rfl, trivial, .inl rfl⟩⟩
    | suffix last =>
      cases hi : parseInt last with
      | none =>
        exact .inl ⟨by simp [RangeSpec.part, parseSuffix, hi], by simp [RangeSpec.WellFormed, hi]⟩
      | some i =>
        obtain ⟨r, hr, hneg, hempty⟩ := parseSuffix_length hsize hi
        refine .inr ⟨⟨i, hi⟩, .inr ⟨rfl, r, hr, ?_, ?_⟩⟩
        · simp [RangeSpec.Nonneg, hi, hneg]
        · simp [RangeSpec.Nonempty, hi, hempty]
    | interval start last =>
      by_cases hwell : (RangeSpec.interval start last).WellFormed size
      · obtain ⟨i, hi, hpos, hlast⟩ := id hwell
        refine .inr ⟨hwell, ?_⟩
        -- where the start is beyond the content, the end is not looked at
        by_cases hin : i < size
        · obtain ⟨r, hr, hlen⟩ := parseFrom_length hsize hi hpos hin (hlast hin)
          refine .inr ⟨by simpa [RangeSpec.skips, hi] using hin, r, hr, ?_, ?_⟩
          · exact iff_of_true hlen.le trivial
          · exact iff_of_true hlen trivial
        · have hbeyond := Int64.not_lt.mp hin
          exact .inl ⟨by simp [RangeSpec.skips, hi, hbeyond], trivial,
            .inr (parseFrom_eq_noOverlap hi hpos hbeyond)⟩
      · refine .inl ⟨parseFrom_eq_none ?_, hwell⟩
        exact hwell

end

/-- The parts of a header that are all well formed make ranges of the signs that they ask for. -/
theorem parseParts_spec {n : ℕ} {size : Int64} (hsize : size.toInt = n) (ras : List Bytes) :
    (parseParts size ras = none ∧ ¬ ∀ ra ∈ ras, ∃ spec ∈ specOf ra, spec.WellFormed size) ∨
    ∃ ranges noOverlap, parseParts size ras = some (ranges, noOverlap) ∧
      (∀ ra ∈ ras, ∃ spec ∈ specOf ra, spec.WellFormed size) ∧
      ((∀ r ∈ ranges, 0 ≤ r.length.toInt) ↔ ∀ spec ∈ ras.filterMap specOf, spec.Nonneg) ∧
      ((∀ r ∈ ranges.head?, 0 < r.length.toInt) ↔
        ∀ spec ∈ (ras.filterMap specOf).find? (!·.skips size), spec.Nonempty size) := by
  induction ras with
  | nil => exact .inr ⟨[], false, rfl, by simp, by simp, by simp⟩
  | cons ra ras ih =>
    rw [parseParts]
    rcases parsePart_spec hsize ra with ⟨hnone, hbad⟩ | ⟨spec, hspec, hwell, hpart⟩
    · exact .inl ⟨by rw [hnone]; rfl, fun hall => hbad (hall ra List.mem_cons_self)⟩
    · rw [List.filterMap_cons_some hspec]
      rcases ih with ⟨hnone, hbad⟩ | ⟨ranges, noOverlap, hparts, hall, hneg, hempty⟩
      · refine .inl ⟨?_, fun hall => hbad fun ra' hmem => hall ra' (List.mem_cons_of_mem ra hmem)⟩
        rw [hnone]
        cases parsePart size ra <;> rfl
      · have hall' : ∀ ra' ∈ ra :: ras, ∃ spec ∈ specOf ra', spec.WellFormed size :=
          List.forall_mem_cons.mpr ⟨⟨spec, hspec, hwell⟩, hall⟩
        rw [hparts]
        rcases hpart with ⟨hskip, hnonneg, hpart⟩ | ⟨hskip, r, hpart, hr, hr'⟩
        · -- a part that is skipped leaves the ranges as they are
          have hneg' : (∀ r ∈ ranges, 0 ≤ r.length.toInt) ↔
              ∀ spec' ∈ spec :: ras.filterMap specOf, spec'.Nonneg := by
            rw [hneg, List.forall_mem_cons, and_iff_right hnonneg]
          rw [List.find?_cons_of_neg (by simp [hskip])]
          rcases hpart with hpart | hpart
          · exact .inr ⟨ranges, noOverlap, by rw [hpart]; rfl, hall', hneg', hempty⟩
          · exact .inr ⟨ranges, true, by rw [hpart]; rfl, hall', hneg', hempty⟩
        · refine .inr ⟨r :: ranges, noOverlap, by rw [hpart]; rfl, hall', ?_, ?_⟩
          · rw [List.forall_mem_cons, List.forall_mem_cons, hr, hneg]
          · rw [List.find?_cons_of_pos (by simp [hskip])]
            simpa using hr'

theorem satisfiable_iff {n : ℕ} {size : Int64} (hsize : size.toInt = n) (header : Bytes) :
    (∀ ranges, parseRange header size = .ok ranges → Regular ranges) ↔
      Satisfiable size header := by
  unfold parseRange Satisfiable
  by_cases hnil : header = []
  · simp [hnil, Regular, ascii]
  · rw [if_neg hnil]
    by_cases hunit : ascii ['b', 'y', 't', 'e', 's', '='] <+: header
    · have hras : (header.drop (ascii ['b', 'y', 't', 'e', 's', '=']).length).splitOn 44 =
          rangeParts header := rfl
      simp only [hras, hunit, true_imp_iff, if_true]
      rcases parseParts_spec hsize (rangeParts header) with
        ⟨hnone, hbad⟩ | ⟨ranges, noOverlap, hparts, hall, hneg, hempty⟩
      · rw [hnone]
        exact iff_of_true (fun _ hok => by cases hok) fun hall => absurd hall hbad
      · rw [hparts, ← hneg, ← hempty, forall_prop_of_true hall]
        by_cases hno : noOverlap = true ∧ ranges = []
        · simp [hno]
        · simp [hno, Regular]
    · simp [hunit]

/-- Every request is served as it should be, unless its header asks for a negative number of last
bytes, or first of all for last bytes where there are none: then `Seek` to the end of the content
is an error. -/
theorem served_iff_satisfiable (fetch : Bytes → Option Bytes)
    (schedule : ℕ → List CalcBlock → List CalcBlock)
    (hfair : ∀ n spans, (schedule n spans).Perm spans) (c : Capacity) (m : ObjectMeta)
    (ds : List Bytes) (h : Describes fetch m.blocks ds)
    (hsize : m.objSize.toNat = ds.flatten.length) (hlt : ds.flatten.length < 2 ^ 63)
    (header : Bytes) :
    Served fetch schedule c m ds.flatten header ↔ Satisfiable m.objSize.toInt64 header := by
  have hopened : Opened fetch ds { capacity := c, objectMeta := m } :=
    ⟨⟨_, standsBefore_new h⟩, hsize, hlt⟩
  rw [hopened.served_iff_regular hfair, satisfiable_iff (toInt_toInt64 hsize hlt)]

def middleAndLast : Bytes :=
  ascii ['b', 'y', 't', 'e', 's', '=', '1', '-', '1', ',', '-', '1']

theorem served_iff_satisfiable_middleAndLast :
    parseRange middleAndLast 3 = .ok [⟨1, 1⟩, ⟨2, 1⟩] ∧
      Served pairFetch (fun _ => id) pairCapacity pairMeta [1, 2, 3] middleAndLast := by
  refine ⟨by decide +kernel, (served_iff_satisfiable pairFetch (fun _ => id)
    (fun _ spans => .refl spans) pairCapacity pairMeta [[1, 2], [3]] describes_pairMeta rfl
    (by decide) middleAndLast).mpr fun _ _ => ?_⟩
  have hspecs : (rangeParts middleAndLast).filterMap specOf =
      [.interval [49] [49], .suffix [49]] := by decide +kernel
  have hone : parseInt [49] = some 1 := by decide +kernel
  rw [hspecs]
  refine ⟨?_, ?_⟩
  · simp [RangeSpec.Nonneg, hone]
  · simp [RangeSpec.skips, RangeSpec.Nonempty, hone, pairMeta]

/-- "bytes=--5" is accepted with a range of length -5. "bytes=-0" asks for no bytes and is answered
with an error, and on an object without blocks "bytes=-5" makes the handler panic. -/
theorem range_not_served :
    parseRange (ascii ['b', 'y', 't', 'e', 's', '=', '-', '-', '5']) 3 = .ok [⟨8, -5⟩] ∧
    parseRange (ascii ['b', 'y', 't', 'e', 's', '=', '-', '0']) 3 = .ok [⟨3, 0⟩] ∧
    getObjectRange pairFetch (fun _ => id) pairCapacity pairMeta
      (ascii ['b', 'y', 't', 'e', 's', '=', '-', '0']) = .internalError [] ∧
    getObjectRange pairFetch (fun _ => id) pairCapacity
      { pairMeta with objSize := 0, blocks := [] }
      (ascii ['b', 'y', 't', 'e', 's', '=', '-', '5']) = .noReply := by
  decide +kernel

end Ecos.Gateway
