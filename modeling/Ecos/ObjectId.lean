import Ecos.Go.Int64
import Ecos.Object

namespace Ecos
open Go

variable (ring : Mapper)

/-- Every key cleans to some `..` elements followed by names. -/
theorem exists_normal_key (key : Bytes) :
    ∃ k rest, pathElements (pathClean key) = List.replicate k (Path.up dot) ++ rest ∧
      (∀ e ∈ rest, IsName e) ∧ (Path.isRooted slash key = true → k = 0) :=
  (Path.normal_elements_clean slash_ne_dot key).2

theorem cleanObjectKey_eq_trimPrefix_render (key : Bytes) :
    cleanObjectKey key = trimPrefix [slash]
      (Path.render slash dot (Path.isRooted slash key) (pathElements (pathClean key))) := by
  rw [← Path.clean_eq_render slash_ne_dot key]
  rfl

theorem trimPrefix_render_false {es : List Bytes} (hes : ∀ e ∈ es, Path.IsElement slash dot e) :
    trimPrefix [slash] (Path.render slash dot false es) = Path.render slash dot false es := by
  apply trimPrefix_singleton_of_head
  have h := Path.isRooted_render slash_ne_dot false hes
  simpa [Path.isRooted] using h

theorem isElement_clean (key : Bytes) :
    ∀ e ∈ pathElements (pathClean key), Path.IsElement slash dot e :=
  fun _ he => Path.isElement_of_mem_elements he

/-- A key with an element is cleaned to its elements, joined by slashes. -/
theorem cleanObjectKey_eq {key : Bytes} (hne : pathElements (pathClean key) ≠ []) :
    cleanObjectKey key = [slash].intercalate (pathElements (pathClean key)) := by
  rw [cleanObjectKey_eq_trimPrefix_render]
  cases Path.isRooted slash key with
  | true => simp [Path.render]
  | false =>
    rw [trimPrefix_render_false (isElement_clean key)]
    simp [Path.render, hne]

/-- The key that `GenObjectId` joins to the bucket has the elements of the cleaned key. -/
theorem elements_trimmedKey (key : Bytes) :
    pathElements (trim slash (pathClean key)) = pathElements (pathClean key) :=
  elements_trim dot (pathClean key)

theorem cleanObjectKey_trimmedKey {key : Bytes} (hne : pathElements (pathClean key) ≠ []) :
    cleanObjectKey (trim slash (pathClean key)) = cleanObjectKey key := by
  have hr : Path.isRooted slash (trim slash (pathClean key)) = false := isRooted_trim _
  obtain ⟨k, rest, he, hn, -⟩ := exists_normal_key key
  have hnormal : Path.resolve dot false (pathElements (pathClean key)) =
      pathElements (pathClean key) :=
    Path.resolve_normal ⟨k, rest, he, hn, by simp⟩
  have hc : pathClean (trim slash (pathClean key)) =
      Path.render slash dot false (pathElements (pathClean key)) := by
    rw [pathClean, Path.clean, hr, elements_trim, hnormal]
  rw [cleanObjectKey_eq hne, cleanObjectKey, hc, trimPrefix_render_false (isElement_clean key)]
  simp [Path.render, hne]

/-- Both spellings of a key select the same slot. -/
theorem calculateSlot_trimmedKey {key : Bytes} (hne : pathElements (pathClean key) ≠ [])
    (slotNum : Int32) :
    calculateSlot ring (trim slash (pathClean key)) slotNum = calculateSlot ring key slotNum := by
  rw [calculateSlot, calculateSlot, cleanObjectKey_trimmedKey hne]

theorem cleanObjectKey_cleanObjectKey {key : Bytes} (hne : pathElements (pathClean key) ≠ []) :
    cleanObjectKey (cleanObjectKey key) = cleanObjectKey key := by
  obtain ⟨k, rest, he, hn, -⟩ := exists_normal_key key
  have hnormal : Path.Normal slash dot false (pathElements (pathClean key)) :=
    ⟨k, rest, he, hn, by simp⟩
  have hr : cleanObjectKey key =
      Path.render slash dot false (pathElements (pathClean key)) := by
    rw [cleanObjectKey_eq hne]
    simp [Path.render, hne]
  rw [hr, cleanObjectKey, pathClean, Path.clean_render slash_ne_dot hnormal,
    trimPrefix_render_false (isElement_clean key)]

def bucketElements (bucket : BucketInfo) (slot : Int32) : List Bytes :=
  [bucket.volumeId, bucket.bucketName, formatInt slot.toInt]

variable {ring} {bucket : BucketInfo}

theorem bucketElements_ne_nil (slot : Int32) : bucketElements bucket slot ≠ [] :=
  List.cons_ne_nil _ _

theorem isName_bucketElements (hv : IsName bucket.volumeId) (hb : IsName bucket.bucketName)
    (slot : Int32) : ∀ e ∈ bucketElements bucket slot, IsName e := by
  intro e he
  simp only [bucketElements, List.mem_cons, List.not_mem_nil, or_false] at he
  rcases he with rfl | rfl | rfl
  · exact hv
  · exact hb
  · exact isName_formatInt _

/-- Each leading `..` of the cleaned key takes back one of the three elements. -/
theorem genObjectId_eq (hv : IsName bucket.volumeId) (hb : IsName bucket.bucketName)
    {key : Bytes} (k : ℕ) (rest : List Bytes)
    (he : pathElements (pathClean key) = List.replicate k (Path.up dot) ++ rest)
    (hr : ∀ e ∈ rest, IsName e) :
    genObjectId ring bucket key = [slash].intercalate
      ((bucketElements bucket (calculateSlot ring (trim slash (pathClean key))
        bucket.config.keySlotNum)).take (3 - k) ++ rest) := by
  set slot := calculateSlot ring (trim slash (pathClean key)) bucket.config.keySlotNum with hs
  have hbe := isName_bucketElements hv hb slot
  have hnormal : Path.Normal slash dot true ((bucketElements bucket slot).take (3 - k) ++ rest) := by
    refine ⟨0, _, rfl, ?_, fun _ => rfl⟩
    intro e h
    rcases List.mem_append.mp h with h | h
    · exact hbe e (List.mem_of_mem_take h)
    · exact hr e h
  -- the bucket ID is rooted, so each `..` of the key removes one of the three elements before it
  have hj : pathJoin [bucket.getID, formatInt slot.toInt, trim slash (pathClean key)] =
      Path.render slash dot true ((bucketElements bucket slot).take (3 - k) ++ rest) := by
    have hrooted : Path.isRooted slash bucket.getID = true := by
      rw [BucketInfo.getID, genBucketID_eq hv hb]
      rfl
    have hel : [bucket.getID, formatInt slot.toInt, trim slash (pathClean key)].flatMap
          (Path.elements slash dot) =
        bucketElements bucket slot ++ (List.replicate k (Path.up dot) ++ rest) := by
      have h1 : Path.elements slash dot bucket.getID = [bucket.volumeId, bucket.bucketName] :=
        elements_genBucketID hv hb
      have h2 : Path.elements slash dot (trim slash (pathClean key)) =
          List.replicate k (Path.up dot) ++ rest := (elements_trimmedKey key).trans he
      simp only [List.flatMap_cons, List.flatMap_nil, h1, h2, List.append_nil,
        Path.elements_of_isElement (isName_formatInt slot.toInt).toIsElement]
      rfl
    rw [pathJoin, Path.join_of_rooted hrooted, hel, Path.resolve_rooted_append k hbe hr]
    rfl
  calc genObjectId ring bucket key
      = cleanObjectKey (pathJoin [bucket.getID, formatInt slot.toInt,
          trim slash (pathClean key)]) := rfl
    _ = trimPrefix [slash]
          (Path.render slash dot true ((bucketElements bucket slot).take (3 - k) ++ rest)) := by
        rw [hj, cleanObjectKey, pathClean, Path.clean_render slash_ne_dot hnormal]
    _ = _ := by simp [Path.render]

/-- `VolumeId/BucketName/slot/`, where every object of the bucket should be. -/
def bucketPrefix (ring : Mapper) (bucket : BucketInfo) (key : Bytes) : Bytes :=
  bucket.volumeId ++ [slash] ++ bucket.bucketName ++ [slash] ++
    formatInt (calculateSlot ring key bucket.config.keySlotNum).toInt ++ [slash]

/-- The cleaned key climbs `k` elements, comes back through the elements it left, and
goes on below them. A key that does not climb only has to be non-empty. -/
def StaysInBucket (ring : Mapper) (bucket : BucketInfo) (key : Bytes) : Prop :=
  ∃ k tail, tail ≠ [] ∧ Path.up dot ∉ tail ∧
    pathElements (pathClean key) = List.replicate k (Path.up dot) ++
      ((bucketElements bucket (calculateSlot ring key bucket.config.keySlotNum)).drop (3 - k) ++
        tail)

/-- An ID below the bucket's prefix has the bucket's elements and then some more. -/
theorem bucketPrefix_prefix_iff (hv : IsName bucket.volumeId) (hb : IsName bucket.bucketName)
    (key : Bytes) {es : List Bytes} (hes : ∀ e ∈ es, IsName e) :
    bucketPrefix ring bucket key <+: [slash].intercalate es ↔
      ∃ t, t ≠ [] ∧
        es = bucketElements bucket (calculateSlot ring key bucket.config.keySlotNum) ++ t := by
  have hp : bucketPrefix ring bucket key = [slash].intercalate (bucketElements bucket
      (calculateSlot ring key bucket.config.keySlotNum)) ++ [slash] := by
    simp [bucketPrefix, bucketElements, List.intercalate_cons_cons]
  rw [hp]
  exact Path.intercalate_prefix_iff (List.cons_ne_nil _ _)
    (fun e he => (isName_bucketElements hv hb _ e he).sep_free) fun e he => (hes e he).sep_free

theorem replicate_up_append_inj {k k' : ℕ} {xs ys : List Bytes} (hx : Path.up dot ∉ xs)
    (hy : Path.up dot ∉ ys)
    (h : List.replicate k (Path.up dot) ++ xs = List.replicate k' (Path.up dot) ++ ys) :
    k = k' ∧ xs = ys := by
  have hc := congrArg (List.count (Path.up dot)) h
  simp only [List.count_append, List.count_replicate_self, List.count_eq_zero_of_not_mem hx,
    List.count_eq_zero_of_not_mem hy, Nat.add_zero] at hc
  subst hc
  exact ⟨rfl, List.append_cancel_left h⟩

theorem up_notMem_of_names {es : List Bytes} (h : ∀ e ∈ es, IsName e) : Path.up dot ∉ es :=
  fun hm => (h _ hm).ne_up rfl

/-- A key without elements gives the ID of a slot, and stays nowhere. -/
theorem not_prefix_of_no_elements (hv : IsName bucket.volumeId) (hb : IsName bucket.bucketName)
    {key : Bytes} (hne : pathElements (pathClean key) = []) :
    ¬ bucketPrefix ring bucket key <+: genObjectId ring bucket key ∧
      ¬ StaysInBucket ring bucket key := by
  constructor
  · rw [genObjectId_eq hv hb 0 [] (by simp [hne]) (by simp), List.append_nil,
      bucketPrefix_prefix_iff hv hb key fun e he =>
        isName_bucketElements hv hb _ e (List.mem_of_mem_take he)]
    rintro ⟨t, ht, h⟩
    have hl := congrArg List.length h
    have hpos := List.length_pos_of_ne_nil ht
    simp only [bucketElements, List.length_append, List.length_take, List.length_cons,
      List.length_nil] at hl
    omega
  · rintro ⟨k, tail, ht, -, h⟩
    rw [hne] at h
    exact ht (List.append_eq_nil_iff.mp (List.append_eq_nil_iff.mp h.symm).2).2

/-- An object ID begins with its bucket's prefix exactly for the keys that stay in
the bucket. -/
theorem genObjectId_prefix_iff (ring : Mapper) (bucket : BucketInfo)
    (hv : IsName bucket.volumeId) (hb : IsName bucket.bucketName) (key : Bytes) :
    bucketPrefix ring bucket key <+: genObjectId ring bucket key ↔
      StaysInBucket ring bucket key := by
  by_cases hne : pathElements (pathClean key) = []
  · obtain ⟨hp, hs⟩ : ¬ bucketPrefix ring bucket key <+: genObjectId ring bucket key ∧
      ¬ StaysInBucket ring bucket key := not_prefix_of_no_elements hv hb hne
    exact iff_of_false hp hs
  obtain ⟨k, rest, he, hr, -⟩ := exists_normal_key key
  set B := bucketElements bucket (calculateSlot ring key bucket.config.keySlotNum) with hB
  have hBn : ∀ e ∈ B, IsName e := isName_bucketElements hv hb _
  have hes : ∀ e ∈ B.take (3 - k) ++ rest, IsName e := by
    intro e h
    rcases List.mem_append.mp h with h | h
    · exact hBn e (List.mem_of_mem_take h)
    · exact hr e h
  rw [genObjectId_eq hv hb k rest he hr, calculateSlot_trimmedKey ring hne, ← hB,
    bucketPrefix_prefix_iff hv hb key hes, ← hB]
  constructor
  · rintro ⟨t, ht, h⟩
    have hsplit : rest = B.drop (3 - k) ++ t := by
      nth_rewrite 2 [← List.take_append_drop (3 - k) B] at h
      rw [List.append_assoc] at h
      exact List.append_cancel_left h
    refine ⟨k, t, ht, ?_, by rw [he, hsplit]⟩
    intro hm
    apply up_notMem_of_names hr
    rw [hsplit]
    exact List.mem_append_right _ hm
  · rintro ⟨k', tail, ht, hup, h⟩
    have hdn : Path.up dot ∉ B.drop (3 - k') ++ tail := by
      intro hm
      rcases List.mem_append.mp hm with hm | hm
      · exact up_notMem_of_names hBn (List.mem_of_mem_drop hm)
      · exact hup hm
    -- both splits of the elements put every `..` in front, so they agree
    obtain ⟨rfl, hrest⟩ := replicate_up_append_inj (up_notMem_of_names hr) hdn (he.symm.trans h)
    refine ⟨tail, ht, ?_⟩
    rw [hrest, ← List.append_assoc, List.take_append_drop]

/-- The bucket `default` of the volume `root`, with the default number of key slots. -/
def rootDefault : BucketInfo where
  volumeId := ascii ['r', 'o', 'o', 't']
  bucketName := ascii ['d', 'e', 'f', 'a', 'u', 'l', 't']
  config := { keySlotNum := 5, blockSize := 4194304 }

theorem isName_rootDefault : IsName rootDefault.volumeId ∧ IsName rootDefault.bucketName :=
  ⟨by decide, by decide⟩

theorem genObjectId_prefix_keyA :
    StaysInBucket (fun _ _ => 1) rootDefault (ascii ['p', '/', '.', '.', '/', 'k', 'e', 'y', 'A']) :=
  (genObjectId_prefix_iff (fun _ _ => 1) rootDefault isName_rootDefault.1 isName_rootDefault.2
    _).mp (by decide)

/-- Whatever the hash ring says, the key `../../x` is stored as the bucket `x` of the volume. -/
theorem genObjectId_parent_parent (ring : Mapper) :
    genObjectId ring rootDefault (ascii ['.', '.', '/', '.', '.', '/', 'x']) =
        ascii ['r', 'o', 'o', 't', '/', 'x'] ∧
      ¬ bucketPrefix ring rootDefault (ascii ['.', '.', '/', '.', '.', '/', 'x']) <+:
        genObjectId ring rootDefault (ascii ['.', '.', '/', '.', '.', '/', 'x']) := by
  obtain ⟨hv, hb⟩ := isName_rootDefault
  have hx : ∀ e ∈ [ascii ['x']], IsName e := by
    intro e he
    rw [List.mem_singleton.mp he]
    decide
  have hid : genObjectId ring rootDefault (ascii ['.', '.', '/', '.', '.', '/', 'x']) =
      [slash].intercalate [ascii ['r', 'o', 'o', 't'], ascii ['x']] :=
    genObjectId_eq hv hb 2 _ (by decide) hx
  have hes : ∀ e ∈ [ascii ['r', 'o', 'o', 't'], ascii ['x']], IsName e :=
    names_pair hv (hx _ List.mem_cons_self)
  refine ⟨hid.trans (by decide), ?_⟩
  rw [hid, bucketPrefix_prefix_iff hv hb _ hes]
  rintro ⟨t, ht, h⟩
  have hl := congrArg List.length h
  simp [bucketElements] at hl

theorem genObjectId_leaves_bucket :
    genObjectId (fun _ _ => 1) rootDefault (ascii ['.', '.', '/', '.', '.', '/', 'x']) =
        ascii ['r', 'o', 'o', 't', '/', 'x'] ∧
      ¬ bucketPrefix (fun _ _ => 1) rootDefault (ascii ['.', '.', '/', '.', '.', '/', 'x']) <+:
        genObjectId (fun _ _ => 1) rootDefault (ascii ['.', '.', '/', '.', '.', '/', 'x']) :=
  genObjectId_parent_parent fun _ _ => 1

/-- `path.Clean(key)` is none of `.`, `/` and `..`, and does not begin with `../`. -/
structure ProperKey (key : Bytes) : Prop where
  ne_dot : pathClean key ≠ [dot]
  ne_root : pathClean key ≠ [slash]
  ne_up : pathClean key ≠ Path.up dot
  not_up : ¬ Path.up dot ++ [slash] <+: pathClean key

instance decidableProperKey (key : Bytes) : Decidable (ProperKey key) :=
  decidable_of_iff (pathClean key ≠ [dot] ∧ pathClean key ≠ [slash] ∧
      pathClean key ≠ Path.up dot ∧ ¬ Path.up dot ++ [slash] <+: pathClean key)
    ⟨fun h => ⟨h.1, h.2.1, h.2.2.1, h.2.2.2⟩, fun h => ⟨h.ne_dot, h.ne_root, h.ne_up, h.not_up⟩⟩

theorem ProperKey.elements_ne_nil {key : Bytes} (h : ProperKey key) :
    pathElements (pathClean key) ≠ [] := by
  intro he
  have hc := Path.clean_eq_render slash_ne_dot key
  rw [show Path.elements slash dot (Path.clean slash dot key) = [] from he] at hc
  cases hr : Path.isRooted slash key with
  | true => exact h.ne_root (by rw [pathClean, hc, hr]; rfl)
  | false => exact h.ne_dot (by rw [pathClean, hc, hr]; rfl)

theorem ProperKey.names {key : Bytes} (h : ProperKey key) :
    ∀ e ∈ pathElements (pathClean key), IsName e := by
  obtain ⟨k, rest, he, hr, hroot⟩ := exists_normal_key key
  cases k with
  | zero => simpa [he] using hr
  | succ k =>
    -- a leading `..` shows at the beginning of the cleaned key
    have hrel : Path.isRooted slash key = false := by
      by_contra hb
      exact absurd (hroot (by simpa using hb)) (Nat.succ_ne_zero k)
    have hc := Path.clean_eq_render slash_ne_dot key
    rw [show Path.elements slash dot (Path.clean slash dot key) = _ from he, hrel,
      List.replicate_succ, List.cons_append] at hc
    cases ht : List.replicate k (Path.up dot) ++ rest with
    | nil => exact absurd (by rw [pathClean, hc, ht]; rfl) h.ne_up
    | cons e es =>
      rw [ht] at hc
      exact absurd ⟨[slash].intercalate (e :: es), by
        rw [pathClean, hc]
        simp [Path.render, List.intercalate_cons_cons]⟩ h.not_up

theorem cleanObjectKey_names {es : List Bytes} (hne : es ≠ []) (hes : ∀ e ∈ es, IsName e) :
    cleanObjectKey ([slash].intercalate es) = [slash].intercalate es := by
  have hr : [slash].intercalate es = Path.render slash dot false es := by simp [Path.render, hne]
  have hn : Path.Normal slash dot false es := ⟨0, es, rfl, hes, fun _ => rfl⟩
  rw [cleanObjectKey, hr, pathClean, Path.clean_render slash_ne_dot hn,
    trimPrefix_render_false fun e he => (hes e he).toIsElement]

theorem trimPrefix_names {es : List Bytes} (hne : es ≠ []) (hes : ∀ e ∈ es, IsName e) :
    trimPrefix [slash] ([slash].intercalate es) = [slash].intercalate es := by
  have hr : [slash].intercalate es = Path.render slash dot false es := by simp [Path.render, hne]
  rw [hr, trimPrefix_render_false fun e he => (hes e he).toIsElement]

theorem atoi_int32 (i : Int32) : atoi (formatInt i.toInt) = some i.toInt := by
  apply atoi_formatInt
  have h1 := i.le_toInt
  have h2 := i.toInt_lt
  constructor <;> omega

theorem isName_append_key (hv : IsName bucket.volumeId) (hb : IsName bucket.bucketName)
    (slot : Int32) {key : Bytes} (hk : ProperKey key) :
    ∀ e ∈ bucketElements bucket slot ++ pathElements (pathClean key), IsName e := by
  intro e h
  rcases List.mem_append.mp h with h | h
  · exact isName_bucketElements hv hb slot e h
  · exact hk.names e h

/-- The elements of the ID of a proper key. -/
theorem genObjectId_of_proper (hv : IsName bucket.volumeId) (hb : IsName bucket.bucketName)
    {key : Bytes} (hk : ProperKey key) :
    genObjectId ring bucket key = [slash].intercalate
      (bucketElements bucket (calculateSlot ring key bucket.config.keySlotNum) ++
        pathElements (pathClean key)) := by
  rw [genObjectId_eq hv hb 0 (pathElements (pathClean key)) (by simp) hk.names,
    calculateSlot_trimmedKey ring hk.elements_ne_nil]
  rfl

theorem splitID_genObjectId (ring : Mapper) (hv : IsName bucket.volumeId)
    (hb : IsName bucket.bucketName) {key : Bytes} (hk : ProperKey key) :
    splitID (genObjectId ring bucket key) = .ok
      ⟨bucket.volumeId, bucket.getID, cleanObjectKey key,
        calculateSlot ring key bucket.config.keySlotNum⟩ := by
  have hne := hk.elements_ne_nil
  set es := pathElements (pathClean key) with he
  set B := bucketElements bucket (calculateSlot ring key bucket.config.keySlotNum) with hB
  have hBn : ∀ e ∈ B, IsName e := isName_bucketElements hv hb _
  have hsplit : splitN slash 4 (cleanObjectKey (genObjectId ring bucket key)) =
      B ++ [[slash].intercalate es] := by
    rw [genObjectId_of_proper hv hb hk,
      cleanObjectKey_names (by simp [bucketElements]) (isName_append_key hv hb _ hk), ← he, ← hB,
      Path.intercalate_append (bucketElements_ne_nil _) hne]
    exact splitN_intercalate_append (List.cons_ne_nil _ _) (fun e h => (hBn e h).sep_free) _
  rw [splitID, hsplit, hB, cleanObjectKey_eq hne, ← he]
  simp only [bucketElements, List.cons_append, List.nil_append, atoi_int32, Int32.ofInt_toInt,
    trimPrefix_names hne hk.names, BucketInfo.getID]

/-- The metadata server recomputes the placement group the client chose. -/
theorem calculateObjectPGID_genObjectId (ring : Mapper) (hv : IsName bucket.volumeId)
    (hb : IsName bucket.bucketName) {key : Bytes} (hk : ProperKey key) (a : AlayaEnv)
    (term : UInt64) (pgNum : Int32) (hbucket : a.getInfoDirect bucket.getID = some bucket)
    (hterm : a.metaPgNumByTerm term = some pgNum) :
    calculateObjectPGID ring a term (genObjectId ring bucket key) =
      genObjPgID ring bucket key pgNum := by
  simp only [calculateObjectPGID, splitID_genObjectId ring hv hb hk, hbucket, hterm, genObjPgID,
    cleanObjectKey_cleanObjectKey hk.elements_ne_nil]

theorem genObjectId_injective (ring : Mapper) {bucket' : BucketInfo}
    (hv : IsName bucket.volumeId) (hb : IsName bucket.bucketName)
    (hv' : IsName bucket'.volumeId) (hb' : IsName bucket'.bucketName)
    {key key' : Bytes} (hk : ProperKey key) (hk' : ProperKey key')
    (h : genObjectId ring bucket key = genObjectId ring bucket' key') :
    bucket.volumeId = bucket'.volumeId ∧ bucket.bucketName = bucket'.bucketName ∧
      cleanObjectKey key = cleanObjectKey key' := by
  have hs := congrArg splitID h
  rw [splitID_genObjectId ring hv hb hk, splitID_genObjectId ring hv' hb' hk', Except.ok.injEq,
    SplitIDResult.mk.injEq] at hs
  exact ⟨hs.1, (genBucketID_injective hv hb hv' hb' hs.2.1).2, hs.2.2.1⟩

/-- Object IDs are read back as they were generated, the two sides agree on the
placement group, and an ID names one bucket and one cleaned key. -/
theorem objectId_codec (ring : Mapper) (bucket : BucketInfo) (hv : IsName bucket.volumeId)
    (hb : IsName bucket.bucketName) (key : Bytes) (hk : ProperKey key) :
    splitID (genObjectId ring bucket key) = .ok
        ⟨bucket.volumeId, bucket.getID, cleanObjectKey key,
          calculateSlot ring key bucket.config.keySlotNum⟩ ∧
      (∀ (a : AlayaEnv) (term : UInt64) (pgNum : Int32), 1 ≤ pgNum →
        a.getInfoDirect bucket.getID = some bucket → a.metaPgNumByTerm term = some pgNum →
        calculateObjectPGID ring a term (genObjectId ring bucket key) =
          genObjPgID ring bucket key pgNum) ∧
      (∀ (bucket' : BucketInfo) (key' : Bytes), IsName bucket'.volumeId →
        IsName bucket'.bucketName → ProperKey key' →
        genObjectId ring bucket key = genObjectId ring bucket' key' →
        bucket.volumeId = bucket'.volumeId ∧ bucket.bucketName = bucket'.bucketName ∧
          cleanObjectKey key = cleanObjectKey key') :=
  ⟨splitID_genObjectId ring hv hb hk,
    fun a term pgNum _ => calculateObjectPGID_genObjectId ring hv hb hk a term pgNum,
    fun _ _ hv' hb' hk' => genObjectId_injective ring hv hb hv' hb' hk hk'⟩

/-- The ring over `n` groups maps to the groups `1` to `n`, as `NewMapper` sets it up. -/
def InRange (ring : Mapper) : Prop :=
  ∀ (n : UInt64) (id : Bytes), 1 ≤ n → 1 ≤ ring n id ∧ ring n id ≤ n

theorem toInt_toInt32_of_lt {x : UInt32} (h : x.toNat < 2 ^ 31) : x.toInt32.toInt = x.toNat := by
  have hx : x.toInt32.toInt = x.toBitVec.toInt := rfl
  rw [hx, BitVec.toInt_eq_toNat_cond]
  simp only [UInt32.toNat_toBitVec]
  split_ifs with hc
  · rfl
  · omega

theorem toNat_pgNum {n : Int32} (hn : 1 ≤ n) : (n.toInt64.toUInt64.toNat : ℤ) = n.toInt := by
  have hpos : 1 ≤ n.toInt := Int32.le_iff_toInt_le.mp hn
  rw [toNat_toUInt64_of_nonneg (by rw [Int32.toInt_toInt64]; omega), Int32.toInt_toInt64]

theorem mapIDtoPG_bounds (hring : InRange ring) {n : Int32} (hn : 1 ≤ n) (id : Bytes) :
    1 ≤ (mapIDtoPG ring n id).toNat ∧ ((mapIDtoPG ring n id).toNat : ℤ) ≤ n.toInt := by
  have hnum := toNat_pgNum hn
  have hpos : 1 ≤ n.toInt := Int32.le_iff_toInt_le.mp hn
  have h1 : 1 ≤ n.toInt64.toUInt64 := by
    rw [UInt64.le_iff_toNat_le]
    show 1 ≤ n.toInt64.toUInt64.toNat
    omega
  obtain ⟨hlo, hhi⟩ := hring _ id h1
  rw [UInt64.le_iff_toNat_le] at hlo hhi
  refine ⟨hlo, ?_⟩
  rw [mapIDtoPG]
  omega

/-- `1 <= slot number <= slotNum` -/
theorem calculateSlot_bounds (hring : InRange ring) {n : Int32} (hn : 1 ≤ n) (key : Bytes) :
    1 ≤ (calculateSlot ring key n).toInt ∧ (calculateSlot ring key n).toInt ≤ n.toInt := by
  obtain ⟨hlo, hhi⟩ := mapIDtoPG_bounds hring hn (cleanObjectKey key)
  have hlt := n.toInt_lt
  have hnum : (mapIDtoPG ring n (cleanObjectKey key)).toUInt32.toNat =
      (mapIDtoPG ring n (cleanObjectKey key)).toNat := by
    rw [UInt64.toNat_toUInt32]
    omega
  rw [calculateSlot, toInt_toInt32_of_lt (by omega), hnum]
  omega

/-- The group of an object is that of its slot. -/
theorem genObjPgID_of_proper {key : Bytes} (hk : ProperKey key) (pgNum : Int32) :
    genObjPgID ring bucket key pgNum = genSlotPgID ring bucket.getID
      (calculateSlot ring key bucket.config.keySlotNum) pgNum := by
  rw [genObjPgID, calculateSlot, cleanObjectKey_cleanObjectKey hk.elements_ne_nil]
  rfl

theorem properKey_keyA :
    ProperKey (ascii ['/', 'p', '/', '/', 'k', 'e', 'y', 'A', '/']) :=
  by decide

theorem objectId_codec_keyA :
    splitID (genObjectId (fun _ _ => 1) rootDefault
        (ascii ['/', 'p', '/', '/', 'k', 'e', 'y', 'A', '/'])) = .ok
      ⟨ascii ['r', 'o', 'o', 't'], ascii ['/', 'r', 'o', 'o', 't', '/', 'd', 'e', 'f', 'a', 'u', 'l',
        't'], ascii ['p', '/', 'k', 'e', 'y', 'A'], 1⟩ :=
  (objectId_codec (fun _ _ => 1) rootDefault isName_rootDefault.1 isName_rootDefault.2 _
    properKey_keyA).1.trans (by decide)

end Ecos
