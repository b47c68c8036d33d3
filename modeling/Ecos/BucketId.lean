import Ecos.Infos

namespace Ecos
open Go

/-- `GetBucketID`, the empty string where a cleaned name has a slash. -/
def getBucketID (volumeID bucketName : Bytes) : Bytes :=
  if slash ∈ pathClean bucketName ∨ slash ∈ pathClean volumeID then []
  else genBucketID (pathClean volumeID) (pathClean bucketName)

/-- A name that stands for a directory: `.` or `..`. -/
def IsDots (name : Bytes) : Prop := name = [dot] ∨ name = Path.up dot

instance (name : Bytes) : Decidable (IsDots name) := instDecidableOr

namespace BucketInfo

/-- The ID is `/volume/bucket`. -/
def WellFormed (m : BucketInfo) : Prop := m.getID = slash :: (m.volumeId ++ slash :: m.bucketName)

instance (m : BucketInfo) : Decidable m.WellFormed :=
  inferInstanceAs (Decidable (m.getID = slash :: (m.volumeId ++ slash :: m.bucketName)))

def Apart (m m' : BucketInfo) : Prop :=
  m.getID = m'.getID → m.volumeId = m'.volumeId ∧ m.bucketName = m'.bucketName

end BucketInfo

theorem pathClean_ne_nil (s : Bytes) : pathClean s ≠ [] := by
  rw [pathClean, Path.clean_eq_render slash_ne_dot]
  obtain ⟨-, hnormal⟩ := Path.normal_elements_clean slash_ne_dot s
  have helements := hnormal.isElement slash_ne_dot
  generalize Path.elements slash dot (Path.clean slash dot s) = es at helements
  unfold Path.render
  split_ifs with hrooted hes
  · exact List.cons_ne_nil _ _
  · exact List.cons_ne_nil _ _
  · obtain ⟨e, es, rfl⟩ := List.exists_cons_of_ne_nil hes
    intro hnil
    have hhead : ([slash].intercalate (e :: es)).head? = e.head? :=
      Path.head?_intercalate (helements e List.mem_cons_self).ne_nil
    rw [hnil, List.head?_nil, eq_comm, List.head?_eq_none_iff] at hhead
    exact (helements e List.mem_cons_self).ne_nil hhead

variable {volumeID bucketName userID : Bytes} {m m' : BucketInfo}

/-- The buckets that `GenBucketInfo` accepts. -/
structure Accepted (m : BucketInfo) : Prop where
  volumeId_ne_nil : m.volumeId ≠ []
  bucketName_ne_nil : m.bucketName ≠ []
  volumeId_free : slash ∉ m.volumeId
  bucketName_free : slash ∉ m.bucketName

theorem genBucketInfo_eq_some (h : genBucketInfo volumeID bucketName userID = some m) :
    Accepted m ∧ m.volumeId = pathClean volumeID ∧ m.bucketName = pathClean bucketName := by
  unfold genBucketInfo at h
  split_ifs at h with hslash
  cases h
  rw [not_or] at hslash
  exact ⟨⟨pathClean_ne_nil _, pathClean_ne_nil _, hslash.2, hslash.1⟩, rfl, rfl⟩

theorem getBucketID_eq_getID (h : genBucketInfo volumeID bucketName userID = some m) :
    getBucketID volumeID bucketName = m.getID := by
  obtain ⟨haccepted, hvolume, hbucket⟩ := genBucketInfo_eq_some h
  have hfree : ¬(slash ∈ pathClean bucketName ∨ slash ∈ pathClean volumeID) := by
    rw [← hvolume, ← hbucket, not_or]
    exact ⟨haccepted.bucketName_free, haccepted.volumeId_free⟩
  rw [getBucketID, if_neg hfree, BucketInfo.getID, hvolume, hbucket]

theorem isName_iff_not_isDots {name : Bytes} (hne : name ≠ []) (hfree : slash ∉ name) :
    IsName name ↔ ¬IsDots name := by
  rw [IsDots, not_or]
  exact ⟨fun h => ⟨h.ne_dot, h.ne_up⟩, fun h => ⟨⟨hne, hfree, h.1⟩, h.2⟩⟩

/-- The elements of an ID are names. -/
theorem exists_names_getID (m : BucketInfo) :
    ∃ es, (∀ e ∈ es, IsName e) ∧ m.getID = slash :: [slash].intercalate es := by
  have hjoin : m.getID = Path.render slash dot true (Path.resolve dot true
      ([[slash], m.volumeId, m.bucketName].flatMap (Path.elements slash dot))) := by
    rw [BucketInfo.getID, genBucketID, pathJoin, Path.join_of_rooted (by rfl)]
  have hnormal : Path.Normal slash dot true (Path.resolve dot true
      ([[slash], m.volumeId, m.bucketName].flatMap (Path.elements slash dot))) := by
    apply Path.normal_resolve
    intro e he
    obtain ⟨p, -, hp⟩ := List.mem_flatMap.mp he
    exact Path.isElement_of_mem_elements hp
  obtain ⟨k, es, heq, hnames, hk⟩ := hnormal
  rw [hk rfl, List.replicate_zero, List.nil_append] at heq
  exact ⟨es, hnames, by rw [hjoin, heq]; rfl⟩

/-- A bucket's ID has the form `/volume/bucket` exactly if both names are proper ones. -/
theorem Accepted.wellFormed_iff (h : Accepted m) :
    m.WellFormed ↔ IsName m.volumeId ∧ IsName m.bucketName := by
  constructor
  · intro hform
    obtain ⟨es, hnames, hid⟩ := exists_names_getID m
    rw [BucketInfo.WellFormed, hid, List.cons.injEq] at hform
    -- splitting at the slashes gives the names back
    have hpair : m.volumeId ++ slash :: m.bucketName =
        [slash].intercalate [m.volumeId, m.bucketName] := by simp [List.intercalate_cons_cons]
    have hes : es ≠ [] := by
      rintro rfl
      simp at hform
    have hsplit := congrArg (List.splitOn slash) (hform.2.trans hpair)
    rw [List.splitOn_intercalate slash (fun e he => (hnames e he).sep_free) hes,
      List.splitOn_intercalate slash (by simp [h.volumeId_free, h.bucketName_free]) (by simp)]
      at hsplit
    rw [hsplit] at hnames
    exact ⟨hnames _ (by simp), hnames _ (by simp)⟩
  · rintro ⟨hvolume, hbucket⟩
    rw [BucketInfo.WellFormed, BucketInfo.getID, genBucketID_eq hvolume hbucket]
    simp [Path.render, List.intercalate_cons_cons]

/-- IDs of accepted buckets are `/volume/bucket`, and different for different buckets, exactly if no
name is `.` or `..`. `GetBucketID` gives the ID of every accepted bucket. -/
theorem bucketIds_proper_iff (v₁ b₁ u₁ v₂ b₂ u₂ : Bytes) {m₁ m₂ : BucketInfo}
    (h₁ : genBucketInfo v₁ b₁ u₁ = some m₁) (h₂ : genBucketInfo v₂ b₂ u₂ = some m₂) :
    (m₁.WellFormed ∧ m₂.WellFormed ∧ m₁.Apart m₂ ↔
      ∀ name ∈ [m₁.volumeId, m₁.bucketName, m₂.volumeId, m₂.bucketName], ¬IsDots name) ∧
    getBucketID v₁ b₁ = m₁.getID ∧ getBucketID v₂ b₂ = m₂.getID := by
  obtain ⟨ha₁, -, -⟩ := genBucketInfo_eq_some h₁
  obtain ⟨ha₂, -, -⟩ := genBucketInfo_eq_some h₂
  refine ⟨?_, getBucketID_eq_getID h₁, getBucketID_eq_getID h₂⟩
  simp only [List.forall_mem_cons, List.not_mem_nil, false_imp_iff, implies_true, and_true]
  rw [← isName_iff_not_isDots ha₁.volumeId_ne_nil ha₁.volumeId_free,
    ← isName_iff_not_isDots ha₁.bucketName_ne_nil ha₁.bucketName_free,
    ← isName_iff_not_isDots ha₂.volumeId_ne_nil ha₂.volumeId_free,
    ← isName_iff_not_isDots ha₂.bucketName_ne_nil ha₂.bucketName_free,
    ha₁.wellFormed_iff, ha₂.wellFormed_iff]
  constructor
  · rintro ⟨⟨hv₁, hb₁⟩, ⟨hv₂, hb₂⟩, -⟩
    exact ⟨hv₁, hb₁, hv₂, hb₂⟩
  · rintro ⟨hv₁, hb₁, hv₂, hb₂⟩
    exact ⟨⟨hv₁, hb₁⟩, ⟨hv₂, hb₂⟩, genBucketID_injective hv₁ hb₁ hv₂ hb₂⟩

def bucketOf (volumeId bucketName : Bytes) : BucketInfo where
  volumeId := volumeId
  bucketName := bucketName
  config :=
    { keySlotNum := 5
      blockSize := 4 * 1024 * 1024
      blockHashType := .murmur3_128
      objectHashType := .murmur3_128 }

/-- The volume `v` with the buckets `a` and `b`, the second one from the name `b/`. -/
theorem bucketIds_proper_ab :
    (bucketOf [118] [97]).WellFormed ∧ (bucketOf [118] [98]).WellFormed ∧
      getBucketID [118] [98, 47] = (bucketOf [118] [98]).getID := by
  have hfirst : genBucketInfo [118] [97] [] = some (bucketOf [118] [97]) := by decide
  have hsecond : genBucketInfo [118] [98, 47] [] = some (bucketOf [118] [98]) := by decide
  obtain ⟨hiff, -, hid⟩ := bucketIds_proper_iff [118] [97] [] [118] [98, 47] [] hfirst hsecond
  obtain ⟨hwell, hwell', -⟩ := hiff.mpr (by decide)
  exact ⟨hwell, hwell', hid⟩

/-- The volumes `` and `..` both have a bucket `b`, and its ID is `/b` in both. -/
theorem bucketId_of_dots :
    genBucketInfo [] [98] [] = some (bucketOf [46] [98]) ∧
      genBucketInfo [46, 46] [98] [] = some (bucketOf [46, 46] [98]) ∧
      (bucketOf [46] [98]).getID = [47, 98] ∧ (bucketOf [46, 46] [98]).getID = [47, 98] ∧
      ¬(bucketOf [46] [98]).WellFormed ∧ ¬(bucketOf [46] [98]).Apart (bucketOf [46, 46] [98]) :=
  ⟨by decide, by decide, by decide, by decide, by decide,
    fun h => absurd (h (by decide)).1 (by decide)⟩

end Ecos
