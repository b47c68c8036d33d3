import Ecos.Client.Closing

namespace Ecos.Client
open Go Std

variable {f : Factory} {w : EcosWriter} {bs : List Block} {cs : List LocalChunk}

/-- `SubmitMeta` is called unless there is no agent to call. -/
theorem uploadMeta_calls {replies : List SubmitReply} {err : Option Errno} {n : ℕ}
    (h : uploadMeta replies = some (err, n)) :
    (∃ e, replies.head? = some (.noAgent e)) ∧ err ≠ none ∧ n = 0 ∨
      (¬ ∃ e, replies.head? = some (.noAgent e)) ∧ 0 < n := by
  rcases replies with _ | ⟨reply, replies⟩
  · cases h
  · cases reply with
    | ok =>
      cases h
      exact .inr ⟨by simp, Nat.one_pos⟩
    | noAgent e =>
      cases h
      exact .inl ⟨⟨e, rfl⟩, by simp, rfl⟩
    | failed e =>
      cases h
      exact .inr ⟨by simp, Nat.one_pos⟩
    | termNotMatch update =>
      cases update with
      | some e =>
        cases h
        exact .inr ⟨by simp, Nat.one_pos⟩
      | none =>
        rw [uploadMeta, Option.map_eq_some_iff] at h
        obtain ⟨⟨err', n'⟩, -, heq⟩ := h
        cases heq
        exact .inr ⟨by simp, Nat.succ_pos n'⟩

/-- A meta is submitted only for fully uploaded objects, and a failed upload is reported. -/
def UploadsSound (completions : List (ℕ × Bool)) (r : CloseResult) : Prop :=
  (∀ m ∈ r.submitted, ∀ j < m.blocks.length, (j + 1, true) ∈ completions) ∧
    ((∃ e ∈ completions, e.2 = false) → r.err ≠ none ∧ r.submitted = [])

theorem close_result (hstatus : w.status = .READING) (h : Committed f (committedAll f w) bs [])
    {completions : List (ℕ × Bool)} (ha : Arrive (committedAll f w) completions)
    {replies : List SubmitReply} {r : CloseResult} (hr : close f w completions replies = some r) :
    ∃ m n, uploadMeta replies = some (r.err, n) ∧ r.submitted = List.replicate n m ∧
      m.blocks = listedInfos f bs := by
  obtain ⟨w', m, hm, hclose⟩ := close_eq hstatus h ha
  rw [hclose, Option.map_eq_some_iff] at hr
  obtain ⟨⟨err, n⟩, hup, rfl⟩ := hr
  exact ⟨m, n, hup, rfl, hm.blocks⟩

/-- After any sequence of writes and for every order and outcome of the uploads, `Close` is
sound exactly when no upload failed, or there was no agent to submit the meta to. -/
theorem close_sound_iff (f : Factory) (key : Bytes) (term : UInt64) (ps : List Bytes)
    (completions : List (ℕ × Bool)) (replies : List SubmitReply) (r : CloseResult)
    (ha : Arrive (committedAll f (writes f { key := key, term := term } ps)) completions)
    (hr : close f (writes f { key := key, term := term } ps) completions replies = some r) :
    UploadsSound completions r ↔
      (∀ e ∈ completions, e.2 = true) ∨ ∃ e, replies.head? = some (.noAgent e) := by
  obtain ⟨hstatus, bs, cs, h⟩ := (committed_new (f := f) key term).writes ps
  have h' := h.committedAll
  obtain ⟨m, n, hup, hsubmitted, hm⟩ := close_result hstatus h' ha hr
  have hlist : ∀ j < m.blocks.length, ∃ ok, (j + 1, ok) ∈ completions := by
    intro j hj
    rw [hm, listedInfos, List.length_mapIdx] at hj
    exact ha.exists_outcome h'.numbered hj
  unfold UploadsSound
  rw [hsubmitted]
  -- whether a meta is submitted does not depend on the uploads
  rcases uploadMeta_calls hup with ⟨hagent, hne, rfl⟩ | ⟨hagent, hpos⟩
  · exact iff_of_true ⟨by simp, fun _ => ⟨hne, rfl⟩⟩ (.inr hagent)
  · constructor
    · rintro ⟨-, hfail⟩
      refine .inl fun e he => ?_
      by_contra hbad
      have hnil := (hfail ⟨e, he, by simpa using hbad⟩).2
      rw [List.replicate_eq_nil_iff] at hnil
      omega
    · rintro (hall | hagent')
      · refine ⟨?_, ?_⟩
        · intro x hx j hj
          rw [List.eq_of_mem_replicate hx] at hj
          obtain ⟨ok, he⟩ := hlist j hj
          rwa [show ok = true from hall _ he] at he
        · rintro ⟨e, he, hbad⟩
          rw [hall e he] at hbad
          cases hbad
      · exact absurd hagent' hagent

/-- Three bytes fill one block and begin another; the uploads complete in reverse order. -/
theorem close_sound_two_blocks :
    ∃ r, close smallFactory (writes smallFactory { key := [107], term := 1 } [[1, 2, 3]])
        [(2, true), (1, true)] [.ok] = some r ∧ UploadsSound [(2, true), (1, true)] r := by
  refine ⟨_, rfl, ?_⟩
  exact (close_sound_iff smallFactory [107] 1 [[1, 2, 3]] [(2, true), (1, true)] [.ok] _
    (by decide) rfl).mpr (.inl (by simp))

/-- The only block fails to upload: `Close` returns nil and submits a meta that lists it. -/
theorem close_ignores_failed_upload :
    ∃ r, close smallFactory (writes smallFactory { key := [107], term := 1 } [[1]])
        [(1, false)] [.ok] = some r ∧ r.err = none ∧ r.submitted.map ObjectMeta.blocks =
          [[⟨[1], 0, 1, [], 0⟩]] := by
  exact ⟨_, rfl, by decide +kernel, by decide +kernel⟩

end Ecos.Client
