import Mathlib.Data.List.Basic
import Mathlib.Tactic

namespace Ecos.Go.Bufio

structure Writer (α : Type*) (cap : ℕ) where
  /-- what the underlying writer has been given -/
  sink : List α
  buffered : List α
  buffered_le : buffered.length ≤ cap

variable {α : Type*} {cap : ℕ}

namespace Writer

def new : Writer α cap := ⟨[], [], Nat.zero_le cap⟩

def available (w : Writer α cap) : ℕ := cap - w.buffered.length

def flush (w : Writer α cap) : Writer α cap := ⟨w.sink ++ w.buffered, [], Nat.zero_le cap⟩

/-- `copy` into the free part of the buffer. -/
def copy (w : Writer α cap) (p : List α) : Writer α cap where
  sink := w.sink
  buffered := w.buffered ++ p.take w.available
  buffered_le := by
    have hle := w.buffered_le
    rw [List.length_append, List.length_take, available]
    omega

/-- One round of the loop of `Write`: with an empty buffer `p` goes to the sink directly,
otherwise the buffer is filled up and flushed. -/
def spill (w : Writer α cap) (p : List α) : Writer α cap × List α :=
  match w.buffered with
  | [] => (⟨w.sink ++ p, [], Nat.zero_le cap⟩, [])
  | _ :: _ => ((w.copy p).flush, p.drop w.available)

def spillLoop : ℕ → Writer α cap → List α → Writer α cap × List α
  | 0, w, p => (w, p)
  | rounds + 1, w, p =>
    if p.length ≤ w.available then (w, p)
    else spillLoop rounds (w.spill p).1 (w.spill p).2

/-- `Write`. After a flush the buffer is empty, so the loop has two rounds at most. -/
def write (w : Writer α cap) (p : List α) : Writer α cap :=
  let (w, p) := spillLoop 2 w p
  w.copy p

def contents (w : Writer α cap) : List α := w.sink ++ w.buffered

end Writer

/-- How much is buffered after a write of `l` elements over `n` buffered ones. -/
def leftover (cap n l : ℕ) : ℕ :=
  if n + l ≤ cap then n + l
  else if n = 0 ∨ 2 * cap < n + l then 0
  else n + l - cap

namespace Writer

theorem contents_flush (w : Writer α cap) : w.flush.contents = w.contents := by
  rw [contents, flush, List.append_nil, contents]

theorem contents_copy {w : Writer α cap} {p : List α} (h : p.length ≤ w.available) :
    (w.copy p).contents = w.contents ++ p := by
  simp only [contents, copy, List.take_of_length_le h, List.append_assoc]

theorem length_buffered_copy {w : Writer α cap} {p : List α} (h : p.length ≤ w.available) :
    (w.copy p).buffered.length = w.buffered.length + p.length := by
  simp only [copy, List.take_of_length_le h, List.length_append]

theorem spillLoop_of_fits {w : Writer α cap} {p : List α} (h : p.length ≤ w.available) (n : ℕ) :
    spillLoop n w p = (w, p) := by
  cases n with
  | zero => rfl
  | succ n => rw [spillLoop, if_pos h]

theorem write_of_fits {w : Writer α cap} {p : List α} (h : p.length ≤ w.available) :
    w.write p = w.copy p := by
  rw [write, spillLoop_of_fits h]

/-- A large write over an empty buffer bypasses it. -/
theorem write_of_empty {w : Writer α cap} {p : List α} (hb : w.buffered = [])
    (h : ¬p.length ≤ w.available) : w.write p = ⟨w.sink ++ p, [], Nat.zero_le cap⟩ := by
  have hs : w.spill p = (⟨w.sink ++ p, [], Nat.zero_le cap⟩, []) := by
    unfold spill
    split
    · rfl
    · rename_i heq
      rw [hb] at heq
      cases heq
  rw [write, spillLoop, if_neg h, hs, spillLoop_of_fits (Nat.zero_le _)]
  simp [copy]

/-- A write that overflows the buffer is a write of its rest after a flush. -/
theorem write_of_overflow {w : Writer α cap} {p : List α} (hb : w.buffered ≠ [])
    (h : ¬p.length ≤ w.available) :
    w.write p = (w.copy p).flush.write (p.drop w.available) := by
  have hs : w.spill p = ((w.copy p).flush, p.drop w.available) := by
    unfold spill
    split
    · contradiction
    · rfl
  rw [write, spillLoop, if_neg h, hs]
  by_cases hfit : (p.drop w.available).length ≤ (w.copy p).flush.available
  · rw [write_of_fits hfit, spillLoop_of_fits hfit]
  · -- the second round empties `p`
    have hround : spillLoop 1 (w.copy p).flush (p.drop w.available) =
        (⟨(w.copy p).flush.sink ++ p.drop w.available, [], Nat.zero_le cap⟩, []) := by
      rw [spillLoop, if_neg hfit]
      rfl
    rw [write_of_empty rfl hfit]
    dsimp only
    rw [hround]
    simp [copy]

theorem write_spec (w : Writer α cap) (p : List α) :
    (w.write p).contents = w.contents ++ p ∧
      (w.write p).buffered.length = leftover cap w.buffered.length p.length := by
  have hle := w.buffered_le
  by_cases h : p.length ≤ w.available
  · rw [write_of_fits h]
    refine ⟨contents_copy h, ?_⟩
    rw [available] at h
    rw [length_buffered_copy h, leftover, if_pos (by omega)]
  by_cases hb : w.buffered = []
  · rw [write_of_empty hb h]
    refine ⟨by simp [contents, hb], ?_⟩
    rw [available] at h
    rw [leftover, if_neg (by omega), if_pos (by simp [hb])]
    rfl
  · -- the buffer is filled up and flushed, then `p` goes on over an empty buffer
    have hlen : 0 < w.buffered.length := List.length_pos_of_ne_nil hb
    have hcontents : (w.copy p).flush.contents = w.contents ++ p.take w.available := by
      rw [contents_flush]
      simp only [contents, copy, List.append_assoc]
    have hav : (w.copy p).flush.available = cap := rfl
    rw [write_of_overflow hb h]
    rw [available] at h
    by_cases hfit : (p.drop w.available).length ≤ (w.copy p).flush.available
    · rw [write_of_fits hfit]
      refine ⟨?_, ?_⟩
      · rw [contents_copy hfit, hcontents, List.append_assoc, List.take_append_drop]
      · rw [length_buffered_copy hfit]
        rw [hav] at hfit
        rw [List.length_drop, available] at *
        rw [leftover, if_neg (by omega), if_neg (by omega)]
        simp only [flush, List.length_nil]
        omega
    · rw [write_of_empty rfl hfit]
      refine ⟨?_, ?_⟩
      · rw [contents] at hcontents ⊢
        simp only [flush, List.append_nil] at hcontents ⊢
        rw [hcontents, List.append_assoc, List.take_append_drop]
      · rw [hav, List.length_drop, available] at hfit
        rw [leftover, if_neg (by omega), if_pos (by omega)]
        rfl

def writeAll (w : Writer α cap) (ps : List (List α)) : Writer α cap := ps.foldl write w

theorem contents_writeAll (w : Writer α cap) (ps : List (List α)) :
    (w.writeAll ps).contents = w.contents ++ ps.flatten := by
  induction ps generalizing w with
  | nil => simp [writeAll]
  | cons p ps ih =>
    rw [List.flatten_cons, ← List.append_assoc, ← (w.write_spec p).1]
    exact ih (w.write p)

theorem length_buffered_writeAll (w : Writer α cap) (ps : List (List α)) :
    (w.writeAll ps).buffered.length = (ps.map List.length).foldl (leftover cap) w.buffered.length := by
  induction ps generalizing w with
  | nil => rfl
  | cons p ps ih =>
    rw [List.map_cons, List.foldl_cons, ← (w.write_spec p).2]
    exact ih (w.write p)

/-- All elements have reached the sink exactly when nothing is left in the buffer. -/
theorem sink_eq_contents_iff (w : Writer α cap) : w.sink = w.contents ↔ w.buffered.length = 0 := by
  rw [contents, List.self_eq_append_right, List.length_eq_zero_iff]

theorem sink_writeAll_eq_iff (ps : List (List α)) :
    ((new : Writer α cap).writeAll ps).sink = ps.flatten ↔
      (ps.map List.length).foldl (leftover cap) 0 = 0 := by
  have hcontents := contents_writeAll (new : Writer α cap) ps
  have hlen := length_buffered_writeAll (new : Writer α cap) ps
  rw [show (new : Writer α cap).contents = [] from rfl, List.nil_append] at hcontents
  rw [← hcontents, sink_eq_contents_iff, hlen]
  rfl

end Writer

end Ecos.Go.Bufio
