import ChocoOs.Heap.Block
import ChocoOs.Lib.Tiling
import Mathlib.Logic.Relation
import Mathlib.Algebra.GroupWithZero.Nat

/-!
# First fit on a list of segments

What the heap is for, without memory and pointers: a region cut into segments, each free or
in use, in address order. Allocation takes the first free segment that is long enough and
cuts off what it does not need; release merges a segment with its free neighbours. The
pointer code is shown to refine these two operations in `Heap.Refine`.
-/

namespace ChocoOs.Heap
open ProgLib

/-- A segment of the region: where its header is, its payload size, whether it is free. -/
structure Seg where
  addr : Nat
  size : Nat
  free : Bool
  deriving DecidableEq, Repr

namespace Seg

/-- The payload address, which is what `malloc` hands out. -/
def payload (s : Seg) : Nat := s.addr + hdrSize

/-- Header and payload. -/
def extent (s : Seg) : Nat := hdrSize + s.size

end Seg

/-- The segments tile `[base, base + total)`. -/
abbrev SegTiles (lo : Nat) (ss : List Seg) (hi : Nat) : Prop :=
  Tiles Seg.addr Seg.extent lo ss hi

/-- The segments in use. -/
def inUse (ss : List Seg) : List Seg := ss.filter fun s => !s.free

/-- The payload addresses of the segments in use. -/
def livePayloads (ss : List Seg) : List Nat := (inUse ss).map Seg.payload

/-- The bytes of the segments in use, headers included. -/
def usedBytes (ss : List Seg) : Nat := ((inUse ss).map Seg.extent).sum

/-- `s` reduced to `size` payload bytes and put to use, with what is left as a free segment
    behind it when that can hold a header and 16 bytes. -/
def takeSeg (size : Nat) (s : Seg) : List Seg :=
  if size + hdrSize + alignment ≤ s.size then
    [⟨s.addr, size, false⟩, ⟨s.addr + hdrSize + size, s.size - size - hdrSize, true⟩]
  else [{ s with free := false }]

/-- First fit. -/
def allocSeg (size : Nat) : List Seg → Option (List Seg × Nat)
  | [] => none
  | s :: ss =>
    if s.free && size ≤ s.size then some (takeSeg size s ++ ss, s.payload)
    else (allocSeg size ss).map fun r => (s :: r.1, r.2)

/-- Merge the first segment with the second one if both are free. -/
def mergeNext : List Seg → List Seg
  | s :: n :: ss =>
    if n.free && s.free then { s with size := s.size + (hdrSize + n.size) } :: ss
    else s :: n :: ss
  | ss => ss

/-- Release the segment at `a` and merge it with its neighbours. -/
def releaseSeg (a : Nat) : List Seg → List Seg
  | [] => []
  | s :: ss =>
    if s.addr = a then mergeNext ({ s with free := true } :: ss)
    else if ss.head?.map Seg.addr = some a then mergeNext (s :: releaseSeg a ss)
    else s :: releaseSeg a ss

/-- One step of the calls: a request, or the release of a segment in use. -/
inductive SegStep : List Seg → List Seg → Prop
  | alloc {size p : Nat} {ss ss' : List Seg} : allocSeg size ss = some (ss', p) → SegStep ss ss'
  | release {pre post : List Seg} {s : Seg} : s.free = false → (∀ t ∈ pre, t.addr ≠ s.addr) →
      SegStep (pre ++ s :: post) (releaseSeg s.addr (pre ++ s :: post))

/-- What any number of calls does to the segments. -/
abbrev SegSteps : List Seg → List Seg → Prop := Relation.ReflTransGen SegStep

@[simp] theorem inUse_nil : inUse [] = [] := rfl

@[simp] theorem inUse_append (xs ys : List Seg) : inUse (xs ++ ys) = inUse xs ++ inUse ys :=
  List.filter_append ..

@[simp] theorem inUse_cons_free {s : Seg} (ss : List Seg) (h : s.free = true) :
    inUse (s :: ss) = inUse ss := by
  simp [inUse, h]

@[simp] theorem inUse_cons_used {s : Seg} (ss : List Seg) (h : s.free = false) :
    inUse (s :: ss) = s :: inUse ss := by
  simp [inUse, h]

theorem inUse_cons (s : Seg) (ss : List Seg) : inUse (s :: ss) = inUse [s] ++ inUse ss := by
  rw [← List.singleton_append, inUse_append]

theorem mem_inUse {s : Seg} {ss : List Seg} : s ∈ inUse ss ↔ s ∈ ss ∧ s.free = false := by
  simp [inUse]

theorem usedBytes_le {lo hi : Nat} {ss : List Seg} (h : SegTiles lo ss hi) :
    lo + usedBytes ss ≤ hi := by
  induction ss generalizing lo with
  | nil => exact Nat.le_of_eq h
  | cons s ss ih =>
    have htail := ih h.2
    cases hs : s.free with
    | true => simp only [usedBytes, inUse_cons_free ss hs] at htail ⊢; omega
    | false =>
      simp only [usedBytes, inUse_cons_used ss hs, List.map_cons, List.sum_cons] at htail ⊢
      omega

/-! ## Allocation -/

/-- How first fit succeeds: everything before the chosen segment is in use or too short. -/
theorem allocSeg_some {size p : Nat} {ss ss' : List Seg} (h : allocSeg size ss = some (ss', p)) :
    ∃ pre s post, ss = pre ++ s :: post ∧ ss' = pre ++ takeSeg size s ++ post ∧
      p = s.payload ∧ s.free = true ∧ size ≤ s.size ∧
      ∀ t ∈ pre, t.free = true → t.size < size := by
  induction ss generalizing ss' with
  | nil => simp [allocSeg] at h
  | cons s ss ih =>
    unfold allocSeg at h
    split at h
    · next hfit =>
      simp only [Bool.and_eq_true, decide_eq_true_eq] at hfit
      cases h
      exact ⟨[], s, ss, rfl, rfl, rfl, hfit.1, hfit.2, by simp⟩
    · next hfit =>
      obtain ⟨⟨tl, q⟩, htl, heq⟩ := Option.map_eq_some_iff.mp h
      cases heq
      obtain ⟨pre, t, post, rfl, htl', rfl, hfree, hsize, hpre⟩ := ih htl
      refine ⟨s :: pre, t, post, rfl, ?_, rfl, hfree, hsize, ?_⟩
      · simp [htl']
      · intro u hu hfu
        rcases List.mem_cons.mp hu with rfl | hu
        · simp only [hfu, Bool.true_and, decide_eq_true_eq] at hfit
          omega
        · exact hpre u hu hfu

theorem allocSeg_none {size : Nat} {ss : List Seg} :
    allocSeg size ss = none ↔ ∀ s ∈ ss, s.free = true → s.size < size := by
  induction ss with
  | nil => simp [allocSeg]
  | cons s ss ih =>
    unfold allocSeg
    by_cases hfit : (s.free && decide (size ≤ s.size)) = true
    · rw [if_pos hfit]
      simp only [Bool.and_eq_true, decide_eq_true_eq] at hfit
      simp only [reduceCtorEq, false_iff]
      intro hall
      have := hall s (by simp) hfit.1
      omega
    · rw [if_neg hfit, Option.map_eq_none_iff, ih]
      simp only [Bool.and_eq_true, decide_eq_true_eq, not_and, Nat.not_le] at hfit
      simp only [List.mem_cons, forall_eq_or_imp]
      exact ⟨fun hall => ⟨hfit, hall⟩, fun hall => hall.2⟩

theorem tiles_takeSeg {size a b : Nat} {s : Seg} (h : SegTiles a [s] b) : SegTiles a (takeSeg size s) b := by
  obtain ⟨rfl, hb⟩ := h
  unfold takeSeg
  split
  · refine ⟨rfl, ?_, ?_⟩
    · simp only [Seg.extent]; omega
    · simp only [Tiles, Seg.extent, hdrSize] at hb ⊢
      simp only [hdrSize, alignment] at *
      omega
  · exact ⟨rfl, hb⟩

/-- The taken segment is the only one of the new ones in use. -/
theorem inUse_takeSeg (size : Nat) (s : Seg) : ∃ n, inUse (takeSeg size s) = [⟨s.addr, n, false⟩] ∧
    (size ≤ s.size → size ≤ n ∧ n ≤ s.size) := by
  unfold takeSeg
  split
  · exact ⟨size, rfl, fun h => ⟨Nat.le_refl _, h⟩⟩
  · exact ⟨s.size, rfl, fun h => ⟨h, Nat.le_refl _⟩⟩

/-! ## Release -/

theorem tiles_mergeNext {a b : Nat} {ss : List Seg} (h : SegTiles a ss b) :
    SegTiles a (mergeNext ss) b := by
  match ss, h with
  | [], h => exact h
  | [s], h => exact h
  | s :: n :: ss, ⟨hs, hn, hss⟩ =>
    simp only [mergeNext]
    split
    · refine ⟨hs, ?_⟩
      simp only [Seg.extent] at hss ⊢
      rwa [show a + (hdrSize + (s.size + (hdrSize + n.size))) =
        a + (hdrSize + s.size) + (hdrSize + n.size) by omega]
    · exact ⟨hs, hn, hss⟩

theorem inUse_mergeNext (ss : List Seg) : inUse (mergeNext ss) = inUse ss := by
  match ss with
  | [] => rfl
  | [_] => rfl
  | s :: n :: ss =>
    simp only [mergeNext]
    split
    · next hfree =>
      simp only [Bool.and_eq_true] at hfree
      simp [hfree.1, hfree.2]
    · rfl

theorem releaseSeg_head (s : Seg) (ss : List Seg) :
    releaseSeg s.addr (s :: ss) = mergeNext ({ s with free := true } :: ss) := by
  simp [releaseSeg]

/-- Release in the middle of the list: first the segment and its successor are merged, then
    its predecessor and the result. -/
theorem releaseSeg_append {pre : List Seg} {q s : Seg} (post : List Seg)
    (hne : ∀ t ∈ pre ++ [q], t.addr ≠ s.addr) :
    releaseSeg s.addr (pre ++ q :: s :: post) =
      pre ++ mergeNext (q :: mergeNext ({ s with free := true } :: post)) := by
  induction pre with
  | nil =>
    have hq := hne q (by simp)
    simp [releaseSeg, hq]
  | cons t pre ih =>
    have ht := hne t (by simp)
    have hhead : (pre ++ q :: s :: post).head?.map Seg.addr ≠ some s.addr := by
      cases pre with
      | nil => simpa using hne q (by simp)
      | cons u pre => simpa using hne u (by simp)
    rw [List.cons_append, releaseSeg, if_neg ht, if_neg hhead,
      ih fun u hu => hne u (by simp at hu ⊢; tauto), List.cons_append]

theorem inUse_releaseSeg {pre post : List Seg} {s : Seg} (hne : ∀ t ∈ pre, t.addr ≠ s.addr) :
    inUse (releaseSeg s.addr (pre ++ s :: post)) = inUse pre ++ inUse post := by
  rcases List.eq_nil_or_concat pre with rfl | ⟨pre, q, rfl⟩
  · rw [List.nil_append, releaseSeg_head, inUse_mergeNext]
    simp
  · rw [List.concat_eq_append] at hne ⊢
    rw [List.append_assoc, List.singleton_append, releaseSeg_append post hne, inUse_append,
      inUse_mergeNext, inUse_cons, inUse_mergeNext]
    simp [inUse_append]

end ChocoOs.Heap
