import ChocoOs.Heap.WellFormed
import Mathlib.Data.List.Chain

/-!
# No two free blocks are neighbours

`free` merges once to the right and once to the left. That is enough, because two neighbours are
never both free in between calls: what lies uncovered between live blocks is one free block.
-/

namespace ChocoOs.Heap
open ProgLib

/-- Of two neighbours one is in use. -/
def Coalesced (ss : List Seg) : Prop := ss.IsChain fun s t => s.free = false ∨ t.free = false

/-- A segment may be resized where it stands. -/
theorem Coalesced.resize {pre : List Seg} {s s' : Seg} (h : Coalesced (pre ++ [s]))
    (hfree : s'.free = s.free) : Coalesced (pre ++ [s']) := by
  unfold Coalesced at *
  rw [List.isChain_append] at h ⊢
  obtain ⟨hpre, -, hlast⟩ := h
  refine ⟨hpre, List.isChain_singleton _, fun t ht u hu => ?_⟩
  obtain rfl : s' = u := Option.some.inj hu
  rw [hfree]
  exact hlast t ht s rfl

/-- The remainder behind a taken segment meets what the segment met before. -/
theorem Coalesced.take {pre post : List Seg} {s : Seg} (size : Nat)
    (h : Coalesced (pre ++ s :: post)) (hfree : s.free = true) :
    Coalesced (pre ++ takeSeg size s ++ post) := by
  unfold Coalesced at *
  rw [List.isChain_append, List.isChain_cons] at h
  obtain ⟨hpre, ⟨hnext, hpost⟩, -⟩ := h
  have hused : ∀ t ∈ post.head?, t.free = false := fun t ht =>
    (hnext t ht).resolve_left (by rw [hfree]; exact Bool.noConfusion)
  unfold takeSeg
  rw [List.append_assoc]
  split
  · refine hpre.append (List.isChain_cons.mpr ⟨fun t _ => .inl rfl, List.isChain_cons.mpr
      ⟨fun t ht => .inr (hused t ht), hpost⟩⟩) fun t _ u hu => ?_
    cases hu
    exact .inr rfl
  · refine hpre.append (List.isChain_cons.mpr ⟨fun t _ => .inl rfl, hpost⟩) fun t _ u hu => ?_
    cases hu
    exact .inr rfl

/-- One merge is enough where what is merged is coalesced. -/
theorem Coalesced.merge (pre : List Seg) {ss : List Seg} {s : Seg} (h : Coalesced (pre ++ [s]))
    (hss : Coalesced ss) : Coalesced (pre ++ mergeNext (s :: ss)) := by
  cases ss with
  | nil => exact h
  | cons n ss =>
    rw [mergeNext]
    split
    · next hboth =>
      rw [Bool.and_eq_true] at hboth
      obtain ⟨hnext, hrest⟩ := List.isChain_cons.mp hss
      refine List.isChain_split.mpr ⟨h.resize rfl, List.isChain_cons.mpr ⟨fun t ht => ?_, hrest⟩⟩
      exact .inr ((hnext t ht).resolve_left (by rw [hboth.1]; exact Bool.noConfusion))
    · next hone =>
      refine List.isChain_split.mpr ⟨h, List.isChain_cons_cons.mpr ⟨?_, hss⟩⟩
      rw [Bool.and_eq_true, not_and_or, Bool.not_eq_true, Bool.not_eq_true] at hone
      exact hone.symm

theorem Coalesced.release {pre post : List Seg} {s : Seg} (h : Coalesced (pre ++ s :: post))
    (hne : ∀ t ∈ pre, t.addr ≠ s.addr) : Coalesced (releaseSeg s.addr (pre ++ s :: post)) := by
  have hpost : Coalesced post := (List.isChain_split.mp h).2.tail
  have hfirst : Coalesced (mergeNext ({ s with free := true } :: post)) :=
    Coalesced.merge [] (List.isChain_singleton _) hpost
  rcases List.eq_nil_or_concat pre with rfl | ⟨pre, q, rfl⟩
  · rw [List.nil_append, releaseSeg_head]
    exact hfirst
  · rw [List.concat_eq_append] at *
    rw [List.append_assoc, List.singleton_append, releaseSeg_append post hne]
    exact Coalesced.merge _ h.left_of_append hfirst

theorem Coalesced.step {ss ss' : List Seg} (h : Coalesced ss) (hstep : SegStep ss ss') :
    Coalesced ss' := by
  cases hstep with
  | alloc halloc =>
    obtain ⟨pre, s, post, rfl, rfl, -, hfree, -⟩ := allocSeg_some halloc
    exact h.take _ hfree
  | release hused hne => exact h.release hne

theorem Coalesced.steps {ss ss' : List Seg} (h : Coalesced ss) (hsteps : SegSteps ss ss') :
    Coalesced ss' := by
  induction hsteps with
  | refl => exact h
  | tail _ hstep ih => exact ih.step hstep

/-- The invariant of a run, with coalesced segments. -/
theorem reachable_segs {base total : Nat} {s : Sys} (h : Reachable base total s) :
    ∃ ss, Inv base total s.heap ss ∧ s.live.Perm (livePayloads ss) ∧ Coalesced ss := by
  refine Reach.invariant (I := fun s => ∃ ss, Inv base total s.heap ss ∧
    s.live.Perm (livePayloads ss) ∧ Coalesced ss) (fun s hs => ?_) (fun s t hs hst => ?_) h
  · obtain ⟨hinv, hlive⟩ := start_inv hs
    exact ⟨_, hinv, hlive ▸ .refl _, List.isChain_singleton _⟩
  · obtain ⟨ss, hinv, hlive, hcoal⟩ := hs
    obtain ⟨c, hc, hexec⟩ := hst
    obtain ⟨t', ss', ht, hinv', hlive', hsteps⟩ := exec_segs hinv hlive hc
    rw [hexec] at ht
    cases ht
    exact ⟨ss', hinv', hlive', hcoal.steps hsteps⟩

/-- Coalesced segments that are all free are one segment. -/
theorem Coalesced.eq_singleton {ss : List Seg} (h : Coalesced ss) (hne : ss ≠ [])
    (hfree : ∀ s ∈ ss, s.free = true) : ∃ s, ss = [s] := by
  match ss, hne with
  | [s], _ => exact ⟨s, rfl⟩
  | s :: t :: ss, _ =>
    have hst := (List.isChain_cons_cons.mp h).1
    rw [hfree s (List.mem_cons_self ..),
      hfree t (List.mem_cons_of_mem _ (List.mem_cons_self ..))] at hst
    exact absurd hst (by decide)

/-- A heap whose pointers have all been freed is as `heap_init` has left it. -/
theorem restored {base total : Nat} {h : Heap} {ss : List Seg} (hinv : Inv base total h ss)
    (hcoal : Coalesced ss) (hlive : livePayloads ss = []) : blocks h = some [base] ∧
    header h.mem base = ⟨total - hdrSize, true, 0, 0⟩ ∧ h.usedSize = 0 := by
  have hinuse : inUse ss = [] := List.map_eq_nil_iff.mp hlive
  have hfree : ∀ s ∈ ss, s.free = true := fun s hs => by
    by_contra hused
    have hmem : s ∈ inUse ss := mem_inUse.mpr ⟨hs, Bool.eq_false_iff.mpr hused⟩
    rw [hinuse] at hmem
    cases hmem
  obtain ⟨s, rfl⟩ := hcoal.eq_singleton hinv.shape.ne_nil hfree
  obtain ⟨haddr, hend⟩ := hinv.shape.tiles
  have hsize : s.size = total - hdrSize := by
    simp only [Tiles, Seg.extent] at hend
    omega
  have hholds : Holds h.mem ([] ++ s :: []) := hinv.holds
  have hheader := hholds.header_eq
  rw [haddr, hsize, hfree s (List.mem_cons_self ..)] at hheader
  refine ⟨?_, hheader, ?_⟩
  · rw [hinv.blocks_eq, List.map_cons, List.map_nil, haddr]
  · rw [hinv.used, usedBytes, hinuse]
    rfl

/-- In every reachable state no two neighbours are free, and once nothing is live the heap is again
    one free block, as after `heap_init`. -/
theorem reachable_coalesced {base total : Nat} {s : Sys} (h : Reachable base total s) :
    (∃ bs, blocks s.heap = some bs ∧ bs.IsChain fun b c =>
      blockFree s.heap.mem b = false ∨ blockFree s.heap.mem c = false) ∧
    (s.live = [] → blocks s.heap = some [base] ∧
      header s.heap.mem base = ⟨total - hdrSize, true, 0, 0⟩ ∧ s.heap.usedSize = 0) := by
  obtain ⟨ss, hinv, hlive, hcoal⟩ := reachable_segs h
  refine ⟨⟨_, hinv.blocks_eq, ?_⟩, fun hnil => ?_⟩
  · rw [List.isChain_map]
    refine hcoal.imp_of_mem_imp fun t u ht hu htu => ?_
    rw [(hinv.holds.fields t ht).2, (hinv.holds.fields u hu).2]
    exact htu
  · rw [hnil] at hlive
    exact restored hinv hcoal hlive.symm.eq_nil

/-- Two requests, and their release in the order in which they were made. -/
theorem reachable_coalesced_boot : ∃ s : Sys, s.live = [] ∧
    blocks s.heap = some [0xffff800001000000] ∧
    header s.heap.mem 0xffff800001000000 = ⟨805306368 - hdrSize, true, 0, 0⟩ ∧
    s.heap.usedSize = 0 := by
  have h₁ := Reachable.get (c := .malloc 100) (.init start_bootSys)
    (by rw [Call.Ok, addrSpace_eq]; decide) (by decide +kernel)
  have h₂ := h₁.get (c := .malloc 24) (by rw [Call.Ok, addrSpace_eq]; decide) (by decide +kernel)
  have h₃ := h₂.get (c := .free 0xffff800001000020)
    (by rw [Call.Ok]; exact .inr (by decide +kernel)) (by decide +kernel)
  have h₄ := h₃.get (c := .free 0xffff8000010000b0)
    (by rw [Call.Ok]; exact .inr (by decide +kernel)) (by decide +kernel)
  exact ⟨_, by decide +kernel, (reachable_coalesced h₄).2 (by decide +kernel)⟩

end ChocoOs.Heap
