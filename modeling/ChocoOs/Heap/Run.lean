import ChocoOs.Heap.Invariant
import ChocoOs.Lib.Transition
import Mathlib.Tactic.Tauto

/-!
# Runs of the heap

A run starts with `heap_init` and continues with calls, whose pointers are live: handed out
earlier and not freed since. Between calls the owner of a live pointer may write its payload.
-/

namespace ChocoOs.Heap
open ProgLib

/-- The heap and the pointers handed out and not freed since. -/
structure Sys where
  heap : Heap
  live : List Nat

/-- What can happen to the heap. -/
inductive Call where
  | malloc (size : Nat)
  | calloc (num size : Nat)
  | realloc (ptr size : Nat)
  | free (ptr : Nat)
  /-- the owner of `ptr` writes the byte at `ptr + off` -/
  | store (ptr off : Nat) (v : UInt8)

/-- The live pointers once `p` has been returned. -/
def handOut (p : Nat) (live : List Nat) : List Nat := if p = 0 then live else p :: live

/-- One call. `none` means that the call does not return. -/
def exec (s : Sys) : Call → Option Sys
  | .malloc size => (malloc s.heap size).map fun r => ⟨r.1, handOut r.2 s.live⟩
  | .calloc num size => (calloc s.heap num size).map fun r => ⟨r.1, handOut r.2 s.live⟩
  | .realloc ptr size => (realloc s.heap ptr size).map fun r =>
      -- a failed reallocation keeps the old pointer live
      ⟨r.1, if size ≠ 0 ∧ r.2 = 0 then s.live else handOut r.2 (s.live.erase ptr)⟩
  | .free ptr => some ⟨free s.heap ptr, s.live.erase ptr⟩
  | .store ptr off v => some ⟨{ s.heap with mem := store8 s.heap.mem (ptr + off) v }, s.live⟩

/-- The calls a correct client makes: pointers are null or live, byte counts are 64-bit and,
    except for `malloc` itself, at most `2 ^ 64 - 16`, writes stay in the payload. -/
def Call.Ok (s : Sys) : Call → Prop
  | .malloc size => size < addrSpace
  | .calloc num size => num < addrSpace ∧ size < addrSpace ∧
      (num * size ≤ addrSpace - 16 ∨ addrSpace ≤ num * size)
  | .realloc ptr size => (ptr = 0 ∨ ptr ∈ s.live) ∧ size ≤ addrSpace - 16
  | .free ptr => ptr = 0 ∨ ptr ∈ s.live
  | .store ptr off _ => ptr ∈ s.live ∧ off < blockSize s.heap.mem (ptr - hdrSize)

/-- What `heap_init` gets from the page allocator: every granted run is page-aligned, and its
    image in the direct map at `hhdm` lies inside the address space, off the null address. -/
structure Grants (pmmAllocPages : Nat → Nat) (hhdm : Nat) : Prop where
  aligned : ∀ n, pmmAllocPages n % pageSize = 0
  hhdm_aligned : hhdm % pageSize = 0
  mapped : ∀ n, pmmAllocPages n ≠ 0 → 0 < pmmAllocPages n + hhdm ∧
    pmmAllocPages n + hhdm + n * pageSize < addrSpace

/-- The heap right after a `heap_init` that found the region `[base, base + total)`. -/
def Start (base total : Nat) (s : Sys) : Prop :=
  ∃ mem pmmAllocPages hhdm, Grants pmmAllocPages hhdm ∧
    s = ⟨heapInit ⟨mem, 0, 0, 0⟩ pmmAllocPages hhdm, []⟩ ∧
    s.heap.heapHead = base ∧ base ≠ 0 ∧ s.heap.totalSize = total

/-- One call of a correct client. -/
def Step (s t : Sys) : Prop := ∃ c : Call, c.Ok s ∧ exec s c = some t

/-- The states of all runs over `[base, base + total)`. -/
abbrev Reachable (base total : Nat) : Sys → Prop := Reach (Start base total) Step

/-- The invariant of a run. -/
def SysInv (base total : Nat) (s : Sys) : Prop :=
  ∃ ss, Inv base total s.heap ss ∧ s.live.Perm (livePayloads ss)

/-! ## The start -/

theorem findRegion_spec (alloc : Nat → Nat) :
    (findRegion alloc heapMax).1 = 0 ∨
    ∃ w ∈ [805306368, 402653184, 201326592, 100663296, 50331648, 25165824],
      findRegion alloc heapMax = (alloc (w / pageSize), w) ∧ alloc (w / pageSize) ≠ 0 := by
  have hstep : ∀ w, ¬ w < heapMin → findRegion alloc w =
      if alloc (w / pageSize) ≠ 0 then (alloc (w / pageSize), w)
      else findRegion alloc (w / 2) := by
    intro w hw
    rw [findRegion, dif_neg hw]
  have hstop : findRegion alloc 12582912 = (0, 12582912) := by
    rw [findRegion, dif_pos (by decide)]
  have hmax : heapMax = 805306368 := by decide
  rw [hmax, hstep 805306368 (by decide), hstep 402653184 (by decide),
    hstep 201326592 (by decide), hstep 100663296 (by decide), hstep 50331648 (by decide),
    hstep 25165824 (by decide), hstop]
  repeat' split
  all_goals first
    | exact .inl rfl
    | exact .inr ⟨_, by simp, rfl, by assumption⟩

/-- `heap_init` leaves one free segment. -/
theorem start_inv {base total : Nat} {s : Sys} (h : Start base total s) :
    Inv base total s.heap [⟨base, total - hdrSize, true⟩] ∧ s.live = [] := by
  obtain ⟨mem, alloc, hhdm, hg, rfl, hbase, hne, htotal⟩ := h
  rcases findRegion_spec alloc with hz | ⟨w, hw, heq, halloc⟩
  · rw [heapInit] at hbase
    simp only [hz, if_true] at hbase
    exact absurd hbase.symm hne
  · have hwb : 64 ≤ w ∧ w % 16 = 0 ∧ w / pageSize * pageSize = w ∧ w < addrSpace := by
      simp only [List.mem_cons, List.not_mem_nil, or_false] at hw
      rw [addrSpace_eq]
      rcases hw with rfl | rfl | rfl | rfl | rfl | rfl <;> decide
    obtain ⟨hw64, hw16, hpages, hwlt⟩ := hwb
    have hal := hg.aligned (w / pageSize)
    have hhd := hg.hhdm_aligned
    obtain ⟨hpos, hend⟩ := hg.mapped _ halloc
    rw [hpages] at hend
    set phys := alloc (w / pageSize) with hphys
    have hadd : add64 phys hhdm = phys + hhdm := add64_of_lt (by omega)
    have hsub : sub64 w hdrSize = w - hdrSize :=
      sub64_of_le hwlt (by simp only [hdrSize]; omega)
    have hinit : heapInit ⟨mem, 0, 0, 0⟩ alloc hhdm =
        ⟨setPrev (setNext (setFree (setSize mem (phys + hhdm) (w - hdrSize)) (phys + hhdm) true)
          (phys + hhdm) 0) (phys + hhdm) 0, phys + hhdm, w, 0⟩ := by
      rw [heapInit, heq]
      simp only [if_neg halloc, hadd, hsub]
    rw [hinit] at hbase htotal ⊢
    simp only at hbase htotal
    subst hbase htotal
    have hhead : header (setPrev (setNext (setFree (setSize mem (phys + hhdm) (w - hdrSize))
        (phys + hhdm) true) (phys + hhdm) 0) (phys + hhdm) 0) (phys + hhdm) =
        ⟨w - hdrSize, true, 0, 0⟩ := by
      rw [header_setPrev addrSpace_pos, header_setNext addrSpace_pos, header_setFree,
        header_setSize (by omega)]
    refine ⟨⟨⟨?_, ?_⟩, ⟨?_, ?_, ?_, ?_, ?_, ?_⟩, rfl, rfl, rfl⟩, rfl⟩
    · simp only [List.map_cons, List.map_nil, dLinked_cons, List.headD_nil, dLinked_nil, and_true,
        blockNext_eq, blockPrev_eq, hhead]
    · intro t ht
      simp only [List.mem_cons, List.not_mem_nil, or_false] at ht
      subst ht
      rw [blockSize_eq, blockFree_eq, hhead]
      exact ⟨rfl, rfl⟩
    · simp only [tiles_cons, Tiles, Seg.extent, true_and, hdrSize]
      omega
    · intro t ht
      simp only [List.mem_cons, List.not_mem_nil, or_false] at ht
      subst ht
      simp only [hdrSize]
      omega
    · omega
    · omega
    · simp only [pageSize] at hal hhd
      omega
    · omega

theorem sysInv_start {base total : Nat} {s : Sys} (h : Start base total s) :
    SysInv base total s := by
  obtain ⟨hinv, hlive⟩ := start_inv h
  exact ⟨_, hinv, hlive ▸ .refl _⟩

/-! ## The live pointers -/

theorem mem_livePayloads {p : Nat} {ss : List Seg} :
    p ∈ livePayloads ss ↔ ∃ s ∈ ss, s.free = false ∧ s.payload = p := by
  simp only [livePayloads, List.mem_map, mem_inUse, and_assoc]

theorem Shape.nodup_livePayloads {base total : Nat} {ss : List Seg} (h : Shape base total ss) :
    (livePayloads ss).Nodup := by
  have hlt : ss.Pairwise fun s t => s.payload ≠ t.payload := h.tiles.pairwise.imp fun hst => by
    simp only [Seg.payload, Seg.extent, hdrSize] at hst ⊢
    omega
  exact List.pairwise_map.mpr (hlt.filter _)

theorem Shape.payload_ne_zero {base total : Nat} {ss : List Seg} :
    ∀ s ∈ ss, Shape base total ss → s.payload ≠ 0 := by
  intro s hs h
  have := h.addr_pos s hs
  simp only [Seg.payload]
  omega

/-- Allocation adds one live pointer. -/
theorem livePayloads_takeSeg (pre post : List Seg) {s : Seg} (size : Nat)
    (hfree : s.free = true) :
    (livePayloads (pre ++ takeSeg size s ++ post)).Perm
      (s.payload :: livePayloads (pre ++ s :: post)) := by
  obtain ⟨n, hn, -⟩ := inUse_takeSeg size s
  simp only [livePayloads, inUse_append, hn, inUse_cons_free post hfree, List.map_append,
    List.map_cons, List.append_assoc, List.singleton_append]
  exact List.perm_middle

/-- Release removes one. -/
theorem livePayloads_releaseSeg {base total : Nat} {pre post : List Seg} {s : Seg}
    (h : Shape base total (pre ++ s :: post)) (hused : s.free = false) :
    (livePayloads (releaseSeg s.addr (pre ++ s :: post))).Perm
      ((livePayloads (pre ++ s :: post)).erase s.payload) := by
  have hne : ∀ t ∈ pre, t.addr ≠ s.addr := fun t ht => by
    have := h.around.2.2.1 t ht
    simp only [hdrSize] at this
    omega
  have hall : (livePayloads (pre ++ s :: post)).Perm
      (s.payload :: (livePayloads pre ++ livePayloads post)) := by
    simp only [livePayloads, inUse_append, inUse_cons_used post hused, List.map_append,
      List.map_cons]
    exact List.perm_middle
  have herase := hall.erase s.payload
  rw [List.erase_cons_head] at herase
  rw [livePayloads, inUse_releaseSeg hne, List.map_append]
  exact herase.symm

theorem mem_inUse_takeSeg {pre post : List Seg} {s t : Seg} {size : Nat}
    (hfree : s.free = true) (ht : t ∈ inUse (pre ++ s :: post)) :
    t ∈ inUse (pre ++ takeSeg size s ++ post) := by
  rw [inUse_append, inUse_cons_free post hfree] at ht
  rw [inUse_append, inUse_append]
  simp only [List.mem_append] at ht ⊢
  tauto

/-- Whatever `malloc` is asked for, it returns, keeps the invariant, keeps the blocks in use,
    and a pointer that it hands out is new and has the rounded size. -/
theorem malloc_sys {base total : Nat} {h : Heap} {ss : List Seg} {live : List Nat} (size : Nat)
    (hi : Inv base total h ss) (hl : live.Perm (livePayloads ss)) :
    ∃ h' p ss', malloc h size = some (h', p) ∧ Inv base total h' ss' ∧ SegSteps ss ss' ∧
      (handOut p live).Perm (livePayloads ss') ∧ (∀ t ∈ inUse ss, t ∈ inUse ss') ∧
      (p ≠ 0 → p ∉ live ∧ ∃ t ∈ ss', t.free = false ∧ t.payload = p ∧ roundUp size ≤ t.size) := by
  by_cases hsize : size = 0
  · exact ⟨h, 0, ss, by rw [malloc, if_pos (.inl hsize)], hi, .refl, hl, fun _ ht => ht, by simp⟩
  · rcases malloc_spec hi hsize with
      ⟨-, hm⟩ | ⟨h', pre, s, post, rfl, hfree, hle, halloc, hm, hinv⟩
    · exact ⟨h, 0, ss, hm, hi, .refl, hl, fun _ ht => ht, by simp⟩
    · have hp0 : s.payload ≠ 0 := Shape.payload_ne_zero s (by simp) hi.shape
      have hperm := livePayloads_takeSeg pre post (roundUp size) hfree
      refine ⟨h', s.payload, _, hm, hinv, .single (.alloc halloc), ?_,
        fun t ht => mem_inUse_takeSeg hfree ht, fun _ => ?_⟩
      · rw [handOut, if_neg hp0]
        exact (hl.cons _).trans hperm.symm
      · have hnd := hperm.nodup_iff.mp hinv.shape.nodup_livePayloads
        refine ⟨fun hmem => (List.nodup_cons.mp hnd).1 (hl.mem_iff.mp hmem), ?_⟩
        obtain ⟨n, hn, hle'⟩ := inUse_takeSeg (roundUp size) s
        have hmem : (⟨s.addr, n, false⟩ : Seg) ∈ inUse (takeSeg (roundUp size) s) := by simp [hn]
        refine ⟨⟨s.addr, n, false⟩, ?_, rfl, rfl, (hle' hle).1⟩
        have := (mem_inUse.mp hmem).1
        simp only [List.mem_append]
        tauto

/-! ## Every call keeps the invariant -/

theorem free_sys {base total ptr : Nat} {h : Heap} {ss : List Seg} {live : List Nat}
    (hi : Inv base total h ss) (hl : live.Perm (livePayloads ss)) (hptr : ptr ∈ live) :
    ∃ ss', Inv base total (free h ptr) ss' ∧ SegSteps ss ss' ∧
      (live.erase ptr).Perm (livePayloads ss') := by
  obtain ⟨s, hs, hused, rfl⟩ := mem_livePayloads.mp (hl.mem_iff.mp hptr)
  obtain ⟨pre, post, rfl⟩ := List.append_of_mem hs
  have hne : ∀ t ∈ pre, t.addr ≠ s.addr := fun t ht => by
    have := hi.shape.around.2.2.1 t ht
    simp only [hdrSize] at this
    omega
  exact ⟨_, free_spec hi hused, .single (.release hused hne),
    (hl.erase _).trans (livePayloads_releaseSeg hi.shape hused).symm⟩

theorem live_ne_zero {base total ptr : Nat} {h : Heap} {ss : List Seg} {live : List Nat}
    (hi : Inv base total h ss) (hl : live.Perm (livePayloads ss)) (hptr : ptr ∈ live) :
    ptr ≠ 0 := by
  obtain ⟨s, hs, -, rfl⟩ := mem_livePayloads.mp (hl.mem_iff.mp hptr)
  exact Shape.payload_ne_zero s hs hi.shape

theorem calloc_sys {base total num size : Nat} {h : Heap} {ss : List Seg} {live : List Nat}
    (hi : Inv base total h ss) (hl : live.Perm (livePayloads ss)) (hnum : num < addrSpace)
    (hok : num * size ≤ addrSpace - 16 ∨ addrSpace ≤ num * size) :
    ∃ h' p ss', calloc h num size = some (h', p) ∧ Inv base total h' ss' ∧ SegSteps ss ss' ∧
      (handOut p live).Perm (livePayloads ss') := by
  have has := addrSpace_eq
  by_cases hover : num ≠ 0 ∧ size > (addrSpace - 1) / num
  · exact ⟨h, 0, ss, by rw [calloc, if_pos hover], hi, .refl, hl⟩
  · -- the check has excluded the products that wrap
    have hprod : num * size < addrSpace := by
      rcases Nat.eq_zero_or_pos num with rfl | hpos
      · simp [addrSpace_pos]
      · have hle : size ≤ (addrSpace - 1) / num := by
          have : ¬ size > (addrSpace - 1) / num := fun hgt => hover ⟨by omega, hgt⟩
          omega
        have := Nat.mul_le_mul_left num hle
        have := Nat.mul_div_le (addrSpace - 1) num
        omega
    have htotal : mul64 num size = num * size := Nat.mod_eq_of_lt hprod
    obtain ⟨h', p, ss', hm, hinv, hsteps, hperm, -, hp⟩ := malloc_sys (num * size) hi hl
    by_cases hp0 : p = 0
    · refine ⟨h', p, ss', ?_, hinv, hsteps, hperm⟩
      simp only [calloc, if_neg hover, htotal, hm, hp0, ne_eq, not_true_eq_false, if_false]
    · obtain ⟨-, t, ht, -, rfl, hsz⟩ := hp hp0
      have hround := (roundUp_of_le (show num * size ≤ addrSpace - 16 by omega)).1
      refine ⟨{ h' with mem := fill h'.mem t.payload 0 (num * size) }, t.payload, ss', ?_,
        hinv.write ht ((sameOutside_fill _ _ _ _).mono (Nat.le_refl _) (by omega)), hsteps, hperm⟩
      simp only [calloc, if_neg hover, htotal, hm, ne_eq, hp0, not_false_eq_true, if_true]

theorem realloc_sys {base total ptr size : Nat} {h : Heap} {ss : List Seg} {live : List Nat}
    (hi : Inv base total h ss) (hl : live.Perm (livePayloads ss)) (hptr : ptr = 0 ∨ ptr ∈ live)
    (hsize : size ≤ addrSpace - 16) :
    ∃ h' p ss', realloc h ptr size = some (h', p) ∧ Inv base total h' ss' ∧ SegSteps ss ss' ∧
      (if size ≠ 0 ∧ p = 0 then live else handOut p (live.erase ptr)).Perm
        (livePayloads ss') := by
  have hnotmem : (0 : Nat) ∉ live := fun h0 => live_ne_zero hi hl h0 rfl
  by_cases h0 : ptr = 0
  · subst h0
    obtain ⟨h', p, ss', hm, hinv, hsteps, hperm, -, -⟩ := malloc_sys size hi hl
    refine ⟨h', p, ss', by rw [realloc, if_pos rfl, hm], hinv, hsteps, ?_⟩
    rw [List.erase_of_not_mem hnotmem]
    split
    · next hc => simpa [handOut, hc.2] using hperm
    · exact hperm
  · have hlive : ptr ∈ live := hptr.resolve_left h0
    by_cases hs0 : size = 0
    · obtain ⟨ss', hinv, hsteps, hperm⟩ := free_sys hi hl hlive
      exact ⟨free h ptr, 0, ss', by rw [realloc, if_neg h0, if_pos hs0], hinv, hsteps, by
        simpa [hs0, handOut] using hperm⟩
    · obtain ⟨s, hs, hused, rfl⟩ := mem_livePayloads.mp (hl.mem_iff.mp hlive)
      have hsub := hi.shape.sub64_payload hs
      by_cases hfit : size ≤ blockSize h.mem s.addr
      · refine ⟨h, s.payload, ss, ?_, hi, .refl, ?_⟩
        · simp only [realloc, if_neg h0, if_neg hs0, hsub, if_pos hfit]
        · rw [if_neg (fun hc => h0 hc.2), handOut, if_neg h0]
          exact (List.perm_cons_erase hlive).symm.trans hl
      · obtain ⟨h', np, ss', hm, hinv, hsteps, hperm, hkeep, hp⟩ := malloc_sys size hi hl
        by_cases hnp : np = 0
        · refine ⟨h', np, ss', ?_, hinv, hsteps, ?_⟩
          · simp only [realloc, if_neg h0, if_neg hs0, hsub, if_neg hfit, hm, hnp, ne_eq,
              not_true_eq_false, if_false]
          · rw [if_pos ⟨hs0, hnp⟩]
            simpa [handOut, hnp] using hperm
        · obtain ⟨hnew, t, ht, -, rfl, htsz⟩ := hp hnp
          obtain ⟨hs', -⟩ := mem_inUse.mp (hkeep s (mem_inUse.mpr ⟨hs, hused⟩))
          have hround := (roundUp_of_le hsize).1
          have hsz : blockSize h'.mem s.addr = s.size := (hinv.holds.fields s hs').1
          have hold : blockSize h.mem s.addr = s.size := (hi.holds.fields s hs).1
          have hcopy := hinv.write ht ((sameOutside_copy h'.mem t.payload s.payload s.size).mono
            (Nat.le_refl _) (by omega))
          rw [handOut, if_neg hnp] at hperm
          obtain ⟨ss'', hinv', hsteps', hperm'⟩ :=
            free_sys hcopy hperm (show s.payload ∈ _ by simp [hlive])
          refine ⟨_, t.payload, ss'', ?_, hinv', hsteps.trans hsteps', ?_⟩
          · simp only [realloc, if_neg h0, if_neg hs0, hsub, if_neg hfit, hm, ne_eq, hnp,
              not_false_eq_true, if_true, hsz]
          · rw [if_neg (fun hc => hnp hc.2), handOut, if_neg hnp]
            have hne : t.payload ≠ s.payload := fun he => hnew (he ▸ hlive)
            rwa [List.erase_cons_tail (by simpa using hne)] at hperm'

/-- The calls of a correct client return, keep the invariant, and request and release segments. -/
theorem exec_segs {base total : Nat} {s : Sys} {c : Call} {ss : List Seg}
    (hi : Inv base total s.heap ss) (hl : s.live.Perm (livePayloads ss)) (hc : c.Ok s) :
    ∃ t ss', exec s c = some t ∧ Inv base total t.heap ss' ∧ t.live.Perm (livePayloads ss') ∧
      SegSteps ss ss' := by
  cases c with
  | malloc size =>
    obtain ⟨h', p, ss', hm, hinv, hsteps, hperm, -, -⟩ := malloc_sys size hi hl
    exact ⟨_, ss', by rw [exec, hm]; rfl, hinv, hperm, hsteps⟩
  | calloc num size =>
    obtain ⟨h', p, ss', hm, hinv, hsteps, hperm⟩ := calloc_sys hi hl hc.1 hc.2.2
    exact ⟨_, ss', by rw [exec, hm]; rfl, hinv, hperm, hsteps⟩
  | realloc ptr size =>
    obtain ⟨h', p, ss', hm, hinv, hsteps, hperm⟩ := realloc_sys hi hl hc.1 hc.2
    exact ⟨_, ss', by rw [exec, hm]; rfl, hinv, hperm, hsteps⟩
  | free ptr =>
    rcases hc with rfl | hmem
    · have h0 : (0 : Nat) ∉ s.live := fun h0 => live_ne_zero hi hl h0 rfl
      refine ⟨_, ss, rfl, ?_, ?_, .refl⟩
      · rw [free, if_pos rfl]; exact hi
      · rw [List.erase_of_not_mem h0]; exact hl
    · obtain ⟨ss', hinv, hsteps, hperm⟩ := free_sys hi hl hmem
      exact ⟨_, ss', rfl, hinv, hperm, hsteps⟩
  | store ptr off v =>
    obtain ⟨hmem, hoff⟩ := hc
    obtain ⟨b, hb, -, rfl⟩ := mem_livePayloads.mp (hl.mem_iff.mp hmem)
    have hsub : b.payload - hdrSize = b.addr := by simp only [Seg.payload]; omega
    rw [hsub, (hi.holds.fields b hb).1] at hoff
    exact ⟨_, ss, rfl, hi.write hb ((sameOutside_store8 _ _ _).mono (by omega) (by omega)), hl, .refl⟩

theorem exec_sysInv {base total : Nat} {s : Sys} {c : Call} (hs : SysInv base total s)
    (hc : c.Ok s) : ∃ t, exec s c = some t ∧ SysInv base total t := by
  obtain ⟨ss, hi, hl⟩ := hs
  obtain ⟨t, ss', ht, hinv, hperm, -⟩ := exec_segs hi hl hc
  exact ⟨t, ht, ss', hinv, hperm⟩

theorem reachable_sysInv {base total : Nat} {s : Sys} (h : Reachable base total s) :
    SysInv base total s := by
  refine h.invariant (fun s => sysInv_start) fun s t hs hst => ?_
  obtain ⟨c, hc, hexec⟩ := hst
  obtain ⟨t', hexec', ht'⟩ := exec_sysInv hs hc
  rw [hexec] at hexec'
  cases hexec'
  exact ht'

end ChocoOs.Heap
