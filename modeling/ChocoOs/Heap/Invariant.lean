import ChocoOs.Heap.Refine

/-!
# The heap invariant and the calls

`Inv base total h ss` ties the whole heap state to a segment list. Each call has one
specification lemma that says which segment list it leads to.
-/

namespace ChocoOs.Heap
open ProgLib

/-- The heap state `h` over `[base, base + total)` holds the segments `ss`. -/
structure Inv (base total : Nat) (h : Heap) (ss : List Seg) : Prop where
  holds : Holds h.mem ss
  shape : Shape base total ss
  head : h.heapHead = base
  total : h.totalSize = total
  used : h.usedSize = usedBytes ss

/-- A call changes memory and the count of used bytes only. -/
theorem Inv.update {base total used : Nat} {h : Heap} {m : Mem} {ss ss' : List Seg}
    (hi : Inv base total h ss) (hholds : Holds m ss') (hshape : Shape base total ss')
    (hused : used = usedBytes ss') :
    Inv base total { h with mem := m, usedSize := used } ss' :=
  ⟨hholds, hshape, hi.head, hi.total, hused⟩

/-! ## Rounding -/

theorem roundUp_mod (size : Nat) : roundUp size % 16 = 0 := by
  simp only [roundUp, alignment]
  omega

theorem roundUp_of_le {size : Nat} (h : size ≤ addrSpace - 16) :
    size ≤ roundUp size ∧ roundUp size < size + 16 := by
  have hs := addrSpace_eq
  rw [roundUp, add64_of_lt (by simp only [alignment]; omega)]
  simp only [alignment]
  omega

/-- Requests within 15 bytes of `2 ^ 64` are rounded to 0. -/
theorem roundUp_of_gt {size : Nat} (h : addrSpace - 16 < size) (hlt : size < addrSpace) :
    roundUp size = 0 := by
  simp only [roundUp, alignment, add64, addrSpace_eq] at h hlt ⊢
  omega

/-! ## The list and the segment list -/

theorem Inv.head_eq {base total : Nat} {h : Heap} {ss : List Seg} (hi : Inv base total h ss) :
    h.heapHead = (ss.map Seg.addr).headD 0 := by
  cases ss with
  | nil => exact absurd rfl hi.shape.ne_nil
  | cons s ss => simpa using hi.head.trans hi.shape.tiles.1.symm

theorem Inv.head_ne {base total : Nat} {h : Heap} {ss : List Seg} (hi : Inv base total h ss) :
    h.heapHead ≠ 0 := by
  have := hi.shape.base_pos
  rw [hi.head]
  omega

/-- The blocks first fit accepts. -/
def fitsIn (size : Nat) (s : Seg) : Bool := s.free && size ≤ s.size

/-- The search of `malloc` stops at the first segment that fits. -/
theorem loop_mallocRound {h : Heap} {ss : List Seg} {fuel : Nat} (size : Nat) (hh : Holds h.mem ss)
    (hpos : ∀ s ∈ ss, 0 < s.addr) (hfuel : ss.length < fuel) :
    loop (mallocRound h size) fuel ((ss.map Seg.addr).headD 0) =
      some (((ss.find? (fitsIn size)).map fun s => takeBlock h size s.addr).getD (h, 0)) := by
  refine hh.links.linked.loop_find _ _ _ _ (by simp [mallocRound]) (fun s hs => ?_) hfuel
  have hs0 : s.addr ≠ 0 := by have := hpos s hs; omega
  obtain ⟨hsz, hfr⟩ := hh.fields s hs
  rw [mallocRound, if_neg hs0, hsz, hfr]
  by_cases hfit : s.free = true ∧ size ≤ s.size
  · have hlt : ¬ s.size < size := by omega
    simp [fitsIn, hfit.1, hfit.2, hlt]
  · rw [if_pos, if_neg (by simpa [fitsIn] using hfit)]
    rw [not_and, Nat.not_le] at hfit
    cases hf : s.free with
    | false => rfl
    | true => simpa using hfit hf

/-- The test of `malloc` for a split (`heap.c:93`): its sum wraps only for a size that no segment of
    the region can have. -/
theorem split_iff {base total size : Nat} {h : Heap} {pre post : List Seg} {s : Seg}
    (hi : Inv base total h (pre ++ s :: post)) (hsize : size ≤ s.size) (hmod : size % 16 = 0) :
    add64 (add64 size hdrSize) alignment ≤ blockSize h.mem s.addr ↔
      size + hdrSize + alignment ≤ s.size := by
  have hh : hdrSize = 32 := rfl
  have ha : alignment = 16 := rfl
  obtain ⟨-, hend, -, -⟩ := hi.shape.around
  have hfits := hi.shape.fits
  have hb := hi.shape.base_pos
  have hlo := (hi.shape.tiles.mem_bounds s (by simp)).1
  rw [(hi.holds.fields s (by simp)).1]
  have haligned := hi.shape.addr_aligned s (by simp)
  have has := addrSpace_eq
  by_cases hwrap : size + hdrSize + alignment < addrSpace
  · rw [add64_of_lt (a := size) (by omega), add64_of_lt hwrap]
  · omega

/-- Taking a block that fits is `takeSeg` on its segment. -/
theorem takeBlock_spec {base total size : Nat} {h : Heap} {pre post : List Seg} {s : Seg}
    (hi : Inv base total h (pre ++ s :: post)) (hfree : s.free = true)
    (hsize : size ≤ s.size) (hmod : size % 16 = 0) :
    Inv base total (takeBlock h size s.addr).1 (pre ++ takeSeg size s ++ post) ∧
      (takeBlock h size s.addr).2 = s.payload := by
  have hh : hdrSize = 32 := rfl
  have ha : alignment = 16 := rfl
  obtain ⟨-, hend, -, -⟩ := hi.shape.around
  have hfits := hi.shape.fits
  have haddr : add64 s.addr hdrSize = s.payload := add64_of_lt (by omega)
  have hcmp := split_iff hi hsize hmod
  have hshape := hi.shape.takeSeg size hmod
  -- the payload size that the taken block ends up with
  have hcore : ∃ m n, takeBlock h size s.addr =
      ({ h with mem := m, usedSize := add64 h.usedSize (add64 n hdrSize) }, s.payload) ∧
      Holds m (pre ++ takeSeg size s ++ post) ∧ inUse (takeSeg size s) = [⟨s.addr, n, false⟩] ∧
      n ≤ s.size := by
    by_cases hfit : size + hdrSize + alignment ≤ s.size
    · have hsplit := holds_splitBlock hi.holds hi.shape hfit
      have hsh : Shape base total (pre ++ ⟨s.addr, size, s.free⟩ ::
          ⟨s.addr + hdrSize + size, s.size - size - hdrSize, true⟩ :: post) := by
        have := hshape
        rw [takeSeg, if_pos hfit, List.append_assoc] at this
        have h2 := Shape.setFree (s := ⟨s.addr, size, false⟩) s.free this
        simpa using h2
      have hset := holds_setFree (v := false) hsplit hsh
      refine ⟨setFree (splitBlock h.mem s.addr size) s.addr false, size, ?_, ?_, ?_, hsize⟩
      · have hb : blockSize (setFree (splitBlock h.mem s.addr size) s.addr false) s.addr =
            size := (hset.fields ⟨s.addr, size, false⟩ (by simp)).1
        simp only [takeBlock, if_pos (hcmp.mpr hfit), hb, haddr]
      · simpa [takeSeg, if_pos hfit] using hset
      · simp [takeSeg, if_pos hfit]
    · have hset := holds_setFree (v := false) hi.holds hi.shape
      refine ⟨setFree h.mem s.addr false, s.size, ?_, ?_, ?_, Nat.le_refl _⟩
      · have hb : blockSize (setFree h.mem s.addr false) s.addr = s.size :=
          (hset.fields { s with free := false } (by simp)).1
        simp only [takeBlock, if_neg (fun hc => hfit (hcmp.mp hc)), hb, haddr]
      · simpa [takeSeg, if_neg hfit] using hset
      · simp [takeSeg, if_neg hfit]
  obtain ⟨m, n, heq, hholds, hinuse, hn⟩ := hcore
  rw [heq]
  refine ⟨hi.update hholds hshape ?_, rfl⟩
  have hused : usedBytes (pre ++ takeSeg size s ++ post) =
      usedBytes (pre ++ s :: post) + (hdrSize + n) := by
    simp only [usedBytes, inUse_append, hinuse, inUse_cons_free post hfree, List.map_append,
      List.sum_append, List.map_cons, List.map_nil, List.sum_cons, List.sum_nil, Seg.extent]
    omega
  have hle := usedBytes_le hshape.tiles
  have hb := hi.shape.base_pos
  rw [hi.used, add64_of_lt (a := n) (by omega), add64_of_lt (by omega), hused]
  omega

/-! ## One specification per call -/

/-- `malloc` is first fit on the segments. In particular it returns. -/
theorem malloc_spec {base total size : Nat} {h : Heap} {ss : List Seg}
    (hi : Inv base total h ss) (hsize : size ≠ 0) :
    (allocSeg (roundUp size) ss = none ∧ malloc h size = some (h, 0)) ∨
    ∃ h' pre s post, ss = pre ++ s :: post ∧ s.free = true ∧ roundUp size ≤ s.size ∧
      allocSeg (roundUp size) ss =
        some (pre ++ takeSeg (roundUp size) s ++ post, s.payload) ∧
      malloc h size = some (h', s.payload) ∧
      Inv base total h' (pre ++ takeSeg (roundUp size) s ++ post) := by
  have hloop := loop_mallocRound (roundUp size) hi.holds hi.shape.addr_pos
    hi.shape.length_lt
  have hmalloc : malloc h size = loop (mallocRound h (roundUp size)) addrSpace
      ((ss.map Seg.addr).headD 0) := by
    rw [malloc, if_neg (by simp [hsize, hi.head_ne]), hi.head_eq]
  cases halloc : allocSeg (roundUp size) ss with
  | none =>
    left
    have hfind : ss.find? (fitsIn (roundUp size)) = none := by
      rw [List.find?_eq_none]
      intro s hs
      simp only [fitsIn, Bool.and_eq_true, decide_eq_true_eq, not_and, Nat.not_le]
      exact allocSeg_none.mp halloc s hs
    rw [hfind] at hloop
    exact ⟨rfl, hmalloc.trans hloop⟩
  | some r =>
    right
    obtain ⟨ss', p⟩ := r
    obtain ⟨pre, s, post, rfl, rfl, rfl, hfree, hle, hpre⟩ := allocSeg_some halloc
    have hfind : (pre ++ s :: post).find? (fitsIn (roundUp size)) = some s := by
      rw [List.find?_append, List.find?_eq_none.mpr, Option.none_or,
        List.find?_cons_of_pos (by simp [fitsIn, hfree, hle])]
      intro t ht
      simp only [fitsIn, Bool.and_eq_true, decide_eq_true_eq, not_and, Nat.not_le]
      exact hpre t ht
    rw [hfind] at hloop
    obtain ⟨hinv, hp⟩ := takeBlock_spec hi hfree hle (roundUp_mod size)
    refine ⟨(takeBlock h (roundUp size) s.addr).1, pre, s, post, rfl, hfree, hle, rfl, ?_, hinv⟩
    rw [hmalloc, hloop, ← hp]
    rfl

/-- The list work of `free` on the block at `b` (`heap.c:141-146`). -/
def releaseBlock (m : Mem) (b : Nat) : Mem :=
  let m := coalesceWithNext (setFree m b true) b
  if blockPrev m b ≠ 0 ∧ blockFree m (blockPrev m b) then coalesceWithNext m (blockPrev m b)
  else m

theorem free_eq {h : Heap} {ptr b : Nat} (hp : ptr ≠ 0) (hb : sub64 ptr hdrSize = b)
    (hfree : blockFree h.mem b = false) :
    free h ptr = { h with
      mem := releaseBlock h.mem b
      usedSize := sub64 h.usedSize (add64 (blockSize (setFree h.mem b true) b) hdrSize) } := by
  simp [free, releaseBlock, hp, hb, hfree]

theorem mergeNext_head (s : Seg) (post : List Seg) :
    ∃ s' rest, mergeNext (s :: post) = s' :: rest ∧ s'.addr = s.addr := by
  cases post with
  | nil => exact ⟨_, _, rfl, rfl⟩
  | cons n post =>
    simp only [mergeNext]
    split
    · exact ⟨_, _, rfl, rfl⟩
    · exact ⟨_, _, rfl, rfl⟩

/-- Merging first with the successor and then, if that one is free, with the predecessor is
    `releaseSeg`. -/
theorem releaseBlock_spec {m : Mem} {base total : Nat} {pre post : List Seg} {s : Seg}
    (h : Holds m (pre ++ s :: post)) (hsh : Shape base total (pre ++ s :: post)) :
    Holds (releaseBlock m s.addr) (releaseSeg s.addr (pre ++ s :: post)) ∧
      Shape base total (releaseSeg s.addr (pre ++ s :: post)) := by
  have hh : hdrSize = 32 := rfl
  have hpre := hsh.around.2.2.1
  have hne : ∀ t ∈ pre, t.addr ≠ s.addr := fun t ht => by have := hpre t ht; omega
  have hshape := hsh.setFree true
  have hcoal := holds_coalesce (holds_setFree (v := true) h hsh) hshape
  have hshape := hshape.mergeNext
  -- the block is still listed, perhaps with a larger payload
  obtain ⟨s', rest, hs', haddr⟩ := mergeNext_head { s with free := true } post
  rw [hs'] at hcoal hshape
  simp only at haddr
  simp only [releaseBlock]
  set m₂ := coalesceWithNext (setFree m s.addr true) s.addr
  have hprev : blockPrev m₂ s.addr = (pre.map Seg.addr).getLastD 0 := by
    rw [← haddr, blockPrev_eq, hcoal.header_eq]
  rcases List.eq_nil_or_concat pre with rfl | ⟨pre, q, rfl⟩
  · have hcond : ¬ (blockPrev m₂ s.addr ≠ 0 ∧ blockFree m₂ (blockPrev m₂ s.addr) = true) := by
      rw [hprev]; simp
    rw [List.nil_append, releaseSeg_head, hs']
    rw [if_neg hcond]
    exact ⟨hcoal, hshape⟩
  · rw [List.concat_eq_append] at *
    have hq0 : q.addr ≠ 0 := by have := hsh.addr_pos q (by simp); omega
    have hprevq : blockPrev m₂ s.addr = q.addr := by rw [hprev]; simp
    rw [List.append_assoc, List.singleton_append] at hcoal hshape
    have hrel := releaseSeg_append post hne
    rw [List.append_assoc, List.singleton_append, hrel, hs']
    by_cases hqf : q.free = true
    · have hcond : blockPrev m₂ s.addr ≠ 0 ∧ blockFree m₂ (blockPrev m₂ s.addr) = true := by
        rw [hprevq, (hcoal.fields q (by simp)).2]
        exact ⟨hq0, hqf⟩
      rw [if_pos hcond, hprevq]
      exact ⟨holds_coalesce hcoal hshape, hshape.mergeNext⟩
    · have hcond : ¬ (blockPrev m₂ s.addr ≠ 0 ∧ blockFree m₂ (blockPrev m₂ s.addr) = true) := by
        rw [hprevq, (hcoal.fields q (by simp)).2]
        exact fun hc => hqf hc.2
      have hmerge : mergeNext (q :: s' :: rest) = q :: s' :: rest := by simp [mergeNext, hqf]
      rw [if_neg hcond, hmerge]
      exact ⟨hcoal, hshape⟩

/-- `free` of a payload in use is release on the segments. -/
theorem free_spec {base total : Nat} {h : Heap} {pre post : List Seg} {s : Seg}
    (hi : Inv base total h (pre ++ s :: post)) (hused : s.free = false) :
    Inv base total (free h s.payload) (releaseSeg s.addr (pre ++ s :: post)) := by
  have hh : hdrSize = 32 := rfl
  obtain ⟨hlo, hend, hpre, -⟩ := hi.shape.around
  have hfits := hi.shape.fits
  have hpos := hi.shape.base_pos
  have hne : ∀ t ∈ pre, t.addr ≠ s.addr := fun t ht => by have := hpre t ht; omega
  have hb := hi.shape.sub64_payload (s := s) (by simp)
  have hp0 : s.payload ≠ 0 := by simp only [Seg.payload]; omega
  have hfr : blockFree h.mem s.addr = false := by rw [(hi.holds.fields s (by simp)).2, hused]
  have hsz : blockSize (setFree h.mem s.addr true) s.addr = s.size :=
    ((holds_setFree (v := true) hi.holds hi.shape).fields { s with free := true } (by simp)).1
  obtain ⟨hholds, hshape⟩ := releaseBlock_spec hi.holds hi.shape
  rw [free_eq hp0 hb hfr, hsz]
  refine hi.update hholds hshape ?_
  have hbefore : usedBytes (pre ++ s :: post) =
      usedBytes pre + (hdrSize + s.size + usedBytes post) := by
    simp only [usedBytes, inUse_append, inUse_cons_used post hused, List.map_append,
      List.sum_append, List.map_cons, List.sum_cons, Seg.extent]
  have hafter : usedBytes (releaseSeg s.addr (pre ++ s :: post)) =
      usedBytes pre + usedBytes post := by
    simp only [usedBytes, inUse_releaseSeg hne, List.map_append, List.sum_append]
  have hle := usedBytes_le hi.shape.tiles
  rw [hi.used, add64_of_lt (by omega), sub64_of_le (by omega) (by omega), hafter, hbefore]
  omega

/-- The owner of a live block may write its payload: no header is touched. -/
theorem Inv.write {base total : Nat} {h : Heap} {ss : List Seg} {s : Seg} {m : Mem}
    (hi : Inv base total h ss) (hs : s ∈ ss)
    (hm : SameOutside h.mem m s.payload (s.payload + s.size)) :
    Inv base total { h with mem := m } ss := by
  refine hi.update ?_ hi.shape hi.used
  obtain ⟨pre, post, rfl⟩ := List.append_of_mem hs
  obtain ⟨-, -, hpre, hpost⟩ := hi.shape.around
  refine hi.holds.frame fun t ht x hlo hhi => hm x ?_
  simp only [Seg.payload]
  simp only [List.mem_append, List.mem_cons] at ht
  rcases ht with ht | rfl | ht
  · have := hpre t ht; omega
  · omega
  · have := hpost t ht; omega

end ChocoOs.Heap
