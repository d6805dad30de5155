import ChocoOs.Heap.Run

/-!
# What clients of the heap may rely on

The invariant of a run, stated on memory alone: what a walk along `next` meets, and where the
ranges that `malloc` hands out may lie.
-/

namespace ChocoOs.Heap
open ProgLib

/-- The blocks that `next` leads through from `heap_head`, if it ever leads to null. -/
def blocks (h : Heap) : Option (List Nat) := walk (blockNext h.mem) 0 addrSpace h.heapHead

/-- The blocks among `bs` that are not free. -/
def usedBlocks (m : Mem) (bs : List Nat) : List Nat := bs.filter fun b => !blockFree m b

/-- The state of a run over `[base, base + total)` is well formed, with blocks `bs`. -/
structure WellFormed (base total : Nat) (s : Sys) (bs : List Nat) : Prop where
  /-- the walk along `next` ends at null, having met `bs` -/
  walk_eq : blocks s.heap = some bs
  tiles : Tiles id (fun b => hdrSize + blockSize s.heap.mem b) base bs (base + total)
  prev_head : blockPrev s.heap.mem s.heap.heapHead = 0
  prev_inverse : ∀ b ∈ bs, ∀ c ∈ bs,
    blockNext s.heap.mem b = c ↔ blockPrev s.heap.mem c = b
  size_aligned : ∀ b ∈ bs, blockSize s.heap.mem b % 16 = 0
  payload_aligned : ∀ b ∈ bs, (b + hdrSize) % 16 = 0
  live_nodup : s.live.Nodup
  live_eq : s.live.Perm ((usedBlocks s.heap.mem bs).map (· + hdrSize))
  used_eq : s.heap.usedSize =
    ((usedBlocks s.heap.mem bs).map fun b => blockSize s.heap.mem b + hdrSize).sum

theorem Inv.blocks_eq {base total : Nat} {h : Heap} {ss : List Seg} (hi : Inv base total h ss) :
    blocks h = some (ss.map Seg.addr) := by
  have hne : ∀ x ∈ ss.map Seg.addr, x ≠ 0 := by
    intro x hx
    obtain ⟨s, hs, rfl⟩ := List.mem_map.mp hx
    have := hi.shape.addr_pos s hs
    omega
  rw [blocks, hi.head_eq]
  exact hi.holds.links.linked.walk_eq hne (by simpa using hi.shape.length_lt)

theorem Holds.usedBlocks_eq {m : Mem} {ss : List Seg} (h : Holds m ss) :
    usedBlocks m (ss.map Seg.addr) = (inUse ss).map Seg.addr := by
  rw [usedBlocks, List.filter_map, inUse]
  congr 1
  refine List.filter_congr fun s hs => ?_
  simp only [Function.comp_apply, (h.fields s hs).2]

theorem SysInv.wellFormed {base total : Nat} {s : Sys} (h : SysInv base total s) :
    ∃ bs, WellFormed base total s bs := by
  obtain ⟨ss, hi, hl⟩ := h
  have hpos : (0 : Nat) ∉ ss.map Seg.addr := by
    intro h0
    obtain ⟨t, ht, heq⟩ := List.mem_map.mp h0
    have := hi.shape.addr_pos t ht
    omega
  refine ⟨ss.map Seg.addr, hi.blocks_eq, ?_, ?_, ?_, ?_, ?_, ?_, ?_, ?_⟩
  · have ht : Tiles Seg.addr (fun t => hdrSize + blockSize s.heap.mem t.addr) base ss
        (base + total) := hi.shape.tiles.congr (fun _ _ => rfl) fun t ht => by
      rw [(hi.holds.fields t ht).1]; rfl
    exact tiles_map.mpr ht
  · rw [hi.head_eq]
    have hl := hi.holds.links
    cases ss with
    | nil => exact absurd rfl hi.shape.ne_nil
    | cons t ss => exact hl.1
  · exact fun b hb c hc => hi.holds.links.next_eq_iff hpos hpos hb hc
  · intro b hb
    obtain ⟨t, ht, rfl⟩ := List.mem_map.mp hb
    rw [(hi.holds.fields t ht).1]
    exact hi.shape.sizes t ht
  · intro b hb
    obtain ⟨t, ht, rfl⟩ := List.mem_map.mp hb
    have := hi.shape.addr_aligned t ht
    simp only [hdrSize]
    omega
  · exact hl.nodup_iff.mpr hi.shape.nodup_livePayloads
  · rw [hi.holds.usedBlocks_eq, List.map_map]
    exact hl
  · rw [hi.used, hi.holds.usedBlocks_eq, List.map_map, usedBytes]
    congr 1
    refine List.map_congr_left fun t ht => ?_
    simp only [Function.comp_apply, Seg.extent, (hi.holds.fields t (mem_inUse.mp ht).1).1]
    omega

/-- Every state that a run of correct calls reaches is well formed, and the next correct call
    returns. -/
theorem reachable_heap_wellFormed {base total : Nat} {s : Sys} (h : Reachable base total s) :
    (∃ bs, WellFormed base total s bs) ∧ ∀ c : Call, c.Ok s → (exec s c).isSome := by
  have hinv := reachable_sysInv h
  refine ⟨hinv.wellFormed, fun c hc => ?_⟩
  obtain ⟨t, ht, -⟩ := exec_sysInv hinv hc
  rw [ht]
  rfl

/-- A call that a run can make leads to a state that the run reaches. -/
theorem Reachable.get {base total : Nat} {s : Sys} {c : Call} (h : Reachable base total s)
    (hc : c.Ok s) (hs : (exec s c).isSome) : Reachable base total ((exec s c).get hs) :=
  .step h ⟨c, hc, (Option.some_get hs).symm⟩

/-- A machine with 768 MiB of free memory at 16 MiB and its direct map. -/
def bootSys : Sys :=
  ⟨heapInit ⟨fun _ => 0, 0, 0, 0⟩ (fun n => if n ≤ 196608 then 0x1000000 else 0)
    0xffff800000000000, []⟩

theorem start_bootSys : Start 0xffff800001000000 805306368 bootSys := by
  refine ⟨_, _, _, ⟨?_, by decide, ?_⟩, rfl, by decide +kernel, by decide, by decide +kernel⟩
  · intro n
    split <;> rfl
  · intro n hn
    have hle : n ≤ 196608 := by by_contra hgt; simp [hgt] at hn
    simp only [if_pos hle, pageSize, addrSpace_eq]
    omega

/-- Two requests, then the release of the first block. -/
theorem reachable_heap_wellFormed_boot : ∃ s : Sys, s.live = [0xffff8000010000b0] ∧
    (∃ bs, WellFormed 0xffff800001000000 805306368 s bs) ∧
    ∀ c : Call, c.Ok s → (exec s c).isSome := by
  have h₁ := Reachable.get (c := .malloc 100) (.init start_bootSys)
    (by rw [Call.Ok, addrSpace_eq]; decide) (by decide +kernel)
  have h₂ := h₁.get (c := .malloc 24) (by rw [Call.Ok, addrSpace_eq]; decide) (by decide +kernel)
  have h₃ := h₂.get (c := .free 0xffff800001000020)
    (by rw [Call.Ok]; exact .inr (by decide +kernel)) (by decide +kernel)
  exact ⟨_, by decide +kernel, reachable_heap_wellFormed h₃⟩

/-! ## Where `malloc` allocates -/

/-- The `len` bytes at `p` and the `len'` bytes at `q` have no byte in common. -/
def RangesApart (p len q len' : Nat) : Prop := p + len ≤ q ∨ q + len' ≤ p

/-- What a caller of `malloc` relies on. In the heap `h'` left by a request for `size` bytes
    made in `s`, the range at `p` lies in the payload of one block, and meets neither a header
    nor a payload that was live before. -/
structure Granted (s : Sys) (h' : Heap) (size p : Nat) : Prop where
  size_pos : 0 < size
  inside : ∃ bs, blocks h' = some bs ∧
    (∃ b ∈ bs, b + hdrSize ≤ p ∧ p + size ≤ b + hdrSize + blockSize h'.mem b) ∧
    ∀ b ∈ bs, RangesApart p size b hdrSize
  apart : ∀ q ∈ s.live, RangesApart p size q (blockSize s.heap.mem (q - hdrSize))

/-- The range of a request that does not wrap is granted. -/
theorem malloc_granted {base total size p : Nat} {s : Sys} {h' : Heap}
    (hs : SysInv base total s) (hsize : size ≤ addrSpace - 16)
    (hm : malloc s.heap size = some (h', p)) (hp : p ≠ 0) : Granted s h' size p := by
  have hh : hdrSize = 32 := rfl
  have hsize0 : size ≠ 0 := by
    rintro rfl
    rw [malloc, if_pos (.inl rfl)] at hm
    cases hm
    exact hp rfl
  obtain ⟨ss, hi, hl⟩ := hs
  rcases malloc_spec hi hsize0 with
    ⟨-, hm'⟩ | ⟨h'', pre, t, post, rfl, hfree, hle, -, hm', hinv⟩
  · rw [hm] at hm'
    cases hm'
    exact absurd rfl hp
  · rw [hm] at hm'
    cases hm'
    have hround := (roundUp_of_le hsize).1
    obtain ⟨n, hn, hbounds⟩ := inUse_takeSeg (roundUp size) t
    obtain ⟨hrn, hnt⟩ := hbounds hle
    -- the taken segment among the segments after the call
    have hmem : (⟨t.addr, n, false⟩ : Seg) ∈ pre ++ takeSeg (roundUp size) t ++ post := by
      have : (⟨t.addr, n, false⟩ : Seg) ∈ inUse (takeSeg (roundUp size) t) := by simp [hn]
      have := (mem_inUse.mp this).1
      simp only [List.mem_append]
      tauto
    have hpay : t.payload = t.addr + hdrSize := rfl
    refine ⟨by omega, ⟨_, hinv.blocks_eq, ?_, ?_⟩, ?_⟩
    · refine ⟨t.addr, List.mem_map.mpr ⟨_, hmem, rfl⟩, Nat.le_refl _, ?_⟩
      rw [(hinv.holds.fields _ hmem).1, hpay]
      simp only
      omega
    · intro b hb
      obtain ⟨u, hu, rfl⟩ := List.mem_map.mp hb
      obtain ⟨l, r, hsplit⟩ := List.append_of_mem hmem
      rw [hsplit] at hu hinv
      obtain ⟨-, -, hbefore, hbehind⟩ := hinv.shape.around
      simp only [List.mem_append, List.mem_cons] at hu
      simp only at hbefore hbehind
      rw [RangesApart, hpay]
      rcases hu with hu | rfl | hu
      · have := hbefore u hu; omega
      · simp only; omega
      · have := hbehind u hu; omega
    · intro q hq
      obtain ⟨u, hu, hused, rfl⟩ := mem_livePayloads.mp (hl.mem_iff.mp hq)
      have hsub : u.payload - hdrSize = u.addr := by simp only [Seg.payload]; omega
      have hupay : u.payload = u.addr + hdrSize := rfl
      obtain ⟨-, -, hbefore, hbehind⟩ := hi.shape.around
      rw [RangesApart, hsub, (hi.holds.fields u hu).1, hpay, hupay]
      simp only [List.mem_append, List.mem_cons] at hu
      rcases hu with hu | rfl | hu
      · have := hbefore u hu; omega
      · rw [hfree] at hused; cases hused
      · have := hbehind u hu; omega

/-- A request within 15 bytes of `2 ^ 64` is rounded to no bytes at all and answered with the
    first free block, which cannot be that long. -/
theorem malloc_wraps {base total : Nat} {s : Sys} {b : Nat} {bs : List Nat} (size : Nat)
    (hs : SysInv base total s) (hsize : addrSpace - 16 < size) (hlt : size < addrSpace)
    (hwalk : blocks s.heap = some bs) (hb : b ∈ bs) (hfree : blockFree s.heap.mem b = true) :
    ∃ h' p, malloc s.heap size = some (h', p) ∧ p ≠ 0 ∧ ¬ Granted s h' size p := by
  obtain ⟨ss, hi, -⟩ := hs
  have hround := roundUp_of_gt hsize hlt
  rw [hi.blocks_eq] at hwalk
  cases hwalk
  obtain ⟨u, hu, rfl⟩ := List.mem_map.mp hb
  rcases malloc_spec hi (show size ≠ 0 by omega) with
    ⟨hnone, -⟩ | ⟨h', pre, t, post, rfl, -, -, -, hm, hinv⟩
  · rw [hround, allocSeg_none] at hnone
    have := hnone u hu ((hi.holds.fields u hu).2 ▸ hfree)
    omega
  · have hp := Shape.payload_ne_zero t (by simp) hi.shape
    refine ⟨h', t.payload, hm, hp, fun hg => ?_⟩
    obtain ⟨bs, hbs, ⟨c, hc, -, hend⟩, -⟩ := hg.inside
    rw [hinv.blocks_eq] at hbs
    cases hbs
    obtain ⟨v, hv, rfl⟩ := List.mem_map.mp hc
    rw [(hinv.holds.fields v hv).1] at hend
    have hbound := hinv.shape.tiles.mem_bounds v hv
    have hfits := hinv.shape.fits
    have hh : hdrSize = 32 := rfl
    simp only [Seg.extent, Seg.payload] at hbound hend
    omega

/-- `malloc` is sound for a request exactly when the rounding of the request does not wrap, or
    there is no free block to answer it with. -/
theorem malloc_granted_iff {base total size : Nat} {s : Sys} (h : Reachable base total s)
    (hsize : size < addrSpace) :
    (∀ h' p, malloc s.heap size = some (h', p) → p ≠ 0 → Granted s h' size p) ↔
      (size ≤ addrSpace - 16 ∨
        ∀ bs, blocks s.heap = some bs → ∀ b ∈ bs, blockFree s.heap.mem b = false) := by
  have hs := reachable_sysInv h
  constructor
  · intro hall
    by_contra hcon
    simp only [not_or, not_forall, Nat.not_le] at hcon
    obtain ⟨hbig, bs, hwalk, b, hb, hfree⟩ := hcon
    obtain ⟨h', p, hm, hp, hnot⟩ :=
      malloc_wraps size hs hbig hsize hwalk hb (by simpa using hfree)
    exact hnot (hall h' p hm hp)
  · rintro (hle | hnofree) h' p hm hp
    · exact malloc_granted hs hle hm hp
    · exfalso
      obtain ⟨ss, hi, -⟩ := hs
      have hsize0 : size ≠ 0 := by
        rintro rfl
        rw [malloc, if_pos (.inl rfl)] at hm
        cases hm
        exact hp rfl
      rcases malloc_spec hi hsize0 with ⟨-, hm'⟩ | ⟨_, pre, t, post, rfl, hfree, -⟩
      · rw [hm] at hm'
        cases hm'
        exact hp rfl
      · have := hnofree _ hi.blocks_eq t.addr (List.mem_map.mpr ⟨t, by simp, rfl⟩)
        rw [(hi.holds.fields t (by simp)).2, hfree] at this
        cases this

theorem malloc_granted_iff_boot :
    (∀ h' p, malloc bootSys.heap 100 = some (h', p) → p ≠ 0 → Granted bootSys h' 100 p) ↔
      (100 ≤ addrSpace - 16 ∨ ∀ bs, blocks bootSys.heap = some bs →
        ∀ b ∈ bs, blockFree bootSys.heap.mem b = false) :=
  malloc_granted_iff (.init start_bootSys) (by rw [addrSpace_eq]; decide)

/-- On a fresh heap `malloc(SIZE_MAX)` hands out a block without any payload. -/
theorem malloc_not_granted : ¬ ∀ (base total size : Nat) (s : Sys), Reachable base total s →
    size < addrSpace → ∀ h' p, malloc s.heap size = some (h', p) → p ≠ 0 →
    Granted s h' size p := by
  intro hall
  obtain ⟨h', p, hm, hp, hnot⟩ := malloc_wraps (addrSpace - 1)
    (sysInv_start start_bootSys) (by rw [addrSpace_eq]; decide) (by rw [addrSpace_eq]; decide)
    (b := 0xffff800001000000)
    (show blocks bootSys.heap = some [0xffff800001000000] by decide +kernel) (by simp) (by decide +kernel)
  exact hnot (hall _ _ _ _ (.init start_bootSys) (by rw [addrSpace_eq]; decide) h' p hm hp)

end ChocoOs.Heap
