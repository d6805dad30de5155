import ChocoOs.Vfs.Files

/-!
# What a file holds

The bytes of a file, and what a write does to them. Whether a write has the memory it needs is
decided by the heap alone (`growBuffer`); if it has, the file afterwards holds the old bytes
overwritten by the new ones, and no other file changes.
-/

namespace ChocoOs.Vfs
open ProgLib

/-- The bytes of the file at `x`. -/
def contents (s : Fs) (x : Nat) : List UInt8 :=
  (List.range (s.node x).size).map fun i => s.mem ((s.node x).data + i)

/-- The bytes `b` put over those of `l` from `off` on, with zeros where `l` is too short. -/
def overwrite (l : List UInt8) (off : Nat) (b : List UInt8) : List UInt8 :=
  (List.range (max l.length (off + b.length))).map fun i =>
    if off ≤ i ∧ i < off + b.length then b.getD (i - off) 0 else l.getD i 0

/-- The heap side of growing a buffer of `cap` bytes at `data` to `need` bytes: the heap, the
    buffer and its size afterwards, or `none` if the heap refuses. -/
def growBuffer (pick : Pick) (heap : Arena) (data cap need : Nat) : Option (Arena × Nat × Nat) :=
  if need ≤ cap then some (heap, data, cap)
  else (growCap cap need).bind fun newcap =>
    let r := heap.alloc pick newcap
    if r.1 = 0 then none
    else (if data ≠ 0 then r.2.free data else some r.2).map fun heap => (heap, r.1, newcap)

/-- `t` is `s` after `len` bytes of `buf` were written to the file at `off`, its buffer being the
    `cap` bytes at `data` now. -/
structure Written (s t : Fs) (file : Nat) (buf : Nat → UInt8) (off len : Nat) (heap : Arena)
    (data cap : Nat) : Prop where
  node : t.node = Function.update s.node file { s.node file with
    data := data, cap := cap, size := max (s.node file).size (off + len) }
  heap : t.heap = heap
  rootNode : t.rootNode = s.rootNode
  outside : SameOutside s.mem t.mem data (data + cap)
  bytes : ∀ i < max (s.node file).size (off + len), t.mem (data + i) =
    if off ≤ i ∧ i < off + len then buf (i - off)
    else if i < (s.node file).size then s.mem ((s.node file).data + i) else 0

/-! ## Lists of bytes -/

theorem length_contents (s : Fs) (x : Nat) : (contents s x).length = (s.node x).size := by
  simp [contents]

theorem getD_contents {s : Fs} {x i : Nat} (hi : i < (s.node x).size) :
    (contents s x).getD i 0 = s.mem ((s.node x).data + i) := by
  simp [contents, List.getD_eq_getElem?_getD, hi]

theorem length_overwrite (l : List UInt8) (off : Nat) (b : List UInt8) :
    (overwrite l off b).length = max l.length (off + b.length) := by
  simp [overwrite]

/-- Writing at the end appends. -/
theorem overwrite_length (l b : List UInt8) : overwrite l l.length b = l ++ b := by
  refine List.ext_getElem ?_ fun i h₁ h₂ => ?_
  · rw [length_overwrite, List.length_append]
    omega
  · simp only [overwrite, List.getElem_map, List.getElem_range]
    by_cases hi : i < l.length
    · rw [if_neg (by omega), List.getElem_append_left hi, List.getD_eq_getElem?_getD,
        List.getElem?_eq_getElem hi, Option.getD_some]
    · have hb : i - l.length < b.length := by rw [List.length_append] at h₂; omega
      rw [if_pos (by omega), List.getElem_append_right (by omega), List.getD_eq_getElem?_getD,
        List.getElem?_eq_getElem hb, Option.getD_some]

theorem Written.contents_eq {s t : Fs} {file off len data cap : Nat} {buf : Nat → UInt8}
    {heap : Arena} (h : Written s t file buf off len heap data cap) :
    contents t file = overwrite (contents s file) off ((List.range len).map buf) := by
  have hnode : t.node file = { s.node file with
      data := data, cap := cap, size := max (s.node file).size (off + len) } := by
    rw [h.node, Function.update_self]
  refine List.ext_getElem ?_ fun i h₁ h₂ => ?_
  · rw [length_contents, length_overwrite, length_contents, hnode, List.length_map,
      List.length_range]
  · rw [length_contents, hnode] at h₁
    simp only [contents, overwrite, List.getElem_map, List.getElem_range, hnode, List.length_map,
      List.length_range]
    rw [h.bytes i h₁]
    by_cases hin : off ≤ i ∧ i < off + len
    · have hlt : i - off < len := by omega
      rw [if_pos hin, if_pos hin]
      simp [List.getD_eq_getElem?_getD, hlt]
    · rw [if_neg hin, if_neg hin]
      by_cases hs : i < (s.node file).size
      · rw [if_pos hs]
        exact (getD_contents hs).symm
      · have hlen : ((List.range (s.node file).size).map fun i =>
            s.mem ((s.node file).data + i)).length ≤ i := by
          simpa using Nat.le_of_not_lt hs
        rw [if_neg hs, List.getD_eq_getElem?_getD, List.getElem?_eq_none hlen]
        rfl

/-! ## Growing -/

/-- A file that may be written: its buffer, if it has one, is a block of the heap. -/
structure OpenFile (s : Fs) (file : Nat) : Prop where
  ne_zero : file ≠ 0
  notDir : (s.node file).isDir = false
  writable : (s.node file).readonly = false
  heap_ok : s.heap.Ok
  hi_le : s.heap.hi ≤ addrSpace
  room : ((s.node file).data = 0 ∧ (s.node file).size = 0 ∧ (s.node file).cap = 0) ∨
    ((s.node file).data ≠ 0 ∧ ((s.node file).data, (s.node file).cap) ∈ s.heap.live ∧
      (s.node file).size ≤ (s.node file).cap)

theorem FsInv.openFile {s : Fs} {nodes : List Nat} {kids : Nat → List Nat} {file : Nat}
    (h : FsInv s nodes kids) (hx : file ∈ nodes) (hdir : (s.node file).isDir = false)
    (hr : (s.node file).readonly = false) : OpenFile s file := by
  refine ⟨h.ne_zero (List.mem_cons_of_mem _ hx), hdir, hr, h.owns.heap_ok, h.owns.hi_le, ?_⟩
  refine ((h.owns.files file (by simp [hx])).room hr).imp id ?_
  rintro ⟨hd, -, hsize⟩
  exact ⟨hd, h.owns.buffer_mem hx hr hd, hsize⟩

theorem OpenFile.size_le {s : Fs} {file : Nat} (h : OpenFile s file) :
    (s.node file).size ≤ (s.node file).cap := by
  rcases h.room with ⟨-, hsize, -⟩ | ⟨-, -, hsize⟩
  · omega
  · exact hsize

/-- Growing asks the heap for one block and gives back the old one. -/
theorem OpenFile.vfsGrow_eq (pick : Pick) {s : Fs} {file need : Nat} (h : OpenFile s file)
    (hcap : (s.node file).cap < need →
      ∃ c, growCap (s.node file).cap need = some c ∧ need ≤ c ∧ 0 < c) :
    match growBuffer pick s.heap (s.node file).data (s.node file).cap need with
    | none => vfsGrow pick s file need = some (s, false)
    | some (heap, data, cap) => ∃ mem,
        vfsGrow pick s file need = some ({ s with
          node := Function.update s.node file { s.node file with data := data, cap := cap },
          heap := heap, mem := mem }, true) ∧
        SameOutside s.mem mem data (data + cap) ∧ need ≤ cap ∧
        (∀ i < (s.node file).size, mem (data + i) = s.mem ((s.node file).data + i)) ∧
        OpenFile { s with
          node := Function.update s.node file { s.node file with data := data, cap := cap },
          heap := heap, mem := mem } file := by
  by_cases hfit : need ≤ (s.node file).cap
  · rw [growBuffer, if_pos hfit]
    refine ⟨s.mem, ?_, .refl _ _ _, hfit, fun i _ => rfl, ?_⟩
    · rw [vfsGrow, if_pos hfit, Function.update_eq_self]
    · rw [Function.update_eq_self]
      exact h
  obtain ⟨c, hc, hle, hpos⟩ := hcap (Nat.lt_of_not_le hfit)
  have hsize := h.size_le
  simp only [growBuffer, if_neg hfit, hc, Option.bind_some]
  rcases Arena.alloc_cases pick c s.heap with hfail | ⟨nd, hfits, halloc⟩
  · simp [vfsGrow, hfit, hc, Fs.malloc, hfail]
  have hnd : nd ≠ 0 := hfits.1
  simp only [halloc, if_neg hnd]
  set heap₁ : Arena := { s.heap with live := (nd, c) :: s.heap.live } with hheap₁
  have hok₁ : heap₁.Ok := h.heap_ok.alloc hpos hfits
  -- the file with its new buffer
  have hopen : ∀ (heap : Arena) (mem : Mem), heap.Ok → heap.hi = s.heap.hi →
      (nd, c) ∈ heap.live → OpenFile { s with
        node := Function.update s.node file { s.node file with data := nd, cap := c },
        heap := heap, mem := mem } file := by
    intro heap mem hok hhi hlive
    refine ⟨h.ne_zero, ?_, ?_, hok, hhi ▸ h.hi_le, .inr ?_⟩
    · simpa using h.notDir
    · simpa using h.writable
    · simp only [Function.update_self]
      exact ⟨hnd, hlive, by omega⟩
  by_cases hd : (s.node file).data = 0
  · -- the first buffer of the file
    rw [if_neg (by simp [hd]), Option.map_some]
    obtain ⟨-, hzero, -⟩ := h.room.resolve_right fun hz => hz.1 hd
    refine ⟨s.mem, ?_, .refl _ _ _, hle, fun i hi => by omega,
      hopen heap₁ s.mem hok₁ rfl (List.mem_cons_self ..)⟩
    simp [vfsGrow, hfit, hc, Fs.malloc, halloc, hnd, moveData, hd, Fs.setNode, hheap₁]
  · -- the old buffer is copied and freed
    obtain ⟨-, hmem, -⟩ := h.room.resolve_left fun hz => hd hz.1
    have hcovers : heap₁.Covers nd (s.node file).size ∧
        heap₁.Covers (s.node file).data (s.node file).size :=
      ⟨.inr ⟨(nd, c), by simp [hheap₁], Nat.le_refl _, by simp only; omega⟩,
        .inr ⟨_, List.mem_cons_of_mem _ hmem, Nat.le_refl _, by simp only; omega⟩⟩
    have hsplit := ((List.perm_cons_erase hmem).cons (nd, c)).trans (List.Perm.swap _ _ _)
    obtain ⟨heap₂, hfree, hperm, hok₂, -, hhi, -⟩ := hok₁.free hsplit
    have hapart := hfits.2.2.2.2 _ hmem
    rw [if_pos hd, hfree, Option.map_some]
    refine ⟨copy s.mem nd (s.node file).data (s.node file).size, ?_,
      (sameOutside_copy _ _ _ _).mono (Nat.le_refl _) (by omega), hle, fun i hi =>
        copy_apply (by simp only at hapart; omega) hi,
      hopen heap₂ _ hok₂ hhi (hperm.mem_iff.mpr (List.mem_cons_self ..))⟩
    simp [vfsGrow, hfit, hc, Fs.malloc, halloc, hnd, moveData, hd, Fs.memcpy, hcovers, Fs.free,
      hfree, Fs.setNode]

/-- Filling a buffer that has room. -/
theorem OpenFile.vfsFill_eq {s : Fs} {file : Nat} (buf : Nat → UInt8) (off len : Nat)
    (h : OpenFile s file) (hroom : off + len ≤ (s.node file).cap) :
    ∃ t, vfsFill s file buf off len (off + len) = some t ∧
      Written s t file buf off len s.heap (s.node file).data (s.node file).cap := by
  have hcover : ∀ a n, a + n ≤ (s.node file).cap →
      s.heap.Covers ((s.node file).data + a) n := by
    intro a n han
    rcases h.room with ⟨-, -, hcap⟩ | ⟨-, hmem, -⟩
    · exact .inl (by omega)
    · exact .inr ⟨_, hmem, by simp only; omega, by simp only; omega⟩
  have hsize := h.size_le
  -- first the gap becomes zero
  obtain ⟨mem, hzero, hout, hgap⟩ : ∃ mem, zeroGap s (s.node file) off =
      some { s with mem := mem } ∧
      SameOutside s.mem mem ((s.node file).data + (s.node file).size)
        ((s.node file).data + max (s.node file).size off) ∧
      ∀ i, (s.node file).size ≤ i → i < off → mem ((s.node file).data + i) = 0 := by
    unfold zeroGap
    split
    · next hlt =>
      refine ⟨_, if_pos (hcover _ _ (by omega)), ?_, fun i h₁ h₂ => fill_apply (by omega)⟩
      exact (sameOutside_fill _ _ _ _).mono (Nat.le_refl _) (by omega)
    · exact ⟨s.mem, rfl, .refl _ _ _, fun i h₁ h₂ => by omega⟩
  have hcopy : Fs.memcpyFrom ((s.node file).data + off) buf len { s with mem := mem } =
      some { s with mem := put mem ((s.node file).data + off) buf len } :=
    if_pos (hcover _ _ hroom)
  have hput : ∀ x, put mem ((s.node file).data + off) buf len x =
      if (s.node file).data + off ≤ x ∧ x < (s.node file).data + off + len
      then buf (x - ((s.node file).data + off)) else mem x := fun _ => rfl
  have houtside : SameOutside s.mem (put mem ((s.node file).data + off) buf len)
      (s.node file).data ((s.node file).data + (s.node file).cap) := by
    intro x hxout
    rw [hput, if_neg (by omega), hout x (by omega)]
  have hbytes : ∀ i < max (s.node file).size (off + len),
      put mem ((s.node file).data + off) buf len ((s.node file).data + i) =
        if off ≤ i ∧ i < off + len then buf (i - off)
        else if i < (s.node file).size then s.mem ((s.node file).data + i) else 0 := by
    intro i hi
    by_cases hin : off ≤ i ∧ i < off + len
    · rw [hput, if_pos (by omega), if_pos hin]
      congr 1
      omega
    · rw [hput, if_neg (by omega), if_neg hin]
      by_cases hs : i < (s.node file).size
      · rw [if_pos hs, hout _ (by omega)]
      · rw [if_neg hs, hgap i (by omega) (by omega)]
  by_cases hgrow : (s.node file).size < off + len
  · refine ⟨{ s with
        node := Function.update s.node file { s.node file with size := off + len },
        mem := put mem ((s.node file).data + off) buf len },
      ?_, ⟨?_, rfl, rfl, houtside, hbytes⟩⟩
    · simp only [vfsFill, hzero, hcopy, hgrow, if_true, Option.bind_eq_bind, Option.bind_some]
      rfl
    · rw [Nat.max_eq_right (Nat.le_of_lt hgrow)]
  · refine ⟨{ s with mem := put mem ((s.node file).data + off) buf len },
      ?_, ⟨?_, rfl, rfl, houtside, hbytes⟩⟩
    · simp only [vfsFill, hzero, hcopy, hgrow, if_false, Option.bind_eq_bind, Option.bind_some]
      rfl
    · rw [Nat.max_eq_left (Nat.le_of_not_lt hgrow)]
      exact (Function.update_eq_self file s.node).symm

/-! ## Writing -/

/-- `vfs_write` to a writable file: it fails and changes nothing if the heap refuses the larger
    buffer, and otherwise writes all the bytes. -/
theorem OpenFile.vfsWrite_eq (pick : Pick) {s : Fs} {file off len : Nat} (buf : Nat → UInt8)
    (h : OpenFile s file) (hend : off + len < addrSpace)
    (hcap : (s.node file).cap < off + len →
      ∃ c, growCap (s.node file).cap (off + len) = some c ∧ off + len ≤ c ∧ 0 < c) :
    match growBuffer pick s.heap (s.node file).data (s.node file).cap (off + len) with
    | none => vfsWrite pick s file buf off len = some (s, -1)
    | some (heap, data, cap) => ∃ t, vfsWrite pick s file buf off len = some (t, toInt len) ∧
        Written s t file buf off len heap data cap ∧ off + len ≤ cap := by
  have hadd : add64 off len = off + len := add64_of_lt hend
  have hgrow := h.vfsGrow_eq pick hcap
  cases hg : growBuffer pick s.heap (s.node file).data (s.node file).cap (off + len) with
  | none =>
    rw [hg] at hgrow
    simp [vfsWrite, h.ne_zero, h.notDir, h.writable, hadd, hgrow]
  | some r =>
    obtain ⟨heap, data, cap⟩ := r
    rw [hg] at hgrow
    obtain ⟨mem, hgrow, hout, hroom, hold, hopen⟩ := hgrow
    set s₁ : Fs := { s with
      node := Function.update s.node file { s.node file with data := data, cap := cap },
      heap := heap, mem := mem } with hs₁
    have hnode₁ : s₁.node file = { s.node file with data := data, cap := cap } :=
      Function.update_self ..
    obtain ⟨t, hfill, hw⟩ := hopen.vfsFill_eq buf off len (by rw [hnode₁]; exact hroom)
    have heq : vfsWrite pick s file buf off len = some (t, toInt len) := by
      simp [vfsWrite, h.ne_zero, h.notDir, h.writable, hadd, hgrow, hfill]
    rw [hnode₁] at hw
    refine ⟨t, heq, ⟨?_, ?_, ?_, ?_, fun i hi => ?_⟩, hroom⟩
    · rw [hw.node, hnode₁, hs₁, Function.update_idem]
    · rw [hw.heap, hs₁]
    · rw [hw.rootNode, hs₁]
    · exact hout.trans hw.outside
    · have hbyte := hw.bytes i (by rw [hnode₁]; exact hi)
      rw [hnode₁] at hbyte
      rw [hbyte, hs₁]
      by_cases hs : i < (s.node file).size
      · rw [if_pos hs, if_pos hs]
        exact congrArg _ (hold i hs)
      · rw [if_neg hs, if_neg hs]

theorem FsInv.vfsWrite_eq (pick : Pick) {s : Fs} {nodes : List Nat} {kids : Nat → List Nat}
    {file off len : Nat} (buf : Nat → UInt8) (h : FsInv s nodes kids) (hx : file ∈ nodes)
    (hdir : (s.node file).isDir = false) (hr : (s.node file).readonly = false)
    (hend : off + len ≤ 2 ^ 62) :
    match growBuffer pick s.heap (s.node file).data (s.node file).cap (off + len) with
    | none => vfsWrite pick s file buf off len = some (s, -1)
    | some (heap, data, cap) => ∃ t, vfsWrite pick s file buf off len = some (t, toInt len) ∧
        FsInv t nodes kids ∧ Written s t file buf off len heap data cap := by
  have hlt : off + len < addrSpace := by
    have := addrSpace_eq
    omega
  have hwrite := (h.openFile hx hdir hr).vfsWrite_eq pick buf hlt fun hcap => growCap_spec hend hcap
  obtain ⟨t', r, hspec, ht, -⟩ :=
    vfsWrite_spec pick buf h (.inr (List.mem_cons_of_mem _ hx)) hend
  cases hg : growBuffer pick s.heap (s.node file).data (s.node file).cap (off + len) with
  | none =>
    rw [hg] at hwrite
    exact hwrite
  | some p =>
    obtain ⟨heap, data, cap⟩ := p
    rw [hg] at hwrite
    obtain ⟨t, heq, hw, -⟩ := hwrite
    rw [heq] at hspec
    obtain ⟨rfl, -⟩ : t = t' ∧ toInt len = r := by simpa using hspec
    exact ⟨t, heq, ht, hw⟩

/-- The buffers of two files lie apart. -/
theorem Owns.buffers_apart {s : Fs} {nodes : List Nat} (h : Owns s nodes) {x y : Nat}
    (hx : x ∈ nodes) (hy : y ∈ nodes) (hxy : x ≠ y) {b c : Nat × Nat}
    (hb : b ∈ buffer (s.node x)) (hc : c ∈ buffer (s.node y)) :
    b.1 + b.2 ≤ c.1 ∨ c.1 + c.2 ≤ b.1 := by
  have hsymm : ∀ {b c : Nat × Nat}, (b.1 + b.2 ≤ c.1 ∨ c.1 + c.2 ≤ b.1) →
      (c.1 + c.2 ≤ b.1 ∨ b.1 + b.2 ≤ c.1) := Or.symm
  have hpair := ((h.live_split hx).pairwise_iff hsymm).mp h.heap_ok.apart
  refine (List.pairwise_append.mp hpair).2.2 b hb c (List.mem_cons_of_mem _ ?_)
  refine List.mem_flatMap.mpr ⟨y, (List.mem_erase_of_ne (Ne.symm hxy)).mpr hy, ?_⟩
  rw [blocksOf]
  exact List.mem_cons_of_mem _ hc

/-- A write leaves every other writable file alone. -/
theorem Written.contents_of_ne {s t : Fs} {nodes : List Nat} {kids : Nat → List Nat}
    {file off len data cap y : Nat} {buf : Nat → UInt8} {heap : Arena}
    (h : Written s t file buf off len heap data cap) (ht : FsInv t nodes kids)
    (hx : file ∈ nodes) (hr : (s.node file).readonly = false) (hy : y ∈ nodes) (hyx : y ≠ file)
    (hry : (s.node y).readonly = false) : contents t y = contents s y := by
  have hnode : t.node y = s.node y := by rw [h.node, Function.update_of_ne hyx]
  have hfile : t.node file = { s.node file with
      data := data, cap := cap, size := max (s.node file).size (off + len) } := by
    rw [h.node, Function.update_self]
  unfold contents
  rw [hnode]
  refine List.map_congr_left fun i hi => ?_
  have hi := List.mem_range.mp hi
  rw [← hnode] at hi hry ⊢
  have hroom := ((ht.owns.files y (by simp [hy])).room hry).resolve_left fun hz => by omega
  have hyb : ((t.node y).data, (t.node y).cap) ∈ buffer (t.node y) := by
    rw [buffer_of_data hry hroom.1]
    simp
  refine h.outside _ ?_
  by_cases hd : data = 0
  · -- no buffer: nothing was written
    have hcap := (ht.owns.files file (by simp [hx])).room (by rw [hfile]; exact hr)
    rw [hfile] at hcap
    simp only [hd] at hcap
    omega
  · have hxb : (data, cap) ∈ buffer (t.node file) := by
      rw [hfile, buffer, if_pos ⟨hr, hd⟩]
      simp
    have := ht.owns.buffers_apart hx hy (Ne.symm hyx) hxb hyb
    simp only at this
    omega

/-- Cutting a file to nothing. -/
theorem FsInv.vfsTruncate_zero (pick : Pick) {s : Fs} {nodes : List Nat}
    {kids : Nat → List Nat} {file : Nat} (h : FsInv s nodes kids) (hx : file ∈ nodes)
    (hdir : (s.node file).isDir = false) (hr : (s.node file).readonly = false) :
    ∃ t, vfsTruncate pick s file 0 = some (t, 0) ∧ FsInv t nodes kids ∧
      t = { s with node := Function.update s.node file { s.node file with size := 0 } } := by
  have h0 : file ≠ 0 := h.ne_zero (List.mem_cons_of_mem _ hx)
  have heq : vfsTruncate pick s file 0 =
      some ({ s with node := Function.update s.node file { s.node file with size := 0 } }, 0) := by
    simp [vfsTruncate, h0, hdir, hr, Fs.setNode]
  obtain ⟨t, r, ht, hinv, -⟩ :=
    vfsTruncate_spec pick h (.inr (List.mem_cons_of_mem _ hx)) (Nat.zero_le _)
  rw [heq] at ht
  simp only [Option.some.injEq, Prod.mk.injEq] at ht
  obtain ⟨rfl, rfl⟩ := ht
  exact ⟨_, heq, hinv, rfl⟩

end ChocoOs.Vfs
