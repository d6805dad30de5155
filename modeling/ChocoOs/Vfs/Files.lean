import ChocoOs.Vfs.Invariant

/-!
# Writing and truncating

File data live in one heap block of `cap` bytes. Growing moves them to a larger block and frees
the old one, and the writes stay in the block.
-/

namespace ChocoOs.Vfs
open ProgLib

/-- The doubling ends at a capacity that is large enough. -/
theorem growCap_spec {cap need : Nat} (hneed : need ≤ 2 ^ 62) (hcap : cap < need) :
    ∃ c, growCap cap need = some c ∧ need ≤ c ∧ 0 < c := by
  have has := addrSpace_eq
  refine loop_total _ (fun c => 0 < c ∧ c < 2 ^ 63) (fun c => need ≤ c ∧ 0 < c) (fun c => need - c)
    ?_ addrSpace _ ?_ ?_
  · rintro c ⟨hpos, hlt⟩
    by_cases hc : c < need
    · refine .inr ⟨c * 2, ?_, ⟨by omega, by omega⟩, by omega⟩
      have hmul : mul64 c 2 = c * 2 := Nat.mod_eq_of_lt (by omega)
      rw [growRound, if_pos hc, hmul]
    · exact .inl ⟨c, by rw [growRound, if_neg hc], by omega, hpos⟩
  · split <;> omega
  · split <;> omega

/-- A writable file among the nodes has no place for read-only data or children. -/
theorem FsInv.file_mem {s : Fs} {nodes : List Nat} {kids : Nat → List Nat}
    (h : FsInv s nodes kids) {file : Nat} (hf : file = 0 ∨ file ∈ s.rootNode :: nodes)
    (h0 : file ≠ 0) (hdir : (s.node file).isDir = false) : file ∈ nodes := by
  rcases List.mem_cons.mp (hf.resolve_left h0) with rfl | hf
  · rw [h.links.root_dir] at hdir; cases hdir
  · exact hf

/-- What a file operation leaves alone. -/
theorem keeps_setFile {s : Fs} {nodes : List Nat} {x : Nat} {f : VfsNode} {heap : Arena}
    {mem : Mem} (hr : (s.node x).readonly = false) (hlo : heap.lo = s.heap.lo)
    (hhi : heap.hi = s.heap.hi) :
    Keeps nodes s { s with node := Function.update s.node x f, heap := heap, mem := mem } := by
  refine ⟨rfl, hlo, hhi, fun y _ hy => ?_⟩
  have hyx : y ≠ x := by rintro rfl; rw [hr] at hy; cases hy
  simp [hyx, hy]

/-- Growing: either nothing happens because there is no memory, or the file ends up with a buffer
    of the needed size. -/
theorem vfsGrow_spec (pick : Pick) {s : Fs} {nodes : List Nat} {kids : Nat → List Nat}
    {file need : Nat} (h : FsInv s nodes kids) (hx : file ∈ nodes)
    (hdir : (s.node file).isDir = false) (hr : (s.node file).readonly = false)
    (hneed : need ≤ 2 ^ 62) :
    ∃ t ok, vfsGrow pick s file need = some (t, ok) ∧ FsInv t nodes kids ∧ Keeps nodes s t ∧
      SameLinks (t.node file) (s.node file) ∧ (t.node file).readonly = false ∧
      (t.node file).size = (s.node file).size ∧ (ok = true → need ≤ (t.node file).cap) := by
  have hlinks : SameLinks (s.node file) (s.node file) := ⟨rfl, rfl, rfl, rfl, rfl⟩
  by_cases hfit : need ≤ (s.node file).cap
  · exact ⟨s, true, by rw [vfsGrow, if_pos hfit], h, .refl _ _, hlinks, hr, rfl, fun _ => hfit⟩
  obtain ⟨c, hc, hle, hpos⟩ := growCap_spec hneed (Nat.lt_of_not_le hfit)
  have hroom := (h.owns.files file (by simp [hx])).room hr
  rcases Arena.alloc_cases pick c s.heap with hfail | ⟨nd, hfits, halloc⟩
  · refine ⟨s, false, ?_, h, .refl _ _, hlinks, hr, rfl, by simp⟩
    simp [vfsGrow, hfit, hc, Fs.malloc, hfail]
  have hnd : nd ≠ 0 := hfits.1
  set heap₁ : Arena := { s.heap with live := (nd, c) :: s.heap.live } with hheap₁
  have hok₁ : heap₁.Ok := h.owns.heap_ok.alloc hpos hfits
  let f : VfsNode := { s.node file with data := nd, cap := c }
  have hf : SameLinks f (s.node file) := hlinks
  have hfok : FileOk s.heap.lo s.heap.hi f := by
    refine ⟨fun hd => ?_, fun hr' => ?_, fun _ => .inr ⟨hnd, hpos, ?_⟩⟩
    · rw [show f.isDir = (s.node file).isDir from rfl, hdir] at hd; cases hd
    · rw [show f.readonly = (s.node file).readonly from rfl, hr] at hr'; cases hr'
    · change (s.node file).size ≤ c
      omega
  have hbuf : buffer f = [(nd, c)] := buffer_of_data hr hnd
  by_cases hd : (s.node file).data = 0
  · -- the first buffer of the file
    refine ⟨_, true, ?_, h.setFile (f := f) s.mem hx hf hfok hok₁ rfl rfl ?_,
      keeps_setFile hr rfl rfl, ?_, ?_, ?_, fun _ => ?_⟩
    · simp [vfsGrow, hfit, hc, Fs.malloc, halloc, hnd, moveData, hd, Fs.setNode, hheap₁, f]
    · intro rest hrest
      rw [buffer_of_null hd, List.nil_append] at hrest
      rw [hbuf]
      exact hrest.cons _
    all_goals simp [f, SameLinks, hr, hle]
  · -- the old buffer is copied and freed
    obtain ⟨-, hcap, hsize⟩ := hroom.resolve_left fun hz => hd hz.1
    have hmem := h.owns.buffer_mem hx hr hd
    have hcovers : heap₁.Covers nd (s.node file).size ∧
        heap₁.Covers (s.node file).data (s.node file).size :=
      ⟨.inr ⟨(nd, c), by simp [hheap₁], Nat.le_refl _, by simp only; omega⟩,
        .inr ⟨_, List.mem_cons_of_mem _ hmem, Nat.le_refl _, by simp only; omega⟩⟩
    have hsplit := h.owns.live_split hx
    rw [buffer_of_data hr hd, List.singleton_append] at hsplit
    obtain ⟨heap₂, hfree, hperm, hok₂, hlo, hhi, -⟩ := hok₁.free
      ((hsplit.cons (nd, c)).trans (List.Perm.swap _ _ _))
    refine ⟨_, true, ?_, h.setFile (f := f)
      (copy s.mem nd (s.node file).data (s.node file).size) hx hf hfok hok₂ hlo hhi ?_,
      keeps_setFile hr hlo hhi, ?_, ?_, ?_, fun _ => ?_⟩
    · simp [vfsGrow, hfit, hc, Fs.malloc, halloc, hnd, moveData, hd, Fs.memcpy, hcovers, Fs.free,
        hfree, Fs.setNode, f]
    · intro rest hrest
      rw [buffer_of_data hr hd, List.singleton_append] at hrest
      have hrest' := hsplit.symm.trans hrest
      rw [hbuf]
      exact hperm.trans ((List.perm_cons _).mp hrest' |>.cons _)
    all_goals simp [f, SameLinks, hr, hle]

/-- Filling a buffer that has room. -/
theorem vfsFill_spec {s : Fs} {nodes : List Nat} {kids : Nat → List Nat} {file off len : Nat}
    (buf : Nat → UInt8) (h : FsInv s nodes kids) (hx : file ∈ nodes)
    (hr : (s.node file).readonly = false) (hroom : off + len ≤ (s.node file).cap) :
    ∃ t, vfsFill s file buf off len (off + len) = some t ∧ FsInv t nodes kids ∧
      Keeps nodes s t := by
  have hfile := h.owns.files file (by simp [hx])
  have hcover : ∀ a n, a + n ≤ (s.node file).cap →
      s.heap.Covers ((s.node file).data + a) n := by
    intro a n han
    rcases hfile.room hr with ⟨-, -, hcap⟩ | ⟨hd, -, -⟩
    · exact .inl (by omega)
    · exact .inr ⟨_, h.owns.buffer_mem hx hr hd, by simp only; omega, by simp only; omega⟩
  have hzero : ∃ mem, zeroGap s (s.node file) off = some { s with mem := mem } := by
    unfold zeroGap
    split
    · exact ⟨_, if_pos (hcover _ _ (by omega))⟩
    · exact ⟨s.mem, rfl⟩
  obtain ⟨mem, hzero⟩ := hzero
  have hcopy : Fs.memcpyFrom ((s.node file).data + off) buf len { s with mem := mem } =
      some { s with mem := put mem ((s.node file).data + off) buf len } :=
    if_pos (hcover _ _ hroom)
  by_cases hgrow : (s.node file).size < off + len
  · refine ⟨_, ?_, h.setFile (f := { s.node file with size := off + len })
      (put mem ((s.node file).data + off) buf len) hx ⟨rfl, rfl, rfl, rfl, rfl⟩ ?_
      h.owns.heap_ok rfl rfl fun rest hrest => hrest, keeps_setFile hr rfl rfl⟩
    · simp only [vfsFill, hzero, hcopy, hgrow, if_true, Option.bind_eq_bind, Option.bind_some,
        Fs.setNode]
      rfl
    · refine ⟨hfile.dir, hfile.module, fun hr' => ?_⟩
      rcases hfile.room hr with ⟨-, -, hcap⟩ | ⟨hd, hpos, -⟩
      · omega
      · exact .inr ⟨hd, hpos, hroom⟩
  · refine ⟨_, ?_, h.setMem (put mem ((s.node file).data + off) buf len), ⟨rfl, rfl, rfl,
      fun _ _ hr => ⟨hr, rfl, rfl⟩⟩⟩
    simp only [vfsFill, hzero, hcopy, hgrow, if_false, Option.bind_eq_bind, Option.bind_some]
    rfl

/-- A write with an end offset of at most `2 ^ 62` returns and keeps the invariant. -/
theorem vfsWrite_spec (pick : Pick) {s : Fs} {nodes : List Nat} {kids : Nat → List Nat}
    {file : Nat} (buf : Nat → UInt8) {off len : Nat} (h : FsInv s nodes kids)
    (hf : file = 0 ∨ file ∈ s.rootNode :: nodes) (hend : off + len ≤ 2 ^ 62) :
    ∃ t r, vfsWrite pick s file buf off len = some (t, r) ∧ FsInv t nodes kids ∧
      Keeps nodes s t := by
  by_cases hno : file = 0 ∨ (s.node file).isDir = true ∨ (s.node file).readonly = true
  · exact ⟨s, -1, by rw [vfsWrite, if_pos hno], h, .refl _ _⟩
  simp only [not_or, Bool.not_eq_true] at hno
  obtain ⟨h0, hdir, hr⟩ := hno
  have hx := h.file_mem hf h0 hdir
  have hadd : add64 off len = off + len :=
    add64_of_lt (by have := addrSpace_eq; omega)
  obtain ⟨s₁, ok, hgrow, h₁, hk₁, -, hr₁, -, hcap⟩ := vfsGrow_spec pick h hx hdir hr hend
  cases ok with
  | false =>
    refine ⟨s₁, -1, ?_, h₁, hk₁⟩
    simp [vfsWrite, h0, hdir, hr, hadd, hgrow]
  | true =>
    obtain ⟨s₂, hfill, h₂, hk₂⟩ := vfsFill_spec buf h₁ hx hr₁ (hcap rfl)
    refine ⟨s₂, toInt len, ?_, h₂, hk₁.trans (List.Subset.refl _) hk₂⟩
    simp [vfsWrite, h0, hdir, hr, hadd, hgrow, hfill]

/-- A truncation to at most `2 ^ 62` bytes returns and keeps the invariant. -/
theorem vfsTruncate_spec (pick : Pick) {s : Fs} {nodes : List Nat} {kids : Nat → List Nat}
    {file size : Nat} (h : FsInv s nodes kids) (hf : file = 0 ∨ file ∈ s.rootNode :: nodes)
    (hsize : size ≤ 2 ^ 62) :
    ∃ t r, vfsTruncate pick s file size = some (t, r) ∧ FsInv t nodes kids ∧
      Keeps nodes s t := by
  by_cases hno : file = 0 ∨ (s.node file).isDir = true ∨ (s.node file).readonly = true
  · exact ⟨s, -1, by simp only [vfsTruncate, if_pos hno], h, .refl _ _⟩
  by_cases hle : size ≤ (s.node file).size
  · have hno' := hno
    simp only [not_or, Bool.not_eq_true] at hno'
    obtain ⟨h0, hdir, hr⟩ := hno'
    have hx := h.file_mem hf h0 hdir
    have hfile := h.owns.files file (by simp [hx])
    refine ⟨_, 0, by simp only [vfsTruncate, if_neg hno, if_pos hle, Fs.setNode],
      h.setFile (f := { s.node file with size := size }) s.mem hx ⟨rfl, rfl, rfl, rfl, rfl⟩ ?_
        h.owns.heap_ok rfl rfl fun rest hrest => hrest, keeps_setFile hr rfl rfl⟩
    refine ⟨hfile.dir, hfile.module, fun hr' => ?_⟩
    rcases hfile.room hr with ⟨hd, hs, hc⟩ | ⟨hd, hpos, hs⟩
    · exact .inl ⟨hd, by simp only; omega, hc⟩
    · exact .inr ⟨hd, hpos, by simp only; omega⟩
  · have hsub : sub64 size 1 = size - 1 :=
      sub64_of_le (by have := addrSpace_eq; omega) (by omega)
    obtain ⟨t, r, hw, ht, hk⟩ := vfsWrite_spec pick (fun _ => 0) h hf
      (show size - 1 + 1 ≤ 2 ^ 62 by omega)
    refine ⟨t, if r < 0 then -1 else 0, ?_, ht, hk⟩
    simp only [vfsTruncate, if_neg hno, if_neg hle, hsub, hw, Option.bind_eq_bind,
      Option.bind_some]
    rfl

end ChocoOs.Vfs
