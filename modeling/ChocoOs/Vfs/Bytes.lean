import ChocoOs.Heap.Malloc
import ChocoOs.Vfs.Run
import ChocoOs.Vfs.Contents
import Mathlib.Data.List.GetD

/-!
# A file is a list of bytes

Whatever buffers a file has had and whatever stale bytes they hold, writes and truncations do to
the bytes of the file what they do to a list: pad, overwrite, extend, cut.
-/

namespace ChocoOs.Vfs
open ProgLib

/-- The list with zeros up to the length `n`. -/
def padTo (l : List UInt8) (n : Nat) : List UInt8 := l ++ List.replicate (n - l.length) 0

/-- The bytes `b` put over the list from `off` on, with zeros in between if it is too short. -/
def writeAt (l : List UInt8) (off : Nat) (b : List UInt8) : List UInt8 :=
  (padTo l off).take off ++ b ++ (padTo l off).drop (off + b.length)

/-- A call that works on a file. -/
inductive FileCall where
  | write (buf : Nat → UInt8) (off len : Nat)
  | truncate (size : Nat)

namespace FileCall

/-- The end offsets that a file may be asked for. -/
def Ok : FileCall → Prop
  | write _ off len => off + len ≤ 2 ^ 62
  | truncate size => size ≤ 2 ^ 62

/-- The call of the file system. -/
def run (pick : Pick) (s : Fs) (file : Nat) : FileCall → Option (Fs × Int)
  | write buf off len => vfsWrite pick s file buf off len
  | truncate size => vfsTruncate pick s file size

/-- What the call makes of a list of bytes, if it returns `r`. -/
def apply (c : FileCall) (l : List UInt8) (r : Int) : List UInt8 :=
  if r = -1 then l
  else
    match c with
    | write buf off len => writeAt l off ((List.range len).map buf)
    | truncate size => padTo (l.take size) size

end FileCall

/-- A run of calls on the file from the state `s`, beside the list that they make of its bytes. -/
inductive FileRun (file : Nat) (s : Fs) : Fs → List UInt8 → Prop
  | start : FileRun file s s (contents s file)
  | call {t u : Fs} {l : List UInt8} {r : Int} (pick : Pick) (c : FileCall) :
      FileRun file s t l → c.Ok → c.run pick t file = some (u, r) → FileRun file s u (c.apply l r)

/-! ## Lists -/

theorem length_padTo (l : List UInt8) (n : Nat) : (padTo l n).length = max l.length n := by
  rw [padTo, List.length_append, List.length_replicate]
  omega

theorem getD_padTo (l : List UInt8) (n i : Nat) : (padTo l n).getD i 0 = l.getD i 0 := by
  unfold padTo
  by_cases hi : i < l.length
  · rw [List.getD_append _ _ _ _ hi]
  · have hi := Nat.le_of_not_lt hi
    rw [List.getD_append_right _ _ _ _ hi, List.getD_eq_default _ _ hi]
    by_cases hr : i - l.length < n - l.length
    · exact List.getD_replicate _ hr
    · rw [List.getD_eq_default]
      rw [List.length_replicate]
      exact Nat.le_of_not_lt hr

/-- The index-wise description of a write is the list operation. -/
theorem overwrite_eq (l : List UInt8) (off : Nat) (b : List UInt8) :
    overwrite l off b = writeAt l off b := by
  have hpad := length_padTo l off
  have htake : ((padTo l off).take off).length = off := by
    rw [List.length_take]
    omega
  have hlen : (writeAt l off b).length = max l.length (off + b.length) := by
    rw [writeAt, List.length_append, List.length_append, htake, List.length_drop]
    omega
  apply List.ext_getElem
  · rw [length_overwrite, hlen]
  intro i h₁ h₂
  have hget : (writeAt l off b)[i] = (writeAt l off b).getD i 0 := by
    rw [List.getD_eq_getElem?_getD, List.getElem?_eq_getElem h₂, Option.getD_some]
  rw [hget]
  simp only [overwrite, List.getElem_map, List.getElem_range, writeAt]
  by_cases hin : i < off + b.length
  · rw [List.getD_append _ _ _ _ (by rw [List.length_append, htake]; exact hin)]
    by_cases hoff : off ≤ i
    · rw [if_pos ⟨hoff, hin⟩, List.getD_append_right _ _ _ _ (by rw [htake]; exact hoff), htake]
    · have hoff := Nat.lt_of_not_le hoff
      rw [if_neg (by omega), List.getD_append _ _ _ _ (by rw [htake]; exact hoff),
        ← getD_padTo l off, List.getD_eq_getElem?_getD, List.getD_eq_getElem?_getD,
        List.getElem?_take_of_lt hoff]
  · have hin := Nat.le_of_not_lt hin
    rw [if_neg (by omega), List.getD_append_right _ _ _ _ (by rw [List.length_append, htake]; exact hin),
      List.length_append, htake, ← getD_padTo l off, List.getD_eq_getElem?_getD,
      List.getD_eq_getElem?_getD, List.getElem?_drop]
    congr 2
    omega

/-- Nothing is gained by padding what is long enough, and the zeros lie behind what is not. -/
theorem writeAt_last_zero {l : List UInt8} {size : Nat} (h : l.length < size) :
    writeAt l (size - 1) [0] = padTo (l.take size) size := by
  have hpad : padTo l (size - 1) = l ++ List.replicate (size - 1 - l.length) 0 := rfl
  have hlen : (padTo l (size - 1)).length = size - 1 := by
    rw [length_padTo]
    omega
  have hdrop : (padTo l (size - 1)).drop (size - 1 + [(0 : UInt8)].length) = [] := by
    apply List.drop_of_length_le
    rw [hlen]
    exact Nat.le_add_right _ _
  rw [writeAt, hdrop, List.append_nil, List.take_of_length_le (Nat.le_of_eq hlen),
    List.take_of_length_le (Nat.le_of_lt h), hpad, padTo, List.append_assoc]
  congr 1
  rw [← List.replicate_succ']
  congr 1
  omega

theorem padTo_take {l : List UInt8} {size : Nat} (h : size ≤ l.length) :
    padTo (l.take size) size = l.take size := by
  have hlen : (l.take size).length = size := List.length_take_of_le h
  rw [padTo, hlen, Nat.sub_self, List.replicate_zero, List.append_nil]

/-! ## One call -/

/-- The file is open for writing, and `l` are its bytes. -/
structure FileInv (s : Fs) (file : Nat) (l : List UInt8) (nodes : List Nat)
    (kids : Nat → List Nat) : Prop where
  inv : FsInv s nodes kids
  mem : file ∈ nodes
  notDir : (s.node file).isDir = false
  writable : (s.node file).readonly = false
  heap_le : s.heap.hi - s.heap.lo ≤ Heap.heapMax
  bytes : contents s file = l

theorem toInt_of_le {n : Nat} (h : n ≤ Heap.heapMax) : toInt n = n := by
  have hmax : Heap.heapMax = 805306368 := by decide
  have hlt : n < 2 ^ 31 := by omega
  rw [toInt, BitVec.toInt_ofNat', Int.bmod_eq_of_le] <;> omega

/-- A write that has the memory does what it does to a list, and returns its length. -/
theorem FileInv.write (pick : Pick) {s : Fs} {file : Nat} {l : List UInt8} {nodes : List Nat}
    {kids : Nat → List Nat} (h : FileInv s file l nodes kids) (buf : Nat → UInt8) {off len : Nat}
    (hend : off + len ≤ 2 ^ 62) :
    vfsWrite pick s file buf off len = some (s, -1) ∨
    ∃ t, vfsWrite pick s file buf off len = some (t, (len : Int)) ∧
      FileInv t file (writeAt l off ((List.range len).map buf)) nodes kids := by
  have hwrite := h.inv.vfsWrite_eq pick buf h.mem h.notDir h.writable hend
  obtain ⟨t', r, hspec, -, hkeeps⟩ := vfsWrite_spec pick buf h.inv
    (.inr (List.mem_cons_of_mem _ h.mem)) hend
  cases hg : growBuffer pick s.heap (s.node file).data (s.node file).cap (off + len) with
  | none =>
    rw [hg] at hwrite
    exact .inl hwrite
  | some p =>
    obtain ⟨heap, data, cap⟩ := p
    rw [hg] at hwrite
    obtain ⟨t, heq, ht, hw⟩ := hwrite
    rw [heq] at hspec
    obtain ⟨rfl, -⟩ : t = t' ∧ toInt len = r := by simpa using hspec
    have hnode : t.node file = { s.node file with
        data := data, cap := cap, size := max (s.node file).size (off + len) } := by
      rw [hw.node, Function.update_self]
    have hr : (t.node file).readonly = false := by
      rw [hnode]
      exact h.writable
    have hheap : t.heap.hi - t.heap.lo ≤ Heap.heapMax := by
      rw [hkeeps.hi, hkeeps.lo]
      exact h.heap_le
    -- the bytes lie in one block of the heap
    have hlen : len ≤ Heap.heapMax := by
      rcases (ht.owns.files file (by simp [h.mem])).room hr with ⟨-, hsize, -⟩ | ⟨hd, -, hsize⟩
      · rw [hnode] at hsize
        simp only at hsize
        omega
      · have hin := ht.owns.heap_ok.inside _ (ht.owns.buffer_mem h.mem hr hd)
        rw [hnode] at hsize hin
        simp only at hsize hin
        omega
    refine .inr ⟨t, ?_, ht, h.mem, ?_, hr, hheap, ?_⟩
    · rw [heq, toInt_of_le hlen]
    · rw [hnode]
      exact h.notDir
    · rw [hw.contents_eq, h.bytes, overwrite_eq]

/-- A truncation cuts the list or extends it with zeros. -/
theorem FileInv.truncate (pick : Pick) {s : Fs} {file size : Nat} {l : List UInt8}
    {nodes : List Nat} {kids : Nat → List Nat} (h : FileInv s file l nodes kids)
    (hsize : size ≤ 2 ^ 62) :
    vfsTruncate pick s file size = some (s, -1) ∨
    ∃ t, vfsTruncate pick s file size = some (t, 0) ∧
      FileInv t file (padTo (l.take size) size) nodes kids := by
  have h0 : file ≠ 0 := h.inv.ne_zero (List.mem_cons_of_mem _ h.mem)
  have hno : ¬(file = 0 ∨ (s.node file).isDir = true ∨ (s.node file).readonly = true) := by
    rw [h.notDir, h.writable]
    simpa using h0
  have hlen : l.length = (s.node file).size := by
    rw [← h.bytes, length_contents]
  by_cases hle : size ≤ (s.node file).size
  · have heq : vfsTruncate pick s file size =
        some (s.setNode file { s.node file with size := size }, 0) := by
      rw [vfsTruncate, if_neg hno, if_pos hle]
    obtain ⟨t, r, hspec, ht, -⟩ := vfsTruncate_spec pick h.inv
      (.inr (List.mem_cons_of_mem _ h.mem)) hsize
    rw [heq] at hspec
    cases hspec
    have hnode : (s.setNode file { s.node file with size := size }).node file =
        { s.node file with size := size } := Function.update_self ..
    refine .inr ⟨_, heq, ht, h.mem, ?_, ?_, h.heap_le, ?_⟩
    · rw [hnode]
      exact h.notDir
    · rw [hnode]
      exact h.writable
    · rw [padTo_take (hlen ▸ hle), ← h.bytes, contents, hnode, contents, ← List.map_take,
        List.take_range, Nat.min_eq_left hle]
      rfl
  · have hlt := Nat.lt_of_not_le hle
    have hsub : sub64 size 1 = size - 1 :=
      sub64_of_le (by have := addrSpace_eq; omega) (by omega)
    have heq : vfsTruncate pick s file size =
        (vfsWrite pick s file (fun _ => 0) (size - 1) 1).bind
          fun r => some (r.1, if r.2 < 0 then -1 else 0) := by
      simp only [vfsTruncate, if_neg hno, if_neg hle, hsub]
      rfl
    rw [heq]
    rcases h.write pick (fun _ => 0) (show size - 1 + 1 ≤ 2 ^ 62 by omega) with hw | ⟨t, hw, ht⟩
    · rw [hw]
      exact .inl rfl
    · rw [hw]
      refine .inr ⟨t, rfl, ?_⟩
      rw [← writeAt_last_zero (hlen ▸ hlt)]
      exact ht

/-- A call returns, and leaves the bytes that it makes of the list. -/
theorem FileInv.run (pick : Pick) {s : Fs} {file : Nat} {l : List UInt8} {nodes : List Nat}
    {kids : Nat → List Nat} (h : FileInv s file l nodes kids) {c : FileCall} (hc : c.Ok) :
    ∃ t r, c.run pick s file = some (t, r) ∧ FileInv t file (c.apply l r) nodes kids := by
  have hfail : c.apply l (-1) = l := if_pos rfl
  cases c with
  | write buf off len =>
    rcases h.write pick buf hc with heq | ⟨t, heq, ht⟩
    · exact ⟨s, -1, heq, hfail ▸ h⟩
    · refine ⟨t, len, heq, ?_⟩
      rw [FileCall.apply, if_neg (by omega)]
      exact ht
  | truncate size =>
    rcases h.truncate pick hc with heq | ⟨t, heq, ht⟩
    · exact ⟨s, -1, heq, hfail ▸ h⟩
    · refine ⟨t, 0, heq, ?_⟩
      rw [FileCall.apply, if_neg (by decide)]
      exact ht

/-! ## Runs -/

theorem FileRun.inv {s t : Fs} {file : Nat} {l : List UInt8} {nodes : List Nat}
    {kids : Nat → List Nat} (hrun : FileRun file s t l)
    (h : FileInv s file (contents s file) nodes kids) : FileInv t file l nodes kids := by
  induction hrun with
  | start => exact h
  | call pick c _ hc heq ih =>
    obtain ⟨u, r, heq', hu⟩ := ih.run pick hc
    rw [heq] at heq'
    cases heq'
    exact hu

/-- In every run of writes and truncations on a writable file, with end offsets of at most `2 ^ 62`
    and the heap refusing what it likes, the file holds after every call what the calls make of
    the list of its bytes, and the next call returns. -/
theorem file_refines_list {s : Fs} (h : Reachable s) (hheap : s.heap.hi - s.heap.lo ≤ Heap.heapMax)
    {file : Nat} (hfile : InTree s file) (hdir : (s.node file).isDir = false)
    (hr : (s.node file).readonly = false) {t : Fs} {l : List UInt8} (hrun : FileRun file s t l) :
    contents t file = l ∧
      ∀ (pick : Pick) (c : FileCall), c.Ok → ∃ u r, c.run pick t file = some (u, r) := by
  obtain ⟨nodes, kids, hs⟩ := reachable_fsInv h
  have hmem : file ∈ nodes := by
    refine hs.file_mem (.inr ((hs.inTree_iff file).mp hfile)) ?_ hdir
    exact hs.ne_zero ((hs.inTree_iff file).mp hfile)
  have ht := hrun.inv ⟨hs, hmem, hdir, hr, hheap, rfl⟩
  refine ⟨ht.bytes, fun pick c hc => ?_⟩
  obtain ⟨u, r, heq, -⟩ := ht.run pick hc
  exact ⟨u, r, heq⟩

/-- A new file in a tree with only the root. -/
def newFile : Fs := (exec pickNext bootFs (.create 0x1000 [102] false)).getD bootFs

theorem reachable_newFile : Reachable newFile := by
  have hroot : bootFs.rootNode = 0x1000 := by decide
  have hok : (Op.create 0x1000 [102] false).Ok bootFs := .inr (hroot ▸ .root)
  have hsome : (exec pickNext bootFs (.create 0x1000 [102] false)).isSome = true := by decide +kernel
  obtain ⟨t, ht⟩ := Option.isSome_iff_exists.mp hsome
  rw [newFile, ht]
  exact .step (.init start_bootFs) ⟨pickNext, _, hok, ht⟩

theorem inTree_newFile : InTree newFile 0x10000 := by
  have hchild : (newFile.node newFile.rootNode).children = 0x10000 := by decide +kernel
  exact hchild ▸ .first .root (by rw [hchild]; decide)

/-- The state after a call that returns, and what it returns. -/
def FileCall.after (c : FileCall) (s : Fs) (file : Nat) : Fs × Int :=
  (c.run pickNext s file).getD (s, 0)

theorem FileRun.get {file : Nat} {s t : Fs} {l : List UInt8} (h : FileRun file s t l)
    (c : FileCall) (hc : c.Ok) (hsome : (c.run pickNext t file).isSome = true) :
    FileRun file s (c.after t file).1 (c.apply l (c.after t file).2) := by
  obtain ⟨r, hr⟩ := Option.isSome_iff_exists.mp hsome
  refine .call pickNext c h hc ?_
  rw [FileCall.after, hr]
  rfl

/-- Two bytes are written behind a gap, and the file is cut to four bytes and extended to six. -/
theorem file_refines_list_boot : ∃ t, FileRun 0x10000 newFile t [0, 0, 0, 7, 0, 0] ∧
    contents t 0x10000 = [0, 0, 0, 7, 0, 0] := by
  have h₀ : FileRun 0x10000 newFile newFile (contents newFile 0x10000) := .start
  have h₁ := h₀.get (.write (fun _ => 7) 3 2) (by rw [FileCall.Ok]; decide) (by decide +kernel)
  have h₂ := h₁.get (.truncate 4) (by rw [FileCall.Ok]; decide) (by decide +kernel)
  have h₃ := h₂.get (.truncate 6) (by rw [FileCall.Ok]; decide) (by decide +kernel)
  obtain ⟨t, l, hrun, rfl⟩ : ∃ t l, FileRun 0x10000 newFile t l ∧ l = [0, 0, 0, 7, 0, 0] :=
    ⟨_, _, h₃, by decide +kernel⟩
  refine ⟨t, hrun, ?_⟩
  exact (file_refines_list reachable_newFile (by decide +kernel) inTree_newFile
    (by decide +kernel) (by decide +kernel) hrun).1

end ChocoOs.Vfs
