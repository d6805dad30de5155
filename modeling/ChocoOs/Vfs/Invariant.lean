import ChocoOs.Vfs.Operations
import ChocoOs.Lib.Linked
import ChocoOs.Lib.RootedTree

/-!
# The tree and who owns the memory

The nodes form a rooted tree, threaded through `children` and `next`; each node and each buffer
of a writable file is one live block of the heap, and there are no others.
-/

namespace ChocoOs.Vfs
open ProgLib

/-- The buffer that a node owns: the data of a writable file. -/
def buffer (n : VfsNode) : List (Nat × Nat) :=
  if n.readonly = false ∧ n.data ≠ 0 then [(n.data, n.cap)] else []

/-- The heap blocks of the node at `x`. -/
def blocksOf (node : Nat → VfsNode) (x : Nat) : List (Nat × Nat) :=
  (x, nodeSize) :: buffer (node x)

/-- The records at `root` and `nodes` are linked up as a tree with child lists `kids`. -/
structure Links (node : Nat → VfsNode) (root : Nat) (nodes : List Nat) (kids : Nat → List Nat) :
    Prop where
  tree : RootedTree root nodes kids fun x => (node x).parent
  first : ∀ d ∈ root :: nodes, (node d).children = (kids d).headD 0
  linked : ∀ d ∈ root :: nodes, Linked (fun c => (node c).next) (kids d) 0
  dirs : ∀ d ∈ root :: nodes, kids d ≠ [] → (node d).isDir = true
  names : ∀ d ∈ root :: nodes, (kids d).Pairwise fun b c => (node b).name ≠ (node c).name
  name_len : ∀ x ∈ nodes, 0 < (node x).name.length ∧ (node x).name.length < vfsNameMax
  root_dir : (node root).isDir = true
  root_parent : (node root).parent = 0
  root_next : (node root).next = 0

/-- The data fields of a node, for a heap region `[lo, hi)`. -/
structure FileOk (lo hi : Nat) (n : VfsNode) : Prop where
  dir : n.isDir = true → n.readonly = false ∧ n.data = 0
  module : n.readonly = true → ¬ (lo ≤ n.data ∧ n.data < hi)
  room : n.readonly = false →
    (n.data = 0 ∧ n.size = 0 ∧ n.cap = 0) ∨ (n.data ≠ 0 ∧ 0 < n.cap ∧ n.size ≤ n.cap)

/-- The nodes and their buffers are the live blocks. -/
structure Owns (s : Fs) (nodes : List Nat) : Prop where
  heap_ok : s.heap.Ok
  hi_le : s.heap.hi ≤ addrSpace
  root_pos : s.rootNode ≠ 0
  root_outside : ¬ (s.heap.lo ≤ s.rootNode ∧ s.rootNode < s.heap.hi)
  live : s.heap.live.Perm (nodes.flatMap (blocksOf s.node))
  files : ∀ x ∈ s.rootNode :: nodes, FileOk s.heap.lo s.heap.hi (s.node x)

structure FsInv (s : Fs) (nodes : List Nat) (kids : Nat → List Nat) : Prop where
  links : Links s.node s.rootNode nodes kids
  owns : Owns s nodes

/-- What no operation changes: where the root and the heap region are, and the data of the
    read-only files among `nodes`. -/
structure Keeps (nodes : List Nat) (s t : Fs) : Prop where
  rootNode : t.rootNode = s.rootNode
  lo : t.heap.lo = s.heap.lo
  hi : t.heap.hi = s.heap.hi
  modules : ∀ x ∈ nodes, (s.node x).readonly = true →
    (t.node x).readonly = true ∧ (t.node x).data = (s.node x).data ∧
      (t.node x).size = (s.node x).size

theorem Keeps.refl (nodes : List Nat) (s : Fs) : Keeps nodes s s :=
  ⟨rfl, rfl, rfl, fun _ _ h => ⟨h, rfl, rfl⟩⟩

theorem Keeps.trans {nodes nodes' : List Nat} {s t u : Fs} (h : Keeps nodes s t)
    (hsub : nodes ⊆ nodes') (h' : Keeps nodes' t u) : Keeps nodes s u := by
  refine ⟨h'.rootNode.trans h.rootNode, h'.lo.trans h.lo, h'.hi.trans h.hi, fun x hx hr => ?_⟩
  obtain ⟨h1, h2, h3⟩ := h.modules x hx hr
  obtain ⟨h4, h5, h6⟩ := h'.modules x (hsub hx) h1
  exact ⟨h4, h5.trans h2, h6.trans h3⟩

/-! ## Blocks and addresses -/

theorem buffer_of_readonly {n : VfsNode} (h : n.readonly = true) : buffer n = [] := by
  simp [buffer, h]

theorem buffer_of_null {n : VfsNode} (h : n.data = 0) : buffer n = [] := by
  simp [buffer, h]

theorem buffer_of_data {n : VfsNode} (h : n.readonly = false) (hd : n.data ≠ 0) :
    buffer n = [(n.data, n.cap)] := by
  simp [buffer, h, hd]

theorem Owns.node_mem {s : Fs} {nodes : List Nat} (h : Owns s nodes) {x : Nat} (hx : x ∈ nodes) :
    (x, nodeSize) ∈ s.heap.live :=
  h.live.mem_iff.mpr (List.mem_flatMap.mpr ⟨x, hx, by simp [blocksOf]⟩)

theorem Owns.buffer_mem {s : Fs} {nodes : List Nat} (h : Owns s nodes) {x : Nat}
    (hx : x ∈ nodes) (hr : (s.node x).readonly = false) (hd : (s.node x).data ≠ 0) :
    ((s.node x).data, (s.node x).cap) ∈ s.heap.live :=
  h.live.mem_iff.mpr (List.mem_flatMap.mpr ⟨x, hx, by simp [blocksOf, buffer_of_data hr hd]⟩)

theorem Owns.node_bounds {s : Fs} {nodes : List Nat} (h : Owns s nodes) {x : Nat}
    (hx : x ∈ nodes) : 0 < x ∧ s.heap.lo ≤ x ∧ x < s.heap.hi := by
  have := h.heap_ok.inside _ (h.node_mem hx)
  simp only [nodeSize] at this
  omega

theorem FsInv.ne_zero {s : Fs} {nodes : List Nat} {kids : Nat → List Nat}
    (h : FsInv s nodes kids) {x : Nat} (hx : x ∈ s.rootNode :: nodes) : x ≠ 0 := by
  rcases List.mem_cons.mp hx with rfl | hx
  · exact h.owns.root_pos
  · have := h.owns.node_bounds hx
    omega

/-- A walk over a child list has fuel enough. -/
theorem FsInv.kids_length {s : Fs} {nodes : List Nat} {kids : Nat → List Nat}
    (h : FsInv s nodes kids) {d : Nat} (hd : d ∈ s.rootNode :: nodes) :
    (kids d).length < addrSpace := by
  refine length_lt_of_nodup (h.links.tree.kids_nodup d hd) (fun c hc => ?_) addrSpace_pos
  have hb := h.owns.node_bounds (h.links.tree.child d hd c hc).1
  have := h.owns.hi_le
  omega

/-- The live blocks with those of one node in front. -/
theorem Owns.live_split {s : Fs} {nodes : List Nat} (h : Owns s nodes) {x : Nat}
    (hx : x ∈ nodes) : s.heap.live.Perm
      (buffer (s.node x) ++ (x, nodeSize) :: (nodes.erase x).flatMap (blocksOf s.node)) := by
  have hperm := h.live.trans ((List.perm_cons_erase hx).flatMap_right (blocksOf s.node))
  rw [List.flatMap_cons] at hperm
  exact hperm.trans (by simpa [blocksOf] using List.perm_middle.symm)

/-! ## Changing the data of one file -/

/-- Two records that take the same place in the tree. -/
def SameLinks (a b : VfsNode) : Prop :=
  a.name = b.name ∧ a.isDir = b.isDir ∧ a.parent = b.parent ∧ a.children = b.children ∧
    a.next = b.next

theorem Links.congr {node node' : Nat → VfsNode} {root : Nat} {nodes : List Nat}
    {kids : Nat → List Nat} (h : Links node root nodes kids)
    (same : ∀ x ∈ root :: nodes, SameLinks (node' x) (node x)) : Links node' root nodes kids := by
  have hkid : ∀ d ∈ root :: nodes, ∀ c ∈ kids d, c ∈ root :: nodes := fun d hd c hc =>
    List.mem_cons_of_mem _ (h.tree.child d hd c hc).1
  obtain ⟨hn, hd, hp, -, hx⟩ := same root (by simp)
  constructor
  · exact h.tree.congr_parent fun c hc => (same c (by simp [hc])).2.2.1
  · exact fun d hd => (same d hd).2.2.2.1.trans (h.first d hd)
  · exact fun d hd => (h.linked d hd).congr fun c hc => (same c (hkid d hd c hc)).2.2.2.2
  · exact fun d hd hne => (same d hd).2.1.trans (h.dirs d hd hne)
  · intro d hd
    refine (h.names d hd).imp_of_mem fun {b c} hb hc hne => ?_
    rwa [(same b (hkid d hd b hb)).1, (same c (hkid d hd c hc)).1]
  · intro x hx
    rw [(same x (by simp [hx])).1]
    exact h.name_len x hx
  · exact hd.trans h.root_dir
  · exact hp.trans h.root_parent
  · exact hx.trans h.root_next

/-- One file gets another buffer or size, and the heap changes by the buffer. -/
theorem FsInv.setFile {s : Fs} {nodes : List Nat} {kids : Nat → List Nat} {x : Nat}
    {f : VfsNode} {heap : Arena} (h : FsInv s nodes kids) (mem : Mem) (hx : x ∈ nodes)
    (hf : SameLinks f (s.node x)) (hok : FileOk s.heap.lo s.heap.hi f) (hheap : heap.Ok)
    (hlo : heap.lo = s.heap.lo) (hhi : heap.hi = s.heap.hi)
    (hlive : ∀ rest, s.heap.live.Perm (buffer (s.node x) ++ rest) →
      heap.live.Perm (buffer f ++ rest)) :
    FsInv { s with node := Function.update s.node x f, heap := heap, mem := mem } nodes kids := by
  have hnd := (List.nodup_cons.mp h.links.tree.nodup)
  constructor
  · refine h.links.congr fun y _ => ?_
    by_cases hyx : y = x
    · subst hyx; simpa using hf
    · simp [hyx, SameLinks]
  · refine ⟨hheap, hhi ▸ h.owns.hi_le, h.owns.root_pos, hlo ▸ hhi ▸ h.owns.root_outside, ?_, ?_⟩
    · have hnew := hlive _ (h.owns.live_split hx)
      have hrest : (nodes.erase x).flatMap (blocksOf (Function.update s.node x f)) =
          (nodes.erase x).flatMap (blocksOf s.node) := by
        refine List.flatMap_congr fun y hy => ?_
        have hyx : y ≠ x := (hnd.2.mem_erase_iff.mp hy).1
        rw [blocksOf, blocksOf, Function.update_of_ne hyx]
      have hperm := (List.perm_cons_erase hx).flatMap_right
        (blocksOf (Function.update s.node x f))
      rw [List.flatMap_cons, hrest] at hperm
      refine hnew.trans (List.Perm.trans ?_ hperm.symm)
      simp [blocksOf, List.perm_middle]
    · intro y hy
      simp only [hlo, hhi]
      by_cases hyx : y = x
      · subst hyx; simpa using hok
      · rw [Function.update_of_ne hyx]; exact h.owns.files y hy

/-- Bytes of file data may change freely: no record is among them. -/
theorem FsInv.setMem {s : Fs} {nodes : List Nat} {kids : Nat → List Nat}
    (h : FsInv s nodes kids) (mem : Mem) : FsInv { s with mem := mem } nodes kids :=
  ⟨h.links, h.owns.heap_ok, h.owns.hi_le, h.owns.root_pos, h.owns.root_outside, h.owns.live,
    h.owns.files⟩

end ChocoOs.Vfs
