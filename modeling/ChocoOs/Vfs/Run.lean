import ChocoOs.Vfs.Removal
import ChocoOs.Lib.Transition
import Mathlib.Data.List.Induction

/-!
# Runs of the file system

A run starts with `vfs_init` and continues with operations on nodes that are in the tree, in
any order, with the heap granting or refusing memory as it likes. What holds in every state of
a run is stated on memory alone: `InTree` follows the pointers from the root.
-/

namespace ChocoOs.Vfs
open ProgLib

/-- The operations that edit the tree or the files. -/
inductive Op where
  | create (dir : Nat) (name : CStr) (isDir : Bool)
  | mkdirs (path : CStr) (cwd : Nat)
  | write (file : Nat) (buf : Nat → UInt8) (off len : Nat)
  | truncate (file size : Nat)
  | unlink (node : Nat)
  | register (name : CStr) (address size : Nat)

/-- One operation, with `pick` as the heap's choice of addresses. -/
def exec (pick : Pick) (s : Fs) : Op → Option Fs
  | .create dir name isDir => (vfsCreate pick s dir name isDir).map Prod.fst
  | .mkdirs path cwd => (vfsMkdirs pick s path cwd).map Prod.fst
  | .write file buf off len => (vfsWrite pick s file buf off len).map Prod.fst
  | .truncate file size => (vfsTruncate pick s file size).map Prod.fst
  | .unlink node => (vfsUnlink s node).map Prod.fst
  | .register name address size => registerModuleFile pick s name address size

/-- The nodes that pointers lead to from the root: the first child of a node that is reached,
    and the next sibling. -/
inductive InTree (s : Fs) : Nat → Prop
  | root : InTree s s.rootNode
  | first {d : Nat} : InTree s d → (s.node d).children ≠ 0 → InTree s (s.node d).children
  | next {c : Nat} : InTree s c → (s.node c).next ≠ 0 → InTree s (s.node c).next

/-- The arguments that the operations may be called with: nodes are null or in the tree, end
    offsets are at most `2 ^ 62`, and modules lie outside the heap region. -/
def Op.Ok (s : Fs) : Op → Prop
  | .create dir _ _ => dir = 0 ∨ InTree s dir
  | .mkdirs _ cwd => cwd = 0 ∨ InTree s cwd
  | .write file _ off len => (file = 0 ∨ InTree s file) ∧ off + len ≤ 2 ^ 62
  | .truncate file size => (file = 0 ∨ InTree s file) ∧ size ≤ 2 ^ 62
  | .unlink node => InTree s node
  | .register _ address _ => ¬ (s.heap.lo ≤ address ∧ address < s.heap.hi)

/-- After `vfs_init`: the zeroed `root_node` lies outside the heap region, and the file system
    has no memory from the heap. -/
def Start (s : Fs) : Prop :=
  ∃ s₀ : Fs, s = vfsInit s₀ ∧ s₀.node s₀.rootNode = {} ∧ s₀.rootNode ≠ 0 ∧
    ¬ (s₀.heap.lo ≤ s₀.rootNode ∧ s₀.rootNode < s₀.heap.hi) ∧ s₀.heap.hi ≤ addrSpace ∧
    s₀.heap.live = [] ∧ s₀.heap.freed = []

def Step (s t : Fs) : Prop := ∃ (pick : Pick) (op : Op), op.Ok s ∧ exec pick s op = some t

abbrev Reachable : Fs → Prop := Reach Start Step

/-- The children of `d`, if the list ends. -/
def childList (s : Fs) (d : Nat) : Option (List Nat) :=
  walk (fun c => (s.node c).next) 0 addrSpace (s.node d).children

/-- The file system is well formed, with `nodes` the nodes below the root and `kids` the child
    lists. -/
structure WellFormed (s : Fs) (nodes : List Nat) (kids : Nat → List Nat) : Prop where
  inTree_iff : ∀ x, InTree s x ↔ x ∈ s.rootNode :: nodes
  nodup : (s.rootNode :: nodes).Nodup
  childList_eq : ∀ d ∈ s.rootNode :: nodes, childList s d = some (kids d)
  /-- a node occurs once in the children of its parent and nowhere else -/
  count_eq : ∀ c ∈ nodes, (s.node c).parent ∈ s.rootNode :: nodes ∧
    ∀ d ∈ s.rootNode :: nodes, (kids d).count c = if (s.node c).parent = d then 1 else 0
  root_not_child : ∀ d ∈ s.rootNode :: nodes, s.rootNode ∉ kids d
  reaches_root : ∀ c ∈ s.rootNode :: nodes, ∃ k, (fun x => (s.node x).parent)^[k] c = s.rootNode
  dirs : ∀ d ∈ s.rootNode :: nodes, kids d ≠ [] → (s.node d).isDir = true
  names : ∀ d ∈ s.rootNode :: nodes,
    (kids d).Pairwise fun b c => (s.node b).name ≠ (s.node c).name
  name_len : ∀ x ∈ nodes, 0 < (s.node x).name.length ∧ (s.node x).name.length < 64
  size_le : ∀ x ∈ nodes, (s.node x).readonly = false → (s.node x).data ≠ 0 →
    (s.node x).size ≤ (s.node x).cap
  /-- the live blocks are the nodes and the buffers of the writable files, each once -/
  live_eq : (s.heap.live.map Prod.fst).Perm (nodes ++
    (nodes.filter fun x => !(s.node x).readonly && (s.node x).data != 0).map
      fun x => (s.node x).data)
  live_nodup : (s.heap.live.map Prod.fst).Nodup
  /-- the data of a read-only file are no heap memory and were never given to `free` -/
  modules : ∀ x ∈ nodes, (s.node x).readonly = true →
    (s.node x).data ∉ s.heap.live.map Prod.fst ∧ (s.node x).data ∉ s.heap.freed

/-- The pointers lead to the nodes of the tree and to no others. -/
theorem FsInv.inTree_iff {s : Fs} {nodes : List Nat} {kids : Nat → List Nat}
    (h : FsInv s nodes kids) (x : Nat) : InTree s x ↔ x ∈ s.rootNode :: nodes := by
  have hchild : ∀ d ∈ s.rootNode :: nodes, ∀ c ∈ kids d, c ∈ s.rootNode :: nodes :=
    fun d hd c hc => List.mem_cons_of_mem _ (h.links.tree.child d hd c hc).1
  constructor
  · intro hx
    induction hx with
    | root => simp
    | @first d _ h0 ih =>
      rw [h.links.first d ih] at h0 ⊢
      cases hk : kids d with
      | nil => rw [hk] at h0; exact absurd rfl h0
      | cons c cs => exact hchild d ih c (by simp [hk])
    | @next c _ h0 ih =>
      rcases List.mem_cons.mp ih with rfl | hc
      · exact absurd h.links.root_next h0
      · obtain ⟨hd, hkid⟩ := h.links.tree.listed c hc
        obtain ⟨pre, post, hsplit⟩ := List.append_of_mem hkid
        have hl := h.links.linked _ hd
        rw [hsplit, linked_append, linked_cons] at hl
        have hnext : (s.node c).next = post.headD 0 := hl.2.1
        rw [hnext] at h0 ⊢
        cases post with
        | nil => exact absurd rfl h0
        | cons b post => exact hchild _ hd b (by rw [hsplit]; simp)
  · refine h.links.tree.induction .root (fun c hc hp => ?_) x
    obtain ⟨hd, hkid⟩ := h.links.tree.listed c hc
    -- along the child list of the parent, sibling by sibling
    have hsib : ∀ pre post, kids (s.node c).parent = pre ++ post → ∀ b ∈ post.head?, InTree s b := by
      intro pre
      induction pre using List.reverseRecOn with
      | nil =>
        intro post hsplit b hb
        cases post with
        | nil => cases hb
        | cons b' post =>
          cases hb
          have hf := h.links.first _ hd
          rw [hsplit, List.nil_append, List.headD_cons] at hf
          rw [← hf]
          exact .first hp (by rw [hf]; exact h.ne_zero (hchild _ hd b (by simp [hsplit])))
      | append_singleton pre a ih =>
        intro post hsplit b hb
        rw [List.append_assoc, List.singleton_append] at hsplit
        have ha := ih _ hsplit a rfl
        cases post with
        | nil => cases hb
        | cons b' post =>
          cases hb
          have hl := h.links.linked _ hd
          rw [hsplit, linked_append, linked_cons] at hl
          have hnext : (s.node a).next = b := hl.2.1
          rw [← hnext]
          exact .next ha (by rw [hnext]; exact h.ne_zero (hchild _ hd b (by simp [hsplit])))
    obtain ⟨pre, post, hsplit⟩ := List.append_of_mem hkid
    exact hsib pre _ hsplit c rfl

theorem flatMap_blocksOf (node : Nat → VfsNode) (nodes : List Nat) :
    ((nodes.flatMap (blocksOf node)).map Prod.fst).Perm (nodes ++
      (nodes.filter fun x => !(node x).readonly && (node x).data != 0).map
        fun x => (node x).data) := by
  induction nodes with
  | nil => exact .refl _
  | cons x xs ih =>
    rw [List.flatMap_cons, List.map_append, blocksOf, List.map_cons, List.cons_append,
      List.cons_append]
    refine List.Perm.cons _ ?_
    by_cases hb : (node x).readonly = false ∧ (node x).data ≠ 0
    · rw [buffer_of_data hb.1 hb.2, List.filter_cons_of_pos (by simp [hb.1, hb.2])]
      exact (ih.cons _).trans List.perm_middle.symm
    · rw [buffer, if_neg hb, List.filter_cons_of_neg (by simpa using hb)]
      exact ih

theorem FsInv.wellFormed {s : Fs} {nodes : List Nat} {kids : Nat → List Nat}
    (h : FsInv s nodes kids) : WellFormed s nodes kids := by
  have hlive : (s.heap.live.map Prod.fst).Perm _ :=
    (h.owns.live.map Prod.fst).trans (flatMap_blocksOf s.node nodes)
  refine ⟨h.inTree_iff, h.links.tree.nodup, fun d hd => ?_,
    fun c hc => ⟨(h.links.tree.listed c hc).1, fun d hd => h.links.tree.count_kids hc hd⟩,
    fun d hd => h.links.tree.root_not_kid hd, h.links.tree.reaches_root, h.links.dirs,
    h.links.names, h.links.name_len, fun x hx hr hd => ?_, hlive, h.owns.heap_ok.nodup,
    fun x hx hr => ?_⟩
  · rw [childList, h.links.first d hd]
    refine (h.links.linked d hd).walk_eq (fun c hc => ?_) (h.kids_length hd)
    exact h.ne_zero (List.mem_cons_of_mem _ (h.links.tree.child d hd c hc).1)
  · exact (((h.owns.files x (by simp [hx])).room hr).resolve_left fun hz => hd hz.1).2.2
  · have hout := (h.owns.files x (by simp [hx])).module hr
    refine ⟨fun hmem => hout ?_, fun hmem => hout (h.owns.heap_ok.freed_inside _ hmem)⟩
    obtain ⟨b, hb, heq⟩ := List.mem_map.mp hmem
    have := h.owns.heap_ok.inside b hb
    omega

/-- An operation returns, keeps the invariant, and leaves read-only data alone. -/
theorem exec_spec (pick : Pick) {s : Fs} {nodes : List Nat} {kids : Nat → List Nat} {op : Op}
    (h : FsInv s nodes kids) (hop : op.Ok s) :
    ∃ t nodes' kids', exec pick s op = some t ∧ FsInv t nodes' kids' ∧ Keeps nodes s t := by
  have harg : ∀ {x}, x = 0 ∨ InTree s x → x = 0 ∨ x ∈ s.rootNode :: nodes := fun hx =>
    hx.imp id (h.inTree_iff _).mp
  cases op with
  | create dir name isDir =>
    obtain ⟨t, r, ns, heq, ⟨⟨ks, ht⟩, -, hk⟩, -⟩ :=
      vfsCreate_spec pick name isDir h (harg hop)
    exact ⟨t, ns, ks, by rw [exec, heq]; rfl, ht, hk⟩
  | mkdirs path cwd =>
    obtain ⟨t, r, ns, heq, ⟨⟨ks, ht⟩, -, hk⟩, -⟩ :=
      vfsMkdirs_spec pick path h (harg hop)
    exact ⟨t, ns, ks, by rw [exec, heq]; rfl, ht, hk⟩
  | write file buf off len =>
    obtain ⟨t, r, heq, ht, hk⟩ := vfsWrite_spec pick buf h (harg hop.1) hop.2
    exact ⟨t, nodes, kids, by rw [exec, heq]; rfl, ht, hk⟩
  | truncate file size =>
    obtain ⟨t, r, heq, ht, hk⟩ := vfsTruncate_spec pick h (harg hop.1) hop.2
    exact ⟨t, nodes, kids, by rw [exec, heq]; rfl, ht, hk⟩
  | unlink node =>
    obtain ⟨t, r, ns, ks, heq, ht, hk⟩ := vfsUnlink_spec h (harg (.inr hop))
    exact ⟨t, ns, ks, by rw [exec, heq]; rfl, ht, hk⟩
  | register name address size =>
    obtain ⟨t, ns, heq, ⟨ks, ht⟩, -, hk⟩ :=
      registerModuleFile_spec pick name size h hop
    exact ⟨t, ns, ks, heq, ht, hk⟩

theorem fsInv_start {s : Fs} (h : Start s) : FsInv s [] fun _ => [] := by
  obtain ⟨s₀, rfl, hzero, hpos, hout, hhi, hlive, hfreed⟩ := h
  have hroot : (vfsInit s₀).node s₀.rootNode = { name := [slash], isDir := true } := by
    simp [vfsInit, Fs.setNode, hzero]
  have hmem : ∀ d ∈ s₀.rootNode :: [], (vfsInit s₀).node d = { name := [slash], isDir := true } :=
    fun d hd => by rw [List.mem_singleton.mp hd]; exact hroot
  refine ⟨⟨RootedTree.singleton _ _, fun d hd => ?_, fun _ _ => trivial, ?_, ?_, ?_, ?_, ?_, ?_⟩,
    ⟨⟨?_, ?_, ?_⟩, hhi, hpos, hout, ?_, fun x hx => ?_⟩⟩
  · rw [hmem d hd]; rfl
  · exact fun d hd hne => absurd rfl hne
  · exact fun d hd => .nil
  · simp
  · exact congrArg VfsNode.isDir hroot
  · exact congrArg VfsNode.parent hroot
  · exact congrArg VfsNode.next hroot
  · rw [show (vfsInit s₀).heap.live = [] from hlive]; exact .nil
  · rw [show (vfsInit s₀).heap.live = [] from hlive]; simp
  · rw [show (vfsInit s₀).heap.freed = [] from hfreed]; simp
  · rw [show (vfsInit s₀).heap.live = [] from hlive]; exact .nil
  · rw [hmem x hx]
    exact ⟨fun _ => ⟨rfl, rfl⟩, fun hr => (by cases hr), fun _ => .inl ⟨rfl, rfl, rfl⟩⟩

theorem reachable_fsInv {s : Fs} (h : Reachable s) : ∃ nodes kids, FsInv s nodes kids := by
  refine h.invariant (I := fun s => ∃ nodes kids, FsInv s nodes kids)
    (fun s hs => ⟨_, _, fsInv_start hs⟩) fun s t hs hst => ?_
  obtain ⟨nodes, kids, hinv⟩ := hs
  obtain ⟨pick, op, hop, hexec⟩ := hst
  obtain ⟨t', nodes', kids', hexec', ht', -⟩ := exec_spec pick hinv hop
  rw [hexec] at hexec'
  cases hexec'
  exact ⟨nodes', kids', ht'⟩

/-- Every state of a run is well formed, and the next operation returns (it frees no address
    twice and touches no byte outside the live blocks) and leaves the data of the read-only files
    alone. -/
theorem reachable_tree_wellFormed {s : Fs} (h : Reachable s) : ∃ nodes kids, WellFormed s nodes kids ∧
    ∀ (pick : Pick) (op : Op), op.Ok s → ∃ t, exec pick s op = some t ∧
      ∀ x ∈ nodes, (s.node x).readonly = true → (t.node x).readonly = true ∧
        (t.node x).data = (s.node x).data ∧ (t.node x).size = (s.node x).size := by
  obtain ⟨nodes, kids, hinv⟩ := reachable_fsInv h
  refine ⟨nodes, kids, hinv.wellFormed, fun pick op hop => ?_⟩
  obtain ⟨t, -, -, hexec, -, hk⟩ := exec_spec pick hinv hop
  exact ⟨t, hexec, hk.modules⟩

theorem Reachable.get {s : Fs} (op : Op) (pick : Pick) (h : Reachable s) (hop : op.Ok s)
    (hs : (exec pick s op).isSome) : Reachable ((exec pick s op).get hs) :=
  .step h ⟨pick, op, hop, (Option.some_get hs).symm⟩

/-- The file system right after `vfs_init`, with 64 KiB of heap. -/
def bootFs : Fs := vfsInit ⟨fun _ => {}, fun _ => 0, ⟨0x10000, 0x20000, [], []⟩, 0x1000⟩

theorem start_bootFs : Start bootFs :=
  ⟨_, rfl, rfl, by decide, by decide, by rw [addrSpace_eq]; decide, rfl, rfl⟩

/-- The allocator that puts one block behind the other. -/
def pickNext : Pick := fun a _ => a.lo + 128 * a.live.length

/-- A registered module, then a new file and a write to it. -/
theorem reachable_tree_wellFormed_boot : ∃ s : Fs,
    s.heap.live = [(0x10180, 64), (0x10100, 120), (0x10080, 120), (0x10000, 120)] ∧
    ∃ nodes kids, WellFormed s nodes kids ∧
    ∀ (pick : Pick) (op : Op), op.Ok s → ∃ t, exec pick s op = some t ∧
      ∀ x ∈ nodes, (s.node x).readonly = true → (t.node x).readonly = true ∧
        (t.node x).data = (s.node x).data ∧ (t.node x).size = (s.node x).size := by
  have hroot : ∀ {s : Fs} {x : Nat}, s.rootNode = x → InTree s x := fun h => h ▸ .root
  have hfirst : ∀ {s : Fs} {x : Nat}, (s.node s.rootNode).children = x → x ≠ 0 → InTree s x :=
    fun h h0 => h ▸ .first .root (h ▸ h0)
  have h₁ := Reachable.get (.register [109] 0x800 5) pickNext (.init start_bootFs)
    (by rw [Op.Ok]; decide) (by decide +kernel)
  have h₂ := h₁.get (.create 0x1000 [102] false) pickNext
    (.inr (hroot (by decide +kernel))) (by decide +kernel)
  have h₃ := h₂.get (.write 0x10100 (fun _ => 7) 0 3) pickNext
    ⟨.inr (hfirst (by decide +kernel) (by decide)), by decide⟩ (by decide +kernel)
  exact ⟨_, by decide +kernel, reachable_tree_wellFormed h₃⟩

end ChocoOs.Vfs
