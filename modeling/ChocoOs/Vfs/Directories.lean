import ChocoOs.Vfs.Files

/-!
# Creating and removing nodes

A new node becomes the first child of its directory; a removed one is a leaf that is taken out
of its parent's child list before its memory goes back to the heap.
-/

namespace ChocoOs.Vfs
open ProgLib

/-! ## Looking up a name -/

theorem nameMatches_iff {c : VfsNode} {name : CStr} {len : Nat} (h : len ≤ name.length) :
    nameMatches c name len = true ↔ c.name = name.take len := by
  simp only [nameMatches, Bool.and_eq_true, beq_iff_eq]
  constructor
  · rintro ⟨hlen, htake⟩
    rwa [List.take_of_length_le (Nat.le_of_eq hlen)] at htake
  · intro hname
    have hlen : c.name.length = len := by rw [hname, List.length_take]; omega
    exact ⟨hlen, by rw [List.take_of_length_le (Nat.le_of_eq hlen), hname]⟩

/-- `dir_find` finds the first child of this name. -/
theorem FsInv.dirFind_eq {s : Fs} {nodes : List Nat} {kids : Nat → List Nat} {d len : Nat}
    {name : CStr} (h : FsInv s nodes kids) (hd : d ∈ s.rootNode :: nodes) :
    dirFind s d name len =
      some (((kids d).find? fun c => nameMatches (s.node c) name len).getD 0) := by
  have hl : Linked (fun c => (s.node c).next) ((kids d).map id) 0 := by
    rw [List.map_id]; exact h.links.linked d hd
  have hloop := hl.loop_find (dirFindRound s name len)
    (fun c => nameMatches (s.node c) name len) id 0 (by simp [dirFindRound])
    (fun c hc => ?_) (h.kids_length hd)
  · rw [dirFind, h.links.first d hd]
    simpa using hloop
  · have hc0 : c ≠ 0 := h.ne_zero (List.mem_cons_of_mem _ (h.links.tree.child d hd c hc).1)
    rw [id, dirFindRound, if_neg hc0]

/-- What `dir_find` returns: a child of this name, or null if there is none. -/
theorem FsInv.dirFind_spec {s : Fs} {nodes : List Nat} {kids : Nat → List Nat} {d len : Nat}
    (name : CStr) (h : FsInv s nodes kids) (hd : d ∈ s.rootNode :: nodes)
    (hlen : len ≤ name.length) : ∃ c, dirFind s d name len = some c ∧
      ((c = 0 ∧ ∀ b ∈ kids d, (s.node b).name ≠ name.take len) ∨
        (c ≠ 0 ∧ c ∈ kids d ∧ (s.node c).name = name.take len)) := by
  rw [h.dirFind_eq hd]
  refine ⟨_, rfl, ?_⟩
  cases hfind : (kids d).find? fun c => nameMatches (s.node c) name len with
  | none =>
    refine .inl ⟨rfl, fun b hb hname => ?_⟩
    exact List.find?_eq_none.mp hfind b hb ((nameMatches_iff hlen).mpr hname)
  | some c =>
    have hc := List.mem_of_find?_eq_some hfind
    exact .inr ⟨h.ne_zero (List.mem_cons_of_mem _ (h.links.tree.child d hd c hc).1), hc,
      (nameMatches_iff hlen).mp (by simpa using List.find?_some hfind)⟩

/-! ## Creation -/

/-- The records after a node has been linked in: the new one, its parent, and the others. -/
theorem linkNode_node {s : Fs} {d n : Nat} (name : CStr) (isDir : Bool) (hdn : d ≠ n) :
    (linkNode s d n name isDir).node n =
      { name := name, isDir := isDir, parent := d, next := (s.node d).children } ∧
    (linkNode s d n name isDir).node d = { s.node d with children := n } ∧
    ∀ x, x ≠ n → x ≠ d → (linkNode s d n name isDir).node x = s.node x := by
  refine ⟨?_, ?_, fun x hxn hxd => ?_⟩
  · simp [linkNode, Fs.setNode, Function.update_of_ne hdn.symm]
  · simp [linkNode, Fs.setNode, Function.update_of_ne hdn]
  · simp [linkNode, Fs.setNode, Function.update_of_ne hxn, Function.update_of_ne hxd]

/-- Linking in a new node under a new name keeps the tree. -/
theorem Links.create {s : Fs} {nodes : List Nat} {kids : Nat → List Nat} {d n : Nat}
    {name : CStr} (isDir : Bool) (h : Links s.node s.rootNode nodes kids)
    (hd : d ∈ s.rootNode :: nodes) (hdir : (s.node d).isDir = true)
    (hn : n ∉ s.rootNode :: nodes) (hlen : 0 < name.length ∧ name.length < vfsNameMax)
    (hnew : ∀ b ∈ kids d, (s.node b).name ≠ name) :
    Links (linkNode s d n name isDir).node s.rootNode (n :: nodes)
      (Function.update (Function.update kids d (n :: kids d)) n []) := by
  have hdn : d ≠ n := fun he => hn (he ▸ hd)
  obtain ⟨hnode_n, hnode_d, hnode⟩ := linkNode_node (s := s) name isDir hdn
  set node' := (linkNode s d n name isDir).node
  set kids' := Function.update (Function.update kids d (n :: kids d)) n []
  have hne : ∀ x ∈ s.rootNode :: nodes, x ≠ n := fun x hx he => hn (he ▸ hx)
  have hkid : ∀ x ∈ s.rootNode :: nodes, ∀ c ∈ kids x, c ∈ s.rootNode :: nodes := fun x hx c hc =>
    List.mem_cons_of_mem _ (h.tree.child x hx c hc).1
  -- of the old records only `children` of the directory changes
  have hold : ∀ x ∈ s.rootNode :: nodes, (node' x).name = (s.node x).name ∧
      (node' x).isDir = (s.node x).isDir ∧ (node' x).parent = (s.node x).parent ∧
      (node' x).next = (s.node x).next := by
    intro x hx
    by_cases hxd : x = d
    · subst hxd; rw [hnode_d]; exact ⟨rfl, rfl, rfl, rfl⟩
    · rw [hnode x (hne x hx) hxd]; exact ⟨rfl, rfl, rfl, rfl⟩
  have hkids_n : kids' n = [] := Function.update_self ..
  have hkids_d : kids' d = n :: kids d := by
    simp only [kids', Function.update_of_ne hdn, Function.update_self]
  have hkids : ∀ x ∈ s.rootNode :: nodes, x ≠ d → kids' x = kids x := by
    intro x hx hxd
    simp only [kids', Function.update_of_ne (hne x hx), Function.update_of_ne hxd]
  have hcases : ∀ x ∈ s.rootNode :: n :: nodes,
      x = n ∨ x = d ∨ (x ∈ s.rootNode :: nodes ∧ x ≠ n ∧ x ≠ d) := by
    intro x hx
    by_cases hxn : x = n
    · exact .inl hxn
    · by_cases hxd : x = d
      · exact .inr (.inl hxd)
      · refine .inr (.inr ⟨?_, hxn, hxd⟩)
        simp only [List.mem_cons] at hx ⊢
        tauto
  have hlinked : ∀ x ∈ s.rootNode :: nodes, Linked (fun c => (node' c).next) (kids x) 0 :=
    fun x hx => (h.linked x hx).congr fun c hc => (hold c (hkid x hx c hc)).2.2.2
  have hnames : ∀ x ∈ s.rootNode :: nodes,
      (kids x).Pairwise fun b c => (node' b).name ≠ (node' c).name := by
    intro x hx
    refine (h.names x hx).imp_of_mem fun {b c} hb hc hbc => ?_
    rwa [(hold b (hkid x hx b hb)).1, (hold c (hkid x hx c hc)).1]
  constructor
  · refine h.tree.addLeaf hn hd ?_ fun c hc => (hold c (by simp [hc])).2.2.1
    rw [hnode_n]
  · intro x hx
    rcases hcases x hx with rfl | rfl | ⟨hx, hxn, hxd⟩
    · rw [hnode_n, hkids_n]; rfl
    · rw [hnode_d, hkids_d]; rfl
    · rw [hnode x hxn hxd, hkids x hx hxd]; exact h.first x hx
  · intro x hx
    rcases hcases x hx with rfl | rfl | ⟨hx, hxn, hxd⟩
    · rw [hkids_n]; trivial
    · rw [hkids_d]
      exact ⟨(congrArg VfsNode.next hnode_n).trans (h.first _ hd), hlinked _ hd⟩
    · rw [hkids x hx hxd]; exact hlinked x hx
  · intro x hx hnil
    rcases hcases x hx with rfl | rfl | ⟨hx, hxn, hxd⟩
    · exact absurd hkids_n hnil
    · rw [hnode_d]; exact hdir
    · rw [hkids x hx hxd] at hnil
      rw [hnode x hxn hxd]; exact h.dirs x hx hnil
  · intro x hx
    rcases hcases x hx with rfl | rfl | ⟨hx, hxn, hxd⟩
    · rw [hkids_n]; exact .nil
    · rw [hkids_d]
      refine List.pairwise_cons.mpr ⟨fun b hb => ?_, hnames _ hd⟩
      rw [hnode_n, (hold b (hkid _ hd b hb)).1]
      exact (hnew b hb).symm
    · rw [hkids x hx hxd]; exact hnames x hx
  · intro x hx
    rcases List.mem_cons.mp hx with rfl | hx
    · rw [hnode_n]; exact hlen
    · rw [(hold x (by simp [hx])).1]; exact h.name_len x hx
  · rw [(hold _ (by simp)).2.1]; exact h.root_dir
  · rw [(hold _ (by simp)).2.2.1]; exact h.root_parent
  · rw [(hold _ (by simp)).2.2.2]; exact h.root_next

/-- The heap side of a creation. -/
theorem FsInv.create {s : Fs} {nodes : List Nat} {kids : Nat → List Nat} {d n : Nat}
    {name : CStr} (isDir : Bool) (h : FsInv s nodes kids) (hd : d ∈ s.rootNode :: nodes)
    (hdir : (s.node d).isDir = true) (hn : s.heap.Fits n nodeSize)
    (hlen : 0 < name.length ∧ name.length < vfsNameMax)
    (hnew : ∀ b ∈ kids d, (s.node b).name ≠ name) :
    n ∉ s.rootNode :: nodes ∧
    FsInv (linkNode { s with heap := { s.heap with live := (n, nodeSize) :: s.heap.live } }
      d n name isDir) (n :: nodes)
      (Function.update (Function.update kids d (n :: kids d)) n []) ∧
    Keeps nodes s (linkNode { s with heap := { s.heap with live := (n, nodeSize) :: s.heap.live } }
      d n name isDir) := by
  have hfresh : n ∉ s.rootNode :: nodes := by
    intro hmem
    rcases List.mem_cons.mp hmem with rfl | hmem
    · have := h.owns.root_outside
      have := hn.2.2
      simp only [nodeSize] at this
      omega
    · exact h.owns.heap_ok.fresh (by decide) hn
        (List.mem_map.mpr ⟨_, h.owns.node_mem hmem, rfl⟩)
  have hdn : d ≠ n := fun he => hfresh (he ▸ hd)
  have hne : ∀ x ∈ s.rootNode :: nodes, x ≠ n := fun x hx he => hfresh (he ▸ hx)
  set s₁ : Fs := { s with heap := { s.heap with live := (n, nodeSize) :: s.heap.live } } with hs₁
  obtain ⟨hnode_n, hnode_d, hnode⟩ := linkNode_node (s := s₁) name isDir hdn
  have hlinks : Links s₁.node s₁.rootNode nodes kids := h.links
  have hdata : ∀ x ∈ s.rootNode :: nodes, FileOk s.heap.lo s.heap.hi
      ((linkNode s₁ d n name isDir).node x) ∧
      buffer ((linkNode s₁ d n name isDir).node x) = buffer (s.node x) ∧
      ((s.node x).readonly = true → ((linkNode s₁ d n name isDir).node x).readonly = true ∧
        ((linkNode s₁ d n name isDir).node x).data = (s.node x).data ∧
        ((linkNode s₁ d n name isDir).node x).size = (s.node x).size) := by
    intro x hx
    have hf := h.owns.files x hx
    by_cases hxd : x = d
    · subst hxd
      rw [hnode_d]
      exact ⟨⟨hf.dir, hf.module, hf.room⟩, rfl, fun hr => ⟨hr, rfl, rfl⟩⟩
    · rw [hnode x (hne x hx) hxd]
      exact ⟨hf, rfl, fun hr => ⟨hr, rfl, rfl⟩⟩
  refine ⟨hfresh, ⟨hlinks.create isDir hd hdir hfresh hlen hnew, ?_⟩, ⟨rfl, rfl, rfl,
    fun x hx hr => (hdata x (by simp [hx])).2.2 hr⟩⟩
  refine ⟨h.owns.heap_ok.alloc (by decide) hn, h.owns.hi_le, h.owns.root_pos,
    h.owns.root_outside, ?_, fun x hx => ?_⟩
  · have hrest : nodes.flatMap (blocksOf (linkNode s₁ d n name isDir).node) =
        nodes.flatMap (blocksOf s.node) :=
      List.flatMap_congr fun x hx => by
        rw [blocksOf, blocksOf, (hdata x (by simp [hx])).2.1]
    rw [List.flatMap_cons, hrest, blocksOf, hnode_n, buffer_of_null rfl]
    exact h.owns.live.cons _
  · have hx' : x = n ∨ x ∈ s.rootNode :: nodes := by
      simp only [List.mem_cons] at hx ⊢
      rcases hx with hx | hx | hx
      · exact .inr (.inl hx)
      · exact .inl hx
      · exact .inr (.inr hx)
    rcases hx' with rfl | hx'
    · rw [hnode_n]
      exact ⟨fun _ => ⟨rfl, rfl⟩, fun hr => (by cases hr), fun _ => .inl ⟨rfl, rfl, rfl⟩⟩
    · exact (hdata x hx').1

/-- What a tree operation leads to: a state in the invariant with all the nodes there were. -/
def Grows (nodes : List Nat) (s t : Fs) (nodes' : List Nat) : Prop :=
  (∃ kids, FsInv t nodes' kids) ∧ nodes ⊆ nodes' ∧ Keeps nodes s t

theorem vfsCreate_spec (pick : Pick) {s : Fs} {nodes : List Nat} {kids : Nat → List Nat}
    {d : Nat} (name : CStr) (isDir : Bool) (h : FsInv s nodes kids)
    (hd : d = 0 ∨ d ∈ s.rootNode :: nodes) :
    ∃ t r nodes', vfsCreate pick s d name isDir = some (t, r) ∧ Grows nodes s t nodes' ∧
      (r = 0 ∨ (r ∈ nodes' ∧ (t.node r).isDir = isDir ∧ (t.node r).readonly = false ∧
        (t.node r).data = 0)) := by
  have hstay : Grows nodes s s nodes := ⟨⟨kids, h⟩, List.Subset.refl _, .refl _ _⟩
  by_cases hno : d = 0 ∨ (s.node d).isDir = false
  · exact ⟨s, 0, nodes, by rw [vfsCreate, if_pos hno], hstay, .inl rfl⟩
  by_cases hname : name.length = 0 ∨ vfsNameMax ≤ name.length
  · exact ⟨s, 0, nodes, by rw [vfsCreate, if_neg hno, if_pos hname], hstay, .inl rfl⟩
  have hno' := hno
  simp only [not_or, Bool.not_eq_false] at hno'
  obtain ⟨h0, hdir⟩ := hno'
  have hmem := hd.resolve_left h0
  obtain ⟨c, hfind, hc⟩ := FsInv.dirFind_spec name h hmem (Nat.le_refl _)
  rcases hc with ⟨rfl, hnew⟩ | ⟨hc0, -, -⟩
  · rw [List.take_length] at hnew
    rcases Arena.alloc_cases pick nodeSize s.heap with hfail | ⟨n, hn, halloc⟩
    · refine ⟨s, 0, nodes, ?_, hstay, .inl rfl⟩
      rw [vfsCreate, if_neg hno, if_neg hname, hfind]
      simp [Fs.malloc, hfail]
    · obtain ⟨hfresh, hinv, hkeeps⟩ := h.create isDir hmem hdir hn (by omega) hnew
      have hdn : d ≠ n := fun he => hfresh (he ▸ hmem)
      refine ⟨_, n, n :: nodes, ?_, ⟨⟨_, hinv⟩, List.subset_cons_self _ _, hkeeps⟩, .inr ?_⟩
      · rw [vfsCreate, if_neg hno, if_neg hname, hfind]
        simp [Fs.malloc, halloc, hn.1]
      · rw [(linkNode_node name isDir hdn).1]
        exact ⟨by simp, rfl, rfl, rfl⟩
  · refine ⟨s, 0, nodes, ?_, hstay, .inl rfl⟩
    rw [vfsCreate, if_neg hno, if_neg hname, hfind]
    simp [hc0]

/-! ## Directories along a path -/

theorem skipSlashes_length (p : CStr) : (skipSlashes p).length ≤ p.length :=
  (List.dropWhile_suffix _).length_le

/-- What is left of a path after its first component is shorter. -/
theorem rest_length {p : CStr} (hp : p ≠ []) :
    (skipSlashes (p.drop (p.takeWhile (· != slash)).length)).length < p.length := by
  cases p with
  | nil => exact absurd rfl hp
  | cons c p =>
    by_cases hc : (c != slash) = true
    · have h1 := skipSlashes_length ((c :: p).drop ((c :: p).takeWhile (· != slash)).length)
      rw [List.takeWhile_cons_of_pos (p := (· != slash)) hc] at h1 ⊢
      simp only [List.length_cons, List.drop_succ_cons, List.length_drop] at h1 ⊢
      omega
    · have hs : (c == slash) = true := by simpa using hc
      rw [List.takeWhile_cons_of_neg (p := (· != slash)) hc, List.length_nil, List.drop_zero,
        skipSlashes, List.dropWhile_cons_of_pos (p := (· == slash)) hs]
      have := skipSlashes_length p
      rw [skipSlashes] at this
      simp only [List.length_cons]
      omega

/-- `vfs_mkdirs` returns; its result is null or a node of the tree. -/
theorem vfsMkdirs_spec (pick : Pick) (path : CStr) {s : Fs} {nodes : List Nat}
    {kids : Nat → List Nat} {cwd : Nat} (h : FsInv s nodes kids)
    (hcwd : cwd = 0 ∨ cwd ∈ s.rootNode :: nodes) :
    ∃ t r nodes', vfsMkdirs pick s path cwd = some (t, r) ∧ Grows nodes s t nodes' ∧
      (r = 0 ∨ r ∈ t.rootNode :: nodes') := by
  let I : Fs × Nat × CStr → Prop := fun x =>
    ∃ nodes', Grows nodes s x.1 nodes' ∧ x.2.1 ∈ x.1.rootNode :: nodes'
  let Q : Fs × Nat → Prop := fun x =>
    ∃ nodes', Grows nodes s x.1 nodes' ∧ (x.2 = 0 ∨ x.2 ∈ x.1.rootNode :: nodes')
  suffices hloop : ∃ r, vfsMkdirs pick s path cwd = some r ∧ Q r by
    obtain ⟨⟨t, r⟩, heq, nodes', hg, hr⟩ := hloop
    exact ⟨t, r, nodes', heq, hg, hr⟩
  refine loop_total _ I Q (fun x => x.2.2.length) ?_ _ _ ?_ ?_
  · rintro ⟨t, cur, p⟩ ⟨nodes', hg, hcur⟩
    simp only at hg hcur
    by_cases hp : p = []
    · exact .inl ⟨(t, cur), by rw [mkdirsRound, if_pos hp], nodes', hg, .inr hcur⟩
    have hshort := rest_length hp
    set len := (p.takeWhile (· != slash)).length
    set rest := skipSlashes (p.drop len)
    have hlen : len ≤ p.length := (List.takeWhile_prefix _).length_le
    obtain ⟨⟨kids', h'⟩, hsub, hk⟩ := hg
    have hg : Grows nodes s t nodes' := ⟨⟨kids', h'⟩, hsub, hk⟩
    -- entering a node that is a directory goes on, another one ends the loop
    have henter : ∀ (u : Fs) (nxt : Nat) (ns : List Nat), Grows nodes s u ns → nxt ∈ ns →
        mkdirsRound pick (t, cur, p) = some (enterDir u nxt rest) →
        (∃ r, mkdirsRound pick (t, cur, p) = some (.done r) ∧ Q r) ∨
        ∃ x, mkdirsRound pick (t, cur, p) = some (.next x) ∧ I x ∧ x.2.2.length < p.length := by
      intro u nxt ns hgu hnxt heq
      by_cases hdir : (u.node nxt).isDir = true
      · exact .inr ⟨(u, nxt, rest), by rw [heq, enterDir, if_pos hdir],
          ⟨ns, hgu, List.mem_cons_of_mem _ hnxt⟩, hshort⟩
      · exact .inl ⟨(u, 0), by rw [heq, enterDir, if_neg hdir], ns, hgu, .inl rfl⟩
    by_cases hdot : len = 1 ∧ p[0]? = some dot
    · exact .inr ⟨(t, cur, rest), by simp only [mkdirsRound, if_neg hp]; exact if_pos hdot,
        ⟨nodes', hg, hcur⟩, hshort⟩
    by_cases hdots : len = 2 ∧ p[0]? = some dot ∧ p[1]? = some dot
    · refine .inr ⟨(t, if (t.node cur).parent ≠ 0 then (t.node cur).parent else cur, rest), ?_,
        ⟨nodes', hg, ?_⟩, hshort⟩
      · simp only [mkdirsRound, if_neg hp]
        rw [if_neg hdot, if_pos hdots]
      · simp only
        split
        · next hpar =>
          rcases List.mem_cons.mp hcur with rfl | hcur
          · exact absurd h'.links.root_parent hpar
          · exact (h'.links.tree.listed cur hcur).1
        · exact hcur
    have hround : mkdirsRound pick (t, cur, p) = (dirFind t cur p len).bind fun nxt =>
        if nxt ≠ 0 then some (enterDir t nxt rest)
        else if vfsNameMax ≤ len then some (.done (t, 0))
        else (vfsCreate pick t cur (p.take len) true).bind fun r =>
          if r.2 = 0 then some (.done (r.1, 0)) else some (enterDir r.1 r.2 rest) := by
      simp only [mkdirsRound, if_neg hp]
      rw [if_neg hdot, if_neg hdots]
      rfl
    obtain ⟨c, hfind, hc⟩ := FsInv.dirFind_spec p h' hcur hlen
    rw [hfind, Option.bind_some] at hround
    by_cases hc0 : c = 0
    · rw [if_neg (by simp [hc0])] at hround
      by_cases hlong : vfsNameMax ≤ len
      · rw [if_pos hlong] at hround
        exact .inl ⟨(t, 0), hround, nodes', hg, .inl rfl⟩
      · obtain ⟨u, n, ns, hcreate, ⟨hu, hsubu, hku⟩, hn⟩ :=
          vfsCreate_spec pick (p.take len) true h' (.inr hcur)
        have hgu : Grows nodes s u ns := ⟨hu, List.Subset.trans hsub hsubu, hk.trans hsub hku⟩
        rw [if_neg hlong, hcreate, Option.bind_some] at hround
        by_cases hn0 : n = 0
        · exact .inl ⟨(u, 0), by rw [hround, if_pos hn0], ns, hgu, .inl rfl⟩
        · exact henter u n ns hgu (hn.resolve_left hn0).1 (by rw [hround, if_neg hn0])
    · obtain ⟨-, hkid, -⟩ := hc.resolve_left fun hz => hc0 hz.1
      rw [if_pos hc0] at hround
      exact henter t c nodes' hg (h'.links.tree.child cur hcur c hkid).1 hround
  · refine ⟨nodes, ⟨⟨kids, h⟩, List.Subset.refl _, .refl _ _⟩, ?_⟩
    simp only
    split
    · simp
    · split
      · next hc => exact hcwd.resolve_left hc
      · simp
  · have := skipSlashes_length path
    simp only
    omega

/-- A registered module: a file that owns no memory. -/
theorem registerModuleFile_spec (pick : Pick) {s : Fs} {nodes : List Nat}
    {kids : Nat → List Nat} (name : CStr) {address : Nat} (size : Nat) (h : FsInv s nodes kids)
    (hout : ¬ (s.heap.lo ≤ address ∧ address < s.heap.hi)) :
    ∃ t nodes', registerModuleFile pick s name address size = some t ∧
      Grows nodes s t nodes' := by
  obtain ⟨s₁, d, ns, hmk, ⟨⟨kids₁, h₁⟩, hsub₁, hk₁⟩, hd⟩ :=
    vfsMkdirs_spec pick modelsPath h (.inr (List.mem_cons_self ..))
  by_cases hd0 : d = 0
  · exact ⟨s₁, ns, by simp [registerModuleFile, hmk, hd0], ⟨_, h₁⟩, hsub₁, hk₁⟩
  obtain ⟨s₂, f, ns₂, hcr, ⟨⟨kids₂, h₂⟩, hsub₂, hk₂⟩, hf⟩ :=
    vfsCreate_spec pick name false h₁ (.inr (hd.resolve_left hd0))
  have hk := hk₁.trans hsub₁ hk₂
  by_cases hf0 : f = 0
  · exact ⟨s₂, ns₂, by simp [registerModuleFile, hmk, hd0, hcr, hf0], ⟨_, h₂⟩,
      List.Subset.trans hsub₁ hsub₂, hk⟩
  obtain ⟨hmem, hdir, hr, hdata⟩ := hf.resolve_left hf0
  let n : VfsNode :=
    { s₂.node f with readonly := true, data := address, size := size, cap := 0 }
  have hset := h₂.setFile (f := n) s₂.mem hmem ⟨rfl, rfl, rfl, rfl, rfl⟩ ?_
    h₂.owns.heap_ok rfl rfl fun rest hrest => ?_
  · refine ⟨_, ns₂, ?_, ⟨_, hset⟩, List.Subset.trans hsub₁ hsub₂,
      hk.trans (List.Subset.trans hsub₁ hsub₂) (keeps_setFile hr rfl rfl)⟩
    simp [registerModuleFile, hmk, hd0, hcr, hf0, Fs.setNode, n]
  · refine ⟨fun hd => ?_, fun _ => ?_, fun hr' => by cases hr'⟩
    · rw [show n.isDir = (s₂.node f).isDir from rfl, hdir] at hd; cases hd
    · change ¬ (s₂.heap.lo ≤ address ∧ address < s₂.heap.hi)
      rw [hk.lo, hk.hi]
      exact hout
  · rw [buffer_of_readonly (n := n) rfl]
    rwa [buffer_of_null hdata] at hrest

end ChocoOs.Vfs
