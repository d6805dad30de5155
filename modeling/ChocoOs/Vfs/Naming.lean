import ChocoOs.Vfs.Contents
import ChocoOs.Vfs.Paths

/-!
# What a creation changes, and what a write does not

`vfs_create` adds one name to one directory. Every path that led somewhere before leads to the
same node afterwards, and no file changes. A write changes a file, and no path.
-/

namespace ChocoOs.Vfs
open ProgLib

/-- `t` is `s` with the new node `n` of this name in the directory `d`. -/
structure Created (s t : Fs) (nodes : List Nat) (kids kids' : Nat → List Nat) (d n : Nat)
    (name : CStr) (isDir : Bool) : Prop where
  inv : FsInv t (n :: nodes) kids'
  fresh : n ∉ s.rootNode :: nodes
  rootNode : t.rootNode = s.rootNode
  mem : t.mem = s.mem
  heap : t.heap = { s.heap with live := (n, nodeSize) :: s.heap.live }
  new : t.node n = { name := name, isDir := isDir, parent := d, next := (s.node d).children }
  parent : t.node d = { s.node d with children := n }
  old : ∀ x, x ≠ n → x ≠ d → t.node x = s.node x
  kids_eq : kids' = Function.update (Function.update kids d (n :: kids d)) n []

/-- `vfs_create` with a proper directory and name: it fails and changes nothing if the name is
    taken or the heap refuses the node, and otherwise adds the node. -/
theorem FsInv.vfsCreate_eq (pick : Pick) {s : Fs} {nodes : List Nat} {kids : Nat → List Nat}
    {d : Nat} {name : CStr} (isDir : Bool) (h : FsInv s nodes kids)
    (hd : d ∈ s.rootNode :: nodes) (hdir : (s.node d).isDir = true)
    (hlen : 0 < name.length ∧ name.length < vfsNameMax) :
    (((∃ c ∈ kids d, (s.node c).name = name) ∨ ¬ s.heap.Fits (pick s.heap nodeSize) nodeSize) ∧
      vfsCreate pick s d name isDir = some (s, 0)) ∨
    ((∀ c ∈ kids d, (s.node c).name ≠ name) ∧ s.heap.Fits (pick s.heap nodeSize) nodeSize ∧
      ∃ t kids', vfsCreate pick s d name isDir = some (t, pick s.heap nodeSize) ∧
        Created s t nodes kids kids' d (pick s.heap nodeSize) name isDir) := by
  have hd0 : d ≠ 0 := h.ne_zero hd
  have hgo : vfsCreate pick s d name isDir = (dirFind s d name name.length).bind fun c =>
      if c ≠ 0 then some (s, 0)
      else if (s.malloc pick nodeSize).1 = 0 then some ((s.malloc pick nodeSize).2, 0)
      else some (linkNode (s.malloc pick nodeSize).2 d (s.malloc pick nodeSize).1 name isDir,
        (s.malloc pick nodeSize).1) := by
    rw [vfsCreate, if_neg (by simp [hd0, hdir]), if_neg (by omega)]
    rfl
  obtain ⟨c, hfind, hc⟩ := h.dirFind_spec name hd (Nat.le_refl _)
  rw [List.take_length] at hc
  rw [hgo, hfind, Option.bind_some]
  rcases hc with ⟨rfl, hnew⟩ | ⟨hc0, hmem, hname⟩
  · rw [if_neg (by simp)]
    by_cases hfits : s.heap.Fits (pick s.heap nodeSize) nodeSize
    · refine .inr ⟨hnew, hfits, ?_⟩
      have hmalloc : s.malloc pick nodeSize = (pick s.heap nodeSize,
          { s with heap :=
            { s.heap with live := (pick s.heap nodeSize, nodeSize) :: s.heap.live } }) := by
        rw [Fs.malloc, Arena.alloc, if_pos hfits]
      obtain ⟨hfresh, hinv, -⟩ := h.create isDir hd hdir hfits hlen hnew
      have hdn : d ≠ pick s.heap nodeSize := fun he => hfresh (he ▸ hd)
      rw [hmalloc, if_neg hfits.1]
      obtain ⟨hnode_n, hnode_d, hnode⟩ := linkNode_node (s := { s with heap :=
        { s.heap with live := (pick s.heap nodeSize, nodeSize) :: s.heap.live } }) name isDir hdn
      exact ⟨_, _, rfl, hinv, hfresh, rfl, rfl, rfl, hnode_n, hnode_d, hnode, rfl⟩
    · refine .inl ⟨.inr hfits, ?_⟩
      have hmalloc : s.malloc pick nodeSize = (0, s) := by
        rw [Fs.malloc, Arena.alloc, if_neg hfits]
      rw [hmalloc, if_pos rfl]
  · refine .inl ⟨.inl ⟨c, hmem, hname⟩, ?_⟩
    rw [if_pos hc0]

namespace Created

variable {s t : Fs} {nodes : List Nat} {kids kids' : Nat → List Nat} {d n : Nat} {name : CStr}
  {isDir : Bool}

theorem ne_new (h : Created s t nodes kids kids' d n name isDir) {x : Nat}
    (hx : x ∈ s.rootNode :: nodes) : x ≠ n :=
  fun he => h.fresh (he ▸ hx)

/-- Of an old node nothing changes but its first child. -/
theorem old_node (h : Created s t nodes kids kids' d n name isDir) {x : Nat}
    (hx : x ∈ s.rootNode :: nodes) : ∃ c, t.node x = { s.node x with children := c } := by
  by_cases hxd : x = d
  · subst hxd
    exact ⟨n, h.parent⟩
  · exact ⟨(s.node x).children, h.old x (h.ne_new hx) hxd⟩

theorem isDirAt_old (h : Created s t nodes kids kids' d n name isDir) {x : Nat}
    (hx : x ∈ s.rootNode :: nodes) : isDirAt t x = isDirAt s x := by
  obtain ⟨c, hc⟩ := h.old_node hx
  rw [isDirAt, hc, isDirAt]

theorem contents_old (h : Created s t nodes kids kids' d n name isDir) {x : Nat}
    (hx : x ∈ s.rootNode :: nodes) : contents t x = contents s x := by
  obtain ⟨c, hc⟩ := h.old_node hx
  rw [contents, contents, hc, h.mem]

theorem kids_old (h : Created s t nodes kids kids' d n name isDir) {x : Nat}
    (hx : x ∈ s.rootNode :: nodes) (hxd : x ≠ d) : kids' x = kids x := by
  rw [h.kids_eq, Function.update_of_ne (h.ne_new hx), Function.update_of_ne hxd]

theorem kids_parent (h : Created s t nodes kids kids' d n name isDir)
    (hd : d ∈ s.rootNode :: nodes) : kids' d = n :: kids d := by
  rw [h.kids_eq, Function.update_of_ne (h.ne_new hd), Function.update_self]

/-- The new name leads to the new node, and every other component to where it led before. -/
theorem stepTo_old (h : Created s t nodes kids kids' d n name isDir) (hs : FsInv s nodes kids)
    (hd : d ∈ s.rootNode :: nodes) {x : Nat} (hx : x ∈ s.rootNode :: nodes) (c : CStr) :
    stepTo t kids' x c =
      if x = d ∧ c = name ∧ c ≠ [dot] ∧ c ≠ [dot, dot] then some n else stepTo s kids x c := by
  obtain ⟨ch, hnode⟩ := h.old_node hx
  have hfind : ∀ l : List Nat, (∀ y ∈ l, y ∈ s.rootNode :: nodes) →
      (l.find? fun y => (t.node y).name == c) = l.find? fun y => (s.node y).name == c := by
    intro l
    induction l with
    | nil => exact fun _ => rfl
    | cons y l ih =>
      intro hl
      obtain ⟨ch', hy⟩ := h.old_node (hl y (by simp))
      rw [List.find?_cons, List.find?_cons, hy, ih fun z hz => hl z (by simp [hz])]
  have hkids : ∀ y ∈ kids x, y ∈ s.rootNode :: nodes := fun y hy =>
    List.mem_cons_of_mem _ (hs.links.tree.child x hx y hy).1
  by_cases hdot : c = [dot]
  · have hno : ¬ (x = d ∧ c = name ∧ c ≠ [dot] ∧ c ≠ [dot, dot]) := fun hc => hc.2.2.1 hdot
    rw [if_neg hno, stepTo, stepTo, if_pos hdot, if_pos hdot]
  by_cases hdots : c = [dot, dot]
  · have hno : ¬ (x = d ∧ c = name ∧ c ≠ [dot] ∧ c ≠ [dot, dot]) := fun hc => hc.2.2.2 hdots
    rw [if_neg hno, stepTo, stepTo, if_neg hdot, if_neg hdot, if_pos hdots, if_pos hdots, hnode]
  rw [stepTo, stepTo, if_neg hdot, if_neg hdot, if_neg hdots, if_neg hdots]
  by_cases hxd : x = d
  · subst hxd
    rw [h.kids_parent hx]
    by_cases hname : c = name
    · rw [if_pos ⟨rfl, hname, hdot, hdots⟩, List.find?_cons_of_pos]
      rw [h.new, hname]
      exact beq_self_eq_true name
    · rw [if_neg (by simp [hname]), List.find?_cons_of_neg, hfind _ hkids]
      rw [h.new]
      simpa using Ne.symm hname
  · rw [if_neg (by simp [hxd]), h.kids_old hx hxd, hfind _ hkids]

/-- What an old node led to it leads to still. -/
theorem stepTo_mono (h : Created s t nodes kids kids' d n name isDir) (hs : FsInv s nodes kids)
    (hd : d ∈ s.rootNode :: nodes) (hnew : ∀ c ∈ kids d, (s.node c).name ≠ name) :
    ∀ x c m, x ∈ s.rootNode :: nodes → stepTo s kids x c = some m →
      stepTo t kids' x c = some m := by
  intro x c m hx hm
  rw [h.stepTo_old hs hd hx]
  split
  · next hc =>
    -- the name was not taken
    obtain ⟨rfl, rfl, hdot, hdots⟩ := hc
    rw [stepTo, if_neg hdot, if_neg hdots] at hm
    have hname : (s.node m).name = c := by simpa using List.find?_some hm
    exact absurd hname (hnew m (List.mem_of_find?_eq_some hm))
  · exact hm

end Created

/-! ## Directories along a path -/

/-- `t` is `s` with more directories: the nodes of `s` keep their names, parents and data, and
    paths lead where they led. -/
structure Extends (s t : Fs) (nodes nodes' : List Nat) (kids kids' : Nat → List Nat) : Prop where
  inv : FsInv t nodes' kids'
  sub : nodes ⊆ nodes'
  rootNode : t.rootNode = s.rootNode
  mem : t.mem = s.mem
  old : ∀ x ∈ s.rootNode :: nodes, ∃ c, t.node x = { s.node x with children := c }
  step : ∀ x c m, x ∈ s.rootNode :: nodes → stepTo s kids x c = some m →
    stepTo t kids' x c = some m

namespace Extends

variable {s t u : Fs} {nodes nodes' nodes'' : List Nat} {kids kids' kids'' : Nat → List Nat}

theorem refl (h : FsInv s nodes kids) : Extends s s nodes nodes kids kids :=
  ⟨h, List.Subset.refl _, rfl, rfl, fun _ _ => ⟨_, rfl⟩, fun _ _ _ _ hm => hm⟩

theorem mem_tree (h : Extends s t nodes nodes' kids kids') {x : Nat}
    (hx : x ∈ s.rootNode :: nodes) : x ∈ t.rootNode :: nodes' := by
  rw [h.rootNode]
  rcases List.mem_cons.mp hx with rfl | hx
  · simp
  · exact List.mem_cons_of_mem _ (h.sub hx)

theorem trans (h : Extends s t nodes nodes' kids kids')
    (h' : Extends t u nodes' nodes'' kids' kids'') : Extends s u nodes nodes'' kids kids'' := by
  refine ⟨h'.inv, List.Subset.trans h.sub h'.sub, h'.rootNode.trans h.rootNode,
    h'.mem.trans h.mem, fun x hx => ?_, fun x c m hx hm =>
      h'.step x c m (h.mem_tree hx) (h.step x c m hx hm)⟩
  obtain ⟨c, hc⟩ := h.old x hx
  obtain ⟨c', hc'⟩ := h'.old x (h.mem_tree hx)
  exact ⟨c', by rw [hc', hc]⟩

theorem isDirAt_eq (h : Extends s t nodes nodes' kids kids') {x : Nat}
    (hx : x ∈ s.rootNode :: nodes) : isDirAt t x = isDirAt s x := by
  obtain ⟨c, hc⟩ := h.old x hx
  rw [isDirAt, hc, isDirAt]

theorem contents_eq (h : Extends s t nodes nodes' kids kids') {x : Nat}
    (hx : x ∈ s.rootNode :: nodes) : contents t x = contents s x := by
  obtain ⟨c, hc⟩ := h.old x hx
  rw [contents, contents, hc, h.mem]

end Extends

theorem Created.extends {s t : Fs} {nodes : List Nat} {kids kids' : Nat → List Nat} {d n : Nat}
    {name : CStr} {isDir : Bool} (h : Created s t nodes kids kids' d n name isDir)
    (hs : FsInv s nodes kids) (hd : d ∈ s.rootNode :: nodes)
    (hnew : ∀ c ∈ kids d, (s.node c).name ≠ name) : Extends s t nodes (n :: nodes) kids kids' :=
  ⟨h.inv, List.subset_cons_self _ _, h.rootNode, h.mem, fun _ hx => h.old_node hx,
    h.stepTo_mono hs hd hnew⟩

theorem stepTo_none {s : Fs} {kids : Nat → List Nat} {d : Nat} {c : CStr}
    (h : stepTo s kids d c = none) : c ≠ [dot] ∧ c ≠ [dot, dot] := by
  constructor <;> intro hc <;> simp [stepTo, hc] at h

/-- `.` and `..` lead from a directory to a directory. -/
theorem FsInv.isDirAt_dots {s : Fs} {nodes : List Nat} {kids : Nat → List Nat} {d m : Nat}
    {c : CStr} (h : FsInv s nodes kids) (hd : d ∈ s.rootNode :: nodes)
    (hdir : isDirAt s d = true) (hc : c = [dot] ∨ c = [dot, dot])
    (hm : stepTo s kids d c = some m) : isDirAt s m = true := by
  unfold stepTo at hm
  split at hm
  · cases hm; exact hdir
  · next hdot =>
    rw [if_pos (hc.resolve_left hdot)] at hm
    split at hm
    · next hp =>
      cases hm
      rcases List.mem_cons.mp hd with rfl | hd
      · exact absurd h.links.root_parent hp
      · obtain ⟨hpar, hkid⟩ := h.links.tree.listed d hd
        exact h.links.dirs _ hpar (List.ne_nil_of_mem hkid)
    · cases hm; exact hdir

/-- What a round of `vfs_mkdirs` does at a directory: it goes on to a directory, stops at a file,
    stops at a name that is too long or gets no memory, or creates a directory and goes on to it. -/
theorem FsInv.mkdirsRound_cases (pick : Pick) {s : Fs} {nodes : List Nat}
    {kids : Nat → List Nat} {cur : Nat} {start c rest : CStr} (h : FsInv s nodes kids)
    (hcur : cur ∈ s.rootNode :: nodes) (hdir : isDirAt s cur = true)
    (hscan : Scan start c rest) (hne : start ≠ []) (hc0 : c ≠ []) :
    (∃ m, stepTo s kids cur c = some m ∧ isDirAt s m = true ∧
      mkdirsRound pick (s, cur, start) = some (.next (s, m, rest))) ∨
    (∃ m, stepTo s kids cur c = some m ∧ isDirAt s m = false ∧
      mkdirsRound pick (s, cur, start) = some (.done (s, 0))) ∨
    (stepTo s kids cur c = none ∧
      (vfsNameMax ≤ c.length ∨ ¬ s.heap.Fits (pick s.heap nodeSize) nodeSize) ∧
      mkdirsRound pick (s, cur, start) = some (.done (s, 0))) ∨
    (stepTo s kids cur c = none ∧ c.length < vfsNameMax ∧
      (∀ b ∈ kids cur, (s.node b).name ≠ c) ∧ s.heap.Fits (pick s.heap nodeSize) nodeSize ∧
      ∃ t kids', vfsCreate pick s cur c true = some (t, pick s.heap nodeSize) ∧
        Created s t nodes kids kids' cur (pick s.heap nodeSize) c true ∧
        mkdirsRound pick (s, cur, start) = some (.next (t, pick s.heap nodeSize, rest))) := by
  have hlen : c.length ≤ start.length := by
    have := congrArg List.length hscan.take
    rw [List.length_take] at this
    omega
  have hround : mkdirsRound pick (s, cur, start) =
      if c.length = 1 ∧ start[0]? = some dot then some (.next (s, cur, rest))
      else if c.length = 2 ∧ start[0]? = some dot ∧ start[1]? = some dot then
        some (.next (s, if (s.node cur).parent ≠ 0 then (s.node cur).parent else cur, rest))
      else (dirFind s cur start c.length).bind fun nxt =>
        if nxt ≠ 0 then some (enterDir s nxt rest)
        else if vfsNameMax ≤ c.length then some (.done (s, 0))
        else (vfsCreate pick s cur c true).bind fun r =>
          if r.2 = 0 then some (.done (r.1, 0)) else some (enterDir r.1 r.2 rest) := by
    simp only [mkdirsRound, if_neg hne, hscan.first, hscan.behind, hscan.take]
    rfl
  have hone := isDot_iff hlen
  have htwo := isDots_iff hlen
  rw [hscan.take] at hone htwo
  by_cases hdot : c = [dot]
  · refine .inl ⟨cur, by rw [stepTo, if_pos hdot], hdir, ?_⟩
    rw [hround, if_pos (hone.mpr hdot)]
  rw [if_neg (mt hone.mp hdot)] at hround
  by_cases hdots : c = [dot, dot]
  · have hm : stepTo s kids cur c =
        some (if (s.node cur).parent ≠ 0 then (s.node cur).parent else cur) := by
      rw [stepTo, if_neg hdot, if_pos hdots]
    refine .inl ⟨_, hm, h.isDirAt_dots hcur hdir (.inr hdots) hm, ?_⟩
    rw [hround, if_pos (htwo.mpr hdots)]
  rw [if_neg (mt htwo.mp hdots)] at hround
  obtain ⟨m, hfind, hm⟩ := h.dirFind_spec start hcur hlen
  rw [hscan.take] at hm
  rw [hfind, Option.bind_some] at hround
  rcases hm with ⟨rfl, hnew⟩ | ⟨hm0, hkid, hname⟩
  · have hnone : stepTo s kids cur c = none := by
      rw [stepTo, if_neg hdot, if_neg hdots]
      exact List.find?_eq_none.mpr fun x hx => by simpa using hnew x hx
    rw [if_neg (by simp)] at hround
    by_cases hlong : vfsNameMax ≤ c.length
    · exact .inr (.inr (.inl ⟨hnone, .inl hlong, by rw [hround, if_pos hlong]⟩))
    rw [if_neg hlong] at hround
    rcases h.vfsCreate_eq pick true hcur hdir
        ⟨List.length_pos_of_ne_nil hc0, Nat.lt_of_not_le hlong⟩ with
      ⟨hwhy, hcreate⟩ | ⟨-, hfits, t, kids', hcreate, hcreated⟩
    · have hfits := hwhy.resolve_left (by rintro ⟨b, hb, hbn⟩; exact hnew b hb hbn)
      refine .inr (.inr (.inl ⟨hnone, .inr hfits, ?_⟩))
      rw [hround, hcreate, Option.bind_some, if_pos rfl]
    · refine .inr (.inr (.inr ⟨hnone, Nat.lt_of_not_le hlong, hnew, hfits, t, kids', hcreate,
        hcreated, ?_⟩))
      rw [hround, hcreate, Option.bind_some, if_neg hfits.1, enterDir,
        if_pos (by rw [hcreated.new])]
  · have hsome : stepTo s kids cur c = some m := by
      rw [stepTo, if_neg hdot, if_neg hdots]
      cases hf : (kids cur).find? fun x => (s.node x).name == c with
      | none => simpa [hname] using List.find?_eq_none.mp hf m hkid
      | some b =>
        have hb : (s.node b).name = c := by simpa using List.find?_some hf
        rw [h.links.name_inj hcur (List.mem_of_find?_eq_some hf) hkid (hb.trans hname.symm)]
    rw [if_pos hm0] at hround
    by_cases hmdir : isDirAt s m = true
    · exact .inl ⟨m, hsome, hmdir, hround.trans (congrArg some (if_pos hmdir))⟩
    · exact .inr (.inl ⟨m, hsome, (Bool.not_eq_true _).mp hmdir,
        hround.trans (congrArg some (if_neg hmdir))⟩)

/-! ## The same tree with other contents -/

/-- Two states with the same tree, whose files may hold different bytes. -/
structure SameTree (s t : Fs) (nodes : List Nat) (kids : Nat → List Nat) : Prop where
  inv : FsInv t nodes kids
  rootNode : t.rootNode = s.rootNode
  links : ∀ x, SameLinks (t.node x) (s.node x)
  readonly : ∀ x, (t.node x).readonly = (s.node x).readonly

theorem SameTree.refl {s : Fs} {nodes : List Nat} {kids : Nat → List Nat}
    (h : FsInv s nodes kids) : SameTree s s nodes kids :=
  ⟨h, rfl, fun _ => ⟨rfl, rfl, rfl, rfl, rfl⟩, fun _ => rfl⟩

theorem SameTree.trans {s t u : Fs} {nodes : List Nat} {kids : Nat → List Nat}
    (h : SameTree s t nodes kids) (h' : SameTree t u nodes kids) : SameTree s u nodes kids := by
  refine ⟨h'.inv, h'.rootNode.trans h.rootNode, fun x => ?_,
    fun x => (h'.readonly x).trans (h.readonly x)⟩
  obtain ⟨h₁, h₂, h₃, h₄, h₅⟩ := h.links x
  obtain ⟨h₁', h₂', h₃', h₄', h₅'⟩ := h'.links x
  exact ⟨h₁'.trans h₁, h₂'.trans h₂, h₃'.trans h₃, h₄'.trans h₄, h₅'.trans h₅⟩

theorem SameTree.of_update {s t : Fs} {nodes : List Nat} {kids : Nat → List Nat} {file : Nat}
    {f : VfsNode} (hinv : FsInv t nodes kids) (hroot : t.rootNode = s.rootNode)
    (hnode : t.node = Function.update s.node file f) (hlinks : SameLinks f (s.node file))
    (hr : f.readonly = (s.node file).readonly) : SameTree s t nodes kids := by
  refine ⟨hinv, hroot, fun x => ?_, fun x => ?_⟩
  · by_cases hx : x = file
    · subst hx; rw [hnode, Function.update_self]; exact hlinks
    · rw [hnode, Function.update_of_ne hx]; exact ⟨rfl, rfl, rfl, rfl, rfl⟩
  · by_cases hx : x = file
    · subst hx; rw [hnode, Function.update_self]; exact hr
    · rw [hnode, Function.update_of_ne hx]

theorem SameTree.stepTo_eq {s t : Fs} {nodes : List Nat} {kids : Nat → List Nat}
    (h : SameTree s t nodes kids) : stepTo t kids = stepTo s kids := by
  funext d c
  unfold stepTo
  rw [(h.links d).2.2.1]
  congr
  funext x
  rw [(h.links x).1]

theorem SameTree.isDirAt_eq {s t : Fs} {nodes : List Nat} {kids : Nat → List Nat}
    (h : SameTree s t nodes kids) : isDirAt t = isDirAt s :=
  funext fun x => (h.links x).2.1

theorem SameTree.startDir_eq {s t : Fs} {nodes : List Nat} {kids : Nat → List Nat}
    (h : SameTree s t nodes kids) (path : CStr) (cwd : Nat) :
    startDir t path cwd = startDir s path cwd := by
  rw [startDir, startDir, h.rootNode]

theorem SameTree.vfsResolve_eq {s t : Fs} {nodes : List Nat} {kids : Nat → List Nat}
    (h : SameTree s t nodes kids) (hs : FsInv s nodes kids) {path : CStr} {cwd : Nat}
    (hstart : startDir s path cwd ∈ s.rootNode :: nodes) :
    vfsResolve t path cwd = vfsResolve s path cwd := by
  have hstart' : startDir t path cwd ∈ t.rootNode :: nodes := by
    rw [h.startDir_eq, h.rootNode]
    exact hstart
  rw [h.inv.vfsResolve_eq hstart', hs.vfsResolve_eq hstart, h.stepTo_eq, h.isDirAt_eq,
    h.startDir_eq]

end ChocoOs.Vfs
