import ChocoOs.Vfs.Naming
import ChocoOs.Vfs.NodePath

/-!
# The file system as a map from paths to entries

`Tree` says what a file system is for: some paths are directories, some are files with contents.
`Represents` connects it with the nodes in memory, and the operations of `vfs.c` become additions
to the map, as long as the heap grants the blocks they need.
-/

namespace ChocoOs.Vfs
open ProgLib

/-- What is found at a path. -/
inductive Entry where
  | dir
  | file (bytes : List UInt8)
  deriving DecidableEq

/-- The entries by path (the root has none), the newest first. -/
abbrev Tree := List (List CStr × Entry)

/-- A component that names a child. -/
def PlainName (c : CStr) : Prop :=
  c ≠ [] ∧ slash ∉ c ∧ c ≠ [dot] ∧ c ≠ [dot, dot]

/-- The blocks that the heap has to grant for a new entry. -/
def entryBlocks : Entry → List Nat
  | .dir => [nodeSize]
  | .file bytes => nodeSize :: if bytes = [] then [] else (growCap 0 bytes.length).toList

/-- The blocks for all entries, in the order in which they are asked for. -/
def treeBlocks (T : Tree) : List Nat := T.reverse.flatMap fun p => entryBlocks p.2

/-- The directories along `cs` below the path `w` are added where they are missing. -/
def addDirs : Tree → List CStr → List CStr → Tree
  | T, _, [] => T
  | T, w, c :: cs =>
    addDirs (if T.lookup (w ++ [c]) = none then (w ++ [c], .dir) :: T else T) (w ++ [c]) cs

theorem treeBlocks_cons (p : List CStr × Entry) (T : Tree) :
    treeBlocks (p :: T) = treeBlocks T ++ entryBlocks p.2 := by
  simp [treeBlocks]

theorem treeBlocks_addDirs (T : Tree) (w cs : List CStr) :
    treeBlocks T <+: treeBlocks (addDirs T w cs) := by
  induction cs generalizing T w with
  | nil => exact List.prefix_rfl
  | cons c cs ih =>
    unfold addDirs
    refine List.IsPrefix.trans ?_ (ih _ _)
    split
    · rw [treeBlocks_cons]
      exact List.prefix_append ..
    · exact List.prefix_rfl

theorem lookup_cons_self (q : List CStr) (e : Entry) (T : Tree) :
    List.lookup q ((q, e) :: T) = some e := by
  rw [List.lookup_cons, beq_self_eq_true]

theorem lookup_cons_of_ne {q p : List CStr} (h : q ≠ p) (e : Entry) (T : Tree) :
    List.lookup q ((p, e) :: T) = T.lookup q := by
  rw [List.lookup_cons, beq_false_of_ne h]

/-- The entries after the directories were added. -/
theorem lookup_addDirs (T : Tree) (w cs q : List CStr) :
    ((addDirs T w cs).lookup q = T.lookup q ∧
      (T.lookup q = none → ∀ p, p ≠ [] → p <+: cs → q ≠ w ++ p)) ∨
    (T.lookup q = none ∧ (addDirs T w cs).lookup q = some .dir ∧
      ∃ p, p ≠ [] ∧ p <+: cs ∧ q = w ++ p) := by
  induction cs generalizing T w with
  | nil => exact .inl ⟨rfl, fun _ p hp hpre => absurd (List.prefix_nil.mp hpre) hp⟩
  | cons c cs ih =>
    have hext : ∀ p, p <+: cs → c :: p <+: c :: cs := fun p hp => (List.prefix_cons_inj c).mpr hp
    unfold addDirs
    by_cases hq : q = w ++ [c]
    · -- the first directory on the way
      subst hq
      have hno : ∀ p, p ≠ [] → p <+: cs → w ++ [c] ≠ (w ++ [c]) ++ p := fun p hp _ he =>
        hp (List.self_eq_append_right.mp he)
      cases hT : T.lookup (w ++ [c]) with
      | none =>
        rw [if_pos rfl]
        rcases ih ((w ++ [c], .dir) :: T) (w ++ [c]) with ⟨h, -⟩ | ⟨-, -, p, hp, hpre, he⟩
        · rw [lookup_cons_self] at h
          exact .inr ⟨rfl, h, [c], by simp, hext [] (List.nil_prefix), rfl⟩
        · exact absurd he (hno p hp hpre)
      | some e =>
        rw [if_neg (by simp)]
        rcases ih T (w ++ [c]) with ⟨h, -⟩ | ⟨-, -, p, hp, hpre, he⟩
        · exact .inl ⟨h.trans hT, fun hn => by cases hn⟩
        · exact absurd he (hno p hp hpre)
    · have hlook : (if T.lookup (w ++ [c]) = none then (w ++ [c], Entry.dir) :: T else T).lookup q =
          T.lookup q := by
        split
        · exact lookup_cons_of_ne hq _ _
        · rfl
      rcases ih (if T.lookup (w ++ [c]) = none then (w ++ [c], .dir) :: T else T) (w ++ [c]) with
        ⟨h, hno⟩ | ⟨hn, h, p, hp, hpre, he⟩
      · rw [hlook] at h hno
        refine .inl ⟨h, fun hT p hp hpre he => ?_⟩
        cases p with
        | nil => exact hp rfl
        | cons b p =>
          obtain ⟨rfl, hpre'⟩ := List.cons_prefix_cons.mp hpre
          by_cases hp0 : p = []
          · exact hq (by rw [he, hp0])
          · exact hno hT p hp0 hpre' (by rw [he, List.append_assoc, List.singleton_append])
      · rw [hlook] at hn
        exact .inr ⟨hn, h, c :: p, by simp, hext p hpre,
          by rw [he, List.append_assoc, List.singleton_append]⟩

/-! ## The nodes at the paths -/

/-- The node is what the entry says. -/
def Shows (s : Fs) (n : Nat) : Entry → Prop
  | .dir => isDirAt s n = true
  | .file bytes => isDirAt s n = false ∧ contents s n = bytes

/-- The node at the end of a path from the root. -/
abbrev nodeAt (s : Fs) (kids : Nat → List Nat) (q : List CStr) : Option Nat :=
  goes (stepTo s kids) (isDirAt s) s.rootNode q

theorem stepTo_plain {s : Fs} {kids : Nat → List Nat} {d : Nat} {c : CStr} (hc : PlainName c) :
    stepTo s kids d c = (kids d).find? fun x => (s.node x).name == c := by
  rw [stepTo, if_neg hc.2.2.1, if_neg hc.2.2.2]

/-- A plain component leads to a child of that name. -/
theorem FsInv.stepTo_child {s : Fs} {nodes : List Nat} {kids : Nat → List Nat} {d m : Nat}
    {c : CStr} (h : FsInv s nodes kids) (hd : d ∈ s.rootNode :: nodes) (hc : PlainName c)
    (hm : stepTo s kids d c = some m) :
    m ∈ nodes ∧ (s.node m).parent = d ∧ (s.node m).name = c := by
  rw [stepTo_plain hc] at hm
  obtain ⟨hmem, hparent⟩ := h.links.tree.child d hd m (List.mem_of_find?_eq_some hm)
  exact ⟨hmem, hparent, by simpa using List.find?_some hm⟩

/-- Two plain paths to one node are the same path. -/
theorem FsInv.nodeAt_inj {s : Fs} {nodes : List Nat} {kids : Nat → List Nat}
    (h : FsInv s nodes kids) {q q' : List CStr} {n : Nat} (hq : ∀ c ∈ q, PlainName c)
    (hq' : ∀ c ∈ q', PlainName c) (hn : nodeAt s kids q = some n)
    (hn' : nodeAt s kids q' = some n) : q = q' := by
  have hroot : s.rootNode ∉ nodes := (List.nodup_cons.mp h.links.tree.nodup).1
  have hparent : ∀ {p c n}, (∀ b ∈ p ++ [c], PlainName b) → nodeAt s kids (p ++ [c]) = some n →
      n ∈ nodes ∧ nodeAt s kids p = some (s.node n).parent ∧ (s.node n).name = c := by
    intro p c n hp hn
    rw [nodeAt, goes_snoc] at hn
    obtain ⟨d, hd, hn⟩ := Option.bind_eq_some_iff.mp hn
    have hmem : d ∈ s.rootNode :: nodes := enters_mem (P := fun x => x ∈ s.rootNode :: nodes)
      (fun _ _ _ hx hm => h.stepTo_mem hx hm) (List.mem_cons_self ..) hd
    obtain ⟨hnode, hpar, hname⟩ := h.stepTo_child hmem (hp c (by simp)) hn
    exact ⟨hnode, hpar.symm ▸ goes_of_enters hd, hname⟩
  induction q using List.reverseRecOn generalizing q' n with
  | nil =>
    cases hn
    rcases List.eq_nil_or_concat' q' with rfl | ⟨p, c, rfl⟩
    · rfl
    · exact absurd (hparent hq' hn').1 hroot
  | append_singleton p c ih =>
    obtain ⟨hnode, hp, hname⟩ := hparent hq hn
    rcases List.eq_nil_or_concat' q' with rfl | ⟨p', c', rfl⟩
    · cases hn'
      exact absurd hnode hroot
    · obtain ⟨-, hp', hname'⟩ := hparent hq' hn'
      rw [ih (fun b hb => hq b (by simp [hb])) (fun b hb => hq' b (by simp [hb])) hp hp',
        ← hname, hname']

/-- A new child is at a new path, and the other paths lead where they led. -/
theorem Created.nodeAt_eq {s t : Fs} {nodes : List Nat} {kids kids' : Nat → List Nat} {d n : Nat}
    {name : CStr} {isDir : Bool} (h : Created s t nodes kids kids' d n name isDir)
    (hs : FsInv s nodes kids) (hd : d ∈ s.rootNode :: nodes) (hname : PlainName name)
    (hnew : ∀ c ∈ kids d, (s.node c).name ≠ name) {w : List CStr} (hw : ∀ c ∈ w, PlainName c)
    (henter : enters (stepTo s kids) (isDirAt s) s.rootNode w = some d) (q : List CStr)
    (hq : ∀ c ∈ q, PlainName c) :
    nodeAt t kids' q = if q = w ++ [name] then some n else nodeAt s kids q := by
  rw [nodeAt, h.rootNode]
  refine goes_addChild (P := fun x => x ∈ s.rootNode :: nodes)
    hs.links.root_dir (List.mem_cons_self ..) (fun x c m hx hm => hs.stepTo_mem hx hm) henter
    (fun p hp hpd => hs.nodeAt_inj hp hw (goes_of_enters hpd) (goes_of_enters henter))
    (fun x hx => h.isDirAt_old hx) ?_ ?_ ?_ ?_ q hq
  · rw [stepTo_plain hname]
    exact List.find?_eq_none.mpr fun x hx => by simpa using hnew x hx
  · rw [h.stepTo_old hs hd hd, if_pos ⟨rfl, rfl, hname.2.2.1, hname.2.2.2⟩]
  · intro x c hx _ hne
    rw [h.stepTo_old hs hd hx, if_neg (by tauto)]
  · intro c hc
    rw [stepTo_plain hc, h.kids_eq, Function.update_self]
    rfl

/-! ## The nodes represent the map -/

/-- The nodes in memory are the entries of `T`, and they were built with exactly the blocks that
    `T` needs, which the heap granted from `heap₀` on. -/
structure Represents (pick : Pick) (heap₀ : Arena) (s : Fs) (nodes : List Nat)
    (kids : Nat → List Nat) (T : Tree) : Prop where
  inv : FsInv s nodes kids
  look : ∀ q, q ≠ [] → (∀ c ∈ q, PlainName c) → match T.lookup q with
    | none => nodeAt s kids q = none
    | some e => ∃ n, nodeAt s kids q = some n ∧ Shows s n e
  plain : ∀ n ∈ nodes, PlainName (s.node n).name
  writable : ∀ n ∈ nodes, (s.node n).readonly = false
  heap : s.heap = heap₀.allocAll pick (treeBlocks T)

theorem FsInv.nodeAt_mem {s : Fs} {nodes : List Nat} {kids : Nat → List Nat}
    (h : FsInv s nodes kids) {q : List CStr} {n : Nat} (hn : nodeAt s kids q = some n) :
    n ∈ s.rootNode :: nodes :=
  goes_mem (P := fun x => x ∈ s.rootNode :: nodes) (fun _ _ _ hx hm => h.stepTo_mem hx hm)
    (List.mem_cons_self ..) hn

theorem FsInv.enters_of_nodeAt {s : Fs} {nodes : List Nat} {kids : Nat → List Nat}
    (h : FsInv s nodes kids) {q : List CStr} {n : Nat} (hn : nodeAt s kids q = some n)
    (hdir : isDirAt s n = true) :
    enters (stepTo s kids) (isDirAt s) s.rootNode q = some n := by
  have hroot : isDirAt s s.rootNode = true := h.links.root_dir
  rw [enters_eq_goes hroot]
  rw [nodeAt] at hn
  rw [hn]
  exact Option.filter_eq_some_iff.mpr ⟨rfl, hdir⟩

namespace Represents

variable {pick : Pick} {heap₀ : Arena} {s t : Fs} {nodes : List Nat} {kids kids' : Nat → List Nat}
  {T : Tree}

theorem look_none (h : Represents pick heap₀ s nodes kids T) {q : List CStr} (hq : q ≠ [])
    (hplain : ∀ c ∈ q, PlainName c) (hT : T.lookup q = none) : nodeAt s kids q = none := by
  have := h.look q hq hplain
  rwa [hT] at this

theorem look_some (h : Represents pick heap₀ s nodes kids T) {q : List CStr} {e : Entry}
    (hq : q ≠ []) (hplain : ∀ c ∈ q, PlainName c) (hT : T.lookup q = some e) :
    ∃ n, nodeAt s kids q = some n ∧ Shows s n e := by
  have := h.look q hq hplain
  rwa [hT] at this

theorem lookup_none (h : Represents pick heap₀ s nodes kids T) {q : List CStr} (hq : q ≠ [])
    (hplain : ∀ c ∈ q, PlainName c) (hn : nodeAt s kids q = none) : T.lookup q = none := by
  cases hT : T.lookup q with
  | none => rfl
  | some e =>
    obtain ⟨m, hm, -⟩ := h.look_some hq hplain hT
    rw [hn] at hm
    cases hm

/-- A node that is found has an entry. -/
theorem lookup_of_nodeAt (h : Represents pick heap₀ s nodes kids T) {q : List CStr} {n : Nat}
    (hq : q ≠ []) (hplain : ∀ c ∈ q, PlainName c) (hn : nodeAt s kids q = some n) :
    ∃ e, T.lookup q = some e ∧ Shows s n e := by
  have hlook := h.look q hq hplain
  cases hT : T.lookup q with
  | none =>
    rw [hT] at hlook
    have hlook : nodeAt s kids q = none := hlook
    rw [hn] at hlook
    cases hlook
  | some e =>
    rw [hT] at hlook
    obtain ⟨m, hm, hshow⟩ := hlook
    rw [hn] at hm
    cases hm
    exact ⟨e, rfl, hshow⟩

theorem nil (h : FsInv s [] kids) : Represents pick s.heap s [] kids [] := by
  refine ⟨h, fun q hq hplain => ?_, fun n hn => (by cases hn), fun n hn => (by cases hn), rfl⟩
  cases hn : nodeAt s kids q with
  | none => rfl
  | some n =>
    -- the last step would lead to a node below the root
    obtain ⟨p, c, rfl⟩ := (List.eq_nil_or_concat' q).resolve_left hq
    rw [nodeAt, goes_snoc] at hn
    obtain ⟨d, hd, hn⟩ := Option.bind_eq_some_iff.mp hn
    have hmem := enters_mem (P := fun x => x ∈ s.rootNode :: [])
      (fun _ _ _ hx hm => h.stepTo_mem hx hm) (List.mem_cons_self ..) hd
    exact absurd (h.stepTo_child hmem (hplain c (by simp)) hn).1 (by simp)

/-- A created node is a new entry. -/
theorem created {d : Nat} {name : CStr} {isDir : Bool} (h : Represents pick heap₀ s nodes kids T)
    (hfits : s.heap.Fits (pick s.heap nodeSize) nodeSize)
    (hc : Created s t nodes kids kids' d (pick s.heap nodeSize) name isDir)
    (hd : d ∈ s.rootNode :: nodes) (hname : PlainName name)
    (hnew : ∀ c ∈ kids d, (s.node c).name ≠ name) {w : List CStr} (hw : ∀ c ∈ w, PlainName c)
    (henter : enters (stepTo s kids) (isDirAt s) s.rootNode w = some d) :
    Represents pick heap₀ t (pick s.heap nodeSize :: nodes) kids'
      ((w ++ [name], if isDir then .dir else .file []) :: T) := by
  set n := pick s.heap nodeSize with hn
  have hview := hc.nodeAt_eq h.inv hd hname hnew hw henter
  refine ⟨hc.inv, fun q hq hplain => ?_, fun x hx => ?_, fun x hx => ?_, ?_⟩
  · rw [hview q hplain]
    by_cases heq : q = w ++ [name]
    · rw [heq, lookup_cons_self, if_pos rfl]
      refine ⟨n, rfl, ?_⟩
      cases isDir with
      | true =>
        rw [if_pos rfl, Shows, isDirAt, hc.new]
      | false =>
        rw [if_neg (by simp), Shows, isDirAt, contents, hc.new]
        exact ⟨rfl, rfl⟩
    · rw [lookup_cons_of_ne heq, if_neg heq]
      have hlook := h.look q hq hplain
      cases hT : T.lookup q with
      | none => rwa [hT] at hlook
      | some e =>
        rw [hT] at hlook
        obtain ⟨m, hm, hshow⟩ := hlook
        refine ⟨m, hm, ?_⟩
        have hmem := h.inv.nodeAt_mem hm
        cases e with
        | dir => rwa [Shows, hc.isDirAt_old hmem]
        | file b => rwa [Shows, hc.isDirAt_old hmem, hc.contents_old hmem]
  · rcases List.mem_cons.mp hx with rfl | hx
    · rw [hc.new]
      exact hname
    · obtain ⟨c, hnode⟩ := hc.old_node (List.mem_cons_of_mem _ hx)
      rw [hnode]
      exact h.plain x hx
  · rcases List.mem_cons.mp hx with rfl | hx
    · rw [hc.new]
    · obtain ⟨c, hnode⟩ := hc.old_node (List.mem_cons_of_mem _ hx)
      rw [hnode]
      exact h.writable x hx
  · have hblocks : entryBlocks (if isDir then .dir else .file []) = [nodeSize] := by
      cases isDir <;> rfl
    rw [treeBlocks_cons, hblocks, Arena.allocAll_append, ← h.heap, hc.heap]
    show _ = (s.heap.alloc pick nodeSize).2
    rw [Arena.alloc, if_pos hfits]

/-- What the heap granted covers a request that the map needs next. -/
theorem fits (h : Represents pick heap₀ s nodes kids T) {len : Nat} {blocks : List Nat}
    (hgrants : heap₀.Grants pick blocks) (hpre : treeBlocks T ++ [len] <+: blocks) :
    s.heap.Fits (pick s.heap len) len := by
  have hall := (Arena.grants_append.mp (Arena.Grants.of_prefix hgrants hpre)).2
  rw [← h.heap] at hall
  exact hall.1

/-- The state of `vfs_mkdirs` between two rounds: the directory `cur` is at the path `w`, `p` is
    what is left. -/
structure MkdirsInv (pick : Pick) (heap₀ : Arena) (root : Nat) (T : Tree) (cs : List CStr)
    (x : Fs × Nat × CStr) (nodes : List Nat) (kids : Nat → List Nat) (T' : Tree)
    (w : List CStr) : Prop where
  skip : skipSlashes x.2.2 = x.2.2
  rep : Represents pick heap₀ x.1 nodes kids T'
  rootNode : x.1.rootNode = root
  cur : x.2.1 ∈ x.1.rootNode :: nodes
  dir : isDirAt x.1 x.2.1 = true
  split : cs = w ++ components x.2.2
  walked : enters (stepTo x.1 kids) (isDirAt x.1) x.1.rootNode w = some x.2.1
  tree : addDirs T' w (components x.2.2) = addDirs T [] cs
  noFile : ∀ p, p ≠ [] → p <+: cs → ∀ b, T'.lookup p ≠ some (.file b)

/-- `vfs_mkdirs` from the root with granted blocks adds the directories along the path. -/
theorem vfsMkdirs (h : Represents pick heap₀ s nodes kids T) {path : CStr} {blocks : List Nat}
    (hplain : ∀ c ∈ components path, PlainName c ∧ c.length < vfsNameMax)
    (hfile : ∀ p, p ≠ [] → p <+: components path → ∀ b, T.lookup p ≠ some (.file b))
    (hgrants : heap₀.Grants pick blocks)
    (hpre : treeBlocks (addDirs T [] (components path)) <+: blocks) :
    ∃ t r nodes' kids', Vfs.vfsMkdirs pick s path s.rootNode = some (t, r) ∧
      Represents pick heap₀ t nodes' kids' (addDirs T [] (components path)) ∧
      t.rootNode = s.rootNode ∧ r ∈ t.rootNode :: nodes' ∧ isDirAt t r = true ∧
      enters (stepTo t kids') (isDirAt t) t.rootNode (components path) = some r := by
  let cs := components path
  have hstart : startDir s path s.rootNode = s.rootNode := by
    unfold startDir
    split
    · rfl
    · split <;> rfl
  let I : Fs × Nat × CStr → Prop := fun x => ∃ nodes' kids' T' w,
    MkdirsInv pick heap₀ s.rootNode T cs x nodes' kids' T' w
  let Q : Fs × Nat → Prop := fun x => ∃ nodes' kids',
    Represents pick heap₀ x.1 nodes' kids' (addDirs T [] cs) ∧ x.1.rootNode = s.rootNode ∧
      x.2 ∈ x.1.rootNode :: nodes' ∧ isDirAt x.1 x.2 = true ∧
      enters (stepTo x.1 kids') (isDirAt x.1) x.1.rootNode cs = some x.2
  suffices hloop : ∃ r, Vfs.vfsMkdirs pick s path s.rootNode = some r ∧ Q r by
    obtain ⟨⟨t, r⟩, heq, nodes', kids', hr⟩ := hloop
    exact ⟨t, r, nodes', kids', heq, hr⟩
  have hinit : I (s, startDir s path s.rootNode, skipSlashes path) := by
    rw [hstart]
    refine ⟨nodes, kids, T, [], skipSlashes_idem path, h, rfl, List.mem_cons_self ..,
      h.inv.links.root_dir, (components_skipSlashes path).symm, rfl, ?_, hfile⟩
    rw [components_skipSlashes]
  refine loop_total _ I Q (fun x => x.2.2.length) ?_ _ _ hinit
    (Nat.lt_succ_of_le (skipSlashes_length path))
  rintro ⟨t, cur, p⟩ ⟨nodes', kids', T', w, hm⟩
  obtain ⟨hskip, hrep, hroot, hcur, hdir, hsplit, hwalk, htree, hno⟩ := hm
  simp only at hskip hrep hroot hcur hdir hsplit hwalk htree
  by_cases hp : p = []
  · subst hp
    rw [components, fields_nil] at hsplit htree
    rw [List.append_nil] at hsplit
    refine .inl ⟨(t, cur), by rw [mkdirsRound, if_pos rfl], nodes', kids', ?_, hroot, hcur, hdir,
      hsplit ▸ hwalk⟩
    rwa [← htree]
  obtain ⟨a, xs, hcons⟩ := List.exists_cons_of_ne_nil hp
  obtain ⟨c, rest, hscan⟩ := scan hcons (skipSlashes_head (hskip.trans hcons))
  have hc0 : c ≠ [] := (component_ne (by rw [hscan.split]; simp : c ∈ components p)).1
  have hrest : skipSlashes rest = rest := by
    rw [← hscan.behind]
    exact skipSlashes_idem _
  have hsplit' : cs = (w ++ [c]) ++ components rest := by
    rw [hsplit, hscan.split, List.append_assoc, List.singleton_append]
  have hwc : ∀ b ∈ w ++ [c], PlainName b ∧ b.length < vfsNameMax := fun b hb =>
    hplain b (show b ∈ cs by rw [hsplit']; exact List.mem_append_left _ hb)
  have hc := hwc c (by simp)
  have hwplain : ∀ b ∈ w ++ [c], PlainName b := fun b hb => (hwc b hb).1
  have hat : nodeAt t kids' (w ++ [c]) = stepTo t kids' cur c := by
    rw [nodeAt, goes_snoc, hwalk, Option.bind_some]
  have htree' : addDirs (if T'.lookup (w ++ [c]) = none then (w ++ [c], .dir) :: T' else T')
      (w ++ [c]) (components rest) = addDirs T [] cs := by
    rw [← htree, hscan.split]
    rfl
  rcases hrep.inv.mkdirsRound_cases pick hcur hdir hscan hp hc0 with
    ⟨m, hm, hmdir, hround⟩ | ⟨m, hm, hmdir, -⟩ | ⟨hnone, hwhy, -⟩ |
    ⟨hnone, -, hnew, hfits, u, kids'', -, hcreated, hround⟩
  · -- the directory is there
    obtain ⟨e, he, -⟩ := hrep.lookup_of_nodeAt (by simp) hwplain (hat.trans hm)
    rw [if_neg (by rw [he]; simp)] at htree'
    refine .inr ⟨_, hround, ⟨nodes', kids', T', w ++ [c], hrest, hrep, hroot,
      hrep.inv.stepTo_mem hcur hm, hmdir, hsplit', ?_, htree', hno⟩, hscan.shorter⟩
    rw [enters_snoc, hwalk, Option.bind_some, hm, Option.bind_some, if_pos hmdir]
  · -- no file is in the way
    obtain ⟨e, he, hshow⟩ := hrep.lookup_of_nodeAt (by simp) hwplain (hat.trans hm)
    cases e with
    | dir =>
      rw [Shows, hmdir] at hshow
      cases hshow
    | file b => exact absurd he (hno _ (by simp) ⟨_, hsplit'.symm⟩ b)
  · -- the heap has a block
    refine absurd (hrep.fits hgrants ?_) (hwhy.resolve_left (Nat.not_le_of_lt hc.2))
    have hT := hrep.lookup_none (by simp) hwplain (hat.trans hnone)
    rw [if_pos hT] at htree'
    have := treeBlocks_addDirs ((w ++ [c], .dir) :: T') (w ++ [c]) (components rest)
    rw [htree', treeBlocks_cons] at this
    exact this.trans hpre
  · have hT := hrep.lookup_none (by simp) hwplain (hat.trans hnone)
    rw [if_pos hT] at htree'
    have hw : ∀ b ∈ w, PlainName b := fun b hb => hwplain b (by simp [hb])
    have hview := hcreated.nodeAt_eq hrep.inv hcur hc.1 hnew hw hwalk (w ++ [c]) hwplain
    rw [if_pos rfl] at hview
    have hn : isDirAt u (pick t.heap nodeSize) = true := by rw [isDirAt, hcreated.new]
    refine .inr ⟨_, hround, ⟨_, kids'', _, w ++ [c], hrest,
      hrep.created hfits hcreated hcur hc.1 hnew hw hwalk, hcreated.rootNode.trans hroot,
      by simp, hn, hsplit', hcreated.inv.enters_of_nodeAt hview hn, htree', fun p hp hpre b => ?_⟩,
      hscan.shorter⟩
    by_cases he : p = w ++ [c]
    · rw [he, lookup_cons_self]
      simp
    · rw [lookup_cons_of_ne he]
      exact hno p hp hpre b

/-- A new file in a directory at the path `w`, with a granted block. -/
theorem vfsCreate (h : Represents pick heap₀ s nodes kids T) {w : List CStr} {d : Nat}
    {name : CStr} {blocks : List Nat} (hd : d ∈ s.rootNode :: nodes) (hdir : isDirAt s d = true)
    (henter : enters (stepTo s kids) (isDirAt s) s.rootNode w = some d)
    (hw : ∀ c ∈ w, PlainName c) (hname : PlainName name) (hlen : name.length < vfsNameMax)
    (hT : T.lookup (w ++ [name]) = none) (hgrants : heap₀.Grants pick blocks)
    (hpre : treeBlocks T ++ [nodeSize] <+: blocks) :
    ∃ t n nodes' kids', Vfs.vfsCreate pick s d name false = some (t, n) ∧ n ∈ nodes' ∧
      Represents pick heap₀ t nodes' kids' ((w ++ [name], .file []) :: T) ∧
      t.rootNode = s.rootNode ∧ nodeAt t kids' (w ++ [name]) = some n ∧
      t.node n = { name := name, isDir := false, parent := d, next := (s.node d).children } := by
  have hwplain : ∀ c ∈ w ++ [name], PlainName c := fun c hc =>
    (List.mem_append.mp hc).elim (hw c) fun hc => List.mem_singleton.mp hc ▸ hname
  have hnone : stepTo s kids d name = none := by
    have := h.look_none (by simp) hwplain hT
    rwa [nodeAt, goes_snoc, henter, Option.bind_some] at this
  have hnew : ∀ c ∈ kids d, (s.node c).name ≠ name := by
    rw [stepTo_plain hname] at hnone
    exact fun c hc => by simpa using List.find?_eq_none.mp hnone c hc
  have hfits := h.fits hgrants hpre
  rcases h.inv.vfsCreate_eq pick false hd hdir ⟨List.length_pos_of_ne_nil hname.1, hlen⟩ with
    ⟨hwhy, -⟩ | ⟨-, -, t, kids', hcreate, hcreated⟩
  · rcases hwhy with ⟨c, hc, hcn⟩ | hno
    · exact absurd hcn (hnew c hc)
    · exact absurd hfits hno
  · refine ⟨t, _, _, kids', hcreate, List.mem_cons_self ..,
      h.created hfits hcreated hd hname hnew hw henter, hcreated.rootNode, ?_, hcreated.new⟩
    rw [hcreated.nodeAt_eq h.inv hd hname hnew hw henter _ hwplain, if_pos rfl]

/-- The contents of a file that has none yet, with a granted buffer. -/
theorem vfsWrite {q : List CStr} {n : Nat} {blocks : List Nat} {b : List UInt8}
    (h : Represents pick heap₀ s nodes kids ((q, .file []) :: T)) (hq : q ≠ [])
    (hplain : ∀ c ∈ q, PlainName c) (hat : nodeAt s kids q = some n)
    (hfresh : (s.node n).data = 0 ∧ (s.node n).cap = 0)
    (buf : Nat → UInt8) (hbuf : (List.range b.length).map buf = b) (hb : b ≠ [])
    (hlen : b.length ≤ 2 ^ 62) (hgrants : heap₀.Grants pick blocks)
    (hpre : treeBlocks ((q, .file b) :: T) <+: blocks) :
    ∃ t r, Vfs.vfsWrite pick s n buf 0 b.length = some (t, r) ∧
      Represents pick heap₀ t nodes kids ((q, .file b) :: T) ∧ t.rootNode = s.rootNode := by
  obtain ⟨n', hat', hdir, hempty⟩ := h.look_some hq hplain (lookup_cons_self q _ T)
  obtain rfl : n = n' := Option.some.inj (hat.symm.trans hat')
  have hn : n ∈ nodes :=
    h.inv.file_mem (.inr (h.inv.nodeAt_mem hat)) (h.inv.ne_zero (h.inv.nodeAt_mem hat)) hdir
  obtain ⟨c, hc, -, -⟩ := growCap_spec hlen (List.length_pos_of_ne_nil hb)
  have hblocks : treeBlocks ((q, .file b) :: T) = treeBlocks ((q, .file []) :: T) ++ [c] := by
    rw [treeBlocks_cons, treeBlocks_cons, entryBlocks, entryBlocks, if_neg hb, if_pos rfl, hc,
      List.append_assoc]
    rfl
  have hfits := h.fits hgrants (hblocks ▸ hpre)
  have hgrow : growBuffer pick s.heap (s.node n).data (s.node n).cap (0 + b.length) =
      some ((s.heap.alloc pick c).2, pick s.heap c, c) := by
    have hpos : ¬ 0 + b.length ≤ 0 := by
      have := List.length_pos_of_ne_nil hb
      omega
    rw [hfresh.1, hfresh.2, growBuffer, if_neg hpos, Nat.zero_add, hc, Option.bind_some,
      Arena.alloc, if_pos hfits]
    simp [hfits.1]
  have hend : 0 + b.length ≤ 2 ^ 62 := by omega
  have hwrite := h.inv.vfsWrite_eq pick buf hn hdir (h.writable n hn) hend
  rw [hgrow] at hwrite
  obtain ⟨t, hwrite, ht, hw⟩ := hwrite
  have hsame : SameTree s t nodes kids :=
    .of_update ht hw.rootNode hw.node ⟨rfl, rfl, rfl, rfl, rfl⟩ rfl
  have hview : ∀ q, nodeAt t kids q = nodeAt s kids q := fun q => by
    rw [nodeAt, hsame.stepTo_eq, hsame.isDirAt_eq, hsame.rootNode]
  refine ⟨t, _, hwrite, ⟨ht, fun q' hq' hplain' => ?_, fun x hx => ?_, fun x hx => ?_, ?_⟩,
    hsame.rootNode⟩
  · rw [hview]
    by_cases heq : q' = q
    · rw [heq, lookup_cons_self]
      refine ⟨n, hat, by rw [hsame.isDirAt_eq]; exact hdir, ?_⟩
      rw [hw.contents_eq, hempty, hbuf]
      exact overwrite_length [] b
    · have hlook := h.look q' hq' hplain'
      rw [lookup_cons_of_ne heq] at hlook ⊢
      cases hT : T.lookup q' with
      | none => rwa [hT] at hlook
      | some e =>
        rw [hT] at hlook
        obtain ⟨m, hm, hshow⟩ := hlook
        refine ⟨m, hm, ?_⟩
        cases e with
        | dir => rwa [Shows, hsame.isDirAt_eq]
        | file b' =>
          -- another file is another node, whose buffer lies apart
          have hmn : m ≠ n := fun he =>
            heq (h.inv.nodeAt_inj hplain' hplain (he ▸ hm) hat)
          have hmem : m ∈ nodes := h.inv.file_mem (.inr (h.inv.nodeAt_mem hm))
            (h.inv.ne_zero (h.inv.nodeAt_mem hm)) hshow.1
          refine ⟨by rw [hsame.isDirAt_eq]; exact hshow.1, ?_⟩
          rw [hw.contents_of_ne ht hn (h.writable n hn) hmem hmn (h.writable m hmem)]
          exact hshow.2
  · rw [(hsame.links x).1]
    exact h.plain x hx
  · rw [hsame.readonly x]
    exact h.writable x hx
  · rw [hblocks, Arena.allocAll_append, ← h.heap, hw.heap]
    rfl

end Represents

end ChocoOs.Vfs
