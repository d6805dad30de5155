import ChocoOs.Vfs.Directories

/-!
# Removing a node

`vfs_unlink` walks a pointer to pointers to the place where the node is linked in, overwrites it
with the node's successor, and gives the node's memory back.
-/

namespace ChocoOs.Vfs
open ProgLib

/-- The pointer that the walk of `vfs_unlink` has reached after the nodes `pre`. -/
def linkAfter (link : Link) : List Nat → Link
  | [] => link
  | q :: qs => linkAfter (.nextOf q) qs

theorem linkAfter_concat (link : Link) (pre : List Nat) (q : Nat) :
    linkAfter link (pre ++ [q]) = .nextOf q := by
  induction pre generalizing link with
  | nil => rfl
  | cons p pre ih => exact ih _

/-- The walk stops at the pointer to the node. -/
theorem loop_unlinkRound {s : Fs} {x : Nat} (post : List Nat) :
    ∀ (pre : List Nat) (link : Link) (fuel : Nat),
      s.readLink link = (pre ++ x :: post).headD 0 →
      Linked (fun c => (s.node c).next) (pre ++ x :: post) 0 →
      (∀ y ∈ pre, y ≠ 0 ∧ y ≠ x) → pre.length < fuel →
      loop (unlinkRound s x) fuel link = some (linkAfter link pre) ∧
        s.readLink (linkAfter link pre) = x := by
  intro pre
  induction pre with
  | nil =>
    intro link fuel hread _ _ hfuel
    obtain ⟨fuel, rfl⟩ := Nat.exists_eq_add_of_lt hfuel
    simp only [List.nil_append, List.headD_cons] at hread
    refine ⟨loop_of_done ?_, hread⟩
    simp [unlinkRound, hread, linkAfter]
  | cons q pre ih =>
    intro link fuel hread hlink hne hfuel
    obtain ⟨fuel, rfl⟩ : ∃ f, fuel = f + 1 := ⟨fuel - 1, by omega⟩
    simp only [List.cons_append, List.headD_cons] at hread hlink
    have hround : unlinkRound s x link = some (.next (.nextOf q)) := by
      simp [unlinkRound, hread, hne q (by simp)]
    rw [loop_of_next hround]
    exact ih _ fuel hlink.1 hlink.2 (fun y hy => hne y (by simp [hy]))
      (by simpa using hfuel)

/-- Taking the leaf `x` out of the child list `pre ++ x :: post` of its parent keeps the tree. -/
theorem Links.remove {node : Nat → VfsNode} (node' : Nat → VfsNode) {root : Nat} {nodes : List Nat}
    {kids : Nat → List Nat} {x : Nat} {pre post : List Nat} (h : Links node root nodes kids)
    (hx : x ∈ nodes) (hleaf : kids x = []) (hsplit : kids (node x).parent = pre ++ x :: post)
    (same : ∀ y ∈ root :: nodes, (node' y).name = (node y).name ∧
      (node' y).isDir = (node y).isDir ∧ (node' y).parent = (node y).parent)
    (hchildren : ∀ y, (node' y).children =
      if y = (node x).parent ∧ pre = [] then post.headD 0 else (node y).children)
    (hnext : ∀ y, (node' y).next =
      if pre.getLast? = some y then post.headD 0 else (node y).next) :
    Links node' root (nodes.erase x)
      (Function.update kids (node x).parent ((kids (node x).parent).erase x)) := by
  set d := (node x).parent with hd
  have hdmem : d ∈ root :: nodes := (h.tree.listed x hx).1
  have hnd := h.tree.kids_nodup d hdmem
  have herase : (kids d).erase x = pre ++ post := by
    rw [hsplit] at hnd ⊢
    have hxpre : x ∉ pre := fun hmem =>
      (List.nodup_append.mp hnd).2.2 x hmem x (by simp) rfl
    rw [List.erase_append_right _ hxpre, List.erase_cons_head]
  have hold : ∀ y ∈ root :: nodes.erase x, y ∈ root :: nodes := by
    intro y hy
    rcases List.mem_cons.mp hy with rfl | hy
    · simp
    · simp [List.mem_of_mem_erase hy]
  have hlast : ∀ y, pre.getLast? = some y → y ∈ kids d := by
    intro y hy
    rw [hsplit]
    simp [List.mem_of_mem_getLast? hy]
  -- a child list of another directory does not contain the predecessor of `x`
  have hother : ∀ e ∈ root :: nodes, e ≠ d → ∀ c ∈ kids e, (node' c).next = (node c).next := by
    intro e he hed c hc
    rw [hnext, if_neg]
    intro hl
    have h1 := (h.tree.child d hdmem c (hlast c hl)).2
    have h2 := (h.tree.child e he c hc).2
    exact hed (h2.symm.trans h1)
  set kids' := Function.update kids d ((kids d).erase x)
  have hkids_d : kids' d = pre ++ post := by
    simp only [kids', Function.update_self, herase]
  have hkids : ∀ y, y ≠ d → kids' y = kids y := fun y hy => Function.update_of_ne hy ..
  have hsub : ∀ e ∈ root :: nodes, ∀ c ∈ kids e, c ∈ root :: nodes := fun e he c hc =>
    List.mem_cons_of_mem _ (h.tree.child e he c hc).1
  have hpost_sub : ∀ c ∈ pre ++ post, c ∈ kids d := fun c hc => by
    rw [hsplit]; simp only [List.mem_append, List.mem_cons] at hc ⊢; tauto
  constructor
  · refine (h.tree.removeLeaf hx hleaf).congr_parent fun c hc => ?_
    exact (same c (by simp [List.mem_of_mem_erase hc])).2.2
  · intro e he
    rw [hchildren]
    by_cases hed : e = d
    · subst hed
      rw [hkids_d]
      cases pre with
      | nil => simp
      | cons q qs =>
        rw [if_neg (by simp), h.first _ hdmem, hsplit]
        rfl
    · rw [if_neg (fun hc => hed hc.1), hkids e hed]
      exact h.first e (hold e he)
  · intro e he
    by_cases hed : e = d
    · subst hed
      rw [hkids_d]
      have hl := h.linked d hdmem
      rw [hsplit] at hl hnd
      exact hl.unlink hnd hnext
    · rw [hkids e hed]
      exact (h.linked e (hold e he)).congr (hother e (hold e he) hed)
  · intro e he hne
    rw [(same e (hold e he)).2.1]
    by_cases hed : e = d
    · subst hed
      exact h.dirs d hdmem (by rw [hsplit]; simp)
    · rw [hkids e hed] at hne
      exact h.dirs e (hold e he) hne
  · intro e he
    have hnames : ∀ l : List Nat, (∀ c ∈ l, c ∈ root :: nodes) →
        (l.Pairwise fun b c => (node b).name ≠ (node c).name) →
        l.Pairwise fun b c => (node' b).name ≠ (node' c).name := by
      intro l hl hp
      refine hp.imp_of_mem fun {b c} hb hc hne => ?_
      rwa [(same b (hl b hb)).1, (same c (hl c hc)).1]
    by_cases hed : e = d
    · subst hed
      rw [hkids_d]
      refine hnames _ (fun c hc => hsub d hdmem c (hpost_sub c hc)) ?_
      have hp := h.names d hdmem
      rw [hsplit] at hp
      exact hp.sublist ((List.Sublist.refl pre).append (List.sublist_cons_self x post))
    · rw [hkids e hed]
      exact hnames _ (hsub e (hold e he)) (h.names e (hold e he))
  · intro y hy
    have hy := List.mem_of_mem_erase hy
    rw [(same y (by simp [hy])).1]
    exact h.name_len y hy
  · rw [(same root (by simp)).2.1]; exact h.root_dir
  · rw [(same root (by simp)).2.2]; exact h.root_parent
  · rw [hnext, if_neg]
    · exact h.root_next
    · exact fun hl => h.tree.root_not_kid hdmem (hlast root hl)

/-- The buffer of a removed node goes back to the heap. -/
theorem freeData_spec {s : Fs} {n : VfsNode} {rest : List (Nat × Nat)} (h : s.heap.Ok)
    (hl : s.heap.live.Perm (buffer n ++ rest)) :
    ∃ heap, freeData s n = some { s with heap := heap } ∧ heap.live.Perm rest ∧ heap.Ok ∧
      heap.lo = s.heap.lo ∧ heap.hi = s.heap.hi := by
  by_cases hb : n.readonly = false ∧ n.data ≠ 0
  · rw [buffer_of_data hb.1 hb.2, List.singleton_append] at hl
    obtain ⟨heap, hfree, hperm, hok, hlo, hhi, -⟩ := h.free hl
    exact ⟨heap, by rw [freeData, if_pos hb, Fs.free, hfree]; rfl, hperm, hok, hlo, hhi⟩
  · rw [buffer, if_neg hb] at hl
    exact ⟨s.heap, by rw [freeData, if_neg hb], hl, h, rfl, rfl⟩

/-- `t` is `s` without the leaf `x`. -/
structure Removed (s t : Fs) (nodes : List Nat) (kids kids' : Nat → List Nat) (x : Nat) :
    Prop where
  inv : FsInv t (nodes.erase x) kids'
  rootNode : t.rootNode = s.rootNode
  mem : t.mem = s.mem
  lo : t.heap.lo = s.heap.lo
  hi : t.heap.hi = s.heap.hi
  same : ∀ y, (t.node y).name = (s.node y).name ∧ (t.node y).isDir = (s.node y).isDir ∧
    (t.node y).parent = (s.node y).parent ∧ (t.node y).readonly = (s.node y).readonly ∧
    (t.node y).data = (s.node y).data ∧ (t.node y).size = (s.node y).size ∧
    (t.node y).cap = (s.node y).cap
  kids_eq : kids' = Function.update kids (s.node x).parent ((kids (s.node x).parent).erase x)

/-- A node that passes the test of `vfs_unlink` has no children. -/
theorem FsInv.leaf_of_not_full {s : Fs} {nodes : List Nat} {kids : Nat → List Nat} {x : Nat}
    (h : FsInv s nodes kids) (hx : x ∈ s.rootNode :: nodes)
    (hfull : ¬((s.node x).isDir = true ∧ (s.node x).children ≠ 0)) : kids x = [] := by
  by_contra hne
  refine hfull ⟨h.links.dirs x hx hne, ?_⟩
  rw [h.links.first x hx]
  cases hk : kids x with
  | nil => exact absurd hk hne
  | cons c cs =>
    exact h.ne_zero (List.mem_cons_of_mem _ (h.links.tree.child x hx c (by simp [hk])).1)

/-- `vfs_unlink` of a node of the tree: the root and directories that are not empty stay, any
    other node is removed. -/
theorem vfsUnlink_cases {s : Fs} {nodes : List Nat} {kids : Nat → List Nat} {x : Nat}
    (h : FsInv s nodes kids) (hx : x = 0 ∨ x ∈ s.rootNode :: nodes) :
    ((x = 0 ∨ x = s.rootNode ∨ ((s.node x).isDir = true ∧ (s.node x).children ≠ 0)) ∧
      vfsUnlink s x = some (s, -1)) ∨
    (x ∈ nodes ∧ ¬ ((s.node x).isDir = true ∧ (s.node x).children ≠ 0) ∧
      ∃ t kids', vfsUnlink s x = some (t, 0) ∧ Removed s t nodes kids kids' x) := by
  by_cases hno : x = 0 ∨ x = s.rootNode
  · exact .inl ⟨hno.imp id .inl, by rw [vfsUnlink, if_pos hno]⟩
  by_cases hfull : (s.node x).isDir = true ∧ (s.node x).children ≠ 0
  · exact .inl ⟨.inr (.inr hfull), by rw [vfsUnlink, if_neg hno, if_pos hfull]⟩
  have hno' := not_or.mp hno
  have hmem : x ∈ nodes := by
    rcases List.mem_cons.mp (hx.resolve_left hno'.1) with he | hm
    · exact absurd he hno'.2
    · exact hm
  have hxr : x ∈ s.rootNode :: nodes := by simp [hmem]
  have hleaf : kids x = [] := h.leaf_of_not_full hxr hfull
  obtain ⟨hd, hkid⟩ := h.links.tree.listed x hmem
  obtain ⟨pre, post, hsplit⟩ := List.append_of_mem hkid
  have hnd := h.links.tree.kids_nodup _ hd
  have hlen := h.kids_length hd
  rw [hsplit] at hnd hlen
  obtain ⟨hloop, hread⟩ := loop_unlinkRound (s := s) post pre
    (.childrenOf (s.node x).parent) addrSpace
    (by rw [← hsplit]; exact h.links.first _ hd) (by rw [← hsplit]; exact h.links.linked _ hd)
    (fun y hy => by
      have hyk : y ∈ kids (s.node x).parent := by rw [hsplit]; simp [hy]
      refine ⟨h.ne_zero (List.mem_cons_of_mem _ (h.links.tree.child _ hd y hyk).1), ?_⟩
      rintro rfl
      exact (List.nodup_append.mp hnd).2.2 y hy y (by simp) rfl)
    (by simp only [List.length_append] at hlen; omega)
  set link := linkAfter (.childrenOf (s.node x).parent) pre with hlink
  have hxnext : (s.node x).next = post.headD 0 := by
    have hl := h.links.linked _ hd
    rw [hsplit, linked_append, linked_cons] at hl
    exact hl.2.1
  -- the records after the write through `link`
  set s₁ := s.writeLink (s.node x).next link with hs₁
  have hs₁r : s₁.rootNode = s.rootNode ∧ s₁.heap = s.heap ∧ s₁.mem = s.mem := by
    rw [hs₁]
    cases link <;> exact ⟨rfl, rfl, rfl⟩
  have hnode : (∀ y, (s₁.node y).name = (s.node y).name ∧ (s₁.node y).isDir = (s.node y).isDir ∧
      (s₁.node y).parent = (s.node y).parent ∧ (s₁.node y).readonly = (s.node y).readonly ∧
      (s₁.node y).data = (s.node y).data ∧ (s₁.node y).size = (s.node y).size ∧
      (s₁.node y).cap = (s.node y).cap) ∧
      (∀ y, (s₁.node y).children = if y = (s.node x).parent ∧ pre = [] then post.headD 0
        else (s.node y).children) ∧
      ∀ y, (s₁.node y).next = if pre.getLast? = some y then post.headD 0
        else (s.node y).next := by
    rcases List.eq_nil_or_concat pre with rfl | ⟨qs, q, rfl⟩
    · have hnode₁ : s₁.node = Function.update s.node (s.node x).parent
          { s.node (s.node x).parent with children := post.headD 0 } := by
        rw [hs₁, ← hxnext]; rfl
      rw [hnode₁]
      refine ⟨fun y => ?_, fun y => ?_, fun y => ?_⟩
      all_goals by_cases hy : y = (s.node x).parent <;> simp [hy]
    · have hnode₁ : s₁.node = Function.update s.node q { s.node q with next := post.headD 0 } := by
        rw [hs₁, hlink, List.concat_eq_append, linkAfter_concat, ← hxnext]; rfl
      rw [hnode₁]
      refine ⟨fun y => ?_, fun y => ?_, fun y => ?_⟩
      · by_cases hy : y = q <;> simp [hy]
      · by_cases hy : y = q <;> simp [hy]
      · rw [List.concat_eq_append, List.getLast?_concat]
        by_cases hy : y = q
        · simp [hy]
        · have hqy : ¬ some q = some y := fun he => hy (Option.some.inj he).symm
          rw [Function.update_of_ne hy, if_neg hqy]
  obtain ⟨hsame, hchildren, hnext⟩ := hnode
  have hlinks := h.links.remove s₁.node hmem hleaf hsplit
    (fun y _ => ⟨(hsame y).1, (hsame y).2.1, (hsame y).2.2.1⟩) hchildren hnext
  have hbuf : ∀ y, buffer (s₁.node y) = buffer (s.node y) := fun y => by
    simp only [buffer, (hsame y).2.2.2]
  -- the memory of the node
  have hlive := h.owns.live_split hmem
  rw [← hs₁r.2.1, ← hbuf x] at hlive
  obtain ⟨heap₂, hfree₂, hperm₂, hok₂, hlo₂, hhi₂⟩ :=
    freeData_spec (s := s₁) (by rw [hs₁r.2.1]; exact h.owns.heap_ok) hlive
  obtain ⟨heap₃, hfree₃, hperm₃, hok₃, hlo₃, hhi₃, -⟩ := hok₂.free hperm₂
  have hlo : heap₃.lo = s.heap.lo := by rw [hlo₃, hlo₂, hs₁r.2.1]
  have hhi : heap₃.hi = s.heap.hi := by rw [hhi₃, hhi₂, hs₁r.2.1]
  refine .inr ⟨hmem, hfull, { s₁ with heap := heap₃ }, Function.update kids (s.node x).parent
    ((kids (s.node x).parent).erase x), ?_, ⟨⟨?_, ?_⟩, hs₁r.1, hs₁r.2.2, hlo, hhi, hsame, rfl⟩⟩
  · have hread0 : s.readLink link ≠ 0 := by rw [hread]; exact hno'.1
    rw [vfsUnlink, if_neg hno, if_neg hfull, hloop]
    simp only [Option.bind_eq_bind, Option.bind_some, if_neg hread0]
    rw [← hs₁, hfree₂]
    simp [Fs.free, hfree₃]
  · rw [show ({ s₁ with heap := heap₃ } : Fs).rootNode = s.rootNode from hs₁r.1]
    exact hlinks
  · refine ⟨hok₃, ?_, ?_, ?_, ?_, fun y hy => ?_⟩
    · exact hhi ▸ h.owns.hi_le
    · exact hs₁r.1 ▸ h.owns.root_pos
    · simp only [hlo, hhi, hs₁r.1]
      exact h.owns.root_outside
    · refine hperm₃.trans (List.Perm.of_eq (List.flatMap_congr fun y _ => ?_))
      rw [blocksOf, blocksOf, hbuf y]
    · simp only [hlo, hhi]
      have hy' : y ∈ s.rootNode :: nodes := by
        simp only [hs₁r.1] at hy
        rcases List.mem_cons.mp hy with rfl | hy
        · simp
        · simp [List.mem_of_mem_erase hy]
      have hf := h.owns.files y hy'
      obtain ⟨-, hdir, -, hro, hdata, hsize, hcap⟩ := hsame y
      exact ⟨by rw [hdir, hro, hdata]; exact hf.dir, by rw [hro, hdata]; exact hf.module,
        by rw [hro, hdata, hsize, hcap]; exact hf.room⟩

/-- `vfs_unlink` of a node of the tree returns and keeps the invariant. -/
theorem vfsUnlink_spec {s : Fs} {nodes : List Nat} {kids : Nat → List Nat} {x : Nat}
    (h : FsInv s nodes kids) (hx : x = 0 ∨ x ∈ s.rootNode :: nodes) :
    ∃ t r nodes' kids', vfsUnlink s x = some (t, r) ∧ FsInv t nodes' kids' ∧ Keeps nodes s t := by
  rcases vfsUnlink_cases h hx with ⟨-, heq⟩ | ⟨-, -, t, kids', heq, hrem⟩
  · exact ⟨s, -1, nodes, kids, heq, h, .refl _ _⟩
  · refine ⟨t, 0, _, kids', heq, hrem.inv, hrem.rootNode, hrem.lo, hrem.hi, fun y _ hr => ?_⟩
    obtain ⟨-, -, -, hro, hdata, hsize, -⟩ := hrem.same y
    exact ⟨hro.trans hr, hdata, hsize⟩

end ChocoOs.Vfs
