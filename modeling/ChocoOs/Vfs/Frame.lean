import ChocoOs.Vfs.Naming
import ChocoOs.Vfs.Resolution

/-!
# What creating and removing a node does to the paths

A creation adds one step to the tree, from a directory to the new node, and a removal takes the
steps to one node away. All other steps stay, so all other paths lead where they led.
-/

namespace ChocoOs.Vfs
open ProgLib

/-- The nodes that `vfs_resolve` comes to on its way along the path. -/
def passes (s : Fs) (path : CStr) (cwd : Nat) : List Nat :=
  visits (componentStep s) (isDirAt s) (startDir s path cwd) (components path)

/-- Erasing the only element of its kind. -/
theorem find?_erase {l : List Nat} {x : Nat} {p : Nat → Bool} (hnd : l.Nodup)
    (honly : ∀ b ∈ l, p b = true → p x = true → b = x) :
    (l.erase x).find? p = if l.find? p = some x then none else l.find? p := by
  induction l with
  | nil => rfl
  | cons a l ih =>
    obtain ⟨hal, hnd⟩ := List.nodup_cons.mp hnd
    have ih := ih hnd fun b hb => honly b (List.mem_cons_of_mem _ hb)
    by_cases hax : a = x
    · subst hax
      rw [List.erase_cons_head]
      by_cases hpa : p a = true
      · rw [List.find?_cons_of_pos hpa, if_pos rfl]
        apply List.find?_eq_none.mpr
        intro b hb hpb
        exact hal (honly b (List.mem_cons_of_mem _ hb) hpb hpa ▸ hb)
      · rw [List.find?_cons_of_neg hpa, if_neg]
        intro heq
        exact hpa (List.find?_some heq)
    · rw [List.erase_cons_tail (by simpa using hax)]
      by_cases hpa : p a = true
      · rw [List.find?_cons_of_pos hpa, List.find?_cons_of_pos hpa,
          if_neg fun heq => hax (Option.some.inj heq)]
      · rw [List.find?_cons_of_neg hpa, List.find?_cons_of_neg hpa, ih]

theorem startDir_congr {s t : Fs} (h : t.rootNode = s.rootNode) (path : CStr) (cwd : Nat) :
    startDir t path cwd = startDir s path cwd := by
  unfold startDir
  rw [h]

section

variable {s t : Fs} {nodes nodes' : List Nat} {kids kids' : Nat → List Nat}

/-! ## Creating -/

/-- The steps of the old nodes after a creation. -/
theorem Created.componentStep_old {d n : Nat} {name : CStr} {isDir : Bool}
    (h : Created s t nodes kids kids' d n name isDir) (hs : FsInv s nodes kids)
    (hd : d ∈ s.rootNode :: nodes) {x : Nat} (hx : x ∈ s.rootNode :: nodes) (c : CStr) :
    componentStep t x c =
      if x = d ∧ c = name ∧ c ≠ [dot] ∧ c ≠ [dot, dot] then some n else componentStep s x c := by
  have hx' : x ∈ t.rootNode :: n :: nodes := by
    rw [h.rootNode]
    rcases List.mem_cons.mp hx with rfl | hx
    · exact List.mem_cons_self ..
    · exact List.mem_cons_of_mem _ (List.mem_cons_of_mem _ hx)
  rw [h.inv.componentStep_eq hx', hs.componentStep_eq hx]
  exact h.stepTo_old hs hd hx c

/-- A working directory stays one when the tree grows. -/
theorem Extends.cwd (h : Extends s t nodes nodes' kids kids') (hs : FsInv s nodes kids) {cwd : Nat}
    (hcwd : Cwd s cwd) : Cwd t cwd := by
  refine hcwd.imp id fun ⟨hin, hdir⟩ => ?_
  have hmem := (hs.inTree_iff cwd).mp hin
  refine ⟨(h.inv.inTree_iff cwd).mpr (h.mem_tree hmem), ?_⟩
  rw [h.isDirAt_eq hmem]
  exact hdir

/-- Whatever a path meant it means when the tree has grown. -/
theorem Extends.meaning_mono (h : Extends s t nodes nodes' kids kids') (hs : FsInv s nodes kids)
    {cwd m : Nat} {path : CStr} (hcwd : Cwd s cwd) (hm : meaning s path cwd = some m) :
    meaning t path cwd = some m := by
  have hstart := startDir_mem path (hs.cwd_mem hcwd)
  unfold meaning
  rw [startDir_congr h.rootNode]
  refine goes_mono (P := fun x => x ∈ s.rootNode :: nodes) ?_ ?_ hstart hm
  · intro x c k hx hk
    refine ⟨?_, hs.componentStep_mem hx hk⟩
    rw [h.inv.componentStep_eq (h.mem_tree hx)]
    apply h.step x c k hx
    rw [← hs.componentStep_eq hx]
    exact hk
  · intro x hx hdir
    rw [h.isDirAt_eq hx]
    exact hdir

theorem Extends.vfsResolve_mono (h : Extends s t nodes nodes' kids kids') (hs : FsInv s nodes kids)
    {cwd m : Nat} {path : CStr} (hcwd : Cwd s cwd) (hm0 : m ≠ 0)
    (hm : vfsResolve s path cwd = some m) : vfsResolve t path cwd = some m := by
  rw [h.inv.vfsResolve_eq_iff (h.cwd hs hcwd) hm0]
  apply h.meaning_mono hs hcwd
  exact (hs.vfsResolve_eq_iff hcwd hm0).mp hm

/-! ## Removing -/

theorem Removed.isDirAt_eq {x : Nat} (h : Removed s t nodes kids kids' x) (y : Nat) :
    isDirAt t y = isDirAt s y := (h.same y).2.1

theorem Removed.mem_tree {x : Nat} (h : Removed s t nodes kids kids' x) {y : Nat}
    (hy : y ∈ s.rootNode :: nodes) (hne : y ≠ x) : y ∈ t.rootNode :: nodes.erase x := by
  rw [h.rootNode]
  rcases List.mem_cons.mp hy with rfl | hy
  · exact List.mem_cons_self ..
  · exact List.mem_cons_of_mem _ ((List.mem_erase_of_ne hne).mpr hy)

/-- The steps of the other nodes after a removal: what led to the removed node leads nowhere. -/
theorem Removed.componentStep_eq {x : Nat} (h : Removed s t nodes kids kids' x)
    (hs : FsInv s nodes kids) (hx : x ∈ nodes) (hleaf : kids x = []) {y : Nat}
    (hy : y ∈ s.rootNode :: nodes) (hne : y ≠ x) (c : CStr) :
    componentStep t y c = if componentStep s y c = some x then none else componentStep s y c := by
  rw [h.inv.componentStep_eq (h.mem_tree hy hne), hs.componentStep_eq hy]
  have hname : ∀ z, (t.node z).name = (s.node z).name := fun z => (h.same z).1
  by_cases hdot : c = [dot]
  · have hself : ∀ (u : Fs) (k : Nat → List Nat), stepTo u k y c = some y := by
      intro u k
      rw [stepTo, if_pos hdot]
    rw [hself, hself, if_neg fun heq => hne (Option.some.inj heq)]
  by_cases hdots : c = [dot, dot]
  · -- the removed node has no children, so it is nobody's parent
    have hparent : stepTo t kids' y c = stepTo s kids y c := by
      rw [stepTo, stepTo, if_neg hdot, if_neg hdot, if_pos hdots, if_pos hdots, (h.same y).2.2.1]
    rw [hparent, if_neg]
    intro heq
    rw [stepTo, if_neg hdot, if_pos hdots] at heq
    split at heq
    · next hp =>
      rcases List.mem_cons.mp hy with rfl | hy
      · exact hp hs.links.root_parent
      · have hkid := (hs.links.tree.listed y hy).2
        rw [Option.some.inj heq, hleaf] at hkid
        cases hkid
    · exact hne (Option.some.inj heq)
  · have hchild : ∀ (u : Fs) (k : Nat → List Nat), (∀ z, (u.node z).name = (s.node z).name) →
        stepTo u k y c = (k y).find? fun z => (s.node z).name == c := by
      intro u k hu
      rw [stepTo, if_neg hdot, if_neg hdots]
      simp only [hu]
    rw [hchild t kids' hname, hchild s kids fun _ => rfl, h.kids_eq]
    by_cases hyp : y = (s.node x).parent
    · -- the siblings of the removed node
      rw [hyp, Function.update_self]
      have hnd := hs.links.tree.kids_nodup y hy
      rw [hyp] at hnd hy
      have hinj : ∀ b ∈ kids (s.node x).parent, (s.node b).name = (s.node x).name → b = x :=
        fun b hb hbn => hs.links.name_inj hy hb (hs.links.tree.listed x hx).2 hbn
      exact find?_erase hnd (p := fun z => (s.node z).name == c) fun b hb hpb hpx => by
        refine hinj b hb ?_
        rw [beq_iff_eq] at hpb hpx
        exact hpb.trans hpx.symm
    · rw [Function.update_of_ne hyp, if_neg]
      intro heq
      have hkid := List.mem_of_find?_eq_some heq
      exact hyp (hs.links.tree.child y hy x hkid).2.symm

theorem Removed.cwd {x : Nat} (h : Removed s t nodes kids kids' x) (hs : FsInv s nodes kids)
    {cwd : Nat} (hcwd : Cwd s cwd) (hne : cwd ≠ x) : Cwd t cwd := by
  refine hcwd.imp id fun ⟨hin, hdir⟩ => ?_
  refine ⟨(h.inv.inTree_iff cwd).mpr (h.mem_tree ((hs.inTree_iff cwd).mp hin) hne), ?_⟩
  rw [h.isDirAt_eq]
  exact hdir

/-- After a removal the paths through the node fail, and the others lead where they led. -/
theorem Removed.vfsResolve_eq {x : Nat} (h : Removed s t nodes kids kids' x)
    (hs : FsInv s nodes kids) (hx : x ∈ nodes) (hleaf : kids x = []) {cwd : Nat} (path : CStr)
    (hcwd : Cwd s cwd) (hne : cwd ≠ x) : vfsResolve t path cwd =
      if x ∈ passes s path cwd then some 0 else vfsResolve s path cwd := by
  have hstart := startDir_mem path (hs.cwd_mem hcwd)
  have hroot : s.rootNode ≠ x := by
    rintro rfl
    exact (List.nodup_cons.mp hs.links.tree.nodup).1 hx
  have hstart_ne : startDir s path cwd ≠ x := by
    unfold startDir
    split
    · exact hroot
    · split
      · exact hne
      · exact hroot
  have hmean : meaning t path cwd = if x ∈ passes s path cwd then none else meaning s path cwd := by
    unfold meaning passes
    rw [startDir_congr h.rootNode]
    apply goes_remove (P := fun y => y ∈ s.rootNode :: nodes)
    · intro y c m hy hm
      exact hs.componentStep_mem hy hm
    · intro y c hy hyx
      exact h.componentStep_eq hs hx hleaf hy hyx c
    · intro y _
      exact h.isDirAt_eq y
    · exact hstart
    · exact hstart_ne
  rw [h.inv.vfsResolve_meaning path (h.cwd hs hcwd hne), hs.vfsResolve_meaning path hcwd, hmean]
  split <;> rfl

end

/-! ## Both -/

/-- Creating a node and removing it again brings every path back. -/
theorem Created.vfsUnlink_restores {s t : Fs} {nodes : List Nat} {kids kids' : Nat → List Nat}
    {d n : Nat} {name : CStr} {isDir : Bool} (h : Created s t nodes kids kids' d n name isDir)
    (hs : FsInv s nodes kids) (hd : d ∈ s.rootNode :: nodes)
    (hnew : ∀ c ∈ kids d, (s.node c).name ≠ name) :
    ∃ u, vfsUnlink t n = some (u, 0) ∧
      ∀ path cwd, Cwd s cwd → vfsResolve u path cwd = vfsResolve s path cwd := by
  have hext := h.extends hs hd hnew
  have hn : n ∈ t.rootNode :: n :: nodes := by simp
  have hempty : ¬((t.node n).isDir = true ∧ (t.node n).children ≠ 0) := by
    rw [h.new]
    exact fun hc => hc.2 rfl
  have hleaf := h.inv.leaf_of_not_full hn hempty
  rcases vfsUnlink_cases h.inv (.inr hn) with ⟨hno, -⟩ | ⟨hmem, -, u, kids'', heq, hrem⟩
  · rcases hno with h0 | hroot | hfull
    · exact absurd h0 (h.inv.ne_zero hn)
    · rw [h.rootNode] at hroot
      exact absurd (hroot ▸ List.mem_cons_self ..) h.fresh
    · exact absurd hfull hempty
  refine ⟨u, heq, fun path cwd hcwd => ?_⟩
  have hcwd' := hext.cwd hs hcwd
  have hne : cwd ≠ n := by
    rcases hcwd with rfl | ⟨hin, -⟩
    · exact (h.inv.ne_zero hn).symm
    · rintro rfl
      exact h.fresh ((hs.inTree_iff cwd).mp hin)
  have hmean : meaning u path cwd = meaning s path cwd := by
    have hroot : u.rootNode = s.rootNode := hrem.rootNode.trans h.rootNode
    unfold meaning
    rw [startDir_congr hroot]
    apply goes_congr (P := fun x => x ∈ s.rootNode :: nodes)
    · intro x c m hx hm
      exact hs.componentStep_mem hx hm
    · intro x c hx
      have hxn : x ≠ n := h.ne_new hx
      rw [hrem.componentStep_eq h.inv hmem hleaf (hext.mem_tree hx) hxn,
        h.componentStep_old hs hd hx]
      by_cases hc : x = d ∧ c = name ∧ c ≠ [dot] ∧ c ≠ [dot, dot]
      · -- the name that led to the new node led nowhere before
        rw [if_pos hc, if_pos rfl]
        obtain ⟨rfl, rfl, hdot, hdots⟩ := hc
        rw [hs.componentStep_eq hx, stepTo, if_neg hdot, if_neg hdots]
        refine (List.find?_eq_none.mpr fun b hb => ?_).symm
        simpa using hnew b hb
      · rw [if_neg hc, if_neg]
        intro heq
        exact h.fresh (hs.componentStep_mem hx heq)
    · intro x hx
      rw [hrem.isDirAt_eq, h.isDirAt_old hx]
    · exact startDir_mem path (hs.cwd_mem hcwd)
  rw [hrem.inv.vfsResolve_meaning path (hrem.cwd h.inv hcwd' hne),
    hs.vfsResolve_meaning path hcwd, hmean]

/-- In every state of a run: a creation in a directory, under a name of 1 to 63 bytes, keeps every
    path that led somewhere, and unlinking the new node brings all paths back; unlinking a node
    makes exactly the paths through it fail and keeps the others; and what fails changes nothing. -/
theorem create_unlink_frame {s : Fs} (h : Reachable s) :
    (∀ (pick : Pick) (d : Nat) (name : CStr) (isDir : Bool), InTree s d → isDirAt s d = true →
      0 < name.length → name.length < 64 →
      ∃ t n, vfsCreate pick s d name isDir = some (t, n) ∧
        (n = 0 → ∀ path cwd, vfsResolve t path cwd = vfsResolve s path cwd) ∧
        (n ≠ 0 → (∀ path cwd m, Cwd s cwd → m ≠ 0 → vfsResolve s path cwd = some m →
            vfsResolve t path cwd = some m) ∧
          ∃ u, vfsUnlink t n = some (u, 0) ∧
            ∀ path cwd, Cwd s cwd → vfsResolve u path cwd = vfsResolve s path cwd)) ∧
    ∀ n, InTree s n → ∃ t r, vfsUnlink s n = some (t, r) ∧
      (r ≠ 0 → ∀ path cwd, vfsResolve t path cwd = vfsResolve s path cwd) ∧
      (r = 0 → ∀ path cwd, Cwd s cwd → cwd ≠ n →
        (n ∉ passes s path cwd → vfsResolve t path cwd = vfsResolve s path cwd) ∧
        (n ∈ passes s path cwd → vfsResolve t path cwd = some 0)) := by
  obtain ⟨nodes, kids, hs⟩ := reachable_fsInv h
  refine ⟨fun pick d name isDir hin hdir hpos hlt => ?_, fun n hin => ?_⟩
  · have hd := (hs.inTree_iff d).mp hin
    rcases hs.vfsCreate_eq pick isDir hd hdir ⟨hpos, hlt⟩ with
      ⟨-, heq⟩ | ⟨hnew, hfits, t, kids', heq, hc⟩
    · exact ⟨s, 0, heq, fun _ _ _ => rfl, fun h0 => absurd rfl h0⟩
    · refine ⟨t, _, heq, fun h0 => absurd h0 hfits.1, fun _ => ⟨?_, ?_⟩⟩
      · intro path cwd m hcwd hm0 hm
        exact (hc.extends hs hd hnew).vfsResolve_mono hs hcwd hm0 hm
      · exact hc.vfsUnlink_restores hs hd hnew
  · have hn := (hs.inTree_iff n).mp hin
    rcases vfsUnlink_cases hs (.inr hn) with ⟨-, heq⟩ | ⟨hmem, hfull, t, kids', heq, hrem⟩
    · exact ⟨s, -1, heq, fun _ _ _ => rfl, fun hr => by cases hr⟩
    · refine ⟨t, 0, heq, fun hr => absurd rfl hr, fun _ path cwd hcwd hne => ?_⟩
      have hres := hrem.vfsResolve_eq hs hmem (hs.leaf_of_not_full hn hfull) path hcwd hne
      constructor
      · intro hnot
        rw [hres, if_neg hnot]
      · intro hpass
        rw [hres, if_pos hpass]

/-- A directory is created and removed in a tree with only the root. -/
theorem create_unlink_frame_boot : ∃ t n, vfsCreate pickNext bootFs 0x1000 [97] true = some (t, n) ∧
    n = 0x10000 ∧ ∃ u, vfsUnlink t n = some (u, 0) ∧
      ∀ path cwd, Cwd bootFs cwd → vfsResolve u path cwd = vfsResolve bootFs path cwd := by
  have hroot : bootFs.rootNode = 0x1000 := by decide
  obtain ⟨t, n, heq, -, hcreated⟩ := (create_unlink_frame (.init start_bootFs)).1 pickNext 0x1000
    [97] true (hroot ▸ .root) (by decide) (by decide) (by decide)
  have hn : n = 0x10000 := by
    have hsnd : (vfsCreate pickNext bootFs 0x1000 [97] true).map Prod.snd = some 0x10000 := by
      decide +kernel
    rw [heq] at hsnd
    exact Option.some.inj hsnd
  exact ⟨t, n, heq, hn, (hcreated (by rw [hn]; decide)).2⟩

end ChocoOs.Vfs
