import ChocoOs.Vfs.Paths
import ChocoOs.Vfs.Run

/-!
# What a path means

A path is a list of components, and each component leads from a directory to a node: `.` to the
directory itself, `..` to its parent, a name to the child of this name. `vfs_resolve` folds these
steps over the components, and `vfs_resolve_parent` does so up to the last one.
-/

namespace ChocoOs.Vfs
open ProgLib

/-- The children of `d`, as the pointers have them. -/
def childrenOf (s : Fs) (d : Nat) : List Nat := (childList s d).getD []

/-- The node that the component `c` leads to from `d`. -/
abbrev componentStep (s : Fs) (d : Nat) (c : CStr) : Option Nat := stepTo s (childrenOf s) d c

/-- The node that the components of the path lead to. -/
def meaning (s : Fs) (path : CStr) (cwd : Nat) : Option Nat :=
  goes (componentStep s) (isDirAt s) (startDir s path cwd) (components path)

/-- A working directory: null or a directory of the tree. -/
def Cwd (s : Fs) (cwd : Nat) : Prop := cwd = 0 ∨ (InTree s cwd ∧ isDirAt s cwd = true)

section

variable {s : Fs} {nodes : List Nat} {kids : Nat → List Nat}

theorem FsInv.childrenOf_eq (h : FsInv s nodes kids) {d : Nat} (hd : d ∈ s.rootNode :: nodes) :
    childrenOf s d = kids d := by
  rw [childrenOf, h.wellFormed.childList_eq d hd, Option.getD_some]

theorem FsInv.componentStep_eq (h : FsInv s nodes kids) {d : Nat} (hd : d ∈ s.rootNode :: nodes)
    (c : CStr) : componentStep s d c = stepTo s kids d c := by
  unfold componentStep stepTo
  rw [h.childrenOf_eq hd]

/-- No step leaves the tree. -/
theorem FsInv.componentStep_mem (h : FsInv s nodes kids) {d m : Nat} {c : CStr}
    (hd : d ∈ s.rootNode :: nodes) (hm : componentStep s d c = some m) :
    m ∈ s.rootNode :: nodes := by
  rw [h.componentStep_eq hd] at hm
  exact h.stepTo_mem hd hm

theorem FsInv.goes_eq (h : FsInv s nodes kids) {d : Nat} (hd : d ∈ s.rootNode :: nodes)
    (cs : List CStr) : goes (stepTo s kids) (isDirAt s) d cs =
      goes (componentStep s) (isDirAt s) d cs := by
  apply goes_congr (P := fun x => x ∈ s.rootNode :: nodes)
  · intro x c m hx hm
    exact h.componentStep_mem hx hm
  · intro x c hx
    exact (h.componentStep_eq hx c).symm
  · intro x _
    rfl
  · exact hd

theorem FsInv.cwd_mem (h : FsInv s nodes kids) {cwd : Nat} (hcwd : Cwd s cwd) :
    cwd = 0 ∨ cwd ∈ s.rootNode :: nodes :=
  hcwd.imp id fun hc => (h.inTree_iff cwd).mp hc.1

/-- A path starts at a directory. -/
theorem FsInv.startDir_isDir (h : FsInv s nodes kids) {cwd : Nat} (path : CStr)
    (hcwd : Cwd s cwd) : isDirAt s (startDir s path cwd) = true := by
  have hroot : isDirAt s s.rootNode = true := h.links.root_dir
  unfold startDir
  split
  · exact hroot
  · split
    · next h0 => exact (hcwd.resolve_left h0).2
    · exact hroot

/-- `vfs_resolve` returns what the path means. -/
theorem FsInv.vfsResolve_meaning (h : FsInv s nodes kids) {cwd : Nat} (path : CStr)
    (hcwd : Cwd s cwd) : vfsResolve s path cwd = some ((meaning s path cwd).getD 0) := by
  have hstart := startDir_mem path (h.cwd_mem hcwd)
  rw [h.vfsResolve_eq hstart, h.goes_eq hstart, meaning]

/-- What a path means is a node. -/
theorem FsInv.meaning_mem (h : FsInv s nodes kids) {cwd m : Nat} {path : CStr} (hcwd : Cwd s cwd)
    (hm : meaning s path cwd = some m) : m ∈ s.rootNode :: nodes :=
  goes_mem (P := fun x => x ∈ s.rootNode :: nodes) (fun _ _ _ hx => h.componentStep_mem hx)
    (startDir_mem path (h.cwd_mem hcwd)) hm

/-- Resolutions agree where meanings do. -/
theorem FsInv.vfsResolve_eq_iff (h : FsInv s nodes kids) {cwd m : Nat} {path : CStr}
    (hcwd : Cwd s cwd) (hm : m ≠ 0) :
    vfsResolve s path cwd = some m ↔ meaning s path cwd = some m := by
  rw [h.vfsResolve_meaning path hcwd]
  cases hmean : meaning s path cwd with
  | none =>
    constructor
    · intro heq
      exact absurd (Option.some.inj heq).symm hm
    · intro heq
      cases heq
  | some k => rw [Option.getD_some]

end

/-! ## The leaf -/

/-- `walk` to the parent takes the leaf from the end of the path. -/
theorem walkPath_leaf {s : Fs} {path : CStr} {cwd d : Nat} {leaf l : Option CStr}
    (h : walkPath s path cwd true leaf = some (d, l)) (hd : d ≠ 0) : ∃ l', l = some l' ∧ l' <:+ path := by
  unfold walkPath at h
  split at h
  · cases h
    exact absurd rfl hd
  · refine loop_preserves (I := fun c : Nat × CStr => c.2 <:+ path)
      (Q := fun r : Nat × Option CStr => r.1 ≠ 0 → ∃ l', r.2 = some l' ∧ l' <:+ path)
      ?_ ?_ _ _ _ (List.dropWhile_suffix _) h hd
    · rintro ⟨cur, start⟩ r hstart hround hr
      simp only [walkRound] at hround
      split at hround
      · cases hround
        exact ⟨start, rfl, hstart⟩
      · next hlast =>
        obtain ⟨nxt, -, hround⟩ := Option.bind_eq_some_iff.mp hround
        split at hround
        · cases hround
          exact absurd rfl hr
        · split at hround
          · next hrest => exact absurd ⟨hrest, trivial⟩ hlast
          · cases hround
    · rintro ⟨cur, start⟩ ⟨nxt, rest⟩ hstart hround
      simp only [walkRound] at hround
      split at hround
      · cases hround
      · obtain ⟨m, -, hround⟩ := Option.bind_eq_some_iff.mp hround
        split at hround
        · cases hround
        · split at hround
          · cases hround
          · cases hround
            exact ((List.dropWhile_suffix _).trans (List.drop_suffix _ _)).trans hstart

/-! ## The two functions -/

/-- `vfs_resolve` returns, and folds the steps over the components of the path. If the components
    before the last one lead to a directory, `vfs_resolve_parent` returns it and sets the leaf to
    the last component, with what is behind it, and `vfs_resolve` takes one step more; else
    `vfs_resolve_parent` returns null and leaves the leaf alone, and `vfs_resolve` returns null. -/
theorem resolve_components {s : Fs} (h : Reachable s) {cwd : Nat} (hcwd : Cwd s cwd)
    (path : CStr) :
    vfsResolve s path cwd = some ((meaning s path cwd).getD 0) ∧
    meaning s path cwd ≠ some 0 ∧
    ∀ (cs : List CStr) (c : CStr) (leaf : Option CStr), components path = cs ++ [c] →
      match (goes (componentStep s) (isDirAt s) (startDir s path cwd) cs).filter (isDirAt s) with
      | none => vfsResolveParent s path cwd leaf = some (0, leaf) ∧
          vfsResolve s path cwd = some 0
      | some d => d ≠ 0 ∧ vfsResolve s path cwd = some ((componentStep s d c).getD 0) ∧
          ∃ k, vfsResolveParent s path cwd leaf =
              some (d, some (c ++ List.replicate k slash)) ∧
            c ++ List.replicate k slash <:+ path := by
  obtain ⟨nodes, kids, hinv⟩ := reachable_fsInv h
  have hstart := startDir_mem path (hinv.cwd_mem hcwd)
  have hdir := hinv.startDir_isDir path hcwd
  refine ⟨hinv.vfsResolve_meaning path hcwd, fun h0 => ?_, fun cs c leaf hcs => ?_⟩
  · exact hinv.ne_zero (hinv.meaning_mem hcwd h0) rfl
  have hne : components path ≠ [] := by
    rw [hcs]
    simp
  obtain ⟨cs', c', k, hcs', hparent⟩ := hinv.vfsResolveParent_eq leaf hstart hne
  obtain ⟨rfl, hc⟩ := List.append_inj' (hcs.symm.trans hcs') rfl
  obtain rfl : c = c' := by simpa using hc
  have hresolve := hinv.vfsResolve_meaning path hcwd
  rw [meaning, hcs, goes_snoc, enters_eq_goes hdir] at hresolve
  rw [enters_eq_goes hdir, hinv.goes_eq hstart] at hparent
  cases hd : (goes (componentStep s) (isDirAt s) (startDir s path cwd) cs).filter (isDirAt s) with
  | none =>
    rw [hd] at hparent hresolve
    exact ⟨hparent, hresolve⟩
  | some d =>
    rw [hd] at hparent hresolve
    have hmem : d ∈ s.rootNode :: nodes := by
      have hgoes := (Option.filter_eq_some_iff.mp hd).1
      exact goes_mem (P := fun x => x ∈ s.rootNode :: nodes)
        (fun _ _ _ hx => hinv.componentStep_mem hx) hstart hgoes
    have hd0 := hinv.ne_zero hmem
    obtain ⟨l, hl, hsuffix⟩ := walkPath_leaf hparent hd0
    cases hl
    exact ⟨hd0, hresolve, k, hparent, hsuffix⟩

/-- The path `.//../` in a tree with only the root. -/
theorem resolve_components_boot : vfsResolve bootFs [dot, slash, slash, dot, dot, slash] 0 = some 0x1000 ∧
    ∃ k, vfsResolveParent bootFs [dot, slash, slash, dot, dot, slash] 0 none =
        some (0x1000, some ([dot, dot] ++ List.replicate k slash)) ∧
      [dot, dot] ++ List.replicate k slash <:+ [dot, slash, slash, dot, dot, slash] := by
  have hcwd : Cwd bootFs 0 := .inl rfl
  have h := (resolve_components (.init start_bootFs) hcwd
    [dot, slash, slash, dot, dot, slash]).2.2 [[dot]] [dot, dot] none (by decide)
  rw [show (goes (componentStep bootFs) (isDirAt bootFs)
    (startDir bootFs [dot, slash, slash, dot, dot, slash] 0) [[dot]]).filter (isDirAt bootFs) =
      some 0x1000 by decide] at h
  obtain ⟨-, hresolve, hparent⟩ := h
  refine ⟨?_, hparent⟩
  rw [hresolve]
  decide

/-- When a component before the last one leads nowhere, the leaf stays as it was. -/
theorem not_resolve_components : ¬∀ (s : Fs) (cwd : Nat) (path : CStr) (cs : List CStr) (c : CStr)
    (leaf : Option CStr), Reachable s → Cwd s cwd → components path = cs ++ [c] →
    ∃ d k, vfsResolveParent s path cwd leaf = some (d, some (c ++ List.replicate k slash)) := by
  intro hall
  obtain ⟨d, k, heq⟩ := hall bootFs 0 [97, slash, 98] [[97]] [98] none (.init start_bootFs)
    (.inl rfl) (by decide)
  rw [show vfsResolveParent bootFs [97, slash, 98] 0 none = some (0, none) by decide +kernel] at heq
  cases heq

end ChocoOs.Vfs
