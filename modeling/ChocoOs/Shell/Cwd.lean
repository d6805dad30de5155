import ChocoOs.Shell.WriteLaw
import ChocoOs.Vfs.Mkdirs
import ChocoOs.Vfs.NodePath

/-!
# The working directory

The shell keeps the node of its working directory in a static variable. `cd`, `mkdir` and
`write` leave that node in the tree; `rm` frees it when the path leads to it and it is an empty
directory other than the root.
-/

namespace ChocoOs.Shell
open ProgLib ChocoOs.Vfs

/-- `cwd` is a directory of the tree. -/
def CwdAlive (sh : Session) : Prop := InTree sh.fs sh.cwd ∧ (sh.fs.node sh.cwd).isDir = true

/-- `rm` is not asked to remove the working directory while that is empty and not the root. -/
def RmSafe (sh : Session) (argv : List CStr) : Prop :=
  ¬ (2 ≤ argv.length ∧ vfsResolve sh.fs (argAt argv 1) sh.cwd = some sh.cwd ∧
    sh.cwd ≠ sh.fs.rootNode ∧ (sh.fs.node sh.cwd).children = 0)

/-- The nodes of `s` are nodes of `t`, directories stay directories. -/
structure Survives (s t : Fs) (nodes nodes' : List Nat) (kids' : Nat → List Nat) : Prop where
  inv : FsInv t nodes' kids'
  rootNode : t.rootNode = s.rootNode
  sub : nodes ⊆ nodes'
  isDirAt_eq : ∀ x ∈ s.rootNode :: nodes, isDirAt t x = isDirAt s x

theorem Survives.refl {s : Fs} {nodes : List Nat} {kids : Nat → List Nat}
    (h : FsInv s nodes kids) : Survives s s nodes nodes kids :=
  ⟨h, rfl, List.Subset.refl _, fun _ _ => rfl⟩

theorem Survives.sameTree {s t u : Fs} {nodes nodes' : List Nat} {kids' : Nat → List Nat}
    (hs : Survives s t nodes nodes' kids') (h : SameTree t u nodes' kids') :
    Survives s u nodes nodes' kids' := by
  refine ⟨h.inv, h.rootNode.trans hs.rootNode, hs.sub, fun x hx => ?_⟩
  rw [h.isDirAt_eq]
  exact hs.isDirAt_eq x hx

theorem Survives.of_extends {s t : Fs} {nodes nodes' : List Nat} {kids kids' : Nat → List Nat}
    (h : Extends s t nodes nodes' kids kids') : Survives s t nodes nodes' kids' :=
  ⟨h.inv, h.rootNode, h.sub, fun _ hx => h.isDirAt_eq hx⟩

/-- A directory of `s` is still alive in `t`. -/
theorem Survives.cwdAlive {s t : Fs} {nodes nodes' : List Nat} {kids' : Nat → List Nat}
    {cwd : Nat} (h : Survives s t nodes nodes' kids') (hcwd : cwd ∈ s.rootNode :: nodes)
    (hdir : isDirAt s cwd = true) : CwdAlive ⟨t, cwd⟩ := by
  refine ⟨(h.inv.inTree_iff cwd).mpr ?_, (h.isDirAt_eq cwd hcwd).trans hdir⟩
  rw [h.rootNode]
  exact List.cons_subset_cons _ h.sub hcwd

section commands

variable {s : Fs} {nodes : List Nat} {kids : Nat → List Nat} {cwd : Nat}

/-- A path leads nowhere or to a node of the tree. -/
theorem FsInv.vfsResolve_mem (h : FsInv s nodes kids) (path : CStr)
    (hcwd : cwd ∈ s.rootNode :: nodes) :
    ∃ n, vfsResolve s path cwd = some n ∧ (n = 0 ∨ n ∈ s.rootNode :: nodes) := by
  have hstart := startDir_mem path (.inr hcwd)
  refine ⟨_, h.vfsResolve_eq hstart, ?_⟩
  cases hgo : goes (stepTo s kids) (isDirAt s) (startDir s path cwd) (components path) with
  | none => exact .inl rfl
  | some n =>
    exact .inr (goes_mem (P := fun x => x ∈ s.rootNode :: nodes)
      (fun _ _ _ hx hm => h.stepTo_mem hx hm) hstart hgo)

theorem startDir_isDir (h : FsInv s nodes kids) (path : CStr) (hcwd : cwd ∈ s.rootNode :: nodes)
    (hdir : isDirAt s cwd = true) : isDirAt s (startDir s path cwd) = true := by
  unfold startDir
  split
  · exact h.links.root_dir
  · rw [if_pos (h.ne_zero hcwd)]
    exact hdir

/-- `write` returns and no node disappears. -/
theorem cmdWrite_survives (picks : Nat → Pick) (h : FsInv s nodes kids)
    (hcwd : cwd ∈ s.rootNode :: nodes) (hdir : isDirAt s cwd = true) {argv : List CStr}
    (hline : FitsLine argv) :
    ∃ t out nodes' kids', cmdWrite picks ⟨s, cwd⟩ argv = some (⟨t, cwd⟩, out) ∧
      Survives s t nodes nodes' kids' := by
  have hself := Survives.refl h
  rcases argv with - | ⟨cmd, - | ⟨path, words⟩⟩
  · exact ⟨s, _, nodes, kids, rfl, hself⟩
  · exact ⟨s, _, nodes, kids, rfl, hself⟩
  by_cases hne : words = []
  · subst hne
    exact ⟨s, _, nodes, kids, rfl, hself⟩
  rw [cmdWrite_eq picks s cwd cmd path hne]
  have hstart := startDir_mem path (.inr hcwd)
  rcases FsInv.leaf_cases h hstart (startDir_isDir h path hcwd hdir) with ⟨leaf, hparent⟩ |
    ⟨d, c, k, cs, hparent, hsplit, hd0, hd, hddir, -, -⟩
  · refine ⟨s, [.text "write: bad path ", .arg path, .text "\n"], nodes, kids, ?_, hself⟩
    rw [hparent, Option.bind_some, if_pos (.inl rfl)]
  have hc := component_ne (by rw [hsplit]; simp : c ∈ components path)
  have hwords : ∀ w ∈ words, w ≠ [] ∧ 0 ∉ w := fun w hw =>
    ⟨(hline.1 w (by simp [hw])).1, (hline.1 w (by simp [hw])).2.1⟩
  have hlen := length_joined_le hne hline
  have hgo : ¬ (d = 0 ∨ some (c ++ List.replicate k slash) = none) := by simp [hd0]
  obtain ⟨f, hf, hfmem⟩ := FsInv.vfsResolve_mem h path hcwd
  rw [hparent, Option.bind_some, if_neg hgo, Option.getD_some, writeTarget, hf,
    Option.bind_some]
  by_cases hf0 : f = 0
  · subst hf0
    rw [if_pos rfl, leafName_eq hc.2]
    have hname : 0 < (c.take (vfsNameMax - 1)).length ∧
        (c.take (vfsNameMax - 1)).length < vfsNameMax := by
      have := List.length_pos_of_ne_nil hc.1
      rw [List.length_take, vfsNameMax]
      omega
    rcases h.vfsCreate_eq (picks 0) false hd hddir hname with
      ⟨-, hcreate⟩ | ⟨hnew, -, t, kids', hcreate, hcreated⟩
    · refine ⟨s, [.text "write: cannot write ", .arg path, .text "\n"], nodes, kids, ?_, hself⟩
      rw [hcreate, Option.bind_some, if_pos (.inl rfl)]
    · obtain ⟨u, hcmd, hu, -⟩ := cmdWrite_found picks cwd path hcreated.inv
        (List.mem_cons_self ..) (by rw [hcreated.new]) (by rw [hcreated.new]) hwords hlen
      refine ⟨u, [], picks 0 s.heap nodeSize :: nodes, kids',
        by rw [hcreate, Option.bind_some]; exact hcmd, ?_⟩
      exact (Survives.of_extends (hcreated.extends h hd hnew)).sameTree hu
  · have hfmem := hfmem.resolve_left hf0
    rw [if_neg hf0, Option.bind_some]
    by_cases herr : (s.node f).isDir = true ∨ (s.node f).readonly = true
    · exact ⟨s, _, nodes, kids, if_pos (.inr herr), hself⟩
    · simp only [not_or, Bool.not_eq_true] at herr
      have hmem := h.file_mem (.inr hfmem) hf0 herr.1
      obtain ⟨u, hcmd, hu, -⟩ := cmdWrite_found picks cwd path h hmem
        herr.1 herr.2 hwords hlen
      exact ⟨u, [], nodes, kids, hcmd, hself.sameTree hu⟩

/-- `cd` returns, and `cwd` is a directory afterwards. -/
theorem cmdCd_alive (h : FsInv s nodes kids) (hcwd : cwd ∈ s.rootNode :: nodes)
    (hdir : isDirAt s cwd = true) (argv : List CStr) :
    ∃ c out, cmdCd ⟨s, cwd⟩ argv = some (⟨s, c⟩, out) ∧ c ∈ s.rootNode :: nodes ∧
      isDirAt s c = true := by
  unfold cmdCd
  by_cases hargc : argv.length < 2
  · exact ⟨s.rootNode, _, if_pos hargc, by simp, h.links.root_dir⟩
  rw [if_neg hargc]
  obtain ⟨n, hn, hmem⟩ := FsInv.vfsResolve_mem h (argAt argv 1) hcwd
  simp only [hn, Option.bind_eq_bind, Option.bind_some]
  by_cases hbad : n = 0 ∨ (s.node n).isDir = false
  · exact ⟨cwd, _, if_pos hbad, hcwd, hdir⟩
  · obtain ⟨hn0, hndir⟩ := not_or.mp hbad
    exact ⟨n, _, if_neg hbad, hmem.resolve_left hn0, eq_true_of_ne_false hndir⟩

/-- `mkdir` returns and no node disappears. -/
theorem cmdMkdir_survives (pick : Pick) (h : FsInv s nodes kids)
    (hcwd : cwd ∈ s.rootNode :: nodes) (hdir : isDirAt s cwd = true) (argv : List CStr) :
    ∃ t out nodes' kids', cmdMkdir pick ⟨s, cwd⟩ argv = some (⟨t, cwd⟩, out) ∧
      Survives s t nodes nodes' kids' := by
  unfold cmdMkdir
  by_cases hargc : argv.length < 2
  · exact ⟨s, _, nodes, kids, if_pos hargc, .refl h⟩
  rw [if_neg hargc]
  have hcwd' : Cwd s cwd := .inr ⟨(h.inTree_iff cwd).mpr hcwd, hdir⟩
  obtain ⟨t, r, nodes', kids', d, made, rest, hmk, hmaking, -⟩ :=
    h.vfsMkdirs_makes pick (argAt argv 1) hcwd'
  have hext : Extends s t nodes nodes' kids kids' := hmaking.ext
  simp only [hmk, Option.bind_eq_bind, Option.bind_some]
  by_cases hr : r = 0
  · exact ⟨t, _, nodes', kids', if_pos hr, .of_extends hext⟩
  · exact ⟨t, _, nodes', kids', if_neg hr, .of_extends hext⟩

/-- `rm` returns. The working directory is alive afterwards unless `rm` removed it. -/
theorem cmdRm_alive_iff (h : FsInv s nodes kids) (hcwd : cwd ∈ s.rootNode :: nodes)
    (hdir : isDirAt s cwd = true) (argv : List CStr) :
    ∃ t out nodes' kids', cmdRm ⟨s, cwd⟩ argv = some (⟨t, cwd⟩, out) ∧ FsInv t nodes' kids' ∧
      (CwdAlive ⟨t, cwd⟩ ↔ RmSafe ⟨s, cwd⟩ argv) := by
  have halive : CwdAlive ⟨s, cwd⟩ := (Survives.refl h).cwdAlive hcwd hdir
  unfold cmdRm
  by_cases hargc : argv.length < 2
  · exact ⟨s, _, nodes, kids, if_pos hargc, h,
      iff_of_true halive fun hrm => absurd hrm.1 (Nat.not_le_of_lt hargc)⟩
  rw [if_neg hargc]
  obtain ⟨n, hn, hmem⟩ := FsInv.vfsResolve_mem h (argAt argv 1) hcwd
  simp only [hn, Option.bind_eq_bind, Option.bind_some]
  by_cases hn0 : n = 0
  · refine ⟨s, _, nodes, kids, if_pos hn0, h, iff_of_true halive fun hrm => ?_⟩
    have he : some n = some cwd := hn.symm.trans hrm.2.1
    exact h.ne_zero hcwd ((Option.some.inj he).symm.trans hn0)
  rw [if_neg hn0]
  rcases vfsUnlink_cases h hmem with ⟨hwhy, hun⟩ | ⟨hnode, hempty, t, kids', hun, hrem⟩
  · -- the root or a directory that is not empty
    simp only [hun, Option.bind_some]
    refine ⟨s, _, nodes, kids, if_pos (by decide), h, iff_of_true halive fun hrm => ?_⟩
    have he : n = cwd := Option.some.inj (hn.symm.trans hrm.2.1)
    rcases hwhy with hw | hw | hw
    · exact hn0 hw
    · exact hrm.2.2.1 (he.symm.trans hw)
    · exact hw.2 (he ▸ hrm.2.2.2)
  · simp only [hun, Option.bind_some]
    refine ⟨t, _, nodes.erase n, kids', if_neg (by decide), hrem.inv, ?_⟩
    have hnd := List.nodup_cons.mp h.links.tree.nodup
    have htree : InTree t cwd ↔ cwd ∈ s.rootNode :: nodes.erase n := by
      rw [hrem.inv.inTree_iff, hrem.rootNode]
    by_cases he : n = cwd
    · subst he
      have hroot : n ≠ s.rootNode := fun hr => hnd.1 (hr ▸ hnode)
      refine iff_of_false (fun hal => ?_) fun hsafe => hsafe ⟨Nat.le_of_not_lt hargc, hn, hroot, ?_⟩
      · rcases List.mem_cons.mp (htree.mp hal.1) with hr | hin
        · exact hroot hr
        · exact (List.Nodup.not_mem_erase hnd.2) hin
      · exact Classical.not_not.mp fun hch => hempty ⟨hdir, hch⟩
    · refine iff_of_true ⟨htree.mpr ?_, (hrem.same cwd).2.1.trans hdir⟩ fun hrm =>
        he (Option.some.inj (hn.symm.trans hrm.2.1))
      rcases List.mem_cons.mp hcwd with hr | hin
      · rw [hr]
        exact List.mem_cons_self ..
      · exact List.mem_cons_of_mem _ ((List.mem_erase_of_ne (Ne.symm he)).mpr hin)

end commands

/-! ## Sessions -/

/-- The shell starts in the root directory of a file system that may hold anything. -/
def SessionStart (sh : Session) : Prop := Reachable sh.fs ∧ sh.cwd = sh.fs.rootNode

/-- A command other than an `rm` of the empty working directory. -/
def SafeCmd (sh : Session) (argv : List CStr) (cmd : Cmd) : Prop := cmd = .rm → RmSafe sh argv

/-- A safe command runs to its end; the heap grants or refuses memory as it likes. -/
def SafeStep (sh sh' : Session) : Prop :=
  ∃ picks argv cmd out, FitsLine argv ∧ SafeCmd sh argv cmd ∧
    runCmd picks sh argv cmd = some (sh', out)

/-- What holds between two commands. -/
def SessionInv (sh : Session) : Prop :=
  ∃ nodes kids, FsInv sh.fs nodes kids ∧ sh.cwd ∈ sh.fs.rootNode :: nodes ∧
    isDirAt sh.fs sh.cwd = true

theorem SessionInv.of_alive {sh : Session} {nodes : List Nat} {kids : Nat → List Nat}
    (h : FsInv sh.fs nodes kids) (hcwd : CwdAlive sh) : SessionInv sh :=
  ⟨nodes, kids, h, (h.inTree_iff _).mp hcwd.1, hcwd.2⟩

/-- Every command returns with a well formed file system, and the working directory is alive
    afterwards if and only if the command was safe. -/
theorem SessionInv.runCmd_spec {sh : Session} (h : SessionInv sh) (picks : Nat → Pick)
    {argv : List CStr} (hline : FitsLine argv) (cmd : Cmd) :
    ∃ sh' out nodes kids, runCmd picks sh argv cmd = some (sh', out) ∧
      FsInv sh'.fs nodes kids ∧ (CwdAlive sh' ↔ SafeCmd sh argv cmd) := by
  obtain ⟨s, cwd⟩ := sh
  obtain ⟨nodes, kids, hinv, hcwd, hdir⟩ := h
  have hother : cmd ≠ .rm → SafeCmd ⟨s, cwd⟩ argv cmd := fun hne he => absurd he hne
  cases cmd with
  | cd =>
    obtain ⟨c, out, hrun, hc, hcdir⟩ := cmdCd_alive hinv hcwd hdir argv
    exact ⟨⟨s, c⟩, out, nodes, kids, hrun, hinv,
      iff_of_true ((Survives.refl hinv).cwdAlive hc hcdir) (hother (by decide))⟩
  | mkdir =>
    obtain ⟨t, out, nodes', kids', hrun, hs⟩ :=
      cmdMkdir_survives (picks 0) hinv hcwd hdir argv
    exact ⟨⟨t, cwd⟩, out, nodes', kids', hrun, hs.inv,
      iff_of_true (hs.cwdAlive hcwd hdir) (hother (by decide))⟩
  | write =>
    obtain ⟨t, out, nodes', kids', hrun, hs⟩ := cmdWrite_survives picks hinv hcwd hdir hline
    exact ⟨⟨t, cwd⟩, out, nodes', kids', hrun, hs.inv,
      iff_of_true (hs.cwdAlive hcwd hdir) (hother (by decide))⟩
  | rm =>
    obtain ⟨t, out, nodes', kids', hrun, ht, hiff⟩ := cmdRm_alive_iff hinv hcwd hdir argv
    exact ⟨⟨t, cwd⟩, out, nodes', kids', hrun, ht,
      hiff.trans ⟨fun hsafe _ => hsafe, fun hsafe => hsafe rfl⟩⟩

theorem sessionInv_start {sh : Session} (h : SessionStart sh) : SessionInv sh := by
  obtain ⟨nodes, kids, hinv⟩ := reachable_fsInv h.1
  refine ⟨nodes, kids, hinv, ?_, ?_⟩
  · rw [h.2]
    exact List.mem_cons_self ..
  · rw [h.2]
    exact hinv.links.root_dir

theorem sessionInv_step {sh sh' : Session} (h : SessionInv sh) (hst : SafeStep sh sh') :
    SessionInv sh' := by
  obtain ⟨picks, argv, cmd, out, hline, hsafe, hrun⟩ := hst
  obtain ⟨sh'', out', nodes, kids, hrun', hinv, hiff⟩ := h.runCmd_spec picks hline cmd
  rw [hrun] at hrun'
  cases hrun'
  exact .of_alive hinv (hiff.mpr hsafe)

/-- As long as no command is an `rm` of the empty working directory, the working directory is a
    directory of the tree before and after every command; and such an `rm` frees it. -/
theorem cwd_alive {sh : Session} (h : Reach SessionStart SafeStep sh) :
    CwdAlive sh ∧ ∀ (picks : Nat → Pick) (argv : List CStr) (cmd : Cmd), FitsLine argv →
      ∃ sh' out, runCmd picks sh argv cmd = some (sh', out) ∧
        (CwdAlive sh' ↔ SafeCmd sh argv cmd) := by
  have hinv : SessionInv sh := h.invariant (I := SessionInv) (fun _ => sessionInv_start)
    fun _ _ => sessionInv_step
  refine ⟨?_, fun picks argv cmd hline => ?_⟩
  · obtain ⟨nodes, kids, hfs, hcwd, hdir⟩ := hinv
    exact ⟨(hfs.inTree_iff _).mpr hcwd, hdir⟩
  · obtain ⟨sh', out, -, -, hrun, -, hiff⟩ := hinv.runCmd_spec picks hline cmd
    exact ⟨sh', out, hrun, hiff⟩

/-- The arguments `<cmd> <path>`. -/
def line (path : CStr) : List CStr := [[120], path]

theorem fitsLine_line {path : CStr} (h : path ≠ [] ∧ 0 ∉ path ∧ space ∉ path ∧ tab ∉ path)
    (hlen : path.length ≤ 200) : FitsLine (line path) := by
  refine ⟨fun w hw => ?_, ?_⟩
  · rcases List.mem_cons.mp hw with rfl | hw
    · decide
    · rw [List.mem_singleton.mp hw]
      exact h
  · simp only [line, List.map_cons, List.map_nil, List.sum_cons, List.sum_nil, List.length_cons,
      List.length_nil, lineMax]
    omega

def bootSession : Session := ⟨bootFs, 0x1000⟩

/-- The session after some commands. -/
def after (cmds : List (Cmd × CStr)) : Session :=
  cmds.foldl (fun sh c =>
    ((runCmd (fun _ => pickNext) sh (line c.2) c.1).map Prod.fst).getD sh) bootSession

theorem runCmd_after {cmds : List (Cmd × CStr)} {cmd : Cmd} {path : CStr} {out : List Out}
    (h : (runCmd (fun _ => pickNext) (after cmds) (line path) cmd).map Prod.snd = some out) :
    runCmd (fun _ => pickNext) (after cmds) (line path) cmd =
      some (after (cmds ++ [(cmd, path)]), out) := by
  obtain ⟨⟨sh, out'⟩, hrun, hout⟩ := Option.map_eq_some_iff.mp h
  have hout : out' = out := hout
  subst hout
  have hafter : after (cmds ++ [(cmd, path)]) = sh := by
    unfold after at hrun ⊢
    rw [List.foldl_append, List.foldl_cons, List.foldl_nil, hrun]
    rfl
  rw [hafter, hrun]

/-- `mkdir a`, `cd a`, `rm ../a`: the working directory has left the tree. -/
theorem cwd_removed : ∃ sh₁ sh₂ sh₃, SessionStart bootSession ∧
    FitsLine (line [97]) ∧ FitsLine (line [dot, dot, slash, 97]) ∧
    runCmd (fun _ => pickNext) bootSession (line [97]) .mkdir = some (sh₁, []) ∧
    runCmd (fun _ => pickNext) sh₁ (line [97]) .cd = some (sh₂, []) ∧
    runCmd (fun _ => pickNext) sh₂ (line [dot, dot, slash, 97]) .rm = some (sh₃, []) ∧
    ¬ InTree sh₃.fs sh₃.cwd := by
  refine ⟨_, _, _, ⟨reachable_bootFs, rfl⟩, fitsLine_line (by decide) (by decide),
    fitsLine_line (by decide) (by decide), @runCmd_after [] _ _ _ (by decide +kernel),
    runCmd_after (by decide +kernel), runCmd_after (by decide +kernel), fun h => ?_⟩
  have hmem := inTree_subset (L := [0x1000]) (by decide +kernel) (by decide +kernel) h
  exact absurd hmem (by decide +kernel)

/-- `mkdir a` as a first command. -/
theorem cwd_alive_boot : CwdAlive (after [(.mkdir, [97])]) ∧
    ∀ (picks : Nat → Pick) (argv : List CStr) (cmd : Cmd), FitsLine argv →
      ∃ sh' out, runCmd picks (after [(.mkdir, [97])]) argv cmd = some (sh', out) ∧
        (CwdAlive sh' ↔ SafeCmd (after [(.mkdir, [97])]) argv cmd) := by
  have hrun : runCmd (fun _ => pickNext) bootSession (line [97]) .mkdir =
      some (after [(.mkdir, [97])], []) := @runCmd_after [] _ _ _ (by decide +kernel)
  exact cwd_alive (.step (.init ⟨reachable_bootFs, rfl⟩)
    ⟨fun _ => pickNext, line [97], .mkdir, [], fitsLine_line (by decide) (by decide),
      fun he => absurd he (by decide), hrun⟩)

end ChocoOs.Shell
