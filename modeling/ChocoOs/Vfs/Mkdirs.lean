import ChocoOs.Vfs.Frame

/-!
# Making the directories of a path

`vfs_mkdirs` takes the components of the path one by one and makes a directory where a component
leads nowhere. `Makes` is this process in terms of steps, and `Blocks` is what can end it.
-/

namespace ChocoOs.Vfs
open ProgLib

/-- The components lead from the directory `d` to `e`, the missing ones among them being created
    on the way, which makes `t` out of `s`. -/
inductive Makes (pick : Pick) : Fs → Nat → List CStr → Fs → Nat → Prop
  | nil {s : Fs} {d : Nat} : Makes pick s d [] s d
  | enter {s t : Fs} {d e m : Nat} {c : CStr} {cs : List CStr} :
      componentStep s d c = some m → isDirAt s m = true → Makes pick s m cs t e →
      Makes pick s d (c :: cs) t e
  | make {s t u : Fs} {d e n : Nat} {c : CStr} {cs : List CStr} :
      componentStep s d c = none → c.length < 64 → vfsCreate pick s d c true = some (u, n) →
      n ≠ 0 → Makes pick u n cs t e → Makes pick s d (c :: cs) t e

/-- The component `c` names a file in `d`, or it is missing and too long or gets no memory. -/
inductive Blocks (pick : Pick) (s : Fs) (d : Nat) (c : CStr) : Prop
  | file {m : Nat} : c ≠ [dot] → c ≠ [dot, dot] → componentStep s d c = some m →
      isDirAt s m = false → Blocks pick s d c
  | long : componentStep s d c = none → 64 ≤ c.length → Blocks pick s d c
  | noMemory : componentStep s d c = none → c.length < 64 → (s.malloc pick nodeSize).1 = 0 →
      Blocks pick s d c

/-- The last component is entered or made as well. -/
theorem Makes.append {pick : Pick} {s t u : Fs} {d e f : Nat} {cs bs : List CStr}
    (h : Makes pick s d cs t e) (h' : Makes pick t e bs u f) : Makes pick s d (cs ++ bs) u f := by
  induction h with
  | nil => exact h'
  | enter hstep hdir _ ih => exact .enter hstep hdir (ih h')
  | make hstep hlen hcreate hn _ ih => exact .make hstep hlen hcreate hn (ih h')

/-- A creation that succeeds has got memory. -/
theorem vfsCreate_malloc {pick : Pick} {s t : Fs} {d n : Nat} {name : CStr} {isDir : Bool}
    (h : vfsCreate pick s d name isDir = some (t, n)) (hn : n ≠ 0) :
    (s.malloc pick nodeSize).1 ≠ 0 := by
  intro hfail
  unfold vfsCreate at h
  split at h
  · cases h
    exact hn rfl
  split at h
  · cases h
    exact hn rfl
  obtain ⟨c, -, h⟩ := Option.bind_eq_some_iff.mp h
  split at h
  · cases h
    exact hn rfl
  · simp only [hfail, if_pos] at h
    cases h
    exact hn rfl

/-- No component of a path that is made blocks. -/
theorem Makes.not_blocks {pick : Pick} {s t u : Fs} {d e f : Nat} {pre post : List CStr} {c : CStr}
    (h : Makes pick s d (pre ++ c :: post) t e) (hpre : Makes pick s d pre u f) :
    ¬Blocks pick u f c := by
  induction hpre with
  | nil =>
    intro hblock
    cases h with
    | enter hstep hdir _ =>
      cases hblock with
      | file _ _ hstep' hdir' =>
        rw [hstep] at hstep'
        cases hstep'
        rw [hdir] at hdir'
        cases hdir'
      | long hnone => rw [hstep] at hnone; cases hnone
      | noMemory hnone => rw [hstep] at hnone; cases hnone
    | make hstep hlen hcreate hn _ =>
      cases hblock with
      | file _ _ hstep' => rw [hstep] at hstep'; cases hstep'
      | long _ hlong => exact absurd hlen (Nat.not_lt.mpr hlong)
      | noMemory _ _ hfail => exact vfsCreate_malloc hcreate hn hfail
  | enter hstep hdir _ ih =>
    cases h with
    | enter hstep' _ hrest =>
      rw [hstep] at hstep'
      cases hstep'
      exact ih hrest
    | make hstep' => rw [hstep] at hstep'; cases hstep'
  | make hstep _ hcreate hn _ ih =>
    cases h with
    | enter hstep' => rw [hstep] at hstep'; cases hstep'
    | make _ _ hcreate' _ hrest =>
      rw [hcreate] at hcreate'
      cases hcreate'
      exact ih hrest

section

variable {s t : Fs} {nodes nodes' : List Nat} {kids kids' : Nat → List Nat}

/-- What was entered is entered when the tree has grown. -/
theorem Extends.enters_mono (h : Extends s t nodes nodes' kids kids') (hs : FsInv s nodes kids)
    {d m : Nat} {cs : List CStr} (hd : d ∈ s.rootNode :: nodes)
    (hm : enters (componentStep s) (isDirAt s) d cs = some m) :
    enters (componentStep t) (isDirAt t) d cs = some m := by
  refine ProgLib.enters_mono (P := fun x => x ∈ s.rootNode :: nodes) ?_ ?_ hd hm
  · intro x c k hx hk
    refine ⟨?_, hs.componentStep_mem hx hk⟩
    rw [h.inv.componentStep_eq (h.mem_tree hx)]
    apply h.step x c k hx
    rw [← hs.componentStep_eq hx]
    exact hk
  · intro x hx hdir
    rw [h.isDirAt_eq hx]
    exact hdir

/-- One round of `vfs_mkdirs` enters the component, makes it, or is blocked. -/
theorem FsInv.mkdirsRound_makes (pick : Pick) {cur : Nat} {start c rest : CStr}
    (h : FsInv s nodes kids) (hcur : cur ∈ s.rootNode :: nodes) (hdir : isDirAt s cur = true)
    (hscan : Scan start c rest) (hne : start ≠ []) (hc0 : c ≠ []) :
    (∃ m, componentStep s cur c = some m ∧ isDirAt s m = true ∧
      mkdirsRound pick (s, cur, start) = some (.next (s, m, rest))) ∨
    (Blocks pick s cur c ∧ mkdirsRound pick (s, cur, start) = some (.done (s, 0))) ∨
    ∃ u n kids', componentStep s cur c = none ∧ c.length < 64 ∧
      vfsCreate pick s cur c true = some (u, n) ∧ n ≠ 0 ∧
      Created s u nodes kids kids' cur n c true ∧ (∀ b ∈ kids cur, (s.node b).name ≠ c) ∧
      mkdirsRound pick (s, cur, start) = some (.next (u, n, rest)) := by
  have hstep := h.componentStep_eq hcur c
  rcases h.mkdirsRound_cases pick hcur hdir hscan hne hc0 with
    ⟨m, hm, hmdir, hround⟩ | ⟨m, hm, hmdir, hround⟩ | ⟨hnone, hwhy, hround⟩ |
    ⟨hnone, hlen, hnew, hfits, u, kids', hcreate, hcreated, hround⟩
  · exact .inl ⟨m, hstep.trans hm, hmdir, hround⟩
  · refine .inr (.inl ⟨?_, hround⟩)
    have hdots : ¬(c = [dot] ∨ c = [dot, dot]) := by
      intro hc
      rw [h.isDirAt_dots hcur hdir hc hm] at hmdir
      cases hmdir
    rw [not_or] at hdots
    exact .file hdots.1 hdots.2 (hstep.trans hm) hmdir
  · refine .inr (.inl ⟨?_, hround⟩)
    by_cases hlong : 64 ≤ c.length
    · exact .long (hstep.trans hnone) hlong
    · apply Blocks.noMemory (hstep.trans hnone) (Nat.lt_of_not_le hlong)
      have hfits := hwhy.resolve_left hlong
      rw [Fs.malloc, Arena.alloc, if_neg hfits]
  · exact .inr (.inr ⟨u, _, kids', hstep.trans hnone, hlen, hcreate, hfits.1, hcreated, hnew,
      hround⟩)

/-- The state `x` of `vfs_mkdirs` between two rounds: the components `made` lead to the directory
    `x.2.1`, and every new node is a directory that the first few of them lead to. -/
structure Making (pick : Pick) (s : Fs) (nodes : List Nat) (kids : Nat → List Nat) (start : Nat)
    (cs : List CStr) (x : Fs × Nat × CStr) (nodes' : List Nat) (kids' : Nat → List Nat)
    (made : List CStr) : Prop where
  skip : skipSlashes x.2.2 = x.2.2
  ext : Extends s x.1 nodes nodes' kids kids'
  cur : x.2.1 ∈ x.1.rootNode :: nodes'
  dir : isDirAt x.1 x.2.1 = true
  split : cs = made ++ components x.2.2
  makes : Makes pick s start made x.1 x.2.1
  walked : enters (componentStep x.1) (isDirAt x.1) start made = some x.2.1
  fresh : ∀ y ∈ nodes', y ∉ nodes → isDirAt x.1 y = true ∧
    ∃ pre, pre <+: made ∧ enters (componentStep x.1) (isDirAt x.1) start pre = some y

/-- A component that leads to a directory. -/
theorem Making.enter {pick : Pick} {start cur m : Nat} {cs made : List CStr} {p c rest : CStr}
    (h : Making pick s nodes kids start cs (t, cur, p) nodes' kids' made)
    (hscan : Scan p c rest) (hm : componentStep t cur c = some m) (hmdir : isDirAt t m = true) :
    Making pick s nodes kids start cs (t, m, rest) nodes' kids' (made ++ [c]) := by
  refine ⟨?_, h.ext, h.ext.inv.componentStep_mem h.cur hm, hmdir, ?_, ?_, ?_, ?_⟩
  · rw [← hscan.behind]
    exact skipSlashes_idem _
  · rw [h.split, hscan.split, List.append_assoc, List.singleton_append]
  · exact h.makes.append (.enter hm hmdir .nil)
  · rw [enters_snoc, h.walked, Option.bind_some, hm, Option.bind_some, if_pos hmdir]
  · intro y hy hnew
    obtain ⟨hdir, pre, hpre, hwalk⟩ := h.fresh y hy hnew
    exact ⟨hdir, pre, hpre.trans (List.prefix_append _ _), hwalk⟩

/-- A component that a directory is made for. -/
theorem Making.make {pick : Pick} {start cur n : Nat} {u : Fs} {cs made : List CStr}
    {p c rest : CStr} {kids'' : Nat → List Nat}
    (h : Making pick s nodes kids start cs (t, cur, p) nodes' kids' made)
    (hstart : start ∈ s.rootNode :: nodes) (hscan : Scan p c rest)
    (hnone : componentStep t cur c = none) (hlen : c.length < 64)
    (hcreate : vfsCreate pick t cur c true = some (u, n)) (hn : n ≠ 0)
    (hcreated : Created t u nodes' kids' kids'' cur n c true)
    (hnew : ∀ b ∈ kids' cur, (t.node b).name ≠ c) :
    Making pick s nodes kids start cs (u, n, rest) (n :: nodes') kids'' (made ++ [c]) := by
  have hext := hcreated.extends h.ext.inv h.cur hnew
  have hdir : isDirAt u n = true := by rw [isDirAt, hcreated.new]
  have hmono : ∀ {pre : List CStr} {y : Nat},
      enters (componentStep t) (isDirAt t) start pre = some y →
      enters (componentStep u) (isDirAt u) start pre = some y := fun hpre =>
    hext.enters_mono h.ext.inv (h.ext.mem_tree hstart) hpre
  have hto : componentStep u cur c = some n := by
    rw [hcreated.componentStep_old h.ext.inv h.cur h.cur, if_pos]
    exact ⟨rfl, rfl, stepTo_none hnone⟩
  have hwalked : enters (componentStep u) (isDirAt u) start (made ++ [c]) = some n := by
    rw [enters_snoc, hmono h.walked, Option.bind_some, hto, Option.bind_some, if_pos hdir]
  refine ⟨?_, h.ext.trans hext, by simp, hdir, ?_, ?_, hwalked, ?_⟩
  · rw [← hscan.behind]
    exact skipSlashes_idem _
  · rw [h.split, hscan.split, List.append_assoc, List.singleton_append]
  · exact h.makes.append (.make hnone hlen hcreate hn .nil)
  · intro y hy hynew
    rcases List.mem_cons.mp hy with rfl | hy
    · exact ⟨hdir, _, List.prefix_rfl, hwalked⟩
    · obtain ⟨hydir, pre, hpre, hwalk⟩ := h.fresh y hy hynew
      refine ⟨?_, pre, hpre.trans (List.prefix_append _ _), hmono hwalk⟩
      rw [hext.isDirAt_eq (List.mem_cons_of_mem _ hy)]
      exact hydir

/-- `vfs_mkdirs` returns. It makes all components and returns the last directory, or it makes
    the components before one that blocks and returns null. -/
theorem FsInv.vfsMkdirs_makes (pick : Pick) (path : CStr) {cwd : Nat} (h : FsInv s nodes kids)
    (hcwd : Cwd s cwd) :
    ∃ t r nodes' kids' d made rest, vfsMkdirs pick s path cwd = some (t, r) ∧
      Making pick s nodes kids (startDir s path cwd) (components path) (t, d, rest) nodes' kids'
        made ∧
      ((rest = [] ∧ r = d) ∨
        (r = 0 ∧ ∃ c post, components path = made ++ c :: post ∧ Blocks pick t d c)) := by
  have hstart := startDir_mem path (h.cwd_mem hcwd)
  let I : Fs × Nat × CStr → Prop := fun x => ∃ nodes' kids' made,
    Making pick s nodes kids (startDir s path cwd) (components path) x nodes' kids' made
  let Q : Fs × Nat → Prop := fun x => ∃ nodes' kids' d made rest,
    Making pick s nodes kids (startDir s path cwd) (components path) (x.1, d, rest) nodes' kids'
      made ∧ ((rest = [] ∧ x.2 = d) ∨
        (x.2 = 0 ∧ ∃ c post, components path = made ++ c :: post ∧ Blocks pick x.1 d c))
  suffices hloop : ∃ r, vfsMkdirs pick s path cwd = some r ∧ Q r by
    obtain ⟨⟨t, r⟩, heq, nodes', kids', d, made, rest, hmaking, hr⟩ := hloop
    exact ⟨t, r, nodes', kids', d, made, rest, heq, hmaking, hr⟩
  have hinit : I (s, startDir s path cwd, skipSlashes path) := by
    refine ⟨nodes, kids, [], skipSlashes_idem path, .refl h, hstart, h.startDir_isDir path hcwd,
      (components_skipSlashes path).symm, .nil, rfl, ?_⟩
    intro y hy hnew
    exact absurd hy hnew
  refine loop_total _ I Q (fun x => x.2.2.length) ?_ _ _ hinit
    (Nat.lt_succ_of_le (skipSlashes_length path))
  rintro ⟨t, cur, p⟩ ⟨nodes', kids', made, hm⟩
  by_cases hp : p = []
  · subst hp
    exact .inl ⟨(t, cur), by rw [mkdirsRound, if_pos rfl], nodes', kids', cur, made, [], hm,
      .inl ⟨rfl, rfl⟩⟩
  have hskip : skipSlashes p = p := hm.skip
  obtain ⟨a, xs, hcons⟩ := List.exists_cons_of_ne_nil hp
  obtain ⟨c, rest, hscan⟩ := scan hcons (skipSlashes_head (hskip.trans hcons))
  have hc0 : c ≠ [] := (component_ne (by rw [hscan.split]; simp : c ∈ components p)).1
  rcases hm.ext.inv.mkdirsRound_makes pick hm.cur hm.dir hscan hp hc0 with
    ⟨m, hstep, hmdir, hround⟩ | ⟨hblock, hround⟩ |
    ⟨u, n, kids'', hnone, hlen, hcreate, hn, hcreated, hnew, hround⟩
  · exact .inr ⟨_, hround, ⟨nodes', kids', _, hm.enter hscan hstep hmdir⟩, hscan.shorter⟩
  · refine .inl ⟨_, hround, nodes', kids', cur, made, p, hm, .inr ⟨rfl, c, components rest, ?_,
      hblock⟩⟩
    rw [hm.split, hscan.split]
  · exact .inr ⟨_, hround, ⟨_, kids'', _, hm.make hstart hscan hnone hlen hcreate hn hcreated
      hnew⟩, hscan.shorter⟩

/-- Where all components lead to directories, `vfs_mkdirs` returns the last one and changes
    nothing. -/
theorem FsInv.vfsMkdirs_again (pick : Pick) (path : CStr) {cwd d : Nat} (h : FsInv s nodes kids)
    (hcwd : Cwd s cwd) (hd : enters (componentStep s) (isDirAt s) (startDir s path cwd)
      (components path) = some d) : vfsMkdirs pick s path cwd = some (s, d) := by
  have hloop : ∀ (fuel cur : Nat) (p : CStr), skipSlashes p = p → cur ∈ s.rootNode :: nodes →
      isDirAt s cur = true →
      enters (componentStep s) (isDirAt s) cur (components p) = some d → p.length < fuel →
      loop (mkdirsRound pick) fuel (s, cur, p) = some (s, d) := by
    intro fuel
    induction fuel with
    | zero => intro cur p _ _ _ _ hlt; exact absurd hlt (Nat.not_lt_zero _)
    | succ fuel ih =>
      intro cur p hskip hcur hdir hwalk hlt
      by_cases hp : p = []
      · subst hp
        rw [components, fields_nil, enters] at hwalk
        cases hwalk
        exact loop_of_done (by rw [mkdirsRound, if_pos rfl])
      obtain ⟨a, xs, hcons⟩ := List.exists_cons_of_ne_nil hp
      obtain ⟨c, rest, hscan⟩ := scan hcons (skipSlashes_head (hskip.trans hcons))
      have hc0 : c ≠ [] := (component_ne (by rw [hscan.split]; simp : c ∈ components p)).1
      rw [hscan.split, enters] at hwalk
      obtain ⟨m, hm, hwalk⟩ := Option.bind_eq_some_iff.mp hwalk
      split at hwalk
      · next hmdir =>
        rcases h.mkdirsRound_makes pick hcur hdir hscan hp hc0 with
          ⟨m', hm', -, hround⟩ | ⟨hblock, -⟩ | ⟨u, n, kids'', hnone, -⟩
        · rw [hm] at hm'
          cases hm'
          rw [loop_of_next hround]
          apply ih m rest
          · rw [← hscan.behind]
            exact skipSlashes_idem _
          · exact h.componentStep_mem hcur hm
          · exact hmdir
          · exact hwalk
          · have := hscan.shorter
            omega
        · have hmakes : Makes pick s cur ([] ++ c :: []) s m := .enter hm hmdir .nil
          exact absurd hblock (hmakes.not_blocks .nil)
        · rw [hm] at hnone
          cases hnone
      · cases hwalk
  have hlen := skipSlashes_length path
  apply hloop
  · exact skipSlashes_idem path
  · exact startDir_mem path (h.cwd_mem hcwd)
  · exact h.startDir_isDir path hcwd
  · rw [components_skipSlashes]
    exact hd
  · omega

end

/-- `vfs_mkdirs` in every state of a run. If it returns a directory, then the path resolves to
    it, the components have been entered or made, the new nodes are directories on the way, and a
    second call changes nothing. It returns null exactly when a component names a file, is missing
    and too long, or is missing and gets no memory. In any case all paths keep their meaning. -/
theorem mkdirs_law {s : Fs} (h : Reachable s) {cwd : Nat} (hcwd : Cwd s cwd) (pick : Pick)
    (path : CStr) : ∃ t d, vfsMkdirs pick s path cwd = some (t, d) ∧
      (d ≠ 0 → InTree t d ∧ isDirAt t d = true ∧ vfsResolve t path cwd = some d ∧
        Makes pick s (startDir s path cwd) (components path) t d ∧
        (∀ x, InTree t x → ¬InTree s x → isDirAt t x = true ∧ ∃ pre, pre <+: components path ∧
          goes (componentStep t) (isDirAt t) (startDir t path cwd) pre = some x) ∧
        ∀ pick', vfsMkdirs pick' t path cwd = some (t, d)) ∧
      (d = 0 ↔ ∃ made c post u e, components path = made ++ c :: post ∧
        Makes pick s (startDir s path cwd) made u e ∧ Blocks pick u e c) ∧
      ∀ path' cwd' m, Cwd s cwd' → m ≠ 0 → vfsResolve s path' cwd' = some m →
        vfsResolve t path' cwd' = some m := by
  obtain ⟨nodes, kids, hs⟩ := reachable_fsInv h
  obtain ⟨t, r, nodes', kids', d, made, rest, heq, hm, hr⟩ := hs.vfsMkdirs_makes pick path hcwd
  have ht : FsInv t nodes' kids' := hm.ext.inv
  have hcwd' : Cwd t cwd := hm.ext.cwd hs hcwd
  have hroot : startDir t path cwd = startDir s path cwd := startDir_congr hm.ext.rootNode path cwd
  have hd0 : d ≠ 0 := ht.ne_zero hm.cur
  refine ⟨t, r, heq, fun hr0 => ?_, ?_, fun path' cwd' m hc hm0 hres =>
    hm.ext.vfsResolve_mono hs hc hm0 hres⟩
  · obtain ⟨rfl, rfl⟩ := hr.resolve_right fun hnull => hr0 hnull.1
    have hall : components path = made := by
      rw [hm.split, components, fields_nil, List.append_nil]
    have hwalked : enters (componentStep t) (isDirAt t) (startDir t path cwd) (components path) =
        some r := by
      rw [hroot, hall]
      exact hm.walked
    refine ⟨(ht.inTree_iff r).mpr hm.cur, hm.dir, ?_, hall ▸ hm.makes, ?_, fun pick' => ?_⟩
    · rw [ht.vfsResolve_eq_iff hcwd' hr0]
      exact goes_of_enters hwalked
    · intro x hx hnew
      have hx' := (ht.inTree_iff x).mp hx
      rw [hs.inTree_iff, List.mem_cons, not_or] at hnew
      rw [hm.ext.rootNode, List.mem_cons] at hx'
      obtain ⟨hdir, pre, hpre, hwalk⟩ := hm.fresh x (hx'.resolve_left hnew.1) hnew.2
      refine ⟨hdir, pre, hall ▸ hpre, ?_⟩
      rw [hroot]
      exact goes_of_enters hwalk
    · exact ht.vfsMkdirs_again pick' path hcwd' hwalked
  · constructor
    · intro hr0
      rcases hr with ⟨-, rfl⟩ | ⟨-, c, post, hsplit, hblock⟩
      · exact absurd hr0 hd0
      · exact ⟨made, c, post, t, d, hsplit, hm.makes, hblock⟩
    · rintro ⟨made', c, post, u, e, hsplit, hmakes, hblock⟩
      rcases hr with ⟨rfl, rfl⟩ | ⟨hr0, -⟩
      · have hall : components path = made := by
          rw [hm.split, components, fields_nil, List.append_nil]
        have hmakes' : Makes pick s (startDir s path cwd) (made' ++ c :: post) t r := by
          rw [← hsplit, hall]
          exact hm.makes
        exact absurd hblock (hmakes'.not_blocks hmakes)
      · exact hr0

/-- `a/../a` in a tree with only the root: one directory is made, and the heap is asked once. -/
theorem mkdirs_law_boot : ∃ t, vfsMkdirs pickNext bootFs [97, slash, dot, dot, slash, 97] 0 =
      some (t, 0x10000) ∧ t.heap.live = [(0x10000, 120)] ∧
    vfsResolve t [97, slash, dot, dot, slash, 97] 0 = some 0x10000 ∧
    ∀ pick', vfsMkdirs pick' t [97, slash, dot, dot, slash, 97] 0 = some (t, 0x10000) := by
  obtain ⟨t, d, heq, hmade, -⟩ := mkdirs_law (.init start_bootFs) (show Cwd bootFs 0 from .inl rfl)
    pickNext [97, slash, dot, dot, slash, 97]
  have hrun : (vfsMkdirs pickNext bootFs [97, slash, dot, dot, slash, 97] 0).map
      (fun r => (r.2, r.1.heap.live)) = some (0x10000, [(0x10000, 120)]) := by decide +kernel
  rw [heq, Option.map_some, Option.some.injEq, Prod.mk.injEq] at hrun
  obtain ⟨rfl, hlive⟩ := hrun
  obtain ⟨-, -, hresolve, -, -, hagain⟩ := hmade (by decide)
  exact ⟨t, heq, hlive, hresolve, hagain⟩

end ChocoOs.Vfs
