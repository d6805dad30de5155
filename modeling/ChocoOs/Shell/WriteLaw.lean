import ChocoOs.Shell.Write

/-!
# What `write` promises

If `write` prints no error then the path resolves to a file that holds the text; if it prints an
error then no file has changed. Two things go wrong without a message: the heap refuses a larger
buffer, and a last component of 64 bytes or more is cut to 63 bytes when the file is created.
-/

namespace ChocoOs.Shell
open ProgLib ChocoOs.Vfs

theorem leafName_eq {c : CStr} (hc : slash ∉ c) (k : Nat) :
    leafName (c ++ List.replicate k slash) = c.take (vfsNameMax - 1) := by
  have hall : ∀ x ∈ c.take (vfsNameMax - 1), (x != slash) = true := fun x hx => by
    simpa using fun he : x = slash => hc (he ▸ List.mem_of_mem_take hx)
  rw [leafName, List.take_append, List.takeWhile_append_of_pos hall]
  have hrest : ((List.replicate k slash).take (vfsNameMax - 1 - c.length)).takeWhile
      (· != slash) = [] := by
    cases hr : (List.replicate k slash).take (vfsNameMax - 1 - c.length) with
    | nil => rfl
    | cons x xs =>
      have hx : x = slash := List.eq_of_mem_replicate
        (List.mem_of_mem_take (hr ▸ List.mem_cons_self : x ∈ _))
      rw [hx]
      rfl
  rw [hrest, List.append_nil]

theorem takeWhile_leaf {c : CStr} (hc : slash ∉ c) (k : Nat) :
    (c ++ List.replicate k slash).takeWhile (· != slash) = c := by
  have hall : ∀ x ∈ c, (x != slash) = true := fun x hx => by
    simpa using fun he : x = slash => hc (he ▸ hx)
  rw [List.takeWhile_append_of_pos hall]
  cases k with
  | zero => simp
  | succ k => rw [List.replicate_succ]; simp

/-- The law: without an error the path is a file with the text, with an error no file changed. -/
def WriteLaw (s : Fs) (cwd : Nat) (path : CStr) (words : List CStr) (t : Fs)
    (out : List Out) : Prop :=
  (out = [] → ∃ f, vfsResolve t path cwd = some f ∧ f ≠ 0 ∧ (t.node f).isDir = false ∧
    contents t f = joined words) ∧
  (out ≠ [] → ∀ x, InTree s x → (s.node x).isDir = false → contents t x = contents s x)

/-- Where the command writes, every buffer is granted; and if it has to create the file, the last
    component of the path is a name that fits. -/
def WriteNeeds (picks : Nat → Pick) (s : Fs) (cwd : Nat) (path : CStr) (argc : Nat)
    (words : List CStr) : Prop :=
  ∀ dir leaf, vfsResolveParent s path cwd none = some (dir, some leaf) → dir ≠ 0 →
    (∀ f, vfsResolve s path cwd = some f → f ≠ 0 → (s.node f).isDir = false →
      (s.node f).readonly = false →
      Granted picks s.heap (s.node f).data (s.node f).cap 0 (textPieces argc words)) ∧
    (vfsResolve s path cwd = some 0 →
      dirFind s dir (leafName leaf) (leafName leaf).length = some 0 →
      s.heap.Fits (picks 0 s.heap nodeSize) nodeSize →
      (leaf.takeWhile (· != slash)).length < vfsNameMax ∧
        Granted picks
          { s.heap with live := (picks 0 s.heap nodeSize, nodeSize) :: s.heap.live } 0 0 0
          (textPieces argc words))

theorem writeLaw_error {s : Fs} {cwd : Nat} {path : CStr} {words : List CStr} {out : List Out}
    (hout : out ≠ []) : WriteLaw s cwd path words s out :=
  ⟨fun h => absurd h hout, fun _ _ _ _ => rfl⟩

/-- Without an error the law is about the file that the path leads to. -/
theorem writeLaw_ok {s t : Fs} {cwd : Nat} {path : CStr} {words : List CStr} {f : Nat}
    (h : vfsResolve t path cwd = some f) : WriteLaw s cwd path words t [] ↔
      (f ≠ 0 ∧ (t.node f).isDir = false ∧ contents t f = joined words) := by
  constructor
  · intro hlaw
    obtain ⟨f', hf', hrest⟩ := hlaw.1 rfl
    rw [h] at hf'
    cases hf'
    exact hrest
  · exact fun hrest => ⟨fun _ => ⟨f, h, hrest⟩, fun hout => absurd rfl hout⟩

theorem cmdWrite_eq (picks : Nat → Pick) (s : Fs) (cwd : Nat) (cmd path : CStr)
    {words : List CStr} (hne : words ≠ []) :
    cmdWrite picks ⟨s, cwd⟩ (cmd :: path :: words) =
      (vfsResolveParent s path cwd none).bind fun r =>
        if r.1 = 0 ∨ r.2 = none then
          some (⟨s, cwd⟩, [.text "write: bad path ", .arg path, .text "\n"])
        else (writeTarget picks s path cwd r.1 (r.2.getD [])).bind fun q =>
          if q.2 = 0 ∨ (q.1.node q.2).isDir ∨ (q.1.node q.2).readonly then
            some (⟨q.1, cwd⟩, [.text "write: cannot write ", .arg path, .text "\n"])
          else (vfsTruncate (picks 1) q.1 q.2 0).bind fun t =>
            (writeWords picks q.2 2 (t.1, 0) words).bind fun x =>
              (appendPiece (picks (2 * (words.length + 2))) q.2 x [newline]).bind fun u =>
                some (⟨u.1, cwd⟩, []) := by
  have hpos := List.length_pos_of_ne_nil hne
  rw [cmdWrite, if_neg (by simp only [List.length_cons]; omega)]
  rfl

/-- The command at a file that is there, or has just been created, in the state `s`. -/
theorem cmdWrite_found (picks : Nat → Pick) (cwd : Nat) (path : CStr) {s : Fs}
    {nodes : List Nat} {kids : Nat → List Nat} {f : Nat} {words : List CStr}
    (h : FsInv s nodes kids) (hf : f ∈ nodes) (hdir : (s.node f).isDir = false)
    (hr : (s.node f).readonly = false) (hwords : ∀ w ∈ words, w ≠ [] ∧ 0 ∉ w)
    (hlen : (joined words).length ≤ 2 ^ 62) :
    ∃ u, ((if f = 0 ∨ (s.node f).isDir ∨ (s.node f).readonly then
        some ((⟨s, cwd⟩ : Session), [Out.text "write: cannot write ", .arg path, .text "\n"])
      else (vfsTruncate (picks 1) s f 0).bind fun t =>
        (writeWords picks f 2 (t.1, 0) words).bind fun x =>
          (appendPiece (picks (2 * (words.length + 2))) f x [newline]).bind fun u =>
            some (⟨u.1, cwd⟩, [])) = some (⟨u, cwd⟩, [])) ∧ SameTree s u nodes kids ∧
      (contents u f = joined words ↔ Granted picks s.heap (s.node f).data (s.node f).cap 0
        (textPieces (words.length + 2) words)) := by
  have h0 : f ≠ 0 := h.ne_zero (List.mem_cons_of_mem _ hf)
  obtain ⟨t, x, u, n, htrunc, hws, hlast, hu, hiff⟩ :=
    cmdWrite_tail picks (words.length + 2) h hf hdir hr hwords hlen
  refine ⟨u, ?_, hu, hiff⟩
  rw [if_neg (by simp [h0, hdir, hr]), htrunc, Option.bind_some, hws, Option.bind_some, hlast,
    Option.bind_some]

/-- Whether the path of `write` resolves to a node, or to a place for a new file. -/
theorem FsInv.leaf_cases {s : Fs} {nodes : List Nat} {kids : Nat → List Nat} {path : CStr}
    {cwd : Nat} (h : FsInv s nodes kids) (hstart : startDir s path cwd ∈ s.rootNode :: nodes)
    (hdir : isDirAt s (startDir s path cwd) = true) :
    (∃ leaf, vfsResolveParent s path cwd none = some (0, leaf)) ∨
    ∃ d c k cs, vfsResolveParent s path cwd none = some (d, some (c ++ List.replicate k slash)) ∧
      components path = cs ++ [c] ∧ d ≠ 0 ∧ d ∈ s.rootNode :: nodes ∧ isDirAt s d = true ∧
      enters (stepTo s kids) (isDirAt s) (startDir s path cwd) cs = some d ∧
      vfsResolve s path cwd = some ((stepTo s kids d c).getD 0) := by
  by_cases hnil : components path = []
  · exact .inl ⟨none, vfsResolveParent_of_nil cwd none hnil⟩
  obtain ⟨cs, c, k, hsplit, hparent⟩ := h.vfsResolveParent_eq none hstart hnil
  cases hd : enters (stepTo s kids) (isDirAt s) (startDir s path cwd) cs with
  | none =>
    rw [hd] at hparent
    exact .inl ⟨none, hparent⟩
  | some d =>
    rw [hd] at hparent
    have hmem : d ∈ s.rootNode :: nodes :=
      enters_mem (P := fun x => x ∈ s.rootNode :: nodes)
        (fun _ _ _ hx hm => h.stepTo_mem hx hm) hstart hd
    refine .inr ⟨d, c, k, cs, hparent, hsplit, h.ne_zero hmem, hmem, enters_dir hdir hd, hd, ?_⟩
    rw [h.vfsResolve_eq hstart, hsplit, goes_snoc, hd, Option.bind_some]

theorem length_joined_le {cmd path : CStr} {words : List CStr} (hne : words ≠ [])
    (hline : FitsLine (cmd :: path :: words)) : (joined words).length ≤ 2 ^ 62 := by
  have hsum : ∀ (ws : List CStr) (w : CStr), (List.intercalate [space] (w :: ws)).length + 1 =
      ((w :: ws).map fun w => w.length + 1).sum := by
    intro ws
    induction ws with
    | nil => intro w; simp [List.intercalate]
    | cons v ws ih =>
      intro w
      rw [List.intercalate_cons_cons, List.map_cons, List.sum_cons, ← ih v]
      simp only [List.length_append, List.length_singleton]
      omega
  obtain ⟨w, ws, rfl⟩ := List.exists_cons_of_ne_nil hne
  have hfit := hline.2
  rw [List.map_cons, List.map_cons, List.sum_cons, List.sum_cons, ← hsum, lineMax] at hfit
  rw [joined, List.length_append, List.length_singleton]
  omega

section needs

variable {picks : Nat → Pick} {s : Fs} {cwd d f k argc : Nat} {path c : CStr} {words : List CStr}

/-- Where the path leads to a node, only a file that can be written needs something. -/
theorem writeNeeds_found_iff
    (hparent : vfsResolveParent s path cwd none = some (d, some (c ++ List.replicate k slash)))
    (hd0 : d ≠ 0) (hf : vfsResolve s path cwd = some f) (hf0 : f ≠ 0) :
    WriteNeeds picks s cwd path argc words ↔
      ((s.node f).isDir = false → (s.node f).readonly = false →
        Granted picks s.heap (s.node f).data (s.node f).cap 0 (textPieces argc words)) := by
  constructor
  · intro hneeds
    exact (hneeds d _ hparent hd0).1 f hf hf0
  · intro hgranted dir leaf _ _
    constructor
    · intro f' hf' _
      obtain rfl := Option.some.inj (hf.symm.trans hf')
      exact hgranted
    · intro hnone
      exact absurd (Option.some.inj (hf.symm.trans hnone)) hf0

/-- Where it does not, a file that is created needs a name that fits, and its buffers. -/
theorem writeNeeds_new_iff
    (hparent : vfsResolveParent s path cwd none = some (d, some (c ++ List.replicate k slash)))
    (hd0 : d ≠ 0) (hc : slash ∉ c) (hnone : vfsResolve s path cwd = some 0) :
    WriteNeeds picks s cwd path argc words ↔
      (dirFind s d (c.take (vfsNameMax - 1)) (c.take (vfsNameMax - 1)).length = some 0 →
        s.heap.Fits (picks 0 s.heap nodeSize) nodeSize →
        c.length < vfsNameMax ∧ Granted picks
          { s.heap with live := (picks 0 s.heap nodeSize, nodeSize) :: s.heap.live } 0 0 0
          (textPieces argc words)) := by
  constructor
  · intro hneeds
    have hnew := (hneeds d _ hparent hd0).2 hnone
    rwa [leafName_eq hc, takeWhile_leaf hc] at hnew
  · intro hnew dir leaf hp _
    rw [hparent] at hp
    cases hp
    constructor
    · intro f hf hf0
      exact absurd (Option.some.inj (hnone.symm.trans hf)).symm hf0
    · intro _
      rwa [leafName_eq hc, takeWhile_leaf hc]

end needs

/-- A path that had no node leads to the node that is created, unless its name has been cut. -/
theorem vfsResolve_created {s t : Fs} {nodes : List Nat} {kids kids' : Nat → List Nat}
    {cwd d n : Nat} {path c : CStr} {cs : List CStr} (hinv : FsInv s nodes kids)
    (hstart : startDir s path cwd ∈ s.rootNode :: nodes) (hsplit : components path = cs ++ [c])
    (hd : d ∈ s.rootNode :: nodes)
    (henter : enters (stepTo s kids) (isDirAt s) (startDir s path cwd) cs = some d)
    (hstep : stepTo s kids d c = none)
    (hnew : ∀ x ∈ kids d, (s.node x).name ≠ c.take (vfsNameMax - 1))
    (hcreated : Created s t nodes kids kids' d n (c.take (vfsNameMax - 1)) false) :
    startDir t path cwd ∈ t.rootNode :: n :: nodes ∧
      vfsResolve t path cwd = some (if c.length < vfsNameMax then n else 0) := by
  have hext := hcreated.extends hinv hd hnew
  have hwalk : enters (stepTo t kids') (isDirAt t) (startDir s path cwd) cs = some d :=
    enters_mono (P := fun x => x ∈ s.rootNode :: nodes)
      (fun x c m hx hm => ⟨hext.step x c m hx hm, hinv.stepTo_mem hx hm⟩)
      (fun x hx hxd => by rw [hext.isDirAt_eq hx]; exact hxd) hstart henter
  have hstart' : startDir t path cwd = startDir s path cwd := by
    rw [startDir, startDir, hcreated.rootNode]
  have htmem : startDir t path cwd ∈ t.rootNode :: n :: nodes := by
    rw [hstart']
    exact hext.mem_tree hstart
  obtain ⟨hdot, hdots⟩ := stepTo_none hstep
  refine ⟨htmem, ?_⟩
  rw [hcreated.inv.vfsResolve_eq htmem, hstart', hsplit, goes_snoc, hwalk, Option.bind_some,
    hcreated.stepTo_old hinv hd hd, hstep]
  by_cases hshort : c.length < vfsNameMax
  · have htake : c.take (vfsNameMax - 1) = c :=
      List.take_of_length_le (Nat.le_sub_one_of_lt hshort)
    rw [if_pos hshort, if_pos ⟨rfl, htake.symm, hdot, hdots⟩]
    rfl
  · have htake : c ≠ c.take (vfsNameMax - 1) := by
      intro he
      have hlen := congrArg List.length he
      rw [List.length_take] at hlen
      have hv : vfsNameMax = 64 := rfl
      omega
    rw [if_neg hshort, if_neg fun hcond => htake hcond.2.1]
    rfl

/-- `write` returns. It keeps the law if and only if what it needs is there. -/
theorem write_law_iff {s : Fs} (h : Reachable s) {cwd : Nat} (hcwd : InTree s cwd)
    (hdir : (s.node cwd).isDir = true) (picks : Nat → Pick) {cmd path : CStr}
    {words : List CStr} (hne : words ≠ []) (hline : FitsLine (cmd :: path :: words)) :
    ∃ sh out, cmdWrite picks ⟨s, cwd⟩ (cmd :: path :: words) = some (sh, out) ∧
      (WriteLaw s cwd path words sh.fs out ↔
        WriteNeeds picks s cwd path (words.length + 2) words) := by
  obtain ⟨nodes, kids, hinv⟩ := reachable_fsInv h
  have hcwd' := (hinv.inTree_iff cwd).mp hcwd
  have hstart := startDir_mem path (.inr hcwd')
  have hstartDir : isDirAt s (startDir s path cwd) = true := by
    unfold startDir
    split
    · exact hinv.links.root_dir
    · rw [if_pos (hinv.ne_zero hcwd')]; exact hdir
  rw [cmdWrite_eq picks s cwd cmd path hne]
  rcases FsInv.leaf_cases hinv hstart hstartDir with ⟨leaf, hparent⟩ |
    ⟨d, c, k, cs, hparent, hsplit, hd0, hd, hddir, henter, hresolve⟩
  · -- a bad path
    refine ⟨⟨s, cwd⟩, [.text "write: bad path ", .arg path, .text "\n"],
      by rw [hparent, Option.bind_some, if_pos (.inl rfl)], iff_of_true
        (writeLaw_error (by simp)) fun dir leaf' hp hd0 => ?_⟩
    rw [hparent] at hp
    cases hp
    exact absurd rfl hd0
  have hc := component_ne (by rw [hsplit]; simp : c ∈ components path)
  have hwords : ∀ w ∈ words, w ≠ [] ∧ 0 ∉ w := fun w hw =>
    ⟨(hline.1 w (by simp [hw])).1, (hline.1 w (by simp [hw])).2.1⟩
  have hlen := length_joined_le hne hline
  have hgo : ¬ (d = 0 ∨ some (c ++ List.replicate k slash) = none) := by simp [hd0]
  rw [hparent, Option.bind_some, if_neg hgo, Option.getD_some, writeTarget, hresolve,
    Option.bind_some]
  cases hstep : stepTo s kids d c with
  | some f =>
    have hf := hinv.stepTo_mem hd hstep
    have hf0 := hinv.ne_zero hf
    rw [hstep, Option.getD_some] at hresolve
    have hneeds := @writeNeeds_found_iff picks s cwd d f k (words.length + 2) path c words
      hparent hd0 hresolve hf0
    rw [Option.getD_some, if_neg hf0, Option.bind_some, hneeds]
    by_cases herr : (s.node f).isDir = true ∨ (s.node f).readonly = true
    · -- a directory or a read-only file
      refine ⟨_, _, if_pos (.inr herr), iff_of_true (writeLaw_error (by simp)) ?_⟩
      intro hfile hwrite
      rw [hfile, hwrite] at herr
      exact absurd herr (by decide)
    · simp only [not_or, Bool.not_eq_true] at herr
      have hmem := hinv.file_mem (.inr hf) hf0 herr.1
      obtain ⟨u, hcmd, hu, hiff⟩ := cmdWrite_found picks cwd path hinv hmem
        herr.1 herr.2 hwords hlen
      have hres : vfsResolve u path cwd = some f :=
        (hu.vfsResolve_eq hinv hstart).trans hresolve
      have hudir : (u.node f).isDir = false := (hu.links f).2.1.trans herr.1
      refine ⟨_, _, hcmd, ?_⟩
      rw [writeLaw_ok hres, hiff]
      constructor
      · exact fun hlaw _ _ => hlaw.2.2
      · exact fun hgranted => ⟨hf0, hudir, hgranted herr.1 herr.2⟩
  | none =>
    rw [hstep, Option.getD_none] at hresolve
    rw [Option.getD_none, if_pos rfl, leafName_eq hc.2, writeNeeds_new_iff hparent hd0 hc.2 hresolve]
    have hname : 0 < (c.take (vfsNameMax - 1)).length ∧
        (c.take (vfsNameMax - 1)).length < vfsNameMax := by
      have := List.length_pos_of_ne_nil hc.1
      rw [List.length_take, vfsNameMax]
      omega
    obtain ⟨b, hfind, hb⟩ := hinv.dirFind_spec (c.take (vfsNameMax - 1)) hd (Nat.le_refl _)
    rw [List.take_length] at hb
    rcases hinv.vfsCreate_eq (picks 0) false hd hddir hname with
      ⟨hwhy, hcreate⟩ | ⟨hnew, hfits, t, kids', hcreate, hcreated⟩
    · -- no node for the file
      refine ⟨⟨s, cwd⟩, [.text "write: cannot write ", .arg path, .text "\n"], ?_, iff_of_true
        (writeLaw_error (by simp)) fun hnone hfits => ?_⟩
      · rw [hcreate, Option.bind_some, if_pos (.inl rfl)]
      · rw [hfind] at hnone
        rcases hwhy with ⟨e, he, hname⟩ | hwhy
        · rcases hb with ⟨-, hall⟩ | ⟨hb0, -⟩
          · exact absurd hname (hall e he)
          · exact absurd (Option.some.inj hnone) hb0
        · exact absurd hfits hwhy
    · set n := picks 0 s.heap nodeSize with hn
      have hnone : dirFind s d (c.take (vfsNameMax - 1)) (c.take (vfsNameMax - 1)).length =
          some 0 := by
        rcases hb with ⟨rfl, -⟩ | ⟨-, hb, hbn⟩
        · exact hfind
        · exact absurd hbn (hnew b hb)
      obtain ⟨u, hcmd, hu, hiff⟩ := cmdWrite_found picks cwd path hcreated.inv
        (List.mem_cons_self ..) (by rw [hcreated.new]) (by rw [hcreated.new]) hwords hlen
      rw [hcreated.heap, hcreated.new] at hiff
      obtain ⟨htmem, hleads⟩ :=
        vfsResolve_created hinv hstart hsplit hd henter hstep hnew hcreated
      have hres := (hu.vfsResolve_eq hcreated.inv htmem).trans hleads
      have hudir : (u.node n).isDir = false := by
        rw [(hu.links n).2.1, hcreated.new]
      refine ⟨⟨u, cwd⟩, [], by rw [hcreate, Option.bind_some]; exact hcmd, ?_⟩
      rw [writeLaw_ok hres, forall_prop_of_true hnone, forall_prop_of_true hfits]
      by_cases hshort : c.length < vfsNameMax
      · rw [if_pos hshort, hiff, and_iff_right hfits.1, and_iff_right hudir, and_iff_right hshort]
      · rw [if_neg hshort]
        exact iff_of_false (fun hlaw => hlaw.1 rfl) (fun hboth => hshort hboth.1)

theorem reachable_bootFs : Reachable bootFs := .init start_bootFs

/-- The heap refuses every buffer after the node. -/
def pickNode : Nat → Pick
  | 0 => pickNext
  | _ + 1 => fun _ _ => 0

/-- The argument vector of `write /<leaf> x`. -/
def writeLine (leaf : CStr) : List CStr := [[119, 114, 105, 116, 101], slash :: leaf, [120]]

theorem fitsLine_writeLine {leaf : CStr} (hleaf : 0 ∉ leaf ∧ space ∉ leaf ∧ tab ∉ leaf)
    (hlen : leaf.length ≤ 200) : FitsLine (writeLine leaf) := by
  refine ⟨fun w hw => ?_, ?_⟩
  · rcases List.mem_cons.mp hw with rfl | hw
    · decide
    rcases List.mem_cons.mp hw with rfl | hw
    · simp only [List.mem_cons, not_or]
      exact ⟨List.cons_ne_nil _ _, ⟨by decide, hleaf.1⟩, ⟨by decide, hleaf.2.1⟩,
        by decide, hleaf.2.2⟩
    · rw [List.mem_singleton.mp hw]
      decide
  · simp only [writeLine, List.map_cons, List.map_nil, List.sum_cons, List.sum_nil,
      List.length_cons, List.length_nil, lineMax]
    omega

theorem write_law_iff_boot : ∃ sh out,
    cmdWrite (fun _ => pickNext) ⟨bootFs, 0x1000⟩ (writeLine [102]) = some (sh, out) ∧
      (WriteLaw bootFs 0x1000 [slash, 102] [[120]] sh.fs out ↔
        WriteNeeds (fun _ => pickNext) bootFs 0x1000 [slash, 102] 3 [[120]]) :=
  write_law_iff reachable_bootFs .root rfl (fun _ => pickNext) (List.cons_ne_nil _ _)
    (fitsLine_writeLine (by decide) (by decide))

/-- The file system that `write /<leaf> x` leaves. -/
def wrote (picks : Nat → Pick) (leaf : CStr) : Fs :=
  ((cmdWrite picks ⟨bootFs, 0x1000⟩ (writeLine leaf)).map fun r => r.1.fs).getD bootFs

/-- Nothing was printed, but the path is no file with the text. -/
theorem writeLaw_fails_of {picks : Nat → Pick} {leaf : CStr} {f : Nat}
    (hout : (cmdWrite picks ⟨bootFs, 0x1000⟩ (writeLine leaf)).map Prod.snd = some [])
    (hf : vfsResolve (wrote picks leaf) (slash :: leaf) 0x1000 = some f)
    (hno : f = 0 ∨ contents (wrote picks leaf) f ≠ joined [[120]]) :
    ∃ sh, cmdWrite picks ⟨bootFs, 0x1000⟩ (writeLine leaf) = some (sh, []) ∧
      ¬ WriteLaw bootFs 0x1000 (slash :: leaf) [[120]] sh.fs [] := by
  obtain ⟨⟨sh, out⟩, hcmd, hsnd⟩ := Option.map_eq_some_iff.mp hout
  have hsnd : out = [] := hsnd
  subst hsnd
  have hfs : wrote picks leaf = sh.fs := by
    unfold wrote
    rw [hcmd]
    rfl
  rw [hfs] at hf hno
  refine ⟨sh, hcmd, ?_⟩
  rw [writeLaw_ok hf]
  exact fun hok => hno.elim hok.1 fun hne => hne hok.2.2

/-- No error is printed, and the law fails: once because the heap refuses the buffer, once because
    the last component has 64 bytes. -/
theorem write_law_fails : Reachable bootFs ∧ InTree bootFs 0x1000 ∧
    (bootFs.node 0x1000).isDir = true ∧
    (FitsLine (writeLine [102]) ∧ ∃ sh,
      cmdWrite pickNode ⟨bootFs, 0x1000⟩ (writeLine [102]) = some (sh, []) ∧
      ¬ WriteLaw bootFs 0x1000 [slash, 102] [[120]] sh.fs []) ∧
    (FitsLine (writeLine (List.replicate 64 102)) ∧ ∃ sh,
      cmdWrite (fun _ => pickNext) ⟨bootFs, 0x1000⟩ (writeLine (List.replicate 64 102)) =
        some (sh, []) ∧
      ¬ WriteLaw bootFs 0x1000 (slash :: List.replicate 64 102) [[120]] sh.fs []) := by
  refine ⟨reachable_bootFs, .root, rfl,
    ⟨fitsLine_writeLine (by decide) (by decide), ?_⟩,
    ⟨fitsLine_writeLine (by decide) (by decide), ?_⟩⟩
  · exact writeLaw_fails_of (f := 0x10000) (by decide +kernel) (by decide +kernel)
      (.inr (by decide +kernel))
  · exact writeLaw_fails_of (f := 0) (by decide +kernel) (by decide +kernel) (.inl rfl)

end ChocoOs.Shell
