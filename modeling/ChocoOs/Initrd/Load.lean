import ChocoOs.Initrd.Tar
import Mathlib.Data.List.TakeWhile

/-!
# Loading an archive

`load_tar` of a well formed archive builds the file system that the archive describes, provided the
heap grants the blocks for it: header by header, the nodes in memory represent the members read
so far.
-/

namespace ChocoOs.Initrd
open ProgLib ChocoOs.Vfs

/-! ## Numbers and names -/

theorem foldl_octal {digits : List UInt8} (hoct : ∀ c ∈ digits, isOctal c = true) (v : Nat)
    (hv : (v + 1) * 8 ^ digits.length ≤ addrSpace) :
    digits.foldl (fun v c => add64 (mul64 v 8) (c.toNat - 48)) v =
      digits.foldl (fun v c => v * 8 + (c.toNat - 48)) v := by
  induction digits generalizing v with
  | nil => rfl
  | cons c digits ih =>
    have hc : c.toNat ≤ 55 := (of_decide_eq_true (hoct c (by simp))).2
    rw [List.length_cons, Nat.pow_succ'] at hv
    have hpos : 0 < 8 ^ digits.length := Nat.pow_pos (by decide)
    have hstep : (v * 8 + (c.toNat - 48) + 1) * 8 ^ digits.length ≤
        (v + 1) * (8 * 8 ^ digits.length) := by
      rw [← Nat.mul_assoc]
      exact Nat.mul_le_mul_right _ (by omega)
    have hlt : v * 8 + (c.toNat - 48) < addrSpace :=
      Nat.lt_of_lt_of_le (Nat.lt_of_lt_of_le (Nat.lt_succ_self _)
        (Nat.le_mul_of_pos_right _ hpos)) (hstep.trans hv)
    rw [List.foldl_cons, List.foldl_cons, mul64_of_lt (by omega), add64_of_lt hlt]
    exact ih (fun x hx => hoct x (by simp [hx])) _ (hstep.trans hv)

theorem octalToInt_eq {s : List UInt8} {n : Nat} (h : OctalField (s.take 12) n) :
    octalToInt s 12 = n := by
  obtain ⟨digits, rest, hsplit, hoct, hrest, hvalue⟩ := h
  have hlen : digits.length ≤ 12 := by
    have := congrArg List.length hsplit
    rw [List.length_append, List.length_take] at this
    omega
  have htake : (digits ++ rest).takeWhile isOctal = digits := by
    rw [List.takeWhile_append_of_pos hoct]
    cases rest with
    | nil => simp
    | cons c rest => simp [hrest c (by simp)]
  rw [octalToInt, hsplit, htake, foldl_octal hoct, hvalue]
  calc (0 + 1) * 8 ^ digits.length ≤ 1 * 8 ^ 12 := by
        rw [Nat.zero_add]
        exact Nat.mul_le_mul_left _ (Nat.pow_le_pow_right (by decide) hlen)
    _ ≤ addrSpace := by rw [addrSpace_eq]; decide

theorem strrchr_of_not_mem {s : CStr} {c : UInt8} (h : c ∉ s) : strrchr s c = none := by
  induction s with
  | nil => rfl
  | cons x s ih =>
    rw [strrchr, ih fun hc => h (by simp [hc]), if_neg fun he => h (by simp [he])]

theorem strrchr_append (a : CStr) {b : CStr} {c : UInt8} (h : c ∉ b) :
    strrchr (a ++ c :: b) c = some a.length := by
  induction a with
  | nil => rw [List.nil_append, strrchr, strrchr_of_not_mem h, if_pos rfl]; rfl
  | cons x a ih => rw [List.cons_append, strrchr, ih]; rfl

theorem mem_pathStr {cs : List CStr} {x : UInt8} (h : x ∈ pathStr cs) :
    x = slash ∨ ∃ c ∈ cs, x ∈ c := by
  unfold pathStr at h
  induction cs with
  | nil => cases h
  | cons c cs ih =>
    cases cs with
    | nil =>
      rw [List.intercalate_singleton] at h
      exact .inr ⟨c, by simp, h⟩
    | cons b cs =>
      rw [List.intercalate_cons_cons] at h
      rcases List.mem_append.mp h with h | h
      · rcases List.mem_append.mp h with h | h
        · exact .inr ⟨c, by simp, h⟩
        · exact .inl (List.mem_singleton.mp h)
      · rcases ih h with h | ⟨d, hd, h⟩
        · exact .inl h
        · exact .inr ⟨d, by simp [hd], h⟩

/-- The path of a member as `load_tar` sees it: without the leading `./`. -/
def Member.path (m : Member) : CStr := pathStr m.comps ++ if m.trailing then [slash] else []

theorem Member.storedName_eq (m : Member) :
    m.storedName = (if m.dotSlash then [dot, slash] else []) ++ m.path := by
  rw [storedName, path, List.append_assoc]

namespace Member.Ok

variable {m : Member}

theorem plain (h : m.Ok) : ∀ c ∈ m.comps, PlainName c ∧ c.length < vfsNameMax :=
  fun c hc => ⟨(h.names c hc).1, (h.names c hc).2.2⟩

theorem components_path (h : m.Ok) : components m.path = m.comps := by
  refine fields_intercalate (by simp) (fun c hc => ⟨(h.names c hc).1.1, fun x hx => ?_⟩)
    fun x hx => ?_
  · simpa using fun he : x = slash => (h.names c hc).1.2.1 (he ▸ hx)
  · split at hx
    · simpa using hx
    · cases hx

theorem path_nil (h : m.Ok) (hm : m.path = []) : m.comps = [] := by
  rw [← h.components_path, hm]
  rfl

theorem storedName_ne_nil (h : m.Ok) : m.storedName ≠ [] := by
  rw [m.storedName_eq]
  intro hnil
  obtain ⟨hpre, hpath⟩ := List.append_eq_nil_iff.mp hnil
  have := (h.root (h.path_nil hpath)).2
  rw [if_pos this] at hpre
  cases hpre

theorem zero_not_mem (h : m.Ok) : 0 ∉ m.storedName := by
  have hsep : ∀ x ∈ [dot, slash], x ≠ 0 := by decide +kernel
  intro hmem
  rw [m.storedName_eq] at hmem
  rcases List.mem_append.mp hmem with hmem | hmem
  · split at hmem
    · exact hsep 0 hmem rfl
    · cases hmem
  rcases List.mem_append.mp hmem with hmem | hmem
  · rcases mem_pathStr hmem with hx | ⟨c, hc, hx⟩
    · exact hsep slash (by simp) hx.symm
    · exact (h.names c hc).2.1 hx
  · split at hmem
    · exact hsep slash (by simp) (List.mem_singleton.mp hmem).symm
    · cases hmem

/-- Nothing but the leading `./` is dropped: no component is a dot. -/
theorem cleanName_eq (h : m.Ok) : cleanName m.storedName = m.path := by
  rw [m.storedName_eq, cleanName]
  by_cases hdot : m.dotSlash = true
  · rw [if_pos hdot, if_pos ⟨rfl, rfl⟩]
    rfl
  · rw [if_neg hdot, List.nil_append, if_neg]
    rintro ⟨h0, h1⟩
    have hcomps := h.components_path
    match hp : m.path, h0, h1 with
    | a :: b :: rest, h0, h1 =>
      obtain rfl : a = dot := by simpa using h0
      obtain rfl : b = slash := by simpa using h1
      have hfields : fields (· == slash) ([dot] ++ slash :: rest) =
          [dot] :: fields (· == slash) rest :=
        fields_run_append (List.cons_ne_nil _ _) (by decide +kernel) (by decide +kernel) rest
      rw [hp] at hcomps
      have hcomps : [dot] :: components rest = m.comps := hfields.symm.trans hcomps
      exact (h.plain [dot] (hcomps ▸ List.mem_cons_self ..)).1.2.2.1 rfl

end Member.Ok

theorem IsHeader.nameField_eq {m : Member} {hdr : List UInt8} (h : IsHeader m hdr) (hm : m.Ok) :
    nameField hdr = m.storedName := by
  have hall : ∀ x ∈ m.storedName, (x != 0) = true := fun x hx => by
    simpa using fun he : x = 0 => hm.zero_not_mem (he ▸ hx)
  rw [nameField, h.name, List.takeWhile_append_of_pos hall]
  cases 100 - m.storedName.length with
  | zero => simp
  | succ k => simp [List.replicate_succ]

/-- The place of a file: `strrchr` finds the slash before the leaf. -/
theorem Member.Ok.path_split {m : Member} (h : m.Ok) (hfile : m.entry ≠ .dir) :
    ∃ ds c, m.comps = ds ++ [c] ∧ (PlainName c ∧ c.length < vfsNameMax) ∧
      ((ds = [] ∧ m.path = c ∧ strrchr m.path slash = none) ∨
        (components (pathStr ds) = ds ∧ strrchr m.path slash = some (pathStr ds).length ∧
          m.path = pathStr ds ++ slash :: c)) := by
  have hne : m.comps ≠ [] := fun hnil => hfile (h.root hnil).1
  have htrail : ¬ m.trailing = true := fun ht => hfile (h.trailing ht)
  have hpath : m.path = pathStr m.comps := by rw [Member.path, if_neg htrail, List.append_nil]
  obtain ⟨ds, c, hcomps⟩ := (List.eq_nil_or_concat' m.comps).resolve_left hne
  have hc := h.plain c (by rw [hcomps]; simp)
  refine ⟨ds, c, hcomps, hc, ?_⟩
  rw [hpath, hcomps]
  by_cases hds : ds = []
  · subst hds
    refine .inl ⟨rfl, List.intercalate_singleton, ?_⟩
    rw [List.nil_append, pathStr, List.intercalate_singleton]
    exact strrchr_of_not_mem hc.1.2.1
  · have hsnoc : pathStr (ds ++ [c]) = pathStr ds ++ slash :: c := intercalate_snoc slash hds c
    refine .inr ⟨?_, ?_, hsnoc⟩
    · have hds : ∀ w ∈ ds, w ≠ [] ∧ ∀ x ∈ w, (x == slash) = false := fun w hw => by
        have hplain := (h.plain w (by rw [hcomps]; simp [hw])).1
        exact ⟨hplain.1, fun x hx => by simpa using fun he : x = slash => hplain.2.1 (he ▸ hx)⟩
      have hback : fields (· == slash) (pathStr ds ++ []) = ds :=
        fields_intercalate (by simp) hds fun _ hx => (by cases hx)
      rwa [List.append_nil] at hback
    · rw [hsnoc]
      exact strrchr_append _ hc.1.2.1

/-! ## One member -/

section member

variable {pick : Pick} {heap₀ : Arena} {s : Fs} {nodes : List Nat} {kids : Nat → List Nat}
  {done : List Member} {m : Member} {blocks : List Nat} {archive : List UInt8} {off : Nat}

/-- The directory of a file is there after `parentDir`. -/
theorem parentDir_member (hv : Valid (done ++ [m]))
    (hrep : Represents pick heap₀ s nodes kids (archiveTree done)) (hfile : m.entry ≠ .dir)
    (hgrants : heap₀.Grants pick blocks)
    (hpre : treeBlocks (addDirs (archiveTree done) [] m.comps.dropLast) <+: blocks) :
    ∃ t d c nodes' kids', parentDir pick s m.path = some (t, d, c) ∧
      Represents pick heap₀ t nodes' kids' (addDirs (archiveTree done) [] m.comps.dropLast) ∧
      t.rootNode = s.rootNode ∧ d ∈ t.rootNode :: nodes' ∧ isDirAt t d = true ∧
      enters (stepTo t kids') (isDirAt t) t.rootNode m.comps.dropLast = some d ∧
      m.comps = m.comps.dropLast ++ [c] ∧ PlainName c ∧ c.length < vfsNameMax := by
  have hok := hv.ok m (by simp)
  obtain ⟨ds, c, hcomps, hc, hsplit⟩ := hok.path_split hfile
  have hlast : m.comps.dropLast = ds := by rw [hcomps, List.dropLast_concat]
  rw [hlast] at hpre ⊢
  rcases hsplit with ⟨rfl, hpath, hscan⟩ | ⟨hds, hscan, hpath⟩
  · refine ⟨s, s.rootNode, m.path, nodes, kids, ?_, hrep, rfl, List.mem_cons_self ..,
      hrep.inv.links.root_dir, rfl, hpath.symm ▸ hcomps, hpath.symm ▸ hc⟩
    rw [parentDir, hscan]
  · have hno : ∀ p, p ≠ [] → p <+: components (pathStr ds) → ∀ b,
        (archiveTree done).lookup p ≠ some (.file b) := fun p _ hp b =>
      hv.noFile_on_path (by rw [hds] at hp; exact hp.trans ⟨[c], hcomps.symm⟩) b
    have hplain : ∀ b ∈ components (pathStr ds), PlainName b ∧ b.length < vfsNameMax :=
      fun b hb => hok.plain b (by rw [hds] at hb; rw [hcomps]; simp [hb])
    obtain ⟨t, d, nodes', kids', hmk, ht, hroot, hd, hdir, henter⟩ :=
      hrep.vfsMkdirs hplain hno hgrants (by rw [hds]; exact hpre)
    rw [hds] at ht henter
    refine ⟨t, d, c, nodes', kids', ?_, ht, hroot, hd, hdir, henter, hcomps, hc⟩
    rw [parentDir, hscan]
    simp only [hpath, List.take_left]
    rw [hmk, Option.map_some]
    simp

/-- A file with its contents. -/
theorem loadFile_member {b : List UInt8} (hv : Valid (done ++ [m]))
    (hrep : Represents pick heap₀ s nodes kids (archiveTree done)) (hentry : m.entry = .file b)
    (hgrants : heap₀.Grants pick blocks)
    (hpre : treeBlocks (archiveTree (done ++ [m])) <+: blocks)
    (hroom : off + 512 + b.length ≤ archive.length)
    (hdata : (List.range b.length).map (fun i => archive.getD (off + 512 + i) 0) = b) :
    ∃ t nodes' kids', loadFile pick archive s m.path off b.length = some t ∧
      Represents pick heap₀ t nodes' kids' (archiveTree (done ++ [m])) ∧
      t.rootNode = s.rootNode := by
  have hok := hv.ok m (by simp)
  have hfile : m.entry ≠ .dir := by rw [hentry]; simp
  have htree : archiveTree (done ++ [m]) =
      (m.comps, .file b) :: addDirs (archiveTree done) [] m.comps.dropLast := by
    rw [archiveTree_snoc, addMember, hentry]
  rw [htree] at hpre ⊢
  have hblocks : treeBlocks (addDirs (archiveTree done) [] m.comps.dropLast) ++ [nodeSize] <+:
      blocks := by
    refine List.IsPrefix.trans ?_ hpre
    rw [treeBlocks_cons, List.prefix_append_right_inj]
    exact ⟨_, rfl⟩
  obtain ⟨t, d, c, nodes', kids', hparent, ht, hroot, hd, hdir, henter, hcomps, hc, hlen⟩ :=
    parentDir_member hv hrep hfile hgrants ((List.prefix_append _ _).trans hblocks)
  have hplain : ∀ c ∈ m.comps, PlainName c := fun c hc => (hok.plain c hc).1
  have hne : m.comps ≠ [] := by rw [hcomps]; simp
  have hnone := hv.lookup_file_none hfile hne
  have hw : ∀ c ∈ m.comps.dropLast, PlainName c := fun c hc =>
    hplain c (List.dropLast_subset _ hc)
  obtain ⟨u, n, nodes'', kids'', hcreate, hn, hu, huroot, hat, hnode⟩ :=
    ht.vfsCreate hd hdir henter hw hc hlen (by rw [← hcomps]; exact hnone) hgrants hblocks
  rw [← hcomps] at hu hat
  have hfill : loadFile pick archive s m.path off b.length =
      fillFile pick archive u n off b.length := by
    rw [loadFile, hparent, Option.bind_some, if_pos ⟨ht.inv.ne_zero hd, hc.1⟩, hcreate,
      Option.bind_some]
  rw [hfill, fillFile]
  by_cases hb : b = []
  · subst hb
    exact ⟨u, nodes'', kids'', if_neg (by simp), hu, huroot.trans hroot⟩
  · have hsize : b.length < 8 ^ 11 := by
      have := hok.size_lt
      rwa [Member.bytes, hentry] at this
    obtain ⟨v, r, hwrite, hrepv, hvroot⟩ := hu.vfsWrite hne hplain hat
      (by rw [hnode]; exact ⟨rfl, rfl⟩) _ hdata hb (by omega) hgrants hpre
    refine ⟨v, nodes'', kids'', ?_, hrepv, hvroot.trans (huroot.trans hroot)⟩
    have hn0 := hu.inv.ne_zero (List.mem_cons_of_mem _ hn)
    rw [if_pos ⟨hn0, List.length_pos_of_ne_nil hb⟩, if_pos hroom, hwrite, Option.map_some]

/-- One header with what follows it adds one member. -/
theorem loadEntry_member {hdr : List UInt8} (hv : Valid (done ++ [m]))
    (hrep : Represents pick heap₀ s nodes kids (archiveTree done)) (hhdr : IsHeader m hdr)
    (hgrants : heap₀.Grants pick blocks)
    (hpre : treeBlocks (archiveTree (done ++ [m])) <+: blocks)
    (hroom : off + 512 + m.bytes.length ≤ archive.length)
    (hdata : (List.range m.bytes.length).map (fun i => archive.getD (off + 512 + i) 0) = m.bytes) :
    ∃ t nodes' kids', loadEntry pick archive s (cleanName (nameField hdr)) (hdr.getD 156 0) off
        (octalToInt (hdr.drop 124) 12) = some t ∧
      Represents pick heap₀ t nodes' kids' (archiveTree (done ++ [m])) ∧
      t.rootNode = s.rootNode := by
  have hok := hv.ok m (by simp)
  have htype := hhdr.type
  rw [hhdr.nameField_eq hok, hok.cleanName_eq, octalToInt_eq hhdr.size, loadEntry]
  cases hentry : m.entry with
  | dir =>
    rw [hentry] at htype
    have htree : archiveTree (done ++ [m]) = addDirs (archiveTree done) [] m.comps := by
      rw [archiveTree_snoc, addMember, hentry]
    rw [htree] at hpre ⊢
    by_cases hpath : m.path = []
    · refine ⟨s, nodes, kids, if_pos hpath, ?_, rfl⟩
      rwa [hok.path_nil hpath]
    rw [if_neg hpath, if_pos htype]
    have hcomps := hok.components_path
    have hplain : ∀ c ∈ components m.path, PlainName c ∧ c.length < vfsNameMax := by
      rw [hcomps]
      exact hok.plain
    obtain ⟨t, d, nodes', kids', hmk, ht, hroot, -⟩ := hrep.vfsMkdirs hplain
      (fun p _ hp b => hv.noFile_on_path (hcomps ▸ hp) b) hgrants (by rw [hcomps]; exact hpre)
    rw [hcomps] at ht
    exact ⟨t, nodes', kids', by rw [hmk]; rfl, ht, hroot⟩
  | file b =>
    rw [hentry] at htype
    have hbytes : m.bytes = b := by rw [Member.bytes, hentry]
    have hpath : m.path ≠ [] := fun hp => by
      have := (hok.root (hok.path_nil hp)).1
      rw [hentry] at this
      cases this
    have hnotdir : hdr.getD 156 0 ≠ 53 := by
      rcases htype with h | h <;> rw [h] <;> decide
    rw [hbytes] at hroom hdata ⊢
    rw [if_neg hpath, if_neg hnotdir, if_pos htype]
    exact loadFile_member hv hrep hentry hgrants hpre hroom hdata

end member

/-! ## The whole archive -/

theorem map_getD_append (a b c : List UInt8) :
    (List.range b.length).map (fun i => (a ++ (b ++ c)).getD (a.length + i) 0) = b := by
  refine List.ext_getElem (by simp) fun i h₁ h₂ => ?_
  simp only [List.getElem_map, List.getElem_range, List.getD_eq_getElem?_getD]
  rw [List.getElem?_append_right (Nat.le_add_right _ _), Nat.add_sub_cancel_left,
    List.getElem?_append_left h₂, List.getElem?_eq_getElem h₂, Option.getD_some]

theorem treeBlocks_addMember (T : Tree) (m : Member) :
    treeBlocks T <+: treeBlocks (addMember T m) := by
  unfold addMember
  split
  · exact treeBlocks_addDirs T [] _
  · rw [treeBlocks_cons]
    exact (treeBlocks_addDirs T [] _).trans (List.prefix_append _ _)

/-- The blocks for the first members are asked for first. -/
theorem treeBlocks_archiveTree (ms ns : List Member) :
    treeBlocks (archiveTree ms) <+: treeBlocks (archiveTree (ms ++ ns)) := by
  induction ns using List.reverseRecOn with
  | nil => simp
  | append_singleton ns n ih =>
    rw [← List.append_assoc, archiveTree_snoc]
    exact ih.trans (treeBlocks_addMember _ n)

theorem readHeader_append {pre hdr rest : List UInt8} (h : hdr.length = 512) :
    readHeader (pre ++ (hdr ++ rest)) pre.length = some hdr := by
  rw [readHeader, if_pos (by simp only [List.length_append]; omega), List.drop_left, ← h,
    List.take_left]

/-- The length of the contents is rounded up to where the padding ends. -/
theorem roundBlock_eq {n k : Nat} (hn : n < 8 ^ 11) (hk : k < 512) (hmod : (n + k) % 512 = 0) :
    roundBlock n = n + k := by
  have := addrSpace_eq
  rw [roundBlock, add64_of_lt (by omega)]
  omega

theorem IsHeader.head_ne_zero {m : Member} {hdr : List UInt8} (h : IsHeader m hdr) (hm : m.Ok) :
    hdr.headD 0 ≠ 0 := by
  obtain ⟨a, name, hname⟩ := List.exists_cons_of_ne_nil hm.storedName_ne_nil
  have htake := h.name
  have hzero := hm.zero_not_mem
  rw [hname] at htake hzero
  cases hdr with
  | nil => cases htake
  | cons x xs =>
    have hx : x = a := (List.cons.inj htake).1
    intro h0
    exact hzero (List.mem_cons.mpr (.inl (hx ▸ h0.symm)))

/-- From the header of the next member on, `load_tar` adds the remaining members. -/
theorem loadTar_from {pick : Pick} {heap₀ : Arena} {archive : List UInt8} {blocks : List Nat}
    (hsize : archive.length < addrSpace) (hgrants : heap₀.Grants pick blocks) {ms : List Member}
    {rest : List UInt8} (ha : Archive ms rest) : ∀ (done : List Member) (pre : List UInt8)
      (s : Fs) (nodes : List Nat) (kids : Nat → List Nat) (fuel : Nat),
      archive = pre ++ rest → Valid (done ++ ms) →
      treeBlocks (archiveTree (done ++ ms)) <+: blocks →
      Represents pick heap₀ s nodes kids (archiveTree done) → ms.length < fuel →
      ∃ t nodes' kids', loop (tarRound pick archive) fuel (pre.length, s) = some t ∧
        Represents pick heap₀ t nodes' kids' (archiveTree (done ++ ms)) ∧
        t.rootNode = s.rootNode := by
  induction ha with
  | zeros k =>
    intro done pre s nodes kids fuel harch _ _ hrep hfuel
    obtain ⟨fuel, rfl⟩ := Nat.exists_eq_succ_of_ne_zero (Nat.ne_of_gt (Nat.zero_lt_of_lt hfuel))
    have hzeros : List.replicate (512 * (k + 1)) (0 : UInt8) =
        List.replicate 512 0 ++ List.replicate (512 * k) 0 := by
      rw [← List.replicate_add]
      congr 1
      omega
    rw [hzeros] at harch
    have hlen := congrArg List.length harch
    simp only [List.length_append, List.length_replicate] at hlen
    have hround : tarRound pick archive (pre.length, s) = some (.done s) := by
      rw [tarRound, if_pos (by rw [add64_of_lt (by omega)]; omega), harch,
        readHeader_append List.length_replicate, Option.bind_some]
      exact if_pos rfl
    rw [List.append_nil]
    exact ⟨s, nodes, kids, loop_of_done hround, hrep, rfl⟩
  | @cons m ms hdr pad rest hhdr hpad hmod _ ih =>
    intro done pre s nodes kids fuel harch hv hpre hrep hfuel
    obtain ⟨fuel, rfl⟩ := Nat.exists_eq_succ_of_ne_zero (Nat.ne_of_gt (Nat.zero_lt_of_lt hfuel))
    have hsplit : done ++ m :: ms = (done ++ [m]) ++ ms := by simp
    rw [hsplit] at hv hpre ⊢
    have hvm : Valid (done ++ [m]) := hv.left
    have hok := hvm.ok m (by simp)
    have hbytes := hok.size_lt
    have hlen := congrArg List.length harch
    simp only [List.length_append, hhdr.length] at hlen
    have hdata := map_getD_append (pre ++ hdr) m.bytes (pad ++ rest)
    have harch' : archive = pre ++ (hdr ++ (m.bytes ++ (pad ++ rest))) := by
      rw [harch]
      simp only [List.append_assoc]
    have hpos : (pre ++ hdr).length = pre.length + 512 := by
      rw [List.length_append, hhdr.length]
    rw [hpos, List.append_assoc, ← harch'] at hdata
    obtain ⟨t, nodes', kids', hentry, ht, hroot⟩ := loadEntry_member hvm hrep hhdr hgrants
      ((treeBlocks_archiveTree _ _).trans hpre) (by omega) hdata
    have hround : tarRound pick archive (pre.length, s) =
        some (.next ((pre ++ hdr ++ m.bytes ++ pad).length, t)) := by
      have hread : readHeader archive pre.length = some hdr := by
        rw [harch']
        exact readHeader_append hhdr.length
      have hoff : add64 pre.length (add64 512 (roundBlock m.bytes.length)) =
          (pre ++ hdr ++ m.bytes ++ pad).length := by
        rw [roundBlock_eq hbytes hpad hmod, add64_of_lt (b := _ + _) (by omega),
          add64_of_lt (by omega)]
        simp only [List.length_append, hhdr.length]
        omega
      rw [tarRound, if_pos (by rw [add64_of_lt (by omega)]; omega), hread, Option.bind_some,
        if_neg (hhdr.head_ne_zero hok)]
      simp only [hentry, Option.map_some]
      rw [octalToInt_eq hhdr.size, hoff]
    obtain ⟨u, nodes'', kids'', hloop, hu, huroot⟩ := ih (done ++ [m])
      (pre ++ hdr ++ m.bytes ++ pad) t nodes' kids' fuel
      (by rw [harch]; simp only [List.append_assoc]) hv hpre ht
      (Nat.lt_of_succ_lt_succ hfuel)
    exact ⟨u, nodes'', kids'', (loop_of_next hround).trans hloop, hu, huroot.trans hroot⟩

theorem Archive.length_le {ms : List Member} {archive : List UInt8} (h : Archive ms archive) :
    ms.length < archive.length := by
  induction h with
  | zeros k => simp
  | cons hhdr _ _ _ ih =>
    simp only [List.length_append, List.length_cons, hhdr.length]
    omega

/-- An absolute path leads to the node at its components. -/
theorem vfsResolve_pathStr {s : Fs} {nodes : List Nat} {kids : Nat → List Nat}
    (h : FsInv s nodes kids) {q : List CStr} (hq : ∀ c ∈ q, c ≠ [] ∧ slash ∉ c) (cwd : Nat) :
    vfsResolve s (slash :: pathStr q) cwd = some ((nodeAt s kids q).getD 0) := by
  have hstart : startDir s (slash :: pathStr q) cwd = s.rootNode := by
    have hfirst : (slash :: pathStr q)[0]? = some slash := rfl
    rw [startDir, if_pos hfirst]
  have hcomps : components (slash :: pathStr q) = q := by
    have hback : fields (· == slash) (pathStr q ++ []) = q :=
      fields_intercalate (by simp) (fun w hw => ⟨(hq w hw).1, fun x hx => by
        simpa using fun he : x = slash => (hq w hw).2 (he ▸ hx)⟩) fun _ hx => (by cases hx)
    rw [List.append_nil] at hback
    rw [components, fields_cons_sep (by simp)]
    exact hback
  rw [h.vfsResolve_eq (by rw [hstart]; exact List.mem_cons_self ..), hstart, hcomps]

/-- `load_tar` of an archive into an empty tree, with granted blocks: the path of every member leads
    to what the member is, and every node is a member or a directory above one. -/
theorem loadTar_archive {s : Fs} (h : Vfs.Start s) {ms : List Member} {archive : List UInt8}
    (hv : Valid ms) (ha : Archive ms archive) (hsize : archive.length < addrSpace) (pick : Pick)
    (hgrants : s.heap.Grants pick (treeBlocks (archiveTree ms))) :
    ∃ t, loadTar pick s archive = some t ∧
      (∀ m ∈ ms, ∃ n, InTree t n ∧ Shows t n m.entry ∧
        ∀ cwd, vfsResolve t (slash :: pathStr m.comps) cwd = some n) ∧
      ∀ n, InTree t n → n ≠ t.rootNode → ∃ m ∈ ms, ∃ q, q <+: m.comps ∧
        (q ≠ m.comps → (t.node n).isDir = true) ∧
        ∀ cwd, vfsResolve t (slash :: pathStr q) cwd = some n := by
  have hlen := ha.length_le
  obtain ⟨t, nodes, kids, hload, hrep, -⟩ := loadTar_from hsize hgrants ha [] [] s [] _ addrSpace
    rfl hv List.prefix_rfl (.nil (fsInv_start h)) (by omega)
  refine ⟨t, hload, fun m hm => ?_, fun n hn hroot => ?_⟩
  · have hnames := (hv.ok m hm).names
    have hres := vfsResolve_pathStr (q := m.comps) hrep.inv fun c hc =>
      ⟨(hnames c hc).1.1, (hnames c hc).1.2.1⟩
    by_cases hne : m.comps = []
    · refine ⟨t.rootNode, .root, ?_, fun cwd => ?_⟩
      · rw [((hv.ok m hm).root hne).1]
        exact hrep.inv.links.root_dir
      · rw [hres, hne]
        rfl
    · obtain ⟨n, hn, hshow⟩ := hrep.look_some hne (fun c hc => (hnames c hc).1)
        (lookup_member hv hm hne)
      refine ⟨n, (hrep.inv.inTree_iff n).mpr (hrep.inv.nodeAt_mem hn), hshow, fun cwd => ?_⟩
      rw [hres, hn]
      rfl
  · -- the names on the way down to the node are a path with an entry
    have hmem : ∀ x, InTree t x → x ≠ t.rootNode → x ∈ nodes := fun x hx hne =>
      (List.mem_cons.mp ((hrep.inv.inTree_iff x).mp hx)).resolve_left hne
    have hplain : PlainNames t := fun x hx hne => (hrep.plain x (hmem x hx hne)).2
    obtain ⟨ps, hps⟩ := hrep.inv.exists_ancestry hn
    have hat := (hrep.inv.goes_ancestry hplain hps).1
    have hnames : ∀ c ∈ ps.map fun x => (t.node x).name, PlainName c := fun c hc => by
      obtain ⟨x, hx, rfl⟩ := List.mem_map.mp hc
      exact hrep.plain x (hmem x (hps.mem hx).1 (hps.mem hx).2)
    have hne : (ps.map fun x => (t.node x).name) ≠ [] := by
      simpa using hps.ne_nil hroot
    obtain ⟨e, he, hshow⟩ := hrep.lookup_of_nodeAt hne hnames hat
    obtain ⟨m, hm, -, hpre, hentry⟩ := lookup_archiveTree hv he
    refine ⟨m, hm, _, hpre, fun hqm => ?_, fun cwd => ?_⟩
    · rw [if_neg hqm] at hentry
      rw [hentry] at hshow
      exact hshow
    · rw [vfsResolve_pathStr hrep.inv (fun c hc => ⟨(hnames c hc).1, (hnames c hc).2.1⟩),
        show nodeAt t kids (ps.map fun x => (t.node x).name) = some n from hat]
      rfl

/-- The file `./a/b` with the one byte `x`. -/
def tinyMember : Member := ⟨[[97], [98]], true, false, .file [120]⟩

def tinyHeader : List UInt8 :=
  [dot, slash, 97, slash, 98] ++ List.replicate 119 0 ++ List.replicate 10 48 ++ [49, 0] ++
    List.replicate 20 0 ++ [48] ++ List.replicate 355 0

def tinyArchive : List UInt8 :=
  tinyHeader ++ [120] ++ List.replicate 511 0 ++ List.replicate (512 * 2) 0

theorem archive_tinyArchive : Archive [tinyMember] tinyArchive := by
  refine .cons ⟨by decide +kernel, by decide +kernel, ?_, .inl (by decide +kernel)⟩
    (by decide +kernel) (by decide +kernel) (.zeros 1)
  exact ⟨List.replicate 10 48 ++ [49], [0], by decide +kernel, by decide +kernel, by decide +kernel,
    by decide⟩

theorem valid_tinyMember : Valid [tinyMember] := by
  refine ⟨fun m hm => ?_, by simp, fun m hm m' hm' _ _ => ?_⟩
  · rw [List.mem_singleton.mp hm]
    refine ⟨?_, nofun, nofun, by decide, by decide⟩
    unfold PlainName
    decide
  · rw [List.mem_singleton.mp hm, List.mem_singleton.mp hm']

theorem loadTar_archive_boot : ∃ t, loadTar pickNext bootFs tinyArchive = some t ∧
    (∀ m ∈ [tinyMember], ∃ n, InTree t n ∧ Shows t n m.entry ∧
      ∀ cwd, vfsResolve t (slash :: pathStr m.comps) cwd = some n) ∧
    ∀ n, InTree t n → n ≠ t.rootNode → ∃ m ∈ [tinyMember], ∃ q, q <+: m.comps ∧
      (q ≠ m.comps → (t.node n).isDir = true) ∧
      ∀ cwd, vfsResolve t (slash :: pathStr q) cwd = some n :=
  loadTar_archive start_bootFs valid_tinyMember archive_tinyArchive
    (by rw [addrSpace_eq]; decide +kernel) pickNext (by decide +kernel)

end ChocoOs.Initrd
