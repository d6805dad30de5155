import ChocoOs.Vfs.TreeView

/-!
# Reading the initial file system from an archive

`octal_to_int` and `load_tar` of `initrd.c`. The archive is the list of the bytes of the boot
module, which lies outside the heap. `none` means what it means for the file system, and also
that bytes outside the archive are read or handed to `vfs_write`.
-/

namespace ChocoOs.Initrd
open ProgLib ChocoOs.Vfs

/-- `s[i] >= '0' && s[i] <= '7'`. -/
def isOctal (c : UInt8) : Bool := decide (48 ≤ c.toNat ∧ c.toNat ≤ 55)

/-- `octal_to_int` (`initrd.c:28-34`). -/
def octalToInt (s : List UInt8) (len : Nat) : Nat :=
  ((s.take len).takeWhile isOctal).foldl (fun v c => add64 (mul64 v 8) (c.toNat - 48)) 0

/-- `strrchr`: the index of the last `c`. -/
def strrchr : CStr → UInt8 → Option Nat
  | [], _ => none
  | x :: xs, c =>
    match strrchr xs c with
    | some i => some (i + 1)
    | none => if x = c then some 0 else none

/-- The name field as a C string (`initrd.c:47-49`). -/
def nameField (hdr : List UInt8) : CStr := (hdr.take 100).takeWhile (· != 0)

/-- The name without a leading `./` (`initrd.c:54-57`). -/
def cleanName (name : CStr) : CStr :=
  if name[0]? = some dot ∧ name[1]? = some slash then name.drop 2 else name

/-- The directory and the leaf of a file (`initrd.c:68-76`). -/
def parentDir (pick : Pick) (s : Fs) (clean : CStr) : Option (Fs × Nat × CStr) :=
  match strrchr clean slash with
  | none => some (s, s.rootNode, clean)
  | some i => (vfsMkdirs pick s (clean.take i) s.rootNode).map fun r =>
      (r.1, r.2, clean.drop (i + 1))

/-- The contents of a file follow its header (`initrd.c:80-81`). -/
def fillFile (pick : Pick) (archive : List UInt8) (s : Fs) (f off fsize : Nat) : Option Fs :=
  if f ≠ 0 ∧ 0 < fsize then
    if off + 512 + fsize ≤ archive.length then
      (vfsWrite pick s f (fun i => archive.getD (off + 512 + i) 0) 0 fsize).map Prod.fst
    else none
  else some s

/-- A regular file (`initrd.c:67-84`). -/
def loadFile (pick : Pick) (archive : List UInt8) (s : Fs) (clean : CStr) (off fsize : Nat) :
    Option Fs :=
  (parentDir pick s clean).bind fun r =>
    if r.2.1 ≠ 0 ∧ r.2.2 ≠ [] then
      (vfsCreate pick r.1 r.2.1 r.2.2 false).bind fun q => fillFile pick archive q.1 q.2 off fsize
    else some r.1

/-- What becomes of one header (`initrd.c:59-86`). -/
def loadEntry (pick : Pick) (archive : List UInt8) (s : Fs) (clean : CStr) (type : UInt8)
    (off fsize : Nat) : Option Fs :=
  if clean = [] then some s
  else if type = 53 then (vfsMkdirs pick s clean s.rootNode).map Prod.fst
  else if type = 48 ∨ type = 0 then loadFile pick archive s clean off fsize
  else some s

/-- The 512 bytes of `hdr`. -/
def readHeader (archive : List UInt8) (off : Nat) : Option (List UInt8) :=
  if off + 512 ≤ archive.length then some ((archive.drop off).take 512) else none

/-- `(fsize + 511) & ~511ull`. -/
def roundBlock (fsize : Nat) : Nat := add64 fsize 511 / 512 * 512

def tarRound (pick : Pick) (archive : List UInt8) :
    Nat × Fs → Option (LoopStep (Nat × Fs) Fs)
  | (off, s) =>
    if add64 off 512 ≤ archive.length then
      (readHeader archive off).bind fun hdr =>
        if hdr.headD 0 = 0 then some (.done s)
        else
          let fsize := octalToInt (hdr.drop 124) 12
          (loadEntry pick archive s (cleanName (nameField hdr)) (hdr.getD 156 0) off fsize).map
            fun s => .next (add64 off (add64 512 (roundBlock fsize)), s)
    else some (.done s)

/-- `load_tar` (`initrd.c:36-91`). -/
def loadTar (pick : Pick) (s : Fs) (archive : List UInt8) : Option Fs :=
  loop (tarRound pick archive) addrSpace (0, s)

/-! ## Archives -/

/-- A member of an archive: where it belongs, how its name is spelled, and what it is. -/
structure Member where
  comps : List CStr
  dotSlash : Bool
  trailing : Bool
  entry : Entry

/-- The components of a path with slashes between them. -/
def pathStr (comps : List CStr) : CStr := List.intercalate [slash] comps

namespace Member

/-- The name as the archive spells it. -/
def storedName (m : Member) : CStr :=
  (if m.dotSlash then [dot, slash] else []) ++ pathStr m.comps ++
    if m.trailing then [slash] else []

def bytes (m : Member) : List UInt8 :=
  match m.entry with
  | .dir => []
  | .file b => b

/-- A member that can be archived in one header. Only the root directory, spelled with a leading
    `./`, has no components; only directories are spelled with a trailing slash. -/
structure Ok (m : Member) : Prop where
  names : ∀ c ∈ m.comps, PlainName c ∧ 0 ∉ c ∧ c.length < vfsNameMax
  root : m.comps = [] → m.entry = .dir ∧ m.dotSlash = true
  trailing : m.trailing = true → m.entry = .dir
  name_le : m.storedName.length ≤ 100
  size_lt : m.bytes.length < 8 ^ 11

end Member

/-- The octal digits at the start of a field have the value `n`. -/
def OctalField (field : List UInt8) (n : Nat) : Prop :=
  ∃ digits rest, field = digits ++ rest ∧ (∀ c ∈ digits, isOctal c = true) ∧
    (∀ c ∈ rest.head?, isOctal c = false) ∧
    digits.foldl (fun v c => v * 8 + (c.toNat - 48)) 0 = n

/-- A header of a member. The bytes of the other fields may be anything. -/
structure IsHeader (m : Member) (hdr : List UInt8) : Prop where
  length : hdr.length = 512
  name : hdr.take 100 = m.storedName ++ List.replicate (100 - m.storedName.length) 0
  size : OctalField ((hdr.drop 124).take 12) m.bytes.length
  type : match m.entry with
    | .dir => hdr.getD 156 0 = 53
    | .file _ => hdr.getD 156 0 = 48 ∨ hdr.getD 156 0 = 0

/-- The members one after another, each with its contents padded to a block, and at least one block
    of zeros at the end. -/
inductive Archive : List Member → List UInt8 → Prop
  | zeros (k : Nat) : Archive [] (List.replicate (512 * (k + 1)) 0)
  | cons {m : Member} {ms : List Member} {hdr pad rest : List UInt8} : IsHeader m hdr →
      pad.length < 512 → (m.bytes.length + pad.length) % 512 = 0 → Archive ms rest →
      Archive (m :: ms) (hdr ++ m.bytes ++ pad ++ rest)

/-- Members with different paths, none of them below a file. -/
structure Valid (ms : List Member) : Prop where
  ok : ∀ m ∈ ms, m.Ok
  distinct : (ms.map Member.comps).Nodup
  noFileAbove : ∀ m ∈ ms, ∀ m' ∈ ms, m.entry ≠ .dir → m.comps <+: m'.comps → m.comps = m'.comps

/-- What a member adds to the file system. -/
def addMember (T : Tree) (m : Member) : Tree :=
  match m.entry with
  | .dir => addDirs T [] m.comps
  | .file b => (m.comps, .file b) :: addDirs T [] m.comps.dropLast

/-- The file system that an archive describes. -/
def archiveTree (ms : List Member) : Tree := ms.foldl addMember []

theorem archiveTree_snoc (ms : List Member) (m : Member) :
    archiveTree (ms ++ [m]) = addMember (archiveTree ms) m := by
  rw [archiveTree, List.foldl_append]
  rfl

theorem Valid.left {ms ns : List Member} (h : Valid (ms ++ ns)) : Valid ms := by
  refine ⟨fun m' hm' => h.ok m' (by simp [hm']), ?_, fun a ha b hb => ?_⟩
  · have hd := h.distinct
    rw [List.map_append] at hd
    exact (List.nodup_append.mp hd).1
  · exact h.noFileAbove a (by simp [ha]) b (by simp [hb])

theorem Valid.comps_ne {ms : List Member} {m m' : Member} (h : Valid (ms ++ [m])) (hm' : m' ∈ ms) :
    m'.comps ≠ m.comps := by
  have hd := h.distinct
  rw [List.map_append, List.map_singleton] at hd
  exact (List.nodup_append.mp hd).2.2 _ (List.mem_map_of_mem hm') _ (List.mem_singleton_self _)

theorem lookup_addMember_of_some {T : Tree} {m : Member} {q : List CStr} {e : Entry}
    (h : T.lookup q = some e) (hq : q ≠ m.comps) : (addMember T m).lookup q = some e := by
  have hdirs : ∀ cs, (addDirs T [] cs).lookup q = some e := fun cs => by
    rcases lookup_addDirs T [] cs q with ⟨hT, -⟩ | ⟨hT, -⟩
    · rw [hT, h]
    · rw [h] at hT
      cases hT
  unfold addMember
  split
  · exact hdirs _
  · rw [lookup_cons_of_ne hq]
    exact hdirs _

/-- Every entry is a member, or a directory above one. -/
theorem lookup_archiveTree {ms : List Member} (hv : Valid ms) {q : List CStr} {e : Entry}
    (h : (archiveTree ms).lookup q = some e) :
    ∃ m ∈ ms, q ≠ [] ∧ q <+: m.comps ∧ e = if q = m.comps then m.entry else .dir := by
  induction ms using List.reverseRecOn with
  | nil => cases h
  | append_singleton ms m ih =>
    have hold : (archiveTree ms).lookup q = some e → ∃ m' ∈ ms ++ [m], q ≠ [] ∧
        q <+: m'.comps ∧ e = if q = m'.comps then m'.entry else .dir := fun hT => by
      obtain ⟨m', hm', hrest⟩ := ih hv.left hT
      exact ⟨m', by simp [hm'], hrest⟩
    rw [archiveTree_snoc, addMember] at h
    cases he : m.entry with
    | dir =>
      rw [he] at h
      rcases lookup_addDirs (archiveTree ms) [] m.comps q with ⟨hT, -⟩ | ⟨-, hT, p, hp, hpre, hqp⟩
      · exact hold (hT.symm.trans h)
      · rw [List.nil_append] at hqp
        refine ⟨m, by simp, hqp ▸ hp, hqp ▸ hpre, ?_⟩
        rw [he, ite_self]
        exact Option.some.inj (h.symm.trans hT)
    | file b =>
      rw [he] at h
      by_cases hq : q = m.comps
      · subst hq
        rw [lookup_cons_self] at h
        have hne : m.comps ≠ [] := fun hnil => by
          have := ((hv.ok m (by simp)).root hnil).1
          rw [he] at this
          cases this
        refine ⟨m, by simp, hne, List.prefix_rfl, ?_⟩
        rw [if_pos rfl, he]
        exact (Option.some.inj h).symm
      · rw [lookup_cons_of_ne hq] at h
        rcases lookup_addDirs (archiveTree ms) [] m.comps.dropLast q with
          ⟨hT, -⟩ | ⟨-, hT, p, hp, hpre, hqp⟩
        · exact hold (hT.symm.trans h)
        · rw [List.nil_append] at hqp
          refine ⟨m, by simp, hqp ▸ hp, hqp ▸ hpre.trans (List.dropLast_prefix _), ?_⟩
          rw [if_neg hq]
          exact Option.some.inj (h.symm.trans hT)

/-- Every member other than the root has its entry. -/
theorem lookup_member {ms : List Member} (hv : Valid ms) {m : Member} (hm : m ∈ ms)
    (hne : m.comps ≠ []) : (archiveTree ms).lookup m.comps = some m.entry := by
  induction ms using List.reverseRecOn with
  | nil => cases hm
  | append_singleton ms m' ih =>
    rw [archiveTree_snoc]
    rcases List.mem_append.mp hm with hold | hlast
    · exact lookup_addMember_of_some (ih hv.left hold) (hv.comps_ne hold)
    · obtain rfl := List.mem_singleton.mp hlast
      unfold addMember
      cases he : m.entry with
      | file b => exact lookup_cons_self _ _ _
      | dir =>
        rcases lookup_addDirs (archiveTree ms) [] m.comps m.comps with ⟨hT, hno⟩ | ⟨-, hT, -⟩
        · -- it is the directory above an earlier member
          cases hl : (archiveTree ms).lookup m.comps with
          | none => exact absurd rfl (hno hl _ hne List.prefix_rfl)
          | some e =>
            obtain ⟨m', hm', -, -, hentry⟩ := lookup_archiveTree hv.left hl
            rw [if_neg (hv.comps_ne hm').symm] at hentry
            exact hT.trans (hl.trans (congrArg some hentry))
        · exact hT

/-- No file is in the way of the next member. -/
theorem Valid.noFile_on_path {ms : List Member} {m : Member} (hv : Valid (ms ++ [m]))
    {p : List CStr} (hpre : p <+: m.comps) (b : List UInt8) :
    (archiveTree ms).lookup p ≠ some (.file b) := by
  intro h
  obtain ⟨m', hm', -, -, hentry⟩ := lookup_archiveTree hv.left h
  by_cases hp : p = m'.comps
  · rw [if_pos hp] at hentry
    have hfile : m'.entry ≠ .dir := by rw [← hentry]; simp
    exact hv.comps_ne hm' (hv.noFileAbove m' (by simp [hm']) m (by simp) hfile (hp ▸ hpre))
  · rw [if_neg hp] at hentry
    cases hentry

/-- The next file is new. -/
theorem Valid.lookup_file_none {ms : List Member} {m : Member} (hv : Valid (ms ++ [m]))
    (hfile : m.entry ≠ .dir) (hne : m.comps ≠ []) :
    (addDirs (archiveTree ms) [] m.comps.dropLast).lookup m.comps = none := by
  have hnone : (archiveTree ms).lookup m.comps = none := by
    cases hl : (archiveTree ms).lookup m.comps with
    | none => rfl
    | some e =>
      obtain ⟨m', hm', -, hpre, -⟩ := lookup_archiveTree hv.left hl
      exact absurd (hv.noFileAbove m (by simp) m' (by simp [hm']) hfile hpre).symm
        (hv.comps_ne hm')
  rcases lookup_addDirs (archiveTree ms) [] m.comps.dropLast m.comps with
    ⟨hT, -⟩ | ⟨-, -, p, -, hpre, hp⟩
  · exact hT.trans hnone
  · -- a directory above the file has a shorter path
    have hlen := hpre.length_le
    have := List.length_pos_of_ne_nil hne
    rw [List.nil_append] at hp
    rw [← hp, List.length_dropLast] at hlen
    omega

end ChocoOs.Initrd
