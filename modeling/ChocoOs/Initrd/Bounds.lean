import Mathlib.Data.Nat.Find
import ChocoOs.Initrd.Load

/-!
# What an archive makes the loader read

`load_tar` tests that a header lies in the archive, but not that the data behind it do: it hands
`fsize` bytes to `vfs_write`, whatever the size field says. The size fields also lead from one
header to the next. Only the archive decides where the headers are; whether the data are read at
all depends on the file system, which may refuse the file.
-/

namespace ChocoOs.Initrd
open ProgLib ChocoOs.Vfs

/-! ## Headers -/

/-- The 512 bytes at `off`. -/
def header (archive : List UInt8) (off : Nat) : List UInt8 := (archive.drop off).take 512

/-- The size field of the header at `off`. -/
def memberSize (archive : List UInt8) (off : Nat) : Nat :=
  octalToInt ((header archive off).drop 124) 12

/-- Where the next header is (`initrd.c:87`). -/
def nextHeader (archive : List UInt8) (off : Nat) : Nat :=
  add64 off (add64 512 (roundBlock (memberSize archive off)))

/-- `load_tar` stops at `off`: there is no room for a header, or a zero byte. -/
def Stops (archive : List UInt8) (off : Nat) : Prop :=
  archive.length < add64 off 512 ∨
    (off + 512 ≤ archive.length ∧ (header archive off).headD 0 = 0)

/-- The headers lead to a place where `load_tar` stops. -/
def HeadersEnd (archive : List UInt8) : Prop := ∃ k, Stops archive ((nextHeader archive)^[k] 0)

/-- The file for a member with this name, or null. -/
def memberFile (pick : Pick) (s : Fs) (clean : CStr) : Option (Fs × Nat) :=
  (parentDir pick s clean).bind fun r =>
    if r.2.1 ≠ 0 ∧ r.2.2 ≠ [] then vfsCreate pick r.1 r.2.1 r.2.2 false else some (r.1, 0)

/-- The file system gets a file for the member at `off`, and the size field says that there are
    data for it. -/
def Receives (pick : Pick) (archive : List UInt8) (off : Nat) (s : Fs) : Prop :=
  let hdr := header archive off
  cleanName (nameField hdr) ≠ [] ∧ (hdr.getD 156 0 = 48 ∨ hdr.getD 156 0 = 0) ∧
    0 < memberSize archive off ∧
    ∃ t f, memberFile pick s (cleanName (nameField hdr)) = some (t, f) ∧ f ≠ 0

/-- What `load_tar` reads at `off` lies in the archive: the header if there is one, and the data of
    a file that the file system gets. -/
def Inside (pick : Pick) (archive : List UInt8) (off : Nat) (s : Fs) : Prop :=
  archive.length < add64 off 512 ∨ (off + 512 ≤ archive.length ∧
    ((header archive off).headD 0 ≠ 0 → Receives pick archive off s →
      off + 512 + memberSize archive off ≤ archive.length))

/-- `load_tar` comes to `off` with the file system `t`. -/
def ComesTo (pick : Pick) (archive : List UInt8) (s : Fs) (off : Nat) (t : Fs) : Prop :=
  Relation.ReflTransGen (GoesOn (tarRound pick archive)) (0, s) (off, t)

/-! ## Sizes -/

theorem octal_lt {digits : List UInt8} (hoct : ∀ c ∈ digits, isOctal c = true) (v : Nat) :
    digits.foldl (fun v c => v * 8 + (c.toNat - 48)) v < (v + 1) * 8 ^ digits.length := by
  induction digits generalizing v with
  | nil => simp
  | cons c digits ih =>
    have hc : c.toNat ≤ 55 := (of_decide_eq_true (hoct c (by simp))).2
    calc (c :: digits).foldl (fun v c => v * 8 + (c.toNat - 48)) v
        < (v * 8 + (c.toNat - 48) + 1) * 8 ^ digits.length :=
          ih (fun x hx => hoct x (by simp [hx])) _
      _ ≤ ((v + 1) * 8) * 8 ^ digits.length := Nat.mul_le_mul_right _ (by omega)
      _ = (v + 1) * 8 ^ (c :: digits).length := by
          rw [List.length_cons, Nat.pow_succ', Nat.mul_assoc]

/-- Twelve octal digits make less than `2 ^ 36`. -/
theorem octalToInt_lt (s : List UInt8) : octalToInt s 12 < 2 ^ 36 := by
  have hoct : ∀ c ∈ (s.take 12).takeWhile isOctal, isOctal c = true := fun c hc =>
    List.mem_takeWhile_imp hc
  have hlen : ((s.take 12).takeWhile isOctal).length ≤ 12 :=
    Nat.le_trans (List.takeWhile_prefix _).length_le (List.length_take_le _ _)
  have hpow : 8 ^ ((s.take 12).takeWhile isOctal).length ≤ 8 ^ 12 :=
    Nat.pow_le_pow_right (by decide) hlen
  have hfold := foldl_octal hoct 0 (by
    rw [addrSpace_eq]
    omega)
  rw [octalToInt, hfold]
  have hlt := octal_lt hoct 0
  omega

theorem memberSize_lt (archive : List UInt8) (off : Nat) : memberSize archive off < 2 ^ 36 :=
  octalToInt_lt _

/-- In an archive that keeps away from the top of the address range, the headers end. -/
theorem headersEnd_of_small {archive : List UInt8} (h : archive.length + 2 ^ 37 ≤ addrSpace) :
    HeadersEnd archive := by
  have hstep : ∀ off, off + 512 ≤ archive.length → off + 512 ≤ nextHeader archive off ∧
      nextHeader archive off < addrSpace - 512 := by
    intro off hoff
    have hsize := memberSize_lt archive off
    have hadd : add64 (memberSize archive off) 511 = memberSize archive off + 511 :=
      add64_of_lt (by omega)
    have hround : roundBlock (memberSize archive off) ≤ memberSize archive off + 511 := by
      rw [roundBlock, hadd]
      exact Nat.div_mul_le_self _ _
    rw [nextHeader, add64_of_lt (b := roundBlock _) (by omega), add64_of_lt (by omega)]
    omega
  by_contra hno
  simp only [HeadersEnd, not_exists] at hno
  have hroom : ∀ off, off < addrSpace - 512 → ¬ Stops archive off →
      off + 512 ≤ archive.length := by
    intro off hoff hgo
    simp only [Stops, not_or] at hgo
    rw [add64_of_lt (by omega)] at hgo
    omega
  have hgrow : ∀ k, 512 * k ≤ (nextHeader archive)^[k] 0 ∧
      (nextHeader archive)^[k] 0 < addrSpace - 512 := by
    intro k
    induction k with
    | zero =>
      rw [Function.iterate_zero_apply]
      omega
    | succ k ih =>
      have hin := hstep _ (hroom _ ih.2 (hno k))
      rw [Function.iterate_succ_apply']
      omega
  have hlast := hgrow archive.length
  have := hroom _ hlast.2 (hno _)
  omega

/-! ## One round -/

section rounds

variable {pick : Pick} {archive : List UInt8} {off : Nat} {s : Fs} {nodes : List Nat}
  {kids : Nat → List Nat}

theorem loadFile_eq (pick : Pick) (archive : List UInt8) (s : Fs) (clean : CStr)
    (off fsize : Nat) : loadFile pick archive s clean off fsize =
      (memberFile pick s clean).bind fun q => fillFile pick archive q.1 q.2 off fsize := by
  rw [loadFile, memberFile]
  cases parentDir pick s clean with
  | none => rfl
  | some r =>
    simp only [Option.bind_some]
    split
    · rfl
    · simp [fillFile]

/-- The file of a member is new and empty. -/
theorem memberFile_spec (pick : Pick) (clean : CStr) (h : FsInv s nodes kids) :
    ∃ t f nodes' kids', memberFile pick s clean = some (t, f) ∧ FsInv t nodes' kids' ∧
      (f = 0 ∨ f ∈ t.rootNode :: nodes') := by
  obtain ⟨t, d, leaf, nodes₁, kids₁, hparent, ht, hd⟩ : ∃ t d leaf nodes₁ kids₁,
      parentDir pick s clean = some (t, d, leaf) ∧ FsInv t nodes₁ kids₁ ∧
        (d = 0 ∨ d ∈ t.rootNode :: nodes₁) := by
    unfold parentDir
    cases strrchr clean slash with
    | none => exact ⟨s, s.rootNode, clean, nodes, kids, rfl, h, .inr (List.mem_cons_self ..)⟩
    | some i =>
      obtain ⟨t, d, nodes₁, hmk, ⟨⟨kids₁, ht⟩, -⟩, hd⟩ :=
        vfsMkdirs_spec pick (clean.take i) h (.inr (List.mem_cons_self ..))
      exact ⟨t, d, clean.drop (i + 1), nodes₁, kids₁, by simp only [hmk, Option.map_some], ht, hd⟩
  rw [memberFile, hparent, Option.bind_some]
  split
  · obtain ⟨u, f, nodes', hcreate, ⟨⟨kids', hu⟩, -⟩, hf⟩ :=
      vfsCreate_spec pick leaf false ht hd
    exact ⟨u, f, nodes', kids', hcreate, hu, hf.imp id fun hf => List.mem_cons_of_mem _ hf.1⟩
  · exact ⟨t, 0, nodes₁, kids₁, rfl, ht, .inl rfl⟩

/-- The data of a file are handed to `vfs_write` if they lie in the archive. -/
theorem fillFile_spec (h : FsInv s nodes kids) {f : Nat} (hf : f = 0 ∨ f ∈ s.rootNode :: nodes)
    {fsize : Nat} (hsize : fsize < 2 ^ 36)
    (hin : f ≠ 0 → 0 < fsize → off + 512 + fsize ≤ archive.length) :
    ∃ t, fillFile pick archive s f off fsize = some t ∧ FsInv t nodes kids := by
  unfold fillFile
  split
  · next hdata =>
    rw [if_pos (hin hdata.1 hdata.2)]
    obtain ⟨t, r, hwrite, ht, -⟩ := vfsWrite_spec pick
      (fun i => archive.getD (off + 512 + i) 0) h hf (show 0 + fsize ≤ 2 ^ 62 by omega)
    exact ⟨t, by rw [hwrite]; rfl, ht⟩
  · exact ⟨s, rfl, h⟩

/-- A member whose data lie in the archive is loaded. -/
theorem loadEntry_of_inside (h : FsInv s nodes kids)
    (hin : Receives pick archive off s → off + 512 + memberSize archive off ≤ archive.length) :
    ∃ t nodes' kids', loadEntry pick archive s (cleanName (nameField (header archive off)))
      ((header archive off).getD 156 0) off (memberSize archive off) = some t ∧
        FsInv t nodes' kids' := by
  unfold loadEntry
  split
  · exact ⟨s, nodes, kids, rfl, h⟩
  next hclean =>
  split
  · obtain ⟨t, d, nodes', hmk, ⟨⟨kids', ht⟩, -⟩, -⟩ := vfsMkdirs_spec pick
      (cleanName (nameField (header archive off))) h (.inr (List.mem_cons_self ..))
    exact ⟨t, nodes', kids', by rw [hmk]; rfl, ht⟩
  split
  · next htype =>
    obtain ⟨t, f, nodes', kids', hfile, ht, hf⟩ :=
      memberFile_spec pick (cleanName (nameField (header archive off))) h
    obtain ⟨u, hfill, hu⟩ : ∃ u, fillFile pick archive t f off (memberSize archive off) = some u ∧
        FsInv u nodes' kids' := fillFile_spec ht hf (memberSize_lt archive off)
      fun hf0 hpos => hin ⟨hclean, htype, hpos, t, f, hfile, hf0⟩
    exact ⟨u, nodes', kids', by rw [loadFile_eq, hfile, Option.bind_some, hfill], hu⟩
  · exact ⟨s, nodes, kids, rfl, h⟩

/-- Data beyond the end of the archive are handed to `vfs_write` all the same. -/
theorem loadEntry_of_receives (hr : Receives pick archive off s)
    (hout : archive.length < off + 512 + memberSize archive off) :
    loadEntry pick archive s (cleanName (nameField (header archive off)))
      ((header archive off).getD 156 0) off (memberSize archive off) = none := by
  obtain ⟨hclean, htype, hpos, t, f, hfile, hf⟩ := hr
  have hnotdir : (header archive off).getD 156 0 ≠ 53 := by
    rcases htype with h | h <;> rw [h] <;> decide
  rw [loadEntry, if_neg hclean, if_neg hnotdir, if_pos htype, loadFile_eq, hfile,
    Option.bind_some, fillFile, if_pos ⟨hf, hpos⟩, if_neg (Nat.not_le.mpr hout)]

/-- A round at a header that lies in the archive. -/
theorem tarRound_eq (pick : Pick) (s : Fs) (hroom : off + 512 ≤ archive.length) :
    tarRound pick archive (off, s) =
      if (header archive off).headD 0 = 0 then some (.done s)
      else (loadEntry pick archive s (cleanName (nameField (header archive off)))
        ((header archive off).getD 156 0) off (memberSize archive off)).map
          fun s => .next (nextHeader archive off, s) := by
  have hadd : add64 off 512 ≤ archive.length := Nat.le_trans (Nat.mod_le _ _) hroom
  have hread : readHeader archive off = some (header archive off) := if_pos hroom
  change (if add64 off 512 ≤ archive.length then (readHeader archive off).bind _ else _) = _
  rw [if_pos hadd, hread]
  rfl

theorem tarRound_of_stops (pick : Pick) (s : Fs) (h : Stops archive off) :
    tarRound pick archive (off, s) = some (.done s) := by
  rcases h with hend | ⟨hroom, hzero⟩
  · exact if_neg (Nat.not_le.mpr hend)
  · rw [tarRound_eq pick s hroom, if_pos hzero]

/-- A round that stays in the archive ends at a stop or goes on to the next header. -/
theorem tarRound_of_inside (h : FsInv s nodes kids) (hin : Inside pick archive off s)
    (hgo : ¬ Stops archive off) :
    ∃ t nodes' kids', tarRound pick archive (off, s) = some (.next (nextHeader archive off, t)) ∧
      FsInv t nodes' kids' := by
  simp only [Stops, not_or, not_and] at hgo
  obtain ⟨hroom, hdata⟩ := hin.resolve_left hgo.1
  have hne := hgo.2 hroom
  obtain ⟨t, nodes', kids', hload, ht⟩ := loadEntry_of_inside h (hdata hne)
  refine ⟨t, nodes', kids', ?_, ht⟩
  rw [tarRound_eq pick s hroom, if_neg hne, hload, Option.map_some]

/-- A round that does not stay in the archive is undefined. -/
theorem tarRound_of_not_inside (hin : ¬ Inside pick archive off s) :
    tarRound pick archive (off, s) = none := by
  simp only [Inside, not_or, not_and, Nat.not_lt] at hin
  obtain ⟨hadd, hout⟩ := hin
  by_cases hroom : off + 512 ≤ archive.length
  · have hdata := hout hroom
    simp only [Classical.not_imp, Nat.not_le] at hdata
    obtain ⟨hne, hrec, hlt⟩ := hdata
    rw [tarRound_eq pick s hroom, if_neg hne, loadEntry_of_receives hrec hlt, Option.map_none]
  · -- the end of the header wraps
    have hread : readHeader archive off = none := if_neg hroom
    change (if add64 off 512 ≤ archive.length then (readHeader archive off).bind _ else _) = _
    rw [if_pos hadd, hread]
    rfl

/-- The headers follow one another as the archive says. -/
theorem goesOn_next {x y : Nat × Fs} (h : GoesOn (tarRound pick archive) x y)
    (hx : FsInv x.2 nodes kids) : y.1 = nextHeader archive x.1 ∧ ¬ Stops archive x.1 ∧
      ∃ nodes' kids', FsInv y.2 nodes' kids' := by
  obtain ⟨off, s⟩ := x
  have hgo : ¬ Stops archive off := by
    intro hstop
    rw [GoesOn, tarRound_of_stops pick s hstop] at h
    cases h
  have hin : Inside pick archive off s := by
    by_contra hout
    rw [GoesOn, tarRound_of_not_inside hout] at h
    cases h
  obtain ⟨t, nodes', kids', hnext, ht⟩ := tarRound_of_inside hx hin hgo
  rw [GoesOn, hnext] at h
  obtain rfl : (nextHeader archive off, t) = y := by simpa using h
  exact ⟨rfl, hgo, nodes', kids', ht⟩

end rounds

/-! ## The whole run -/

theorem ComesTo.header {pick : Pick} {archive : List UInt8} {s t : Fs} {off : Nat}
    {nodes : List Nat} {kids : Nat → List Nat} (h : FsInv s nodes kids)
    (hto : ComesTo pick archive s off t) : (∃ k, off = (nextHeader archive)^[k] 0) ∧
      ∃ nodes' kids', FsInv t nodes' kids' := by
  suffices hgen : ∀ x : Nat × Fs, Relation.ReflTransGen (GoesOn (tarRound pick archive)) (0, s) x →
      (∃ k, x.1 = (nextHeader archive)^[k] 0) ∧ ∃ nodes' kids', FsInv x.2 nodes' kids' by
    exact hgen _ hto
  intro x hx
  induction hx with
  | refl => exact ⟨⟨0, rfl⟩, nodes, kids, h⟩
  | tail _ hstep ih =>
    obtain ⟨⟨k, hk⟩, nodes', kids', hfs⟩ := ih
    obtain ⟨hoff, -, hnext⟩ := goesOn_next hstep hfs
    refine ⟨⟨k + 1, ?_⟩, hnext⟩
    rw [hoff, hk, Function.iterate_succ_apply']

/-- If the headers end after `n` more members and every round stays in the archive, the loop
    returns. -/
theorem loop_tarRound {pick : Pick} {archive : List UInt8} {n : Nat} :
    ∀ {off : Nat} {s : Fs} {nodes : List Nat} {kids : Nat → List Nat} (fuel : Nat),
      FsInv s nodes kids → Stops archive ((nextHeader archive)^[n] off) →
      (∀ x : Nat × Fs, Relation.ReflTransGen (GoesOn (tarRound pick archive)) (off, s) x →
        Inside pick archive x.1 x.2) →
      ∃ t, loop (tarRound pick archive) (n + 1 + fuel) (off, s) = some t := by
  induction n with
  | zero =>
    intro off s nodes kids fuel _ hstop _
    rw [Nat.add_comm]
    exact ⟨s, loop_of_done (tarRound_of_stops pick s hstop)⟩
  | succ n ih =>
    intro off s nodes kids fuel hs hstop hall
    rw [Nat.add_right_comm]
    by_cases hend : Stops archive off
    · exact ⟨s, loop_of_done (tarRound_of_stops pick s hend)⟩
    obtain ⟨t, nodes', kids', hnext, ht⟩ := tarRound_of_inside hs (hall _ .refl) hend
    rw [loop_of_next hnext]
    apply ih fuel ht
    · rwa [← Function.iterate_succ_apply]
    · exact fun x hx => hall x (.head hnext hx)

/-- `load_tar` ends and reads only the archive exactly if the headers end and every round reads only
    the archive. -/
theorem loadTar_inside_iff (pick : Pick) (archive : List UInt8) {s : Fs} (h : Reachable s) :
    (∃ t, loadTar pick s archive = some t) ↔
      HeadersEnd archive ∧ ∀ off t, ComesTo pick archive s off t → Inside pick archive off t := by
  obtain ⟨nodes, kids, hs⟩ := reachable_fsInv h
  constructor
  · rintro ⟨r, hr⟩
    obtain ⟨hall, ⟨off, t⟩, hto, hdone⟩ := loop_states hr
    refine ⟨?_, fun off t hto => ?_⟩
    · obtain ⟨⟨k, rfl⟩, nodes', kids', ht⟩ := ComesTo.header hs hto
      refine ⟨k, ?_⟩
      by_contra hgo
      have hin : Inside pick archive ((nextHeader archive)^[k] 0) t := by
        by_contra hout
        exact hall _ hto (tarRound_of_not_inside hout)
      obtain ⟨u, -, -, hnext, -⟩ := tarRound_of_inside ht hin hgo
      rw [hnext] at hdone
      cases hdone
    · by_contra hout
      exact hall _ hto (tarRound_of_not_inside hout)
  · rintro ⟨hend, hall⟩
    classical
    -- the first stop comes within as many headers as there are addresses
    have hlt : Nat.find hend < addrSpace := by
      apply walk_lt (Nat.find_spec hend) fun k hk => Nat.find_min hend hk
      intro k
      cases k with
      | zero => exact addrSpace_pos
      | succ k =>
        rw [Function.iterate_succ_apply']
        exact add64_lt _ _
    obtain ⟨fuel, hfuel⟩ := Nat.exists_eq_add_of_lt hlt
    rw [loadTar, hfuel, Nat.add_right_comm]
    exact loop_tarRound fuel hs (Nat.find_spec hend) fun x hx => hall x.1 x.2 hx

theorem loadTar_inside_iff_boot : HeadersEnd tinyArchive ∧
    ∀ off t, ComesTo pickNext tinyArchive bootFs off t → Inside pickNext tinyArchive off t := by
  have hsome : (loadTar pickNext bootFs tinyArchive).isSome = true := by decide +kernel
  apply (loadTar_inside_iff pickNext tinyArchive (.init start_bootFs)).mp
  exact Option.isSome_iff_exists.mp hsome

/-- An archive that was cut off behind the header of a file with one byte. -/
theorem not_loadTar_inside : ¬ ∃ t, loadTar pickNext bootFs tinyHeader = some t := by
  have hnone : loadTar pickNext bootFs tinyHeader = none := by decide +kernel
  rintro ⟨t, ht⟩
  rw [hnone] at ht
  cases ht

end ChocoOs.Initrd
