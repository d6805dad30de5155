import ChocoOs.Shell.Commands

/-!
# The text that `write` leaves in a file

`cmd_write` appends its words piece by piece and ignores whether `vfs_write` had memory. A piece
that is refused leaves a hole: its first byte is missing from the file for good.
-/

namespace ChocoOs.Shell
open ProgLib ChocoOs.Vfs

/-- The pieces that the loop of `cmd_write` appends, each with its number. -/
def wordPieces : Nat → List CStr → List (Nat × CStr)
  | _, [] => []
  | i, w :: ws =>
    (if 2 < i then [(2 * i, [space])] else []) ++ (2 * i + 1, w) :: wordPieces (i + 1) ws

/-- Append the pieces in order. -/
def appendAll (picks : Nat → Pick) (f : Nat) (x : Fs × Nat) (ps : List (Nat × CStr)) :
    Option (Fs × Nat) :=
  ps.foldlM (fun x p => appendPiece (picks p.1) f x p.2) x

/-- The heap grants every buffer that appending the pieces calls for, where the file has `cap`
    bytes at `data` and `off` bytes are written. -/
def Granted (picks : Nat → Pick) : Arena → Nat → Nat → Nat → List (Nat × CStr) → Prop
  | _, _, _, _, [] => True
  | heap, data, cap, off, p :: ps =>
    match growBuffer (picks p.1) heap data cap (off + p.2.length) with
    | none => False
    | some (heap, data, cap) => Granted picks heap data cap (off + p.2.length) ps

theorem writeWords_eq (picks : Nat → Pick) (f : Nat) (ws : List CStr) :
    ∀ (i : Nat) (x : Fs × Nat),
      writeWords picks f i x ws = appendAll picks f x (wordPieces i ws) := by
  induction ws with
  | nil => intro i x; rfl
  | cons w ws ih =>
    intro i x
    have hword : ∀ y, ((appendPiece (picks (2 * i + 1)) f y w).bind fun z =>
        writeWords picks f (i + 1) z ws) =
        appendAll picks f y ((2 * i + 1, w) :: wordPieces (i + 1) ws) := by
      intro y
      rw [appendAll, List.foldlM_cons]
      exact congrArg _ (funext fun z => ih _ _)
    unfold writeWords wordPieces
    by_cases hi : 2 < i
    · rw [if_pos hi, if_pos hi, List.singleton_append, appendAll, List.foldlM_cons]
      exact congrArg _ (funext hword)
    · rw [if_neg hi, if_neg hi, List.nil_append]
      exact hword x

/-! ## Appending -/

/-- Appending one piece: it is refused and lost, or written at `off`. -/
theorem appendPiece_cases (pick : Pick) (b : CStr) (off : Nat) {s : Fs} {nodes : List Nat}
    {kids : Nat → List Nat} {f : Nat} (h : FsInv s nodes kids) (hf : f ∈ nodes)
    (hdir : (s.node f).isDir = false) (hr : (s.node f).readonly = false)
    (hend : off + b.length ≤ 2 ^ 62) :
    match growBuffer pick s.heap (s.node f).data (s.node f).cap (off + b.length) with
    | none => appendPiece pick f (s, off) b = some (s, off + b.length)
    | some (heap, data, cap) => ∃ t, appendPiece pick f (s, off) b = some (t, off + b.length) ∧
        SameTree s t nodes kids ∧ contents t f = overwrite (contents s f) off b ∧
        t.heap = heap ∧ (t.node f).data = data ∧ (t.node f).cap = cap := by
  have hbytes : ((List.range b.length).map fun i => b.getD i 0) = b := by
    refine List.ext_getElem (by simp) fun i h₁ h₂ => ?_
    simp [List.getD_eq_getElem?_getD, h₂]
  have hwrite := h.vfsWrite_eq pick (fun i => b.getD i 0) hf hdir hr hend
  cases hg : growBuffer pick s.heap (s.node f).data (s.node f).cap (off + b.length) with
  | none =>
    simp only [hg] at hwrite
    simp only [appendPiece, hwrite]
    rfl
  | some r =>
    obtain ⟨heap, data, cap⟩ := r
    simp only [hg] at hwrite
    obtain ⟨t, heq, ht, hw⟩ := hwrite
    have hfile : t.node f = { s.node f with
        data := data, cap := cap, size := max (s.node f).size (off + b.length) } := by
      rw [hw.node, Function.update_self]
    refine ⟨t, ?_, .of_update ht hw.rootNode hw.node ⟨rfl, rfl, rfl, rfl, rfl⟩ rfl, ?_, hw.heap,
      by rw [hfile], by rw [hfile]⟩
    · simp only [appendPiece, heq]
      rfl
    · rw [hw.contents_eq, hbytes]

theorem getD_overwrite_of_lt {l b : List UInt8} {off i : Nat} (hi : i < off) :
    (overwrite l off b).getD i 0 = l.getD i 0 := by
  have hlt : i < max l.length (off + b.length) := by omega
  rw [List.getD_eq_getElem?_getD, List.getElem?_eq_getElem (by rwa [length_overwrite]),
    Option.getD_some]
  simp only [overwrite, List.getElem_map, List.getElem_range]
  rw [if_neg (by omega)]

/-- A byte in front of `off` is never written again. -/
theorem appendAll_hole (picks : Nat → Pick) {nodes : List Nat} {kids : Nat → List Nat} {f i : Nat}
    (hf : f ∈ nodes) (ps : List (Nat × CStr)) :
    ∀ (s : Fs) (off : Nat), FsInv s nodes kids → (s.node f).isDir = false →
      (s.node f).readonly = false → off + (ps.map fun p => p.2.length).sum ≤ 2 ^ 62 → i < off →
      ∃ t n, appendAll picks f (s, off) ps = some (t, n) ∧ SameTree s t nodes kids ∧
        (contents t f).getD i 0 = (contents s f).getD i 0 := by
  induction ps with
  | nil => exact fun s off h _ _ _ _ => ⟨s, off, rfl, .refl h, rfl⟩
  | cons p ps ih =>
    intro s off h hdir hr hend hi
    rw [List.map_cons, List.sum_cons] at hend
    have hpiece := appendPiece_cases (picks p.1) p.2 off h hf hdir hr (by omega)
    have hcons : ∀ t, appendPiece (picks p.1) f (s, off) p.2 = some (t, off + p.2.length) →
        appendAll picks f (s, off) (p :: ps) = appendAll picks f (t, off + p.2.length) ps := by
      intro t ht
      rw [appendAll, List.foldlM_cons, ht]
      rfl
    cases hg : growBuffer (picks p.1) s.heap (s.node f).data (s.node f).cap
        (off + p.2.length) with
    | none =>
      simp only [hg] at hpiece
      rw [hcons s hpiece]
      exact ih s _ h hdir hr (by omega) (by omega)
    | some r =>
      simp only [hg] at hpiece
      obtain ⟨t, heq, ht, hc, -⟩ := hpiece
      obtain ⟨u, n, hu, htu, hcu⟩ := ih t (off + p.2.length) ht.inv ((ht.links f).2.1.trans hdir)
        ((ht.readonly f).trans hr) (by omega) (by omega)
      refine ⟨u, n, (hcons t heq).trans hu, ht.trans htu, ?_⟩
      rw [hcu, hc, getD_overwrite_of_lt hi]

/-- Appending pieces to the end of a file: the file gets all their bytes if and only if the heap
    grants every buffer. -/
theorem appendAll_spec (picks : Nat → Pick) {nodes : List Nat} {kids : Nat → List Nat} {f : Nat}
    (hf : f ∈ nodes) (ps : List (Nat × CStr)) :
    ∀ (s : Fs), FsInv s nodes kids → (s.node f).isDir = false → (s.node f).readonly = false →
      (s.node f).size + (ps.map fun p => p.2.length).sum ≤ 2 ^ 62 →
      (∀ p ∈ ps, p.2 ≠ [] ∧ 0 ∉ p.2) →
      ∃ t n, appendAll picks f (s, (s.node f).size) ps = some (t, n) ∧ SameTree s t nodes kids ∧
        (contents t f = contents s f ++ ps.flatMap Prod.snd ↔
          Granted picks s.heap (s.node f).data (s.node f).cap (s.node f).size ps) := by
  induction ps with
  | nil =>
    intro s h _ _ _ _
    exact ⟨s, _, rfl, .refl h, by simp [Granted]⟩
  | cons p ps ih =>
    intro s h hdir hr hend hps
    rw [List.map_cons, List.sum_cons] at hend
    obtain ⟨hne, h0⟩ := hps p (by simp)
    have hpiece := appendPiece_cases (picks p.1) p.2 (s.node f).size h hf hdir hr (by omega)
    have hcons : ∀ t, appendPiece (picks p.1) f (s, (s.node f).size) p.2 =
        some (t, (s.node f).size + p.2.length) → appendAll picks f (s, (s.node f).size) (p :: ps) =
          appendAll picks f (t, (s.node f).size + p.2.length) ps := by
      intro t ht
      rw [appendAll, List.foldlM_cons, ht]
      rfl
    cases hg : growBuffer (picks p.1) s.heap (s.node f).data (s.node f).cap
        ((s.node f).size + p.2.length) with
    | none =>
      simp only [hg] at hpiece
      have hpos := List.length_pos_of_ne_nil hne
      obtain ⟨t, n, heq, ht, hhole⟩ := appendAll_hole picks (i := (s.node f).size) hf ps s
        ((s.node f).size + p.2.length) h hdir hr (by omega) (by omega)
      refine ⟨t, n, (hcons s hpiece).trans heq, ht, ?_⟩
      rw [Granted, hg]
      refine iff_of_false (fun hall => ?_) id
      -- the first byte of the refused piece is missing
      rw [hall, List.flatMap_cons] at hhole
      obtain ⟨a, b, hab⟩ := List.exists_cons_of_ne_nil hne
      have hlen := length_contents s f
      simp only [List.getD_eq_getElem?_getD, ← hlen, hab, List.cons_append,
        List.getElem?_append_right (Nat.le_refl _), Nat.sub_self, List.getElem?_cons_zero,
        List.getElem?_length, Option.getD_some, Option.getD_none] at hhole
      exact h0 (by rw [hab, hhole]; simp)
    | some r =>
      obtain ⟨heap, data, cap⟩ := r
      simp only [hg] at hpiece
      obtain ⟨t, heq, ht, hc, hheap, hdata, hcap⟩ := hpiece
      have hcontents : contents t f = contents s f ++ p.2 := by
        rw [hc, ← length_contents, overwrite_length]
      have hsize : (t.node f).size = (s.node f).size + p.2.length := by
        rw [← length_contents t f, hcontents, List.length_append, length_contents]
      obtain ⟨u, n, hu, htu, hiff⟩ := ih t ht.inv ((ht.links f).2.1.trans hdir)
        ((ht.readonly f).trans hr) (by omega) fun q hq => hps q (by simp [hq])
      rw [hsize] at hu
      refine ⟨u, n, (hcons t heq).trans hu, ht.trans htu, ?_⟩
      rw [Granted, hg, List.flatMap_cons, ← List.append_assoc, ← hcontents, hiff, hheap, hdata,
        hcap, hsize]

/-! ## The command -/

/-- The words joined by single spaces, and a newline. -/
def joined (words : List CStr) : CStr := List.intercalate [space] words ++ [newline]

/-- All the pieces of `cmd_write`, for `argc` arguments. -/
def textPieces (argc : Nat) (words : List CStr) : List (Nat × CStr) :=
  wordPieces 2 words ++ [(2 * argc, [newline])]

theorem flatMap_wordPieces (ws : List CStr) : ∀ i, 2 < i →
    (wordPieces i ws).flatMap Prod.snd = ws.flatMap fun w => space :: w := by
  induction ws with
  | nil => intro i _; rfl
  | cons w ws ih =>
    intro i hi
    rw [wordPieces, if_pos hi, List.singleton_append, List.flatMap_cons, List.flatMap_cons,
      List.flatMap_cons, ih (i + 1) (by omega)]
    rfl

theorem flatMap_textPieces (argc : Nat) (words : List CStr) :
    (textPieces argc words).flatMap Prod.snd = joined words := by
  have hwords : ∀ ws : List CStr,
      (wordPieces 2 ws).flatMap Prod.snd = List.intercalate [space] ws := by
    intro ws
    cases ws with
    | nil => rfl
    | cons w ws =>
      rw [wordPieces, if_neg (Nat.lt_irrefl 2), List.nil_append, List.flatMap_cons,
        flatMap_wordPieces ws 3 (by decide)]
      induction ws generalizing w with
      | nil => simp [List.intercalate]
      | cons v ws ih =>
        rw [List.flatMap_cons, List.intercalate_cons_cons, ← ih v]
        simp
  rw [textPieces, List.flatMap_append, hwords, joined]
  rfl

theorem mem_wordPieces {ws : List CStr} {p : Nat × CStr} :
    ∀ {i}, p ∈ wordPieces i ws → p.2 = [space] ∨ p.2 ∈ ws := by
  induction ws with
  | nil => intro i h; cases h
  | cons w ws ih =>
    intro i h
    rw [wordPieces] at h
    rcases List.mem_append.mp h with h | h
    · split at h
      · rw [List.mem_singleton.mp h]; exact .inl rfl
      · cases h
    · rcases List.mem_cons.mp h with rfl | h
      · exact .inr (by simp)
      · exact (ih h).imp id fun hw => by simp [hw]

/-- From the truncation on: the file ends up with the whole text if and only if the heap grants
    every buffer, and the tree stays as it is. -/
theorem cmdWrite_tail (picks : Nat → Pick) {s : Fs} {nodes : List Nat} {kids : Nat → List Nat}
    {f : Nat} {words : List CStr} (argc : Nat) (h : FsInv s nodes kids) (hf : f ∈ nodes)
    (hdir : (s.node f).isDir = false) (hr : (s.node f).readonly = false)
    (hwords : ∀ w ∈ words, w ≠ [] ∧ 0 ∉ w) (hlen : (joined words).length ≤ 2 ^ 62) :
    ∃ t x u n, vfsTruncate (picks 1) s f 0 = some (t, 0) ∧
      writeWords picks f 2 (t, 0) words = some x ∧
      appendPiece (picks (2 * argc)) f x [newline] = some (u, n) ∧ SameTree s u nodes kids ∧
      (contents u f = joined words ↔
        Granted picks s.heap (s.node f).data (s.node f).cap 0 (textPieces argc words)) := by
  obtain ⟨t, htrunc, ht, rfl⟩ := h.vfsTruncate_zero (picks 1) hf hdir hr
  set t : Fs := { s with node := Function.update s.node f { s.node f with size := 0 } } with hteq
  have hnode : t.node f = { s.node f with size := 0 } := Function.update_self ..
  have htree : SameTree s t nodes kids :=
    .of_update ht rfl rfl ⟨rfl, rfl, rfl, rfl, rfl⟩ rfl
  have hsum : ((textPieces argc words).map fun p => p.2.length).sum = (joined words).length := by
    rw [← flatMap_textPieces argc, List.length_flatMap]
  have hpieces : ∀ p ∈ textPieces argc words, p.2 ≠ [] ∧ 0 ∉ p.2 := by
    intro p hp
    rcases List.mem_append.mp hp with hp | hp
    · rcases mem_wordPieces hp with hsp | hw
      · rw [hsp]; decide
      · exact hwords _ hw
    · rw [List.mem_singleton.mp hp]
      exact (by decide : [newline] ≠ [] ∧ 0 ∉ [newline])
  obtain ⟨u, n, happend, hu, hiff⟩ := appendAll_spec picks hf (textPieces argc words) t ht
    (by rw [hnode]; exact hdir) (by rw [hnode]; exact hr) (by rw [hnode, hsum]; simpa using hlen)
    hpieces
  have hempty : contents t f = [] := by
    rw [contents, hnode]
    rfl
  rw [hempty, List.nil_append, flatMap_textPieces, hnode] at hiff
  rw [hnode, appendAll, textPieces, List.foldlM_append] at happend
  obtain ⟨x, hx, hlast⟩ := Option.bind_eq_some_iff.mp happend
  refine ⟨t, x, u, n, htrunc, ?_, ?_, htree.trans hu, hiff⟩
  · rw [writeWords_eq]
    exact hx
  · rw [List.foldlM_cons] at hlast
    obtain ⟨y, hy, hlast⟩ := Option.bind_eq_some_iff.mp hlast
    cases hlast
    exact hy

end ChocoOs.Shell
