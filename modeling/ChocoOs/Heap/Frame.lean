import ChocoOs.Heap.Run

/-!
# What the calls write

The calls write block headers only, and `free` sets free flags only. The header of a block that has
been merged away stays behind in memory as it was.
-/

namespace ChocoOs.Heap
open ProgLib

/-- Only the headers at the places `P` are rewritten. -/
def Frames (P : Nat → Prop) (m m' : Mem) : Prop :=
  ∀ x, (∀ b, P b → x < b ∨ b + hdrSize ≤ x) → m' x = m x

/-- No header, at one of the places or apart from them, loses its free flag. -/
def KeepsFree (P : Nat → Prop) (m m' : Mem) : Prop :=
  ∀ c, (∀ b, P b → c = b ∨ Apart c b) → blockFree m c = true → blockFree m' c = true

/-- Headers are rewritten, and stay free. -/
structure Rewrites (P : Nat → Prop) (m m' : Mem) : Prop where
  frame : Frames P m m'
  keeps : KeepsFree P m m'

section rewrites

variable {P Q : Nat → Prop} {m m' m'' : Mem}

theorem Frames.trans (h : Frames P m m') (h' : Frames P m' m'') : Frames P m m'' :=
  fun x hx => (h' x hx).trans (h x hx)

theorem Frames.mono (h : Frames P m m') (hPQ : ∀ b, P b → Q b) : Frames Q m m' :=
  fun x hx => h x fun b hb => hx b (hPQ b hb)

theorem Frames.of_sameOutside {b : Nat} (h : SameOutside m m' b (b + hdrSize)) (hb : P b) :
    Frames P m m' := fun x hx => h x (hx b hb)

theorem Rewrites.refl : Rewrites P m m := ⟨fun _ _ => rfl, fun _ _ h => h⟩

theorem Rewrites.trans (h : Rewrites P m m') (h' : Rewrites P m' m'') : Rewrites P m m'' :=
  ⟨h.frame.trans h'.frame, fun c hc hfree => h'.keeps c hc (h.keeps c hc hfree)⟩

theorem Rewrites.mono (h : Rewrites P m m') (hPQ : ∀ b, P b → Q b) : Rewrites Q m m' :=
  ⟨h.frame.mono hPQ, fun c hc => h.keeps c fun b hb => hc b (hPQ b hb)⟩

/-- A field other than the flag. -/
theorem rewrites_field {b : Nat} (hb : P b) (hframe : SameOutside m m' b (b + hdrSize))
    (hflag : m' (b + 8) = m (b + 8)) : Rewrites P m m' := by
  refine ⟨.of_sameOutside hframe hb, fun c hc hfree => ?_⟩
  rw [← hfree, blockFree, blockFree]
  rcases hc b hb with rfl | hapart
  · rw [hflag]
  · unfold Apart hdrSize at hapart
    rw [hframe (c + 8) (by unfold hdrSize; omega)]

theorem rewrites_setSize {b : Nat} (v : Nat) (hb : P b) : Rewrites P m (setSize m b v) :=
  rewrites_field hb (sameOutside_setSize m b v)
    (sameOutside_storeLE m b 8 v (b + 8) (.inr (Nat.le_refl _)))

theorem rewrites_setNext {b : Nat} (v : Nat) (hb : P b) : Rewrites P m (setNext m b v) :=
  rewrites_field hb (sameOutside_setNext m b v)
    (sameOutside_storeLE m (b + 16) 8 v (b + 8) (.inl (by omega)))

theorem rewrites_setPrev {b : Nat} (v : Nat) (hb : P b) : Rewrites P m (setPrev m b v) :=
  rewrites_field hb (sameOutside_setPrev m b v)
    (sameOutside_storeLE m (b + 24) 8 v (b + 8) (.inl (by omega)))

theorem rewrites_setFree {b : Nat} (hb : P b) : Rewrites P m (setFree m b true) := by
  refine ⟨.of_sameOutside (sameOutside_setFree m b true) hb, fun c hc hfree => ?_⟩
  rcases hc b hb with rfl | hapart
  · rw [blockFree_eq, header_setFree]
  · rw [blockFree_eq, header_setFree_ne hapart]
    exact hfree

end rewrites

/-- The place of a listed block. -/
def Listed (ss : List Seg) (b : Nat) : Prop := ∃ t ∈ ss, t.addr = b

/-! ## Release -/

section release

variable {m : Mem} {base total : Nat} {pre post : List Seg} {s : Seg}

theorem rewrites_coalesce (h : Holds m (pre ++ s :: post)) (hsh : Shape base total (pre ++ s :: post)) :
    Rewrites (Listed (pre ++ s :: post)) m (coalesceWithNext m s.addr) := by
  have hs := h.header_eq
  by_cases hcond : blockNext m s.addr ≠ 0 ∧ blockFree m (blockNext m s.addr) = true ∧
      blockFree m s.addr = true
  · cases post with
    | nil =>
      rw [blockNext_eq, hs] at hcond
      exact absurd rfl hcond.1
    | cons n post =>
      have hself : Listed (pre ++ s :: n :: post) s.addr := ⟨s, by simp, rfl⟩
      have hnext : blockNext m s.addr = n.addr := by
        rw [blockNext_eq, hs]
        rfl
      have hn : blockNext m n.addr = (post.map Seg.addr).headD 0 := by
        have h' : Holds m ((pre ++ [s]) ++ n :: post) := by simpa using h
        rw [blockNext_eq, h'.header_eq]
      have hapart : Apart n.addr s.addr := by
        have := hsh.around.2.2.2 n (List.mem_cons_self ..)
        exact .inr (by omega)
      rw [hnext] at hcond
      simp only [coalesceWithNext, hnext]
      rw [if_pos hcond]
      generalize add64 (blockSize m s.addr) (add64 hdrSize (blockSize m n.addr)) = v
      have hread : ∀ w, blockNext (setNext (setSize m s.addr v) s.addr w) n.addr =
          blockNext m n.addr := fun w => by
        rw [blockNext_eq, header_setNext_ne hapart, header_setSize_ne hapart, blockNext_eq]
      have hstep : ∀ w, Rewrites (Listed (pre ++ s :: n :: post)) m
          (setNext (setSize m s.addr v) s.addr w) := fun w =>
        (rewrites_setSize v hself).trans (rewrites_setNext w hself)
      have hread' : blockNext (setSize m s.addr v) n.addr = blockNext m n.addr := by
        rw [blockNext_eq, header_setSize_ne hapart, blockNext_eq]
      rw [hread', hread, hn]
      by_cases h0 : (post.map Seg.addr).headD 0 = 0
      · rw [if_neg (not_not_intro h0)]
        exact hstep _
      · rw [if_pos h0]
        refine (hstep _).trans (rewrites_setPrev _ ?_)
        cases post with
        | nil => exact absurd rfl h0
        | cons q post => exact ⟨q, by simp, rfl⟩
  · rw [coalesce_eq_self hcond]
    exact .refl

theorem free_mem {h : Heap} (hinv : Inv base total h (pre ++ s :: post)) (hused : s.free = false) :
    (free h s.payload).mem = releaseBlock h.mem s.addr := by
  have hsub := hinv.shape.sub64_payload (s := s) (by simp)
  rw [free_eq (Shape.payload_ne_zero s (by simp) hinv.shape) hsub
    (by rw [(hinv.holds.fields s (by simp)).2, hused])]

theorem listed_mergeNext {ss : List Seg} {b : Nat} (h : Listed (mergeNext ss) b) : Listed ss b := by
  match ss with
  | [] => exact h
  | [_] => exact h
  | s :: n :: ss =>
    rw [mergeNext] at h
    split at h
    · obtain ⟨t, ht, hb⟩ := h
      rcases List.mem_cons.mp ht with rfl | ht
      · exact ⟨s, List.mem_cons_self .., hb⟩
      · exact ⟨t, List.mem_cons_of_mem _ (List.mem_cons_of_mem _ ht), hb⟩
    · exact h

theorem listed_append {xs ys : List Seg} {b : Nat} :
    Listed (xs ++ ys) b ↔ Listed xs b ∨ Listed ys b := by
  simp only [Listed, List.mem_append, or_and_right, exists_or]

/-- Headers in the list coincide or do not overlap. -/
theorem Shape.listed_apart {ss : List Seg} (hsh : Shape base total ss) {c b : Nat} (hc : Listed ss c)
    (hb : Listed ss b) : c = b ∨ Apart c b := by
  obtain ⟨t, ht, rfl⟩ := hc
  obtain ⟨u, hu, rfl⟩ := hb
  obtain ⟨pre, post, rfl⟩ := List.append_of_mem ht
  obtain ⟨-, -, hpre, hpost⟩ := hsh.around
  rw [List.mem_append, List.mem_cons] at hu
  rcases hu with hu | rfl | hu
  · have := hpre u hu
    exact .inr (.inr (by omega))
  · exact .inl rfl
  · have := hpost u hu
    exact .inr (.inl (by omega))

/-- Releasing a block rewrites headers, and leaves the block's own header free. -/
theorem rewrites_releaseBlock (h : Holds m (pre ++ s :: post))
    (hsh : Shape base total (pre ++ s :: post)) :
    Rewrites (Listed (pre ++ s :: post)) m (releaseBlock m s.addr) ∧
      blockFree (releaseBlock m s.addr) s.addr = true := by
  have hself : Listed (pre ++ s :: post) s.addr := ⟨s, by simp, rfl⟩
  have hset := holds_setFree (v := true) h hsh
  have hshape := hsh.setFree true
  have hcoal := holds_coalesce hset hshape
  have hmerged := hshape.mergeNext
  have hsame : ∀ b, Listed (pre ++ { s with free := true } :: post) b →
      Listed (pre ++ s :: post) b := by
    rintro b ⟨t, ht, rfl⟩
    rw [List.mem_append, List.mem_cons] at ht
    rcases ht with ht | rfl | ht
    · exact ⟨t, by simp [ht], rfl⟩
    · exact hself
    · exact ⟨t, by simp [ht], rfl⟩
  have hfirst : Rewrites (Listed (pre ++ s :: post)) (setFree m s.addr true)
      (coalesceWithNext (setFree m s.addr true) s.addr) := (rewrites_coalesce hset hshape).mono hsame
  have hlist : ∀ b, Listed (pre ++ mergeNext ({ s with free := true } :: post)) b →
      Listed (pre ++ s :: post) b := fun b hb => hsame b (by
    rw [listed_append] at hb ⊢
    exact hb.imp_right listed_mergeNext)
  have hlast : Rewrites (Listed (pre ++ s :: post)) (setFree m s.addr true)
      (releaseBlock m s.addr) := by
    unfold releaseBlock
    simp only
    set m₂ := coalesceWithNext (setFree m s.addr true) s.addr
    by_cases hcond : blockPrev m₂ s.addr ≠ 0 ∧ blockFree m₂ (blockPrev m₂ s.addr) = true
    · rw [if_pos hcond]
      obtain ⟨s', rest, hs', haddr⟩ := mergeNext_head { s with free := true } post
      rw [hs'] at hcoal hmerged hlist
      have hprev : blockPrev m₂ s.addr = (pre.map Seg.addr).getLastD 0 := by
        rw [← show s'.addr = s.addr from haddr, blockPrev_eq, hcoal.header_eq]
      rcases List.eq_nil_or_concat pre with rfl | ⟨pre, q, rfl⟩
      · rw [hprev] at hcond
        exact absurd rfl hcond.1
      · rw [List.concat_eq_append] at *
        have hprevq : blockPrev m₂ s.addr = q.addr := by rw [hprev]; simp
        rw [List.append_assoc, List.singleton_append] at hcoal hmerged hlist
        rw [hprevq]
        exact hfirst.trans ((rewrites_coalesce hcoal hmerged).mono hlist)
    · rw [if_neg hcond]
      exact hfirst
  refine ⟨(rewrites_setFree hself).trans hlast, ?_⟩
  refine hlast.keeps s.addr (fun b hb => hsh.listed_apart hself hb) ?_
  rw [blockFree_eq, header_setFree]

end release

/-! ## Allocation -/

section take

variable {m : Mem} {base total size : Nat} {pre post : List Seg} {s : Seg}

/-- A split writes the block's own bytes and the header behind it. -/
theorem frame_splitBlock (h : Holds m (pre ++ s :: post)) (hsh : Shape base total (pre ++ s :: post))
    (hfit : size + hdrSize + alignment ≤ s.size) {x : Nat}
    (hheaders : ∀ b, Listed (pre ++ s :: post) b → x < b ∨ b + hdrSize ≤ x)
    (hself : x < s.addr ∨ s.addr + s.extent ≤ x) : splitBlock m s.addr size x = m x := by
  have hh : hdrSize = 32 := rfl
  have hs := h.header_eq
  obtain ⟨-, hend, -, hpost⟩ := hsh.around
  have hfits := hsh.fits
  have hsplit : add64 (add64 s.addr hdrSize) size = s.addr + hdrSize + size := by
    rw [add64_of_lt (a := s.addr) (by omega), add64_of_lt (by omega)]
  unfold splitBlock
  simp only [hsplit]
  set a := s.addr + hdrSize + size with ha
  have hextent : s.extent = hdrSize + s.size := rfl
  have hxs : x < s.addr ∨ s.addr + hdrSize ≤ x := hheaders _ ⟨s, by simp, rfl⟩
  have hxa : x < a ∨ a + hdrSize ≤ x := by omega
  generalize sub64 (sub64 (blockSize m s.addr) size) hdrSize = v
  have hnext : ∀ m', header m' s.addr = header m s.addr →
      blockNext m' s.addr = (post.map Seg.addr).headD 0 := fun m' hm' => by
    rw [blockNext_eq, hm', hs]
  have hapart : Apart s.addr a := .inl (by omega)
  have h1 : header (setFree (setSize m a v) a true) s.addr = header m s.addr := by
    rw [header_setFree_ne hapart, header_setSize_ne hapart]
  have h2 : header (setPrev (setNext (setFree (setSize m a v) a true) a
      ((post.map Seg.addr).headD 0)) a s.addr) s.addr = header m s.addr := by
    rw [header_setPrev_ne hapart, header_setNext_ne hapart, h1]
  rw [hnext _ h1, hnext _ h2]
  set m₂ := setPrev (setNext (setFree (setSize m a v) a true) a ((post.map Seg.addr).headD 0)) a s.addr
    with hm₂
  have hm₂x : m₂ x = m x := by
    rw [hm₂, sameOutside_setPrev _ _ _ x hxa, sameOutside_setNext _ _ _ x hxa,
      sameOutside_setFree _ _ _ x hxa, sameOutside_setSize _ _ _ x hxa]
  rw [sameOutside_setSize _ _ _ x hxs, sameOutside_setNext _ _ _ x hxs]
  by_cases h0 : (post.map Seg.addr).headD 0 = 0
  · rw [if_neg (not_not_intro h0)]
    exact hm₂x
  · rw [if_pos h0]
    cases post with
    | nil => exact absurd rfl h0
    | cons q post =>
      rw [List.map_cons, List.headD_cons, sameOutside_setPrev _ _ _ x (hheaders _ ⟨q, by simp, rfl⟩)]
      exact hm₂x

/-- A byte of a payload lies in no header. -/
theorem Shape.payload_apart {ss : List Seg} (hsh : Shape base total ss) {t : Seg} (ht : t ∈ ss)
    {x : Nat} (hlo : t.payload ≤ x) (hhi : x < t.payload + t.size) {b : Nat} (hb : Listed ss b) :
    x < b ∨ b + hdrSize ≤ x := by
  have hh : hdrSize = 32 := rfl
  have hpay : t.payload = t.addr + hdrSize := rfl
  obtain ⟨u, hu, rfl⟩ := hb
  by_contra hx
  have hboth := hsh.tiles.mem_unique (a := x) ht hu (by simp only [Seg.extent]; omega)
    (by simp only [Seg.extent]; omega)
  have : u.addr = t.addr := by rw [hboth]
  omega

/-- `malloc` writes headers, and the bytes of the free block that it takes. -/
theorem malloc_frame {h h' : Heap} {ss : List Seg} {p n : Nat} (hinv : Inv base total h ss)
    (hm : malloc h n = some (h', p)) {t : Seg} (ht : t ∈ ss) (hused : t.free = false) {x : Nat}
    (hlo : t.payload ≤ x) (hhi : x < t.payload + t.size) : h'.mem x = h.mem x := by
  have hh : hdrSize = 32 := rfl
  have hpay : t.payload = t.addr + hdrSize := rfl
  rw [malloc] at hm
  by_cases hn : n = 0 ∨ h.heapHead = 0
  · rw [if_pos hn] at hm
    cases hm
    rfl
  · rw [if_neg hn, hinv.head_eq,
      loop_mallocRound (roundUp n) hinv.holds hinv.shape.addr_pos hinv.shape.length_lt] at hm
    cases hfind : ss.find? (fitsIn (roundUp n)) with
    | none =>
      rw [hfind] at hm
      cases hm
      rfl
    | some s =>
      rw [hfind] at hm
      cases hm
      have hfits := List.find?_some hfind
      rw [fitsIn, Bool.and_eq_true, decide_eq_true_eq] at hfits
      obtain ⟨pre, post, rfl⟩ := List.append_of_mem (List.mem_of_find?_eq_some hfind)
      -- the byte lies in no header, and not in the block that is taken
      have hheaders : ∀ b, Listed (pre ++ s :: post) b → x < b ∨ b + hdrSize ≤ x :=
        fun b hb => hinv.shape.payload_apart ht hlo hhi hb
      have hself : x < s.addr ∨ s.addr + s.extent ≤ x := by
        by_contra hx
        have hboth := hinv.shape.tiles.mem_unique (a := x) ht (by simp)
          (by simp only [Seg.extent]; omega) (show s.addr ≤ x ∧ x < s.addr + s.extent by omega)
        rw [hboth, hfits.1] at hused
        cases hused
      show setFree (if _ then _ else _) s.addr false x = h.mem x
      rw [sameOutside_setFree _ _ _ x (hheaders _ ⟨s, by simp, rfl⟩)]
      split
      · next hsplit =>
        exact frame_splitBlock hinv.holds hinv.shape
          ((split_iff hinv hfits.2 (roundUp_mod n)).mp hsplit) hheaders hself
      · rfl

end take

end ChocoOs.Heap
