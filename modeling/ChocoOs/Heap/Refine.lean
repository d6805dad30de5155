import ChocoOs.Heap.Headers
import ChocoOs.Heap.Segments
import ChocoOs.Lib.Linked
import Mathlib.Data.Option.Basic

/-!
# The pointer code refines first fit

`Holds m ss` relates memory to the abstract segment list: the headers form a doubly linked
list through the segments in order, and each stores its segment's size and flag. The pointer
operations, run on a memory that holds a tiling, leave a memory that holds what the abstract
operation computes.
-/

namespace ChocoOs.Heap
open ProgLib

/-- The headers in `m` are those of the segments `ss`. -/
structure Holds (m : Mem) (ss : List Seg) : Prop where
  links : DLinked (blockNext m) (blockPrev m) 0 (ss.map Seg.addr) 0
  fields : ∀ s ∈ ss, blockSize m s.addr = s.size ∧ blockFree m s.addr = s.free

/-- The segments tile the region `[base, base + total)`, which is 16-aligned, does not start
    at the null address and has an end that is itself an address. -/
structure Shape (base total : Nat) (ss : List Seg) : Prop where
  tiles : SegTiles base ss (base + total)
  sizes : ∀ s ∈ ss, s.size % 16 = 0
  base_pos : 0 < base
  total_pos : 0 < total
  base_aligned : base % 16 = 0
  fits : base + total < addrSpace

theorem Shape.around {base total : Nat} {pre post : List Seg} {s : Seg}
    (h : Shape base total (pre ++ s :: post)) :
    base ≤ s.addr ∧ s.addr + hdrSize + s.size ≤ base + total ∧
      (∀ t ∈ pre, t.addr + hdrSize + t.size ≤ s.addr) ∧
      ∀ t ∈ post, s.addr + hdrSize + s.size ≤ t.addr := by
  have hb := h.tiles.mem_bounds s (by simp)
  have ha := h.tiles.apart
  simp only [Seg.extent] at hb ha
  refine ⟨hb.1, by omega, fun t ht => ?_, fun t ht => ?_⟩
  · have := ha.1 t ht; omega
  · have := ha.2 t ht; omega

theorem Shape.ne_nil {base total : Nat} {ss : List Seg} (h : Shape base total ss) : ss ≠ [] := by
  rintro rfl
  have ht := h.tiles
  have := h.total_pos
  simp only [Tiles] at ht
  omega

theorem Shape.addr_pos {base total : Nat} {ss : List Seg} (h : Shape base total ss) :
    ∀ s ∈ ss, 0 < s.addr := by
  intro s hs
  have := (h.tiles.mem_bounds s hs).1
  have := h.base_pos
  omega

/-- The header of a payload. -/
theorem Shape.sub64_payload {base total : Nat} {ss : List Seg} (h : Shape base total ss) {s : Seg}
    (hs : s ∈ ss) : sub64 s.payload hdrSize = s.addr := by
  have hb := h.tiles.mem_bounds s hs
  have hfits := h.fits
  simp only [Seg.extent] at hb
  rw [Seg.payload, sub64_of_le (by omega) (by omega), Nat.add_sub_cancel]

/-- Every segment starts on a 16-byte boundary. -/
theorem tiles_aligned {lo hi : Nat} {ss : List Seg} (h : SegTiles lo ss hi)
    (hs : ∀ s ∈ ss, s.size % 16 = 0) (hlo : lo % 16 = 0) : ∀ s ∈ ss, s.addr % 16 = 0 := by
  induction ss generalizing lo with
  | nil => simp
  | cons s ss ih =>
    obtain ⟨haddr, hrest⟩ := h
    have hsize := hs s (by simp)
    intro t ht
    rcases List.mem_cons.mp ht with rfl | ht
    · omega
    · refine ih hrest (fun u hu => hs u (by simp [hu])) ?_ t ht
      simp only [Seg.extent, hdrSize]
      omega

theorem Shape.addr_aligned {base total : Nat} {ss : List Seg} (h : Shape base total ss) :
    ∀ s ∈ ss, s.addr % 16 = 0 := tiles_aligned h.tiles h.sizes h.base_aligned

/-- A region holds fewer blocks than there are addresses, so a walk has fuel enough. -/
theorem Shape.length_lt {base total : Nat} {ss : List Seg} (h : Shape base total ss) :
    ss.length < addrSpace := by
  have hlen := h.tiles.length_le (k := 1) fun s _ => by simp only [Seg.extent, hdrSize]; omega
  have := h.fits
  have := h.base_pos
  omega

/-- The header of a segment in the middle of the list. -/
theorem Holds.header_eq {m : Mem} {pre post : List Seg} {s : Seg}
    (h : Holds m (pre ++ s :: post)) :
    header m s.addr = ⟨s.size, s.free, (post.map Seg.addr).headD 0,
      (pre.map Seg.addr).getLastD 0⟩ := by
  have hl := h.links
  rw [List.map_append, List.map_cons] at hl
  have hf := h.fields s (by simp)
  rw [header, hf.1, hf.2, hl.around.1, hl.around.2]

/-- When only the first of the segments behind has its `prev` changed, all else about these
    segments stays. -/
theorem post_headers {m m' : Mem} {post : List Seg} {n y : Nat}
    (hn : n = (post.map Seg.addr).headD 0) (hpos : ∀ t ∈ post, 0 < t.addr)
    (apart : post.Pairwise fun s t => s.addr + hdrSize ≤ t.addr)
    (hhead : n ≠ 0 → header m' n = { header m n with prev := y })
    (hrest : ∀ t ∈ post, (n ≠ 0 → Apart t.addr n) → header m' t.addr = header m t.addr) :
    (∀ t ∈ post, blockSize m' t.addr = blockSize m t.addr ∧
      blockFree m' t.addr = blockFree m t.addr ∧ blockNext m' t.addr = blockNext m t.addr) ∧
    (∀ t ∈ post.head?, blockPrev m' t.addr = y) ∧
    ∀ t ∈ post.tail, blockPrev m' t.addr = blockPrev m t.addr := by
  cases post with
  | nil => simp
  | cons q qs =>
    have hq := hpos q (by simp)
    simp only [List.map_cons, List.headD_cons] at hn
    subst hn
    have hfirst := hhead (by omega)
    have hothers : ∀ t ∈ qs, header m' t.addr = header m t.addr := by
      intro t ht
      have := (List.pairwise_cons.mp apart).1 t ht
      exact hrest t (by simp [ht]) fun _ => .inr this
    refine ⟨?_, ?_, ?_⟩
    · intro t ht
      simp only [blockSize_eq, blockFree_eq, blockNext_eq]
      rcases List.mem_cons.mp ht with rfl | ht
      · rw [hfirst]; exact ⟨rfl, rfl, rfl⟩
      · rw [hothers t ht]; exact ⟨rfl, rfl, rfl⟩
    · intro t ht
      simp only [List.head?_cons, Option.mem_def, Option.some.injEq] at ht
      subst ht
      rw [blockPrev_eq, hfirst]
    · intro t ht
      rw [blockPrev_eq, hothers t ht, blockPrev_eq]

/-- Headers that do not change are held unchanged. -/
theorem Holds.congr {m m' : Mem} {ss : List Seg} (h : Holds m ss)
    (agree : ∀ s ∈ ss, header m' s.addr = header m s.addr) : Holds m' ss := by
  refine ⟨h.links.congr ?_ ?_, fun s hs => ?_⟩
  · intro a ha
    obtain ⟨s, hs, rfl⟩ := List.mem_map.mp ha
    rw [blockNext_eq, agree s hs, blockNext_eq]
  · intro a ha
    obtain ⟨s, hs, rfl⟩ := List.mem_map.mp ha
    rw [blockPrev_eq, agree s hs, blockPrev_eq]
  · rw [blockSize_eq, blockFree_eq, agree s hs]
    exact h.fields s hs

/-- Bytes outside every header may change freely. -/
theorem Holds.frame {m m' : Mem} {ss : List Seg} (h : Holds m ss)
    (agree : ∀ s ∈ ss, ∀ x, s.addr ≤ x → x < s.addr + hdrSize → m' x = m x) : Holds m' ss :=
  h.congr fun s hs => header_congr (agree s hs)

theorem holds_setFree {m : Mem} {base total : Nat} {pre post : List Seg} {s : Seg} {v : Bool}
    (h : Holds m (pre ++ s :: post)) (hsh : Shape base total (pre ++ s :: post)) :
    Holds (setFree m s.addr v) (pre ++ { s with free := v } :: post) := by
  obtain ⟨-, -, hpre, hpost⟩ := hsh.around
  have hself : header (setFree m s.addr v) s.addr = { header m s.addr with free := v } :=
    header_setFree
  have hothers : ∀ t ∈ pre ++ post, header (setFree m s.addr v) t.addr = header m t.addr := by
    intro t ht
    apply header_setFree_ne
    rcases List.mem_append.mp ht with ht | ht
    · have := hpre t ht; omega
    · have := hpost t ht; omega
  have hkeep : ∀ t ∈ pre ++ s :: post,
      blockNext (setFree m s.addr v) t.addr = blockNext m t.addr ∧
      blockPrev (setFree m s.addr v) t.addr = blockPrev m t.addr := by
    intro t ht
    simp only [blockNext_eq, blockPrev_eq]
    have ht' : t ∈ pre ++ post ∨ t = s := by simp at ht ⊢; tauto
    rcases ht' with ht' | rfl
    · rw [hothers t ht']; exact ⟨rfl, rfl⟩
    · rw [hself]; exact ⟨rfl, rfl⟩
  constructor
  · have hmap : (pre ++ { s with free := v } :: post).map Seg.addr =
        (pre ++ s :: post).map Seg.addr := by simp
    rw [hmap]
    refine h.links.congr ?_ ?_
    · intro a ha
      obtain ⟨t, ht, rfl⟩ := List.mem_map.mp ha
      exact (hkeep t ht).1
    · intro a ha
      obtain ⟨t, ht, rfl⟩ := List.mem_map.mp ha
      exact (hkeep t ht).2
  · intro t ht
    have ht' : t ∈ pre ++ post ∨ t = { s with free := v } := by simp at ht ⊢; tauto
    rcases ht' with ht' | rfl
    · rw [blockSize_eq, blockFree_eq, hothers t ht']
      exact h.fields t (by simp at ht' ⊢; tauto)
    · rw [blockSize_eq, blockFree_eq, hself]
      exact ⟨(h.fields s (by simp)).1, rfl⟩

/-! ## Splitting -/

theorem holds_splitBlock {m : Mem} {base total size : Nat} {pre post : List Seg} {s : Seg}
    (h : Holds m (pre ++ s :: post)) (hsh : Shape base total (pre ++ s :: post))
    (hfit : size + hdrSize + alignment ≤ s.size) :
    Holds (splitBlock m s.addr size)
      (pre ++ ⟨s.addr, size, s.free⟩ ::
        ⟨s.addr + hdrSize + size, s.size - size - hdrSize, true⟩ :: post) := by
  have hh : hdrSize = 32 := rfl
  have ha : alignment = 16 := rfl
  obtain ⟨-, hend, hpre, hpost⟩ := hsh.around
  have hfits := hsh.fits
  have hpos : ∀ t ∈ post, 0 < t.addr := fun t ht => hsh.addr_pos t (by simp [ht])
  have hn : ((post.map Seg.addr).headD 0 ≠ 0 →
      s.addr + hdrSize + s.size ≤ (post.map Seg.addr).headD 0) := by
    cases post with
    | nil => simp
    | cons q qs => intro _; exact hpost q (by simp)
  obtain ⟨hself, hnew, hnext, hothers⟩ :=
    header_splitBlock h.header_eq hfit (by omega) hn
  have hpreH : ∀ t ∈ pre, header (splitBlock m s.addr size) t.addr = header m t.addr := by
    intro t ht
    have h1 := hpre t ht
    refine hothers _ (.inl (by omega)) (.inl (by omega)) fun h0 => .inl ?_
    have := hn h0
    omega
  have hpostH := post_headers rfl hpos
    ((List.pairwise_append.mp hsh.tiles.pairwise).2.1.tail.imp fun hst => by
      simp only [Seg.extent] at hst; omega) hnext fun t ht hap => by
      have h1 := hpost t ht
      exact hothers _ (.inr (by omega)) (.inr (by omega)) hap
  constructor
  · have hl := h.links
    simp only [List.map_append, List.map_cons] at hl ⊢
    refine hl.insert ?_ ?_ ?_ ?_ ?_ ?_ ?_ ?_
    · rw [blockNext_eq, hself]
    · rw [blockPrev_eq, hself, blockPrev_eq, h.header_eq]
    · rw [blockNext_eq, hnew, blockNext_eq, h.header_eq]
    · rw [blockPrev_eq, hnew]
    · intro z hz
      obtain ⟨t, ht, rfl⟩ := List.mem_map.mp hz
      rw [blockNext_eq, blockPrev_eq, hpreH t ht]
      exact ⟨rfl, rfl⟩
    · intro z hz
      obtain ⟨t, ht, rfl⟩ := List.mem_map.mp hz
      exact (hpostH.1 t ht).2.2
    · intro z hz
      rw [List.head?_map] at hz
      obtain ⟨t, ht, rfl⟩ := Option.mem_map.mp hz
      exact hpostH.2.1 t ht
    · intro z hz
      rw [← List.map_tail] at hz
      obtain ⟨t, ht, rfl⟩ := List.mem_map.mp hz
      exact hpostH.2.2 t ht
  · intro t ht
    simp only [List.mem_append, List.mem_cons] at ht
    rcases ht with ht | rfl | rfl | ht
    · rw [blockSize_eq, blockFree_eq, hpreH t ht]
      exact h.fields t (by simp [ht])
    · rw [blockSize_eq, blockFree_eq, hself]
      exact ⟨rfl, rfl⟩
    · rw [blockSize_eq, blockFree_eq, hnew]
      exact ⟨rfl, rfl⟩
    · rw [(hpostH.1 t ht).1, (hpostH.1 t ht).2.1]
      exact h.fields t (by simp [ht])

/-! ## Coalescing -/

/-- Merging with the successor: `coalesceWithNext` is `mergeNext` on the list from there on. -/
theorem holds_coalesce {m : Mem} {base total : Nat} {pre post : List Seg} {s : Seg}
    (h : Holds m (pre ++ s :: post)) (hsh : Shape base total (pre ++ s :: post)) :
    Holds (coalesceWithNext m s.addr) (pre ++ mergeNext (s :: post)) := by
  have hh : hdrSize = 32 := rfl
  have hfits := hsh.fits
  have hs := h.header_eq
  cases post with
  | nil =>
    rw [coalesce_eq_self (by rw [blockNext_eq, hs]; simp)]
    exact h
  | cons n post =>
    have h' : Holds m ((pre ++ [s]) ++ n :: post) := by simpa using h
    have hn := h'.header_eq
    simp only [List.map_cons, List.headD_cons] at hs
    simp only [List.map_append, List.map_cons, List.map_nil, List.getLastD_concat] at hn
    by_cases hfree : n.free = true ∧ s.free = true
    · obtain ⟨hnf, hsf⟩ := hfree
      have hsh' : Shape base total ((pre ++ [s]) ++ n :: post) := by simpa using hsh
      obtain ⟨-, hend, hpre, hpost⟩ := hsh.around
      obtain ⟨-, hendn, -, hpostn⟩ := hsh'.around
      have hsn := hpost n (by simp)
      have hnpos := hsh.addr_pos n (by simp)
      have hpos : ∀ t ∈ post, 0 < t.addr := fun t ht => hsh.addr_pos t (by simp [ht])
      have hn' : ((post.map Seg.addr).headD 0 ≠ 0 →
          n.addr + hdrSize + n.size ≤ (post.map Seg.addr).headD 0) := by
        cases post with
        | nil => simp
        | cons q qs => intro _; exact hpostn q (by simp)
      rw [hsf] at hs
      rw [hnf] at hn
      obtain ⟨hself, hnext, hothers⟩ := header_coalesce hs hn (by omega) (by omega) (by omega)
        (by omega) fun h0 => by have := hn' h0; omega
      have hpreH : ∀ t ∈ pre, header (coalesceWithNext m s.addr) t.addr = header m t.addr := by
        intro t ht
        have h1 := hpre t ht
        refine hothers _ (.inl (by omega)) fun h0 => .inl ?_
        have := hn' h0
        omega
      have hpostH := post_headers rfl hpos
        ((List.pairwise_append.mp hsh'.tiles.pairwise).2.1.tail.imp fun hst => by
          simp only [Seg.extent] at hst; omega) hnext fun t ht hap => by
          have h1 := hpostn t ht
          exact hothers _ (.inr (by omega)) hap
      have hmerge : mergeNext (s :: n :: post) =
          { s with size := s.size + (hdrSize + n.size) } :: post := by
        simp [mergeNext, hnf, hsf]
      rw [hmerge]
      constructor
      · have hl := h.links
        simp only [List.map_append, List.map_cons] at hl ⊢
        refine hl.remove ?_ ?_ ?_ ?_ ?_ ?_
        · rw [blockNext_eq, hself, blockNext_eq, hn]
        · rw [blockPrev_eq, hself, blockPrev_eq, hs]
        · intro z hz
          obtain ⟨t, ht, rfl⟩ := List.mem_map.mp hz
          rw [blockNext_eq, blockPrev_eq, hpreH t ht]
          exact ⟨rfl, rfl⟩
        · intro z hz
          obtain ⟨t, ht, rfl⟩ := List.mem_map.mp hz
          exact (hpostH.1 t ht).2.2
        · intro z hz
          rw [List.head?_map] at hz
          obtain ⟨t, ht, rfl⟩ := Option.mem_map.mp hz
          exact hpostH.2.1 t ht
        · intro z hz
          rw [← List.map_tail] at hz
          obtain ⟨t, ht, rfl⟩ := List.mem_map.mp hz
          exact hpostH.2.2 t ht
      · intro t ht
        simp only [List.mem_append, List.mem_cons] at ht
        rcases ht with ht | rfl | ht
        · rw [blockSize_eq, blockFree_eq, hpreH t ht]
          exact h.fields t (by simp [ht])
        · rw [blockSize_eq, blockFree_eq, hself]
          exact ⟨rfl, hsf.symm⟩
        · rw [(hpostH.1 t ht).1, (hpostH.1 t ht).2.1]
          exact h.fields t (by simp [ht])
    · have hmerge : mergeNext (s :: n :: post) = s :: n :: post := by
        simp only [mergeNext, Bool.and_eq_true, if_neg hfree]
      rw [hmerge, coalesce_eq_self]
      · exact h
      · rw [blockNext_eq, hs, blockFree_eq, blockFree_eq, hs, hn]
        exact fun hc => hfree ⟨hc.2.1, hc.2.2⟩

/-! ## The operations keep the shape -/

theorem Shape.of_tiles {base total : Nat} {ss ss' : List Seg} (h : Shape base total ss)
    (ht : SegTiles base ss' (base + total)) (hs : ∀ s ∈ ss', s.size % 16 = 0) :
    Shape base total ss' :=
  ⟨ht, hs, h.base_pos, h.total_pos, h.base_aligned, h.fits⟩

theorem Shape.setFree {base total : Nat} {pre post : List Seg} {s : Seg} (v : Bool)
    (h : Shape base total (pre ++ s :: post)) :
    Shape base total (pre ++ { s with free := v } :: post) := by
  refine h.of_tiles ?_ fun t ht => ?_
  · have := h.tiles
    obtain ⟨mid, h1, h2, h3⟩ := tiles_append.mp this
    exact tiles_append.mpr ⟨mid, h1, h2, h3⟩
  · simp only [List.mem_append, List.mem_cons] at ht
    rcases ht with ht | rfl | ht
    · exact h.sizes t (by simp [ht])
    · exact h.sizes s (by simp)
    · exact h.sizes t (by simp [ht])

theorem mergeNext_sizes {ss : List Seg} (h : ∀ s ∈ ss, s.size % 16 = 0) :
    ∀ s ∈ mergeNext ss, s.size % 16 = 0 := by
  match ss, h with
  | [], h => exact h
  | [s], h => exact h
  | s :: n :: ss, h =>
    simp only [mergeNext]
    split
    · have hs := h s (by simp)
      have hn := h n (by simp)
      intro t ht
      rcases List.mem_cons.mp ht with rfl | ht
      · simp only [hdrSize]; omega
      · exact h t (by simp [ht])
    · exact h

theorem Shape.mergeNext {base total : Nat} {pre ss : List Seg}
    (h : Shape base total (pre ++ ss)) : Shape base total (pre ++ mergeNext ss) := by
  refine h.of_tiles ?_ fun t ht => ?_
  · obtain ⟨mid, h1, h2⟩ := tiles_append.mp h.tiles
    exact tiles_append.mpr ⟨mid, h1, tiles_mergeNext h2⟩
  · rcases List.mem_append.mp ht with ht | ht
    · exact h.sizes t (by simp [ht])
    · exact mergeNext_sizes (fun u hu => h.sizes u (by simp [hu])) t ht

theorem Shape.takeSeg {base total : Nat} {pre post : List Seg} {s : Seg}
    (h : Shape base total (pre ++ s :: post)) (size : Nat) (hsize : size % 16 = 0) :
    Shape base total (pre ++ takeSeg size s ++ post) := by
  refine h.of_tiles ?_ fun t ht => ?_
  · have := h.tiles
    rw [show pre ++ s :: post = pre ++ [s] ++ post by simp] at this
    exact this.replace fun a b hab => tiles_takeSeg hab
  · have hs := h.sizes s (by simp)
    simp only [List.mem_append] at ht
    rcases ht with (ht | ht) | ht
    · exact h.sizes t (by simp [ht])
    · unfold Heap.takeSeg at ht
      split at ht
      · next hfit =>
        simp only [alignment] at hfit
        simp only [List.mem_cons, List.not_mem_nil, or_false] at ht
        rcases ht with rfl | rfl
        · exact hsize
        · simp only [hdrSize] at hfit ⊢; omega
      · simp only [List.mem_cons, List.not_mem_nil, or_false] at ht
        subst ht
        exact hs
    · exact h.sizes t (by simp [ht])

end ChocoOs.Heap
