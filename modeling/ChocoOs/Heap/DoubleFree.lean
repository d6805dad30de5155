import ChocoOs.Heap.Frame
import ChocoOs.Heap.WellFormed

/-!
# Freeing twice

A second `free` is recognised by the free flag in front of the pointer. Merging may have made that
header part of a larger free block; its flag stays set there until the memory is handed out again.
-/

namespace ChocoOs.Heap
open ProgLib

/-- The free segment `t'` contains the segment `t`, whose header is its own or lies behind it. -/
structure Within (t t' : Seg) : Prop where
  free : t'.free = true
  le : t'.addr ≤ t.addr
  end_le : t.addr + t.extent ≤ t'.addr + t'.extent
  header : t.addr = t'.addr ∨ t'.addr + hdrSize ≤ t.addr

theorem Within.refl {t : Seg} (h : t.free = true) : Within t t :=
  ⟨h, Nat.le_refl _, Nat.le_refl _, .inl rfl⟩

theorem Within.trans {t t' t'' : Seg} (h : Within t t') (h' : Within t' t'') : Within t t'' := by
  have h1 := h.le
  have h2 := h'.le
  have h3 := h.end_le
  have h4 := h'.end_le
  refine ⟨h'.free, by omega, by omega, ?_⟩
  rcases h.header with he | hlt
  · rw [he]
    exact h'.header
  · exact .inr (by omega)

/-- Merging moves a free segment into a larger one. -/
theorem within_mergeNext {lo hi : Nat} {ss : List Seg} (htiles : SegTiles lo ss hi) {t : Seg}
    (ht : t ∈ ss) (hfree : t.free = true) : ∃ t' ∈ mergeNext ss, Within t t' := by
  match ss, htiles with
  | [], _ => cases ht
  | [s], _ => exact ⟨t, ht, .refl hfree⟩
  | s :: n :: ss, ⟨hs, hn, _⟩ =>
    rw [mergeNext]
    split
    · next hboth =>
      rw [Bool.and_eq_true] at hboth
      simp only [Seg.extent] at hn
      rw [List.mem_cons, List.mem_cons] at ht
      rcases ht with rfl | rfl | ht
      · refine ⟨_, List.mem_cons_self .., hfree, Nat.le_refl _, ?_, .inl rfl⟩
        simp only [Seg.extent]
        omega
      · refine ⟨_, List.mem_cons_self .., hboth.2, ?_, ?_, .inr ?_⟩
        · simp only
          omega
        · simp only [Seg.extent]
          omega
        · simp only
          omega
      · exact ⟨t, List.mem_cons_of_mem _ ht, .refl hfree⟩
    · exact ⟨t, ht, .refl hfree⟩

theorem within_append (pre : List Seg) {ss ss' : List Seg} (h : ∀ t ∈ ss, t.free = true → ∃ t' ∈ ss', Within t t')
    {t : Seg} (ht : t ∈ pre ++ ss) (hfree : t.free = true) : ∃ t' ∈ pre ++ ss', Within t t' := by
  rcases List.mem_append.mp ht with ht | ht
  · exact ⟨t, List.mem_append_left _ ht, .refl hfree⟩
  · obtain ⟨t', ht', hw⟩ := h t ht hfree
    exact ⟨t', List.mem_append_right _ ht', hw⟩

section release

variable {base total : Nat} {pre post : List Seg} {s : Seg}

/-- The released segment, and all that were free before, are part of free segments. -/
theorem within_releaseSeg (hsh : Shape base total (pre ++ s :: post)) {t : Seg}
    (ht : t ∈ pre ++ { s with free := true } :: post) (hfree : t.free = true) :
    ∃ t' ∈ releaseSeg s.addr (pre ++ s :: post), Within t t' := by
  have hh : hdrSize = 32 := rfl
  have hne : ∀ t ∈ pre, t.addr ≠ s.addr := fun t ht => by
    have := hsh.around.2.2.1 t ht
    omega
  have hshape := hsh.setFree true
  obtain ⟨mid, -, hmid⟩ := tiles_append.mp hshape.tiles
  obtain ⟨t₁, ht₁, hw₁⟩ := within_append pre
    (fun t ht hfree => within_mergeNext hmid ht hfree) ht hfree
  rcases List.eq_nil_or_concat pre with rfl | ⟨pre, q, rfl⟩
  · rw [List.nil_append, releaseSeg_head]
    exact ⟨t₁, ht₁, hw₁⟩
  · rw [List.concat_eq_append] at *
    have hmerged := hshape.mergeNext
    rw [List.append_assoc, List.singleton_append] at ht₁ hmerged ⊢
    obtain ⟨mid', -, hmid'⟩ := tiles_append.mp hmerged.tiles
    obtain ⟨t₂, ht₂, hw₂⟩ := within_append pre
      (fun t ht hfree => within_mergeNext hmid' ht hfree) ht₁ hw₁.free
    rw [releaseSeg_append post hne]
    exact ⟨t₂, ht₂, hw₁.trans hw₂⟩

end release

/-- The header at `b` is that of a free block, or stale memory inside one, and says that it is
    free. -/
structure Stale (m : Mem) (ss : List Seg) (b : Nat) : Prop where
  flag : blockFree m b = true
  inside : ∃ t ∈ ss, t.free = true ∧
    (b = t.addr ∨ t.addr + hdrSize ≤ b ∧ b + hdrSize ≤ t.addr + t.extent)

/-- A place inside a free segment stays inside one. -/
theorem Within.inside {t t' : Seg} (h : Within t t') {b : Nat}
    (hb : b = t.addr ∨ t.addr + hdrSize ≤ b ∧ b + hdrSize ≤ t.addr + t.extent) :
    b = t'.addr ∨ t'.addr + hdrSize ≤ b ∧ b + hdrSize ≤ t'.addr + t'.extent := by
  have h1 := h.le
  have h2 := h.end_le
  have hextent : t.extent = hdrSize + t.size := rfl
  rcases hb with rfl | hb
  · rcases h.header with he | hlt
    · exact .inl he
    · exact .inr (by omega)
  · exact .inr (by omega)

section step

variable {base total : Nat} {h : Heap} {ss pre post : List Seg} {s : Seg} {b : Nat}

/-- The header does not overlap one in the list. -/
theorem Stale.apart (hst : Stale h.mem ss b) (hsh : Shape base total ss) {c : Nat}
    (hc : Listed ss c) : b = c ∨ Apart b c := by
  obtain ⟨t, ht, -, hb⟩ := hst.inside
  rcases hb with rfl | hb
  · exact hsh.listed_apart ⟨t, ht, rfl⟩ hc
  · obtain ⟨u, hu, rfl⟩ := hc
    obtain ⟨pre, post, rfl⟩ := List.append_of_mem ht
    obtain ⟨-, -, hpre, hpost⟩ := hsh.around
    have hextent : t.extent = hdrSize + t.size := rfl
    rw [List.mem_append, List.mem_cons] at hu
    rcases hu with hu | rfl | hu
    · have := hpre u hu
      exact .inr (.inr (by omega))
    · exact .inr (.inr (by omega))
    · have := hpost u hu
      exact .inr (.inl (by omega))

/-- The released block's own header. -/
theorem Stale.of_free (hinv : Inv base total h (pre ++ s :: post)) (hused : s.free = false) :
    Stale (free h s.payload).mem (releaseSeg s.addr (pre ++ s :: post)) s.addr := by
  obtain ⟨t', ht', hw⟩ := within_releaseSeg hinv.shape (t := { s with free := true }) (by simp) rfl
  refine ⟨?_, t', ht', hw.free, hw.inside (.inl rfl)⟩
  rw [free_mem hinv hused]
  exact (rewrites_releaseBlock hinv.holds hinv.shape).2

/-- Releasing another block leaves it as it is. -/
theorem Stale.free (hst : Stale h.mem (pre ++ s :: post) b)
    (hinv : Inv base total h (pre ++ s :: post)) (hused : s.free = false) :
    Stale (free h s.payload).mem (releaseSeg s.addr (pre ++ s :: post)) b := by
  obtain ⟨t, ht, hfree, hb⟩ := hst.inside
  have hmem : t ∈ pre ++ { s with free := true } :: post := by
    rw [List.mem_append, List.mem_cons] at ht ⊢
    rcases ht with ht | rfl | ht
    · exact .inl ht
    · rw [hused] at hfree
      cases hfree
    · exact .inr (.inr ht)
  obtain ⟨t', ht', hw⟩ := within_releaseSeg hinv.shape hmem hfree
  refine ⟨?_, t', ht', hw.free, hw.inside hb⟩
  rw [free_mem hinv hused]
  exact (rewrites_releaseBlock hinv.holds hinv.shape).1.keeps b
    (fun c hc => hst.apart hinv.shape hc) hst.flag

/-- The owner of a live block does not reach it. -/
theorem Stale.write (hst : Stale h.mem ss b) (hinv : Inv base total h ss) (hs : s ∈ ss)
    (hused : s.free = false) {x : Nat} (hx : s.payload ≤ x ∧ x < s.payload + s.size) (v : UInt8) :
    Stale (store8 h.mem x v) ss b := by
  obtain ⟨t, ht, hfree, hb⟩ := hst.inside
  refine ⟨?_, t, ht, hfree, hb⟩
  have hne : b + 8 ≠ x := by
    rintro rfl
    have hh : hdrSize = 32 := rfl
    have hextent : t.extent = hdrSize + t.size := rfl
    have hboth := hinv.shape.tiles.mem_unique (a := b + 8) hs ht
      (by simp only [Seg.payload, Seg.extent] at *; omega) (by omega)
    rw [hboth, hfree] at hused
    cases hused
  rw [← hst.flag, blockFree, blockFree, store8_ne hne]

end step

/-! ## Runs without requests -/

/-- Only live blocks are freed and written. -/
def Call.Quiet : Call → Prop
  | .free _ => True
  | .store .. => True
  | _ => False

/-- A step without a request. -/
def QuietStep (s t : Sys) : Prop := ∃ c : Call, c.Quiet ∧ c.Ok s ∧ exec s c = some t

/-- What a run without requests keeps about a freed block. -/
def FreedInv (base total b : Nat) (s : Sys) : Prop :=
  ∃ ss, Inv base total s.heap ss ∧ s.live.Perm (livePayloads ss) ∧ Stale s.heap.mem ss b

theorem FreedInv.step {base total b : Nat} {s t : Sys} (hinv : FreedInv base total b s)
    (hstep : QuietStep s t) : FreedInv base total b t := by
  obtain ⟨ss, hi, hlive, hst⟩ := hinv
  obtain ⟨c, hquiet, hok, hexec⟩ := hstep
  cases c with
  | malloc size => cases hquiet
  | calloc num size => cases hquiet
  | realloc ptr size => cases hquiet
  | free ptr =>
    cases hexec
    rcases hok with rfl | hptr
    · have hnot : (0 : Nat) ∉ s.live := fun h0 => live_ne_zero hi hlive h0 rfl
      refine ⟨ss, ?_, ?_, ?_⟩
      · rw [free, if_pos rfl]
        exact hi
      · rw [List.erase_of_not_mem hnot]
        exact hlive
      · rw [free, if_pos rfl]
        exact hst
    · obtain ⟨u, hu, hused, rfl⟩ := mem_livePayloads.mp (hlive.mem_iff.mp hptr)
      obtain ⟨pre, post, rfl⟩ := List.append_of_mem hu
      exact ⟨_, free_spec hi hused,
        (hlive.erase _).trans (livePayloads_releaseSeg hi.shape hused).symm, hst.free hi hused⟩
  | store ptr off v =>
    cases hexec
    obtain ⟨hptr, hoff⟩ := hok
    obtain ⟨u, hu, hused, rfl⟩ := mem_livePayloads.mp (hlive.mem_iff.mp hptr)
    have hsub : u.payload - hdrSize = u.addr := Nat.add_sub_cancel ..
    rw [hsub, (hi.holds.fields u hu).1] at hoff
    exact ⟨ss, hi.write hu ((sameOutside_store8 _ _ _).mono (by omega) (by omega)), hlive,
      hst.write hi hu hused (by omega) v⟩

/-- Freeing a pointer again, with only further frees in between, changes nothing. -/
theorem double_free_harmless {base total p : Nat} {s s' t : Sys} (h : Reachable base total s)
    (hp : p ∈ s.live) (hfree : exec s (.free p) = some s')
    (hquiet : Relation.ReflTransGen QuietStep s' t) : free t.heap p = t.heap := by
  obtain ⟨ss, hi, hlive⟩ := reachable_sysInv h
  obtain ⟨u, hu, hused, rfl⟩ := mem_livePayloads.mp (hlive.mem_iff.mp hp)
  have hsub := hi.shape.sub64_payload hu
  obtain ⟨pre, post, rfl⟩ := List.append_of_mem hu
  cases hfree
  have hfreed : FreedInv base total u.addr t := by
    induction hquiet with
    | refl =>
      exact ⟨_, free_spec hi hused,
        (hlive.erase _).trans (livePayloads_releaseSeg hi.shape hused).symm, .of_free hi hused⟩
    | tail _ hstep ih => exact ih.step hstep
  obtain ⟨ss', -, -, hst⟩ := hfreed
  rw [free, if_neg (Shape.payload_ne_zero u hu hi.shape), hsub]
  exact if_pos hst.flag

/-- The second of two blocks is freed, then the first one, and then the second one again, whose
    header has become part of a larger free block. -/
theorem double_free_harmless_boot : ∃ s t : Sys, 0xffff8000010000b0 ∈ s.live ∧ t.live = [] ∧
    blocks t.heap = some [0xffff800001000000] ∧ free t.heap 0xffff8000010000b0 = t.heap := by
  have h₁ := Reachable.get (c := .malloc 100) (.init start_bootSys)
    (by rw [Call.Ok, addrSpace_eq]; decide) (by decide +kernel)
  have h₂ := h₁.get (c := .malloc 24) (by rw [Call.Ok, addrSpace_eq]; decide) (by decide +kernel)
  obtain ⟨s, hs⟩ : ∃ s, s = (exec ((exec bootSys (.malloc 100)).get (by decide +kernel))
    (.malloc 24)).get (by decide +kernel) := ⟨_, rfl⟩
  have hmem : 0xffff8000010000b0 ∈ s.live := by
    rw [hs]
    decide +kernel
  rw [← hs] at h₂
  obtain ⟨s', hs'⟩ : ∃ s', exec s (.free 0xffff8000010000b0) = some s' := ⟨_, rfl⟩
  obtain ⟨t, ht⟩ : ∃ t, exec s' (.free 0xffff800001000020) = some t := ⟨_, rfl⟩
  have hmem' : 0xffff800001000020 ∈ s'.live := by
    cases hs'
    rw [hs]
    decide +kernel
  refine ⟨s, t, hmem, ?_, ?_, double_free_harmless h₂ hmem hs'
    (.single ⟨.free 0xffff800001000020, trivial, .inr hmem', ht⟩)⟩
  · cases ht
    cases hs'
    rw [hs]
    decide +kernel
  · cases ht
    cases hs'
    rw [hs]
    decide +kernel

end ChocoOs.Heap
