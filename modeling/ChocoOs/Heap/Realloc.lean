import ChocoOs.Heap.Frame
import ChocoOs.Heap.WellFormed

/-!
# Reallocation

A block that grows is copied to a new one before it is released; no other payload changes.
-/

namespace ChocoOs.Heap
open ProgLib

/-- `p` points to the payload of a listed block in use. -/
def LiveBlock (h : Heap) (p : Nat) : Prop :=
  ∃ bs, blocks h = some bs ∧ ∃ b ∈ usedBlocks h.mem bs, p = b + hdrSize

/-- The payload at `p` has the same size and the same bytes in both states. -/
def SamePayload (h h' : Heap) (p : Nat) : Prop :=
  blockSize h'.mem (p - hdrSize) = blockSize h.mem (p - hdrSize) ∧
    ∀ i < blockSize h.mem (p - hdrSize), h'.mem (p + i) = h.mem (p + i)

section segs

variable {base total : Nat} {h : Heap} {ss : List Seg}

theorem liveBlock_iff (hinv : Inv base total h ss) {p : Nat} :
    LiveBlock h p ↔ p ∈ livePayloads ss := by
  rw [LiveBlock, hinv.blocks_eq, mem_livePayloads]
  constructor
  · rintro ⟨bs, hbs, b, hb, rfl⟩
    cases hbs
    rw [hinv.holds.usedBlocks_eq] at hb
    obtain ⟨t, ht, rfl⟩ := List.mem_map.mp hb
    obtain ⟨hmem, hused⟩ := mem_inUse.mp ht
    exact ⟨t, hmem, hused, rfl⟩
  · rintro ⟨t, ht, hused, rfl⟩
    refine ⟨_, rfl, t.addr, ?_, rfl⟩
    rw [hinv.holds.usedBlocks_eq]
    exact List.mem_map.mpr ⟨t, mem_inUse.mpr ⟨ht, hused⟩, rfl⟩

theorem blockSize_payload (hinv : Inv base total h ss) {t : Seg} (ht : t ∈ ss) :
    blockSize h.mem (t.payload - hdrSize) = t.size := by
  have hsub : t.payload - hdrSize = t.addr := Nat.add_sub_cancel ..
  rw [hsub, (hinv.holds.fields t ht).1]

/-- Payloads of different segments do not overlap. -/
theorem Shape.payloads_apart (hsh : Shape base total ss) {t u : Seg} (ht : t ∈ ss) (hu : u ∈ ss)
    (hne : t.addr ≠ u.addr) : t.payload + t.size ≤ u.payload ∨ u.payload + u.size ≤ t.payload := by
  have hh : hdrSize = 32 := rfl
  obtain ⟨pre, post, rfl⟩ := List.append_of_mem ht
  obtain ⟨-, -, hpre, hpost⟩ := hsh.around
  simp only [Seg.payload]
  rw [List.mem_append, List.mem_cons] at hu
  rcases hu with hu | rfl | hu
  · have := hpre u hu
    omega
  · exact absurd rfl hne
  · have := hpost u hu
    omega

/-- The old block is copied to the new one and released. -/
theorem move_spec {m : Mem} (hinv : Inv base total h ss) {s t : Seg} (hs : s ∈ ss)
    (hused : s.free = false) (ht : t ∈ ss) (hne : t.addr ≠ s.addr) (hsize : s.size ≤ t.size)
    (hm : m = copy h.mem t.payload s.payload s.size) :
    ∃ ss', Inv base total (free { h with mem := m } s.payload) ss' ∧
      (∀ u, u ∈ inUse ss' ↔ u ∈ inUse ss ∧ u.addr ≠ s.addr) ∧
      (∀ i < s.size, (free { h with mem := m } s.payload).mem (t.payload + i) =
        h.mem (s.payload + i)) ∧
      ∀ u ∈ ss, u.addr ≠ t.addr → ∀ i < u.size,
        (free { h with mem := m } s.payload).mem (u.payload + i) = h.mem (u.payload + i) := by
  have hcopy : SameOutside h.mem m t.payload (t.payload + s.size) :=
    hm ▸ sameOutside_copy h.mem t.payload s.payload s.size
  have hinv' := hinv.write ht (hcopy.mono (Nat.le_refl _) (by omega))
  obtain ⟨pre, post, hss⟩ := List.append_of_mem hs
  have hshape := hinv.shape
  rw [hss] at hinv' hshape
  obtain ⟨-, -, hpre, hpost⟩ := hshape.around
  have hnepre : ∀ u ∈ pre, u.addr ≠ s.addr := fun u hu => by
    have := hpre u hu
    simp only [hdrSize] at this
    omega
  have hnepost : ∀ u ∈ post, u.addr ≠ s.addr := fun u hu => by
    have := hpost u hu
    simp only [hdrSize] at this
    omega
  -- the release writes headers only
  have hframe : ∀ u ∈ ss, ∀ i < u.size, (free { h with mem := m } s.payload).mem (u.payload + i) =
      m (u.payload + i) := fun u hu i hi => by
    rw [free_mem hinv' hused]
    refine (rewrites_releaseBlock hinv'.holds hshape).1.frame _ fun b hb => ?_
    rw [← hss] at hb
    exact hinv.shape.payload_apart hu (Nat.le_add_right ..) (by omega) hb
  refine ⟨_, free_spec hinv' hused, fun u => ?_, fun i hi => ?_, fun u hu hut i hi => ?_⟩
  · rw [inUse_releaseSeg hnepre, hss, inUse_append, inUse_cons_used post hused, List.mem_append,
      List.mem_append, List.mem_cons]
    constructor
    · rintro (hu | hu)
      · exact ⟨.inl hu, hnepre u (mem_inUse.mp hu).1⟩
      · exact ⟨.inr (.inr hu), hnepost u (mem_inUse.mp hu).1⟩
    · rintro ⟨hu | rfl | hu, hus⟩
      · exact .inl hu
      · exact absurd rfl hus
      · exact .inr hu
  · have hapart := hinv.shape.payloads_apart ht hs hne
    rw [hframe t ht i (by omega), hm]
    exact copy_apply (by omega) hi
  · have hapart := hinv.shape.payloads_apart hu ht hut
    rw [hframe u hu i hi]
    exact hcopy _ (by omega)

/-- `malloc` of a heap that holds segments: what becomes of the payloads. -/
theorem malloc_payloads {n : Nat} (hinv : Inv base total h ss) : ∃ h' p, malloc h n = some (h', p) ∧ (p = 0 → h' = h) ∧
    (p ≠ 0 → ∃ ss' t, Inv base total h' ss' ∧ t ∈ ss' ∧ t.free = false ∧ t.payload = p ∧
      roundUp n ≤ t.size ∧ (∀ u, u ∈ inUse ss' ↔ u = t ∨ u ∈ inUse ss) ∧
      (∀ u ∈ inUse ss, u.addr ≠ t.addr ∧ ∀ i < u.size, h'.mem (u.payload + i) = h.mem (u.payload + i))) := by
  by_cases hn : n = 0
  · exact ⟨h, 0, by rw [malloc, if_pos (.inl hn)], fun _ => rfl, fun hp => absurd rfl hp⟩
  · rcases malloc_spec hinv hn with ⟨-, hm⟩ | ⟨h', pre, s, post, hss, hfree, hle, -, hm, hinv'⟩
    · exact ⟨h, 0, hm, fun _ => rfl, fun hp => absurd rfl hp⟩
    · refine ⟨h', s.payload, hm, fun hp => ?_, fun _ => ?_⟩
      · exact absurd hp (Shape.payload_ne_zero s (by rw [hss]; simp) hinv.shape)
      obtain ⟨size, htake, hbounds⟩ := inUse_takeSeg (roundUp n) s
      have hmem : (⟨s.addr, size, false⟩ : Seg) ∈ inUse (pre ++ takeSeg (roundUp n) s ++ post) := by
        rw [inUse_append, inUse_append, htake]
        simp
      refine ⟨_, ⟨s.addr, size, false⟩, hinv', (mem_inUse.mp hmem).1, rfl, rfl, (hbounds hle).1,
        fun u => ?_, fun u hu => ⟨?_, fun i hi => ?_⟩⟩
      · rw [hss, inUse_append, inUse_append, inUse_append, htake, inUse_cons_free post hfree]
        simp only [List.mem_append, List.mem_singleton]
        tauto
      · obtain ⟨hu, hused⟩ := mem_inUse.mp hu
        intro haddr
        replace haddr : u.addr = s.addr := haddr
        have htiles := hinv.shape.tiles
        have hs : s ∈ ss := by rw [hss]; simp
        have hpos : ∀ v : Seg, 0 < v.extent := fun v => by
          simp only [Seg.extent, hdrSize]
          omega
        have hboth := htiles.mem_unique (a := s.addr) hu hs
          ⟨Nat.le_of_eq haddr, by have := hpos u; omega⟩
          ⟨Nat.le_refl _, by have := hpos s; omega⟩
        rw [hboth, hfree] at hused
        cases hused
      · obtain ⟨hu, hused⟩ := mem_inUse.mp hu
        exact malloc_frame hinv hm hu hused (Nat.le_add_right ..) (by omega)

end segs

/-- A reallocation fails and changes nothing, or returns a large enough block that starts with the
    old bytes; no other block that is live changes. -/
theorem realloc_preserves {base total p n : Nat} {s : Sys} (h : Reachable base total s)
    (hp : p ∈ s.live) (hn : 1 ≤ n) (hle : n ≤ addrSpace - 16) :
    ∃ h' q, realloc s.heap p n = some (h', q) ∧
      (q = 0 → h' = s.heap ∧ LiveBlock h' p) ∧
      (q ≠ 0 → LiveBlock h' q ∧ n ≤ blockSize h'.mem (q - hdrSize) ∧
        (∀ i < min (blockSize s.heap.mem (p - hdrSize)) n, h'.mem (q + i) = s.heap.mem (p + i)) ∧
        (q ≠ p → ¬ LiveBlock h' p) ∧
        ∀ o ∈ s.live, o ≠ p → o ≠ q ∧ LiveBlock h' o ∧ SamePayload s.heap h' o) := by
  obtain ⟨ss, hinv, hlive⟩ := reachable_sysInv h
  obtain ⟨u, hu, hused, rfl⟩ := mem_livePayloads.mp (hlive.mem_iff.mp hp)
  have hu0 : u.payload ≠ 0 := Shape.payload_ne_zero u hu hinv.shape
  have hn0 : ¬ n = 0 := by omega
  have hold := blockSize_payload hinv hu
  have hsub : sub64 u.payload hdrSize = u.payload - hdrSize := by
    rw [hinv.shape.sub64_payload hu, Seg.payload, Nat.add_sub_cancel]
  have hlives : ∀ o, LiveBlock s.heap o ↔ o ∈ s.live := fun o => by
    rw [liveBlock_iff hinv, hlive.mem_iff]
  by_cases hfit : n ≤ blockSize s.heap.mem (u.payload - hdrSize)
  · refine ⟨s.heap, u.payload, ?_, fun h0 => absurd h0 hu0, fun _ => ⟨(hlives _).mpr hp, hfit,
      fun i _ => rfl, fun hne => absurd rfl hne, fun o ho hne => ⟨hne, (hlives o).mpr ho, rfl,
        fun i _ => rfl⟩⟩⟩
    simp only [realloc, if_neg hu0, if_neg hn0, hsub, if_pos hfit]
  · obtain ⟨h', q, hm, hfail, hdone⟩ := malloc_payloads (n := n) hinv
    by_cases hq : q = 0
    · refine ⟨h', q, ?_, fun _ => ⟨hfail hq, ?_⟩, fun hq' => absurd hq hq'⟩
      · simp only [realloc, if_neg hu0, if_neg hn0, hsub, if_neg hfit, hm]
        exact if_neg (not_not_intro hq)
      · rw [hfail hq]
        exact (hlives _).mpr hp
    · obtain ⟨ss', t, hinv', ht, htused, rfl, hsize, hinuse, hkeep⟩ := hdone hq
      have huse : u ∈ inUse ss := mem_inUse.mpr ⟨hu, hused⟩
      have hu' : u ∈ ss' := (mem_inUse.mp ((hinuse u).mpr (.inr huse))).1
      have hround := (roundUp_of_le hle).1
      have hnew := blockSize_payload hinv' hu'
      obtain ⟨ss'', hinv'', hleft, hcopied, hothers⟩ := move_spec hinv' hu' hused ht
        (Ne.symm (hkeep u huse).1) (by omega) rfl
      have ht'' : t ∈ inUse ss'' :=
        (hleft t).mpr ⟨mem_inUse.mpr ⟨ht, htused⟩, Ne.symm (hkeep u huse).1⟩
      refine ⟨free { h' with mem := copy h'.mem t.payload u.payload u.size } u.payload, t.payload, ?_,
        fun h0 => absurd h0 hq, fun _ => ⟨?_, ?_, fun i hi => ?_, fun _ => ?_, fun o ho hne => ?_⟩⟩
      · simp only [realloc, if_neg hu0, if_neg hn0, hsub, if_neg hfit, hm, hnew]
        exact if_pos hq
      · rw [liveBlock_iff hinv'']
        exact List.mem_map.mpr ⟨t, ht'', rfl⟩
      · rw [blockSize_payload hinv'' (mem_inUse.mp ht'').1]
        omega
      · have hlt : i < u.size := by omega
        rw [hcopied i hlt]
        exact (hkeep u huse).2 i hlt
      · rw [liveBlock_iff hinv'']
        intro hmem
        obtain ⟨v, hv, hpay⟩ := List.mem_map.mp hmem
        simp only [Seg.payload] at hpay
        exact ((hleft v).mp hv).2 (by omega)
      · obtain ⟨v, hv, hvused, rfl⟩ := mem_livePayloads.mp (hlive.mem_iff.mp ho)
        have hvuse : v ∈ inUse ss := mem_inUse.mpr ⟨hv, hvused⟩
        obtain ⟨hvt, hvbytes⟩ := hkeep v hvuse
        have hvu : v.addr ≠ u.addr := fun he => hne (congrArg (· + hdrSize) he)
        have hv' : v ∈ inUse ss' := (hinuse v).mpr (.inr hvuse)
        have hv'' : v ∈ inUse ss'' := (hleft v).mpr ⟨hv', hvu⟩
        refine ⟨fun he => hvt (Nat.add_right_cancel he), ?_, ?_, fun i hi => ?_⟩
        · rw [liveBlock_iff hinv'']
          exact List.mem_map.mpr ⟨v, hv'', rfl⟩
        · rw [blockSize_payload hinv'' (mem_inUse.mp hv'').1, blockSize_payload hinv hv]
        · rw [blockSize_payload hinv hv] at hi
          rw [hothers v (mem_inUse.mp hv').1 hvt i hi]
          exact hvbytes i hi

/-- A block of 112 bytes grows while another one is live. -/
theorem realloc_preserves_boot : ∃ (s : Sys) (h' : Heap) (q : Nat),
    s.live = [0xffff8000010000b0, 0xffff800001000020] ∧
    realloc s.heap 0xffff800001000020 1000 = some (h', q) ∧
    (q = 0 → h' = s.heap ∧ LiveBlock h' 0xffff800001000020) ∧
    (q ≠ 0 → LiveBlock h' q ∧ 1000 ≤ blockSize h'.mem (q - hdrSize) ∧
      (∀ i < min (blockSize s.heap.mem (0xffff800001000020 - hdrSize)) 1000,
        h'.mem (q + i) = s.heap.mem (0xffff800001000020 + i)) ∧
      (q ≠ 0xffff800001000020 → ¬ LiveBlock h' 0xffff800001000020) ∧
      ∀ o ∈ s.live, o ≠ 0xffff800001000020 →
        o ≠ q ∧ LiveBlock h' o ∧ SamePayload s.heap h' o) := by
  have h₁ := Reachable.get (c := .malloc 100) (.init start_bootSys)
    (by rw [Call.Ok, addrSpace_eq]; decide) (by decide +kernel)
  have h₂ := h₁.get (c := .malloc 24) (by rw [Call.Ok, addrSpace_eq]; decide) (by decide +kernel)
  obtain ⟨h', q, hq⟩ := realloc_preserves (p := 0xffff800001000020) (n := 1000) h₂
    (by decide +kernel) (by decide) (by rw [addrSpace_eq]; decide)
  exact ⟨_, h', q, by decide +kernel, hq⟩

end ChocoOs.Heap
