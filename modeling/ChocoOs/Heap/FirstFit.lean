import ChocoOs.Heap.Coalesced

/-!
# First fit over uncovered ranges

The list search of `malloc` against the addresses that no live block covers. A maximal uncovered
range is one free block, so a request fails only if no range is long enough, and is answered from
the lowest one that is.
-/

namespace ChocoOs.Heap
open ProgLib

/-- An address in the header or the payload of a live block. -/
def Covered (s : Sys) (x : Nat) : Prop :=
  ∃ p ∈ s.live, p - hdrSize ≤ x ∧ x < p + blockSize s.heap.mem (p - hdrSize)

/-- A maximal range of the region that no live block covers. -/
structure Gap (base total : Nat) (s : Sys) (lo hi : Nat) : Prop where
  lt : lo < hi
  base_le : base ≤ lo
  le_end : hi ≤ base + total
  uncovered : ∀ x, lo ≤ x → x < hi → ¬ Covered s x
  left : lo = base ∨ Covered s (lo - 1)
  right : hi = base + total ∨ Covered s hi

section gap

variable {base total : Nat} {s : Sys} {ss : List Seg}

theorem covered_iff (hinv : Inv base total s.heap ss) (hlive : s.live.Perm (livePayloads ss))
    {x : Nat} : Covered s x ↔ ∃ t ∈ ss, t.free = false ∧ t.addr ≤ x ∧ x < t.addr + t.extent := by
  have hblock : ∀ t ∈ ss, t.payload - hdrSize = t.addr ∧
      t.payload + blockSize s.heap.mem (t.payload - hdrSize) = t.addr + t.extent := fun t ht => by
    have hsub : t.payload - hdrSize = t.addr := Nat.add_sub_cancel ..
    rw [hsub, (hinv.holds.fields t ht).1, Seg.payload, Seg.extent]
    omega
  constructor
  · rintro ⟨p, hp, hlo, hhi⟩
    obtain ⟨t, ht, hused, rfl⟩ := mem_livePayloads.mp (hlive.mem_iff.mp hp)
    obtain ⟨hsub, hend⟩ := hblock t ht
    rw [hsub] at hlo
    rw [hend] at hhi
    exact ⟨t, ht, hused, hlo, hhi⟩
  · rintro ⟨t, ht, hused, hlo, hhi⟩
    obtain ⟨hsub, hend⟩ := hblock t ht
    refine ⟨t.payload, hlive.mem_iff.mpr (mem_livePayloads.mpr ⟨t, ht, hused, rfl⟩), ?_, ?_⟩
    · rw [hsub]
      exact hlo
    · rw [hend]
      exact hhi

/-- A free segment is a maximal uncovered range. -/
theorem gap_of_free (hinv : Inv base total s.heap ss) (hlive : s.live.Perm (livePayloads ss))
    (hcoal : Coalesced ss) {t : Seg} (ht : t ∈ ss) (hfree : t.free = true) :
    Gap base total s t.addr (t.addr + t.extent) := by
  have htiles := hinv.shape.tiles
  obtain ⟨hlo, hhi⟩ := htiles.mem_bounds t ht
  have hpos : ∀ u : Seg, 0 < u.extent := fun u => by
    simp only [Seg.extent, hdrSize]
    omega
  refine ⟨Nat.lt_add_of_pos_right (hpos t), hlo, hhi, fun x hx hxt hcov => ?_, ?_, ?_⟩
  · obtain ⟨u, hu, hused, hux⟩ := (covered_iff hinv hlive).mp hcov
    rw [htiles.mem_unique ht hu ⟨hx, hxt⟩ hux, hused] at hfree
    cases hfree
  · obtain ⟨pre, post, rfl⟩ := List.append_of_mem ht
    rcases htiles.left with ⟨-, hbase⟩ | ⟨pre, q, rfl, hq⟩
    · exact .inl hbase
    · rw [List.append_assoc] at hcoal
      have hpair := (List.isChain_cons_cons.mp (List.isChain_split.mp hcoal).2).1
      have hused := hpair.resolve_right (by rw [hfree]; exact Bool.noConfusion)
      have := hpos q
      exact .inr ((covered_iff hinv hlive).mpr ⟨q, by simp, hused, by omega, by omega⟩)
  · obtain ⟨pre, post, rfl⟩ := List.append_of_mem ht
    rcases htiles.right with ⟨-, hend⟩ | ⟨n, post, rfl, hn⟩
    · exact .inl hend
    · have hpair := (List.isChain_cons_cons.mp (List.isChain_split.mp hcoal).2).1
      have hused := hpair.resolve_left (by rw [hfree]; exact Bool.noConfusion)
      have := hpos n
      exact .inr ((covered_iff hinv hlive).mpr ⟨n, by simp, hused, by omega, by omega⟩)

/-- Every maximal uncovered range is a free segment. -/
theorem Gap.exists_free (hinv : Inv base total s.heap ss) (hlive : s.live.Perm (livePayloads ss))
    (hcoal : Coalesced ss) {lo hi : Nat} (hgap : Gap base total s lo hi) :
    ∃ t ∈ ss, t.free = true ∧ lo = t.addr ∧ hi = t.addr + t.extent := by
  have htiles := hinv.shape.tiles
  have hlt := hgap.lt
  have hle := hgap.le_end
  obtain ⟨t, ht, hstart, hend⟩ := htiles.exists_mem hgap.base_le (by omega)
  obtain ⟨hlow, hhigh⟩ := htiles.mem_bounds t ht
  have hfree : t.free = true := by
    by_contra hused
    exact hgap.uncovered lo (Nat.le_refl _) hlt ((covered_iff hinv hlive).mpr
      ⟨t, ht, Bool.eq_false_iff.mpr hused, hstart, hend⟩)
  -- a covered address is not one of the segment
  have hnot : ∀ x, Covered s x → ¬ (t.addr ≤ x ∧ x < t.addr + t.extent) := by
    intro x hcov hx
    obtain ⟨u, hu, hused, hux⟩ := (covered_iff hinv hlive).mp hcov
    rw [htiles.mem_unique ht hu hx hux, hused] at hfree
    cases hfree
  have hlo : lo = t.addr := by
    rcases hgap.left with hbase | hcov
    · omega
    · have := hnot _ hcov
      omega
  refine ⟨t, ht, hfree, hlo, Nat.le_antisymm ?_ ?_⟩
  · by_contra hover
    obtain ⟨pre, post, rfl⟩ := List.append_of_mem ht
    rcases htiles.right with ⟨-, hlast⟩ | ⟨n, post, rfl, hn⟩
    · omega
    · have hpair := (List.isChain_cons_cons.mp (List.isChain_split.mp hcoal).2).1
      have hused := hpair.resolve_left (by rw [hfree]; exact Bool.noConfusion)
      have hpos : 0 < n.extent := by
        simp only [Seg.extent, hdrSize]
        omega
      exact hgap.uncovered n.addr (by omega) (by omega) ((covered_iff hinv hlive).mpr
        ⟨n, by simp, hused, Nat.le_refl _, by omega⟩)
  · rcases hgap.right with hlast | hcov
    · omega
    · have := hnot _ hcov
      omega

end gap

/-- `malloc` fails only if every uncovered range is too short, and then changes nothing. Otherwise
    it takes the lowest one that is long enough. -/
theorem malloc_first_fit {base total n : Nat} {s : Sys} (h : Reachable base total s) (hn : 1 ≤ n)
    (hle : n ≤ addrSpace - 16) : ∃ h' p, malloc s.heap n = some (h', p) ∧
    (p = 0 ↔ ∀ lo hi, Gap base total s lo hi → hi - lo < hdrSize + (n + 15) / 16 * 16) ∧
    (p = 0 → h' = s.heap) ∧
    (p ≠ 0 → ∃ lo hi, Gap base total s lo hi ∧ hdrSize + (n + 15) / 16 * 16 ≤ hi - lo ∧
      p = lo + hdrSize ∧ ∀ lo' hi', Gap base total s lo' hi' →
        hdrSize + (n + 15) / 16 * 16 ≤ hi' - lo' → lo ≤ lo') := by
  obtain ⟨ss, hinv, hlive, hcoal⟩ := reachable_segs h
  have hround : roundUp n = (n + 15) / 16 * 16 := by
    have := addrSpace_eq
    rw [roundUp, add64_of_lt (by simp only [alignment]; omega)]
    rfl
  have hextent : ∀ t : Seg, t.addr + t.extent - t.addr = hdrSize + t.size := fun t =>
    Nat.add_sub_cancel_left ..
  rw [← hround]
  rcases malloc_spec hinv (show n ≠ 0 by omega) with
    ⟨hnone, hm⟩ | ⟨h', pre, t, post, hss, -, -, halloc, hm, -⟩
  · refine ⟨s.heap, 0, hm, ⟨fun _ lo hi hgap => ?_, fun _ => rfl⟩, fun _ => rfl, fun hp => absurd rfl hp⟩
    obtain ⟨t, ht, hfree, rfl, rfl⟩ := hgap.exists_free hinv hlive hcoal
    have := allocSeg_none.mp hnone t ht hfree
    rw [hextent]
    omega
  · have hp : t.payload ≠ 0 := Shape.payload_ne_zero t (by rw [hss]; simp) hinv.shape
    obtain ⟨pre', u, post', hss', -, hpay, hfree, hsize, hpre⟩ := allocSeg_some halloc
    have hu : u ∈ ss := by rw [hss']; simp
    have hgap := gap_of_free hinv hlive hcoal hu hfree
    refine ⟨h', t.payload, hm, ⟨fun h0 => absurd h0 hp, fun hall => ?_⟩, fun h0 => absurd h0 hp,
      fun _ => ⟨u.addr, u.addr + u.extent, hgap, ?_, hpay, fun lo hi hother hlong => ?_⟩⟩
    · have := hall _ _ hgap
      rw [hextent] at this
      omega
    · rw [hextent]
      omega
    · obtain ⟨v, hv, hvfree, rfl, rfl⟩ := hother.exists_free hinv hlive hcoal
      rw [hextent] at hlong
      rw [hss'] at hv
      have hshape := hinv.shape
      rw [hss'] at hshape
      obtain ⟨-, -, -, hpost⟩ := hshape.around
      rw [List.mem_append, List.mem_cons] at hv
      rcases hv with hv | rfl | hv
      · have := hpre v hv hvfree
        omega
      · exact Nat.le_refl _
      · have := hpost v hv
        omega

/-- A first request on a fresh heap. -/
theorem malloc_first_fit_boot : ∃ h' p, malloc bootSys.heap 100 = some (h', p) ∧
    (p = 0 ↔ ∀ lo hi, Gap 0xffff800001000000 805306368 bootSys lo hi →
      hi - lo < hdrSize + (100 + 15) / 16 * 16) ∧
    (p = 0 → h' = bootSys.heap) ∧
    (p ≠ 0 → ∃ lo hi, Gap 0xffff800001000000 805306368 bootSys lo hi ∧
      hdrSize + (100 + 15) / 16 * 16 ≤ hi - lo ∧ p = lo + hdrSize ∧
      ∀ lo' hi', Gap 0xffff800001000000 805306368 bootSys lo' hi' →
        hdrSize + (100 + 15) / 16 * 16 ≤ hi' - lo' → lo ≤ lo') :=
  malloc_first_fit (.init start_bootSys) (by decide) (by rw [addrSpace_eq]; decide)

end ChocoOs.Heap
