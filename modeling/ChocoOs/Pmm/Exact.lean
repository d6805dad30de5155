import ChocoOs.Pmm.Run

/-!
# What an allocation does to memory

Whatever the bitmap says, `pmm_alloc_pages` sets the bits of the first free run and then zeroes the
bytes of its pages, and nothing else.
-/

namespace ChocoOs.Pmm
open ProgLib

/-- Exactly the bits of the run have been set, and only their bytes written. -/
structure RunSet (p : Allocator) (s count : Nat) (m : Mem) : Prop where
  bits : ∀ j < addrSpace,
    testBit m p.bitmap j = (decide (s ≤ j ∧ j < s + count) || bitmapTest p j)
  others : ∀ x, (∀ i, s ≤ i → i < s + count → x ≠ add64 p.bitmap (i / 8)) → m x = p.mem x

/-- The address, in the direct map, of a byte of the run's pages. -/
def InPages (p : Allocator) (s count x : Nat) : Prop :=
  ∃ a, s * pageSize ≤ a ∧ a < (s + count) * pageSize ∧ x = add64 a p.hhdmOffset

theorem setRun_others {m : Mem} {base s n x : Nat} (hn : s + n ≤ addrSpace)
    (hx : ∀ i, s ≤ i → i < s + n → x ≠ add64 base (i / 8)) : setRun m base s n x = m x := by
  induction n with
  | zero => rfl
  | succ n ih =>
    rw [setRun, add64_of_lt (by omega), setBit, store8_ne (hx (s + n) (by omega) (by omega))]
    exact ih (by omega) fun i hlo hhi => hx i hlo (by omega)

section grant

variable {p : Allocator} {s count : Nat}

theorem runSet_setRun (hend : s + count ≤ addrSpace) :
    RunSet p s count (setRun p.mem p.bitmap s count) :=
  ⟨fun _ hj => testBit_setRun hend hj, fun _ hx => setRun_others hend hx⟩

/-- The words that are zeroed are those of the run's pages. -/
theorem grant_mem (hpages : p.highestPage * pageSize ≤ addrSpace)
    (hs : 1 ≤ s) (hcount : count ≠ 0) (hend : s + count ≤ p.highestPage) {x : Nat}
    (hx : x < addrSpace) :
    (InPages p s count x → (grant p s count).mem x = 0) ∧
      (¬ InPages p s count x → (grant p s count).mem x = setRun p.mem p.bitmap s count x) := by
  simp only [pageSize] at hpages
  have hstart : mul64 s pageSize = s * 4096 :=
    mul64_of_lt (show s * 4096 < addrSpace by omega)
  have hbytes : mul64 pageSize count = 4096 * count :=
    mul64_of_lt (show 4096 * count < addrSpace by omega)
  have hmem : (grant p s count).mem x =
      if sub64 x (add64 (s * 4096) p.hhdmOffset) < 8 * (4096 * count / 8) then 0
      else setRun p.mem p.bitmap s count x := by
    simp only [grant, hstart, hbytes]
    exact zeroWords_apply (add64_lt _ _) (by omega) hx
  have hiff : InPages p s count x ↔
      sub64 x (add64 (s * 4096) p.hhdmOffset) < 8 * (4096 * count / 8) := by
    simp only [InPages, pageSize]
    constructor
    · rintro ⟨a, hlo, hhi, rfl⟩
      simp only [sub64, add64, addrSpace_eq] at *
      omega
    · intro hlt
      have hback : x = add64 (s * 4096 + sub64 x (add64 (s * 4096) p.hhdmOffset)) p.hhdmOffset := by
        simp only [sub64, add64, addrSpace_eq] at *
        omega
      generalize sub64 x (add64 (s * 4096) p.hhdmOffset) = d at hlt hback
      have hd : d < 4096 * count := Nat.lt_of_lt_of_le hlt (Nat.mul_div_le ..)
      have hlast : s * 4096 + d < (s + count) * 4096 := by
        clear hback
        omega
      exact ⟨s * 4096 + d, Nat.le_add_right .., hlast, hback⟩
  rw [hmem, hiff]
  exact ⟨fun h => if_pos h, fun h => if_neg h⟩

end grant

/-- In a run of the allocator the pages that hold the bitmap are marked as used. -/
theorem SysInv.bitmap_used {free : Nat → Prop} {pages : Nat} {s : Sys} (h : SysInv free pages s)
    {i : Nat} (hi : i < pages) (hholds : HoldsBitmap s.p i) : bitmapTest s.p i = true := by
  by_contra hfree
  exact h.avoids i ((h.safe.bits i hi).mp (Bool.eq_false_iff.mpr hfree)).1 hholds

/-- `pmm_alloc_pages` on every bitmap: it finds the first free run, sets its bits and then zeroes its
    pages, or there is none and nothing changes. Where the pages of the bitmap are marked as used,
    the bits stay as they have been set. -/
theorem pmmAllocPages_exact {p : Allocator} (count : Nat)
    (hpages : p.highestPage * pageSize ≤ addrSpace) : ∃ p' page, pmmAllocPages p count = some (p', page) ∧
      (page = 0 ↔ count = 0 ∨ ∀ s, ¬ FreeRun p s count) ∧ (page = 0 → p' = p) ∧
      (page ≠ 0 → ∃ s m, FreeRun p s count ∧ (∀ s', FreeRun p s' count → s ≤ s') ∧
        page = s * pageSize ∧ p' = { p with mem := p'.mem } ∧ RunSet p s count m ∧
        (∀ x < addrSpace, (InPages p s count x → p'.mem x = 0) ∧
          (¬ InPages p s count x → p'.mem x = m x)) ∧
        (Placed p → (∀ i < p.highestPage, HoldsBitmap p i → bitmapTest p i = true) →
          ∀ j < p.highestPage,
            bitmapTest p' j = (decide (s ≤ j ∧ j < s + count) || bitmapTest p j))) := by
  have hlt : p.highestPage < addrSpace := by
    have := addrSpace_pos
    simp only [pageSize] at hpages
    omega
  rcases pmmAllocPages_spec count hlt with ⟨s, halloc, hcount, hrun, hfirst⟩ | ⟨halloc, hnone⟩
  · obtain ⟨hs, hend, hclear⟩ := hrun
    have hpage : mul64 s pageSize = s * pageSize := by
      refine mul64_of_lt (Nat.lt_of_lt_of_le ?_ hpages)
      exact Nat.mul_lt_mul_of_pos_right (by omega) (by decide)
    have hne : s * pageSize ≠ 0 := Nat.mul_ne_zero (by omega) (by decide)
    rw [hpage] at halloc
    refine ⟨_, _, halloc, ⟨fun h0 => absurd h0 hne, fun h0 => ?_⟩, fun h0 => absurd h0 hne, fun _ =>
      ⟨s, _, ⟨hs, hend, hclear⟩, hfirst, rfl, rfl, runSet_setRun (by omega), fun x hx =>
        grant_mem hpages hs hcount hend hx, fun hplaced hused j hj => ?_⟩⟩
    · rcases h0 with h0 | hnone
      · exact absurd h0 hcount
      · exact absurd ⟨hs, hend, hclear⟩ (hnone s)
    · refine bitmapTest_grant hplaced hend (fun i hlo hhi hholds => ?_) hj
      have hbit := hused i (by omega) hholds
      rw [hclear i hlo hhi] at hbit
      cases hbit
  · exact ⟨p, 0, halloc, ⟨fun _ => hnone, fun _ => rfl⟩, fun _ => rfl, fun h0 => absurd rfl h0⟩

/-- Five pages, of which the last two are free. -/
theorem pmmAllocPages_exact_last : ∃ p',
    pmmAllocPages ⟨fun _ => 0x07, 0x100, 1, 5, 0⟩ 2 = some (p', 3 * pageSize) ∧
    (∀ s, FreeRun ⟨fun _ => 0x07, 0x100, 1, 5, 0⟩ s 2 → 3 ≤ s) ∧
    ∀ x < addrSpace, InPages ⟨fun _ => 0x07, 0x100, 1, 5, 0⟩ 3 2 x → p'.mem x = 0 := by
  obtain ⟨p', page, halloc, -, -, hdone⟩ :=
    pmmAllocPages_exact (p := ⟨fun _ => 0x07, 0x100, 1, 5, 0⟩) 2 (by rw [addrSpace_eq]; decide)
  have hpage : (pmmAllocPages ⟨fun _ => 0x07, 0x100, 1, 5, 0⟩ 2).map Prod.snd =
      some (3 * pageSize) := by decide +kernel
  rw [halloc] at hpage
  obtain rfl : page = 3 * pageSize := Option.some.inj hpage
  obtain ⟨s, m, -, hfirst, hs, -, -, hmem, -⟩ := hdone (by decide)
  obtain rfl : s = 3 := (Nat.eq_of_mul_eq_mul_right (by decide) hs).symm
  exact ⟨p', halloc, hfirst, fun x hx => (hmem x hx).1⟩

end ChocoOs.Pmm
