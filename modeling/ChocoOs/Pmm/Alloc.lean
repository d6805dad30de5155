import ChocoOs.Pmm.Init

/-!
# What allocation and release do to the bitmap

The scan finds the first run of free pages that is long enough; granting it sets its bits and
zeroes its bytes, which are never bytes of the bitmap.
-/

namespace ChocoOs.Pmm
open ProgLib

/-- The pages from `s` on are a free run. -/
def FreeRun (p : Allocator) (s count : Nat) : Prop :=
  1 ≤ s ∧ s + count ≤ p.highestPage ∧ ∀ i, s ≤ i → i < s + count → bitmapTest p i = false

/-- What the scan knows when it stands at page `i` with a run of `len` pages behind it. -/
structure Scanned (p : Allocator) (count i len start : Nat) : Prop where
  le : i ≤ p.highestPage ∨ i = 1
  len_lt : len < count
  start_eq : len ≠ 0 → start = i - len
  len_le : len + 1 ≤ i
  clear : ∀ k, i - len ≤ k → k < i → bitmapTest p k = false
  bounded : i - len = 1 ∨ bitmapTest p (i - len - 1) = true
  none_before : ∀ s, 1 ≤ s → s + count ≤ i → ∃ k, s ≤ k ∧ k < s + count ∧ bitmapTest p k = true

/-- The scan goes past a used page. -/
theorem Scanned.used {p : Allocator} {count i len start : Nat} (h : Scanned p count i len start)
    (hi : i < p.highestPage) (hused : bitmapTest p i = true) :
    Scanned p count (i + 1) 0 start := by
  refine ⟨.inl hi, ?_, fun hne => absurd rfl hne, by omega, fun k hlo hhi => ?_, .inr ?_,
    fun s hs hend => ?_⟩
  · have := h.len_lt
    omega
  · omega
  · exact hused
  · by_cases hsi : s + count ≤ i
    · exact h.none_before s hs hsi
    · have := h.len_lt
      exact ⟨i, by omega, by omega, hused⟩

/-- A free page makes the run longer. -/
theorem Scanned.free {p : Allocator} {count i len start : Nat} (h : Scanned p count i len start)
    (hi : i < p.highestPage) (hfree : bitmapTest p i = false) (hlen : len + 1 < count) :
    Scanned p count (i + 1) (len + 1) (if len = 0 then i else start) := by
  have hle := h.len_le
  refine ⟨.inl hi, hlen, fun _ => ?_, by omega, fun k hlo hhi => ?_, ?_, fun s hs hend => ?_⟩
  · split
    · omega
    · next hne => rw [h.start_eq hne]; omega
  · by_cases hk : k = i
    · exact hk ▸ hfree
    · exact h.clear k (by omega) (by omega)
  · rw [show i + 1 - (len + 1) = i - len by omega]
    exact h.bounded
  · by_cases hsi : s + count ≤ i
    · exact h.none_before s hs hsi
    · rcases h.bounded with hb | hb
      · omega
      · exact ⟨i - len - 1, by omega, by omega, hb⟩

/-- The run is long enough with this page. -/
theorem Scanned.found {p : Allocator} {count i len start : Nat} (h : Scanned p count i len start)
    (hi : i < p.highestPage) (hfree : bitmapTest p i = false) (hlen : len + 1 = count) :
    FreeRun p (if len = 0 then i else start) count ∧
      ∀ s, FreeRun p s count → (if len = 0 then i else start) ≤ s := by
  have hle := h.len_le
  have hstart : (if len = 0 then i else start) = i - len := by
    split
    · omega
    · next hne => exact h.start_eq hne
  rw [hstart]
  refine ⟨⟨by omega, by omega, fun k hlo hhi => ?_⟩, fun s hs => ?_⟩
  · by_cases hk : k = i
    · exact hk ▸ hfree
    · exact h.clear k hlo (by omega)
  · refine Nat.not_lt.mp fun hlt => ?_
    obtain ⟨k, hlo, hhi, hused⟩ := h.none_before s hs.1 (by omega)
    rw [hs.2.2 k hlo hhi] at hused
    cases hused

/-- The scan finds the first free run, or there is none. -/
theorem scan_spec {p : Allocator} {count : Nat} (hcount : count ≠ 0)
    (hpages : p.highestPage < addrSpace) :
    (∃ s, loop (scanRound p count) addrSpace (1, 0, 0) = some (some s) ∧ FreeRun p s count ∧
      ∀ s', FreeRun p s' count → s ≤ s') ∨
    (loop (scanRound p count) addrSpace (1, 0, 0) = some none ∧ ∀ s, ¬ FreeRun p s count) := by
  have hloop := loop_total (scanRound p count)
    (fun x => Scanned p count x.1 x.2.1 x.2.2)
    (fun r => r.elim (∀ s, ¬ FreeRun p s count)
      fun s => FreeRun p s count ∧ ∀ s', FreeRun p s' count → s ≤ s')
    (fun x => p.highestPage - x.1) ?_ addrSpace (1, 0, 0)
    ⟨.inr rfl, Nat.pos_of_ne_zero hcount, fun hne => absurd rfl hne, Nat.le_refl _,
      fun k hlo hhi => by simp only at *; omega, .inl rfl, fun s hs hend => by simp only at *; omega⟩
    (by simp only; omega)
  · obtain ⟨r, hr, hq⟩ := hloop
    cases r with
    | some s => exact .inl ⟨s, hr, hq⟩
    | none => exact .inr ⟨hr, hq⟩
  · rintro ⟨i, len, start⟩ h
    simp only at h
    by_cases hi : i < p.highestPage
    · have hnext : add64 i 1 = i + 1 := add64_of_lt (by omega)
      by_cases hfree : bitmapTest p i = false
      · have hlen : add64 len 1 = len + 1 := add64_of_lt (by have := h.len_le; omega)
        by_cases hend : len + 1 = count
        · left
          exact ⟨some (if len = 0 then i else start), by
            simp only [scanRound, if_pos hi, if_pos hfree, hlen, if_pos hend],
            h.found hi hfree hend⟩
        · right
          have := h.len_lt
          exact ⟨(i + 1, len + 1, if len = 0 then i else start),
            by simp only [scanRound, if_pos hi, if_pos hfree, hlen, hnext, if_neg hend],
            h.free hi hfree (by omega), by simp only; omega⟩
      · right
        exact ⟨(i + 1, 0, start), by simp only [scanRound, if_pos hi, if_neg hfree, hnext],
          h.used hi (by simpa using hfree), by simp only; omega⟩
    · left
      refine ⟨none, by simp only [scanRound, if_neg hi], fun s hs => ?_⟩
      obtain ⟨hs, hend, hclear⟩ := hs
      obtain ⟨k, hlo, hhi, hused⟩ := h.none_before s hs (by omega)
      rw [hclear k hlo hhi] at hused
      cases hused

/-- `pmm_alloc_pages` grants the first free run, or changes nothing if there is none. -/
theorem pmmAllocPages_spec {p : Allocator} (count : Nat) (hpages : p.highestPage < addrSpace) :
    (∃ s, pmmAllocPages p count = some (grant p s count, mul64 s pageSize) ∧ count ≠ 0 ∧
      FreeRun p s count ∧ ∀ s', FreeRun p s' count → s ≤ s') ∨
    (pmmAllocPages p count = some (p, 0) ∧ (count = 0 ∨ ∀ s, ¬ FreeRun p s count)) := by
  by_cases hcount : count = 0
  · exact .inr ⟨by rw [pmmAllocPages, if_pos hcount], .inl hcount⟩
  · rcases scan_spec hcount hpages with ⟨s, hs, hrun, hfirst⟩ | ⟨hs, hnone⟩
    · exact .inl ⟨s, by rw [pmmAllocPages, if_neg hcount, hs]; rfl, hcount, hrun, hfirst⟩
    · exact .inr ⟨by rw [pmmAllocPages, if_neg hcount, hs]; rfl, .inr hnone⟩

/-! ## The bits -/

/-- The run keeps clear of the bitmap. -/
def AvoidsBitmap (p : Allocator) (s count : Nat) : Prop :=
  ∀ i, s ≤ i → i < s + count → ¬ HoldsBitmap p i

theorem Placed.mul_pageSize {p : Allocator} (hp : Placed p) {n : Nat} (hn : n ≤ p.highestPage) :
    mul64 n pageSize = n * pageSize ∧ mul64 pageSize n = pageSize * n := by
  have h : n * pageSize < addrSpace := Nat.lt_of_le_of_lt (Nat.mul_le_mul_right _ hn) hp.pages
  exact ⟨mul64_of_lt h, mul64_of_lt (Nat.mul_comm n _ ▸ h)⟩

/-- Zeroing a run leaves the bytes of the bitmap alone. -/
theorem grant_bitmap_byte {p : Allocator} {s count k : Nat} (hp : Placed p)
    (hend : s + count ≤ p.highestPage) (havoid : AvoidsBitmap p s count) (hk : k < p.bitmapSize) :
    (grant p s count).mem (add64 p.bitmap k) = setRun p.mem p.bitmap s count (add64 p.bitmap k) := by
  have hpages := hp.pages
  have hlt := hp.bitmap_lt
  have hhdm := hp.hhdm_lt
  have hout : ¬ (s * 4096 ≤ bitmapPhys p + k ∧ bitmapPhys p + k < (s + count) * 4096) := by
    intro hin
    exact havoid ((bitmapPhys p + k) / 4096) (by omega) (by omega) ⟨k, hk, rfl⟩
  have hs := (hp.mul_pageSize (n := s) (by omega)).1
  have hc := (hp.mul_pageSize (n := count) (by omega)).2
  simp only [pageSize] at hpages hs hc
  have hfar : ¬ sub64 (add64 p.bitmap k) (add64 (s * 4096) p.hhdmOffset) < 8 * (4096 * count / 8) := by
    rw [hp.bitmap_eq]
    simp only [sub64, add64, addrSpace_eq] at *
    omega
  simp only [grant, pageSize, hs, hc]
  rw [zeroWords_apply (add64_lt _ _) (by omega) (add64_lt _ _), if_neg hfar]

/-- Granting a run sets its bits and no others. -/
theorem bitmapTest_grant {p : Allocator} {s count j : Nat} (hp : Placed p)
    (hend : s + count ≤ p.highestPage) (havoid : AvoidsBitmap p s count)
    (hj : j < p.highestPage) :
    bitmapTest (grant p s count) j = (decide (s ≤ j ∧ j < s + count) || bitmapTest p j) := by
  have hpages := hp.pages
  have hcovers := hp.covers
  simp only [pageSize] at hpages
  refine Eq.trans (testBit_congr (m := setRun p.mem p.bitmap s count) ?_)
    (testBit_setRun (by omega) (by omega))
  exact grant_bitmap_byte hp hend havoid (by omega)

/-- Releasing a run clears its bits and no others. -/
theorem bitmapTest_free {p : Allocator} {s count j : Nat} (hp : Placed p)
    (hend : s + count ≤ p.highestPage) (hj : j < p.highestPage) :
    bitmapTest (pmmFreePages p (s * pageSize) count) j
      = (decide (¬ (s ≤ j ∧ j < s + count)) && bitmapTest p j) := by
  have hpages := hp.pages
  simp only [pageSize] at *
  have hdiv : s * 4096 / 4096 = s := Nat.mul_div_cancel s (by decide)
  rw [pmmFreePages, if_neg (by simp only [pageSize]; omega)]
  simp only [bitmapTest, pageSize, hdiv]
  exact testBit_clearRun (by omega) (by omega)

theorem free_same (p : Allocator) (page count : Nat) :
    pmmFreePages p page count = { p with mem := (pmmFreePages p page count).mem } := by
  rw [pmmFreePages]
  split <;> rfl

end ChocoOs.Pmm
