import ChocoOs.Pmm.Operations
import Mathlib.Logic.Basic

/-!
# The bitmap after initialisation

A page is free exactly if it lies in usable memory, holds no byte of the bitmap and is not
page 0.
-/

namespace ChocoOs.Pmm
open ProgLib

/-- What the bootloader promises of an entry: usable memory consists of whole pages below
    `2 ^ 64`. -/
def MemmapEntry.Ok (e : MemmapEntry) : Prop :=
  e.base < addrSpace ∧ e.length < addrSpace ∧
    (e.type = memmapUsable →
      e.base % pageSize = 0 ∧ e.length % pageSize = 0 ∧ e.base + e.length < addrSpace)

/-- Page `i` lies in the entry. -/
def MemmapEntry.HasPage (e : MemmapEntry) (i : Nat) : Prop :=
  e.base ≤ i * pageSize ∧ (i + 1) * pageSize ≤ e.base + e.length

/-- Page `i` holds a byte of the bitmap. -/
def HoldsBitmap (p : Allocator) (i : Nat) : Prop :=
  ∃ k < p.bitmapSize, (bitmapPhys p + k) / pageSize = i

/-- The pages that are free to begin with. -/
def InitiallyFree (mmap : List MemmapEntry) (p : Allocator) (i : Nat) : Prop :=
  i ≠ 0 ∧ (∃ e ∈ mmap, e.type = memmapUsable ∧ e.HasPage i) ∧ ¬ HoldsBitmap p i

/-- `p'` is `p` with other memory, whose bits are given by `f`. -/
structure Marked (p p' : Allocator) (f : Nat → Bool) : Prop where
  same : p' = { p with mem := p'.mem }
  bits : ∀ j < addrSpace, bitmapTest p' j = f j

theorem marked_bitmapSet (p : Allocator) {i : Nat} (hi : i < addrSpace) :
    Marked p (bitmapSet p i) fun j => decide (j = i) || bitmapTest p j :=
  ⟨rfl, fun _ hj => testBit_setBit hi hj⟩

theorem marked_bitmapClear (p : Allocator) {i : Nat} (hi : i < addrSpace) :
    Marked p (bitmapClear p i) fun j => decide (j ≠ i) && bitmapTest p j :=
  ⟨rfl, fun _ hj => testBit_clearBit hi hj⟩

/-- A loop over the pages from `addr` to `stop` marks these pages. -/
theorem markPages_spec (mark : Allocator → Nat → Allocator) {v : Bool} {p : Allocator}
    (addr stop : Nat)
    (hmark : ∀ q i, i < addrSpace →
      Marked q (mark q i) fun j => if j = i then v else bitmapTest q j)
    (haddr : addr % pageSize = 0) (hstop : stop + pageSize ≤ addrSpace) :
    ∃ p', markPages mark addr stop p = some p' ∧ Marked p p' fun j =>
      if addr ≤ j * pageSize ∧ j * pageSize < stop then v else bitmapTest p j := by
  have hpos := addrSpace_pos
  simp only [pageSize] at haddr hstop
  by_cases hempty : stop ≤ addr
  · refine ⟨p, ?_, rfl, fun j hj => ?_⟩
    · obtain ⟨n, hn⟩ : ∃ n, addrSpace = n + 1 := ⟨addrSpace - 1, by omega⟩
      rw [markPages, hn]
      exact loop_of_done (by simp only [pageRound, if_neg (Nat.not_lt.mpr hempty)])
    · rw [if_neg (by omega)]
  refine loop_total (pageRound mark stop)
    (fun s => Marked p s.1 (fun j =>
        if addr ≤ j * pageSize ∧ j * pageSize < s.2 then v else bitmapTest p j) ∧
      s.2 % 4096 = 0 ∧ addr ≤ s.2 ∧ s.2 < stop + 4096)
    (fun p' => Marked p p' fun j =>
      if addr ≤ j * pageSize ∧ j * pageSize < stop then v else bitmapTest p j)
    (fun s => stop - s.2) ?_ addrSpace (p, addr) ?_ ?_
  · rintro ⟨q, a⟩ ⟨⟨hq, hbits⟩, ha, hle, hlt⟩
    simp only at hq hbits ha hle hlt
    by_cases hnext : a < stop
    · right
      refine ⟨(mark q (a / pageSize), add64 a pageSize),
        by simp only [pageRound, if_pos hnext], ⟨⟨?_, fun j hj => ?_⟩, ?_, ?_, ?_⟩, ?_⟩
      all_goals simp only [pageSize, add64_of_lt (show a + 4096 < addrSpace by omega)]
      · rw [(hmark q (a / 4096) (by omega)).same, hq]
      · rw [(hmark q (a / 4096) (by omega)).bits j hj, hbits j hj]
        by_cases hja : j = a / 4096
        · rw [if_pos hja, if_pos (by omega)]
        · rw [if_neg hja]
          exact if_congr (by simp only [pageSize]; omega) rfl rfl
      all_goals omega
    · left
      refine ⟨q, by simp only [pageRound, if_neg hnext], hq, fun j hj => ?_⟩
      rw [hbits j hj]
      exact if_congr (by simp only [pageSize]; omega) rfl rfl
  · refine ⟨⟨rfl, fun j hj => ?_⟩, haddr, Nat.le_refl _, by simp only; omega⟩
    rw [if_neg (by omega)]
  · simp only
    omega

/-! ## The passes of `pmm_init` -/

/-- Marking pass after marking pass. -/
theorem Marked.trans {p q r : Allocator} {f g : Nat → Bool} (h₁ : Marked p q f) (h₂ : Marked q r g) :
    Marked p r g :=
  ⟨by rw [h₂.same, h₁.same], h₂.bits⟩

/-- The pass that frees the usable entries. -/
theorem freeEntries_spec {p : Allocator} {mmap : List MemmapEntry} (hok : ∀ e ∈ mmap, e.Ok) :
    ∃ p', mmap.foldlM freeEntry p = some p' ∧ p' = { p with mem := p'.mem } ∧
      ∀ j < addrSpace, bitmapTest p' j = false ↔
        (∃ e ∈ mmap, e.type = memmapUsable ∧ e.HasPage j) ∨ bitmapTest p j = false := by
  induction mmap generalizing p with
  | nil => exact ⟨p, rfl, rfl, fun j _ => by simp⟩
  | cons e mmap ih =>
    have ih := fun q => ih (p := q) fun x hx => hok x (by simp [hx])
    by_cases hty : e.type = memmapUsable
    · obtain ⟨-, -, huse⟩ := hok e (by simp)
      obtain ⟨hb, hl, hlt⟩ := huse hty
      have haddr := addrSpace_eq
      simp only [pageSize] at hb hl
      obtain ⟨q, hq, hqm⟩ := markPages_spec bitmapClear (v := false) (p := p)
        e.base (e.base + e.length)
        (fun q i hi => ⟨rfl, fun j hj => by
          rw [(marked_bitmapClear q hi).bits j hj]
          by_cases hji : j = i <;> simp [hji]⟩)
        (by simpa [pageSize] using hb) (by simp only [pageSize]; omega)
      obtain ⟨p', hp', hsame, hbits⟩ := ih q
      refine ⟨p', ?_, by rw [hsame, hqm.same], fun j hj => ?_⟩
      · rw [List.foldlM_cons, freeEntry, if_pos hty, add64_of_lt hlt, hq]
        exact hp'
      · rw [hbits j hj, hqm.bits j hj]
        have hpage : e.HasPage j ↔ e.base ≤ j * pageSize ∧ j * pageSize < e.base + e.length := by
          simp only [MemmapEntry.HasPage, pageSize]
          omega
        by_cases hin : e.HasPage j
        · rw [if_pos (hpage.mp hin)]
          simp [hty, hin]
        · rw [if_neg fun h => hin (hpage.mpr h)]
          simp [hty, hin]
    · obtain ⟨p', hp', hsame, hbits⟩ := ih p
      refine ⟨p', ?_, hsame, fun j hj => ?_⟩
      · rw [List.foldlM_cons, freeEntry, if_neg hty]
        exact hp'
      · rw [hbits j hj]
        simp [hty]

theorem le_foldl_raiseTop (l : List MemmapEntry) (a : Nat) : a ≤ l.foldl raiseTop a := by
  induction l generalizing a with
  | nil => exact Nat.le_refl _
  | cons x l ih =>
    refine Nat.le_trans ?_ (ih (raiseTop a x))
    simp only [raiseTop]
    split
    · next h => exact Nat.le_of_lt h.2
    · exact Nat.le_refl _

/-- The bound of the first loop counts every usable entry. -/
theorem le_highestAddr {mmap : List MemmapEntry} {e : MemmapEntry} (he : e ∈ mmap)
    (hty : e.type = memmapUsable) : add64 e.base e.length ≤ highestAddr mmap := by
  obtain ⟨l, r, rfl⟩ := List.append_of_mem he
  rw [highestAddr, List.foldl_append, List.foldl_cons]
  refine Nat.le_trans ?_ (le_foldl_raiseTop r _)
  simp only [raiseTop]
  split
  · exact Nat.le_refl _
  · next h => simpa [MemmapEntry.counted, hty] using h

theorem foldl_raiseTop_lt (l : List MemmapEntry) {a : Nat} (ha : a < addrSpace) :
    l.foldl raiseTop a < addrSpace := by
  induction l generalizing a with
  | nil => exact ha
  | cons x l ih =>
    refine ih ?_
    simp only [raiseTop]
    split
    · exact add64_lt _ _
    · exact ha

theorem bitmapBytes_spec (pages : Nat) :
    pages ≤ 8 * bitmapBytes pages ∧ bitmapBytes pages ≤ pages / 8 + 1 := by
  simp only [bitmapBytes]
  split <;> omega

/-- Where the bitmap lies. -/
structure Placed (p : Allocator) : Prop where
  pages : p.highestPage * pageSize < addrSpace
  covers : p.highestPage ≤ 8 * p.bitmapSize
  hhdm_lt : p.hhdmOffset < addrSpace
  bitmap_eq : p.bitmap = add64 (bitmapPhys p) p.hhdmOffset
  bitmap_lt : bitmapPhys p + p.bitmapSize < addrSpace

theorem Placed.congr {p p' : Allocator} (h : Placed p) (same : p' = { p with mem := p'.mem }) :
    Placed p' := by
  rw [same]
  exact ⟨h.pages, h.covers, h.hhdm_lt, h.bitmap_eq, h.bitmap_lt⟩

theorem sub64_add64 {a b : Nat} (ha : a < addrSpace) (hb : b < addrSpace) :
    sub64 (add64 a b) b = a := by
  simp only [sub64, add64, addrSpace_eq] at *
  omega

theorem holdsBitmap_iff {p : Allocator} (halign : bitmapPhys p % pageSize = 0) (i : Nat) :
    HoldsBitmap p i ↔ bitmapPhys p ≤ i * pageSize ∧ i * pageSize < bitmapPhys p + p.bitmapSize := by
  simp only [HoldsBitmap, pageSize] at *
  constructor
  · rintro ⟨k, hk, rfl⟩
    omega
  · rintro ⟨hlo, hhi⟩
    exact ⟨i * 4096 - bitmapPhys p, by omega, by omega⟩

/-- The last passes, over a bitmap that has been placed at the start of usable memory. -/
theorem initBitmap_spec {p : Allocator} {mmap : List MemmapEntry} (hok : ∀ e ∈ mmap, e.Ok)
    (hp : Placed p) (halign : bitmapPhys p % pageSize = 0)
    (hstop : bitmapPhys p + p.bitmapSize + pageSize ≤ addrSpace) :
    ∃ p', initBitmap p mmap = some p' ∧ p' = { p with mem := p'.mem } ∧
      ∀ j < p.highestPage, bitmapTest p' j = false ↔ InitiallyFree mmap p j := by
  have hpages := hp.pages
  have hcovers := hp.covers
  have hpos := addrSpace_pos
  obtain ⟨p₂, h₂, hsame₂, hbits₂⟩ := freeEntries_spec hok
    (p := { p with mem := fillBytes p.mem p.bitmap 0xFF p.bitmapSize })
  have hphys : bitmapPhys p₂ = bitmapPhys p := by rw [hsame₂]; rfl
  have hsize : p₂.bitmapSize = p.bitmapSize := by rw [hsame₂]
  obtain ⟨p₃, h₃, hm₃⟩ := markPages_spec bitmapSet (v := true) (p := p₂)
    (bitmapPhys p) (bitmapPhys p + p.bitmapSize)
    (fun q i hi => ⟨rfl, fun j hj => by
      rw [(marked_bitmapSet q hi).bits j hj]
      by_cases hji : j = i <;> simp [hji]⟩) halign hstop
  refine ⟨bitmapSet p₃ 0, ?_, ?_, fun j hj => ?_⟩
  · rw [initBitmap, h₂, Option.bind_eq_bind, Option.bind_some, hphys, hsize,
      add64_of_lt hp.bitmap_lt, h₃]
    rfl
  · rw [bitmapSet, hm₃.same, hsame₂]
  · simp only [pageSize] at hpages
    have hjlt : j < addrSpace := by omega
    have hfill : bitmapTest { p with mem := fillBytes p.mem p.bitmap 0xFF p.bitmapSize } j = true :=
      testBit_fillBytes (by have := hp.bitmap_lt; omega) (by omega)
    have hholds := holdsBitmap_iff halign j
    rw [(marked_bitmapSet p₃ hpos).bits j hjlt, hm₃.bits j hjlt]
    by_cases h0 : j = 0
    · simp [h0, InitiallyFree]
    · by_cases hb : HoldsBitmap p j
      · rw [if_pos (hholds.mp hb)]
        simp [h0, InitiallyFree, hb]
      · rw [if_neg fun h => hb (hholds.mpr h), InitiallyFree]
        simp [h0, hb, hbits₂ j hjlt, hfill]
/-- `pmm_init` ends, and if it finds a place for the bitmap then the free pages are exactly the
    ones they should be. -/
theorem pmmInit_spec {p : Allocator} {mmap : List MemmapEntry} {hhdm : Nat} (h0 : p.bitmap = 0)
    (hok : ∀ e ∈ mmap, e.Ok) (hhdm_lt : hhdm < addrSpace) :
    ∃ p', pmmInit p (some mmap) (some hhdm) = some p' ∧ (p'.bitmap ≠ 0 → Placed p' ∧
      ∀ j < p'.highestPage, bitmapTest p' j = false ↔ InitiallyFree mmap p' j) := by
  obtain ⟨pages, hpages⟩ : ∃ n, highestAddr mmap / pageSize = n := ⟨_, rfl⟩
  have htop := foldl_raiseTop_lt mmap addrSpace_pos
  rw [← highestAddr] at htop
  obtain ⟨hcovers, -⟩ := bitmapBytes_spec pages
  simp only [pmmInit, hpages, findBitmap]
  cases hfind : mmap.find? fun e => e.type == memmapUsable && decide (e.length ≥ bitmapBytes pages)
    with
  | none => exact ⟨_, if_pos h0, fun hne => absurd h0 hne⟩
  | some e =>
    by_cases hz : add64 e.base hhdm = 0
    · exact ⟨_, if_pos hz, fun hne => absurd hz hne⟩
    obtain ⟨hty, hlen⟩ : e.type = memmapUsable ∧ bitmapBytes pages ≤ e.length := by
      simpa using List.find?_some hfind
    obtain ⟨hb, -, huse⟩ := hok e (List.mem_of_find?_eq_some hfind)
    obtain ⟨hbase, hlength, hlt⟩ := huse hty
    have hphys : sub64 (add64 e.base hhdm) hhdm = e.base := sub64_add64 hb hhdm_lt
    have haddr := addrSpace_eq
    simp only [pageSize] at hpages hbase hlength
    have hp : Placed ⟨p.mem, add64 e.base hhdm, bitmapBytes pages, pages, hhdm⟩ :=
      ⟨by simp only [pageSize]; omega, hcovers, hhdm_lt, by simp only [bitmapPhys, hphys],
        by simp only [bitmapPhys, hphys]; omega⟩
    obtain ⟨p', hp', hsame, hbits⟩ := initBitmap_spec hok hp
      (by simpa only [bitmapPhys, hphys, pageSize] using hbase)
      (by simp only [bitmapPhys, hphys, pageSize]; omega)
    refine ⟨p', (if_neg hz).trans hp', fun _ => ⟨hp.congr hsame, fun j hj => ?_⟩⟩
    rw [hsame] at hj
    rw [hbits j hj, hsame]
    rfl

end ChocoOs.Pmm
