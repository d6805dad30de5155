import ChocoOs.Pmm.Alloc
import ChocoOs.Lib.Transition
import ChocoOs.Lib.Arena

/-!
# Runs of the physical page allocator

`pmm_init` and then calls of `pmm_alloc_pages` and `pmm_free_pages`, with the runs that are handed
out recorded beside the allocator. Between the calls memory changes arbitrarily, except for the
bitmap.
-/

namespace ChocoOs.Pmm
open ProgLib

/-- The allocator and the runs in use: physical address and number of pages. -/
structure Sys where
  p : Allocator
  live : List (Nat × Nat)

inductive Op where
  | alloc (count : Nat)
  | free (page count : Nat)
  | write (mem : Mem)

/-- A run is freed once, in whole; nobody else writes the bitmap. -/
def Op.Ok (s : Sys) : Op → Prop
  | .alloc _ => True
  | .free page count => (page, count) ∈ s.live
  | .write mem => ∀ k < s.p.bitmapSize, mem (add64 s.p.bitmap k) = s.p.mem (add64 s.p.bitmap k)

def exec (s : Sys) : Op → Option Sys
  | .alloc count => (pmmAllocPages s.p count).map fun r =>
      ⟨r.1, if r.2 = 0 then s.live else (r.2, count) :: s.live⟩
  | .free page count => some ⟨pmmFreePages s.p page count, s.live.erase (page, count)⟩
  | .write mem => some { s with p := { s.p with mem := mem } }

def Step (s s' : Sys) : Prop := ∃ op : Op, op.Ok s ∧ exec s op = some s'

/-- The runs from an initialised allocator on. -/
abbrev Reachable (p : Allocator) : Sys → Prop := Reach (· = ⟨p, []⟩) Step

/-- Page `i` belongs to the run. -/
def InRun (r : Nat × Nat) (i : Nat) : Prop := r.1 / pageSize ≤ i ∧ i < r.1 / pageSize + r.2

/-- The allocator is safe, with `free` the pages that were free at first: no page is handed out
    twice, nothing else is handed out, and the bitmap tells which pages are left. -/
structure Safe (free : Nat → Prop) (pages : Nat) (s : Sys) : Prop where
  apart : s.live.Pairwise fun a b => ∀ i, ¬ (InRun a i ∧ InRun b i)
  live : ∀ r ∈ s.live, ∀ i, InRun r i → i < pages ∧ free i
  bits : ∀ i < pages, bitmapTest s.p i = false ↔ free i ∧ ∀ r ∈ s.live, ¬ InRun r i

structure SysInv (free : Nat → Prop) (pages : Nat) (s : Sys) : Prop where
  safe : Safe free pages s
  placed : Placed s.p
  pages_eq : s.p.highestPage = pages
  avoids : ∀ i, free i → ¬ HoldsBitmap s.p i
  aligned : ∀ r ∈ s.live, r.1 % pageSize = 0
  nonempty : ∀ r ∈ s.live, r.2 ≠ 0

theorem holdsBitmap_congr {p p' : Allocator} (same : p' = { p with mem := p'.mem }) (i : Nat) :
    HoldsBitmap p' i ↔ HoldsBitmap p i := by
  rw [same]
  rfl

theorem inRun_mul {s count i : Nat} : InRun (s * pageSize, count) i ↔ s ≤ i ∧ i < s + count := by
  simp only [InRun, pageSize, Nat.mul_div_cancel s (show 0 < 4096 by decide)]

theorem sysInv_alloc {free : Nat → Prop} {pages count : Nat} {s : Sys}
    (h : SysInv free pages s) : ∃ s', exec s (.alloc count) = some s' ∧ SysInv free pages s' := by
  have hpages := h.placed.pages
  simp only [pageSize] at hpages
  rcases pmmAllocPages_spec (p := s.p) count (by omega) with
    ⟨start, halloc, hcount, ⟨hstart, hend, hclear⟩, -⟩ | ⟨halloc, -⟩
  · have haddr := (h.placed.mul_pageSize (n := start) (by omega)).1
    have hne : start * pageSize ≠ 0 := by simp only [pageSize]; omega
    have hfree : ∀ i, start ≤ i → i < start + count →
        free i ∧ ∀ r ∈ s.live, ¬ InRun r i := fun i hlo hhi =>
      (h.safe.bits i (by have := h.pages_eq; omega)).mp (hclear i hlo hhi)
    have havoid : AvoidsBitmap s.p start count := fun i hlo hhi => h.avoids i (hfree i hlo hhi).1
    refine ⟨⟨grant s.p start count, (start * pageSize, count) :: s.live⟩, ?_,
      ⟨List.pairwise_cons.mpr ⟨fun r hr i hi => ?_, h.safe.apart⟩, fun r hr i hi => ?_,
        fun i hi => ?_⟩,
      h.placed.congr rfl, h.pages_eq, h.avoids, fun r hr => ?_, fun r hr => ?_⟩
    · simp only [exec, halloc, haddr, Option.map_some, if_neg hne]
    · obtain ⟨hlo, hhi⟩ := inRun_mul.mp hi.1
      exact (hfree i hlo hhi).2 r hr hi.2
    · rcases List.mem_cons.mp hr with rfl | hr
      · obtain ⟨hlo, hhi⟩ := inRun_mul.mp hi
        exact ⟨by have := h.pages_eq; omega, (hfree i hlo hhi).1⟩
      · exact h.safe.live r hr i hi
    · rw [bitmapTest_grant h.placed hend havoid (h.pages_eq ▸ hi), Bool.or_eq_false_iff,
        decide_eq_false_iff_not, h.safe.bits i hi, List.forall_mem_cons, inRun_mul]
      exact and_left_comm
    · rcases List.mem_cons.mp hr with rfl | hr
      · simp [pageSize]
      · exact h.aligned r hr
    · rcases List.mem_cons.mp hr with rfl | hr
      · exact hcount
      · exact h.nonempty r hr
  · exact ⟨s, by simp [exec, halloc], h⟩

theorem sysInv_free {free : Nat → Prop} {pages page count : Nat} {s : Sys}
    (h : SysInv free pages s) (hr : (page, count) ∈ s.live) :
    ∃ s', exec s (.free page count) = some s' ∧ SysInv free pages s' := by
  obtain ⟨start, rfl⟩ : ∃ start, page = start * pageSize :=
    ⟨page / pageSize, (Nat.div_mul_cancel (Nat.dvd_of_mod_eq_zero (h.aligned _ hr))).symm⟩
  have hne := h.nonempty _ hr
  have hend : start + count ≤ s.p.highestPage := by
    have := (h.safe.live _ hr (start + count - 1) (inRun_mul.mpr (by omega))).1
    have := h.pages_eq
    omega
  have hmem : ∀ r ∈ s.live.erase (start * pageSize, count), r ∈ s.live :=
    fun r hr => List.mem_of_mem_erase hr
  have hperm := List.perm_cons_erase hr
  have hapart : ((start * pageSize, count) :: s.live.erase (start * pageSize, count)).Pairwise
      fun a b => ∀ i, ¬ (InRun a i ∧ InRun b i) :=
    (hperm.pairwise_iff fun hab i hba => hab i hba.symm).mp h.safe.apart
  obtain ⟨hout, hrest⟩ := List.pairwise_cons.mp hapart
  refine ⟨⟨pmmFreePages s.p (start * pageSize) count, s.live.erase (start * pageSize, count)⟩, rfl,
    ⟨hrest, fun r hr i hi => h.safe.live r (hmem r hr) i hi, fun i hi => ?_⟩,
    h.placed.congr (free_same _ _ _), ?_, fun i hi => ?_, fun r hr => h.aligned r (hmem r hr),
    fun r hr => h.nonempty r (hmem r hr)⟩
  · have hlive : (∀ r ∈ s.live, ¬ InRun r i) ↔ ¬ (start ≤ i ∧ i < start + count) ∧
        ∀ r ∈ s.live.erase (start * pageSize, count), ¬ InRun r i := by
      rw [show start ≤ i ∧ i < start + count ↔ InRun (start * pageSize, count) i from inRun_mul.symm]
      exact (forall_congr' fun r => by rw [hperm.mem_iff]).trans List.forall_mem_cons
    have hbit : bitmapTest (pmmFreePages s.p (start * pageSize) count) i = false ↔
        (start ≤ i ∧ i < start + count) ∨ bitmapTest s.p i = false := by
      rw [bitmapTest_free h.placed hend (h.pages_eq ▸ hi)]
      by_cases hin : start ≤ i ∧ i < start + count <;> simp [hin]
    rw [hbit, h.safe.bits i hi, hlive]
    constructor
    · rintro (hin | ⟨hf, -, hothers⟩)
      · refine ⟨(h.safe.live _ hr i (inRun_mul.mpr hin)).2, fun r hr' hir => ?_⟩
        exact hout r hr' i ⟨inRun_mul.mpr hin, hir⟩
      · exact ⟨hf, hothers⟩
    · rintro ⟨hf, hothers⟩
      by_cases hin : start ≤ i ∧ i < start + count
      · exact .inl hin
      · exact .inr ⟨hf, hin, hothers⟩
  · rw [free_same]
    exact h.pages_eq
  · rw [holdsBitmap_congr (free_same _ _ _)]
    exact h.avoids i hi

theorem sysInv_write {free : Nat → Prop} {pages : Nat} {mem : Mem} {s : Sys}
    (h : SysInv free pages s) (hmem : (Op.write mem).Ok s) :
    ∃ s', exec s (.write mem) = some s' ∧ SysInv free pages s' := by
  refine ⟨_, rfl, ⟨h.safe.apart, h.safe.live, fun i hi => ?_⟩, h.placed.congr rfl, h.pages_eq,
    h.avoids, h.aligned, h.nonempty⟩
  rw [← h.safe.bits i hi]
  have hcovers := h.placed.covers
  have hpages := h.pages_eq
  have hbyte : bitmapTest { s.p with mem := mem } i = bitmapTest s.p i :=
    testBit_congr (hmem (i / 8) (by omega))
  exact Iff.of_eq (congrArg (· = false) hbyte)

/-- Every call ends and keeps the invariant. -/
theorem exec_sysInv {free : Nat → Prop} {pages : Nat} {s : Sys} (h : SysInv free pages s) (op : Op)
    (hop : op.Ok s) : ∃ s', exec s op = some s' ∧ SysInv free pages s' := by
  cases op with
  | alloc count => exact sysInv_alloc h
  | free page count => exact sysInv_free h hop
  | write mem => exact sysInv_write h hop

/-- A fresh allocator. -/
theorem sysInv_start {free : Nat → Prop} {p : Allocator} (hp : Placed p)
    (hfree : ∀ i, free i → ¬ HoldsBitmap p i)
    (hbits : ∀ j < p.highestPage, bitmapTest p j = false ↔ free j) :
    SysInv free p.highestPage ⟨p, []⟩ :=
  ⟨⟨List.Pairwise.nil, by simp, fun i hi => by simp [hbits i hi]⟩, hp, rfl, hfree, by simp, by simp⟩

theorem reachable_sysInv {free : Nat → Prop} {p : Allocator} {s : Sys} (hp : Placed p)
    (hfree : ∀ i, free i → ¬ HoldsBitmap p i)
    (hbits : ∀ j < p.highestPage, bitmapTest p j = false ↔ free j) (h : Reachable p s) :
    SysInv free p.highestPage s := by
  refine h.invariant (I := SysInv free p.highestPage) ?_ fun s t hs hst => ?_
  · rintro _ rfl
    exact sysInv_start hp hfree hbits
  · obtain ⟨op, hop, hexec⟩ := hst
    obtain ⟨t', ht', hinv⟩ := exec_sysInv hs op hop
    rw [hexec] at ht'
    cases ht'
    exact hinv

/-- With the memory map that the bootloader promises `pmm_init` ends, and if it finds a place for
    its bitmap, then the free pages are exactly the usable ones without page 0 and the bitmap, and
    every run of calls from there is safe. -/
theorem reachable_safe {p : Allocator} {mmap : List MemmapEntry} {hhdm : Nat} (h0 : p.bitmap = 0)
    (hok : ∀ e ∈ mmap, e.Ok) (hhdm_lt : hhdm < addrSpace) :
    ∃ p', pmmInit p (some mmap) (some hhdm) = some p' ∧ (p'.bitmap ≠ 0 →
      (∀ i < p'.highestPage, bitmapTest p' i = false ↔ InitiallyFree mmap p' i) ∧
      ∀ s, Reachable p' s → Safe (InitiallyFree mmap p') p'.highestPage s ∧
        ∀ op : Op, op.Ok s → ∃ s', exec s op = some s') := by
  obtain ⟨p', hp', hspec⟩ := pmmInit_spec h0 hok hhdm_lt
  refine ⟨p', hp', fun hne => ?_⟩
  obtain ⟨hplaced, hbits⟩ := hspec hne
  refine ⟨hbits, fun s hs => ?_⟩
  have hinv := reachable_sysInv hplaced (fun i hi => hi.2.2) hbits hs
  refine ⟨hinv.safe, fun op hop => ?_⟩
  obtain ⟨s', hs', -⟩ := exec_sysInv hinv op hop
  exact ⟨s', hs'⟩

/-- The allocator as its clients see it: ranges of physical memory. -/
def Sys.arena (s : Sys) : Arena :=
  ⟨pageSize, s.p.highestPage * pageSize, s.live.map fun r => (r.1, r.2 * pageSize), []⟩

/-- What `pmm_alloc_pages` hands out is a block that a client's arena has room for. -/
theorem alloc_fits {free : Nat → Prop} {pages count page : Nat} {s : Sys} {p' : Allocator}
    (h : SysInv free pages s) (halloc : pmmAllocPages s.p count = some (p', page))
    (hpage : page ≠ 0) : s.arena.Fits page (count * pageSize) := by
  have hpages := h.placed.pages
  simp only [pageSize] at hpages
  rcases pmmAllocPages_spec (p := s.p) count (by omega) with
    ⟨start, heq, hcount, ⟨hstart, hend, hclear⟩, -⟩ | ⟨heq, -⟩
  · rw [(h.placed.mul_pageSize (n := start) (by omega)).1, halloc] at heq
    cases heq
    simp only [Arena.Fits, Sys.arena, List.forall_mem_map, pageSize] at *
    refine ⟨hpage, by omega, by omega, by omega, fun r hr => ?_⟩
    -- a page in both runs would be free and in use
    have hnot : ∀ i, start ≤ i → i < start + count → ¬ InRun r i := fun i hlo hhi =>
      ((h.safe.bits i (by have := h.pages_eq; omega)).mp (hclear i hlo hhi)).2 r hr
    have halign := h.aligned r hr
    have hne := h.nonempty r hr
    have hfirst := hnot start (by omega) (by omega)
    have hother := hnot (r.1 / 4096)
    simp only [InRun, pageSize] at halign hfirst hother
    omega
  · rw [halloc] at heq
    cases heq
    exact absurd rfl hpage

def bootMmap : List MemmapEntry :=
  [⟨0, 0x10000, memmapUsable⟩, ⟨0x10000, 0x8000, memmapBootloaderReclaimable⟩,
    ⟨0x18000, 0x4000, memmapUsable⟩]

/-- Two pages behind page 0, which the bitmap is in. -/
theorem reachable_safe_boot : ∃ p s, pmmInit ⟨fun _ => 0, 0, 0, 0, 0⟩ (some bootMmap)
      (some 0xffff800000000000) = some p ∧ s.live = [(0x1000, 2)] ∧
    (∀ i < p.highestPage, bitmapTest p i = false ↔ InitiallyFree bootMmap p i) ∧
    Safe (InitiallyFree bootMmap p) p.highestPage s ∧
    ∀ op : Op, op.Ok s → ∃ s', exec s op = some s' := by
  obtain ⟨p, hp, h⟩ := @reachable_safe ⟨fun _ => 0, 0, 0, 0, 0⟩ bootMmap 0xffff800000000000 rfl
    (by simp only [MemmapEntry.Ok, addrSpace_eq]; decide) (by rw [addrSpace_eq]; decide)
  have hbitmap : p.bitmap = 0xffff800000000000 := by
    have hmap : (pmmInit ⟨fun _ => 0, 0, 0, 0, 0⟩ (some bootMmap) (some 0xffff800000000000)).map
        Allocator.bitmap = some 0xffff800000000000 := by decide +kernel
    rw [hp] at hmap
    exact Option.some.inj hmap
  have halloc : (exec ⟨p, []⟩ (.alloc 2)).map Sys.live = some [(0x1000, 2)] := by
    have hmap : (pmmInit ⟨fun _ => 0, 0, 0, 0, 0⟩ (some bootMmap) (some 0xffff800000000000)).bind
        (fun p => (exec ⟨p, []⟩ (.alloc 2)).map Sys.live) = some [(0x1000, 2)] := by decide +kernel
    rwa [hp] at hmap
  obtain ⟨hbits, hrun⟩ := h (by rw [hbitmap]; decide)
  obtain ⟨s, hs, hlive⟩ := Option.map_eq_some_iff.mp halloc
  obtain ⟨hsafe, htotal⟩ := hrun s (.step (.init rfl) ⟨.alloc 2, trivial, hs⟩)
  exact ⟨p, s, hp, hlive, hbits, hsafe, htotal⟩

end ChocoOs.Pmm
