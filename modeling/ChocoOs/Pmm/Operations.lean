import ChocoOs.Lib.Bitmap
import ChocoOs.Lib.Loop

/-!
# The physical page allocator

`pmm.c`: one bit for every page, in a bitmap that lies in usable memory itself. Physical memory
is reached at its address plus the bootloader's offset, modulo `2 ^ 64`. `none` as the result of
a function means that a loop never ends.
-/

namespace ChocoOs.Pmm
open ProgLib

/-- `limine_memmap_entry` (`limine.h:394-398`). -/
structure MemmapEntry where
  base : Nat
  length : Nat
  type : Nat
  deriving DecidableEq, Repr

/-- `LIMINE_MEMMAP_USABLE` (`limine.h:385`). -/
def memmapUsable : Nat := 0

/-- `LIMINE_MEMMAP_ACPI_RECLAIMABLE` (`limine.h:387`). -/
def memmapAcpiReclaimable : Nat := 2

/-- `LIMINE_MEMMAP_BOOTLOADER_RECLAIMABLE` (`limine.h:390`). -/
def memmapBootloaderReclaimable : Nat := 5

/-- `LIMINE_MEMMAP_KERNEL_AND_MODULES` (`limine.h:391`). -/
def memmapKernelAndModules : Nat := 6

/-- `PAGE_SIZE` (`pmm.h:7`). -/
def pageSize : Nat := 4096

/-- Memory and the static variables (`pmm.c:11-14`). -/
structure Allocator where
  mem : Mem
  bitmap : Nat := 0
  bitmapSize : Nat := 0
  highestPage : Nat := 0
  hhdmOffset : Nat := 0

/-- `bitmap_set` (`pmm.c:16-18`). -/
def bitmapSet (p : Allocator) (bit : Nat) : Allocator := { p with mem := setBit p.mem p.bitmap bit }

/-- `bitmap_clear` (`pmm.c:20-22`). -/
def bitmapClear (p : Allocator) (bit : Nat) : Allocator := { p with mem := clearBit p.mem p.bitmap bit }

/-- `bitmap_test` (`pmm.c:24-26`). -/
def bitmapTest (p : Allocator) (bit : Nat) : Bool := testBit p.mem p.bitmap bit

/-! ## Initialisation -/

/-- The test of the types of memory that count (`pmm.c:45-48`). -/
def MemmapEntry.counted (e : MemmapEntry) : Bool :=
  e.type == memmapUsable || e.type == memmapBootloaderReclaimable ||
    e.type == memmapAcpiReclaimable || e.type == memmapKernelAndModules

/-- One round of the first loop of `pmm_init` (`pmm.c:44-53`). -/
def raiseTop (high : Nat) (e : MemmapEntry) : Nat :=
  let top := add64 e.base e.length
  if e.counted ∧ top > high then top else high

/-- The end of the memory that counts (`pmm.c:41-54`). -/
def highestAddr (mmap : List MemmapEntry) : Nat := mmap.foldl raiseTop 0

/-- The bytes of a bitmap of that many pages (`pmm.c:57-60`). -/
def bitmapBytes (pages : Nat) : Nat := if pages / 8 * 8 < pages then pages / 8 + 1 else pages / 8

/-- The pointer to the bitmap after the search for a place for it (`pmm.c:63-69`). -/
def findBitmap (p : Allocator) (mmap : List MemmapEntry) : Nat :=
  match mmap.find? fun e => e.type == memmapUsable && e.length ≥ p.bitmapSize with
  | some e => add64 e.base p.hhdmOffset
  | none => p.bitmap

/-- One round of a loop that marks the pages from `addr` up to `stop`. -/
def pageRound (mark : Allocator → Nat → Allocator) (stop : Nat) : Allocator × Nat → Option (LoopStep (Allocator × Nat) Allocator)
  | (p, addr) =>
    some (if addr < stop then .next (mark p (addr / pageSize), add64 addr pageSize) else .done p)

/-- `for (addr = ..; addr < stop; addr += PAGE_SIZE)`, the loops of `pmm.c:85` and `pmm.c:93`. -/
def markPages (mark : Allocator → Nat → Allocator) (addr stop : Nat) (p : Allocator) : Option Allocator :=
  loop (pageRound mark stop) addrSpace (p, addr)

/-- The pages of an entry are freed if it is usable (`pmm.c:84-88`). -/
def freeEntry (p : Allocator) (e : MemmapEntry) : Option Allocator :=
  if e.type = memmapUsable then markPages bitmapClear e.base (add64 e.base e.length) p else some p

/-- The bitmap's physical address (`pmm.c:92`). -/
def bitmapPhys (p : Allocator) : Nat := sub64 p.bitmap p.hhdmOffset

/-- The contents of the bitmap (`pmm.c:76-98`). -/
def initBitmap (p : Allocator) (mmap : List MemmapEntry) : Option Allocator := do
  let p := { p with mem := fillBytes p.mem p.bitmap 0xFF p.bitmapSize }
  let p ← mmap.foldlM freeEntry p
  let p ← markPages bitmapSet (bitmapPhys p) (add64 (bitmapPhys p) p.bitmapSize) p
  return bitmapSet p 0

/-- `pmm_init` (`pmm.c:28-101`), given the bootloader's responses. -/
def pmmInit (p : Allocator) (memmap : Option (List MemmapEntry)) (hhdm : Option Nat) : Option Allocator :=
  match memmap, hhdm with
  | some mmap, some hhdm =>
    let pages := highestAddr mmap / pageSize
    let p := { p with
      hhdmOffset := hhdm
      highestPage := pages
      bitmapSize := bitmapBytes pages }
    let p := { p with bitmap := findBitmap p mmap }
    if p.bitmap = 0 then some p else initBitmap p mmap
  | _, _ => some p

/-! ## Allocation -/

/-- One round of the scan of `pmm_alloc_pages` over `(i, run_length, run_start)`. -/
def scanRound (p : Allocator) (count : Nat) :
    Nat × Nat × Nat → Option (LoopStep (Nat × Nat × Nat) (Option Nat))
  | (i, len, start) =>
    some (if i < p.highestPage then
      if bitmapTest p i = false then
        let start := if len = 0 then i else start
        let len := add64 len 1
        if len = count then .done (some start) else .next (add64 i 1, len, start)
      else .next (add64 i 1, 0, start)
    else .done none)

/-- What `pmm_alloc_pages` does with the run that it found (`pmm.c:118-127`). -/
def grant (p : Allocator) (start count : Nat) : Allocator :=
  let m := setRun p.mem p.bitmap start count
  let vaddr := add64 (mul64 start pageSize) p.hhdmOffset
  { p with mem := zeroWords m vaddr (mul64 pageSize count / 8) }

/-- `pmm_alloc_pages` (`pmm.c:107-136`). -/
def pmmAllocPages (p : Allocator) (count : Nat) : Option (Allocator × Nat) :=
  if count = 0 then some (p, 0)
  else
    (loop (scanRound p count) addrSpace (1, 0, 0)).map fun
      | none => (p, 0)
      | some start => (grant p start count, mul64 start pageSize)

/-- `pmm_alloc_page` (`pmm.c:103-105`). -/
def pmmAllocPage (p : Allocator) : Option (Allocator × Nat) := pmmAllocPages p 1

/-- `pmm_free_pages` (`pmm.c:142-149`). -/
def pmmFreePages (p : Allocator) (page count : Nat) : Allocator :=
  if page % pageSize ≠ 0 then p
  else { p with mem := clearRun p.mem p.bitmap (page / pageSize) count }

/-- `pmm_free_page` (`pmm.c:138-140`). -/
def pmmFreePage (p : Allocator) (page : Nat) : Allocator := pmmFreePages p page 1

end ChocoOs.Pmm
