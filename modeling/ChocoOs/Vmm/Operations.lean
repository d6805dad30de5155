import Mathlib.Logic.Function.Basic

/-!
# The virtual memory manager

`vmm.c`: four levels of page tables, reached through the bootloader's direct map. Memory is a
function from addresses to 64-bit words; all table entries have addresses that agree modulo 8, so
two of them are the same word or have no byte in common. The page allocator is a parameter: it
answers a request with a physical address, or 0, and may change memory.
-/

namespace ChocoOs.Vmm

abbrev Word := BitVec 64

/-- The 64-bit word at every address. -/
abbrev Memory := Word → Word

/-- `PTE_PRESENT` (`vmm.h:10`). -/
def ptePresent : Word := 1

/-- `PTE_WRITABLE` (`vmm.h:11`). -/
def pteWritable : Word := 2

/-- `PTE_USER` (`vmm.h:12`). -/
def pteUser : Word := 4

/-- `PTE_HUGE` (`vmm.h:17`). -/
def pteHuge : Word := 128

/-- `PTE_ADDR_MASK` (`vmm.h:21`). -/
def pteAddrMask : Word := 0x000ffffffffff000

/-- An index into a table. -/
abbrev Index := Fin 512

/-- `(vaddr >> shift) & 0x1ff`. -/
def index (vaddr : Word) (shift : Nat) : Index :=
  ⟨((vaddr >>> shift) &&& 0x1ff).toNat, by
    have h : ((vaddr >>> shift) &&& 0x1ff).toNat ≤ 0x1ff := by
      rw [BitVec.toNat_and]
      exact Nat.and_le_right
    omega⟩

/-- Memory, `vmm_hhdm_offset` and the page allocator's own data. -/
structure State (σ : Type) where
  mem : Memory
  hhdm : Word
  pmm : σ

/-- `pmm_alloc_page`: the page's address, memory and the allocator's data afterwards. -/
abbrev AllocPage (σ : Type) := σ → Memory → Word × Memory × σ

/-- `&table[i]`. -/
def entryAddr (table : Word) (i : Index) : Word := table + BitVec.ofNat 64 (8 * i.val)

variable {σ : Type}

/-- `table[i]`. -/
def State.entry (s : State σ) (table : Word) (i : Index) : Word := s.mem (entryAddr table i)

/-- `table[i] = w`. -/
def State.setEntry (s : State σ) (table : Word) (i : Index) (w : Word) : State σ :=
  { s with mem := Function.update s.mem (entryAddr table i) w }

/-- The state after `pmm_alloc_page`. -/
def State.allocated (allocPage : AllocPage σ) (s : State σ) : State σ :=
  { s with mem := (allocPage s.pmm s.mem).2.1, pmm := (allocPage s.pmm s.mem).2.2 }

/-- The page that `pmm_alloc_page` returns. -/
def State.newPage (allocPage : AllocPage σ) (s : State σ) : Word := (allocPage s.pmm s.mem).1

/-- `vmm_init` (`vmm.c:18-33`): the pointer to the kernel's top-level table. -/
def kernelPml4 (cr3 hhdm : Word) : Word := (cr3 &&& pteAddrMask) + hhdm

/-- `get_next_level` (`vmm.c:44-65`). -/
def getNextLevel (allocPage : AllocPage σ) (s : State σ) (table : Word) (i : Index)
    (allocate : Bool) : State σ × Word :=
  let entry := s.entry table i
  if entry &&& ptePresent ≠ 0 then (s, (entry &&& pteAddrMask) + s.hhdm)
  else if allocate = false then (s, 0)
  else
    let page := s.newPage allocPage
    let s := s.allocated allocPage
    if page = 0 then (s, 0)
    else (s.setEntry table i (page ||| ptePresent ||| pteWritable ||| pteUser), page + s.hhdm)

/-- One call of `get_next_level` after the other, until one returns null. -/
def descend (allocPage : AllocPage σ) (allocate : Bool) (s : State σ) (table : Word) :
    List Index → State σ × Word
  | [] => (s, table)
  | i :: is =>
    let (s, next) := getNextLevel allocPage s table i allocate
    if next = 0 then (s, 0) else descend allocPage allocate s next is

/-- `pml4_index`, `pdp_index` and `pd_index`. -/
def tablePath (vaddr : Word) : List Index := [index vaddr 39, index vaddr 30, index vaddr 21]

/-- `pt_index`. -/
def ptIndex (vaddr : Word) : Index := index vaddr 12

/-- `vmm_map_page` (`vmm.c:67-84`). -/
def vmmMapPage (allocPage : AllocPage σ) (s : State σ) (pml4 vaddr paddr flags : Word) : State σ :=
  let (s, pt) := descend allocPage true s pml4 (tablePath vaddr)
  if pt = 0 then s
  else s.setEntry pt (ptIndex vaddr) ((paddr &&& pteAddrMask) ||| flags ||| ptePresent)

/-- `vmm_unmap_page` (`vmm.c:86-103`). -/
def vmmUnmapPage (allocPage : AllocPage σ) (s : State σ) (pml4 vaddr : Word) : State σ :=
  let (s, pt) := descend allocPage false s pml4 (tablePath vaddr)
  if pt = 0 then s else s.setEntry pt (ptIndex vaddr) 0

/-- `vmm_get_phys` (`vmm.c:105-123`). -/
def vmmGetPhys (allocPage : AllocPage σ) (s : State σ) (pml4 vaddr : Word) : Word :=
  let (s, pt) := descend allocPage false s pml4 (tablePath vaddr)
  if pt = 0 then 0
  else if s.entry pt (ptIndex vaddr) &&& ptePresent = 0 then 0
  else (s.entry pt (ptIndex vaddr) &&& pteAddrMask) + (vaddr &&& 0xfff)

end ChocoOs.Vmm
