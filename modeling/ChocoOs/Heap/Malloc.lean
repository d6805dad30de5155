import ChocoOs.Heap.Block
import ChocoOs.Lib.Loop

/-!
# The kernel heap

`heap.c`: a first-fit allocator over one region, whose blocks form a doubly linked list in
address order. `none` as the result of a call means that a walk over the list never ends.
Interrupt masking around the list operations and the log lines are not modelled.
-/

namespace ChocoOs.Heap
open ProgLib

/-- The state of the heap: memory and the three static variables (`heap.c:30-32`). -/
structure Heap where
  mem : Mem
  heapHead : Nat
  totalSize : Nat
  usedSize : Nat

/-- `HEAP_MAX` (`heap.c:12`). -/
def heapMax : Nat := 768 * 1024 * 1024

/-- `HEAP_MIN` (`heap.c:13`). -/
def heapMin : Nat := 16 * 1024 * 1024

/-- `PAGE_SIZE` (`pmm.h:7`). -/
def pageSize : Nat := 4096

/-- The search of `heap_init` (`heap.c:53-61`): halve the wanted size until the page
    allocator grants a run. The result is the physical address (0 when every size failed)
    and the size it was granted for. -/
def findRegion (pmmAllocPages : Nat → Nat) (want : Nat) : Nat × Nat :=
  if h : want < heapMin then (0, want)
  else
    let phys := pmmAllocPages (want / pageSize)
    if phys ≠ 0 then (phys, want) else findRegion pmmAllocPages (want / 2)
termination_by want
decreasing_by
  simp only [heapMin] at h
  omega

/-- `heap_init` (`heap.c:49-77`). -/
def heapInit (h : Heap) (pmmAllocPages : Nat → Nat) (hhdm : Nat) : Heap :=
  let (phys, want) := findRegion pmmAllocPages heapMax
  if phys = 0 then h
  else
    let b := add64 phys hhdm
    let m := setSize h.mem b (sub64 want hdrSize)
    let m := setFree m b true
    let m := setNext m b 0
    let m := setPrev m b 0
    ⟨m, b, want, 0⟩

/-- `(size + ALIGNMENT - 1) & ~(ALIGNMENT - 1)` (`heap.c:84`). The sum wraps. -/
def roundUp (size : Nat) : Nat := add64 size (alignment - 1) / alignment * alignment

/-- The split of `malloc` (`heap.c:95-103`): the block at `b` keeps `size` bytes and what is
    left becomes a free block behind it. -/
def splitBlock (m : Mem) (b size : Nat) : Mem :=
  let split := add64 (add64 b hdrSize) size
  let m := setSize m split (sub64 (sub64 (blockSize m b) size) hdrSize)
  let m := setFree m split true
  let m := setNext m split (blockNext m b)
  let m := setPrev m split b
  let m := if blockNext m b ≠ 0 then setPrev m (blockNext m b) split else m
  let m := setNext m b split
  setSize m b size

/-- `malloc` having found the block `b` (`heap.c:93-108`). -/
def takeBlock (h : Heap) (size b : Nat) : Heap × Nat :=
  let m :=
    if add64 (add64 size hdrSize) alignment ≤ blockSize h.mem b then splitBlock h.mem b size
    else h.mem
  let m := setFree m b false
  ({ h with mem := m, usedSize := add64 h.usedSize (add64 (blockSize m b) hdrSize) },
    add64 b hdrSize)

/-- One round of the search of `malloc` (`heap.c:87-91`). -/
def mallocRound (h : Heap) (size b : Nat) : Option (LoopStep Nat (Heap × Nat)) :=
  if b = 0 then some (.done (h, 0))
  else if !blockFree h.mem b || blockSize h.mem b < size then
    some (.next (blockNext h.mem b))
  else some (.done (takeBlock h size b))

/-- `malloc` (`heap.c:79-114`). -/
def malloc (h : Heap) (size : Nat) : Option (Heap × Nat) :=
  if size = 0 ∨ h.heapHead = 0 then some (h, 0)
  else loop (mallocRound h (roundUp size)) addrSpace h.heapHead

/-- `coalesce_with_next` (`heap.c:116-126`). -/
def coalesceWithNext (m : Mem) (b : Nat) : Mem :=
  let n := blockNext m b
  if n ≠ 0 ∧ blockFree m n ∧ blockFree m b then
    let m := setSize m b (add64 (blockSize m b) (add64 hdrSize (blockSize m n)))
    let m := setNext m b (blockNext m n)
    if blockNext m n ≠ 0 then setPrev m (blockNext m n) b else m
  else m

/-- `free` (`heap.c:128-148`). -/
def free (h : Heap) (ptr : Nat) : Heap :=
  if ptr = 0 then h
  else
    let b := sub64 ptr hdrSize
    if blockFree h.mem b then h
    else
      let m := setFree h.mem b true
      let used := sub64 h.usedSize (add64 (blockSize m b) hdrSize)
      let m := coalesceWithNext m b
      let m :=
        if blockPrev m b ≠ 0 ∧ blockFree m (blockPrev m b) then
          coalesceWithNext m (blockPrev m b)
        else m
      { h with mem := m, usedSize := used }

/-- `calloc` (`heap.c:150-159`). -/
def calloc (h : Heap) (num size : Nat) : Option (Heap × Nat) :=
  if num ≠ 0 ∧ size > (addrSpace - 1) / num then some (h, 0)
  else
    let total := mul64 num size
    match malloc h total with
    | none => none
    | some (h, p) => some (if p ≠ 0 then { h with mem := fill h.mem p 0 total } else h, p)

/-- `realloc` (`heap.c:161-182`). -/
def realloc (h : Heap) (ptr size : Nat) : Option (Heap × Nat) :=
  if ptr = 0 then malloc h size
  else if size = 0 then some (free h ptr, 0)
  else
    let b := sub64 ptr hdrSize
    if size ≤ blockSize h.mem b then some (h, ptr)
    else
      match malloc h size with
      | none => none
      | some (h, np) =>
        if np ≠ 0 then
          some (free { h with mem := copy h.mem np ptr (blockSize h.mem b) } ptr, np)
        else some (h, np)

/-- `heap_total` (`heap.c:184`). -/
def heapTotal (h : Heap) : Nat := h.totalSize

/-- `heap_used` (`heap.c:185`). -/
def heapUsed (h : Heap) : Nat := h.usedSize

end ChocoOs.Heap
