import ChocoOs.Lib.ByteMem
import ChocoOs.Lib.Word

/-!
# Block headers

A heap block is a 32-byte header followed by its payload (`heap.c:20-28`). The header sits in
the same memory as the payloads; its fields are read and written here at their offsets in
`struct Block`.
-/

namespace ChocoOs.Heap
open ProgLib

/-- `ALIGNMENT` (`heap.c:14`). -/
def alignment : Nat := 16

/-- `HDR_SIZE` (`heap.c:28`): `sizeof(Block)`, which is 32, rounded up to `ALIGNMENT`. -/
def hdrSize : Nat := 32

/-- `b->size`. -/
def blockSize (m : Mem) (b : Nat) : Nat := load64 m b

/-- `b->free`. -/
def blockFree (m : Mem) (b : Nat) : Bool := m (b + 8) != 0

/-- `b->next`. -/
def blockNext (m : Mem) (b : Nat) : Nat := load64 m (b + 16)

/-- `b->prev`. -/
def blockPrev (m : Mem) (b : Nat) : Nat := load64 m (b + 24)

def setSize (m : Mem) (b v : Nat) : Mem := store64 m b v

def setFree (m : Mem) (b : Nat) (v : Bool) : Mem := store8 m (b + 8) (if v then 1 else 0)

def setNext (m : Mem) (b v : Nat) : Mem := store64 m (b + 16) v

def setPrev (m : Mem) (b v : Nat) : Mem := store64 m (b + 24) v

/-- The fields of `struct Block` (`heap.c:20-26`). -/
structure Header where
  size : Nat
  free : Bool
  next : Nat
  prev : Nat
  deriving DecidableEq

/-- The header of the block at `b`. -/
def header (m : Mem) (b : Nat) : Header :=
  ⟨blockSize m b, blockFree m b, blockNext m b, blockPrev m b⟩

/-- A header lies in its own 32 bytes: memory that agrees there holds the same header. -/
theorem header_congr {m m' : Mem} {b : Nat} (h : ∀ x, b ≤ x → x < b + hdrSize → m' x = m x) :
    header m' b = header m b := by
  have hh : hdrSize = 32 := rfl
  simp only [header, blockSize, blockFree, blockNext, blockPrev, Header.mk.injEq]
  refine ⟨loadLE_congr fun x _ _ => h x (by omega) (by omega), ?_,
    loadLE_congr fun x _ _ => h x (by omega) (by omega),
    loadLE_congr fun x _ _ => h x (by omega) (by omega)⟩
  rw [h (b + 8) (by omega) (by omega)]

theorem header_of_sameOutside {m m' : Mem} {lo hi b : Nat} (h : SameOutside m m' lo hi)
    (hd : b + hdrSize ≤ lo ∨ hi ≤ b) : header m' b = header m b :=
  header_congr fun x _ _ => h x (by omega)

theorem sameOutside_setSize (m : Mem) (b v : Nat) :
    SameOutside m (setSize m b v) b (b + hdrSize) :=
  (sameOutside_storeLE m b 8 v).mono (Nat.le_refl _) (by simp only [hdrSize]; omega)

theorem sameOutside_setFree (m : Mem) (b : Nat) (v : Bool) :
    SameOutside m (setFree m b v) b (b + hdrSize) :=
  (sameOutside_store8 m (b + 8) _).mono (by omega) (by simp only [hdrSize]; omega)

theorem sameOutside_setNext (m : Mem) (b v : Nat) :
    SameOutside m (setNext m b v) b (b + hdrSize) :=
  (sameOutside_storeLE m (b + 16) 8 v).mono (by omega) (by simp only [hdrSize]; omega)

theorem sameOutside_setPrev (m : Mem) (b v : Nat) :
    SameOutside m (setPrev m b v) b (b + hdrSize) :=
  (sameOutside_storeLE m (b + 24) 8 v).mono (by omega) (by simp only [hdrSize]; omega)

/-! ## Each setter changes its own field -/

theorem header_setSize {m : Mem} {b v : Nat} (hv : v < addrSpace) :
    header (setSize m b v) b = { header m b with size := v } := by
  have hs := sameOutside_storeLE m b 8 v
  simp only [header, blockSize, blockFree, blockNext, blockPrev, setSize, store64,
    Header.mk.injEq]
  refine ⟨loadLE_storeLE_same (by rw [pow_256_8]; exact hv), ?_, hs.loadLE_eq (by omega),
    hs.loadLE_eq (by omega)⟩
  rw [hs (b + 8) (by omega)]

theorem header_setFree {m : Mem} {b : Nat} {v : Bool} :
    header (setFree m b v) b = { header m b with free := v } := by
  have hs := sameOutside_store8 m (b + 8) (if v then 1 else 0)
  simp only [header, blockSize, blockFree, blockNext, blockPrev, setFree, Header.mk.injEq]
  refine ⟨hs.loadLE_eq (by omega), ?_, hs.loadLE_eq (by omega), hs.loadLE_eq (by omega)⟩
  cases v <;> simp

theorem header_setNext {m : Mem} {b v : Nat} (hv : v < addrSpace) :
    header (setNext m b v) b = { header m b with next := v } := by
  have hs := sameOutside_storeLE m (b + 16) 8 v
  simp only [header, blockSize, blockFree, blockNext, blockPrev, setNext, store64,
    Header.mk.injEq]
  refine ⟨hs.loadLE_eq (by omega), ?_, loadLE_storeLE_same (by rw [pow_256_8]; exact hv),
    hs.loadLE_eq (by omega)⟩
  rw [hs (b + 8) (by omega)]

theorem header_setPrev {m : Mem} {b v : Nat} (hv : v < addrSpace) :
    header (setPrev m b v) b = { header m b with prev := v } := by
  have hs := sameOutside_storeLE m (b + 24) 8 v
  simp only [header, blockSize, blockFree, blockNext, blockPrev, setPrev, store64,
    Header.mk.injEq]
  refine ⟨hs.loadLE_eq (by omega), ?_, hs.loadLE_eq (by omega),
    loadLE_storeLE_same (by rw [pow_256_8]; exact hv)⟩
  rw [hs (b + 8) (by omega)]

/-! ## and leaves the other headers alone -/

theorem header_setSize_ne {m : Mem} {b c v : Nat} (h : c + hdrSize ≤ b ∨ b + hdrSize ≤ c) :
    header (setSize m b v) c = header m c :=
  header_of_sameOutside (sameOutside_setSize m b v) h

theorem header_setFree_ne {m : Mem} {b c : Nat} {v : Bool}
    (h : c + hdrSize ≤ b ∨ b + hdrSize ≤ c) : header (setFree m b v) c = header m c :=
  header_of_sameOutside (sameOutside_setFree m b v) h

theorem header_setNext_ne {m : Mem} {b c v : Nat} (h : c + hdrSize ≤ b ∨ b + hdrSize ≤ c) :
    header (setNext m b v) c = header m c :=
  header_of_sameOutside (sameOutside_setNext m b v) h

theorem header_setPrev_ne {m : Mem} {b c v : Nat} (h : c + hdrSize ≤ b ∨ b + hdrSize ≤ c) :
    header (setPrev m b v) c = header m c :=
  header_of_sameOutside (sameOutside_setPrev m b v) h

theorem blockSize_eq (m : Mem) (b : Nat) : blockSize m b = (header m b).size := rfl
theorem blockFree_eq (m : Mem) (b : Nat) : blockFree m b = (header m b).free := rfl
theorem blockNext_eq (m : Mem) (b : Nat) : blockNext m b = (header m b).next := rfl
theorem blockPrev_eq (m : Mem) (b : Nat) : blockPrev m b = (header m b).prev := rfl

theorem blockNext_lt (m : Mem) (b : Nat) : blockNext m b < addrSpace := by
  rw [← pow_256_8]; exact loadLE_lt m (b + 16) 8

end ChocoOs.Heap
