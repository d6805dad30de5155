import ChocoOs.Lib.ByteMem
import ChocoOs.Lib.Word

/-!
# Bitmaps in memory

Bit `i` of the bitmap at `base` is bit `i % 8` of the byte `i / 8` places behind `base`, with
addresses modulo `2 ^ 64`. Beside the bit operations there are the loops that go with them: to
set or clear a run of bits, and to fill or zero a range of memory.
-/

namespace ProgLib

/-- The bit's place in its byte. -/
def bitMask (bit : Nat) : UInt8 := 1 <<< UInt8.ofNat (bit % 8)

def setBit (m : Mem) (base bit : Nat) : Mem :=
  store8 m (add64 base (bit / 8)) (m (add64 base (bit / 8)) ||| bitMask bit)

def clearBit (m : Mem) (base bit : Nat) : Mem :=
  store8 m (add64 base (bit / 8)) (m (add64 base (bit / 8)) &&& ~~~bitMask bit)

def testBit (m : Mem) (base bit : Nat) : Bool := m (add64 base (bit / 8)) &&& bitMask bit != 0

/-- Set the bits `s`, `s + 1`, … in order. -/
def setRun (m : Mem) (base s : Nat) : Nat → Mem
  | 0 => m
  | n + 1 => setBit (setRun m base s n) base (add64 s n)

/-- Clear the bits `s`, `s + 1`, … in order. -/
def clearRun (m : Mem) (base s : Nat) : Nat → Mem
  | 0 => m
  | n + 1 => clearBit (clearRun m base s n) base (add64 s n)

/-- Write `n` bytes from `base` on. -/
def fillBytes (m : Mem) (base : Nat) (c : UInt8) : Nat → Mem
  | 0 => m
  | n + 1 => store8 (fillBytes m base c n) (add64 base n) c

/-- Write 0 to the 64-bit word at `a`. -/
def zeroWord (m : Mem) (a : Nat) : Mem := fun x => if sub64 x a < 8 then 0 else m x

/-- Write 0 to `n` words from `a` on. -/
def zeroWords (m : Mem) (a : Nat) : Nat → Mem
  | 0 => m
  | n + 1 => zeroWord (zeroWords m a n) (add64 a (8 * n))

/-! ## Bytes -/

theorem bitMask_getLsbD (i : Nat) {k : Nat} (hk : k < 8) :
    (bitMask i).toBitVec.getLsbD k = decide (k = i % 8) := by
  have h : ∀ i k : Fin 8, (1 <<< UInt8.ofNat i : UInt8).toBitVec.getLsbD k = decide (k.val = i.val) := by
    decide
  exact h ⟨i % 8, Nat.mod_lt _ (by decide)⟩ ⟨k, hk⟩

theorem byte_and_mask (b : UInt8) (j : Nat) :
    (b &&& bitMask j != 0) = b.toBitVec.getLsbD (j % 8) := by
  have hj : j % 8 < 8 := Nat.mod_lt _ (by decide)
  have hbit : (b &&& bitMask j).toBitVec.getLsbD (j % 8) = b.toBitVec.getLsbD (j % 8) := by
    rw [UInt8.toBitVec_and, BitVec.getLsbD_and, bitMask_getLsbD j hj, decide_eq_true rfl,
      Bool.and_true]
  rw [Bool.eq_iff_iff, bne_iff_ne, ← hbit]
  constructor
  · intro hne
    refine Decidable.byContradiction fun hclear => ?_
    refine hne (UInt8.toBitVec_inj.mp (BitVec.eq_of_getLsbD_eq fun k hk => ?_))
    by_cases hkj : k = j % 8
    · rw [hkj]; simpa using hclear
    · simp [UInt8.toBitVec_and, bitMask_getLsbD j hk, hkj]
  · intro hset heq
    simp [heq] at hset

theorem byte_or_mask (b : UInt8) (i j : Nat) : ((b ||| bitMask i) &&& bitMask j != 0)
    = (decide (j % 8 = i % 8) || (b &&& bitMask j != 0)) := by
  rw [byte_and_mask, byte_and_mask, UInt8.toBitVec_or, BitVec.getLsbD_or,
    bitMask_getLsbD i (Nat.mod_lt _ (by decide)), Bool.or_comm]

theorem byte_and_not_mask (b : UInt8) (i j : Nat) : ((b &&& ~~~bitMask i) &&& bitMask j != 0)
    = (decide (j % 8 ≠ i % 8) && (b &&& bitMask j != 0)) := by
  have hj : j % 8 < 8 := Nat.mod_lt _ (by decide)
  rw [byte_and_mask, byte_and_mask, UInt8.toBitVec_and, BitVec.getLsbD_and, UInt8.toBitVec_not,
    BitVec.getLsbD_not, bitMask_getLsbD i hj, Bool.and_comm]
  simp [hj]

theorem byte_ff_mask (j : Nat) : ((0xFF : UInt8) &&& bitMask j != 0) = true := by
  have h : ∀ j : Fin 8, ((0xFF : UInt8) &&& 1 <<< UInt8.ofNat j != 0) = true := by decide
  exact h ⟨j % 8, Nat.mod_lt _ (by decide)⟩

/-! ## Bits -/

theorem add64_right_inj {base a b : Nat} (ha : a < addrSpace) (hb : b < addrSpace) :
    add64 base a = add64 base b ↔ a = b := by
  constructor
  · intro h
    simp only [add64, addrSpace_eq] at h ha hb
    omega
  · rintro rfl; rfl

theorem testBit_store8 {m : Mem} {base i j : Nat} {v : UInt8} (hi : i < addrSpace)
    (hj : j < addrSpace) : testBit (store8 m (add64 base (i / 8)) v) base j
      = if j / 8 = i / 8 then v &&& bitMask j != 0 else testBit m base j := by
  by_cases h : j / 8 = i / 8
  · rw [if_pos h, testBit, h, store8_same]
  · rw [if_neg h, testBit, store8_ne, testBit]
    exact fun he => h ((add64_right_inj (by omega) (by omega)).mp he)

theorem testBit_setBit {m : Mem} {base i j : Nat} (hi : i < addrSpace) (hj : j < addrSpace) :
    testBit (setBit m base i) base j = (decide (j = i) || testBit m base j) := by
  rw [setBit, testBit_store8 hi hj, byte_or_mask]
  by_cases h : j / 8 = i / 8
  · have hiff : j % 8 = i % 8 ↔ j = i := by omega
    rw [if_pos h, testBit, h]
    simp only [hiff]
  · have hne : j ≠ i := fun he => h (by rw [he])
    simp [h, hne]

theorem testBit_clearBit {m : Mem} {base i j : Nat} (hi : i < addrSpace) (hj : j < addrSpace) :
    testBit (clearBit m base i) base j = (decide (j ≠ i) && testBit m base j) := by
  rw [clearBit, testBit_store8 hi hj, byte_and_not_mask]
  by_cases h : j / 8 = i / 8
  · have hiff : j % 8 = i % 8 ↔ j = i := by omega
    rw [if_pos h, testBit, h]
    simp only [ne_eq, hiff]
  · have hne : j ≠ i := fun he => h (by rw [he])
    simp [h, hne]

theorem testBit_setRun {m : Mem} {base s n j : Nat} (hn : s + n ≤ addrSpace) (hj : j < addrSpace) :
    testBit (setRun m base s n) base j = (decide (s ≤ j ∧ j < s + n) || testBit m base j) := by
  induction n with
  | zero =>
    have : ¬ (s ≤ j ∧ j < s + 0) := by omega
    rw [setRun, decide_eq_false this, Bool.false_or]
  | succ n ih =>
    rw [setRun, add64_of_lt (by omega), testBit_setBit (by omega) hj, ih (by omega), ← Bool.or_assoc, ← Bool.decide_or]
    congr 2
    exact propext (by omega)

theorem testBit_clearRun {m : Mem} {base s n j : Nat} (hn : s + n ≤ addrSpace)
    (hj : j < addrSpace) :
    testBit (clearRun m base s n) base j = (decide (¬ (s ≤ j ∧ j < s + n)) && testBit m base j) := by
  induction n with
  | zero =>
    have : ¬ (s ≤ j ∧ j < s + 0) := by omega
    rw [clearRun, decide_eq_true this, Bool.true_and]
  | succ n ih =>
    rw [clearRun, add64_of_lt (by omega), testBit_clearBit (by omega) hj, ih (by omega), ← Bool.and_assoc,
      ← Bool.decide_and]
    congr 2
    exact propext (by omega)

/-- A bit depends on its byte only. -/
theorem testBit_congr {m m' : Mem} {base j : Nat}
    (h : m' (add64 base (j / 8)) = m (add64 base (j / 8))) : testBit m' base j = testBit m base j := by
  rw [testBit, testBit, h]

/-! ## Ranges -/

theorem fillBytes_apply {m : Mem} {base n k : Nat} {c : UInt8} (hn : n ≤ addrSpace) (hk : k < n) :
    fillBytes m base c n (add64 base k) = c := by
  induction n with
  | zero => omega
  | succ n ih =>
    by_cases h : k = n
    · subst h; rw [fillBytes, store8_same]
    · rw [fillBytes, store8_ne]
      · exact ih (by omega) (by omega)
      · exact fun he => h ((add64_right_inj (by omega) (by omega)).mp he)

/-- A bitmap filled with ones. -/
theorem testBit_fillBytes {m : Mem} {base n j : Nat} (hn : n ≤ addrSpace) (hj : j / 8 < n) :
    testBit (fillBytes m base 0xFF n) base j = true := by
  rw [testBit, fillBytes_apply hn hj, byte_ff_mask]

theorem zeroWords_apply {m : Mem} {a n x : Nat} (ha : a < addrSpace) (hn : 8 * n ≤ addrSpace)
    (hx : x < addrSpace) : zeroWords m a n x = if sub64 x a < 8 * n then 0 else m x := by
  induction n with
  | zero => simp [zeroWords]
  | succ n ih =>
    have hcases : sub64 x (add64 a (8 * n)) < 8 ↔ 8 * n ≤ sub64 x a ∧ sub64 x a < 8 * n + 8 := by
      simp only [sub64, add64, addrSpace_eq] at *
      omega
    simp only [zeroWords, zeroWord, ih (by omega), hcases]
    split
    · rw [if_pos (by omega)]
    · by_cases hlt : sub64 x a < 8 * n
      · rw [if_pos hlt, if_pos (by omega)]
      · rw [if_neg hlt, if_neg (by omega)]

end ProgLib
