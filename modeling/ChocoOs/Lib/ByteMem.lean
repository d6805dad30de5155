import Mathlib.Algebra.Group.Nat.Defs

/-!
# Byte-addressed memory

Memory is a function from addresses to bytes. `loadLE` and `storeLE` read and write a
little-endian number of a given width; `fill` and `copy` are the byte loops of `memset` and
`memcpy`. Every write comes with the two facts a client needs: what it leaves at its own
place, and that it leaves all other places alone.
-/

namespace ProgLib

/-- Memory: the byte at every address. -/
abbrev Mem := Nat → UInt8

/-- The little-endian number in the `n` bytes from `a` on. -/
def loadLE (m : Mem) (a : Nat) : Nat → Nat
  | 0 => 0
  | n + 1 => (m a).toNat + 256 * loadLE m (a + 1) n

/-- Write the low `n` bytes of `v` from `a` on, lowest byte first. -/
def storeLE (m : Mem) (a n v : Nat) : Mem :=
  fun x => if a ≤ x ∧ x < a + n then UInt8.ofNat (v / 256 ^ (x - a)) else m x

/-- Write one byte. -/
def store8 (m : Mem) (a : Nat) (v : UInt8) : Mem :=
  fun x => if x = a then v else m x

/-- The 64-bit word at `a`. -/
abbrev load64 (m : Mem) (a : Nat) : Nat := loadLE m a 8

/-- Write a 64-bit word at `a`. -/
abbrev store64 (m : Mem) (a v : Nat) : Mem := storeLE m a 8 v

/-- The loop of `memset`: byte `c` at `dst`, `dst + 1`, … in order. -/
def fill (m : Mem) (dst : Nat) (c : UInt8) : Nat → Mem
  | 0 => m
  | n + 1 => store8 (fill m dst c n) (dst + n) c

/-- The loop of `memcpy`: bytes copied one by one, lowest address first. -/
def copy (m : Mem) (dst src : Nat) : Nat → Mem
  | 0 => m
  | n + 1 => store8 (copy m dst src n) (dst + n) (copy m dst src n (src + n))

/-- `memcpy` from a buffer given by its bytes. -/
def put (m : Mem) (dst : Nat) (src : Nat → UInt8) (n : Nat) : Mem :=
  fun x => if dst ≤ x ∧ x < dst + n then src (x - dst) else m x

/-- `m'` differs from `m` at most on `[lo, hi)`. -/
def SameOutside (m m' : Mem) (lo hi : Nat) : Prop :=
  ∀ x, x < lo ∨ hi ≤ x → m' x = m x

theorem SameOutside.refl (m : Mem) (lo hi : Nat) : SameOutside m m lo hi := fun _ _ => rfl

theorem SameOutside.trans {m₁ m₂ m₃ : Mem} {lo hi : Nat} (h₁ : SameOutside m₁ m₂ lo hi)
    (h₂ : SameOutside m₂ m₃ lo hi) : SameOutside m₁ m₃ lo hi :=
  fun x hx => (h₂ x hx).trans (h₁ x hx)

theorem SameOutside.mono {m m' : Mem} {lo hi lo' hi' : Nat} (h : SameOutside m m' lo hi)
    (hlo : lo' ≤ lo) (hhi : hi ≤ hi') : SameOutside m m' lo' hi' :=
  fun x hx => h x (by omega)

/-! ## Numbers -/

theorem loadLE_lt (m : Mem) (a n : Nat) : loadLE m a n < 256 ^ n := by
  induction n generalizing a with
  | zero => simp [loadLE]
  | succ n ih =>
    have hb : (m a).toNat < 256 := (m a).toNat_lt
    have hr := ih (a + 1)
    rw [loadLE, Nat.pow_succ]
    omega

/-- A read depends only on the bytes it reads. -/
theorem loadLE_congr {m m' : Mem} {a n : Nat} (h : ∀ x, a ≤ x → x < a + n → m' x = m x) :
    loadLE m' a n = loadLE m a n := by
  induction n generalizing a with
  | zero => rfl
  | succ n ih =>
    rw [loadLE, loadLE, h a (by omega) (by omega),
      ih (fun x hlo hhi => h x (by omega) (by omega))]

theorem loadLE_of_bytes {m : Mem} {a n v : Nat}
    (h : ∀ i, i < n → m (a + i) = UInt8.ofNat (v / 256 ^ i)) :
    loadLE m a n = v % 256 ^ n := by
  induction n generalizing a v with
  | zero => simp [loadLE, Nat.mod_one]
  | succ n ih =>
    have h0 : (m a).toNat = v % 256 := by
      have := h 0 (by omega)
      simp only [Nat.add_zero, Nat.pow_zero, Nat.div_one] at this
      rw [this]; simp
    have hrest : loadLE m (a + 1) n = (v / 256) % 256 ^ n := by
      apply ih
      intro i hi
      have := h (i + 1) (by omega)
      rw [Nat.pow_succ', ← Nat.div_div_eq_div_mul] at this
      rw [← this]
      congr 1
      omega
    rw [loadLE, h0, hrest, Nat.pow_succ', Nat.mod_mul]

theorem loadLE_storeLE_same {m : Mem} {a n v : Nat} (h : v < 256 ^ n) :
    loadLE (storeLE m a n v) a n = v := by
  have : loadLE (storeLE m a n v) a n = v % 256 ^ n := by
    apply loadLE_of_bytes
    intro i hi
    have hin : a ≤ a + i ∧ a + i < a + n := by omega
    have hsub : a + i - a = i := by omega
    simp only [storeLE, if_pos hin, hsub]
  rw [this, Nat.mod_eq_of_lt h]

theorem sameOutside_storeLE (m : Mem) (a n v : Nat) :
    SameOutside m (storeLE m a n v) a (a + n) := by
  intro x hx
  have hout : ¬ (a ≤ x ∧ x < a + n) := by omega
  simp only [storeLE, if_neg hout]

theorem sameOutside_store8 (m : Mem) (a : Nat) (v : UInt8) :
    SameOutside m (store8 m a v) a (a + 1) := by
  intro x hx
  have hne : x ≠ a := by omega
  simp only [store8, if_neg hne]

@[simp] theorem store8_same (m : Mem) (a : Nat) (v : UInt8) : store8 m a v a = v := by
  simp [store8]

theorem store8_ne {m : Mem} {a x : Nat} {v : UInt8} (h : x ≠ a) : store8 m a v x = m x := by
  simp [store8, h]

/-- A read is unchanged by a write elsewhere. -/
theorem SameOutside.loadLE_eq {m m' : Mem} {lo hi a n : Nat} (h : SameOutside m m' lo hi)
    (hd : a + n ≤ lo ∨ hi ≤ a) : loadLE m' a n = loadLE m a n :=
  loadLE_congr fun x hlo hhi => h x (by omega)

/-! ## `memset` and `memcpy` -/

theorem sameOutside_fill (m : Mem) (dst : Nat) (c : UInt8) (n : Nat) :
    SameOutside m (fill m dst c n) dst (dst + n) := by
  induction n with
  | zero => exact SameOutside.refl _ _ _
  | succ n ih =>
    exact (ih.mono (Nat.le_refl _) (by omega)).trans
      ((sameOutside_store8 _ _ _).mono (by omega) (by omega))

theorem fill_apply {m : Mem} {dst n x : Nat} {c : UInt8} (h : dst ≤ x ∧ x < dst + n) :
    fill m dst c n x = c := by
  induction n with
  | zero => omega
  | succ n ih =>
    by_cases hx : x = dst + n
    · subst hx; simp [fill]
    · rw [fill, store8_ne hx]
      exact ih (by omega)

theorem sameOutside_copy (m : Mem) (dst src n : Nat) :
    SameOutside m (copy m dst src n) dst (dst + n) := by
  induction n with
  | zero => exact SameOutside.refl _ _ _
  | succ n ih =>
    exact (ih.mono (Nat.le_refl _) (by omega)).trans
      ((sameOutside_store8 _ _ _).mono (by omega) (by omega))

/-- Between disjoint ranges the copy holds the old source bytes. -/
theorem copy_apply {m : Mem} {dst src n i : Nat} (hd : dst + n ≤ src ∨ src + n ≤ dst)
    (hi : i < n) : copy m dst src n (dst + i) = m (src + i) := by
  induction n with
  | zero => omega
  | succ n ih =>
    have hsrc : copy m dst src n (src + n) = m (src + n) :=
      sameOutside_copy m dst src n _ (by omega)
    by_cases hin : i = n
    · subst hin; rw [copy, store8_same, hsrc]
    · rw [copy, store8_ne (by omega)]
      exact ih (by omega) (by omega)

/-!
## Copying between overlapping ranges

`copy` writes the lowest byte first and `copyDown` the highest. When the destination begins below the
source, `copy` never reads a byte that it has written; when it begins above, `copyDown` does not.
-/

section overlap

/-- Bytes copied one by one, highest address first. -/
def copyDown (m : Mem) (dst src : Nat) : Nat → Mem
  | 0 => m
  | n + 1 => copyDown (store8 m (dst + n) (m (src + n))) dst src n

theorem sameOutside_copyDown (m : Mem) (dst src n : Nat) :
    SameOutside m (copyDown m dst src n) dst (dst + n) := by
  induction n generalizing m with
  | zero => exact SameOutside.refl _ _ _
  | succ n ih =>
    have hstore := sameOutside_store8 m (dst + n) (m (src + n))
    exact (hstore.mono (by omega) (by omega)).trans ((ih _).mono (by omega) (by omega))

/-- Going up, a source that is not below the destination is read before it is overwritten. -/
theorem copy_apply_of_le {m : Mem} {dst src n i : Nat} (hle : dst ≤ src) (hi : i < n) :
    copy m dst src n (dst + i) = m (src + i) := by
  induction n with
  | zero => exact absurd hi (Nat.not_lt_zero i)
  | succ n ih =>
    have hsrc : copy m dst src n (src + n) = m (src + n) :=
      sameOutside_copy m dst src n _ (.inr (by omega))
    by_cases hin : i = n
    · subst hin
      rw [copy, store8_same, hsrc]
    · rw [copy, store8_ne (by omega)]
      exact ih (by omega)

/-- Going down, a source that is not above the destination is read before it is overwritten. -/
theorem copyDown_apply_of_le {m : Mem} {dst src n i : Nat} (hle : src ≤ dst) (hi : i < n) :
    copyDown m dst src n (dst + i) = m (src + i) := by
  induction n generalizing m with
  | zero => exact absurd hi (Nat.not_lt_zero i)
  | succ n ih =>
    rw [copyDown]
    by_cases hin : i = n
    · -- the rounds that follow stay below the last byte
      subst hin
      rw [sameOutside_copyDown _ dst src i _ (.inr (Nat.le_refl _)), store8_same]
    · rw [ih (by omega), store8_ne (by omega)]

end overlap

end ProgLib
