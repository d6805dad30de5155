import Mathlib.Logic.Equiv.Basic

/-!
# Binary heaps in arrays

An array is a function on indices. The children of `i` are `2 i + 1` and `2 i + 2`, and an array is
a heap from `s` up to `m` if no child below `m` of an index from `s` on is above its parent.
Sifting down repairs a heap that is broken at one index, exchange by exchange.
-/

namespace ProgLib

variable {α : Type}

/-- `c` is a child of `i`. -/
def IsKid (c i : Nat) : Prop := c = 2 * i + 1 ∨ c = 2 * i + 2

/-- The array with the entries at `i` and `j` exchanged. -/
def exchange (f : Nat → α) (i j : Nat) : Nat → α := f ∘ Equiv.swap i j

theorem exchange_left (f : Nat → α) (i j : Nat) : exchange f i j i = f j := by
  rw [exchange, Function.comp_apply, Equiv.swap_apply_left]

theorem exchange_right (f : Nat → α) (i j : Nat) : exchange f i j j = f i := by
  rw [exchange, Function.comp_apply, Equiv.swap_apply_right]

theorem exchange_of_ne (f : Nat → α) {i j k : Nat} (hi : k ≠ i) (hj : k ≠ j) :
    exchange f i j k = f k := by
  rw [exchange, Function.comp_apply, Equiv.swap_apply_of_ne_of_ne hi hj]

/-- The entries of `g` are those of `f`, rearranged below `m`. -/
def Rearranged (m : Nat) (f g : Nat → α) : Prop :=
  ∃ σ : Equiv.Perm Nat, (∀ i, m ≤ i → σ i = i) ∧ g = f ∘ σ

namespace Rearranged

variable {f g h : Nat → α} {m : Nat}

theorem refl (m : Nat) (f : Nat → α) : Rearranged m f f :=
  ⟨Equiv.refl Nat, fun _ _ => rfl, rfl⟩

theorem trans (hfg : Rearranged m f g) (hgh : Rearranged m g h) : Rearranged m f h := by
  obtain ⟨σ, hσ, rfl⟩ := hfg
  obtain ⟨τ, hτ, rfl⟩ := hgh
  refine ⟨τ.trans σ, fun i hi => ?_, rfl⟩
  rw [Equiv.trans_apply, hτ i hi, hσ i hi]

theorem mono (hfg : Rearranged m f g) {n : Nat} (hmn : m ≤ n) : Rearranged n f g := by
  obtain ⟨σ, hσ, hg⟩ := hfg
  exact ⟨σ, fun i hi => hσ i (Nat.le_trans hmn hi), hg⟩

theorem of_exchange (f : Nat → α) {i j : Nat} (hi : i < m) (hj : j < m) :
    Rearranged m f (exchange f i j) :=
  ⟨Equiv.swap i j, fun k hk => Equiv.swap_apply_of_ne_of_ne (by omega) (by omega), rfl⟩

theorem eq_of_le (hfg : Rearranged m f g) {i : Nat} (hi : m ≤ i) : g i = f i := by
  obtain ⟨σ, hσ, rfl⟩ := hfg
  rw [Function.comp_apply, hσ i hi]

/-- An entry below `m` comes from below `m`. -/
theorem exists_of_lt (hfg : Rearranged m f g) {i : Nat} (hi : i < m) : ∃ j < m, g i = f j := by
  obtain ⟨σ, hσ, rfl⟩ := hfg
  refine ⟨σ i, Nat.lt_of_not_le fun hle => ?_, rfl⟩
  -- an index that is fixed has no other preimage
  have : i = σ i := σ.injective (hσ _ hle).symm
  omega

theorem symm (hfg : Rearranged m f g) : Rearranged m g f := by
  obtain ⟨σ, hσ, rfl⟩ := hfg
  refine ⟨σ.symm, fun i hi => by rw [Equiv.symm_apply_eq, hσ i hi], ?_⟩
  funext i
  rw [Function.comp_apply, Function.comp_apply, Equiv.apply_symm_apply]

end Rearranged

/-- No child below `m` of an index from `s` on is above its parent. -/
def HeapFrom (le : α → α → Prop) (s m : Nat) (f : Nat → α) : Prop :=
  ∀ i c, s ≤ i → IsKid c i → c < m → le (f c) (f i)

/-- A heap but for the index `r`, whose children are not above the parent of `r`. -/
structure AlmostHeap (le : α → α → Prop) (s m : Nat) (f : Nat → α) (r : Nat) : Prop where
  rest : ∀ i c, s ≤ i → i ≠ r → IsKid c i → c < m → le (f c) (f i)
  above : ∀ p c, s ≤ p → IsKid r p → IsKid c r → c < m → le (f c) (f p)

section order

variable {le : α → α → Prop} {s m r : Nat} {f : Nat → α}

/-- A heap below `r` is a heap from `r` on but for `r` itself. -/
theorem HeapFrom.almost (h : HeapFrom le (r + 1) m f) : AlmostHeap le r m f r := by
  refine ⟨fun i c hi hne hc hcm => h i c (by omega) hc hcm, fun p c hp hr _ _ => ?_⟩
  unfold IsKid at hr
  omega

/-- The last entry is moved to the front of a heap. -/
theorem HeapFrom.almost_exchange (h : HeapFrom le 0 (m + 1) f) :
    AlmostHeap le 0 m (exchange f 0 m) 0 := by
  refine ⟨fun i c _ hi hc hcm => ?_, fun p c _ hr _ _ => ?_⟩
  · have hic : i < c := by
      unfold IsKid at hc
      omega
    rw [exchange_of_ne f (by omega) (by omega), exchange_of_ne f hi (by omega)]
    exact h i c (Nat.zero_le _) hc (by omega)
  · unfold IsKid at hr
    omega

/-- The sift stops where no child is above `r`. -/
theorem AlmostHeap.done (h : AlmostHeap le s m f r)
    (hr : ∀ c, IsKid c r → c < m → le (f c) (f r)) : HeapFrom le s m f := by
  intro i c hi hc hcm
  by_cases hir : i = r
  · subst hir
    exact hr c hc hcm
  · exact h.rest i c hi hir hc hcm

/-- The sift goes on at the child `c` that no other child is above, after it has changed places
    with `r`. -/
theorem AlmostHeap.step (h : AlmostHeap le s m f r) (hs : s ≤ r) {c : Nat} (hc : IsKid c r)
    (hcm : c < m) (hmax : ∀ d, IsKid d r → d < m → le (f d) (f c)) (hle : le (f r) (f c)) :
    AlmostHeap le s m (exchange f r c) c := by
  have hrc : r < c := by
    unfold IsKid at hc
    omega
  refine ⟨fun i d hi hic hd hdm => ?_, fun p d hp hcp hd hdm => ?_⟩
  · have hid : i < d := by
      unfold IsKid at hd
      omega
    by_cases hir : i = r
    · subst hir
      rw [exchange_left]
      by_cases hdc : d = c
      · subst hdc
        rw [exchange_right]
        exact hle
      · rw [exchange_of_ne f (by omega) hdc]
        exact hmax d hd hdm
    · rw [exchange_of_ne f hir hic]
      by_cases hdr : d = r
      · -- the parent of `r` is not below the children of `r`
        subst hdr
        rw [exchange_left]
        exact h.above i c hi hd hc hcm
      · have hdc : d ≠ c := by
          unfold IsKid at hc hd
          omega
        rw [exchange_of_ne f hdr hdc]
        exact h.rest i d hi hir hd hdm
  · have hpr : p = r := by
      unfold IsKid at hc hcp
      omega
    have hcd : c < d := by
      unfold IsKid at hd
      omega
    subst hpr
    rw [exchange_left, exchange_of_ne f (by omega) (by omega)]
    exact h.rest c d (by omega) (by omega) hd hdm

/-- The first entry of a heap is above all. -/
theorem HeapFrom.le_first (h : HeapFrom le 0 m f) (hrefl : ∀ a, le a a)
    (htrans : ∀ a b c, le a b → le b c → le a c) {i : Nat} (hi : i < m) : le (f i) (f 0) := by
  induction i using Nat.strongRecOn with
  | ind i ih =>
    by_cases h0 : i = 0
    · rw [h0]
      exact hrefl _
    · have hkid : IsKid i ((i - 1) / 2) := by
        unfold IsKid
        omega
      exact htrans _ _ _ (h _ i (Nat.zero_le _) hkid hi) (ih _ (by omega) (by omega))

end order

end ProgLib
