import ChocoOs.Heap.Malloc
import Mathlib.Tactic.Set

/-!
# What the list operations do to the headers

`splitBlock` and `coalesceWithNext` rewrite fields of up to three blocks. The two lemmas
`header_splitBlock` and `header_coalesce` say once which headers change and how; everything
later argues about headers only.
-/

namespace ChocoOs.Heap
open ProgLib

/-- The two header ranges do not overlap. -/
def Apart (b c : Nat) : Prop := b + hdrSize ≤ c ∨ c + hdrSize ≤ b

theorem Apart.symm {b c : Nat} (h : Apart b c) : Apart c b := Or.symm h

/-- The effect of a split on the headers: the block is cut down, the new one stands between
    it and its old successor. -/
theorem header_splitBlock {m : Mem} {b size sz n p : Nat} {fr : Bool}
    (hb : header m b = ⟨sz, fr, n, p⟩) (hfit : size + hdrSize + alignment ≤ sz)
    (hend : b + hdrSize + sz ≤ addrSpace) (hn : n ≠ 0 → b + hdrSize + sz ≤ n) :
    header (splitBlock m b size) b = ⟨size, fr, b + hdrSize + size, p⟩ ∧
    header (splitBlock m b size) (b + hdrSize + size) =
      ⟨sz - size - hdrSize, true, n, b⟩ ∧
    (n ≠ 0 → header (splitBlock m b size) n =
      { header m n with prev := b + hdrSize + size }) ∧
    ∀ c, Apart c b → Apart c (b + hdrSize + size) → (n ≠ 0 → Apart c n) →
      header (splitBlock m b size) c = header m c := by
  have hh : hdrSize = 32 := rfl
  have ha : alignment = 16 := rfl
  have hnlt : n < addrSpace := by
    have := blockNext_lt m b
    rwa [blockNext_eq, hb] at this
  have hs : add64 (add64 b hdrSize) size = b + hdrSize + size := by
    rw [add64_of_lt (a := b) (by omega), add64_of_lt (by omega)]
  have hsz : sub64 (sub64 (blockSize m b) size) hdrSize = sz - size - hdrSize := by
    rw [blockSize_eq, hb, sub64_of_le (a := sz) (by omega) (by omega),
      sub64_of_le (by omega) (by omega)]
  simp only [splitBlock, hs, hsz]
  set s := b + hdrSize + size with hsdef
  -- the header of the new block is written first; the old block is untouched so far
  set m₁ := setFree (setSize m s (sz - size - hdrSize)) s true with hm₁
  have h1b : header m₁ b = ⟨sz, fr, n, p⟩ := by
    rw [hm₁, header_setFree_ne (by omega), header_setSize_ne (by omega), hb]
  set m₂ := setPrev (setNext m₁ s (blockNext m₁ b)) s b with hm₂
  have h2b : header m₂ b = ⟨sz, fr, n, p⟩ := by
    rw [hm₂, header_setPrev_ne (by omega), header_setNext_ne (by omega), h1b]
  have h2s : header m₂ s = ⟨sz - size - hdrSize, true, n, b⟩ := by
    rw [hm₂, header_setPrev (by omega), header_setNext (by rw [blockNext_eq, h1b]; exact hnlt),
      hm₁, header_setFree, header_setSize (by omega), blockNext_eq, ← hm₁, h1b]
  have h2c : ∀ c, Apart c s → header m₂ c = header m c := by
    intro c hc
    have hc' : c + hdrSize ≤ s ∨ s + hdrSize ≤ c := hc
    rw [hm₂, header_setPrev_ne hc', header_setNext_ne hc', hm₁, header_setFree_ne hc',
      header_setSize_ne hc']
  have h2n : blockNext m₂ b = n := by rw [blockNext_eq, h2b]
  rw [h2n]
  -- then the successor's `prev`, if there is a successor
  set m₃ := if n ≠ 0 then setPrev m₂ n s else m₂ with hm₃
  have h3 : ∀ c, (n ≠ 0 → Apart c n) → header m₃ c = header m₂ c := by
    intro c hc
    rw [hm₃]
    split
    · next h0 => exact header_setPrev_ne (hc h0)
    · rfl
  have h3n : n ≠ 0 → header m₃ n = { header m n with prev := s } := by
    intro h0
    have := hn h0
    rw [hm₃, if_pos h0, header_setPrev (by omega), h2c n (by unfold Apart; omega)]
  -- and last the old block's own fields
  have h4 : ∀ c, Apart c b → header (setSize (setNext m₃ b s) b size) c = header m₃ c := by
    intro c hc
    rw [header_setSize_ne hc, header_setNext_ne hc]
  refine ⟨?_, ?_, ?_, ?_⟩
  · rw [header_setSize (by omega), header_setNext (by omega),
      h3 b (fun h0 => by have := hn h0; unfold Apart; omega), h2b]
  · rw [h4 s (by unfold Apart; omega),
      h3 s (fun h0 => by have := hn h0; unfold Apart; omega), h2s]
  · intro h0
    have := hn h0
    rw [h4 n (by unfold Apart; omega), h3n h0]
  · intro c hcb hcs hcn
    rw [h4 c hcb, h3 c hcn, h2c c hcs]

/-- The effect of merging two free neighbours on the headers. The header of the block that
    disappears stays behind in memory as it was. -/
theorem header_coalesce {m : Mem} {b sz n p nsz n' : Nat}
    (hb : header m b = ⟨sz, true, n, p⟩) (hn : header m n = ⟨nsz, true, n', b⟩)
    (hn0 : n ≠ 0) (hbn : b + hdrSize ≤ n) (hsize : sz + hdrSize + nsz < addrSpace)
    (hblt : b < addrSpace) (hn' : n' ≠ 0 → n + hdrSize ≤ n') :
    header (coalesceWithNext m b) b = ⟨sz + (hdrSize + nsz), true, n', p⟩ ∧
    (n' ≠ 0 → header (coalesceWithNext m b) n' = { header m n' with prev := b }) ∧
    ∀ c, Apart c b → (n' ≠ 0 → Apart c n') → header (coalesceWithNext m b) c = header m c := by
  have hh : hdrSize = 32 := rfl
  have hnext : blockNext m b = n := by rw [blockNext_eq, hb]
  have hnlt : n' < addrSpace := by
    have := blockNext_lt m n
    rwa [blockNext_eq, hn] at this
  have hcond : n ≠ 0 ∧ blockFree m n = true ∧ blockFree m b = true := by
    rw [blockFree_eq, blockFree_eq, hn, hb]
    exact ⟨hn0, rfl, rfl⟩
  simp only [coalesceWithNext, hnext]
  rw [if_pos hcond]
  have hsum : add64 (blockSize m b) (add64 hdrSize (blockSize m n)) = sz + (hdrSize + nsz) := by
    rw [blockSize_eq, blockSize_eq, hb, hn, add64_of_lt (a := hdrSize) (by simp only; omega),
      add64_of_lt (by simp only; omega)]
  rw [hsum]
  set m₁ := setSize m b (sz + (hdrSize + nsz)) with hm₁
  have h1n : header m₁ n = ⟨nsz, true, n', b⟩ := by
    rw [hm₁, header_setSize_ne (by omega), hn]
  have h1next : blockNext m₁ n = n' := by rw [blockNext_eq, h1n]
  rw [h1next]
  set m₂ := setNext m₁ b n' with hm₂
  have h2n : blockNext m₂ n = n' := by
    rw [hm₂, blockNext_eq, header_setNext_ne (by omega), h1n]
  rw [h2n]
  have h2b : header m₂ b = ⟨sz + (hdrSize + nsz), true, n', p⟩ := by
    rw [hm₂, header_setNext (by omega), hm₁, header_setSize (by omega), hb]
  have h2c : ∀ c, Apart c b → header m₂ c = header m c := by
    intro c hc
    rw [hm₂, header_setNext_ne hc, hm₁, header_setSize_ne hc]
  by_cases h0 : n' = 0
  · simp only [h0, ne_eq, not_true_eq_false, if_false, false_implies, true_and]
    refine ⟨?_, fun c hc _ => h2c c hc⟩
    rw [h2b, h0]
  · have := hn' h0
    simp only [ne_eq, h0, not_false_eq_true, if_true, true_implies]
    refine ⟨?_, ?_, ?_⟩
    · rw [header_setPrev_ne (by omega), h2b]
    · rw [header_setPrev (by omega), h2c n' (by unfold Apart; omega)]
    · intro c hc hcn
      rw [header_setPrev_ne hcn, h2c c hc]

/-- Nothing is merged when there is no successor, or one of the two is in use. -/
theorem coalesce_eq_self {m : Mem} {b : Nat}
    (h : ¬ (blockNext m b ≠ 0 ∧ blockFree m (blockNext m b) = true ∧ blockFree m b = true)) :
    coalesceWithNext m b = m := by
  unfold coalesceWithNext
  simp only [if_neg h]

end ChocoOs.Heap
