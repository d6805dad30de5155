import ChocoOs.Lib.ByteMem
import ChocoOs.Tok.Index

/-!
# What the sort rests on

`tok_sort` compares the strings of the entries where they are in memory. There `strcmp` stops at the first
byte that differs or at the terminators, and its sign is a total preorder.
-/

namespace ChocoOs.Tok
open ProgLib

/-! ## Strings in memory -/

/-- The bytes of a string and its terminator are in memory from `a` on. -/
def StringAt (m : Mem) (a : Nat) : List UInt8 → Prop
  | [] => m a = 0
  | b :: s => m a = b ∧ StringAt m (a + 1) s

/-- One round of the loop of `strcmp`. -/
def strcmpRound (m : Mem) : Nat × Nat → Option (LoopStep (Nat × Nat) Int)
  | (a, b) =>
    if m a ≠ 0 ∧ m a = m b then some (.next (a + 1, b + 1))
    else some (.done ((m a).toNat - (m b).toNat))

/-- `strcmp` on memory (`string.c:12-20`), for at most `fuel` rounds. -/
def strcmpAt (m : Mem) (fuel a b : Nat) : Option Int := loop (strcmpRound m) fuel (a, b)

/-- On two terminated strings the loop ends, with what `strcmp` says of their bytes. -/
theorem strcmpAt_eq {m : Mem} {s t : CString} {a b fuel : Nat} (hs : StringAt m a s.1)
    (ht : StringAt m b t.1) (hfuel : s.length < fuel) :
    strcmpAt m fuel a b = some (strcmp s.1 t.1) := by
  obtain ⟨s, hs0⟩ := s
  obtain ⟨t, ht0⟩ := t
  simp only [CString.length] at hs ht hfuel ⊢
  unfold strcmpAt
  induction s generalizing t a b fuel with
  | nil =>
    -- the first string ends here
    obtain ⟨k, rfl⟩ : ∃ k, fuel = k + 1 := ⟨fuel - 1, by omega⟩
    have hend : strcmpRound m (a, b) = some (.done ((m a).toNat - (m b).toNat)) :=
      if_neg fun h => h.1 hs
    rw [loop_of_done hend, show m a = 0 from hs]
    cases t with
    | nil => rw [show m b = 0 from ht, strcmp]; rfl
    | cons y t => rw [ht.1, strcmp]; simp
  | cons x s ih =>
    obtain ⟨k, rfl⟩ : ∃ k, fuel = k + 1 := ⟨fuel - 1, by omega⟩
    have hx : x ≠ 0 := fun h => hs0 (h ▸ List.mem_cons_self)
    by_cases heq : m a = m b
    · have hnext : strcmpRound m (a, b) = some (.next (a + 1, b + 1)) :=
        if_pos ⟨fun h => hx (hs.1.symm.trans h), heq⟩
      cases t with
      | nil => exact absurd (hs.1.symm.trans (heq.trans ht)) hx
      | cons y t =>
        have hxy : x = y := hs.1.symm.trans (heq.trans ht.1)
        have hlen : s.length < k := Nat.succ_lt_succ_iff.mp hfuel
        rw [loop_of_next hnext, strcmp, if_pos hxy]
        exact ih (fun h => hs0 (List.mem_cons_of_mem x h)) hs.2 hlen t
          (fun h => ht0 (List.mem_cons_of_mem y h)) ht.2
    · have hend : strcmpRound m (a, b) = some (.done ((m a).toNat - (m b).toNat)) :=
        if_neg fun h => heq h.2
      rw [loop_of_done hend, hs.1]
      cases t with
      | nil => rw [show m b = 0 from ht, strcmp]; simp
      | cons y t =>
        have hxy : x ≠ y := fun h => heq (hs.1.trans (h.trans ht.1.symm))
        rw [ht.1, strcmp, if_neg hxy]

/-! ## The order -/

/-- Of two strings one is not above the other. -/
theorem strcmp_total (s t : List UInt8) : strcmp s t ≤ 0 ∨ strcmp t s ≤ 0 := by
  rw [strcmp_neg s t]
  omega

/-- `tok_sort` ends, accesses no entry outside the array, and leaves its entries in the order of `strcmp`,
    which is a total preorder. -/
theorem tokSort_sorts {n : Nat} (arr : Nat → TokenIndex) (hn : n ≤ 2 ^ 30) :
    (∃ g, tokSort n arr = some g ∧ Rearranged n arr g ∧
      ∀ i j, i ≤ j → j < n → compareTokens (g i) (g j) ≤ 0) ∧
    (∀ s : CString, strcmp s.1 s.1 ≤ 0) ∧
    (∀ s t : CString, strcmp s.1 t.1 ≤ 0 ∨ strcmp t.1 s.1 ≤ 0) ∧
    (∀ s t u : CString, strcmp s.1 t.1 ≤ 0 → strcmp t.1 u.1 ≤ 0 → strcmp s.1 u.1 ≤ 0) ∧
    ∀ s t : CString, 0 ≤ strcmp s.1 t.1 ↔ strcmp t.1 s.1 ≤ 0 := by
  refine ⟨?_, ?_, ?_, ?_, ?_⟩
  · obtain ⟨g, hg, hperm, hsorted⟩ := tokSort_eq arr hn
    exact ⟨g, hg, hperm, fun i j hij hj => hsorted i j hij hj⟩
  · intro s
    exact Int.le_of_eq (strcmp_self s.1)
  · intro s t
    exact strcmp_total s.1 t.1
  · intro s t u
    exact strcmp_trans
  · intro s t
    rw [strcmp_neg s.1 t.1]
    omega

/-- Two entries. -/
theorem tokSort_sorts_two :
    (∃ g, tokSort 2 (vocabIndex [⟨[98], by decide⟩, ⟨[97], by decide⟩]) = some g ∧
      Rearranged 2 (vocabIndex [⟨[98], by decide⟩, ⟨[97], by decide⟩]) g ∧
      ∀ i j, i ≤ j → j < 2 → compareTokens (g i) (g j) ≤ 0) ∧
    (∀ s : CString, strcmp s.1 s.1 ≤ 0) ∧
    (∀ s t : CString, strcmp s.1 t.1 ≤ 0 ∨ strcmp t.1 s.1 ≤ 0) ∧
    (∀ s t u : CString, strcmp s.1 t.1 ≤ 0 → strcmp t.1 u.1 ≤ 0 → strcmp s.1 u.1 ≤ 0) ∧
    ∀ s t : CString, 0 ≤ strcmp s.1 t.1 ↔ strcmp t.1 s.1 ≤ 0 :=
  tokSort_sorts (vocabIndex [⟨[98], by decide⟩, ⟨[97], by decide⟩]) (by decide)

end ChocoOs.Tok
