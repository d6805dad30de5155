import ChocoOs.Lib.ByteMem
import ChocoOs.Lib.Word

/-!
# `memmove`

`memmove` of `gcc_utils.c`. It copies upwards when the source is above the destination and downwards
when it is below, and so never reads a byte that it has written.
-/

namespace ChocoOs.Memory
open ProgLib

/-- The first loop of `memmove`, after `i` rounds (`gcc_utils.c:42-45`). -/
def moveUp (m : Mem) (dest src : Nat) : Nat → Mem
  | 0 => m
  | i + 1 =>
    let m := moveUp m dest src i
    store8 m (add64 dest i) (m (add64 src i))

/-- The second loop of `memmove` from `i` down (`gcc_utils.c:49-52`). -/
def moveDown (m : Mem) (dest src : Nat) : Nat → Mem
  | 0 => m
  | i + 1 => moveDown (store8 m (add64 dest i) (m (add64 src i))) dest src i

/-- `memmove` (`gcc_utils.c:35-56`) -/
def memmove (m : Mem) (dest src n : Nat) : Mem :=
  if dest < src then moveUp m dest src n
  else if src < dest then moveDown m dest src n
  else m

/-- The `n` bytes from `a` on do not run over the end of the addresses. -/
def InSpace (a n : Nat) : Prop := a + n ≤ addrSpace

theorem InSpace.add64_eq {a n i : Nat} (h : InSpace a n) (hi : i < n) : add64 a i = a + i := by
  unfold InSpace at h
  exact add64_of_lt (by omega)

theorem InSpace.mono {a n i : Nat} (h : InSpace a n) (hi : i ≤ n) : InSpace a i := by
  unfold InSpace at h ⊢
  omega

theorem moveUp_eq {m : Mem} {dest src n : Nat} (hdest : InSpace dest n) (hsrc : InSpace src n) :
    moveUp m dest src n = copy m dest src n := by
  induction n with
  | zero => rfl
  | succ n ih =>
    have hrounds := ih (hdest.mono (Nat.le_succ n)) (hsrc.mono (Nat.le_succ n))
    simp only [moveUp, copy, hrounds, hdest.add64_eq (Nat.lt_succ_self n),
      hsrc.add64_eq (Nat.lt_succ_self n)]

theorem moveDown_eq {m : Mem} {dest src n : Nat} (hdest : InSpace dest n) (hsrc : InSpace src n) :
    moveDown m dest src n = copyDown m dest src n := by
  induction n generalizing m with
  | zero => rfl
  | succ n ih =>
    rw [moveDown, copyDown, hdest.add64_eq (Nat.lt_succ_self n), hsrc.add64_eq (Nat.lt_succ_self n)]
    exact ih (hdest.mono (Nat.le_succ n)) (hsrc.mono (Nat.le_succ n))

/-- Each byte of the destination, and every other byte. -/
theorem memmove_spec {dest src n : Nat} (m : Mem) (hdest : InSpace dest n) (hsrc : InSpace src n) :
    (∀ i < n, memmove m dest src n (dest + i) = m (src + i)) ∧
      SameOutside m (memmove m dest src n) dest (dest + n) := by
  unfold memmove
  by_cases hup : dest < src
  · rw [if_pos hup, moveUp_eq hdest hsrc]
    exact ⟨fun i hi => copy_apply_of_le (Nat.le_of_lt hup) hi, sameOutside_copy m dest src n⟩
  rw [if_neg hup]
  by_cases hdown : src < dest
  · rw [if_pos hdown, moveDown_eq hdest hsrc]
    exact ⟨fun i hi => copyDown_apply_of_le (Nat.le_of_lt hdown) hi, sameOutside_copyDown m dest src n⟩
  · -- source and destination are the same range
    have hsame : dest = src := by omega
    rw [if_neg hdown, hsame]
    exact ⟨fun i _ => rfl, SameOutside.refl m _ _⟩

/-- `memmove` copies as if through a temporary. -/
theorem memmove_copies {dest src n : Nat} (m : Mem) (hdest : InSpace dest n) (hsrc : InSpace src n) :
    (∀ i < n, memmove m dest src n (dest + i) = m (src + i)) ∧
      ∀ x, ¬ (dest ≤ x ∧ x < dest + n) → memmove m dest src n x = m x := by
  obtain ⟨hmoved, hframe⟩ := memmove_spec m hdest hsrc
  exact ⟨hmoved, fun x hx => hframe x (by omega)⟩

/-- Three of four bytes are moved by one place. -/
theorem memmove_copies_overlap :
    (∀ i < 3, memmove (fun a => UInt8.ofNat a) 1 0 3 (1 + i) = UInt8.ofNat (0 + i)) ∧
      ∀ x, ¬ (1 ≤ x ∧ x < 1 + 3) → memmove (fun a => UInt8.ofNat a) 1 0 3 x = UInt8.ofNat x :=
  memmove_copies (fun a => UInt8.ofNat a)
    (by unfold InSpace; rw [addrSpace_eq]; decide) (by unfold InSpace; rw [addrSpace_eq]; decide)

end ChocoOs.Memory
