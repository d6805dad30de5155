import Mathlib.Logic.Function.Iterate
import Mathlib.Order.Basic

/-!
# Shifts and exclusive or

A word is combined with a shifted copy of itself. Going from the side where the copy has only zeros, each bit
of the word can be read off the result, so that nothing is lost.
-/

namespace ProgLib

variable {w k : Nat}

/-- `x ^= x >> k` -/
def xorRight (k : Nat) (x : BitVec w) : BitVec w := x ^^^ (x >>> k)

/-- `x ^= x << k` -/
def xorLeft (k : Nat) (x : BitVec w) : BitVec w := x ^^^ (x <<< k)

theorem getLsbD_xorRight (x : BitVec w) (i : Nat) :
    (xorRight k x).getLsbD i = (x.getLsbD i ^^ x.getLsbD (k + i)) := by
  rw [xorRight, BitVec.getLsbD_xor, BitVec.getLsbD_ushiftRight]

theorem getLsbD_xorLeft (x : BitVec w) (i : Nat) :
    (xorLeft k x).getLsbD i = (x.getLsbD i ^^ (decide (i < w) && !decide (i < k) && x.getLsbD (i - k))) := by
  rw [xorLeft, BitVec.getLsbD_xor, BitVec.getLsbD_shiftLeft]

/-- The highest `k` bits of a word stay, and each further bit follows from the one `k` places above. -/
theorem xorRight_injective (hk : 0 < k) : Function.Injective (xorRight k : BitVec w → BitVec w) := by
  intro x y h
  have hbits : ∀ n i, w ≤ i + n → x.getLsbD i = y.getLsbD i := by
    intro n
    induction n with
    | zero =>
      intro i hi
      rw [BitVec.getLsbD_of_ge x i hi, BitVec.getLsbD_of_ge y i hi]
    | succ n ih =>
      intro i hi
      have habove : x.getLsbD (k + i) = y.getLsbD (k + i) := ih (k + i) (by omega)
      have hbit := congrArg (BitVec.getLsbD · i) h
      simp only [getLsbD_xorRight, habove] at hbit
      exact Bool.xor_left_inj.mp hbit
  exact BitVec.eq_of_getLsbD_eq fun i _ => hbits w i (by omega)

/-- The lowest `k` bits of a word stay, and each further bit follows from the one `k` places below. -/
theorem xorLeft_injective (hk : 0 < k) : Function.Injective (xorLeft k : BitVec w → BitVec w) := by
  intro x y h
  have hbits : ∀ i, x.getLsbD i = y.getLsbD i := by
    intro i
    induction i using Nat.strongRecOn with
    | ind i ih =>
      have hbit := congrArg (BitVec.getLsbD · i) h
      simp only [getLsbD_xorLeft] at hbit
      by_cases hlow : i < k
      · simpa [hlow] using hbit
      · rw [ih (i - k) (by omega)] at hbit
        exact Bool.xor_left_inj.mp hbit
  exact BitVec.eq_of_getLsbD_eq fun i _ => hbits i

/-- An injective function that keeps a point leaves it from nowhere else, however often it is applied. -/
theorem iterate_ne_of_injective {α : Type} {f : α → α} {z x : α} (hf : Function.Injective f)
    (hz : f z = z) (hx : x ≠ z) (n : Nat) : f^[n] x ≠ z := by
  intro h
  have hfix : f^[n] z = z := Function.iterate_fixed hz n
  exact hx (hf.iterate n (h.trans hfix.symm))

end ProgLib
