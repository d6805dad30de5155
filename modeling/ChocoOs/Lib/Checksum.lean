import Mathlib.Data.List.Basic
import Mathlib.Data.Nat.ModEq

/-!
# The internet checksum

The checksum of a message is the complement of the ones' complement sum of its 16-bit words. Carries
are folded back until the sum fits; a message with its checksum in place sums to `0xFFFF`.
-/

namespace ProgLib

/-- The sum of the big-endian 16-bit words; an odd last byte is the high half of a word. -/
def wordSum : List UInt8 → Nat
  | a :: b :: rest => a.toNat * 256 + b.toNat + wordSum rest
  | [a] => a.toNat * 256
  | [] => 0

/-- `while (sum >> 16) sum = (sum & 0xFFFF) + (sum >> 16)`, for at most `fuel` rounds. -/
def foldCarry : Nat → Nat → Nat
  | 0, sum => sum
  | fuel + 1, sum => if sum / 65536 = 0 then sum else foldCarry fuel (sum % 65536 + sum / 65536)

/-- The ones' complement sum. -/
def onesSum (sum : Nat) : Nat := foldCarry sum sum

theorem foldCarry_spec {fuel sum : Nat} (h : sum ≤ fuel) : foldCarry fuel sum < 65536 ∧
    foldCarry fuel sum ≡ sum [MOD 65535] ∧ (0 < sum → 0 < foldCarry fuel sum) := by
  induction fuel generalizing sum with
  | zero =>
    obtain rfl : sum = 0 := by omega
    exact ⟨Nat.zero_lt_succ _, rfl, id⟩
  | succ fuel ih =>
    rw [foldCarry]
    by_cases hsmall : sum / 65536 = 0
    · rw [if_pos hsmall]
      exact ⟨by omega, rfl, id⟩
    · rw [if_neg hsmall]
      obtain ⟨hlt, hmod, hpos⟩ := ih (show sum % 65536 + sum / 65536 ≤ fuel by omega)
      refine ⟨hlt, hmod.trans ?_, fun _ => hpos (by omega)⟩
      -- a carry is worth one
      show (sum % 65536 + sum / 65536) % 65535 = sum % 65535
      omega

/-- A sum and the complement of its fold make `0xFFFF`. -/
theorem onesSum_complement (sum : Nat) : onesSum (sum + (65535 - onesSum sum)) = 65535 := by
  obtain ⟨hlt, hmod, -⟩ := foldCarry_spec (Nat.le_refl sum)
  obtain ⟨hlt', hmod', hpos'⟩ := foldCarry_spec (Nat.le_refl (sum + (65535 - onesSum sum)))
  unfold onesSum at *
  have hzero : (sum + (65535 - foldCarry sum sum)) % 65535 = 0 := by
    have : foldCarry sum sum % 65535 = sum % 65535 := hmod
    omega
  have hpos := hpos' (by
    rcases Nat.eq_zero_or_pos sum with rfl | hpos
    · exact Nat.zero_lt_succ _
    · omega)
  have : _ % 65535 = _ % 65535 := hmod'
  omega

/-- Words before an even place sum up on their own. -/
theorem wordSum_append {a b : List UInt8} (h : a.length % 2 = 0) :
    wordSum (a ++ b) = wordSum a + wordSum b := by
  match a, h with
  | [], _ => rw [List.nil_append, wordSum, Nat.zero_add]
  | [_], h => exact absurd h Nat.one_ne_zero
  | x :: y :: rest, h =>
    have hrest : rest.length % 2 = 0 := by
      simp only [List.length_cons] at h
      omega
    rw [List.cons_append, List.cons_append, wordSum, wordSum, wordSum_append hrest]
    omega

end ProgLib
