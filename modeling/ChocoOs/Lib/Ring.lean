import Mathlib.Data.Nat.ModEq

/-!
# Rings of slots

Two counters that only grow name the slots of a ring of `n` by their remainders: `lo` counts what
has left it and `hi` what has entered. While fewer than `n` slots are taken, the remainders tell
how many there are.
-/

namespace ProgLib

variable {n lo hi i j : Nat}

/-- Two places less than a round apart are different slots. -/
theorem ring_slot_inj (hi : lo ≤ i ∧ i < lo + n) (hj : lo ≤ j ∧ j < lo + n) (h : i % n = j % n) :
    i = j := by
  obtain ⟨a, rfl⟩ := Nat.exists_eq_add_of_le hi.1
  obtain ⟨b, rfl⟩ := Nat.exists_eq_add_of_le hj.1
  have hab : a % n = b % n := Nat.ModEq.add_left_cancel' lo h
  rw [Nat.mod_eq_of_lt (by omega), Nat.mod_eq_of_lt (by omega)] at hab
  rw [hab]

/-- The number of taken slots. -/
theorem ring_distance (hle : lo ≤ hi) (hlt : hi < lo + n) :
    (hi % n + n - lo % n) % n = hi - lo := by
  obtain ⟨d, rfl⟩ := Nat.exists_eq_add_of_le hle
  have hmod : lo % n < n := Nat.mod_lt _ (by omega)
  have hsplit : (lo + d) % n = (lo % n + d) % n := (Nat.mod_add_mod lo n d).symm
  rw [hsplit, Nat.add_sub_cancel_left]
  by_cases hwrap : lo % n + d < n
  · rw [Nat.mod_eq_of_lt hwrap, show lo % n + d + n - lo % n = d + n by omega, Nat.add_mod_right,
      Nat.mod_eq_of_lt (by omega)]
  · have hred : (lo % n + d) % n = lo % n + d - n := by
      rw [Nat.mod_eq_sub_mod (by omega), Nat.mod_eq_of_lt (by omega)]
    rw [hred, show lo % n + d - n + n - lo % n = d by omega, Nat.mod_eq_of_lt (by omega)]

/-- The slot after one. -/
theorem ring_succ (i n : Nat) : (i % n + 1) % n = (i + 1) % n := Nat.mod_add_mod i n 1

end ProgLib
