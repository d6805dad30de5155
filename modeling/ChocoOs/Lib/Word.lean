import Mathlib.Algebra.Group.Nat.Defs
import Mathlib.Data.List.Basic

/-!
# 64-bit machine arithmetic on natural numbers

`size_t`, `uint64_t` and pointers are natural numbers below `2 ^ 64`; `add64`, `sub64` and
`mul64` wrap as the machine does. A pointer loop of C gets `addrSpace` as its fuel: a walk of
that many steps has come back to an address it saw before, so a loop that runs out of it
never ends.
-/

namespace ProgLib

/-- The number of addresses, and of values of a 64-bit word. It is irreducible, since terms such
    as `a + addrSpace` must never be unfolded to successors. -/
@[irreducible] def addrSpace : Nat := 2 ^ 64

theorem addrSpace_eq : addrSpace = 18446744073709551616 := by
  delta addrSpace
  decide

theorem pow_256_8 : 256 ^ 8 = addrSpace :=
  (by decide : 256 ^ 8 = 18446744073709551616).trans addrSpace_eq.symm

theorem addrSpace_pos : 0 < addrSpace := by rw [addrSpace_eq]; decide

/-- 64-bit addition. -/
def add64 (a b : Nat) : Nat := (a + b) % addrSpace

/-- 64-bit subtraction, for operands below `2 ^ 64`. -/
def sub64 (a b : Nat) : Nat := (a + addrSpace - b) % addrSpace

/-- 64-bit multiplication. -/
def mul64 (a b : Nat) : Nat := a * b % addrSpace

theorem add64_of_lt {a b : Nat} (h : a + b < addrSpace) : add64 a b = a + b :=
  Nat.mod_eq_of_lt h

theorem mul64_of_lt {a b : Nat} (h : a * b < addrSpace) : mul64 a b = a * b :=
  Nat.mod_eq_of_lt h

theorem sub64_of_le {a b : Nat} (ha : a < addrSpace) (h : b ≤ a) : sub64 a b = a - b := by
  have : a + addrSpace - b = (a - b) + addrSpace := by omega
  rw [sub64, this, Nat.add_mod_right, Nat.mod_eq_of_lt (by omega)]

theorem add64_lt (a b : Nat) : add64 a b < addrSpace := Nat.mod_lt _ addrSpace_pos

theorem sub64_lt (a b : Nat) : sub64 a b < addrSpace := Nat.mod_lt _ addrSpace_pos

/-!
## Numbers as bytes

Numbers are written lowest byte first, in a fixed number of bytes.
-/

section bytes

/-- The low `n` bytes of `v`, lowest first. -/
def leBytes : Nat → Nat → List UInt8
  | 0, _ => []
  | n + 1, v => UInt8.ofNat v :: leBytes n (v / 256)

/-- The number that bytes stand for, lowest first. -/
def leNat : List UInt8 → Nat
  | [] => 0
  | b :: bs => b.toNat + 256 * leNat bs

theorem leBytes_length (n v : Nat) : (leBytes n v).length = n := by
  induction n generalizing v with
  | zero => rfl
  | succ n ih => rw [leBytes, List.length_cons, ih]

theorem leNat_leBytes {n v : Nat} (h : v < 256 ^ n) : leNat (leBytes n v) = v := by
  induction n generalizing v with
  | zero =>
    rw [Nat.pow_zero, Nat.lt_one_iff] at h
    exact h.symm
  | succ n ih =>
    have hdiv : v / 256 < 256 ^ n := Nat.div_lt_of_lt_mul (by rwa [Nat.pow_succ'] at h)
    rw [leBytes, leNat, ih hdiv, UInt8.toNat_ofNat']
    exact Nat.mod_add_div v 256

theorem leNat_lt (bs : List UInt8) : leNat bs < 256 ^ bs.length := by
  induction bs with
  | nil => exact Nat.one_pos
  | cons b bs ih =>
    have hb := b.toNat_lt
    rw [leNat, List.length_cons, Nat.pow_succ']
    omega

end bytes

end ProgLib
