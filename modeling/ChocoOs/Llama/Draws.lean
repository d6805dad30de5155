import ChocoOs.Lib.Xorshift
import ChocoOs.Llama.Sample
import Mathlib.Algebra.Order.Field.Basic
import Mathlib.Algebra.Order.Ring.Rat
import Mathlib.Tactic.Linarith
import Mathlib.Tactic.NormNum

/-!
# The coins of the sampler

`random_u32` is a xorshift generator. Each of its three steps can be undone, so the state 0 comes from 0 only.
A coin is a quotient of two numbers that a float holds exactly, and is one itself.
-/

namespace ChocoOs.Llama
open ProgLib

/-! ## The state -/

/-- The state after a draw. -/
def nextState (state : UInt64) : UInt64 := (randomU32 state).2

/-- The three statements of `random_u32` that change the state (`llm_common.c:98-100`). -/
theorem toBitVec_nextState (state : UInt64) :
    (nextState state).toBitVec = xorRight 27 (xorLeft 25 (xorRight 12 state.toBitVec)) := rfl

theorem nextState_injective : Function.Injective nextState := by
  intro s t h
  have hbits := congrArg UInt64.toBitVec h
  simp only [toBitVec_nextState] at hbits
  have hleft := xorRight_injective (by decide) hbits
  have hright := xorLeft_injective (by decide) hleft
  exact UInt64.toBitVec_inj.mp (xorRight_injective (by decide) hright)

/-- The state after `n` draws. -/
def drawn (n : Nat) (state : UInt64) : UInt64 := nextState^[n] state

theorem drawn_succ (n : Nat) (state : UInt64) : drawn (n + 1) state = nextState (drawn n state) :=
  Function.iterate_succ_apply' nextState n state

theorem drawn_ne_zero {state : UInt64} (h : state ≠ 0) (n : Nat) : drawn n state ≠ 0 :=
  iterate_ne_of_injective nextState_injective rfl h n

/-- A token that is sampled takes one draw, or none where the likeliest is chosen. -/
theorem llmSample_rngState {F : Type} {ops : FloatOps F} {dom : Ptr → Bool} {n : Nat} {temperature topp : F}
    {rngState : UInt64} : (llmSample ops n temperature topp rngState).Yields dom fun r =>
      r.2 = rngState ∨ r.2 = nextState rngState := by
  unfold llmSample
  split
  · exact (Cmd.Yields.any _).bind fun _ _ => .done (.inl rfl)
  refine (Cmd.Yields.any _).bind fun _ _ => (Cmd.Yields.any _).bind fun _ _ => ?_
  split
  · exact (Cmd.Yields.any _).bind fun _ _ => .done (.inr rfl)
  · exact (Cmd.Yields.any _).bind fun _ _ => .done (.inr rfl)

/-! ## Floats -/

/-- The finite numbers that a `float` holds: 24 bits and an exponent. -/
def IsFloat (q : ℚ) : Prop := ∃ m e : Int, |m| < 2 ^ 24 ∧ -149 ≤ e ∧ e ≤ 104 ∧ q = m * 2 ^ e

/-- Rounding to a `float`, in any direction. A number that is one stays as it is. -/
structure Rounding where
  round : ℚ → ℚ
  exact : ∀ q, IsFloat q → round q = q

/-- The arithmetic of floats: every result is rounded. -/
def Rounding.ops (r : Rounding) (kernels : FloatOps ℚ) : FloatOps ℚ :=
  { kernels with
    ofInt := fun n => r.round n
    add := fun a b => r.round (a + b)
    sub := fun a b => r.round (a - b)
    mul := fun a b => r.round (a * b)
    div := fun a b => r.round (a / b)
    neg := fun a => -a
    lt := fun a b => decide (a < b)
    le := fun a b => decide (a ≤ b)
    eq := fun a b => decide (a = b) }

theorem isFloat_natCast {k : Nat} (hk : k < 2 ^ 24) : IsFloat k := by
  refine ⟨k, 0, ?_, by decide, by decide, by simp⟩
  rw [Int.abs_natCast]
  exact_mod_cast hk

theorem isFloat_two_pow : IsFloat (16777216 : Int) := ⟨1, 24, by decide, by decide, by decide, by norm_num⟩

theorem isFloat_coin {k : Nat} (hk : k < 2 ^ 24) : IsFloat (k / 16777216) := by
  refine ⟨k, -24, ?_, by decide, by decide, ?_⟩
  · rw [Int.abs_natCast]
    exact_mod_cast hk
  · norm_num [div_eq_mul_inv]

/-! ## The coins -/

/-- The 24 bits of which a coin is made. -/
def coinBits (state : UInt64) : Nat := ((randomU32 state).1 >>> 8).toNat

theorem coinBits_lt (state : UInt64) : coinBits state < 2 ^ 24 := by
  have hlt := (randomU32 state).1.toNat_lt
  rw [coinBits, UInt32.toNat_shiftRight, Nat.shiftRight_eq_div_pow]
  show (randomU32 state).1.toNat / 2 ^ 8 < 2 ^ 24
  omega

/-- Neither the conversions nor the division round. -/
theorem randomF32_eq (r : Rounding) (kernels : FloatOps ℚ) (state : UInt64) :
    (randomF32 (r.ops kernels) state).1 = coinBits state / 16777216 := by
  have hbits : r.round ((coinBits state : Int) : ℚ) = coinBits state := by
    rw [Int.cast_natCast]
    exact r.exact _ (isFloat_natCast (coinBits_lt state))
  have hpow : r.round ((16777216 : Int) : ℚ) = 16777216 := by
    rw [r.exact _ isFloat_two_pow]
    norm_num
  show r.round (r.round ((coinBits state : Int) : ℚ) / r.round ((16777216 : Int) : ℚ)) = _
  rw [hbits, hpow]
  exact r.exact _ (isFloat_coin (coinBits_lt state))

/-- From a state that is not 0, the state is never 0 after any number of draws, no two states have the
    same successor, and every coin is one of the 2^24 fractions from 0 on and below 1. -/
theorem draws_never_degenerate {state : UInt64} (h : state ≠ 0) (r : Rounding) (kernels : FloatOps ℚ)
    (n : Nat) : drawn n state ≠ 0 ∧
    (Function.Injective fun s => (randomF32 (r.ops kernels) s).2) ∧
    ∃ k : Nat, k < 2 ^ 24 ∧ (randomF32 (r.ops kernels) (drawn n state)).1 = k / 2 ^ 24 ∧
      0 ≤ (randomF32 (r.ops kernels) (drawn n state)).1 ∧
      (randomF32 (r.ops kernels) (drawn n state)).1 < 1 := by
  have hk := coinBits_lt (drawn n state)
  have hcoin := randomF32_eq r kernels (drawn n state)
  refine ⟨drawn_ne_zero h n, nextState_injective, coinBits (drawn n state), hk, ?_, ?_, ?_⟩
  · rw [hcoin]
    norm_num
  · rw [hcoin]
    exact div_nonneg (Nat.cast_nonneg _) (by norm_num)
  · have hcast : (coinBits (drawn n state) : ℚ) < 2 ^ 24 := by exact_mod_cast hk
    rw [hcoin, div_lt_one (by norm_num)]
    linarith

/-- With the seed that the callers put in the place of 0 (`llm.c:527`, `qwen.c:597`), and exact arithmetic. -/
theorem draws_never_degenerate_seed : drawn 3 42 ≠ 0 ∧
    (Function.Injective fun s => (randomF32 (Rounding.ops ⟨id, fun _ _ => rfl⟩ testKernels) s).2) ∧
    ∃ k : Nat, k < 2 ^ 24 ∧
      (randomF32 (Rounding.ops ⟨id, fun _ _ => rfl⟩ testKernels) (drawn 3 42)).1 = k / 2 ^ 24 ∧
      0 ≤ (randomF32 (Rounding.ops ⟨id, fun _ _ => rfl⟩ testKernels) (drawn 3 42)).1 ∧
      (randomF32 (Rounding.ops ⟨id, fun _ _ => rfl⟩ testKernels) (drawn 3 42)).1 < 1 :=
  draws_never_degenerate (by decide) ⟨id, fun _ _ => rfl⟩ testKernels 3

end ChocoOs.Llama
