import ChocoOs.Lib.Mapped
import ChocoOs.Lib.Traverse
import ChocoOs.Llama.Math
import Mathlib.Algebra.BigOperators.Intervals
import Mathlib.Algebra.BigOperators.Ring.Finset
import Mathlib.Algebra.Order.BigOperators.Group.Finset
import Mathlib.Algebra.Order.Round
import Mathlib.Data.Rat.Floor
import Mathlib.Tactic.Linarith
import Mathlib.Tactic.Ring

/-!
# Quantization

Vectors of `qwen.c` are in groups of `gs` numbers: each number is an `int8_t`, and each group has a scale.
The arithmetic of floats is a parameter. `none` is an `int` that overflows, or a float that is out of the
range of the type it is converted to.

`matmul` multiplies integers and scales the sums of groups. With exact numbers this is the product of the
dequantized vectors, and the sums of a group fit in an `int`.
-/

namespace ChocoOs.Qwen
open ProgLib

/-- What `qwen.c` does with floats besides. -/
structure QuantOps (F : Type) extends Llama.FloatOps F where
  /-- `0.5f` -/
  half : F
  /-- The conversion to an integer type of all integers, toward zero. -/
  truncate : F → Int

/-- A quantized tensor in memory: `q` has the values and `s` the scales (`qwen.c:50-54`). -/
structure Quantized (F : Type) where
  q : Nat → Int8
  s : Nat → F

section ops

variable {F : Type} (ops : QuantOps F)

/-- `fabsf_k` (`llm_math.c:7-10`) -/
def fabsfK (x : F) : F := if ops.lt x (ops.ofInt 0) then ops.neg x else x

/-- `t->q[i] * t->s[i / gs]` -/
def dequantized (gs : Nat) (t : Quantized F) (i : Nat) : F :=
  ops.mul (ops.ofInt (t.q i).toInt) (t.s (i / gs))

/-- `dequantize_row` (`qwen.c:117-122`): what is written to `out`. -/
def dequantizeRow (gs : Nat) (t : Quantized F) (offset n : Nat) : List F :=
  (List.range n).map fun i => dequantized ops gs t (offset + i)

/-- `(int8_t)v` -/
def toInt8 (v : F) : Option Int8 :=
  let i := ops.truncate v
  if -128 ≤ i ∧ i ≤ 127 then some (Int8.ofInt i) else none

/-- The largest absolute value of a group (`qwen.c:129-135`). -/
def groupMax (gs : Nat) (x : Nat → F) : F :=
  (List.range gs).foldl (fun wmax i => if ops.lt wmax (fabsfK ops (x i)) then fabsfK ops (x i) else wmax)
    (ops.ofInt 0)

/-- A value over its scale, rounded (`qwen.c:146-147`). -/
def code (scale x : F) : Option Int8 :=
  let v := ops.div x scale
  toInt8 ops (if ops.lt v (ops.ofInt 0) then ops.sub v ops.half else ops.add v ops.half)

/-- A round of `quantize`: the codes of a group and its scale (`qwen.c:129-148`). -/
def quantizeGroup (gs : Nat) (x : Nat → F) : Option (List Int8 × F) :=
  let scale := ops.div (groupMax ops gs x) (ops.ofInt 127)
  if ops.eq scale (ops.ofInt 0) then some (List.replicate gs 0, scale)
  else ((List.range gs).mapM fun i => code ops scale (x i)).map fun codes => (codes, scale)

/-- `quantize` (`qwen.c:124-150`): what is written to `q` and to `s`. -/
def quantize (gs : Nat) (x : Nat → F) (n : Nat) : Option (List Int8 × List F) :=
  ((List.range (n / gs)).mapM fun group => quantizeGroup ops gs fun i => x (group * gs + i)).map
    fun groups => ((groups.map Prod.fst).flatten, groups.map Prod.snd)

/-! ## The product -/

/-- The sum of `int`s. There is none if it overflows. -/
def addInt (a b : Int) : Option Int := if -2 ^ 31 ≤ a + b ∧ a + b < 2 ^ 31 then some (a + b) else none

/-- The four accumulators of a group (`qwen.c:165-172`). -/
def groupLanes (gs : Nat) (xr wr : Nat → Int8) : Option (Int × Int × Int × Int) :=
  (List.range ((gs + 3) / 4)).foldlM (fun a t => do
    let i0 ← addInt a.1 ((xr (4 * t)).toInt * (wr (4 * t)).toInt)
    let i1 ← addInt a.2.1 ((xr (4 * t + 1)).toInt * (wr (4 * t + 1)).toInt)
    let i2 ← addInt a.2.2.1 ((xr (4 * t + 2)).toInt * (wr (4 * t + 2)).toInt)
    let i3 ← addInt a.2.2.2 ((xr (4 * t + 3)).toInt * (wr (4 * t + 3)).toInt)
    return (i0, i1, i2, i3)) (0, 0, 0, 0)

/-- `(i0 + i1) + (i2 + i3)` -/
def groupDot (gs : Nat) (xr wr : Nat → Int8) : Option Int := do
  let a ← groupLanes gs xr wr
  let lo ← addInt a.1 a.2.1
  let hi ← addInt a.2.2.1 a.2.2.2
  addInt lo hi

/-- A row of `matmul` (`qwen.c:159-176`): `inp` is the place of the row in `w`. -/
def rowValue (gs : Nat) (x w : Quantized F) (n inp : Nat) : Option F :=
  (List.range (n / gs)).foldlM (fun val t => do
    let j := t * gs
    let dot ← groupDot gs (fun k => x.q (j + k)) fun k => w.q (inp + j + k)
    return ops.add val
      (ops.mul (ops.mul (ops.ofInt dot) (w.s ((inp + j) / gs))) (x.s (j / gs)))) (ops.ofInt 0)

/-- `matmul` (`qwen.c:153-178`): what is written to `xout`. -/
def matmul (gs : Nat) (x w : Quantized F) (n d : Nat) : Option (List F) :=
  (List.range d).mapM fun i => rowValue ops gs x w n (i * n % addrSpace)

end ops

/-- Exact arithmetic, with the rounding toward zero of a conversion. -/
def exactQuant (kernels : Llama.FloatOps ℚ) : QuantOps ℚ :=
  { Llama.exactOps kernels with
    half := 1 / 2
    truncate := fun a => if a < 0 then ⌈a⌉ else ⌊a⌋ }

/-! ## Sums in groups -/

/-- A sum over groups of equal size. -/
theorem sum_groups {M : Type*} [AddCommMonoid M] (f : Nat → M) (gs m : Nat) :
    ∑ j ∈ Finset.range (m * gs), f j = ∑ t ∈ Finset.range m, ∑ k ∈ Finset.range gs, f (t * gs + k) := by
  induction m with
  | zero => rw [Nat.zero_mul, Finset.sum_range_zero, Finset.sum_range_zero]
  | succ m ih => rw [Nat.succ_mul, Finset.sum_range_add, ih, Finset.sum_range_succ]

/-- What a loop adds up, if each round succeeds. -/
theorem foldlM_sum {M : Type} [AddCommMonoid M] {step : M → Nat → Option M} {f : Nat → M} {n : Nat}
    (h : ∀ t < n, ∀ val, step val t = some (val + f t)) :
    (List.range n).foldlM step 0 = some (∑ t ∈ Finset.range n, f t) := by
  induction n with
  | zero => rfl
  | succ n ih =>
    rw [List.range_succ, List.foldlM_append, ih fun t ht => h t (Nat.lt_succ_of_lt ht),
      Finset.sum_range_succ, Option.bind_eq_bind, Option.bind_some, List.foldlM_cons,
      h n (Nat.lt_succ_self n)]
    rfl

/-! ## The accumulators -/

section dot

variable (xr wr : Nat → Int8)

/-- A product of two values. -/
def prodAt (k : Nat) : Int := (xr k).toInt * (wr k).toInt

theorem abs_toInt_le (a : Int8) : |a.toInt| ≤ 128 := by
  have hlo := a.le_toInt
  have hhi := a.toInt_lt
  exact abs_le.mpr ⟨by omega, by omega⟩

theorem abs_prodAt_le (k : Nat) : |prodAt xr wr k| ≤ 16384 := by
  rw [prodAt, abs_mul]
  calc |(xr k).toInt| * |(wr k).toInt| ≤ 128 * 128 :=
        mul_le_mul (abs_toInt_le _) (abs_toInt_le _) (abs_nonneg _) (by decide)
    _ = 16384 := by decide

/-- An accumulator after `n` rounds. -/
def lane (r n : Nat) : Int := ∑ t ∈ Finset.range n, prodAt xr wr (4 * t + r)

theorem abs_lane_le (r n : Nat) : |lane xr wr r n| ≤ n * 16384 := by
  calc |lane xr wr r n| ≤ ∑ t ∈ Finset.range n, |prodAt xr wr (4 * t + r)| :=
        Finset.abs_sum_le_sum_abs _ _
    _ ≤ ∑ _t ∈ Finset.range n, (16384 : Int) := Finset.sum_le_sum fun t _ => abs_prodAt_le xr wr _
    _ = n * 16384 := by rw [Finset.sum_const, Finset.card_range, nsmul_eq_mul]

theorem addInt_eq {a b : Int} {c : Int} (h : a + b = c) (hc : |c| < 2 ^ 31) : addInt a b = some c := by
  have hbounds := abs_lt.mp hc
  rw [addInt, h, if_pos]
  omega

/-- No accumulator overflows in 2^14 rounds. -/
theorem lanes_eq {n : Nat} (hn : n ≤ 2 ^ 14) :
    (List.range n).foldlM (fun (a : Int × Int × Int × Int) t => do
      let i0 ← addInt a.1 ((xr (4 * t)).toInt * (wr (4 * t)).toInt)
      let i1 ← addInt a.2.1 ((xr (4 * t + 1)).toInt * (wr (4 * t + 1)).toInt)
      let i2 ← addInt a.2.2.1 ((xr (4 * t + 2)).toInt * (wr (4 * t + 2)).toInt)
      let i3 ← addInt a.2.2.2 ((xr (4 * t + 3)).toInt * (wr (4 * t + 3)).toInt)
      return (i0, i1, i2, i3)) (0, 0, 0, 0) =
      some (lane xr wr 0 n, lane xr wr 1 n, lane xr wr 2 n, lane xr wr 3 n) := by
  induction n with
  | zero => rfl
  | succ n ih =>
    have hadd : ∀ r, addInt (lane xr wr r n) (prodAt xr wr (4 * n + r)) =
        some (lane xr wr r (n + 1)) := by
      intro r
      apply addInt_eq
      · rw [lane, lane, Finset.sum_range_succ]
      · have hle := abs_lane_le xr wr r (n + 1)
        push_cast at hle
        omega
    rw [List.range_succ, List.foldlM_append, ih (by omega), Option.bind_eq_bind, Option.bind_some,
      List.foldlM_cons]
    have h0 := hadd 0
    have h1 := hadd 1
    have h2 := hadd 2
    have h3 := hadd 3
    unfold prodAt at h0 h1 h2 h3
    simp only [Nat.add_zero] at h0
    simp only [h0, h1, h2, h3, Option.bind_eq_bind, Option.bind_some]
    rfl

/-- A group of at most 65536 values has the sum of its products. -/
theorem groupDot_eq {gs : Nat} (h4 : 4 ∣ gs) (hgs : gs ≤ 65536) :
    groupDot gs xr wr = some (∑ k ∈ Finset.range gs, prodAt xr wr k) := by
  obtain ⟨q, rfl⟩ := h4
  have hrounds : (4 * q + 3) / 4 = q := by omega
  have hlanes := lanes_eq xr wr (show q ≤ 2 ^ 14 by omega)
  have hbound : ∀ r, |lane xr wr r q| ≤ 2 ^ 28 := by
    intro r
    have hle := abs_lane_le xr wr r q
    omega
  have hb0 := abs_le.mp (hbound 0)
  have hb1 := abs_le.mp (hbound 1)
  have hb2 := abs_le.mp (hbound 2)
  have hb3 := abs_le.mp (hbound 3)
  have hsum : ∑ k ∈ Finset.range (4 * q), prodAt xr wr k =
      (lane xr wr 0 q + lane xr wr 1 q) + (lane xr wr 2 q + lane xr wr 3 q) := by
    rw [Nat.mul_comm, sum_groups, lane, lane, lane, lane, ← Finset.sum_add_distrib,
      ← Finset.sum_add_distrib, ← Finset.sum_add_distrib]
    apply Finset.sum_congr rfl
    intro t _
    rw [Finset.sum_range_succ, Finset.sum_range_succ, Finset.sum_range_succ, Finset.sum_range_one,
      Nat.mul_comm t 4, Nat.add_zero]
    ring
  rw [groupDot, groupLanes, hrounds, hlanes, hsum, Option.bind_eq_bind, Option.bind_some]
  simp only
  rw [addInt_eq rfl (abs_lt.mpr ⟨by omega, by omega⟩), Option.bind_eq_bind, Option.bind_some,
    addInt_eq rfl (abs_lt.mpr ⟨by omega, by omega⟩), Option.bind_some]
  exact addInt_eq rfl (abs_lt.mpr ⟨by omega, by omega⟩)

end dot

/-! ## The rows -/

/-- The groups of a row are whole groups of the matrix. -/
theorem rowValue_eq (kernels : Llama.FloatOps ℚ) {gs : Nat} (hpos : 0 < gs) (h4 : 4 ∣ gs)
    (hgs : gs ≤ 65536) (x w : Quantized ℚ) {n : Nat} (hn : gs ∣ n) (i : Nat) :
    rowValue (exactQuant kernels) gs x w n (i * n) =
      some (∑ j ∈ Finset.range n, ((x.q j).toInt * x.s (j / gs)) *
        ((w.q (i * n + j)).toInt * w.s ((i * n + j) / gs))) := by
  obtain ⟨m, rfl⟩ := hn
  have hcount : gs * m / gs = m := Nat.mul_div_cancel_left m hpos
  rw [rowValue, hcount, Nat.mul_comm gs m, sum_groups]
  have hzero : (exactQuant kernels).ofInt 0 = 0 := Int.cast_zero
  rw [hzero]
  apply foldlM_sum
  intro t _ val
  have hgroup : ∀ k < gs, (t * gs + k) / gs = t ∧ (i * (m * gs) + (t * gs + k)) / gs = i * m + t := by
    intro k hk
    have hflat : i * (m * gs) + (t * gs + k) = (i * m + t) * gs + k := by ring
    rw [hflat]
    constructor
    · rw [Nat.add_comm, Nat.add_mul_div_right _ _ hpos, Nat.div_eq_of_lt hk, Nat.zero_add]
    · rw [Nat.add_comm, Nat.add_mul_div_right _ _ hpos, Nat.div_eq_of_lt hk, Nat.zero_add]
  obtain ⟨hx, hw⟩ := hgroup 0 hpos
  rw [Nat.add_zero] at hx hw
  simp only
  rw [groupDot_eq _ _ h4 hgs, Option.bind_eq_bind, Option.bind_some, hx, hw]
  have hterm : ((∑ k ∈ Finset.range gs, prodAt (fun k => x.q (t * gs + k))
      (fun k => w.q (i * (m * gs) + t * gs + k)) k : Int) : ℚ) * w.s (i * m + t) * x.s t =
      ∑ k ∈ Finset.range gs, ((x.q (t * gs + k)).toInt * x.s ((t * gs + k) / gs)) *
        ((w.q (i * (m * gs) + (t * gs + k))).toInt * w.s ((i * (m * gs) + (t * gs + k)) / gs)) := by
    rw [Int.cast_sum, Finset.sum_mul, Finset.sum_mul]
    apply Finset.sum_congr rfl
    intro k hk
    obtain ⟨hxk, hwk⟩ := hgroup k (Finset.mem_range.mp hk)
    rw [hxk, hwk, prodAt, Int.cast_mul, Nat.add_assoc]
    ring
  exact congrArg (fun v => some (val + v)) hterm

/-- The product of quantized vectors is that of the dequantized ones, and no `int` overflows. -/
theorem matmul_eq_dequantized (kernels : Llama.FloatOps ℚ) {gs : Nat} (hpos : 0 < gs) (h4 : 4 ∣ gs)
    (hgs : gs ≤ 65536) (x w : Quantized ℚ) {n d : Nat} (hn : gs ∣ n) (hnint : n < 2 ^ 31)
    (hdint : d < 2 ^ 31) : matmul (exactQuant kernels) gs x w n d =
      some ((List.range d).map fun i => ∑ j ∈ Finset.range n, ((x.q j).toInt * x.s (j / gs)) *
        ((w.q (i * n + j)).toInt * w.s ((i * n + j) / gs))) := by
  apply mapM_eq_map
  intro i hi
  rw [List.mem_range] at hi
  have hwrap : i * n % addrSpace = i * n := by
    apply Nat.mod_eq_of_lt
    rw [addrSpace_eq]
    calc i * n < 2 ^ 31 * 2 ^ 31 := Nat.mul_lt_mul'' (by omega) hnint
      _ ≤ _ := by decide
  rw [hwrap]
  exact rowValue_eq kernels hpos h4 hgs x w hn i

/-- Two rows of two groups, with the largest products. -/
theorem matmul_eq_dequantized_boot :
    matmul (exactQuant Llama.testKernels) 4 ⟨fun _ => -128, fun t => t⟩ ⟨fun _ => -128, fun _ => 1 / 2⟩
      8 2 = some ((List.range 2).map fun _ => ∑ j ∈ Finset.range 8,
        (((-128 : Int8).toInt : ℚ) * ((j / 4 : Nat) : ℚ)) * (((-128 : Int8).toInt : ℚ) * (1 / 2))) :=
  matmul_eq_dequantized Llama.testKernels (by decide) (by decide) (by decide)
    ⟨fun _ => -128, fun t => t⟩ ⟨fun _ => -128, fun _ => 1 / 2⟩ (by decide) (by decide) (by decide)

end ChocoOs.Qwen
