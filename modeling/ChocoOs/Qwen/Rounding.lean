import ChocoOs.Lib.Traverse
import ChocoOs.Qwen.Quantized
import Mathlib.Tactic.FieldSimp
import Mathlib.Tactic.Linarith

/-!
# What quantization loses

With exact numbers a code is off by half a scale at most. The largest value of a group gets the largest
code, so quantizing the result again changes nothing.
-/

namespace ChocoOs.Qwen
open ProgLib

/-! ## Rounding -/

/-- The nearest integer, halves away from zero. -/
def roundAway (v : ℚ) : Int := if v < 0 then ⌈v - 1 / 2⌉ else ⌊v + 1 / 2⌋

theorem abs_sub_roundAway_le (v : ℚ) : |v - roundAway v| ≤ 1 / 2 := by
  unfold roundAway
  split
  · have hle := Int.le_ceil (v - 1 / 2)
    have hlt := Int.ceil_lt_add_one (v - 1 / 2)
    exact abs_le.mpr ⟨by linarith, by linarith⟩
  · have hle := Int.floor_le (v + 1 / 2)
    have hlt := Int.lt_floor_add_one (v + 1 / 2)
    exact abs_le.mpr ⟨by linarith, by linarith⟩

theorem roundAway_intCast (z : Int) : roundAway z = z := by
  unfold roundAway
  split
  · apply Int.ceil_eq_iff.mpr
    constructor <;> linarith
  · apply Int.floor_eq_iff.mpr
    constructor <;> linarith

/-- No value in the range rounds out of it. -/
theorem abs_roundAway_le {v : ℚ} {n : Nat} (h : |v| ≤ n) : |roundAway v| ≤ n := by
  obtain ⟨hlo, hhi⟩ := abs_le.mp h
  have hround := abs_le.mp (abs_sub_roundAway_le v)
  have hup : (roundAway v : ℚ) < (n + 1 : Int) := by
    push_cast
    linarith
  have hdown : ((-n - 1 : Int) : ℚ) < roundAway v := by
    push_cast
    linarith
  have hup := Int.cast_lt.mp hup
  have hdown := Int.cast_lt.mp hdown
  exact abs_le.mpr ⟨by omega, by omega⟩

/-! ## The scale of a group -/

variable {kernels : Llama.FloatOps ℚ}

theorem fabsfK_eq (x : ℚ) : fabsfK (exactQuant kernels) x = |x| := by
  have hzero : (exactQuant kernels).ofInt 0 = 0 := Int.cast_zero
  have hlt : (exactQuant kernels).lt x 0 = decide (x < 0) := rfl
  rw [fabsfK, hzero, hlt]
  by_cases hx : x < 0
  · rw [decide_eq_true hx, if_pos rfl, abs_of_neg hx]
    rfl
  · rw [decide_eq_false hx, if_neg Bool.false_ne_true, abs_of_nonneg (not_lt.mp hx)]

/-- `c` is the largest absolute value of a group, or 0. -/
structure IsGroupMax (gs : Nat) (x : Nat → ℚ) (c : ℚ) : Prop where
  nonneg : 0 ≤ c
  le : ∀ i < gs, |x i| ≤ c
  attained : c = 0 ∨ ∃ i < gs, |x i| = c

theorem IsGroupMax.unique {gs : Nat} {x : Nat → ℚ} {c c' : ℚ} (h : IsGroupMax gs x c)
    (h' : IsGroupMax gs x c') : c = c' := by
  have hle : ∀ {c c' : ℚ}, IsGroupMax gs x c → IsGroupMax gs x c' → c ≤ c' := by
    intro c c' h h'
    rcases h.attained with rfl | ⟨i, hi, rfl⟩
    · exact h'.nonneg
    · exact h'.le i hi
  exact le_antisymm (hle h h') (hle h' h)

theorem groupMax_isGroupMax (gs : Nat) (x : Nat → ℚ) :
    IsGroupMax gs x (groupMax (exactQuant kernels) gs x) := by
  induction gs with
  | zero => exact ⟨le_of_eq Int.cast_zero.symm, nofun, .inl Int.cast_zero⟩
  | succ gs ih =>
    have hstep : groupMax (exactQuant kernels) (gs + 1) x =
        if groupMax (exactQuant kernels) gs x < |x gs| then |x gs|
        else groupMax (exactQuant kernels) gs x := by
      have hlt : ∀ a b, (exactQuant kernels).lt a b = decide (a < b) := fun a b => rfl
      unfold groupMax
      rw [List.range_succ, List.foldl_append, List.foldl_cons, List.foldl_nil, fabsfK_eq, hlt]
      simp only [decide_eq_true_eq]
    rw [hstep]
    generalize groupMax (exactQuant kernels) gs x = c at ih
    split
    · next hlarge =>
      refine ⟨abs_nonneg _, fun i hi => ?_, .inr ⟨gs, Nat.lt_succ_self gs, rfl⟩⟩
      rcases Nat.lt_succ_iff_lt_or_eq.mp hi with hi | rfl
      · exact le_trans (ih.le i hi) (le_of_lt hlarge)
      · exact le_refl _
    · next hsmall =>
      refine ⟨ih.nonneg, fun i hi => ?_, ih.attained.imp_right fun ⟨i, hi, he⟩ =>
        ⟨i, Nat.lt_succ_of_lt hi, he⟩⟩
      rcases Nat.lt_succ_iff_lt_or_eq.mp hi with hi | rfl
      · exact ih.le i hi
      · exact not_lt.mp hsmall

/-- The scale of a group. -/
def groupScale (kernels : Llama.FloatOps ℚ) (gs : Nat) (x : Nat → ℚ) : ℚ :=
  groupMax (exactQuant kernels) gs x / 127

theorem groupScale_nonneg (gs : Nat) (x : Nat → ℚ) : 0 ≤ groupScale kernels gs x :=
  div_nonneg (groupMax_isGroupMax gs x).nonneg (by norm_num)

theorem abs_le_groupScale {gs : Nat} {x : Nat → ℚ} {i : Nat} (hi : i < gs) :
    |x i| ≤ 127 * groupScale kernels gs x := by
  have hle := (@groupMax_isGroupMax kernels gs x).le i hi
  rw [groupScale]
  linarith

/-! ## Codes -/

/-- The code of a value. -/
def roundCode (scale v : ℚ) : Int := if scale = 0 then 0 else roundAway (v / scale)

section code

variable {scale v : ℚ}

theorem abs_div_le (h : |v| ≤ 127 * scale) (hpos : 0 < scale) : |v / scale| ≤ (127 : Nat) := by
  rw [abs_div, abs_of_pos hpos, div_le_iff₀ hpos]
  exact h

theorem abs_roundCode_le (h : |v| ≤ 127 * scale) (hscale : 0 ≤ scale) : |roundCode scale v| ≤ 127 := by
  unfold roundCode
  split
  · decide
  · next hne => exact abs_roundAway_le (abs_div_le h (lt_of_le_of_ne hscale (Ne.symm hne)))

/-- A code is off by half a scale at most. -/
theorem abs_sub_roundCode_le (h : |v| ≤ 127 * scale) (hscale : 0 ≤ scale) :
    |v - roundCode scale v * scale| ≤ scale / 2 := by
  unfold roundCode
  split
  · next hzero =>
    rw [hzero, mul_zero] at h
    rw [hzero, mul_zero, sub_zero, zero_div]
    exact h
  · next hne =>
    have hpos : 0 < scale := lt_of_le_of_ne hscale (Ne.symm hne)
    have hsplit : v - roundAway (v / scale) * scale = (v / scale - roundAway (v / scale)) * scale := by
      field_simp
    have hround := abs_sub_roundAway_le (v / scale)
    rw [hsplit, abs_mul, abs_of_pos hpos]
    calc |v / scale - roundAway (v / scale)| * scale ≤ 1 / 2 * scale :=
          mul_le_mul_of_nonneg_right hround hscale
      _ = scale / 2 := by ring

/-- The code of a dequantized code is the code. -/
theorem roundCode_mul (scale : ℚ) (z : Int) (h : scale = 0 → z = 0) :
    roundCode scale (z * scale) = z := by
  unfold roundCode
  split
  · next hzero => exact (h hzero).symm
  · next hne => rw [mul_div_cancel_right₀ _ hne, roundAway_intCast]

/-- A value in the range of the scale has a code. -/
theorem code_eq (h : |v| ≤ 127 * scale) (hpos : 0 < scale) :
    code (exactQuant kernels) scale v = some (Int8.ofInt (roundAway (v / scale))) := by
  have hzero : (exactQuant kernels).ofInt 0 = 0 := Int.cast_zero
  have htruncate : (exactQuant kernels).truncate
      (if (exactQuant kernels).lt (v / scale) 0 = true then v / scale - 1 / 2 else v / scale + 1 / 2) =
        roundAway (v / scale) := by
    have hlt : (exactQuant kernels).lt (v / scale) 0 = decide (v / scale < 0) := rfl
    have htrunc : ∀ a, (exactQuant kernels).truncate a = if a < 0 then ⌈a⌉ else ⌊a⌋ := fun a => rfl
    rw [hlt, htrunc, roundAway]
    by_cases hneg : v / scale < 0
    · rw [decide_eq_true hneg, if_pos rfl, if_pos (by linarith), if_pos hneg]
    · have hnonneg := not_lt.mp hneg
      rw [decide_eq_false hneg, if_neg Bool.false_ne_true, if_neg (by linarith), if_neg hneg]
  have hle := abs_le.mp (abs_roundAway_le (abs_div_le h hpos))
  unfold code
  rw [hzero]
  show toInt8 (exactQuant kernels) (if (exactQuant kernels).lt (v / scale) 0 = true then
    v / scale - 1 / 2 else v / scale + 1 / 2) = _
  rw [toInt8, htruncate, if_pos]
  push_cast at hle
  omega

end code

/-! ## Groups -/

/-- The code in a vector. -/
def vectorCode (kernels : Llama.FloatOps ℚ) (gs : Nat) (x : Nat → ℚ) (i : Nat) : Int :=
  roundCode (groupScale kernels gs fun k => x (i / gs * gs + k)) (x i)

theorem quantizeGroup_eq (gs : Nat) (x : Nat → ℚ) : quantizeGroup (exactQuant kernels) gs x =
    some ((List.range gs).map fun i => Int8.ofInt (roundCode (groupScale kernels gs x) (x i)),
      groupScale kernels gs x) := by
  have hscale : (exactQuant kernels).div (groupMax (exactQuant kernels) gs x)
      ((exactQuant kernels).ofInt 127) = groupScale kernels gs x := rfl
  have hzero : (exactQuant kernels).ofInt 0 = 0 := Int.cast_zero
  have heq : ∀ a b, (exactQuant kernels).eq a b = decide (a = b) := fun a b => rfl
  rw [quantizeGroup, hscale, hzero, heq]
  by_cases h0 : groupScale kernels gs x = 0
  · rw [decide_eq_true h0, if_pos rfl]
    have hcodes : (List.range gs).map (fun i =>
        Int8.ofInt (roundCode (groupScale kernels gs x) (x i))) = List.replicate gs 0 := by
      have hnil : ∀ i, Int8.ofInt (roundCode (groupScale kernels gs x) (x i)) = 0 := by
        intro i
        rw [roundCode, if_pos h0]
        rfl
      simp only [hnil, List.map_const', List.length_range]
    rw [hcodes]
  · have hpos := lt_of_le_of_ne (groupScale_nonneg gs x) (Ne.symm h0)
    rw [decide_eq_false h0, if_neg Bool.false_ne_true, mapM_eq_map, Option.map_some]
    intro i hi
    rw [code_eq (abs_le_groupScale (List.mem_range.mp hi)) hpos, roundCode, if_neg h0]

theorem group_of_lt {gs k : Nat} (t : Nat) (hk : k < gs) : (t * gs + k) / gs = t := by
  rw [Nat.add_comm, Nat.add_mul_div_right _ _ (Nat.zero_lt_of_lt hk), Nat.div_eq_of_lt hk,
    Nat.zero_add]

/-- What is written group by group is written element by element. -/
theorem flatten_groups {α : Type} (gs : Nat) (f : Nat → Nat → α) (m : Nat) :
    ((List.range m).map fun t => (List.range gs).map (f t)).flatten =
      (List.range (m * gs)).map fun i => f (i / gs) (i % gs) := by
  induction m with
  | zero => rw [Nat.zero_mul]; rfl
  | succ m ih =>
    rw [List.range_succ, List.map_append, List.flatten_append, ih, Nat.succ_mul, List.range_add,
      List.map_append, List.map_map, List.map_singleton, List.flatten_singleton]
    congr 1
    apply List.map_congr_left
    intro k hk
    have hk := List.mem_range.mp hk
    have hmod : (m * gs + k) % gs = k := by
      rw [Nat.add_comm, Nat.add_mul_mod_self_right, Nat.mod_eq_of_lt hk]
    rw [Function.comp, group_of_lt m hk, hmod]

theorem quantize_eq {gs : Nat} (hpos : 0 < gs) (x : Nat → ℚ) (m : Nat) :
    quantize (exactQuant kernels) gs x (m * gs) =
      some ((List.range (m * gs)).map fun i => Int8.ofInt (vectorCode kernels gs x i),
        (List.range m).map fun t => groupScale kernels gs fun k => x (t * gs + k)) := by
  rw [quantize, Nat.mul_div_cancel m hpos, mapM_eq_map fun t _ => quantizeGroup_eq gs _,
    Option.map_some, List.map_map, List.map_map]
  have hflat := flatten_groups gs (fun t k => Int8.ofInt
    (roundCode (groupScale kernels gs fun k => x (t * gs + k)) (x (t * gs + k)))) m
  rw [Function.comp_def, Function.comp_def, hflat]
  simp only [vectorCode, Nat.div_add_mod']

section vector

variable {gs : Nat} {x : Nat → ℚ}

/-- Where an element is in its group. -/
theorem abs_le_vectorScale (hpos : 0 < gs) (x : Nat → ℚ) (i : Nat) :
    |x i| ≤ 127 * groupScale kernels gs fun k => x (i / gs * gs + k) := by
  have hle := @abs_le_groupScale kernels gs (fun k => x (i / gs * gs + k)) (i % gs)
    (Nat.mod_lt i hpos)
  simp only [Nat.div_add_mod'] at hle
  exact hle

theorem abs_vectorCode_le (hpos : 0 < gs) (x : Nat → ℚ) (i : Nat) :
    |vectorCode kernels gs x i| ≤ 127 :=
  abs_roundCode_le (abs_le_vectorScale hpos x i) (groupScale_nonneg _ _)

theorem toInt_vectorCode (hpos : 0 < gs) (x : Nat → ℚ) (i : Nat) :
    (Int8.ofInt (vectorCode kernels gs x i)).toInt = vectorCode kernels gs x i := by
  have hle := abs_le.mp (@abs_vectorCode_le kernels gs hpos x i)
  apply Int8.toInt_ofInt_of_le
  · omega
  · omega

/-- The largest value of a group gets the largest code. -/
theorem abs_roundCode_max {scale v : ℚ} (hpos : 0 < scale) (h : |v| = 127 * scale) :
    |roundCode scale v| = 127 := by
  have hcases : v / scale = (127 : Int) ∨ v / scale = (-127 : Int) := by
    rcases abs_choice v with hv | hv
    · left
      rw [hv] at h
      rw [h, mul_div_cancel_right₀ _ hpos.ne']
      norm_num
    · right
      rw [hv] at h
      rw [← neg_neg v, h]
      push_cast
      field_simp
  rw [roundCode, if_neg hpos.ne']
  rcases hcases with hv | hv
  · rw [hv, roundAway_intCast]
    decide
  · rw [hv, roundAway_intCast]
    decide

/-- The vector that the codes stand for has the same scales. -/
theorem groupScale_dequantized {y : Nat → ℚ} {t : Nat}
    (hy : ∀ k < gs, y (t * gs + k) = vectorCode kernels gs x (t * gs + k) *
      groupScale kernels gs fun k => x (t * gs + k)) :
    (groupScale kernels gs fun k => y (t * gs + k)) = groupScale kernels gs fun k => x (t * gs + k) := by
  have hmax := @groupMax_isGroupMax kernels gs fun k => x (t * gs + k)
  generalize hs : (groupScale kernels gs fun k => x (t * gs + k)) = scale at hy ⊢
  have hscale : groupMax (exactQuant kernels) gs (fun k => x (t * gs + k)) = 127 * scale := by
    rw [← hs, groupScale]
    ring
  have hnonneg : 0 ≤ scale := by
    rw [← hs]
    exact groupScale_nonneg _ _
  rw [hscale] at hmax
  have hcode : ∀ k < gs, vectorCode kernels gs x (t * gs + k) = roundCode scale (x (t * gs + k)) := by
    intro k hk
    rw [vectorCode, group_of_lt t hk, hs]
  have habs : ∀ k < gs, |y (t * gs + k)| = |roundCode scale (x (t * gs + k))| * scale := by
    intro k hk
    rw [hy k hk, hcode k hk, abs_mul, abs_of_nonneg hnonneg, Int.cast_abs]
  have hagain : IsGroupMax gs (fun k => y (t * gs + k)) (127 * scale) := by
    refine ⟨hmax.nonneg, fun k hk => ?_, ?_⟩
    · have hle := abs_roundCode_le (hmax.le k hk) hnonneg
      have hle : ((|roundCode scale (x (t * gs + k))| : Int) : ℚ) ≤ 127 := by exact_mod_cast hle
      rw [habs k hk]
      exact mul_le_mul_of_nonneg_right hle hnonneg
    · by_cases h0 : scale = 0
      · exact .inl (by rw [h0, mul_zero])
      have hpos := lt_of_le_of_ne hnonneg (Ne.symm h0)
      right
      obtain ⟨k, hk, hattained⟩ := hmax.attained.resolve_left (by linarith)
      refine ⟨k, hk, ?_⟩
      rw [habs k hk, abs_roundCode_max hpos hattained]
      norm_num
  have hunique := (@groupMax_isGroupMax kernels gs fun k => y (t * gs + k)).unique hagain
  rw [groupScale, hunique]
  ring

end vector

theorem getD_map_range {α : Type} (f : Nat → α) (d : α) {a b : Nat} (h : a < b) :
    ((List.range b).map f).getD a d = f a := by
  rw [List.getD_eq_getElem?_getD, List.getElem?_map, List.getElem?_range h]
  rfl

/-- The tensor of the codes and scales that were written. -/
def writtenTensor (q : List Int8) (s : List ℚ) : Quantized ℚ := ⟨fun i => q.getD i 0, fun t => s.getD t 0⟩

/-- `quantize` gives codes in range, which are off by half a scale at most, and quantizing what they
    stand for gives them again. -/
theorem quantize_exact (kernels : Llama.FloatOps ℚ) {gs n : Nat} (hpos : 1 ≤ gs) (hn : gs ∣ n)
    (x : Nat → ℚ) : ∃ q s, quantize (exactQuant kernels) gs x n = some (q, s) ∧
      q.length = n ∧ s.length = n / gs ∧
      (∀ i < n, ∃ c scale, q[i]? = some c ∧ s[i / gs]? = some scale ∧ -127 ≤ c.toInt ∧
        c.toInt ≤ 127 ∧ |x i - c.toInt * scale| ≤ scale / 2) ∧
      quantize (exactQuant kernels) gs
        (fun i => (dequantizeRow (exactQuant kernels) gs (writtenTensor q s) 0 n).getD i 0) n =
          some (q, s) := by
  obtain ⟨m, rfl⟩ := hn
  rw [Nat.mul_comm gs m, quantize_eq hpos]
  refine ⟨_, _, rfl, ?_, ?_, fun i hi => ?_, ?_⟩
  · rw [List.length_map, List.length_range]
  · rw [List.length_map, List.length_range, Nat.mul_div_cancel m hpos]
  · have ht : i / gs < m := Nat.div_lt_of_lt_mul (by rwa [Nat.mul_comm])
    refine ⟨_, _, by rw [List.getElem?_map, List.getElem?_range hi]; rfl,
      by rw [List.getElem?_map, List.getElem?_range ht]; rfl, ?_⟩
    have hle := abs_le.mp (@abs_vectorCode_le kernels gs hpos x i)
    rw [toInt_vectorCode hpos]
    exact ⟨hle.1, hle.2, abs_sub_roundCode_le (abs_le_vectorScale hpos x i) (groupScale_nonneg _ _)⟩
  · generalize hy : (fun i => (dequantizeRow (exactQuant kernels) gs _ 0 (m * gs)).getD i 0) = y
    have hvalue : ∀ i < m * gs, y i = vectorCode kernels gs x i *
        groupScale kernels gs fun k => x (i / gs * gs + k) := by
      intro i hi
      have ht : i / gs < m := Nat.div_lt_of_lt_mul (by rwa [Nat.mul_comm])
      rw [← hy]
      simp only [dequantizeRow, getD_map_range _ _ hi, dequantized, writtenTensor, Nat.zero_add,
        getD_map_range _ _ ht, toInt_vectorCode hpos]
      rfl
    have hscales : ∀ t < m, (groupScale kernels gs fun k => y (t * gs + k)) =
        groupScale kernels gs fun k => x (t * gs + k) := by
      intro t ht
      apply groupScale_dequantized
      intro k hk
      have hdiv := group_of_lt t hk
      have hlt : t * gs + k < m * gs := by
        calc t * gs + k < t * gs + gs := Nat.add_lt_add_left hk _
          _ = (t + 1) * gs := by rw [Nat.succ_mul]
          _ ≤ m * gs := Nat.mul_le_mul_right _ ht
      rw [hvalue _ hlt, hdiv]
    have hcodes : ∀ i < m * gs, vectorCode kernels gs y i = vectorCode kernels gs x i := by
      intro i hi
      have ht : i / gs < m := Nat.div_lt_of_lt_mul (by rwa [Nat.mul_comm])
      rw [vectorCode, hscales _ ht, hvalue i hi]
      apply roundCode_mul
      intro h0
      rw [vectorCode, roundCode, if_pos h0]
    rw [quantize_eq hpos]
    congr 2
    · apply List.map_congr_left
      intro i hi
      rw [hcodes i (List.mem_range.mp hi)]
    · apply List.map_congr_left
      intro t ht
      exact hscales t (List.mem_range.mp ht)

/-- Two groups, the second of zeros. -/
def sampleVector (i : Nat) : ℚ := if i < 2 then i - 3 else 0

theorem quantize_exact_boot :
    ∃ q s, quantize (exactQuant Llama.testKernels) 2 sampleVector 4 = some (q, s) ∧
      q.length = 4 ∧ s.length = 4 / 2 ∧
      (∀ i < 4, ∃ c scale, q[i]? = some c ∧ s[i / 2]? = some scale ∧ -127 ≤ c.toInt ∧
        c.toInt ≤ 127 ∧ |sampleVector i - c.toInt * scale| ≤ scale / 2) ∧
      quantize (exactQuant Llama.testKernels) 2 (fun i =>
        (dequantizeRow (exactQuant Llama.testKernels) 2 (writtenTensor q s) 0 4).getD i 0) 4 =
          some (q, s) :=
  @quantize_exact Llama.testKernels 2 4 (by decide) (by decide) sampleVector

end ChocoOs.Qwen
