import ChocoOs.Llama.Forward
import Mathlib.Tactic.Ring

/-!
# The run state

The buffers that `alloc_run_state` allocates, and the places of a pass in them. In a model every number
of the header is positive, the heads share the dimension, and the heads of the cache are shared by
groups of heads. `Sizes` are the numbers of such a model; all others are products of them.
-/

namespace ChocoOs.Llama
open ProgLib

/-- The number of floats in a buffer (`llm.c:101-113`). -/
def Config.bufLen (c : Config) : Buf → Nat
  | .x | .xb | .xb2 | .q => u64 c.dim
  | .hb | .hb2 => u64 c.hiddenDim
  | .att => mul64 (u64 c.nHeads) (u64 c.seqLen)
  | .logits => u64 c.vocabSize
  | .keyCache | .valueCache =>
    mul64 (mul64 (u64 c.nLayers) (u64 c.seqLen)) (mul64 (u64 c.dim) (u64 c.nKvHeads) / u64 c.nHeads)

theorem Config.runState_eq (c : Config) : c.runState =
    [Buf.x, .xb, .xb2, .hb, .hb2, .q, .att, .logits, .keyCache, .valueCache].map
      fun b => (c.bufLen b, 4) := rfl

/-- The header of a model. -/
structure Config.Shape (c : Config) : Prop where
  pos : ∀ z ∈ [c.dim, c.hiddenDim, c.nLayers, c.nHeads, c.nKvHeads, c.vocabSize, c.seqLen], 0 < z
  int : ∀ z ∈ [c.dim, c.hiddenDim, c.nLayers, c.nHeads, c.nKvHeads, c.vocabSize, c.seqLen], z < 2 ^ 31
  heads : c.nHeads ∣ c.dim
  kvHeads : c.nKvHeads ∣ c.nHeads

/-- The sizes of a model. -/
structure Sizes where
  headSize : Nat
  kvHeads : Nat
  kvMul : Nat
  hiddenDim : Nat
  nLayers : Nat
  vocabSize : Nat
  seqLen : Nat

namespace Sizes

variable (s : Sizes)

def nHeads : Nat := s.kvHeads * s.kvMul

def kvDim : Nat := s.kvHeads * s.headSize

def dim : Nat := s.nHeads * s.headSize

/-- The floats of all layers in a cache. -/
def cache : Nat := s.nLayers * s.seqLen * s.kvDim

def config : Config :=
  ⟨s.dim, s.hiddenDim, s.nLayers, s.nHeads, s.kvHeads, s.vocabSize, s.seqLen⟩

def dims : Dims := ⟨s.kvDim, s.kvMul, s.headSize⟩

/-- The sizes are positive, and fit in an `int`. -/
structure Fit (s : Sizes) : Prop where
  headSize_pos : 0 < s.headSize
  kvHeads_pos : 0 < s.kvHeads
  kvMul_pos : 0 < s.kvMul
  nLayers_pos : 0 < s.nLayers
  vocabSize_pos : 0 < s.vocabSize
  seqLen_pos : 0 < s.seqLen
  dim_lt : s.dim < 2 ^ 31
  hiddenDim_lt : s.hiddenDim < 2 ^ 31
  nLayers_lt : s.nLayers < 2 ^ 31
  vocabSize_lt : s.vocabSize < 2 ^ 31
  seqLen_lt : s.seqLen < 2 ^ 31

end Sizes

theorem Config.Shape.exists_sizes {c : Config} (h : c.Shape) :
    ∃ s : Sizes, c = s.config ∧ s.Fit := by
  obtain ⟨dim, hiddenDim, nLayers, nHeads, kvHeads, vocabSize, seqLen⟩ := c
  obtain ⟨hpos, hint, hheads, hkv⟩ := h
  simp only [List.mem_cons, List.not_mem_nil, or_false, forall_eq_or_imp, forall_eq] at hpos hint
  obtain ⟨hd, hh, hl, hn, hk, hv, hs⟩ := hpos
  obtain ⟨hd', hh', hl', -, -, hv', hs'⟩ := hint
  lift dim to Nat using hd.le
  lift hiddenDim to Nat using hh.le
  lift nLayers to Nat using hl.le
  lift nHeads to Nat using hn.le
  lift kvHeads to Nat using hk.le
  lift vocabSize to Nat using hv.le
  lift seqLen to Nat using hs.le
  obtain ⟨headSize, rfl⟩ := Int.natCast_dvd_natCast.mp hheads
  obtain ⟨kvMul, rfl⟩ := Int.natCast_dvd_natCast.mp hkv
  refine ⟨⟨headSize, kvHeads, kvMul, hiddenDim, nLayers, vocabSize, seqLen⟩, rfl, ?_⟩
  norm_cast at *
  constructor <;> simp only [Sizes.dim, Sizes.nHeads] <;> first | assumption | skip
  · exact Nat.pos_of_ne_zero (by rintro rfl; simp at hd)
  · exact Nat.pos_of_ne_zero (by rintro rfl; simp at hn)

namespace Sizes

variable {s : Sizes}

theorem dim_eq (s : Sizes) : s.dim = s.kvMul * s.kvDim := by
  unfold dim nHeads kvDim
  ring

theorem dim_mul_kvHeads (s : Sizes) : s.dim * s.kvHeads = s.nHeads * s.kvDim := by
  unfold dim kvDim
  ring

theorem Fit.kvDim_le (h : s.Fit) : s.kvDim ≤ s.dim := by
  rw [dim_eq]
  exact Nat.le_mul_of_pos_left _ h.kvMul_pos

theorem Fit.kvDim_pos (h : s.Fit) : 0 < s.kvDim := Nat.mul_pos h.kvHeads_pos h.headSize_pos

theorem Fit.nHeads_pos (h : s.Fit) : 0 < s.nHeads := Nat.mul_pos h.kvHeads_pos h.kvMul_pos

theorem Fit.nHeads_le (h : s.Fit) : s.nHeads ≤ s.dim := Nat.le_mul_of_pos_right _ h.headSize_pos

theorem Fit.kvHeads_le (h : s.Fit) : s.kvHeads ≤ s.dim :=
  Nat.le_trans (Nat.le_mul_of_pos_right _ h.kvMul_pos) h.nHeads_le

/-- The product of two `int`s is a `uint64_t`. -/
theorem mul_lt_addrSpace {a b : Nat} (ha : a < 2 ^ 31) (hb : b < 2 ^ 31) : a * b < addrSpace := by
  rw [addrSpace_eq]
  have hle : a * b ≤ 2 ^ 31 * 2 ^ 31 := Nat.mul_le_mul ha.le hb.le
  omega

theorem u64_int {a : Nat} (ha : a < 2 ^ 31) : u64 a = a := by
  rw [u64_natCast]
  apply Nat.mod_eq_of_lt
  rw [addrSpace_eq]
  omega

/-- `kv_dim` is an `int`, or there is no forward pass. -/
theorem Fit.dims_eq (h : s.Fit) :
    s.config.dims = if s.dim * s.kvHeads < 2 ^ 31 then some s.dims else none := by
  have hn := h.nHeads_pos
  have hdiv : ∀ {a b z : Nat}, 0 < b → a = b * z → divInt a b = some (z : Int) := by
    intro a b z hb ha
    have hne : ¬ ((b : Int) = 0 ∨ ((a : Int) = -2 ^ 31 ∧ (b : Int) = -1)) := by omega
    rw [divInt, if_neg hne, ha, ← Int.ofNat_tdiv, Nat.mul_div_cancel_left _ hb]
  have hkvMul : divInt s.nHeads s.kvHeads = some (s.kvMul : Int) := hdiv h.kvHeads_pos rfl
  have hsize : divInt s.dim s.nHeads = some (s.headSize : Int) := hdiv hn rfl
  by_cases hlt : s.dim * s.kvHeads < 2 ^ 31
  · have hmul : mulInt s.dim s.kvHeads = some ((s.nHeads * s.kvDim : Nat) : Int) := by
      rw [mulInt, ← Int.natCast_mul, if_pos (by omega), dim_mul_kvHeads]
    rw [if_pos hlt]
    unfold Config.dims config
    simp only [hmul, hkvMul, hsize, hdiv hn (rfl : s.nHeads * s.kvDim = s.nHeads * s.kvDim),
      Option.bind_eq_bind, Option.bind_some]
    rfl
  · have hmul : mulInt s.dim s.kvHeads = none := by
      rw [mulInt, ← Int.natCast_mul, if_neg (by omega)]
    rw [if_neg hlt]
    unfold Config.dims config
    rw [hmul]
    rfl

theorem Fit.bufLen_dim (h : s.Fit) : u64 s.config.dim = s.dim := u64_int h.dim_lt

theorem Fit.bufLen_att (h : s.Fit) : s.config.bufLen .att = s.nHeads * s.seqLen := by
  have hn : s.nHeads < 2 ^ 31 := Nat.lt_of_le_of_lt h.nHeads_le h.dim_lt
  show mul64 (u64 s.nHeads) (u64 s.seqLen) = _
  rw [u64_int hn, u64_int h.seqLen_lt, mul64_of_lt (mul_lt_addrSpace hn h.seqLen_lt)]

theorem Fit.bufLen_cache (h : s.Fit) {b : Buf} (hb : b = .keyCache ∨ b = .valueCache) :
    s.config.bufLen b = s.cache % addrSpace := by
  have hn : s.nHeads < 2 ^ 31 := Nat.lt_of_le_of_lt h.nHeads_le h.dim_lt
  have hk : s.kvHeads < 2 ^ 31 := Nat.lt_of_le_of_lt h.kvHeads_le h.dim_lt
  have hkv : s.dim * s.kvHeads / s.nHeads = s.kvDim := by
    rw [dim_mul_kvHeads]
    exact Nat.mul_div_cancel_left _ h.nHeads_pos
  have hlen : s.config.bufLen b = mul64 (mul64 (u64 s.nLayers) (u64 s.seqLen))
      (mul64 (u64 s.dim) (u64 s.kvHeads) / u64 s.nHeads) := by
    rcases hb with rfl | rfl <;> rfl
  rw [hlen, u64_int h.nLayers_lt, u64_int h.seqLen_lt, u64_int h.dim_lt, u64_int hk, u64_int hn,
    mul64_of_lt (mul_lt_addrSpace h.nLayers_lt h.seqLen_lt),
    mul64_of_lt (mul_lt_addrSpace h.dim_lt hk), hkv]
  rfl

theorem Fit.cacheAt_eq (h : s.Fit) (b : Buf) {l p : Nat} (hl : l * s.seqLen * s.kvDim < addrSpace)
    (hp : p < s.seqLen) :
    cacheAt s.config s.dims b l p = (b, l * s.seqLen * s.kvDim + p * s.kvDim) := by
  have hkv : s.kvDim < 2 ^ 31 := Nat.lt_of_le_of_lt h.kvDim_le h.dim_lt
  have hp' : p < 2 ^ 31 := Nat.lt_trans hp h.seqLen_lt
  have hls : l * s.seqLen < addrSpace :=
    Nat.lt_of_le_of_lt (Nat.le_mul_of_pos_right _ h.kvDim_pos) hl
  show (b, mul64 (mul64 l (u64 s.seqLen)) (u64 s.kvDim) + mul64 (u64 p) (u64 s.kvDim)) = _
  rw [u64_int hkv, u64_int hp', u64_int h.seqLen_lt, mul64_of_lt hls, mul64_of_lt hl,
    mul64_of_lt (mul_lt_addrSpace hp' hkv)]

theorem Fit.queryAt_eq (h : s.Fit) {i : Nat} (hi : i < s.nHeads) :
    mul64 i (u64 s.headSize) = i * s.headSize := by
  have hle : i * s.headSize ≤ s.dim := Nat.mul_le_mul_right _ hi.le
  have hsize : s.headSize < 2 ^ 31 :=
    Nat.lt_of_le_of_lt (Nat.le_mul_of_pos_left _ h.nHeads_pos) h.dim_lt
  have hi' : i < 2 ^ 31 := Nat.lt_trans hi (Nat.lt_of_le_of_lt h.nHeads_le h.dim_lt)
  rw [u64_int hsize, mul64_of_lt (mul_lt_addrSpace hi' hsize)]

theorem Fit.attAt_eq (h : s.Fit) {i : Nat} (hi : i < s.nHeads) :
    attAt s.config i = (.att, i * s.seqLen) := by
  have hi' : i < 2 ^ 31 := Nat.lt_trans hi (Nat.lt_of_le_of_lt h.nHeads_le h.dim_lt)
  show (Buf.att, mul64 i (u64 s.seqLen)) = _
  rw [u64_int h.seqLen_lt, mul64_of_lt (mul_lt_addrSpace hi' h.seqLen_lt)]

/-- The head of the cache that a head uses. -/
theorem Fit.divInt_kvMul (h : s.Fit) (i : Nat) :
    divInt i s.dims.kvMul = some ((i / s.kvMul : Nat) : Int) := by
  have hpos := h.kvMul_pos
  have hne : ¬ ((s.kvMul : Int) = 0 ∨ ((i : Int) = -2 ^ 31 ∧ (s.kvMul : Int) = -1)) := by omega
  show divInt i s.kvMul = _
  rw [divInt, if_neg hne, ← Int.ofNat_tdiv]

theorem Fit.div_kvMul_lt (h : s.Fit) {i : Nat} (hi : i < s.nHeads) : i / s.kvMul < s.kvHeads := by
  rw [Nat.div_lt_iff_lt_mul h.kvMul_pos]
  exact hi

end Sizes

end ChocoOs.Llama
