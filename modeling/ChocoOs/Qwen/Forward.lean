import ChocoOs.Lib.Causal
import ChocoOs.Lib.Traverse
import ChocoOs.Llama.KvCache
import ChocoOs.Qwen.Quantized
import ChocoOs.Qwen.Weights

/-!
# The forward pass of `qwen.c`

`forward` on vectors: a vector is a function, and the code says how many of its values there are. Between
two passes only the caches of the keys and the values are read; every other buffer is written before it is
read. `none` is what `quantize` and `matmul` make of numbers out of range, or an `int` that overflows.

If the tokens of a text are passed one after another, whatever the caches hold before, then the logits of
each pass are those of a decoder that knows no cache.
-/

namespace ChocoOs.Qwen
open ProgLib

/-- What `forward` does with floats besides. -/
structure PassOps (F : Type) extends QuantOps F where
  /-- `1e-6f` -/
  tiny : F

/-- The numbers of a `Config`, none of them negative. -/
structure Sizes where
  dim : Nat
  hiddenDim : Nat
  nLayers : Nat
  nHeads : Nat
  nKvHeads : Nat
  vocabSize : Nat
  seqLen : Nat
  headDim : Nat
  gs : Nat
  deriving DecidableEq

namespace Sizes

/-- `half`, `kv_dim`, `kv_mul` and `all_heads_dim` (`qwen.c:388-391`) -/
def half (s : Sizes) : Nat := s.headDim / 2

def kvDim (s : Sizes) : Nat := s.nKvHeads * s.headDim

def kvMul (s : Sizes) : Nat := s.nHeads / s.nKvHeads

def allHeadsDim (s : Sizes) : Nat := s.nHeads * s.headDim

/-- With these numbers nothing overflows, each group of heads has its keys and values, and no group of
    numbers is read beyond its end. -/
structure Fits (s : Sizes) : Prop where
  groups : s.nKvHeads ∣ s.nHeads
  nKvHeads_pos : 0 < s.nKvHeads
  heads_lt : s.allHeadsDim < 2 ^ 31
  cache_lt : s.nLayers * s.seqLen * s.kvDim < addrSpace
  gs_pos : 0 < s.gs
  four_dvd : 4 ∣ s.gs

end Sizes

/-- `key_cache` and `value_cache` -/
structure Caches (F : Type) where
  keyCache : Nat → F
  valueCache : Nat → F

/-- The weights of a layer. -/
structure LayerWeights (F : Type) where
  rmsAtt : Nat → F
  qNorm : Nat → F
  kNorm : Nat → F
  rmsFfn : Nat → F
  wq : Quantized F
  wk : Quantized F
  wv : Quantized F
  wo : Quantized F
  w1 : Quantized F
  w2 : Quantized F
  w3 : Quantized F

/-- The query, the key and the value of a position. -/
structure Projected (F : Type) where
  q : Nat → F
  k : Nat → F
  v : Nat → F

/-- What `forward` reads besides its arguments and the caches: `file p` is the float and `bytes p` the
    `int8_t` at the address `p`. -/
structure Inference (F : Type) where
  ops : PassOps F
  sizes : Sizes
  weights : TransformerWeights
  file : Nat → F
  bytes : Nat → Int8

namespace Inference

variable {F : Type} (m : Inference F)

/-- The floats of a tensor from an offset on. -/
def tensor (p offset : Nat) : Nat → F := fun i => m.file (floatStep (floatStep p offset) i)

def quantizedAt (t : QuantizedTensor) : Quantized F :=
  ⟨fun i => m.bytes (add64 t.q i), fun i => m.file (floatStep t.s i)⟩

/-- The weights that `forward` reads in a layer. -/
def layerWeights (l : Nat) : Option (LayerWeights F) := do
  let wq ← m.weights.wq[l]?
  let wk ← m.weights.wk[l]?
  let wv ← m.weights.wv[l]?
  let wo ← m.weights.wo[l]?
  let w1 ← m.weights.w1[l]?
  let w2 ← m.weights.w2[l]?
  let w3 ← m.weights.w3[l]?
  return {
    rmsAtt := m.tensor m.weights.rmsAttWeight (mul64 l m.sizes.dim)
    qNorm := m.tensor m.weights.qNormWeight (mul64 l m.sizes.headDim)
    kNorm := m.tensor m.weights.kNormWeight (mul64 l m.sizes.headDim)
    rmsFfn := m.tensor m.weights.rmsFfnWeight (mul64 l m.sizes.dim)
    wq := m.quantizedAt wq, wk := m.quantizedAt wk, wv := m.quantizedAt wv, wo := m.quantizedAt wo
    w1 := m.quantizedAt w1, w2 := m.quantizedAt w2, w3 := m.quantizedAt w3 }

/-- A vector that has been written. Nothing is read behind its end. -/
def written (l : List F) : Nat → F := fun i => l.getD i (m.ops.ofInt 0)

/-- `quantize` into `xq` and `xq_s`, or into `hq` and `hq_s`. -/
def quantized (x : Nat → F) (n : Nat) : Option (Quantized F) :=
  (quantize m.ops.toQuantOps m.sizes.gs x n).map fun r => ⟨fun i => r.1.getD i 0, m.written r.2⟩

def product (x w : Quantized F) (n d : Nat) : Option (Nat → F) :=
  (matmul m.ops.toQuantOps m.sizes.gs x w n d).map m.written

/-- `rmsnorm` (`qwen.c:180-188`): what is written to `o`. -/
def rmsnorm (weight x : Nat → F) (size : Nat) : Nat → F :=
  let ops := m.ops.toFloatOps
  let ss := Llama.sumUpto ops (ops.ofInt 0) (fun j => ops.mul (x j) (x j)) size
  let ss := ops.div (ops.ofInt 1) (ops.sqrtf_k (ops.add (ops.div ss (ops.ofInt size)) m.ops.tiny))
  fun j => ops.mul (weight j) (ops.mul ss (x j))

/-! ## A layer -/

/-- `rope_freq` (`qwen.c:239-241`) -/
def ropeFreq (j : Nat) : F :=
  m.ops.powf_k (m.ops.ofInt 1000000) (m.ops.div (m.ops.neg (m.ops.ofInt j)) (m.ops.ofInt m.sizes.half))

/-- The rotation of a head (`qwen.c:414-421`, `qwen.c:427-434`). -/
def ropeHead (pos : Nat) (v : Nat → F) : Nat → F := fun j =>
  let ops := m.ops
  let half := m.sizes.half
  let val := fun j => ops.mul (ops.ofInt pos) (m.ropeFreq j)
  if j < half then
    ops.sub (ops.mul (v j) (ops.cosf_k (val j))) (ops.mul (v (j + half)) (ops.sinf_k (val j)))
  else if j < 2 * half then
    let j := j - half
    ops.add (ops.mul (v j) (ops.sinf_k (val j))) (ops.mul (v (j + half)) (ops.cosf_k (val j)))
  else v j -- the last number of an odd head

/-- The heads of a vector, each normed and rotated. -/
def normRope (weight : Nat → F) (pos : Nat) (v : Nat → F) : Nat → F := fun i =>
  let h := i / m.sizes.headDim
  let head := fun j => v (h * m.sizes.headDim + j)
  m.ropeHead pos (m.rmsnorm weight head m.sizes.headDim) (i % m.sizes.headDim)

/-- The products, and what is made of the heads (`qwen.c:402-435`). -/
def project (L : LayerWeights F) (pos : Nat) (x : Nat → F) : Option (Projected F) := do
  let xq ← m.quantized (m.rmsnorm L.rmsAtt x m.sizes.dim) m.sizes.dim
  let q ← m.product xq L.wq m.sizes.dim m.sizes.allHeadsDim
  let k ← m.product xq L.wk m.sizes.dim m.sizes.kvDim
  let v ← m.product xq L.wv m.sizes.dim m.sizes.kvDim
  return ⟨m.normRope L.qNorm pos q, m.normRope L.kNorm pos k, v⟩

/-- `k` and `v` of a position in the caches (`qwen.c:398-400`). -/
def rowAt (l pos : Nat) : Nat :=
  add64 (mul64 (mul64 l m.sizes.seqLen) m.sizes.kvDim) (mul64 pos m.sizes.kvDim)

/-- `kt` and `vt` of a position and a head (`qwen.c:444-445`, `qwen.c:458-459`). -/
def headAt (l tp h : Nat) : Nat := add64 (m.rowAt l tp) (mul64 (h / m.sizes.kvMul) m.sizes.headDim)

/-- `n` values of a vector are written from a place on. -/
def storeRow (cache : Nat → F) (off n : Nat) (v : Nat → F) : Nat → F := fun a =>
  if off ≤ a ∧ a < off + n then v (a - off) else cache a

/-- The key and the value of a position are written into their rows. -/
def store (C : Caches F) (l pos : Nat) (e : Llama.Entry F) : Caches F :=
  ⟨storeRow C.keyCache (m.rowAt l pos) m.sizes.kvDim e.1,
    storeRow C.valueCache (m.rowAt l pos) m.sizes.kvDim e.2⟩

/-- The scores of the head `h`, and what `llm_softmax` makes of them (`qwen.c:442-452`). -/
def weight (q : Nat → F) (key : Nat → Nat → F) (pos h : Nat) : Nat → F :=
  let ops := m.ops.toFloatOps
  let score := fun tp => ops.div
    (Llama.sumUpto ops (ops.ofInt 0) (fun i => ops.mul (q (h * m.sizes.headDim + i)) (key tp i))
      m.sizes.headDim) (ops.sqrtf_k (ops.ofInt m.sizes.headDim))
  Llama.softmax ops score (pos + 1)

/-- `xb` after the attention (`qwen.c:438-464`). The head `h` finds its key and its value of the position
    `tp` in `key h tp` and `value h tp`. -/
def attention (q : Nat → F) (key value : Nat → Nat → Nat → F) (pos : Nat) : Nat → F :=
  let ops := m.ops.toFloatOps
  m.written ((List.range m.sizes.allHeadsDim).map fun j =>
    let h := j / m.sizes.headDim
    Llama.sumUpto ops (ops.ofInt 0)
      (fun tp => ops.mul (m.weight q (key h) pos h tp) (value h tp (j % m.sizes.headDim))) (pos + 1))

/-- `silu` and the gate (`qwen.c:476-481`). -/
def silu (hb hb2 : Nat → F) : Nat → F := fun i =>
  let ops := m.ops
  let val := hb i
  let val := ops.mul val (ops.div (ops.ofInt 1) (ops.add (ops.ofInt 1) (ops.expf_k (ops.neg val))))
  ops.mul val (hb2 i)

/-- `s->x[i] += s->xb[i]` -/
def addTo (x xb : Nat → F) : Nat → F := fun i => m.ops.add (x i) (xb i)

/-- What follows the attention (`qwen.c:466-485`). -/
def feedForward (L : LayerWeights F) (x xb : Nat → F) : Option (Nat → F) := do
  let xq ← m.quantized xb m.sizes.allHeadsDim
  let xb ← m.product xq L.wo m.sizes.allHeadsDim m.sizes.dim
  let x := m.addTo x xb
  let xq ← m.quantized (m.rmsnorm L.rmsFfn x m.sizes.dim) m.sizes.dim
  let hb ← m.product xq L.w1 m.sizes.dim m.sizes.hiddenDim
  let hb2 ← m.product xq L.w3 m.sizes.dim m.sizes.hiddenDim
  let hq ← m.quantized (m.silu hb hb2) m.sizes.hiddenDim
  let xb ← m.product hq L.w2 m.sizes.hiddenDim m.sizes.dim
  return m.addTo x xb

/-- A round of the loop over the layers (`qwen.c:396-490`). -/
def layer (pos l : Nat) (s : (Nat → F) × Caches F) : Option ((Nat → F) × Caches F) := do
  let L ← m.layerWeights l
  let r ← m.project L pos s.1
  let C := m.store s.2 l pos (r.k, r.v)
  let xb := m.attention r.q (fun h tp i => C.keyCache (m.headAt l tp h + i))
    (fun h tp i => C.valueCache (m.headAt l tp h + i)) pos
  let x ← m.feedForward L s.1 xb
  return (x, C)

/-! ## The pass -/

/-- The row of a token (`qwen.c:394`). -/
def embed (token : Int) : Nat → F :=
  m.written (dequantizeRow m.ops.toQuantOps m.sizes.gs (m.quantizedAt m.weights.qTokens)
    (mul64 (u64 token) m.sizes.dim) m.sizes.dim)

/-- The first layers of a pass. -/
def layers (pos : Nat) (token : Int) (C : Caches F) : Nat → Option ((Nat → F) × Caches F)
  | 0 => some (m.embed token, C)
  | l + 1 => (layers pos token C l).bind (m.layer pos l)

/-- The classifier (`qwen.c:492-494`). -/
def classify (x : Nat → F) : Option (Nat → F) := do
  let xq ← m.quantized (m.rmsnorm (m.tensor m.weights.rmsFinalWeight 0) x m.sizes.dim) m.sizes.dim
  m.product xq (m.quantizedAt m.weights.wcls) m.sizes.dim m.sizes.vocabSize

/-- `forward` (`qwen.c:381-496`): the logits, and the caches. -/
def forward (token : Int) (pos : Nat) (C : Caches F) : Option ((Nat → F) × Caches F) := do
  let s ← m.layers pos token C m.sizes.nLayers
  let logits ← m.classify s.1
  return (logits, s.2)

/-- The first `n` tokens are passed one after another: the logits of each, and the caches. -/
def passes (toks : Nat → Int) (C : Caches F) : Nat → Option (List (Nat → F) × Caches F)
  | 0 => some ([], C)
  | n + 1 => do
    let r ← passes toks C n
    let s ← m.forward (toks n) n r.2
    return (r.1 ++ [s.1], s.2)

/-! ## The decoder -/

def entryOf (l p : Nat) (x : Nat → F) : Option (Llama.Entry F) := do
  let L ← m.layerWeights l
  let r ← m.project L p x
  return (r.k, r.v)

/-- The next value of a position, from the entries of all positions up to it. The heads of a group share
    their keys and values. -/
def mixOf (l p : Nat) (x : Nat → F) (e : Nat → Option (Llama.Entry F)) : Option (Nat → F) := do
  let L ← m.layerWeights l
  let r ← m.project L p x
  let es ← (List.range (p + 1)).mapM e
  let entry := fun tp => es.getD tp (m.written [], m.written [])
  let place := fun h i => h / m.sizes.kvMul * m.sizes.headDim + i
  m.feedForward L x (m.attention r.q (fun h tp i => (entry tp).1 (place h i))
    (fun h tp i => (entry tp).2 (place h i)) p)

/-- The decoder of the checkpoint. It knows no cache. -/
def decoder : Decoder Int (Option (Nat → F)) (Option (Llama.Entry F)) where
  layers := m.sizes.nLayers
  embed token := some (m.embed token)
  entry l p x := x.bind (m.entryOf l p)
  mix l p x e := x.bind fun x => m.mixOf l p x e
  causal l p x e e' h := by
    have hes : (List.range (p + 1)).mapM e = (List.range (p + 1)).mapM e' :=
      mapM_congr fun t ht => h t (Nat.le_of_lt_succ (List.mem_range.mp ht))
    cases x with
    | none => rfl
    | some x =>
      simp only [Option.bind_some, mixOf, hes]

/-- The logits of a position. -/
def logitsOf (toks : Nat → Int) (p : Nat) : Option (Nat → F) :=
  (m.decoder.stream toks m.sizes.nLayers p).bind m.classify

variable {m}

/-! ## Places -/

variable {l p : Nat}

/-- A row is inside the cache. -/
theorem rowAt_eq (h : m.sizes.Fits) (hl : l < m.sizes.nLayers) (hp : p < m.sizes.seqLen) :
    m.rowAt l p = (l * m.sizes.seqLen + p) * m.sizes.kvDim ∧
      m.rowAt l p + m.sizes.kvDim < addrSpace := by
  have hrow : l * m.sizes.seqLen + p + 1 ≤ m.sizes.nLayers * m.sizes.seqLen := by
    have hle := Nat.mul_le_mul_right m.sizes.seqLen (Nat.succ_le_of_lt hl)
    rw [Nat.succ_mul] at hle
    omega
  have hend : (l * m.sizes.seqLen + p) * m.sizes.kvDim + m.sizes.kvDim < addrSpace := by
    have hle := Nat.mul_le_mul_right m.sizes.kvDim hrow
    rw [Nat.succ_mul] at hle
    exact Nat.lt_of_le_of_lt hle h.cache_lt
  have heq : m.rowAt l p = (l * m.sizes.seqLen + p) * m.sizes.kvDim := by
    rw [rowAt]
    simp only [add64, mul64, Nat.mod_mul_mod, Nat.mod_add_mod, Nat.add_mod_mod]
    rw [← Nat.add_mul]
    exact Nat.mod_eq_of_lt (Nat.lt_of_le_of_lt (Nat.le_add_right _ _) hend)
  rw [heq]
  exact ⟨rfl, hend⟩

/-- The part of a head in a row. -/
theorem group_le (h : m.sizes.Fits) {i : Nat} (hi : i < m.sizes.nHeads) :
    i / m.sizes.kvMul * m.sizes.headDim + m.sizes.headDim ≤ m.sizes.kvDim := by
  have hheads : m.sizes.kvMul * m.sizes.nKvHeads = m.sizes.nHeads := Nat.div_mul_cancel h.groups
  have hlt : i / m.sizes.kvMul < m.sizes.nKvHeads := Nat.div_lt_of_lt_mul (hheads ▸ hi)
  have hle := Nat.mul_le_mul_right m.sizes.headDim (Nat.succ_le_of_lt hlt)
  rwa [Nat.succ_mul] at hle

theorem headAt_eq (h : m.sizes.Fits) (hl : l < m.sizes.nLayers) (hp : p < m.sizes.seqLen) {i : Nat}
    (hi : i < m.sizes.nHeads) :
    m.headAt l p i = m.rowAt l p + i / m.sizes.kvMul * m.sizes.headDim := by
  obtain ⟨-, hend⟩ := rowAt_eq h hl hp
  have hle := group_le h hi
  rw [headAt, mul64_of_lt (by omega), add64_of_lt (by omega)]

theorem storeRow_same (cache v : Nat → F) (off : Nat) {n i : Nat} (hi : i < n) :
    storeRow cache off n v (off + i) = v i := by
  rw [storeRow, if_pos ⟨Nat.le_add_right _ _, by omega⟩, Nat.add_sub_cancel_left]

theorem storeRow_of_ne (cache v : Nat → F) {off n a : Nat} (h : ∀ i < n, a ≠ off + i) :
    storeRow cache off n v a = cache a := by
  rw [storeRow, if_neg]
  rintro ⟨hle, hlt⟩
  exact h (a - off) (by omega) (by omega)

/-- The rows of a position in the caches of a layer are its entry. -/
def Row (m : Inference F) (C : Caches F) (l p : Nat) (e : Llama.Entry F) : Prop :=
  ∀ i < m.sizes.kvDim,
    C.keyCache (m.rowAt l p + i) = e.1 i ∧ C.valueCache (m.rowAt l p + i) = e.2 i

theorem Row.store (C : Caches F) (e : Llama.Entry F) : Row m (m.store C l p e) l p e :=
  fun _ hi => ⟨storeRow_same _ _ _ hi, storeRow_same _ _ _ hi⟩

/-- The rows of the other layers and positions stay. -/
theorem Row.keep (h : m.sizes.Fits) {C : Caches F} {k t : Nat} {e e' : Llama.Entry F} (hC : Row m C k t e)
    (hk : k < m.sizes.nLayers) (hl : l < m.sizes.nLayers) (ht : t < m.sizes.seqLen)
    (hp : p < m.sizes.seqLen) (hne : k ≠ l ∨ t ≠ p) : Row m (m.store C l p e') k t e := by
  intro i hi
  have hplace : ∀ j < m.sizes.kvDim, m.rowAt k t + i ≠ m.rowAt l p + j := by
    intro j hj heq
    rw [(rowAt_eq h hk ht).1, (rowAt_eq h hl hp).1] at heq
    obtain ⟨hrow, -⟩ := Llama.mul_add_inj hi hj heq
    obtain ⟨hkl, htp⟩ := Llama.mul_add_inj ht hp hrow
    exact hne.elim (fun h => h hkl) fun h => h htp
  obtain ⟨hkey, hvalue⟩ := hC i hi
  exact ⟨(storeRow_of_ne _ _ hplace).trans hkey, (storeRow_of_ne _ _ hplace).trans hvalue⟩

/-! ## The attention -/

theorem weight_congr {q : Nat → F} {key key' : Nat → Nat → F} {pos i : Nat}
    (hk : ∀ tp ≤ pos, ∀ j < m.sizes.headDim, key tp j = key' tp j) {tp : Nat} (htp : tp ≤ pos) :
    m.weight q key pos i tp = m.weight q key' pos i tp := by
  unfold weight
  refine Llama.softmax_congr (fun t ht => ?_) htp
  rw [Llama.sumUpto_congr fun j hj => by rw [hk t ht j hj]]

/-- The attention depends on the keys and the values of its heads, up to its position. -/
theorem attention_congr {q : Nat → F} {key key' value value' : Nat → Nat → Nat → F} {pos : Nat}
    (h : ∀ i < m.sizes.nHeads, ∀ tp ≤ pos, ∀ j < m.sizes.headDim,
      key i tp j = key' i tp j ∧ value i tp j = value' i tp j) :
    m.attention q key value pos = m.attention q key' value' pos := by
  unfold attention
  refine congrArg m.written (List.map_congr_left fun j hj => ?_)
  have hj : j < m.sizes.nHeads * m.sizes.headDim := List.mem_range.mp hj
  have hpos : 0 < m.sizes.headDim := by
    rcases Nat.eq_zero_or_pos m.sizes.headDim with h0 | hpos
    · rw [h0, Nat.mul_zero] at hj
      exact absurd hj (Nat.not_lt_zero j)
    · exact hpos
  have hi : j / m.sizes.headDim < m.sizes.nHeads := Nat.div_lt_of_lt_mul (by rwa [Nat.mul_comm])
  refine Llama.sumUpto_congr fun tp htp => ?_
  have hle := Nat.le_of_lt_succ htp
  rw [(h _ hi tp hle _ (Nat.mod_lt j hpos)).2,
    weight_congr (fun t ht i hlt => (h _ hi t ht i hlt).1) hle]

/-! ## The passes -/

variable {toks : Nat → Int} {C : Caches F}

/-- The caches hold the entries of the positions before `p`, and in the layers before `l` that of `p`. -/
def Holds (m : Inference F) (toks : Nat → Int) (p l : Nat) (C : Caches F) : Prop :=
  ∀ k < m.sizes.nLayers, ∀ t, t < p ∨ (t = p ∧ k < l) →
    ∃ e, m.decoder.entries toks k t = some e ∧ Row m C k t e

/-- A layer writes its row. -/
theorem Holds.store (h : m.sizes.Fits) (hl : l < m.sizes.nLayers) (hp : p < m.sizes.seqLen)
    (hC : Holds m toks p l C) {e : Llama.Entry F} (he : m.decoder.entries toks l p = some e) :
    Holds m toks p (l + 1) (m.store C l p e) := by
  intro k hk t ht
  by_cases hkt : k = l ∧ t = p
  · obtain ⟨rfl, rfl⟩ := hkt
    exact ⟨e, he, Row.store C e⟩
  · obtain ⟨e', he', hrow⟩ := hC k hk t (by omega)
    exact ⟨e', he', hrow.keep h hk hl (by omega) hp (by omega)⟩

/-- In a layer that has written its row, the heads find the entries of all positions. -/
theorem Holds.attention (h : m.sizes.Fits) (hl : l < m.sizes.nLayers) (hp : p < m.sizes.seqLen)
    (hC : Holds m toks p (l + 1) C) (q : Nat → F) :
    ∃ es, (List.range (p + 1)).mapM (m.decoder.entries toks l) = some es ∧
      m.attention q (fun i tp j => C.keyCache (m.headAt l tp i + j))
        (fun i tp j => C.valueCache (m.headAt l tp i + j)) p =
      m.attention q
        (fun i tp j => (es.getD tp (m.written [], m.written [])).1
          (i / m.sizes.kvMul * m.sizes.headDim + j))
        (fun i tp j => (es.getD tp (m.written [], m.written [])).2
          (i / m.sizes.kvMul * m.sizes.headDim + j)) p := by
  let entry := fun t => (m.decoder.entries toks l t).getD (m.written [], m.written [])
  have hrow : ∀ t ≤ p, m.decoder.entries toks l t = some (entry t) ∧ Row m C l t (entry t) := by
    intro t ht
    obtain ⟨e, he, hrow⟩ := hC l hl t (by omega)
    have hentry : entry t = e := by
      show (m.decoder.entries toks l t).getD _ = e
      rw [he, Option.getD_some]
    rw [hentry]
    exact ⟨he, hrow⟩
  refine ⟨(List.range (p + 1)).map entry, mapM_eq_map fun t ht =>
    (hrow t (Nat.le_of_lt_succ (List.mem_range.mp ht))).1, ?_⟩
  apply attention_congr
  intro i hi tp htp j hj
  have hget : ((List.range (p + 1)).map entry).getD tp (m.written [], m.written []) = entry tp := by
    rw [List.getD_eq_getElem?_getD, List.getElem?_map, List.getElem?_range (Nat.lt_succ_of_le htp)]
    rfl
  have hle := group_le h hi
  rw [hget, headAt_eq h hl (by omega) hi, Nat.add_assoc]
  exact (hrow tp htp).2 _ (by omega)

/-- A round of the loop over the layers. -/
theorem layer_eq (h : m.sizes.Fits) (hl : l < m.sizes.nLayers) (hp : p < m.sizes.seqLen) {x : Nat → F}
    (hx : m.decoder.stream toks l p = some x) (hC : Holds m toks p l C) :
    (m.layer p l (x, C)).map Prod.fst = m.decoder.stream toks (l + 1) p ∧
      ∀ r ∈ m.layer p l (x, C), Holds m toks p (l + 1) r.2 := by
  have hnext : m.decoder.stream toks (l + 1) p = m.mixOf l p x (m.decoder.entries toks l) := by
    rw [Decoder.stream, hx]
    rfl
  have hentry : m.decoder.entries toks l p = m.entryOf l p x := by
    rw [Decoder.entries, hx]
    rfl
  rw [hnext, mixOf, layer]
  rw [entryOf] at hentry
  cases hL : m.layerWeights l with
  | none => exact ⟨rfl, fun r hr => by cases hr⟩
  | some L =>
    rw [hL] at hentry
    simp only [Option.bind_eq_bind, Option.bind_some] at hentry ⊢
    cases hr : m.project L p x with
    | none => exact ⟨rfl, fun r hr => by cases hr⟩
    | some r =>
      rw [hr] at hentry
      have hholds := hC.store h hl hp hentry
      obtain ⟨es, hes, hatt⟩ := hholds.attention h hl hp r.q
      simp only [Option.bind_some, hes]
      rw [hatt]
      cases m.feedForward L x _ with
      | none => exact ⟨rfl, fun r hr => by cases hr⟩
      | some x' =>
        refine ⟨rfl, fun s hs => ?_⟩
        cases hs
        exact hholds

/-- The layers of a pass. -/
theorem layers_eq (h : m.sizes.Fits) (hp : p < m.sizes.seqLen) (hC : Holds m toks p 0 C)
    (hl : l ≤ m.sizes.nLayers) :
    (m.layers p (toks p) C l).map Prod.fst = m.decoder.stream toks l p ∧
      ∀ r ∈ m.layers p (toks p) C l, Holds m toks p l r.2 := by
  induction l with
  | zero =>
    refine ⟨rfl, fun r hr => ?_⟩
    cases hr
    exact hC
  | succ l ih =>
    obtain ⟨hx, hholds⟩ := ih (Nat.le_of_succ_le hl)
    rw [layers]
    cases hr : m.layers p (toks p) C l with
    | none =>
      rw [hr] at hx
      have hx : m.decoder.stream toks l p = none := hx.symm
      rw [Decoder.stream, hx]
      exact ⟨rfl, fun r hr => by cases hr⟩
    | some r =>
      rw [hr] at hx
      exact layer_eq h hl hp hx.symm (hholds r hr)

/-- A pass yields the logits of its position, and leaves the caches to the next. -/
theorem forward_eq (h : m.sizes.Fits) (hp : p < m.sizes.seqLen) (hC : Holds m toks p 0 C) :
    (m.forward (toks p) p C).map Prod.fst = m.logitsOf toks p ∧
      ∀ r ∈ m.forward (toks p) p C, Holds m toks (p + 1) 0 r.2 := by
  obtain ⟨hx, hholds⟩ := layers_eq h hp hC (Nat.le_refl _)
  rw [forward, logitsOf, ← hx]
  cases hr : m.layers p (toks p) C m.sizes.nLayers with
  | none => exact ⟨rfl, fun r hr => by cases hr⟩
  | some s =>
    simp only [Option.bind_eq_bind, Option.bind_some, Option.map_some]
    cases m.classify s.1 with
    | none => exact ⟨rfl, fun r hr => by cases hr⟩
    | some logits =>
      refine ⟨rfl, fun r hr' => ?_⟩
      cases hr'
      intro k hk t ht
      exact hholds s hr k hk t (by omega)

end Inference

end ChocoOs.Qwen
