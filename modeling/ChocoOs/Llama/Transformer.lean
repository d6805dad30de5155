import ChocoOs.Lib.Causal
import ChocoOs.Llama.Kernels
import ChocoOs.Llama.Leftover

/-!
# The transformer

What the forward pass is for: a decoder that attends, in each layer, to the keys and values of all
positions up to its own. It knows no run state and no cache.
-/

namespace ChocoOs.Llama
open ProgLib Sizes

variable {F : Type}

section decoder

variable (ops : FloatOps F) (s : Sizes)

/-- The weights of a layer. -/
structure LayerWeights (F : Type) where
  rmsAtt : Nat → F
  wq : Nat → F
  wk : Nat → F
  wv : Nat → F
  wo : Nat → F
  rmsFfn : Nat → F
  w1 : Nat → F
  w2 : Nat → F
  w3 : Nat → F

/-- The keys and the values of a position. -/
abbrev Entry (F : Type) := (Nat → F) × (Nat → F)

/-- A vector of pairs, each rotated by an angle that depends on the position and on its place in the
    head. -/
def rotated (p : Nat) (v : Nat → F) : Nat → F := fun j =>
  let i := 2 * (j / 2)
  let freq := ops.div (ops.ofInt 1) (ops.powf_k (ops.ofInt 10000)
    (ops.div (ops.ofInt ((i : Int).tmod s.headSize)) (ops.ofInt s.headSize)))
  let val := ops.mul (ops.ofInt p) freq
  if j % 2 = 0 then
    ops.sub (ops.mul (v i) (ops.cosf_k val)) (ops.mul (v (i + 1)) (ops.sinf_k val))
  else ops.add (ops.mul (v i) (ops.sinf_k val)) (ops.mul (v (i + 1)) (ops.cosf_k val))

def queriesOf (L : LayerWeights F) (p : Nat) (x : Nat → F) : Nat → F :=
  rotated ops s p (matVec ops L.wq (normed ops L.rmsAtt x s.dim) s.dim)

def entryOf (L : LayerWeights F) (p : Nat) (x : Nat → F) : Entry F :=
  (rotated ops s p (matVec ops L.wk (normed ops L.rmsAtt x s.dim) s.dim),
    matVec ops L.wv (normed ops L.rmsAtt x s.dim) s.dim)

/-- The score of a head for the keys of a position. The heads of a group share their keys. -/
def scoreOf (q k : Nat → F) (h : Nat) : F :=
  ops.div (sumUpto ops (ops.ofInt 0)
      (fun i => ops.mul (q (h * s.headSize + i)) (k (h / s.kvMul * s.headSize + i))) s.headSize)
    (ops.sqrtf_k (ops.ofInt s.headSize))

/-- The values of the positions up to `p`, weighted by the scores of the head. -/
def attended (q : Nat → F) (e : Nat → Entry F) (p : Nat) : Nat → F := fun j =>
  let h := j / s.headSize
  let weight := softmax ops (fun t => scoreOf ops s q (e t).1 h) (p + 1)
  sumUpto ops (ops.ofInt 0)
    (fun t => ops.mul (weight t) ((e t).2 (h / s.kvMul * s.headSize + j % s.headSize))) (p + 1)

/-- The gated product between the two matrices of the feed-forward network. -/
def gated (a b : Nat → F) : Nat → F := fun i =>
  ops.mul (ops.mul (a i) (ops.div (ops.ofInt 1)
    (ops.add (ops.ofInt 1) (ops.expf_k (ops.neg (a i)))))) (b i)

/-- The two residual additions of a layer. -/
def residual (L : LayerWeights F) (x a : Nat → F) : Nat → F :=
  let x := fun i => ops.add (x i) (matVec ops L.wo a s.dim i)
  let n := normed ops L.rmsFfn x s.dim
  let g := gated ops (matVec ops L.w1 n s.dim) (matVec ops L.w3 n s.dim)
  fun i => ops.add (x i) (matVec ops L.w2 g s.hiddenDim i)

variable (w : TransformerWeights) (file : Nat → F)

/-- The weights of a layer in the model file. -/
def layerWeights (l : Nat) : LayerWeights F where
  rmsAtt := tensor file w.rmsAttWeight (mul64 l (u64 s.dim))
  wq := tensor file w.wq (mul64 (mul64 l (u64 s.dim)) (u64 s.dim))
  wk := tensor file w.wk (mul64 (mul64 l (u64 s.dim)) (u64 s.kvDim))
  wv := tensor file w.wv (mul64 (mul64 l (u64 s.dim)) (u64 s.kvDim))
  wo := tensor file w.wo (mul64 (mul64 l (u64 s.dim)) (u64 s.dim))
  rmsFfn := tensor file w.rmsFfnWeight (mul64 l (u64 s.dim))
  w1 := tensor file w.w1 (mul64 (mul64 l (u64 s.dim)) (u64 s.hiddenDim))
  w2 := tensor file w.w2 (mul64 (mul64 l (u64 s.dim)) (u64 s.hiddenDim))
  w3 := tensor file w.w3 (mul64 (mul64 l (u64 s.dim)) (u64 s.hiddenDim))

end decoder

/-! ## The decoder -/

section congr

variable {ops : FloatOps F} {s : Sizes}

theorem sumUpto_congr {a : F} {f g : Nat → F} {n : Nat} (h : ∀ i < n, f i = g i) :
    sumUpto ops a f n = sumUpto ops a g n := by
  induction n with
  | zero => rfl
  | succ n ih =>
    rw [sumUpto, sumUpto, ih fun i hi => h i (Nat.lt_succ_of_lt hi), h n (Nat.lt_succ_self n)]

theorem maxUpto_congr {v v' : Nat → F} {n : Nat} (h : ∀ i ≤ n, v i = v' i) :
    maxUpto ops v n = maxUpto ops v' n := by
  induction n with
  | zero => exact h 0 (Nat.le_refl 0)
  | succ n ih =>
    rw [maxUpto, maxUpto, ih fun i hi => h i (Nat.le_succ_of_le hi), h (n + 1) (Nat.le_refl _)]

/-- The weights do not depend on scores behind the last. -/
theorem softmax_congr {v v' : Nat → F} {n : Nat} (h : ∀ i ≤ n, v i = v' i) {i : Nat} (hi : i ≤ n) :
    softmax ops v (n + 1) i = softmax ops v' (n + 1) i := by
  have hexp : ∀ j ≤ n, expScore ops v (n + 1) j = expScore ops v' (n + 1) j := by
    intro j hj
    rw [expScore, expScore, h j hj, Nat.add_sub_cancel, maxUpto_congr h]
  rw [softmax, softmax, hexp i hi, sumUpto_congr fun j hj => hexp j (Nat.le_of_lt_succ hj)]

theorem attended_congr {q : Nat → F} {e e' : Nat → Entry F} {p : Nat} (h : ∀ t ≤ p, e t = e' t) :
    attended ops s q e p = attended ops s q e' p := by
  funext j
  unfold attended
  apply sumUpto_congr
  intro t ht
  have hle := Nat.le_of_lt_succ ht
  rw [h t hle, softmax_congr (fun i hi => by rw [h i hi]) hle]

end congr

/-- The decoder of the model file. -/
def transformer (ops : FloatOps F) (s : Sizes) (w : TransformerWeights) (file : Nat → F) :
    Decoder Int (Nat → F) (Entry F) where
  layers := s.nLayers
  embed token := tensor file w.tokenEmbeddingTable (mul64 (u64 token) (u64 s.dim))
  entry l p x := entryOf ops s (layerWeights s w file l) p x
  mix l p x e :=
    let L := layerWeights s w file l
    residual ops s L x (attended ops s (queriesOf ops s L p x) e p)
  causal l _ x _ _ h := congrArg (residual ops s (layerWeights s w file l) x) (attended_congr h)

/-- What the classifier makes of the last value of a position. -/
def logitsOf (ops : FloatOps F) (s : Sizes) (w : TransformerWeights) (file : Nat → F)
    (x : Nat → F) : Nat → F :=
  matVec ops (tensor file w.wcls 0) (normed ops (tensor file w.rmsFinalWeight 0) x s.dim) s.dim

end ChocoOs.Llama
