import ChocoOs.Llama.Load
import ChocoOs.Llama.Math

/-!
# The forward pass

`forward` of `llm.c`, as a program over the run state that `alloc_run_state` has allocated. The weights
are read through the pointers of `memory_map_weights`. A pass reads what earlier passes have left in the
caches, and `Safe` says what must be there; when the keys of one position are an odd number, it also
reads a key of the next position.
-/

namespace ChocoOs.Llama
open ProgLib ChocoOs.Qwen

/-- The remainder of `int`s. -/
def remInt (a b : Int) : Option Int := (divInt a b).map fun _ => a.tmod b

/-- The local variables of `forward` that say how large the heads are (`llm.c:165-168`). -/
structure Dims where
  kvDim : Int
  kvMul : Int
  headSize : Int

def Config.dims (c : Config) : Option Dims := do
  let n ← mulInt c.dim c.nKvHeads
  let kvDim ← divInt n c.nHeads
  let kvMul ← divInt c.nHeads c.nKvHeads
  let headSize ← divInt c.dim c.nHeads
  return ⟨kvDim, kvMul, headSize⟩

section forward

variable {F : Type} (ops : FloatOps F) (c : Config) (d : Dims) (w : TransformerWeights)
  (file : Nat → F)

/-- The floats of a tensor from an offset on. `file p` is the float at the address `p`. -/
def tensor (p offset : Nat) : Nat → F := fun i => file (floatStep (floatStep p offset) i)

/-- `loff` (`llm.c:179`) -/
def loff (l : Nat) : Nat := mul64 (mul64 l (u64 c.seqLen)) (u64 d.kvDim)

/-- `k` and `v` of a position (`llm.c:180-181`). -/
def cacheAt (b : Buf) (l : Nat) (pos : Int) : Ptr := (b, loff c d l + mul64 (u64 pos) (u64 d.kvDim))

/-- `kt` and `vt` of a position and a head (`llm.c:213-214`, `llm.c:227-228`). -/
def cacheHead (b : Buf) (l : Nat) (tp : Int) (h : Nat) : Cmd Ptr F Ptr := do
  let g ← Cmd.ofOption (divInt h d.kvMul)
  return (cacheAt c d b l tp).at (mul64 (u64 g) (u64 d.headSize))

/-- The query, the key and the value of the position (`llm.c:176-185`). -/
def project (l : Nat) (pos : Int) : Cmd Ptr F Unit := do
  rmsnorm ops (.xb, 0) (.x, 0) (tensor file w.rmsAttWeight (mul64 l (u64 c.dim))) c.dim.toNat
  matmul ops (.q, 0) (.xb, 0)
    (tensor file w.wq (mul64 (mul64 l (u64 c.dim)) (u64 c.dim))) c.dim.toNat c.dim.toNat
  matmul ops (cacheAt c d .keyCache l pos) (.xb, 0)
    (tensor file w.wk (mul64 (mul64 l (u64 c.dim)) (u64 d.kvDim))) c.dim.toNat d.kvDim.toNat
  matmul ops (cacheAt c d .valueCache l pos) (.xb, 0)
    (tensor file w.wv (mul64 (mul64 l (u64 c.dim)) (u64 d.kvDim))) c.dim.toNat d.kvDim.toNat

/-- The rotation of a pair of the query, and of the key if it has as many (`llm.c:190-203`). -/
def ropePair (l : Nat) (pos : Int) (t : Nat) : Cmd Ptr F Unit := do
  let i := 2 * t
  let headDim ← Cmd.ofOption (remInt i d.headSize)
  let freq := ops.div (ops.ofInt 1)
    (ops.powf_k (ops.ofInt 10000) (ops.div (ops.ofInt headDim) (ops.ofInt d.headSize)))
  let val := ops.mul (ops.ofInt pos) freq
  rotate ops (.q, 0) i (ops.cosf_k val) (ops.sinf_k val)
  -- `rotn` is 2
  if i < d.kvDim.toNat then
    rotate ops (cacheAt c d .keyCache l pos) i (ops.cosf_k val) (ops.sinf_k val)

/-- The rotations (`llm.c:188-204`). -/
def rope (l : Nat) (pos : Int) : Cmd Ptr F Unit :=
  Cmd.forUpto ((c.dim.toNat + 1) / 2) (ropePair ops c d l pos)

/-- `q` of a head (`llm.c:209`). -/
def queryAt (h : Nat) : Ptr := (.q, mul64 h (u64 d.headSize))

/-- `att` of a head (`llm.c:210`). -/
def attAt (h : Nat) : Ptr := (.att, mul64 h (u64 c.seqLen))

/-- `xb` of a head (`llm.c:223`). -/
def xbAt (h : Nat) : Ptr := (.xb, mul64 h (u64 d.headSize))

/-- The scores of a head (`llm.c:211-219`). -/
def scores (l : Nat) (pos : Int) (h : Nat) : Cmd Ptr F Unit :=
  Cmd.forUpto (pos + 1).toNat fun tp => do
    let kt ← cacheHead c d .keyCache l tp h
    let score ← Cmd.foldUpto d.headSize.toNat (ops.ofInt 0) fun i score => do
      let a ← Cmd.get ((queryAt d h).at i)
      let b ← Cmd.get (kt.at i)
      return ops.add score (ops.mul a b)
    Cmd.set ((attAt c h).at tp) (ops.div score (ops.sqrtf_k (ops.ofInt d.headSize)))

/-- The weighted sum of the values of a head (`llm.c:224-232`). -/
def mixValues (l : Nat) (pos : Int) (h : Nat) : Cmd Ptr F Unit := do
  Cmd.forUpto d.headSize.toNat fun i => Cmd.set ((xbAt d h).at i) (ops.ofInt 0)
  Cmd.forUpto (pos + 1).toNat fun tp => do
    let vt ← cacheHead c d .valueCache l tp h
    let a ← Cmd.get ((attAt c h).at tp)
    Cmd.forUpto d.headSize.toNat fun i => do
      let x ← Cmd.get ((xbAt d h).at i)
      let v ← Cmd.get (vt.at i)
      Cmd.set ((xbAt d h).at i) (ops.add x (ops.mul a v))

/-- The attention of all heads (`llm.c:207-233`). -/
def attention (l : Nat) (pos : Int) : Cmd Ptr F Unit :=
  Cmd.forUpto c.nHeads.toNat fun h => do
    scores ops c d l pos h
    llmSoftmax ops (attAt c h) (pos + 1).toNat
    mixValues ops c d l pos h

/-- One element of `silu` (`llm.c:245-248`). -/
def silu (i : Nat) : Cmd Ptr F Unit := do
  let val ← Cmd.get (Buf.hb, i)
  let val := ops.mul val (ops.div (ops.ofInt 1) (ops.add (ops.ofInt 1) (ops.expf_k (ops.neg val))))
  let gate ← Cmd.get (Buf.hb2, i)
  Cmd.set (Buf.hb, i) (ops.mul val gate)

/-- What follows the attention (`llm.c:235-252`). -/
def feedForward (l : Nat) : Cmd Ptr F Unit := do
  matmul ops (.xb2, 0) (.xb, 0)
    (tensor file w.wo (mul64 (mul64 l (u64 c.dim)) (u64 c.dim))) c.dim.toNat c.dim.toNat
  addTo ops (.x, 0) (.xb2, 0) c.dim.toNat
  rmsnorm ops (.xb, 0) (.x, 0) (tensor file w.rmsFfnWeight (mul64 l (u64 c.dim))) c.dim.toNat
  matmul ops (.hb, 0) (.xb, 0)
    (tensor file w.w1 (mul64 (mul64 l (u64 c.dim)) (u64 c.hiddenDim))) c.dim.toNat c.hiddenDim.toNat
  matmul ops (.hb2, 0) (.xb, 0)
    (tensor file w.w3 (mul64 (mul64 l (u64 c.dim)) (u64 c.hiddenDim))) c.dim.toNat c.hiddenDim.toNat
  Cmd.forUpto c.hiddenDim.toNat (silu ops)
  matmul ops (.xb, 0) (.hb, 0)
    (tensor file w.w2 (mul64 (mul64 l (u64 c.dim)) (u64 c.hiddenDim))) c.hiddenDim.toNat c.dim.toNat
  addTo ops (.x, 0) (.xb, 0) c.dim.toNat

/-- A layer (`llm.c:176-252`). -/
def layer (pos : Int) (l : Nat) : Cmd Ptr F Unit := do
  project ops c d w file l pos
  rope ops c d l pos
  attention ops c d l pos
  feedForward ops c w file l

/-- `forward` (`llm.c:158-258`). Its result is the buffer of the logits. -/
def forward (token pos : Int) : Cmd Ptr F Unit := do
  let d ← Cmd.ofOption c.dims
  Cmd.forUpto c.dim.toNat fun i =>
    Cmd.set (Buf.x, i) (tensor file w.tokenEmbeddingTable (mul64 (u64 token) (u64 c.dim)) i)
  Cmd.forUpto (u64 c.nLayers) (layer ops c d w file pos)
  rmsnorm ops (.x, 0) (.x, 0) (tensor file w.rmsFinalWeight 0) c.dim.toNat
  matmul ops (.logits, 0) (.x, 0) (tensor file w.wcls 0) c.dim.toNat c.vocabSize.toNat

end forward

end ChocoOs.Llama
