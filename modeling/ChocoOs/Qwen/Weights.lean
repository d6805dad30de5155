import ChocoOs.Lib.Mapped

/-!
# The weights of a checkpoint

How `load_qwen` finds the tensors: the header is copied, and pointers are moved over the file by
products of its numbers. Nothing is compared with the size of the file.
-/

namespace ChocoOs.Qwen
open ProgLib

/-- `QWEN_MAGIC` -/
def qwenMagic : Nat := 0x616A6331

/-- `QWEN_CTX_MAX` -/
def qwenCtxMax : Int := 1024

/-- `Config` (`qwen.c:36-48`) -/
structure Config where
  dim : Int
  hiddenDim : Int
  nLayers : Int
  nHeads : Int
  nKvHeads : Int
  vocabSize : Int
  seqLen : Int
  headDim : Int
  sharedClassifier : Int
  groupSize : Int
  deriving DecidableEq

/-- `magic` and `version` are right (`qwen.c:307-316`). -/
def GoodMagic (m : Mapped) : Prop := m.word32 0 = qwenMagic ∧ m.intAt 4 = 1

instance (m : Mapped) : Decidable (GoodMagic m) := by
  unfold GoodMagic
  infer_instance

/-- The configuration that `load_qwen` copies (`qwen.c:318-322`). -/
def readConfig (m : Mapped) : Config where
  dim := m.intAt 8
  hiddenDim := m.intAt 12
  nLayers := m.intAt 16
  nHeads := m.intAt 20
  nKvHeads := m.intAt 24
  vocabSize := m.intAt 28
  seqLen := if m.intAt 32 > qwenCtxMax then qwenCtxMax else m.intAt 32
  headDim := m.intAt 36
  sharedClassifier := m.intAt 40
  groupSize := m.intAt 44

/-- `QuantizedTensor`: where the values and the scales are. -/
structure QuantizedTensor where
  q : Nat
  s : Nat
  deriving DecidableEq

/-- `TransformerWeights` (`qwen.c:56-72`) -/
structure TransformerWeights where
  qTokens : QuantizedTensor
  rmsAttWeight : Nat
  rmsFfnWeight : Nat
  rmsFinalWeight : Nat
  qNormWeight : Nat
  kNormWeight : Nat
  wq : List QuantizedTensor
  wk : List QuantizedTensor
  wv : List QuantizedTensor
  wo : List QuantizedTensor
  w1 : List QuantizedTensor
  w2 : List QuantizedTensor
  w3 : List QuantizedTensor
  wcls : QuantizedTensor

/-- `fptr += n` -/
def floatStep (p n : Nat) : Nat := add64 p (mul64 n 4)

/-- One tensor, and the pointer behind it (`qwen.c:201-204`). -/
def mapTensor (gs : Int) (sizeEach p : Nat) : QuantizedTensor × Nat :=
  (⟨p, add64 p sizeEach⟩, floatStep (add64 p sizeEach) (sizeEach / u64 gs))

/-- The loop of `map_tensors` (`qwen.c:199-206`). -/
def mapTensors (gs : Int) (sizeEach : Nat) : Nat → Nat → List QuantizedTensor × Nat
  | 0, p => ([], p)
  | n + 1, p =>
    let (t, p) := mapTensor gs sizeEach p
    let (ts, p) := mapTensors gs sizeEach n p
    (t :: ts, p)

/-- The pointers that `load_qwen` sets (`qwen.c:324-361`). -/
def mapWeights (c : Config) (base : Nat) : TransformerWeights :=
  let n := c.nLayers.toNat
  let rmsAtt := add64 base 256
  let rmsFfn := floatStep rmsAtt (mul64 (u64 c.nLayers) (u64 c.dim))
  let rmsFinal := floatStep rmsFfn (mul64 (u64 c.nLayers) (u64 c.dim))
  let qNorm := floatStep rmsFinal (u64 c.dim)
  let kNorm := floatStep qNorm (mul64 (u64 c.nLayers) (u64 c.headDim))
  let ptr := floatStep kNorm (mul64 (u64 c.nLayers) (u64 c.headDim))
  let allHeadsDim := mul64 (u64 c.nHeads) (u64 c.headDim)
  let kvDim := mul64 (u64 c.nKvHeads) (u64 c.headDim)
  let (qTokens, ptr) := mapTensor c.groupSize (mul64 (u64 c.vocabSize) (u64 c.dim)) ptr
  let (wq, ptr) := mapTensors c.groupSize (mul64 (u64 c.dim) allHeadsDim) n ptr
  let (wk, ptr) := mapTensors c.groupSize (mul64 (u64 c.dim) kvDim) n ptr
  let (wv, ptr) := mapTensors c.groupSize (mul64 (u64 c.dim) kvDim) n ptr
  let (wo, ptr) := mapTensors c.groupSize (mul64 allHeadsDim (u64 c.dim)) n ptr
  let (w1, ptr) := mapTensors c.groupSize (mul64 (u64 c.dim) (u64 c.hiddenDim)) n ptr
  let (w2, ptr) := mapTensors c.groupSize (mul64 (u64 c.hiddenDim) (u64 c.dim)) n ptr
  let (w3, ptr) := mapTensors c.groupSize (mul64 (u64 c.dim) (u64 c.hiddenDim)) n ptr
  { qTokens, wq, wk, wv, wo, w1, w2, w3
    rmsAttWeight := rmsAtt
    rmsFfnWeight := rmsFfn
    rmsFinalWeight := rmsFinal
    qNormWeight := qNorm
    kNormWeight := kNorm
    wcls :=
      if c.sharedClassifier = 0 then
        (mapTensor c.groupSize (mul64 (u64 c.dim) (u64 c.vocabSize)) ptr).1
      else qTokens }

end ChocoOs.Qwen
