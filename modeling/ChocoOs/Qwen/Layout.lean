import ChocoOs.Export.Checkpoint
import ChocoOs.Qwen.Weights

/-!
# The checkpoint is read as it was written

The pointers that `load_qwen` sets walk over the file as the plan of the exporter has it: tensor by
tensor they are at the bytes that were written of the tensor.
-/

namespace ChocoOs.Qwen
open ProgLib ChocoOs.Export

/-! ## The tensors of the loader -/

/-- The vectors of all layers from `p` on: that of layer `l` is at `p + l * size`. -/
def vectors (name : Nat → TensorName) (size : Nat) (p n : Nat) : List (Part × Nat × Nat) :=
  (List.range n).map fun l => (.fp32 (name l), floatStep p (mul64 l size), 4 * size)

/-- The values and the scales of a tensor. -/
def QuantizedTensor.parts (t : TensorName) (size gs : Nat) (x : QuantizedTensor) :
    List (Part × Nat × Nat) :=
  [(.values t, x.q, size), (.scales t, x.s, 4 * (size / gs))]

/-- The tensors of the layers from `l` on. -/
def layerParts (name : Nat → TensorName) (size gs : Nat) :
    Nat → List QuantizedTensor → List (Part × Nat × Nat)
  | _, [] => []
  | l, x :: xs => x.parts (name l) size gs ++ layerParts name size gs (l + 1) xs

/-- All tensors that the weights point to, with their sizes. A classifier of its own comes last. -/
def TransformerWeights.parts (w : TransformerWeights) (c : Config) : List (Part × Nat × Nat) :=
  let n := c.nLayers.toNat
  let gs := c.groupSize.toNat
  let dim := c.dim.toNat
  let hidden := c.hiddenDim.toNat
  let headDim := c.headDim.toNat
  let allHeads := c.nHeads.toNat * headDim
  let kv := c.nKvHeads.toNat * headDim
  let vocab := c.vocabSize.toNat
  vectors .inputLayernorm dim w.rmsAttWeight n ++
    vectors .postAttentionLayernorm dim w.rmsFfnWeight n ++
    [(.fp32 .norm, w.rmsFinalWeight, 4 * dim)] ++
    vectors .qNorm headDim w.qNormWeight n ++ vectors .kNorm headDim w.kNormWeight n ++
    w.qTokens.parts .embedTokens (vocab * dim) gs ++
    layerParts (.selfAttn .qProj) (allHeads * dim) gs 0 w.wq ++
    layerParts (.selfAttn .kProj) (kv * dim) gs 0 w.wk ++
    layerParts (.selfAttn .vProj) (kv * dim) gs 0 w.wv ++
    layerParts (.selfAttn .oProj) (dim * allHeads) gs 0 w.wo ++
    layerParts (.mlp .gateProj) (hidden * dim) gs 0 w.w1 ++
    layerParts (.mlp .downProj) (dim * hidden) gs 0 w.w2 ++
    layerParts (.mlp .upProj) (hidden * dim) gs 0 w.w3 ++
    if c.sharedClassifier = 0 then w.wcls.parts .lmHead (vocab * dim) gs else []

/-! ## One kind of tensor -/

theorem floatStep_eq (p n : Nat) : floatStep p n = add64 p (4 * n) := by
  simp only [floatStep, add64, mul64, Nat.add_mod_mod, Nat.mul_comm]

theorem floatStep_mul (p a b : Nat) : floatStep p (mul64 a b) = add64 p (a * (4 * b)) := by
  have hmul : a * b * 4 = a * (4 * b) := by rw [Nat.mul_assoc, Nat.mul_comm b 4]
  simp only [floatStep, add64, mul64, Nat.add_mod_mod, Nat.mod_mul_mod, hmul]

theorem add64_add64 (p a b : Nat) : add64 (add64 p a) b = add64 p (a + b) := by
  simp only [add64, Nat.mod_add_mod, Nat.add_assoc]

section kinds

variable (cfg : ModelConfig) (name : Nat → TensorName) (size : Nat)

/-- The vectors of a norm. -/
theorem vectors_tour (hsize : ∀ l, cfg.numel (name l) = size) {p : Nat} (hp : p < addrSpace) (n : Nat) :
    vectors name size p n = tour p (((List.range n).map name).flatMap cfg.fp32Plan) ∧
      floatStep p (mul64 n size) = tourEnd p (((List.range n).map name).flatMap cfg.fp32Plan) := by
  induction n with
  | zero =>
    refine ⟨rfl, ?_⟩
    rw [floatStep_mul, Nat.zero_mul]
    rfl
  | succ n ih =>
    obtain ⟨hwalk, hend⟩ := ih
    have hlast : ([name n].flatMap cfg.fp32Plan) = [(.fp32 (name n), 4 * size)] := by
      rw [List.flatMap_singleton, ModelConfig.fp32Plan, hsize]
    rw [List.range_succ, List.map_append, List.flatMap_append, List.map_singleton, hlast,
      tour_append hp, tourEnd_append, ← hwalk, ← hend, tour, tour]
    constructor
    · rw [vectors, List.range_succ, List.map_append]
      rfl
    · rw [floatStep_mul, floatStep_mul, tourEnd, add64_add64, Nat.succ_mul]
      rfl

/-- A quantized tensor. -/
theorem mapTensor_tour (t : TensorName) (hsize : cfg.numel t = size) (p : Nat) :
    (mapTensor groupSize size p).1.parts t size groupSize = tour p (cfg.q80Plan t) ∧
      (mapTensor groupSize size p).2 = tourEnd p (cfg.q80Plan t) := by
  have hgs : u64 (groupSize : Nat) = groupSize := by
    rw [u64_natCast]
    exact Nat.mod_eq_of_lt (by rw [addrSpace_eq]; decide)
  rw [ModelConfig.q80Plan, hsize]
  constructor
  · rfl
  · rw [mapTensor, hgs, floatStep_eq, tourEnd, add64_add64]
    rfl

/-- The quantized tensors of all layers. -/
theorem mapTensors_tour (hsize : ∀ l, cfg.numel (name l) = size) {p : Nat} (hp : p < addrSpace)
    (n l : Nat) :
    layerParts name size groupSize l (mapTensors groupSize size n p).1 =
        tour p (((List.range' l n).map name).flatMap cfg.q80Plan) ∧
      (mapTensors groupSize size n p).2 =
        tourEnd p (((List.range' l n).map name).flatMap cfg.q80Plan) := by
  induction n generalizing l p with
  | zero =>
    refine ⟨rfl, ?_⟩
    show p = add64 p 0
    exact (Nat.mod_eq_of_lt hp).symm
  | succ n ih =>
    obtain ⟨hfirst, hnext⟩ := mapTensor_tour cfg size (name l) (hsize l) p
    obtain ⟨hrest, hend⟩ := ih (tourEnd_lt p (cfg.q80Plan (name l))) (l + 1)
    rw [List.range'_succ, List.map_cons, List.flatMap_cons, tour_append hp, tourEnd_append,
      ← hrest, ← hend, ← hfirst, ← hnext]
    exact ⟨rfl, rfl⟩

end kinds

/-! ## All tensors -/

/-- What the header says about a configuration. -/
def configOf (cfg : ModelConfig) : Config where
  dim := cfg.hiddenSize
  hiddenDim := cfg.intermediateSize
  nLayers := cfg.numHiddenLayers
  nHeads := cfg.numAttentionHeads
  nKvHeads := cfg.numKeyValueHeads
  vocabSize := cfg.vocabSize
  seqLen := if (cfg.maxPositionEmbeddings : Int) > qwenCtxMax then qwenCtxMax
    else cfg.maxPositionEmbeddings
  headDim := cfg.headDim
  sharedClassifier := if cfg.tieWordEmbeddings then 1 else 0
  groupSize := groupSize

theorem u64_field {cfg : ModelConfig} (hfields : ∀ n ∈ cfg.fields, n < 2 ^ 31) {n : Nat}
    (hn : n ∈ cfg.fields) : u64 (n : Int) = n := by
  rw [u64_natCast]
  apply Nat.mod_eq_of_lt
  have h := hfields n hn
  rw [addrSpace_eq]
  omega

/-- A block that a pointer has walked over from `p` to `p'`. -/
def Block (p p' : Nat) (xs : List (Part × Nat × Nat)) (bs : List (Part × Nat)) : Prop :=
  ∀ ys cs, ys = tour p' cs → xs ++ ys = tour p (bs ++ cs)

theorem block_of_tour {xs : List (Part × Nat × Nat)} {bs : List (Part × Nat)} {p q : Nat}
    (hp : p < addrSpace) (h : xs = tour p bs ∧ q = tourEnd p bs) :
    ∃ p', p' < addrSpace ∧ q = p' ∧ Block p p' xs bs := by
  refine ⟨tourEnd p bs, tourEnd_lt p bs, h.2, fun ys cs hys => ?_⟩
  rw [tour_append hp, h.1, hys]

section blocks

variable (cfg : ModelConfig) (name : Nat → TensorName) (size : Nat) {p : Nat} (hp : p < addrSpace)

include hp

theorem vectors_block (hsize : ∀ l, cfg.numel (name l) = size) (n : Nat) :
    ∃ p', p' < addrSpace ∧ floatStep p (mul64 n size) = p' ∧
      Block p p' (vectors name size p n) (((List.range n).map name).flatMap cfg.fp32Plan) :=
  block_of_tour hp (vectors_tour cfg name size hsize hp n)

theorem vector_block (t : TensorName) (hsize : cfg.numel t = size) :
    ∃ p', p' < addrSpace ∧ floatStep p size = p' ∧
      Block p p' [(.fp32 t, p, 4 * size)] (cfg.fp32Plan t) := by
  refine block_of_tour hp ⟨?_, ?_⟩
  · rw [ModelConfig.fp32Plan, hsize]
    rfl
  · rw [ModelConfig.fp32Plan, hsize, floatStep_eq]
    rfl

theorem mapTensor_block (t : TensorName) (hsize : cfg.numel t = size) :
    ∃ p', p' < addrSpace ∧ (mapTensor groupSize size p).2 = p' ∧
      Block p p' ((mapTensor groupSize size p).1.parts t size groupSize) (cfg.q80Plan t) :=
  block_of_tour hp (mapTensor_tour cfg size t hsize p)

theorem mapTensors_block (hsize : ∀ l, cfg.numel (name l) = size) (n : Nat) :
    ∃ p', p' < addrSpace ∧ (mapTensors groupSize size n p).2 = p' ∧
      Block p p' (layerParts name size groupSize 0 (mapTensors groupSize size n p).1)
        (((List.range n).map name).flatMap cfg.q80Plan) := by
  rw [List.range_eq_range']
  exact block_of_tour hp (mapTensors_tour cfg name size hsize hp n 0)

end blocks

theorem mul64_field {a b : Nat} (ha : a < 2 ^ 31) (hb : b < 2 ^ 31) : mul64 a b = a * b := by
  apply mul64_of_lt
  have h := Nat.mul_lt_mul'' ha hb
  rw [addrSpace_eq]
  omega

/-- The pointers walk over the plan of the exporter. -/
theorem mapWeights_tour {cfg : ModelConfig} (hfields : ∀ n ∈ cfg.fields, n < 2 ^ 31)
    (hq : cfg.numAttentionHeads * cfg.headDim * cfg.hiddenSize < addrSpace)
    (hkv : cfg.numKeyValueHeads * cfg.headDim * cfg.hiddenSize < addrSpace) (base : Nat) :
    (mapWeights (configOf cfg) base).parts (configOf cfg) = tour (add64 base 256) cfg.plan := by
  have hmem : ∀ {n : Nat}, n ∈ cfg.fields → u64 (n : Int) = n := u64_field hfields
  simp only [ModelConfig.fields, List.mem_cons, List.not_mem_nil, or_false] at hfields hmem
  -- the products are those of the configuration
  have hheads : mul64 cfg.numAttentionHeads cfg.headDim = cfg.numAttentionHeads * cfg.headDim :=
    mul64_field (hfields _ (by simp)) (hfields _ (by simp))
  have hkvHeads : mul64 cfg.numKeyValueHeads cfg.headDim = cfg.numKeyValueHeads * cfg.headDim :=
    mul64_field (hfields _ (by simp)) (hfields _ (by simp))
  have htokens : mul64 cfg.vocabSize cfg.hiddenSize = cfg.vocabSize * cfg.hiddenSize :=
    mul64_field (hfields _ (by simp)) (hfields _ (by simp))
  have hcls : mul64 cfg.hiddenSize cfg.vocabSize = cfg.vocabSize * cfg.hiddenSize := by
    rw [mul64, Nat.mul_comm]
    exact htokens
  have hup : mul64 cfg.hiddenSize cfg.intermediateSize = cfg.intermediateSize * cfg.hiddenSize := by
    rw [Nat.mul_comm cfg.intermediateSize]
    exact mul64_field (hfields _ (by simp)) (hfields _ (by simp))
  have hdown : mul64 cfg.intermediateSize cfg.hiddenSize = cfg.hiddenSize * cfg.intermediateSize := by
    rw [Nat.mul_comm cfg.hiddenSize]
    exact mul64_field (hfields _ (by simp)) (hfields _ (by simp))
  have hwq : mul64 cfg.hiddenSize (cfg.numAttentionHeads * cfg.headDim) =
      cfg.numAttentionHeads * cfg.headDim * cfg.hiddenSize := by
    rw [mul64, Nat.mul_comm]
    exact mul64_of_lt hq
  have hwo : mul64 (cfg.numAttentionHeads * cfg.headDim) cfg.hiddenSize =
      cfg.hiddenSize * (cfg.numAttentionHeads * cfg.headDim) := by
    rw [Nat.mul_comm cfg.hiddenSize]
    exact mul64_of_lt hq
  have hwk : mul64 cfg.hiddenSize (cfg.numKeyValueHeads * cfg.headDim) =
      cfg.numKeyValueHeads * cfg.headDim * cfg.hiddenSize := by
    rw [mul64, Nat.mul_comm]
    exact mul64_of_lt hkv
  have hdim := hmem (n := cfg.hiddenSize) (by simp)
  have hhidden := hmem (n := cfg.intermediateSize) (by simp)
  have hlayers := hmem (n := cfg.numHiddenLayers) (by simp)
  have hnh := hmem (n := cfg.numAttentionHeads) (by simp)
  have hnkv := hmem (n := cfg.numKeyValueHeads) (by simp)
  have hvocab := hmem (n := cfg.vocabSize) (by simp)
  have hheadDim := hmem (n := cfg.headDim) (by simp)
  simp only [mapWeights, configOf, TransformerWeights.parts, hdim, hhidden, hlayers, hnh, hnkv,
    hvocab, hheadDim, hheads, hkvHeads, htokens, hcls, hup, hdown, hwq, hwo, hwk, Int.toNat_natCast]
  simp only [ModelConfig.plan, List.flatMap_cons, List.flatMap_nil, List.append_nil,
    List.flatMap_append, List.append_assoc]
  have hp : add64 base 256 < addrSpace := add64_lt ..
  generalize add64 base 256 = p at hp ⊢
  -- block by block, as the pointer goes
  obtain ⟨p1, hp1, hnext, hblock⟩ := vectors_block cfg .inputLayernorm cfg.hiddenSize hp
    (fun _ => rfl) cfg.numHiddenLayers
  rw [hnext]
  apply hblock
  obtain ⟨p2, hp2, hnext, hblock⟩ := vectors_block cfg .postAttentionLayernorm cfg.hiddenSize hp1
    (fun _ => rfl) cfg.numHiddenLayers
  rw [hnext]
  apply hblock
  obtain ⟨p3, hp3, hnext, hblock⟩ := vector_block cfg cfg.hiddenSize hp2 .norm rfl
  rw [hnext]
  apply hblock
  obtain ⟨p4, hp4, hnext, hblock⟩ := vectors_block cfg .qNorm cfg.headDim hp3
    (fun _ => rfl) cfg.numHiddenLayers
  rw [hnext]
  apply hblock
  obtain ⟨p5, hp5, hnext, hblock⟩ := vectors_block cfg .kNorm cfg.headDim hp4
    (fun _ => rfl) cfg.numHiddenLayers
  rw [hnext]
  apply hblock
  obtain ⟨p6, hp6, hnext, hblock⟩ := mapTensor_block cfg (cfg.vocabSize * cfg.hiddenSize) hp5
    .embedTokens rfl
  rw [hnext]
  apply hblock
  obtain ⟨p7, hp7, hnext, hblock⟩ := mapTensors_block cfg (.selfAttn .qProj)
    (cfg.numAttentionHeads * cfg.headDim * cfg.hiddenSize) hp6
    (fun _ => rfl) cfg.numHiddenLayers
  rw [hnext]
  apply hblock
  obtain ⟨p8, hp8, hnext, hblock⟩ := mapTensors_block cfg (.selfAttn .kProj)
    (cfg.numKeyValueHeads * cfg.headDim * cfg.hiddenSize) hp7
    (fun _ => rfl) cfg.numHiddenLayers
  rw [hnext]
  apply hblock
  obtain ⟨p9, hp9, hnext, hblock⟩ := mapTensors_block cfg (.selfAttn .vProj)
    (cfg.numKeyValueHeads * cfg.headDim * cfg.hiddenSize) hp8
    (fun _ => rfl) cfg.numHiddenLayers
  rw [hnext]
  apply hblock
  obtain ⟨p10, hp10, hnext, hblock⟩ := mapTensors_block cfg (.selfAttn .oProj)
    (cfg.hiddenSize * (cfg.numAttentionHeads * cfg.headDim)) hp9
    (fun _ => rfl) cfg.numHiddenLayers
  rw [hnext]
  apply hblock
  obtain ⟨p11, hp11, hnext, hblock⟩ := mapTensors_block cfg (.mlp .gateProj)
    (cfg.intermediateSize * cfg.hiddenSize) hp10
    (fun _ => rfl) cfg.numHiddenLayers
  rw [hnext]
  apply hblock
  obtain ⟨p12, hp12, hnext, hblock⟩ := mapTensors_block cfg (.mlp .downProj)
    (cfg.hiddenSize * cfg.intermediateSize) hp11
    (fun _ => rfl) cfg.numHiddenLayers
  rw [hnext]
  apply hblock
  obtain ⟨p13, hp13, hnext, hblock⟩ := mapTensors_block cfg (.mlp .upProj)
    (cfg.intermediateSize * cfg.hiddenSize) hp12
    (fun _ => rfl) cfg.numHiddenLayers
  rw [hnext]
  apply hblock
  cases htied : cfg.tieWordEmbeddings with
  | true => rfl
  | false => exact (mapTensor_tour cfg _ .lmHead rfl p13).1

/-! ## The header -/

theorem packInt_eq {n : Nat} {b : List UInt8} (h : packInt n = some b) :
    n < 2 ^ 31 ∧ b = leBytes 4 n := by
  unfold packInt at h
  split at h
  · exact ⟨‹_›, (Option.some.inj h).symm⟩
  · cases h

/-- The `k`-th of numbers that are packed one behind the other. -/
theorem slice_words (ns : List Nat) (post : List UInt8) (k : Nat) (h : k < ns.length) :
    ((ns.flatMap (leBytes 4) ++ post).drop (4 * k)).take 4 = leBytes 4 (ns.getD k 0) := by
  induction ns generalizing k with
  | nil => cases h
  | cons n ns ih =>
    rw [List.flatMap_cons, List.append_assoc]
    cases k with
    | zero =>
      have hlen := leBytes_length 4 n
      rw [Nat.mul_zero, List.drop_zero, List.take_append_of_le_length (by omega),
        List.take_of_length_le (by omega)]
      rfl
    | succ k =>
      rw [List.drop_append, leBytes_length, List.drop_eq_nil_of_le (by rw [leBytes_length]; omega),
        List.nil_append, show 4 * (k + 1) - 4 = 4 * k by omega]
      exact ih k (Nat.lt_of_succ_lt_succ h)

theorem packHeader_eq {cfg : ModelConfig} {header : List UInt8} (h : packHeader cfg = some header) :
    (∀ n ∈ cfg.fields, n < 2 ^ 31) ∧ header.length = 256 ∧
      ∃ post, header = (magic :: version :: cfg.fields).flatMap (leBytes 4) ++ post := by
  obtain ⟨fields, hfields, h⟩ := Option.bind_eq_some_iff.mp h
  obtain ⟨hlt, rfl⟩ := eq_map_of_mapM (fun _ _ => packInt_eq) hfields
  have hwords : leBytes 4 magic ++ leBytes 4 version ++ (cfg.fields.map (leBytes 4)).flatten =
      (magic :: version :: cfg.fields).flatMap (leBytes 4) := by
    rw [List.flatMap_cons, List.flatMap_cons, List.append_assoc]
    rfl
  have hlen : ((magic :: version :: cfg.fields).flatMap (leBytes 4)).length = 48 := rfl
  cases h
  rw [hwords]
  refine ⟨hlt, ?_, _, rfl⟩
  rw [List.length_append, List.length_replicate, hlen]

/-- `load_qwen` reads the numbers that were packed. -/
theorem word_of_header {cfg : ModelConfig} {header rest : List UInt8} {m : Mapped}
    (hheader : packHeader cfg = some header) (hm : m.Holds (header ++ rest)) (k : Nat) (hk : k < 12) :
    m.word32 (4 * k) = leNat (leBytes 4 ((magic :: version :: cfg.fields).getD k 0)) := by
  obtain ⟨-, hlen, post, hpost⟩ := packHeader_eq hheader
  have hbytes : m.bytes (4 * k) 4 = ((header ++ rest).drop (4 * k)).take 4 :=
    hm.bytes (by rw [List.length_append]; omega)
  have hk' : k < (magic :: version :: cfg.fields).length := hk
  rw [Mapped.word32, hbytes, hpost, List.append_assoc, slice_words _ _ _ hk']

theorem intAt_of_header {cfg : ModelConfig} {header rest : List UInt8} {m : Mapped}
    (hheader : packHeader cfg = some header) (hm : m.Holds (header ++ rest)) (k : Nat) (hk : k < 10) :
    m.intAt (8 + 4 * k) = cfg.fields.getD k 0 := by
  obtain ⟨hlt, -⟩ := packHeader_eq hheader
  have hlen : k < cfg.fields.length := hk
  have hn : cfg.fields.getD k 0 < 2 ^ 31 := by
    rw [← List.getElem_eq_getD (h := hlen) 0]
    exact hlt _ (List.getElem_mem _)
  have hword := word_of_header hheader hm (k + 2) (by omega)
  rw [show 4 * (k + 2) = 8 + 4 * k by omega, List.getD_cons_succ, List.getD_cons_succ,
    leNat_leBytes (by omega)] at hword
  rw [Mapped.intAt, hword, int32, if_pos hn]

theorem readConfig_of_header {cfg : ModelConfig} {header rest : List UInt8} {m : Mapped}
    (hheader : packHeader cfg = some header) (hm : m.Holds (header ++ rest)) :
    GoodMagic m ∧ readConfig m = configOf cfg := by
  have hint := intAt_of_header hheader hm
  constructor
  · have hmagic := word_of_header hheader hm 0 (by decide)
    have hversion := word_of_header hheader hm 1 (by decide)
    have hmagic' : leNat (leBytes 4 magic) = magic := leNat_leBytes (by decide)
    have hversion' : leNat (leBytes 4 version) = version := leNat_leBytes (by decide)
    refine ⟨hmagic.trans hmagic', ?_⟩
    rw [Mapped.intAt, hversion.trans hversion']
    rfl
  · have htied : m.intAt 40 = ((if cfg.tieWordEmbeddings then 1 else 0 : Nat) : Int) :=
      hint 8 (by decide)
    have hseq : m.intAt 32 = cfg.maxPositionEmbeddings := hint 6 (by decide)
    rw [readConfig, configOf, hint 0 (by decide), hint 1 (by decide), hint 2 (by decide),
      hint 3 (by decide), hint 4 (by decide), hint 5 (by decide), hint 7 (by decide),
      hint 9 (by decide), htied, hseq]
    congr 1
    split <;> rfl

/-- For every checkpoint that is exported, wherever it lies in memory: the loader accepts the header,
    and the tensors it maps are those that were written, in this order and with these sizes, each at
    the place where it was written; tied embeddings are the classifier. What was written follows the
    header without a gap or an overlap, and ends at the end of the file. -/
theorem checkpoint_layout {F : Type} (num : Numerics F) (cfg : ModelConfig)
    (tensors : TensorName → Option (List F)) (hshape : cfg.Shapes tensors)
    (hq : cfg.numAttentionHeads * cfg.headDim * cfg.hiddenSize < addrSpace)
    (hkv : cfg.numKeyValueHeads * cfg.headDim * cfg.hiddenSize < addrSpace) (f : Out)
    (hexport : exportModel num tensors cfg = some f) (m : Mapped) (hm : m.Holds f.bytes) :
    let c := readConfig m
    let w := mapWeights c m.address
    GoodMagic m ∧
      w.parts c = f.log.map (fun x => (x.1, add64 m.address x.2.1, x.2.2.length)) ∧
      (cfg.tieWordEmbeddings = true → w.wcls = w.qTokens) ∧
      Tiles (fun x : Part × Nat × List UInt8 => x.2.1) (fun x => x.2.2.length) 256 f.log
        f.bytes.length ∧
      ∀ x ∈ f.log, (f.bytes.drop x.2.1).take x.2.2.length = x.2.2 := by
  obtain ⟨header, hheader, pieces, hsizes, hbytes, hlog⟩ := exportModel_written hshape hexport
  obtain ⟨hfields, hlen, -⟩ := packHeader_eq hheader
  rw [List.nil_append] at hlog
  rw [hbytes] at hm
  obtain ⟨hmagic, hconfig⟩ := readConfig_of_header hheader hm
  refine ⟨hmagic, ?_, fun htied => ?_, ?_, fun x hx => ?_⟩
  · rw [hconfig, mapWeights_tour hfields hq hkv, ← hsizes, tour_sizes, hlog, hlen]
  · rw [hconfig]
    have hshared : (configOf cfg).sharedClassifier = 1 := by
      rw [configOf, htied]
      rfl
    exact if_neg (by rw [hshared]; decide)
  · have htiles := tiles_placed header.length pieces
    rw [hlog, hbytes, List.length_append, ← hlen]
    exact htiles
  · rw [hlog] at hx
    rw [hbytes]
    exact slice_placed hx

/-- Floats are bytes, and a group is quantized to itself. -/
def sampleNumerics : Numerics UInt8 where
  fp32 := fun x => [x, 0, 0, 0]
  quantize := fun g => (g, 1)
  fp32_length := fun _ => rfl
  quantize_length := fun _ => rfl

/-- A model of one layer with a classifier of its own. -/
def tinyModel : ModelConfig where
  hiddenSize := 64
  intermediateSize := 64
  numHiddenLayers := 1
  numAttentionHeads := 2
  numKeyValueHeads := 1
  vocabSize := 3
  maxPositionEmbeddings := 40960
  headDim := 64
  tieWordEmbeddings := false

def sampleTensors (t : TensorName) : Option (List UInt8) :=
  some (List.replicate (tinyModel.numel t) 7)

theorem complete_sampleTensors : tinyModel.Complete sampleTensors :=
  fun _ => ⟨_, rfl, List.length_replicate⟩

theorem checkpoint_layout_sample : ∃ f m, exportModel sampleNumerics sampleTensors tinyModel = some f ∧
    m.address = 0x100000 ∧
      (let c := readConfig m
      let w := mapWeights c m.address
      GoodMagic m ∧
        w.parts c = f.log.map (fun x => (x.1, add64 m.address x.2.1, x.2.2.length)) ∧
        (tinyModel.tieWordEmbeddings = true → w.wcls = w.qTokens) ∧
        Tiles (fun x : Part × Nat × List UInt8 => x.2.1) (fun x => x.2.2.length) 256 f.log
          f.bytes.length ∧
        ∀ x ∈ f.log, (f.bytes.drop x.2.1).take x.2.2.length = x.2.2) := by
  have hexport : ∃ f, exportModel sampleNumerics sampleTensors tinyModel = some f :=
    exportModel_isSome (by decide) complete_sampleTensors (by decide) (by decide) (by decide)
      (by decide) (by decide) (by decide)
  obtain ⟨f, hf⟩ := hexport
  have hplace : 0x100000 + 0x100000 < addrSpace := by
    rw [addrSpace_eq]
    decide
  have hsmall : tinyModel.numAttentionHeads * tinyModel.headDim * tinyModel.hiddenSize <
      addrSpace := by
    rw [addrSpace_eq]
    decide
  have hsmall' : tinyModel.numKeyValueHeads * tinyModel.headDim * tinyModel.hiddenSize <
      addrSpace := by
    rw [addrSpace_eq]
    decide
  refine ⟨f, ⟨0x100000, 0x100000, fun i => f.bytes.getD i 0, hplace⟩, hf, rfl, ?_⟩
  exact checkpoint_layout sampleNumerics tinyModel sampleTensors complete_sampleTensors.shapes
    hsmall hsmall' f hf _ fun i h => (List.getElem_eq_getD 0).symm

end ChocoOs.Qwen
