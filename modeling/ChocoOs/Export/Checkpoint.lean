import ChocoOs.Lib.Traverse
import ChocoOs.Lib.Mapped

/-!
# The checkpoint exporter

`export_model` of `export_qwen3.py`. `none` stands for an exception. The numbers are a parameter: the
bytes of a float and what a group of floats is quantized to. Next to the file, `Out` keeps what was
written where.
-/

namespace ChocoOs.Export
open ProgLib

/-- `GROUP_SIZE` -/
def groupSize : Nat := 64

/-- `MAGIC` -/
def magic : Nat := 0x616A6331

/-- `VERSION` -/
def version : Nat := 1

/-- What is read of `config.json`. -/
structure ModelConfig where
  hiddenSize : Nat
  intermediateSize : Nat
  numHiddenLayers : Nat
  numAttentionHeads : Nat
  numKeyValueHeads : Nat
  vocabSize : Nat
  maxPositionEmbeddings : Nat
  headDim : Nat
  tieWordEmbeddings : Bool

/-- The parts of `self_attn`. -/
inductive AttnPart where
  | qProj
  | kProj
  | vProj
  | oProj
  deriving DecidableEq

/-- The parts of `mlp`. -/
inductive MlpPart where
  | gateProj
  | downProj
  | upProj
  deriving DecidableEq

/-- The names of tensors. -/
inductive TensorName where
  | inputLayernorm (i : Nat)
  | postAttentionLayernorm (i : Nat)
  | norm
  | qNorm (i : Nat)
  | kNorm (i : Nat)
  | embedTokens
  | selfAttn (part : AttnPart) (i : Nat)
  | mlp (part : MlpPart) (i : Nat)
  | lmHead
  deriving DecidableEq

/-- The number of elements of a tensor. -/
def ModelConfig.numel (cfg : ModelConfig) : TensorName → Nat
  | .inputLayernorm _ | .postAttentionLayernorm _ | .norm => cfg.hiddenSize
  | .qNorm _ | .kNorm _ => cfg.headDim
  | .embedTokens | .lmHead => cfg.vocabSize * cfg.hiddenSize
  | .selfAttn .qProj _ => cfg.numAttentionHeads * cfg.headDim * cfg.hiddenSize
  | .selfAttn .kProj _ | .selfAttn .vProj _ => cfg.numKeyValueHeads * cfg.headDim * cfg.hiddenSize
  | .selfAttn .oProj _ => cfg.hiddenSize * (cfg.numAttentionHeads * cfg.headDim)
  | .mlp .gateProj _ | .mlp .upProj _ => cfg.intermediateSize * cfg.hiddenSize
  | .mlp .downProj _ => cfg.hiddenSize * cfg.intermediateSize

/-- What one `f.write` writes of a tensor. -/
inductive Part where
  | fp32 (t : TensorName)
  | values (t : TensorName)
  | scales (t : TensorName)
  deriving DecidableEq

/-- The bytes of a float, and a group of floats as `int8` values with their scale. -/
structure Numerics (F : Type) where
  fp32 : F → List UInt8
  quantize : List F → List UInt8 × F
  fp32_length : ∀ x, (fp32 x).length = 4
  quantize_length : ∀ g, (quantize g).1.length = g.length

/-- The file, and what has been written where. -/
structure Out where
  bytes : List UInt8
  log : List (Part × Nat × List UInt8)

/-- `f.write(bs)` -/
def Out.write (f : Out) (x : Part) (bs : List UInt8) : Out :=
  ⟨f.bytes ++ bs, f.log ++ [(x, f.bytes.length, bs)]⟩

/-- `struct.pack("<i", n)` of a natural number. -/
def packInt (n : Nat) : Option (List UInt8) := if n < 2 ^ 31 then some (leBytes 4 n) else none

/-- The numbers of the header (`export_qwen3.py:82-94`). -/
def ModelConfig.fields (cfg : ModelConfig) : List Nat :=
  [cfg.hiddenSize, cfg.intermediateSize, cfg.numHiddenLayers, cfg.numAttentionHeads,
    cfg.numKeyValueHeads, cfg.vocabSize, cfg.maxPositionEmbeddings, cfg.headDim,
    if cfg.tieWordEmbeddings then 1 else 0, groupSize]

/-- The 256 bytes of the header (`export_qwen3.py:79-96`). -/
def packHeader (cfg : ModelConfig) : Option (List UInt8) := do
  let fields ← cfg.fields.mapM packInt
  let head := leBytes 4 magic ++ leBytes 4 version ++ fields.flatten
  return head ++ List.replicate (256 - head.length) 0

section exporting

variable {F : Type} (num : Numerics F)

/-- `w.reshape(-1, GROUP_SIZE)` -/
def groups (w : List F) : List (List F) :=
  (List.range (w.length / groupSize)).map fun g => (w.drop (groupSize * g)).take groupSize

/-- `quantize_q80` (`export_qwen3.py:52-60`); the maximum of nothing is an exception. -/
def quantizeQ80 (w : List F) : Option (List (List UInt8) × List F) :=
  if w.length % groupSize = 0 ∧ w ≠ [] then some ((groups w).map num.quantize).unzip else none

variable (tensors : TensorName → Option (List F))

/-- `write_fp32` (`export_qwen3.py:63-64`) -/
def writeFp32 (f : Out) (t : TensorName) : Option Out := do
  let w ← tensors t
  return f.write (.fp32 t) (w.flatMap num.fp32)

/-- `write_q80` (`export_qwen3.py:67-71`) -/
def writeQ80 (f : Out) (t : TensorName) : Option Out := do
  let w ← tensors t
  let (q, s) ← quantizeQ80 num w
  return (f.write (.values t) q.flatten).write (.scales t) (s.flatMap num.fp32)

/-- `export_model` (`export_qwen3.py:74-118`) -/
def exportModel (cfg : ModelConfig) : Option Out := do
  let header ← packHeader cfg
  let layers := List.range cfg.numHiddenLayers
  let f : Out := ⟨header, []⟩
  let f ← (layers.map .inputLayernorm).foldlM (writeFp32 num tensors) f
  let f ← (layers.map .postAttentionLayernorm).foldlM (writeFp32 num tensors) f
  let f ← writeFp32 num tensors f .norm
  let f ← (layers.map .qNorm).foldlM (writeFp32 num tensors) f
  let f ← (layers.map .kNorm).foldlM (writeFp32 num tensors) f
  let f ← writeQ80 num tensors f .embedTokens
  let f ← ([AttnPart.qProj, .kProj, .vProj, .oProj].flatMap
    fun part => layers.map (.selfAttn part)).foldlM (writeQ80 num tensors) f
  let f ← ([MlpPart.gateProj, .downProj, .upProj].flatMap
    fun part => layers.map (.mlp part)).foldlM (writeQ80 num tensors) f
  if cfg.tieWordEmbeddings then return f
  writeQ80 num tensors f .lmHead

end exporting

/-! ## What is written -/

/-- The size of what is written of a tensor as floats. -/
def ModelConfig.fp32Plan (cfg : ModelConfig) (t : TensorName) : List (Part × Nat) :=
  [(.fp32 t, 4 * cfg.numel t)]

/-- The sizes of what is written of a quantized tensor. -/
def ModelConfig.q80Plan (cfg : ModelConfig) (t : TensorName) : List (Part × Nat) :=
  [(.values t, cfg.numel t), (.scales t, 4 * (cfg.numel t / groupSize))]

/-- All that is written, in its order. -/
def ModelConfig.plan (cfg : ModelConfig) : List (Part × Nat) :=
  let layers := List.range cfg.numHiddenLayers
  (layers.map .inputLayernorm).flatMap cfg.fp32Plan ++
    (layers.map .postAttentionLayernorm).flatMap cfg.fp32Plan ++ cfg.fp32Plan .norm ++
    (layers.map .qNorm).flatMap cfg.fp32Plan ++ (layers.map .kNorm).flatMap cfg.fp32Plan ++
    cfg.q80Plan .embedTokens ++
    ([AttnPart.qProj, .kProj, .vProj, .oProj].flatMap
      fun part => layers.map (.selfAttn part)).flatMap cfg.q80Plan ++
    ([MlpPart.gateProj, .downProj, .upProj].flatMap
      fun part => layers.map (.mlp part)).flatMap cfg.q80Plan ++
    if cfg.tieWordEmbeddings then [] else cfg.q80Plan .lmHead

/-- The tensors have the shapes of the configuration. -/
def ModelConfig.Shapes {F : Type} (cfg : ModelConfig) (tensors : TensorName → Option (List F)) : Prop :=
  ∀ t w, tensors t = some w → w.length = cfg.numel t

/-- From `f` to `f'` pieces of these sizes are written. -/
def Written (plan : List (Part × Nat)) (f f' : Out) : Prop :=
  ∃ pieces, sizes pieces = plan ∧ f'.bytes = f.bytes ++ content pieces ∧
    f'.log = f.log ++ placed f.bytes.length pieces

theorem written_refl (f : Out) : Written [] f f :=
  ⟨[], rfl, (List.append_nil _).symm, (List.append_nil _).symm⟩

theorem written_write (f : Out) (x : Part) (bs : List UInt8) :
    Written [(x, bs.length)] f (f.write x bs) :=
  ⟨[(x, bs)], rfl, congrArg _ (List.append_nil bs).symm, rfl⟩

theorem Written.trans {xs ys : List (Part × Nat)} {f g h : Out} (hfg : Written xs f g)
    (hgh : Written ys g h) : Written (xs ++ ys) f h := by
  obtain ⟨ps, rfl, hbytes, hlog⟩ := hfg
  obtain ⟨qs, rfl, hbytes', hlog'⟩ := hgh
  refine ⟨ps ++ qs, List.map_append, ?_, ?_⟩
  · rw [hbytes', hbytes, List.append_assoc, content_append]
  · rw [hlog', hlog, hbytes, List.append_assoc, placed_append, List.length_append]

theorem Written.foldlM {step : Out → TensorName → Option Out} {plan : TensorName → List (Part × Nat)}
    (hstep : ∀ f t g, step f t = some g → Written (plan t) f g) {ts : List TensorName} {f g : Out}
    (h : ts.foldlM step f = some g) : Written (ts.flatMap plan) f g := by
  induction ts generalizing f with
  | nil => cases h; exact written_refl _
  | cons t ts ih =>
    rw [List.foldlM_cons] at h
    obtain ⟨u, hu, h⟩ := Option.bind_eq_some_iff.mp h
    rw [List.flatMap_cons]
    exact (hstep f t u hu).trans (ih h)

section lengths

variable {F : Type} {num : Numerics F} {cfg : ModelConfig} {tensors : TensorName → Option (List F)}

theorem flatMap_fp32_length (w : List F) : (w.flatMap num.fp32).length = 4 * w.length := by
  induction w with
  | nil => rfl
  | cons x w ih =>
    rw [List.flatMap_cons, List.length_append, num.fp32_length, ih, List.length_cons]
    omega

theorem length_of_mem_groups {w g : List F} (h : g ∈ groups w) : g.length = groupSize := by
  obtain ⟨i, hi, rfl⟩ := List.mem_map.mp h
  have hlt : i < w.length / groupSize := List.mem_range.mp hi
  have hle : groupSize * (i + 1) ≤ w.length :=
    (Nat.mul_le_mul_left _ hlt).trans (Nat.mul_div_le ..)
  rw [Nat.mul_succ] at hle
  rw [List.length_take, List.length_drop]
  omega

theorem groups_length (w : List F) : (groups w).length = w.length / groupSize := by
  rw [groups, List.length_map, List.length_range]

theorem quantized_length (gs : List (List F)) (h : ∀ g ∈ gs, g.length = groupSize) :
    ((gs.map num.quantize).map Prod.fst).flatten.length = gs.length * groupSize := by
  induction gs with
  | nil => rw [List.length_nil, Nat.zero_mul]; rfl
  | cons g gs ih =>
    rw [List.map_cons, List.map_cons, List.flatten_cons, List.length_append, num.quantize_length,
      h g (List.mem_cons_self ..), ih fun x hx => h x (List.mem_cons_of_mem _ hx), List.length_cons,
      Nat.succ_mul, Nat.add_comm]

theorem written_fp32 (hshape : cfg.Shapes tensors) (f : Out) (t : TensorName) (g : Out)
    (h : writeFp32 num tensors f t = some g) : Written (cfg.fp32Plan t) f g := by
  obtain ⟨w, hw, h⟩ := Option.bind_eq_some_iff.mp h
  cases h
  rw [ModelConfig.fp32Plan, ← hshape t w hw, ← flatMap_fp32_length]
  exact written_write f (.fp32 t) _

theorem written_q80 (hshape : cfg.Shapes tensors) (f : Out) (t : TensorName) (g : Out)
    (h : writeQ80 num tensors f t = some g) : Written (cfg.q80Plan t) f g := by
  obtain ⟨w, hw, h⟩ := Option.bind_eq_some_iff.mp h
  obtain ⟨⟨q, s⟩, hq, h⟩ := Option.bind_eq_some_iff.mp h
  cases h
  rw [quantizeQ80] at hq
  split at hq
  · next hok =>
    rw [List.unzip_eq_map] at hq
    cases hq
    have hvalues : ((((groups w).map num.quantize).map Prod.fst).flatten).length = cfg.numel t := by
      rw [quantized_length _ fun g hg => length_of_mem_groups hg, groups_length, ← hshape t w hw]
      exact Nat.div_mul_cancel (Nat.dvd_of_mod_eq_zero hok.1)
    have hscales : ((((groups w).map num.quantize).map Prod.snd).flatMap num.fp32).length =
        4 * (cfg.numel t / groupSize) := by
      rw [flatMap_fp32_length, List.length_map, List.length_map, groups_length, ← hshape t w hw]
    have hfirst := written_write f (.values t) (((groups w).map num.quantize).map Prod.fst).flatten
    have hsecond := written_write
      (f.write (.values t) (((groups w).map num.quantize).map Prod.fst).flatten) (.scales t)
      ((((groups w).map num.quantize).map Prod.snd).flatMap num.fp32)
    rw [hvalues] at hfirst
    rw [hscales] at hsecond
    exact hfirst.trans hsecond
  · cases hq

/-- Behind the header the file is what the plan says. -/
theorem exportModel_written (hshape : cfg.Shapes tensors) {f : Out}
    (h : exportModel num tensors cfg = some f) :
    ∃ header, packHeader cfg = some header ∧ Written cfg.plan ⟨header, []⟩ f := by
  obtain ⟨header, hheader, h⟩ := Option.bind_eq_some_iff.mp h
  refine ⟨header, hheader, ?_⟩
  obtain ⟨f1, h1, h⟩ := Option.bind_eq_some_iff.mp h
  obtain ⟨f2, h2, h⟩ := Option.bind_eq_some_iff.mp h
  obtain ⟨f3, h3, h⟩ := Option.bind_eq_some_iff.mp h
  obtain ⟨f4, h4, h⟩ := Option.bind_eq_some_iff.mp h
  obtain ⟨f5, h5, h⟩ := Option.bind_eq_some_iff.mp h
  obtain ⟨f6, h6, h⟩ := Option.bind_eq_some_iff.mp h
  obtain ⟨f7, h7, h⟩ := Option.bind_eq_some_iff.mp h
  obtain ⟨f8, h8, h⟩ := Option.bind_eq_some_iff.mp h
  have hfp : ∀ f t g, writeFp32 num tensors f t = some g → Written (cfg.fp32Plan t) f g :=
    written_fp32 hshape
  have hq : ∀ f t g, writeQ80 num tensors f t = some g → Written (cfg.q80Plan t) f g :=
    written_q80 hshape
  have hlast : Written (if cfg.tieWordEmbeddings then [] else cfg.q80Plan .lmHead) f8 f := by
    split at h
    · next htied =>
      cases h
      rw [if_pos htied]
      exact written_refl _
    · next htied =>
      rw [if_neg htied]
      exact hq _ _ _ h
  exact (((((((Written.foldlM hfp h1).trans (Written.foldlM hfp h2)).trans (hfp _ _ _ h3)).trans
    (Written.foldlM hfp h4)).trans (Written.foldlM hfp h5)).trans (hq _ _ _ h6)).trans
    (Written.foldlM hq h7)).trans (Written.foldlM hq h8) |>.trans hlast

end lengths

/-! ## What can be exported -/

section success

variable {F : Type} {num : Numerics F} {cfg : ModelConfig} {tensors : TensorName → Option (List F)}

theorem bind_isSome {α β : Type} {x : Option α} {k : α → Option β} (hx : ∃ a, x = some a)
    (hk : ∀ a, x = some a → ∃ b, k a = some b) : ∃ b, x >>= k = some b := by
  obtain ⟨a, ha⟩ := hx
  obtain ⟨b, hb⟩ := hk a ha
  refine ⟨b, ?_⟩
  rw [ha]
  exact hb

theorem foldlM_isSome {step : Out → TensorName → Option Out} {ts : List TensorName}
    (hstep : ∀ t ∈ ts, ∀ f, ∃ g, step f t = some g) (f : Out) : ∃ g, ts.foldlM step f = some g := by
  induction ts generalizing f with
  | nil => exact ⟨f, rfl⟩
  | cons t ts ih =>
    rw [List.foldlM_cons]
    apply bind_isSome (hstep t (List.mem_cons_self ..) f)
    intro u _
    exact ih (fun x hx => hstep x (List.mem_cons_of_mem _ hx)) u

theorem mapM_packInt_isSome {ns : List Nat} (h : ∀ n ∈ ns, n < 2 ^ 31) :
    ∃ bs, ns.mapM packInt = some bs :=
  ⟨ns.map (leBytes 4), mapM_eq_map fun n hn => if_pos (h n hn)⟩

theorem packHeader_isSome (hfields : ∀ n ∈ cfg.fields, n < 2 ^ 31) :
    ∃ header, packHeader cfg = some header := by
  apply bind_isSome (mapM_packInt_isSome hfields)
  intro bs _
  exact ⟨_, rfl⟩

/-- The tensors are all there, with their shapes. -/
def ModelConfig.Complete (cfg : ModelConfig) (tensors : TensorName → Option (List F)) : Prop :=
  ∀ t, ∃ w, tensors t = some w ∧ w.length = cfg.numel t

theorem ModelConfig.Complete.shapes (h : cfg.Complete tensors) : cfg.Shapes tensors := by
  intro t w hw
  obtain ⟨w', hw', hlen⟩ := h t
  rw [hw'] at hw
  cases hw
  exact hlen

theorem writeFp32_isSome (h : cfg.Complete tensors) (t : TensorName) (f : Out) :
    ∃ g, writeFp32 num tensors f t = some g := by
  obtain ⟨w, hw, -⟩ := h t
  apply bind_isSome ⟨w, hw⟩
  intro w _
  exact ⟨_, rfl⟩

theorem writeQ80_isSome (h : cfg.Complete tensors) {t : TensorName} (hdvd : groupSize ∣ cfg.numel t)
    (hpos : 0 < cfg.numel t) (f : Out) : ∃ g, writeQ80 num tensors f t = some g := by
  obtain ⟨w, hw, -⟩ := h t
  apply bind_isSome ⟨w, hw⟩
  intro w hw
  have hlen := h.shapes t w hw
  have hok : w.length % groupSize = 0 ∧ w ≠ [] := by
    rw [hlen]
    refine ⟨Nat.mod_eq_zero_of_dvd hdvd, fun hnil => ?_⟩
    rw [hnil, List.length_nil] at hlen
    omega
  apply bind_isSome ⟨_, if_pos hok⟩
  intro qs _
  exact ⟨_, rfl⟩

/-- A model with numbers that fit the header, and with rows of whole groups, can be exported. -/
theorem exportModel_isSome (hfields : ∀ n ∈ cfg.fields, n < 2 ^ 31) (htensors : cfg.Complete tensors)
    (hhidden : 0 < cfg.hiddenSize) (hinter : 0 < cfg.intermediateSize) (hvocab : 0 < cfg.vocabSize)
    (hheads : 0 < cfg.numAttentionHeads * cfg.headDim)
    (hkv : 0 < cfg.numKeyValueHeads * cfg.headDim) (hgroups : groupSize ∣ cfg.hiddenSize) :
    ∃ f, exportModel num tensors cfg = some f := by
  have hfp : ∀ (ts : List TensorName) f, ∃ g, ts.foldlM (writeFp32 num tensors) f = some g :=
    fun ts f => foldlM_isSome (fun t _ => writeFp32_isSome htensors t) f
  have hattn : ∀ part i f, ∃ g, writeQ80 num tensors f (.selfAttn part i) = some g := by
    intro part i
    cases part with
    | qProj => exact writeQ80_isSome htensors (hgroups.mul_left _) (Nat.mul_pos hheads hhidden)
    | kProj => exact writeQ80_isSome htensors (hgroups.mul_left _) (Nat.mul_pos hkv hhidden)
    | vProj => exact writeQ80_isSome htensors (hgroups.mul_left _) (Nat.mul_pos hkv hhidden)
    | oProj => exact writeQ80_isSome htensors (hgroups.mul_right _) (Nat.mul_pos hhidden hheads)
  have hmlp : ∀ part i f, ∃ g, writeQ80 num tensors f (.mlp part i) = some g := by
    intro part i
    cases part with
    | gateProj => exact writeQ80_isSome htensors (hgroups.mul_left _) (Nat.mul_pos hinter hhidden)
    | downProj => exact writeQ80_isSome htensors (hgroups.mul_right _) (Nat.mul_pos hhidden hinter)
    | upProj => exact writeQ80_isSome htensors (hgroups.mul_left _) (Nat.mul_pos hinter hhidden)
  have hwhole : ∀ t, cfg.numel t = cfg.vocabSize * cfg.hiddenSize →
      ∀ f, ∃ g, writeQ80 num tensors f t = some g := by
    intro t ht
    apply writeQ80_isSome htensors
    · rw [ht]
      exact hgroups.mul_left _
    · rw [ht]
      exact Nat.mul_pos hvocab hhidden
  apply bind_isSome (packHeader_isSome hfields)
  intro header _
  apply bind_isSome (hfp _ _)
  intro f _
  apply bind_isSome (hfp _ f)
  intro f _
  apply bind_isSome (writeFp32_isSome htensors .norm f)
  intro f _
  apply bind_isSome (hfp _ f)
  intro f _
  apply bind_isSome (hfp _ f)
  intro f _
  apply bind_isSome (hwhole .embedTokens rfl f)
  intro f _
  apply bind_isSome
  · apply foldlM_isSome
    intro t ht
    obtain ⟨part, -, ht⟩ := List.mem_flatMap.mp ht
    obtain ⟨i, -, rfl⟩ := List.mem_map.mp ht
    exact hattn part i
  intro f _
  apply bind_isSome
  · apply foldlM_isSome
    intro t ht
    obtain ⟨part, -, ht⟩ := List.mem_flatMap.mp ht
    obtain ⟨i, -, rfl⟩ := List.mem_map.mp ht
    exact hmlp part i
  intro f _
  split
  · exact ⟨f, rfl⟩
  · exact hwhole .lmHead rfl f

end success

end ChocoOs.Export
