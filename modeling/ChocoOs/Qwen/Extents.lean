import ChocoOs.Qwen.Weights
import Mathlib.Algebra.Order.Group.Int

/-!
# The extents of the tensors

Where the tensors of a checkpoint end. The header gives their sizes, and they may be any numbers; the
tensors lie in the file exactly if none of them is negative and together they are not too large.
-/

namespace ChocoOs.Qwen
open ProgLib

/-- The values and the scales of a tensor of `size` values. -/
def QuantizedTensor.extents (x : QuantizedTensor) (size gs : Int) : List (Nat × Int) :=
  [(x.q, size), (x.s, 4 * (size / gs))]

/-- All pointers of the weights, each with the number of its bytes. -/
def TransformerWeights.extents (w : TransformerWeights) (c : Config) : List (Nat × Int) :=
  let gs := c.groupSize
  [(w.rmsAttWeight, 4 * (c.nLayers * c.dim)), (w.rmsFfnWeight, 4 * (c.nLayers * c.dim)),
    (w.rmsFinalWeight, 4 * c.dim), (w.qNormWeight, 4 * (c.nLayers * c.headDim)),
    (w.kNormWeight, 4 * (c.nLayers * c.headDim))] ++
  (w.qTokens.extents (c.vocabSize * c.dim) gs ++
  ((w.wq.flatMap fun x => x.extents (c.dim * (c.nHeads * c.headDim)) gs) ++
  ((w.wk.flatMap fun x => x.extents (c.dim * (c.nKvHeads * c.headDim)) gs) ++
  ((w.wv.flatMap fun x => x.extents (c.dim * (c.nKvHeads * c.headDim)) gs) ++
  ((w.wo.flatMap fun x => x.extents (c.nHeads * c.headDim * c.dim) gs) ++
  ((w.w1.flatMap fun x => x.extents (c.dim * c.hiddenDim) gs) ++
  ((w.w2.flatMap fun x => x.extents (c.hiddenDim * c.dim) gs) ++
  ((w.w3.flatMap fun x => x.extents (c.dim * c.hiddenDim) gs) ++
  w.wcls.extents (c.dim * c.vocabSize) gs))))))))

/-- The bytes of a quantized tensor. -/
def quantizedSizes (size gs : Int) : List Int := [size, 4 * (size / gs)]

/-- The bytes of the tensors of all layers. -/
def Config.layerSizes (c : Config) (size : Int) : List Int :=
  (List.replicate c.nLayers.toNat (quantizedSizes size c.groupSize)).flatten

/-- The bytes of all tensors, as they lie in the file. The classifier is the last one, if there is
    one. -/
def Config.sizes (c : Config) : List Int :=
  [4 * (c.nLayers * c.dim), 4 * (c.nLayers * c.dim), 4 * c.dim, 4 * (c.nLayers * c.headDim),
    4 * (c.nLayers * c.headDim)] ++
  (quantizedSizes (c.vocabSize * c.dim) c.groupSize ++
  (c.layerSizes (c.dim * (c.nHeads * c.headDim)) ++
  (c.layerSizes (c.dim * (c.nKvHeads * c.headDim)) ++
  (c.layerSizes (c.dim * (c.nKvHeads * c.headDim)) ++
  (c.layerSizes (c.nHeads * c.headDim * c.dim) ++
  (c.layerSizes (c.dim * c.hiddenDim) ++
  (c.layerSizes (c.hiddenDim * c.dim) ++
  (c.layerSizes (c.dim * c.hiddenDim) ++
  if c.sharedClassifier = 0 then quantizedSizes (c.dim * c.vocabSize) c.groupSize else []))))))))

/-- The sizes that the header gives are no negative numbers, and there is room for them in the file
    behind the 256 bytes of the header. -/
def Config.Fits (c : Config) (size : Nat) : Prop :=
  (∀ z ∈ c.sizes, 0 ≤ z) ∧ 256 + c.sizes.sum ≤ size

instance (c : Config) (size : Nat) : Decidable (c.Fits size) := by
  unfold Config.Fits
  infer_instance

theorem floatStep_u64 (p : Nat) (z : Int) : floatStep p (u64 z) = u64 (p + 4 * z) := by
  have hfour : mul64 (u64 z) 4 = u64 (z * 4) := by
    rw [← mul64_u64, u64_of_lt (z := 4) (by decide) (by rw [addrSpace_eq]; decide)]
    rfl
  rw [floatStep, hfour, add64_u64, Int.mul_comm]

section tensors

variable {gs : Int}

/-- One tensor, with the size that the code takes it to have. -/
theorem mapTensor_spans (hgs : 0 < gs ∧ gs < addrSpace) {z : Int} (hz : 0 ≤ z ∧ z < addrSpace)
    (p : Nat) : Spans p (mapTensor gs (u64 z) p).2 ((mapTensor gs (u64 z) p).1.extents z gs)
      (quantizedSizes z gs) := by
  have hdiv : (((u64 z / u64 gs : Nat) : Int)) = z / gs := by
    rw [u64_of_lt hz.1 hz.2, u64_of_lt (Int.le_of_lt hgs.1) hgs.2, Int.natCast_ediv,
      Int.toNat_of_nonneg hz.1, Int.toNat_of_nonneg (Int.le_of_lt hgs.1)]
  have hlt : u64 z / u64 gs < addrSpace := Nat.lt_of_le_of_lt (Nat.div_le_self _ _) (u64_lt z)
  have hstop : (mapTensor gs (u64 z) p).2 = u64 (u64 (p + z) + 4 * (z / gs)) := by
    rw [mapTensor, add64_u64, ← hdiv, ← floatStep_u64, u64_of_natCast_lt hlt]
  rw [hstop]
  refine ⟨?_, ?_⟩
  · rw [QuantizedTensor.extents, mapTensor, add64_u64]
    rfl
  · rw [rangesEnd, u64_add_u64, quantizedSizes, List.sum_cons, List.sum_singleton, Int.add_assoc]

/-- The tensors of `n` layers. -/
theorem mapTensors_spans (hgs : 0 < gs ∧ gs < addrSpace) {z : Int} (n : Nat)
    (hz : 0 < n → 0 ≤ z ∧ z < addrSpace) {p : Nat} (hp : p < addrSpace) :
    Spans p (mapTensors gs (u64 z) n p).2
      ((mapTensors gs (u64 z) n p).1.flatMap fun x => x.extents z gs)
      (List.replicate n (quantizedSizes z gs)).flatten := by
  induction n generalizing p with
  | zero =>
    refine ⟨rfl, ?_⟩
    rw [List.replicate_zero, List.flatten_nil, rangesEnd, List.sum_nil, Int.add_zero]
    exact (u64_of_natCast_lt hp).symm
  | succ n ih =>
    have hfirst := mapTensor_spans hgs (hz (Nat.succ_pos n)) p
    rw [List.replicate_succ, List.flatten_cons]
    exact hfirst.append hp (ih (fun _ => hz (Nat.succ_pos n)) hfirst.lt)

theorem mapTensors_snd (sizeEach n p : Nat) (z : Int) :
    ((mapTensors gs sizeEach n p).1.flatMap fun x => x.extents z gs).map Prod.snd =
      (List.replicate n (quantizedSizes z gs)).flatten := by
  induction n generalizing p with
  | zero => rfl
  | succ n ih =>
    rw [List.replicate_succ, List.flatten_cons, ← ih (mapTensor gs sizeEach p).2]
    rfl

/-- A tensor of floats. -/
theorem floats_spans (p : Nat) (z : Int) :
    ∃ q, floatStep p (u64 z) = q ∧ Spans p q [(p, 4 * z)] [4 * z] :=
  ⟨_, floatStep_u64 p z, spans_one p (4 * z)⟩

end tensors

/-! ## All tensors -/

/-- The bounds of all sizes hold for the tensors of a layer, if there is one. -/
theorem Config.layer_bounds {c : Config} (hsizes : ∀ z ∈ c.sizes, 0 ≤ z ∧ z < addrSpace) {z : Int}
    (hsub : c.layerSizes z ⊆ c.sizes) (hpos : 0 < c.nLayers.toNat) : 0 ≤ z ∧ z < addrSpace := by
  apply hsizes
  apply hsub
  obtain ⟨n, hn⟩ := Nat.exists_eq_succ_of_ne_zero (Nat.ne_of_gt hpos)
  rw [Config.layerSizes, hn, List.replicate_succ]
  exact List.mem_cons_self ..

/-- The tensors of all layers, and the pointer behind them. -/
theorem Config.layers_spans {c : Config} (hgs : 0 < c.groupSize ∧ c.groupSize < addrSpace)
    (hsizes : ∀ z ∈ c.sizes, 0 ≤ z ∧ z < addrSpace) {z : Int} (hsub : c.layerSizes z ⊆ c.sizes)
    {p : Nat} (hp : p < addrSpace) :
    ∃ ts q, mapTensors c.groupSize (u64 z) c.nLayers.toNat p = (ts, q) ∧
      Spans p q (ts.flatMap fun x => x.extents z c.groupSize) (c.layerSizes z) :=
  ⟨_, _, rfl, mapTensors_spans hgs c.nLayers.toNat (c.layer_bounds hsizes hsub) hp⟩

/-- Each size is that of a tensor. -/
theorem exists_extent {c : Config} (base : Nat) {z : Int} (hz : z ∈ c.sizes) :
    ∃ x ∈ (mapWeights c base).extents c, x.2 = z := by
  have hmem : z ∈ ((mapWeights c base).extents c).map Prod.snd := by
    have hcls : ∀ x : QuantizedTensor,
        (x.extents (c.dim * c.vocabSize) c.groupSize).map Prod.snd =
          quantizedSizes (c.dim * c.vocabSize) c.groupSize := fun _ => rfl
    simp only [mapWeights, TransformerWeights.extents, List.map_append, mapTensors_snd, hcls]
    simp only [Config.sizes, Config.layerSizes, ← List.append_assoc] at hz ⊢
    refine (List.mem_append.mp hz).elim (List.mem_append_left _) fun hz => ?_
    split at hz
    · exact List.mem_append_right _ hz
    · cases hz
  exact List.mem_map.mp hmem

/-- The pointers of the weights walk over the file. -/
theorem mapWeights_spans {c : Config} (hgs : 0 < c.groupSize ∧ c.groupSize < addrSpace)
    (hsizes : ∀ z ∈ c.sizes, 0 ≤ z ∧ z < addrSpace) (base : Nat) :
    ∃ q xs, Spans (add64 base 256) q xs c.sizes ∧
      ∀ x, x ∈ (mapWeights c base).extents c ↔ x ∈ xs := by
  have htokens := hsizes (c.vocabSize * c.dim) (by simp [Config.sizes, quantizedSizes])
  simp only [mapWeights, TransformerWeights.extents, mul64_u64]
  have hp : add64 base 256 < addrSpace := add64_lt ..
  generalize add64 base 256 = p at hp ⊢
  -- tensor by tensor, as the pointer goes
  obtain ⟨p1, hnext, h1⟩ := floats_spans p (c.nLayers * c.dim)
  rw [hnext]
  obtain ⟨p2, hnext, h2⟩ := floats_spans p1 (c.nLayers * c.dim)
  rw [hnext]
  obtain ⟨p3, hnext, h3⟩ := floats_spans p2 c.dim
  rw [hnext]
  obtain ⟨p4, hnext, h4⟩ := floats_spans p3 (c.nLayers * c.headDim)
  rw [hnext]
  obtain ⟨p5, hnext, h5⟩ := floats_spans p4 (c.nLayers * c.headDim)
  rw [hnext]
  have h6 := mapTensor_spans hgs htokens p5
  generalize mapTensor c.groupSize (u64 (c.vocabSize * c.dim)) p5 = tokens at h6 ⊢
  obtain ⟨wq, p7, hnext, h7⟩ := c.layers_spans hgs hsizes (z := c.dim * (c.nHeads * c.headDim))
    (fun a ha => by simp [Config.sizes, ha]) h6.lt
  rw [hnext]
  obtain ⟨wk, p8, hnext, h8⟩ := c.layers_spans hgs hsizes (z := c.dim * (c.nKvHeads * c.headDim))
    (fun a ha => by simp [Config.sizes, ha]) h7.lt
  rw [hnext]
  obtain ⟨wv, p9, hnext, h9⟩ := c.layers_spans hgs hsizes (z := c.dim * (c.nKvHeads * c.headDim))
    (fun a ha => by simp [Config.sizes, ha]) h8.lt
  rw [hnext]
  obtain ⟨wo, p10, hnext, h10⟩ := c.layers_spans hgs hsizes (z := c.nHeads * c.headDim * c.dim)
    (fun a ha => by simp [Config.sizes, ha]) h9.lt
  rw [hnext]
  obtain ⟨w1, p11, hnext, h11⟩ := c.layers_spans hgs hsizes (z := c.dim * c.hiddenDim)
    (fun a ha => by simp [Config.sizes, ha]) h10.lt
  rw [hnext]
  obtain ⟨w2, p12, hnext, h12⟩ := c.layers_spans hgs hsizes (z := c.hiddenDim * c.dim)
    (fun a ha => by simp [Config.sizes, ha]) h11.lt
  rw [hnext]
  obtain ⟨w3, p13, hnext, h13⟩ := c.layers_spans hgs hsizes (z := c.dim * c.hiddenDim)
    (fun a ha => by simp [Config.sizes, ha]) h12.lt
  rw [hnext]
  have hfloats : Spans p p5 [(p, 4 * (c.nLayers * c.dim)), (p1, 4 * (c.nLayers * c.dim)),
      (p2, 4 * c.dim), (p3, 4 * (c.nLayers * c.headDim)), (p4, 4 * (c.nLayers * c.headDim))]
      [4 * (c.nLayers * c.dim), 4 * (c.nLayers * c.dim), 4 * c.dim, 4 * (c.nLayers * c.headDim),
        4 * (c.nLayers * c.headDim)] :=
    h1.append hp (h2.append h1.lt (h3.append h2.lt (h4.append h3.lt h5)))
  have hlayers := fun {q : Nat} {ys : List (Nat × Int)} {ws : List Int} (h : Spans p13 q ys ws) =>
    hfloats.append hp (h6.append h5.lt (h7.append h6.lt (h8.append h7.lt (h9.append h8.lt
      (h10.append h9.lt (h11.append h10.lt (h12.append h11.lt (h13.append h12.lt h))))))))
  by_cases hshared : c.sharedClassifier = 0
  · have hcls := hsizes (c.dim * c.vocabSize) (by simp [Config.sizes, quantizedSizes, hshared])
    have hsum := hlayers (mapTensor_spans hgs hcls p13)
    rw [Config.sizes, if_pos hshared, if_pos hshared]
    exact ⟨_, _, hsum, fun x => Iff.rfl⟩
  · -- the classifier is the table of tokens
    have hnil : Spans p13 p13 [] [] :=
      ⟨rfl, by rw [rangesEnd, List.sum_nil, Int.add_zero, u64_of_natCast_lt h13.lt]⟩
    rw [Config.sizes, if_neg hshared, if_neg hshared, Int.mul_comm c.dim c.vocabSize]
    refine ⟨_, _, hlayers hnil, fun x => ?_⟩
    simp only [← List.append_assoc, List.append_nil]
    rw [List.mem_append, or_iff_left_iff_imp]
    intro hx
    iterate 7 apply List.mem_append_left
    exact List.mem_append_right _ hx

/-- With a group size that is positive, the tensors lie in the file exactly if they fit. -/
theorem mapWeights_inside_iff {c : Config} (hgs : 0 < c.groupSize ∧ c.groupSize < addrSpace)
    (m : Mapped) : (∀ x ∈ (mapWeights c m.address).extents c, m.Inside x.1 x.2) ↔ c.Fits m.size := by
  have hfits := m.fits
  have hbase : add64 m.address 256 = u64 (m.address + (256 : Nat)) := by
    rw [← add64_u64, u64_of_natCast_lt (by rw [addrSpace_eq]; decide)]
  have hne : c.sizes ≠ [] := List.cons_ne_nil _ _
  have hoff : 256 < addrSpace := by
    rw [addrSpace_eq]
    decide
  have hiff : (∀ z ∈ c.sizes, 0 ≤ z ∧ z < addrSpace) →
      ((∀ x ∈ (mapWeights c m.address).extents c, m.Inside x.1 x.2) ↔ c.Fits m.size) := by
    intro hsizes
    obtain ⟨q, xs, hspans, hmem⟩ := mapWeights_spans hgs hsizes m.address
    have hall : (∀ x ∈ (mapWeights c m.address).extents c, m.Inside x.1 x.2) ↔
        ∀ x ∈ xs, m.Inside x.1 x.2 := forall_congr' fun x => by rw [hmem x]
    rw [hall, hspans.ranges, hbase]
    exact Mapped.ranges_inside_iff hoff hne
  constructor
  · intro hin
    refine (hiff fun z hz => ?_).mp hin
    obtain ⟨x, hx, rfl⟩ := exists_extent m.address hz
    obtain ⟨h0, -, hle⟩ := hin x hx
    exact ⟨h0, by omega⟩
  · intro hfit
    refine (hiff fun z hz => ⟨hfit.1 z hz, ?_⟩).mpr hfit
    have hle := List.single_le_sum hfit.1 z hz
    have := hfit.2
    omega

end ChocoOs.Qwen
