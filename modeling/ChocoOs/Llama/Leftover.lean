import ChocoOs.Llama.Caches

/-!
# Passes that go wrong

A pass never gets stuck once the sizes of the heads are computed. It reads a key that it has not written,
when the keys of a position are an odd number; and it leaves the caches, when their size wraps.
-/

namespace ChocoOs.Llama
open ProgLib Sizes

variable {F : Type} {ops : FloatOps F} {s : Sizes} {w : TransformerWeights} {file : Nat → F}
  {dom : Ptr → Bool} {U : Set Ptr}

/-! ## The kernels -/

theorem leaves_rmsnorm {o x : Ptr} {weight : Nat → F} {size : Nat} (ho : ∀ i < size, o.at i ∉ U) :
    (rmsnorm ops o x weight size).Leaves dom U := by
  refine Cmd.Leaves.bind (.foldUpto fun j hj ss => ?_) fun ss => .forUpto fun j hj => ?_
  · exact (Cmd.Leaves.get _).bind fun v => .done _
  · exact (Cmd.Leaves.get _).bind fun v => .set _ (ho j hj)

theorem leaves_rowValue {x : Ptr} {row : Nat → F} {n : Nat} :
    (rowValue ops x row n).Leaves dom U := by
  refine Cmd.Leaves.bind (.foldUpto fun t ht a => ?_) fun a => .foldUpto fun t ht val => ?_
  · exact (Cmd.Leaves.get _).bind fun _ => (Cmd.Leaves.get _).bind fun _ =>
      (Cmd.Leaves.get _).bind fun _ => (Cmd.Leaves.get _).bind fun _ => .done _
  · exact (Cmd.Leaves.get _).bind fun v => .done _

theorem leaves_matmul {xout x : Ptr} {m : Nat → F} {n d : Nat} (ho : ∀ i < d, xout.at i ∉ U) :
    (matmul ops xout x m n d).Leaves dom U :=
  .forUpto fun i hi => leaves_rowValue.bind fun _ => .set _ (ho i hi)

theorem leaves_llmSoftmax {x : Ptr} {size : Nat} (hx : ∀ i < size, x.at i ∉ U) :
    (llmSoftmax ops x size).Leaves dom U := by
  refine (Cmd.Leaves.get _).bind fun _ => ?_
  refine Cmd.Leaves.bind (.foldUpto fun i hi _ => ?_) fun _ => ?_
  · exact (Cmd.Leaves.get _).bind fun _ => .done _
  refine Cmd.Leaves.bind (.foldUpto fun i hi _ => ?_) fun _ => .forUpto fun i hi => ?_
  · exact (Cmd.Leaves.get _).bind fun _ => (Cmd.Leaves.set _ (hx i hi)).bind fun _ => .done _
  · exact (Cmd.Leaves.get _).bind fun _ => .set _ (hx i hi)

theorem leaves_addTo {x y : Ptr} {n : Nat} (hx : ∀ i < n, x.at i ∉ U) :
    (addTo ops x y n).Leaves dom U := by
  refine .forUpto fun i hi => ?_
  exact (Cmd.Leaves.get _).bind fun _ => (Cmd.Leaves.get _).bind fun _ => .set _ (hx i hi)

theorem leaves_rotate {vec : Ptr} {i : Nat} {fcr fci : F} (h0 : vec.at i ∉ U)
    (h1 : vec.at (i + 1) ∉ U) : (rotate ops vec i fcr fci).Leaves dom U := by
  refine (Cmd.Leaves.get _).bind fun _ => (Cmd.Leaves.get _).bind fun _ => ?_
  exact (Cmd.Leaves.set _ h0).bind fun _ => .set _ h1

/-! ## The layer -/

theorem leaves_project {l : Nat} {pos : Int} (hxb : ∀ i, (Buf.xb, i) ∉ U) (hq : ∀ i, (Buf.q, i) ∉ U)
    (hk : ∀ i < s.kvDim, (cacheAt s.config s.dims .keyCache l pos).at i ∉ U)
    (hv : ∀ i < s.kvDim, (cacheAt s.config s.dims .valueCache l pos).at i ∉ U) :
    (project ops s.config s.dims w file l pos).Leaves dom U := by
  refine (leaves_rmsnorm fun i _ => hxb _).bind fun _ => ?_
  refine (leaves_matmul fun i _ => hq _).bind fun _ => ?_
  exact (leaves_matmul hk).bind fun _ => leaves_matmul hv

theorem remInt_headSize (h : s.Fit) (i : Nat) :
    remInt i s.dims.headSize = some ((i : Int).tmod s.headSize) := by
  have hpos := h.headSize_pos
  have hne : ¬ ((s.headSize : Int) = 0 ∨ ((i : Int) = -2 ^ 31 ∧ (s.headSize : Int) = -1)) := by omega
  show (divInt i s.headSize).map _ = _
  rw [divInt, if_neg hne]
  rfl

theorem leaves_ropePair (h : s.Fit) {l t : Nat} {pos : Int} (hq : ∀ i, (Buf.q, i) ∉ U)
    (hk : 2 * t < s.kvDim → (cacheAt s.config s.dims .keyCache l pos).at (2 * t) ∉ U ∧
      (cacheAt s.config s.dims .keyCache l pos).at (2 * t + 1) ∉ U) :
    (ropePair ops s.config s.dims l pos t).Leaves dom U := by
  refine (Cmd.Leaves.ofOption_some (remInt_headSize h _)).bind fun headDim => ?_
  refine (leaves_rotate (hq _) (hq _)).bind fun _ => ?_
  by_cases hrotn : 2 * t < s.dims.kvDim.toNat
  · rw [if_pos hrotn]
    obtain ⟨h0, h1⟩ := hk hrotn
    exact leaves_rotate h0 h1
  · rw [if_neg hrotn]
    exact .done ()

theorem leaves_cacheHead (h : s.Fit) (b : Buf) (l i : Nat) (pos : Int) :
    (cacheHead s.config s.dims b l pos i : Cmd Ptr F Ptr).Leaves dom U :=
  (Cmd.Leaves.ofOption_some (h.divInt_kvMul i)).bind fun _ => .done _

theorem leaves_attention (h : s.Fit) (l : Nat) (pos : Int) :
    (attention ops s.config s.dims l pos).Leaves dom ∅ := by
  refine .forUpto fun i _ => ?_
  have hscores : (scores ops s.config s.dims l pos i).Leaves dom ∅ := by
    refine .forUpto fun tp _ => (leaves_cacheHead h _ l i tp).bind fun kt => ?_
    refine Cmd.Leaves.bind (.foldUpto fun j _ score => ?_) fun score => .set _ (Set.notMem_empty _)
    exact (Cmd.Leaves.get _).bind fun _ => (Cmd.Leaves.get _).bind fun _ => .done _
  have hmix : (mixValues ops s.config s.dims l pos i).Leaves dom ∅ := by
    refine Cmd.Leaves.bind (.forUpto fun j _ => .set _ (Set.notMem_empty _)) fun _ => .forUpto fun tp _ => ?_
    refine (leaves_cacheHead h _ l i tp).bind fun vt => (Cmd.Leaves.get _).bind fun a => ?_
    refine .forUpto fun j _ => ?_
    exact (Cmd.Leaves.get _).bind fun _ => (Cmd.Leaves.get _).bind fun _ => .set _ (Set.notMem_empty _)
  exact hscores.bind fun _ => (leaves_llmSoftmax fun _ _ => Set.notMem_empty _).bind fun _ => hmix

theorem leaves_feedForward (c : Config) (l : Nat) :
    (feedForward ops c w file l).Leaves dom ∅ := by
  refine (leaves_matmul fun _ _ => Set.notMem_empty _).bind fun _ => (leaves_addTo fun _ _ => Set.notMem_empty _).bind fun _ => ?_
  refine (leaves_rmsnorm fun _ _ => Set.notMem_empty _).bind fun _ => (leaves_matmul fun _ _ => Set.notMem_empty _).bind fun _ => ?_
  refine (leaves_matmul fun _ _ => Set.notMem_empty _).bind fun _ => Cmd.Leaves.bind (.forUpto fun i _ => ?_) fun _ => ?_
  · exact (Cmd.Leaves.get _).bind fun _ => (Cmd.Leaves.get _).bind fun _ => .set _ (Set.notMem_empty _)
  · exact (leaves_matmul fun _ _ => Set.notMem_empty _).bind fun _ => leaves_addTo fun _ _ => Set.notMem_empty _

/-- A layer does not get stuck. -/
theorem leaves_layer (h : s.Fit) (l : Nat) (pos : Int) :
    (layer ops s.config s.dims w file pos l).Leaves dom ∅ := by
  have hno : ∀ c : Ptr, c ∉ (∅ : Set Ptr) := Set.notMem_empty
  refine (leaves_project (fun _ => hno _) (fun _ => hno _) (fun _ _ => hno _) fun _ _ => hno _).bind fun _ => ?_
  refine Cmd.Leaves.bind (.forUpto fun t _ => leaves_ropePair h (fun _ => hno _) fun _ => ⟨hno _, hno _⟩) fun _ => ?_
  exact (leaves_attention h l pos).bind fun _ => leaves_feedForward _ l

/-- The pass does not get stuck if `kv_dim` is an `int`. -/
theorem leaves_forward (h : s.Fit) (hkv : s.dim * s.kvHeads < 2 ^ 31) (token pos : Int) :
    (forward ops s.config w file token pos).Leaves dom ∅ := by
  have hdims : s.config.dims = some s.dims := by rw [h.dims_eq, if_pos hkv]
  unfold forward
  rw [hdims]
  show Cmd.Leaves _ _ (Cmd.bind (Cmd.forUpto _ _) _)
  refine Cmd.Leaves.bind (.forUpto fun i _ => .set _ (Set.notMem_empty _)) fun _ => ?_
  refine Cmd.Leaves.bind (.forUpto fun l _ => leaves_layer h l pos) fun _ => ?_
  exact (leaves_rmsnorm fun _ _ => Set.notMem_empty _).bind fun _ => leaves_matmul fun _ _ => Set.notMem_empty _

/-! ## Where the first pass goes wrong -/

/-- A layer that faults makes the pass fault, if the layers before it go on. -/
theorem faults_forward (h : s.Fit) (hkv : s.dim * s.kvHeads < 2 ^ 31) {l : Nat} (hl : l < s.nLayers)
    (hx : ∀ i, (Buf.x, i) ∉ U) (token : Int)
    (hbefore : ∀ k < l, (layer ops s.config s.dims w file 0 k).Leaves dom U)
    (hfault : (layer ops s.config s.dims w file 0 l).Faults dom U) :
    (forward ops s.config w file token 0).Faults dom U := by
  have hdims : s.config.dims = some s.dims := by rw [h.dims_eq, if_pos hkv]
  have hlayers : u64 s.config.nLayers = s.nLayers := u64_int h.nLayers_lt
  unfold forward
  rw [hdims, hlayers]
  show Cmd.Faults _ _ (Cmd.bind (Cmd.forUpto _ _) _)
  refine Cmd.Leaves.bind_faults (.forUpto fun i _ => .set _ (hx i)) fun _ => ?_
  exact (Cmd.Faults.forUpto hl hbefore hfault).bind _

theorem cacheAt_first (b : Buf) : cacheAt s.config s.dims b 0 (0 : Nat) = (b, 0) := by
  show (b, mul64 (mul64 0 (u64 s.seqLen)) (u64 s.kvDim) + mul64 (u64 (0 : Nat)) (u64 s.kvDim)) = _
  have hzero : u64 ((0 : Nat) : Int) = 0 := u64_int (by decide)
  simp only [mul64, hzero, Nat.zero_mul, Nat.zero_mod]

/-- The keys behind those of the first position. -/
def keysBehind (s : Sizes) : Set Ptr := {c | c.1 = .keyCache ∧ s.kvDim ≤ c.2}

/-- With an odd number of keys the last of them is rotated with the one behind it. -/
theorem faults_of_odd (h : s.Fit) (hkv : s.dim * s.kvHeads < 2 ^ 31) (hodd : ¬ 2 ∣ s.kvDim)
    (token : Int) : (forward ops s.config w file token 0).Faults dom (keysBehind s) := by
  have hle := h.kvDim_le
  have hother : ∀ {b : Buf} {i : Nat}, b ≠ .keyCache → (b, i) ∉ keysBehind s := fun hb hc => hb hc.1
  have hfirst : ∀ b, cacheAt s.config s.dims b 0 0 = (b, 0) := cacheAt_first
  refine faults_forward h hkv h.nLayers_pos (fun i => hother (by decide)) token
    (fun k hk => absurd hk (Nat.not_lt_zero k)) ?_
  refine (leaves_project (fun i => hother (by decide)) (fun i => hother (by decide)) ?_ ?_).bind_faults fun _ => ?_
  · intro i hi hc
    rw [hfirst, Ptr.at_zero] at hc
    exact absurd hc.2 (Nat.not_le.mpr hi)
  · intro i _
    rw [hfirst, Ptr.at_zero]
    exact hother (by decide)
  refine Cmd.Faults.bind ?_ _
  have hlast : s.kvDim / 2 < (s.config.dim.toNat + 1) / 2 := by
    show s.kvDim / 2 < (s.dim + 1) / 2
    omega
  refine Cmd.Faults.forUpto hlast (fun t ht => leaves_ropePair h (fun i => hother (by decide)) ?_) ?_
  · -- the pairs before the last key
    intro _
    rw [hfirst, Ptr.at_zero, Ptr.at_zero]
    constructor
    · exact fun hc => absurd hc.2 (by show ¬ s.kvDim ≤ 2 * t; omega)
    · exact fun hc => absurd hc.2 (by show ¬ s.kvDim ≤ 2 * t + 1; omega)
  · refine (Cmd.Leaves.ofOption_some (remInt_headSize h _)).bind_faults fun headDim => ?_
    refine (leaves_rotate (hother (by decide)) (hother (by decide))).bind_faults fun _ => ?_
    have hrotn : 2 * (s.kvDim / 2) < s.dims.kvDim.toNat := by
      show 2 * (s.kvDim / 2) < s.kvDim
      omega
    rw [if_pos hrotn, hfirst]
    refine (Cmd.Leaves.get _).bind_faults fun _ => (Cmd.Faults.get ?_).bind _
    rw [Ptr.at_zero]
    exact ⟨rfl, by show s.kvDim ≤ 2 * (s.kvDim / 2) + 1; omega⟩

/-- If the size of the caches wraps, then there is a layer behind their ends. -/
theorem exists_layer_behind (h : s.Fit) (hwrap : addrSpace ≤ s.cache)
    (hsmall : s.cache % addrSpace + s.seqLen * s.kvDim ≤ addrSpace) :
    ∃ l < s.nLayers, s.cache % addrSpace ≤ l * s.seqLen * s.kvDim ∧
      l * s.seqLen * s.kvDim < addrSpace := by
  have hpos : 0 < s.seqLen * s.kvDim := Nat.mul_pos h.seqLen_pos h.kvDim_pos
  have haddr := addrSpace_pos
  refine ⟨(addrSpace - 1) / (s.seqLen * s.kvDim), ?_, ?_⟩
  · rw [Nat.div_lt_iff_lt_mul hpos, ← Nat.mul_assoc]
    show addrSpace - 1 < s.cache
    omega
  rw [Nat.mul_assoc]
  have hdiv := Nat.div_add_mod (addrSpace - 1) (s.seqLen * s.kvDim)
  have hmod := Nat.mod_lt (addrSpace - 1) hpos
  rw [Nat.mul_comm] at hdiv
  constructor <;> omega

/-- The first pass writes there. -/
theorem faults_of_wrap (h : s.Fit) (hkv : s.dim * s.kvHeads < 2 ^ 31) (hwrap : addrSpace ≤ s.cache)
    (hsmall : s.cache % addrSpace + s.seqLen * s.kvDim ≤ addrSpace) (token : Int) :
    (forward ops s.config w file token 0).Faults (inBuf s.config.bufLen) ∅ := by
  obtain ⟨l, hl, hbehind, hlt⟩ := exists_layer_behind h hwrap hsmall
  refine faults_forward h hkv hl (fun _ => Set.notMem_empty _) token (fun k _ => leaves_layer h k 0) ?_
  refine Cmd.Faults.bind ?_ _
  refine (leaves_rmsnorm fun _ _ => Set.notMem_empty _).bind_faults fun _ => ?_
  refine (leaves_matmul fun _ _ => Set.notMem_empty _).bind_faults fun _ => ?_
  refine Cmd.Faults.bind ?_ _
  refine Cmd.Faults.forUpto h.kvDim_pos (fun k hk => absurd hk (Nat.not_lt_zero k))
    (leaves_rowValue.bind_faults fun val => .set _ ?_)
  have hplace := h.cacheAt_eq .keyCache hlt h.seqLen_pos
  rw [Nat.zero_mul, Nat.add_zero] at hplace
  show inBuf s.config.bufLen ((cacheAt s.config s.dims .keyCache l (0 : Nat)).at 0) = false
  rw [hplace]
  apply decide_eq_false
  show ¬ l * s.seqLen * s.kvDim + 0 < s.config.bufLen .keyCache
  rw [h.bufLen_cache (.inl rfl)]
  omega

end ChocoOs.Llama
