import ChocoOs.Llama.Transformer

/-!
# The pass computes the transformer

A pass finds the keys and values of the earlier positions in the caches, and extends them by its own. If
the tokens of a text are passed one after another, whatever the run state holds before, then the logits
of each pass are those of the transformer for the tokens up to its position.
-/

namespace ChocoOs.Llama
open ProgLib Sizes

variable {F : Type} {ops : FloatOps F} {s : Sizes} {w : TransformerWeights} {file : Nat → F}
  {m t : Ptr → Option F}

/-! ## Places -/

/-- The row of a position in the cache of a layer. -/
def Sizes.row (s : Sizes) (b : Buf) (l p : Nat) : Ptr := (b, l * s.seqLen * s.kvDim + p * s.kvDim)

/-- Two numbers with the same quotient and remainder. -/
theorem mul_add_inj {n a b i j : Nat} (hi : i < n) (hj : j < n) (h : a * n + i = b * n + j) :
    a = b ∧ i = j := by
  have hpos : 0 < n := Nat.lt_of_le_of_lt (Nat.zero_le i) hi
  have hdiv := congrArg (· / n) h
  have hmod := congrArg (· % n) h
  simp only [Nat.add_comm _ i, Nat.add_comm _ j, Nat.add_mul_div_right _ _ hpos,
    Nat.add_mul_mod_self_right, Nat.div_eq_of_lt hi, Nat.div_eq_of_lt hj, Nat.mod_eq_of_lt hi,
    Nat.mod_eq_of_lt hj, Nat.zero_add] at hdiv hmod
  exact ⟨hdiv, hmod⟩

/-- Rows of different layers or positions have no cell in common. -/
theorem Sizes.row_ne {b : Buf} {l k p t i j : Nat} (hp : p < s.seqLen) (ht : t < s.seqLen)
    (hi : i < s.kvDim) (hj : j < s.kvDim) (hne : k ≠ l ∨ t ≠ p) :
    (s.row b k t).at j ≠ (s.row b l p).at i := by
  intro h
  have hsnd : k * s.seqLen * s.kvDim + t * s.kvDim + j = l * s.seqLen * s.kvDim + p * s.kvDim + i :=
    congrArg Prod.snd h
  rw [← Nat.add_mul, ← Nat.add_mul] at hsnd
  obtain ⟨hrow, -⟩ := mul_add_inj hj hi hsnd
  obtain ⟨hl, ht⟩ := mul_add_inj ht hp hrow
  exact hne.elim (fun h => h hl) fun h => h ht

/-- A part of a vector that begins at the first cell of a buffer. -/
theorem Ptr.Holds.part {b : Buf} {n o i : Nat} {v : Nat → F} (h : Ptr.Holds m (b, 0) n v)
    (hi : o + i < n) : m (Ptr.at (b, o) i) = some (v (o + i)) := by
  rw [← h (o + i) hi, Ptr.at_zero]
  rfl

theorem Ptr.Holds.of_frame {p : Ptr} {n : Nat} {v : Nat → F} (h : p.Holds m n v)
    (hs : ∀ i < n, t (p.at i) = m (p.at i)) : p.Holds t n v :=
  fun i hi => (hs i hi).trans (h i hi)

/-- The row of a head in the cache. -/
theorem Sizes.Roomy.cacheHead_eq (h : s.Roomy) (b : Buf) {l p i : Nat} (hl : l < s.nLayers)
    (hp : p < s.seqLen) (hi : i < s.nHeads) :
    (cacheHead s.config s.dims b l p i : Cmd Ptr F Ptr) =
      .done ((s.row b l p).at (i / s.kvMul * s.headSize)) := by
  have hlt := (layer_lt h.toFit h.cache_lt hl).2
  have hgn : i / s.kvMul < s.nHeads := Nat.lt_of_le_of_lt (Nat.div_le_self _ _) hi
  have hword : mul64 (u64 ((i / s.kvMul : Nat) : Int)) (u64 s.dims.headSize) =
      i / s.kvMul * s.headSize := by
    rw [u64_int (Nat.lt_trans hgn (Nat.lt_of_le_of_lt h.nHeads_le h.dim_lt))]
    exact h.queryAt_eq hgn
  unfold cacheHead
  rw [h.divInt_kvMul, ← hword]
  show Cmd.done ((cacheAt s.config s.dims b l p).at _) = _
  rw [h.cacheAt_eq b hlt hp]
  rfl

/-! ## The query, the key and the value -/

/-- What `project` and `rope` change. -/
def ProjectFrame (s : Sizes) (l p : Nat) (m t : Ptr → Option F) : Prop :=
  ∀ c : Ptr, c.1 ≠ .xb → c.1 ≠ .q → (∀ j < s.kvDim, c ≠ (s.row .keyCache l p).at j) →
    (∀ j < s.kvDim, c ≠ (s.row .valueCache l p).at j) → t c = m c

theorem ends_project (h : s.Roomy) {l p : Nat} (hl : l < s.nLayers) (hp : p < s.seqLen)
    {x : Nat → F} (hx : Ptr.Holds m (.x, 0) s.dim x) :
    (project ops s.config s.dims w file l p).Ends (inBuf s.config.bufLen) m fun _ t =>
      let L := layerWeights s w file l
      let n := normed ops L.rmsAtt x s.dim
      Ptr.Holds t (.q, 0) s.dim (matVec ops L.wq n s.dim) ∧
        (s.row .keyCache l p).Holds t s.kvDim (matVec ops L.wk n s.dim) ∧
        (s.row .valueCache l p).Holds t s.kvDim (matVec ops L.wv n s.dim) ∧
        ProjectFrame s l p m t := by
  have hfx := h.fits_dim (b := .x) (by simp)
  have hfb := h.fits_dim (b := .xb) (by simp)
  have hfq := h.fits_dim (b := .q) (by simp)
  have hfk := h.fits_row (.inl rfl) hl hp
  have hfv := h.fits_row (.inr rfl) hl hp
  have hlt := (layer_lt h.toFit h.cache_lt hl).2
  unfold project
  rw [h.cacheAt_eq _ hlt hp, h.cacheAt_eq _ hlt hp]
  refine (ends_rmsnorm hfb hfx hx fun i j _ => Ptr.at_ne (by decide) _ _).bind ?_
  intro _ t₁ h₁
  refine (ends_matmul hfq hfb h₁.value (by decide)).bind ?_
  intro _ t₂ h₂
  have hxb₂ : Ptr.Holds t₂ (.xb, 0) s.dim _ := Ptr.Holds.keep h₁.value h₂ (by decide)
  refine (ends_matmul hfk hfb hxb₂ (show Buf.xb ≠ .keyCache by decide)).bind ?_
  intro _ t₃ h₃
  have hxb₃ := hxb₂.keep h₃ (show Buf.xb ≠ .keyCache by decide)
  have hq₃ : Ptr.Holds t₃ (.q, 0) s.dim _ :=
    Ptr.Holds.keep h₂.value h₃ (show Buf.q ≠ .keyCache by decide)
  refine (ends_matmul hfv hfb hxb₃ (show Buf.xb ≠ .valueCache by decide)).mono ?_
  intro _ t₄ h₄
  have hk₄ : (s.row .keyCache l p).Holds t₄ s.kvDim _ :=
    Ptr.Holds.keep h₃.value h₄ (show Buf.keyCache ≠ .valueCache by decide)
  refine ⟨hq₃.keep h₄ (show Buf.q ≠ .valueCache by decide), hk₄, h₄.value, ?_⟩
  · intro c hxb hq hk hv
    rw [h₄.frame c hv, h₃.frame c hk, h₂.frame c fun i _ he => hq (congrArg Prod.fst he),
      h₁.frame c fun i _ he => hxb (congrArg Prod.fst he)]

/-! ## The rotations -/

/-- A vector of which the first `i` pairs are replaced. -/
def firstPairs (v' v : Nat → F) (i : Nat) : Nat → F := fun j => if j < 2 * i then v' j else v j

theorem firstPairs_of_lt {v' v : Nat → F} {i j : Nat} (h : j < 2 * i) : firstPairs v' v i j = v' j :=
  if_pos h

theorem firstPairs_of_le {v' v : Nat → F} {i j : Nat} (h : 2 * i ≤ j) : firstPairs v' v i j = v j :=
  if_neg (Nat.not_lt.mpr h)

/-- The next pair is replaced. -/
theorem Ptr.Holds.pair {p : Ptr} {n i : Nat} {v v' : Nat → F} (h : p.Holds m n (firstPairs v' v i)) :
    p.Holds (Cmd.store (Cmd.store m (p.at (2 * i)) (v' (2 * i))) (p.at (2 * i + 1)) (v' (2 * i + 1)))
      n (firstPairs v' v (i + 1)) := by
  intro j hj
  by_cases h1 : j = 2 * i + 1
  · subst h1
    rw [Cmd.store_self, firstPairs_of_lt (by omega)]
  rw [Cmd.store_of_ne _ _ fun he => h1 (p.at_injective he)]
  by_cases h0 : j = 2 * i
  · subst h0
    rw [Cmd.store_self, firstPairs_of_lt (by omega)]
  rw [Cmd.store_of_ne _ _ fun he => h0 (p.at_injective he), h j hj]
  by_cases hlt : j < 2 * i
  · rw [firstPairs_of_lt hlt, firstPairs_of_lt (by omega)]
  · rw [firstPairs_of_le (by omega), firstPairs_of_le (by omega)]

/-- One pair of `rope` in a vector. -/
theorem ends_rotate_pair {p : Ptr} {n i pos : Nat} {v : Nat → F} (hf : p.Fits s.config.bufLen n)
    (hi : 2 * i + 1 < n) (h : p.Holds m n (firstPairs (rotated ops s pos v) v i)) :
    let freq := ops.div (ops.ofInt 1) (ops.powf_k (ops.ofInt 10000)
      (ops.div (ops.ofInt (((2 * i : Nat) : Int).tmod s.headSize)) (ops.ofInt s.headSize)))
    let val := ops.mul (ops.ofInt pos) freq
    (rotate ops p (2 * i) (ops.cosf_k val) (ops.sinf_k val)).Ends (inBuf s.config.bufLen) m
      fun _ t => p.Holds t n (firstPairs (rotated ops s pos v) v (i + 1)) ∧
        ∀ c, (∀ j < n, c ≠ p.at j) → t c = m c := by
  intro freq val
  have ha : m (p.at (2 * i)) = some (v (2 * i)) := by
    rw [h (2 * i) (by omega), firstPairs_of_le (Nat.le_refl _)]
  have hb : m (p.at (2 * i + 1)) = some (v (2 * i + 1)) := by
    rw [h (2 * i + 1) hi, firstPairs_of_le (Nat.le_succ _)]
  have h0 : rotated ops s pos v (2 * i) =
      ops.sub (ops.mul (v (2 * i)) (ops.cosf_k val)) (ops.mul (v (2 * i + 1)) (ops.sinf_k val)) := by
    have hhalf : 2 * i / 2 = i := by omega
    rw [rotated, hhalf]
    exact if_pos (by omega)
  have h1 : rotated ops s pos v (2 * i + 1) =
      ops.add (ops.mul (v (2 * i)) (ops.sinf_k val)) (ops.mul (v (2 * i + 1)) (ops.cosf_k val)) := by
    have hhalf : (2 * i + 1) / 2 = i := by omega
    rw [rotated, hhalf]
    exact if_neg (by omega)
  refine ends_rotate (hf.inBuf (by omega)) (hf.inBuf hi) ha hb ?_
  rw [← h0, ← h1]
  refine ⟨h.pair, fun c hc => ?_⟩
  rw [Cmd.store_of_ne _ _ (hc _ hi), Cmd.store_of_ne _ _ (hc _ (by omega))]

/-- Some pairs of the query and of the key are rotated. -/
structure Rotated (ops : FloatOps F) (s : Sizes) (l p : Nat) (q k : Nat → F) (m t : Ptr → Option F)
    (i : Nat) : Prop where
  query : Ptr.Holds t (.q, 0) s.dim (firstPairs (rotated ops s p q) q i)
  key : (s.row .keyCache l p).Holds t s.kvDim (firstPairs (rotated ops s p k) k i)
  frame : ∀ c : Ptr, c.1 ≠ .q → (∀ j < s.kvDim, c ≠ (s.row .keyCache l p).at j) → t c = m c

theorem ends_ropePair (h : s.Roomy) {l p i : Nat} (hl : l < s.nLayers) (hp : p < s.seqLen)
    {q k : Nat → F} (hi : 2 * i + 1 < s.dim) (ht : Rotated ops s l p q k m t i) :
    (ropePair ops s.config s.dims l p i).Ends (inBuf s.config.bufLen) t fun _ u =>
      Rotated ops s l p q k m u (i + 1) := by
  have hkv := h.kvDim_even
  have hlt := (layer_lt h.toFit h.cache_lt hl).2
  refine .ofOption_bind (remInt_headSize h.toFit _) ?_
  refine (ends_rotate_pair (h.fits_dim (b := .q) (by simp)) hi ht.query).bind ?_
  rintro _ u ⟨hq, hframe⟩
  have hkey : (s.row .keyCache l p).Holds u s.kvDim (firstPairs (rotated ops s p k) k i) :=
    ht.key.of_frame fun j _ => hframe _ fun j' _ => Ptr.at_ne (show Buf.keyCache ≠ .q by decide) _ _
  have hrest : ∀ c : Ptr, c.1 ≠ .q → (∀ j < s.kvDim, c ≠ (s.row .keyCache l p).at j) → u c = m c := by
    intro c hc hrow
    rw [hframe c fun j _ he => hc (congrArg Prod.fst he), ht.frame c hc hrow]
  by_cases hrotn : 2 * i < s.dims.kvDim.toNat
  · have hlt' : 2 * i < s.kvDim := hrotn
    rw [if_pos hrotn, h.cacheAt_eq _ hlt hp]
    refine (ends_rotate_pair (h.fits_row (.inl rfl) hl hp) (by omega) hkey).mono ?_
    rintro _ u' ⟨hk, hframe'⟩
    refine ⟨?_, hk, fun c hc hrow => (hframe' c hrow).trans (hrest c hc hrow)⟩
    exact hq.of_frame fun j _ => hframe' _ fun j' _ => Ptr.at_ne (show Buf.q ≠ .keyCache by decide) _ _
  · -- the keys of the position are all rotated already
    have hle : s.kvDim ≤ 2 * i := Nat.le_of_not_lt hrotn
    rw [if_neg hrotn]
    refine .done ⟨hq, fun j hj => ?_, hrest⟩
    rw [hkey j hj, firstPairs_of_lt (by omega), firstPairs_of_lt (by omega)]

theorem ends_rope (h : s.Roomy) {l p : Nat} (hl : l < s.nLayers) (hp : p < s.seqLen) {q k : Nat → F}
    (hq : Ptr.Holds m (.q, 0) s.dim q) (hk : (s.row .keyCache l p).Holds m s.kvDim k) :
    (rope ops s.config s.dims l p).Ends (inBuf s.config.bufLen) m fun _ t =>
      Ptr.Holds t (.q, 0) s.dim (rotated ops s p q) ∧
        (s.row .keyCache l p).Holds t s.kvDim (rotated ops s p k) ∧
        ∀ c : Ptr, c.1 ≠ .q → (∀ j < s.kvDim, c ≠ (s.row .keyCache l p).at j) → t c = m c := by
  have hdim := h.even_dim
  have hle := h.kvDim_le
  have hpairs : (s.config.dim.toNat + 1) / 2 = s.dim / 2 := by
    show (s.dim + 1) / 2 = s.dim / 2
    omega
  unfold rope
  rw [hpairs]
  have hstart : Rotated ops s l p q k m m 0 := by
    refine ⟨fun j hj => ?_, fun j hj => ?_, fun _ _ _ => rfl⟩
    · rw [hq j hj, firstPairs_of_le (Nat.zero_le j)]
    · rw [hk j hj, firstPairs_of_le (Nat.zero_le j)]
  refine (Cmd.Ends.forUpto (I := fun i t => Rotated ops s l p q k m t i) hstart
    fun i hi t ht => ends_ropePair h hl hp (by omega) ht).mono ?_
  intro _ t ht
  refine ⟨fun j hj => ?_, fun j hj => ?_, ht.frame⟩
  · rw [ht.query j hj, firstPairs_of_lt (by omega)]
  · rw [ht.key j hj, firstPairs_of_lt (by omega)]

/-! ## The attention -/

/-- The caches of a layer hold the entries of the positions up to `p`. -/
def HoldsEntries (s : Sizes) (m : Ptr → Option F) (l p : Nat) (e : Nat → Entry F) : Prop :=
  ∀ tp ≤ p, (s.row .keyCache l tp).Holds m s.kvDim (e tp).1 ∧
    (s.row .valueCache l tp).Holds m s.kvDim (e tp).2

theorem HoldsEntries.of_frame {l p : Nat} {e : Nat → Entry F} (h : HoldsEntries s m l p e)
    (hs : ∀ c : Ptr, c.1 = .keyCache ∨ c.1 = .valueCache → t c = m c) : HoldsEntries s t l p e :=
  fun tp htp => ⟨(h tp htp).1.of_frame fun _ _ => hs _ (.inl rfl),
    (h tp htp).2.of_frame fun _ _ => hs _ (.inr rfl)⟩

/-- The part of a head in a row of the cache. -/
theorem Sizes.Fit.kvHead_le (h : s.Fit) {i : Nat} (hi : i < s.nHeads) :
    i / s.kvMul * s.headSize + s.headSize ≤ s.kvDim := by
  have hle : (i / s.kvMul + 1) * s.headSize ≤ s.kvDim := Nat.mul_le_mul_right _ (h.div_kvMul_lt hi)
  rwa [Nat.add_mul, Nat.one_mul] at hle

/-- A cell of a head in a row of the cache. -/
theorem Sizes.Roomy.head_cell (h : s.Roomy) {b : Buf} (hb : b = .keyCache ∨ b = .valueCache)
    {l p i j : Nat} (hl : l < s.nLayers) (hp : p < s.seqLen) (hi : i < s.nHeads) (hj : j < s.headSize)
    {v : Nat → F} (hv : (s.row b l p).Holds m s.kvDim v) :
    inBuf s.config.bufLen (((s.row b l p).at (i / s.kvMul * s.headSize)).at j) = true ∧
      m (((s.row b l p).at (i / s.kvMul * s.headSize)).at j) =
        some (v (i / s.kvMul * s.headSize + j)) := by
  have hle := h.kvHead_le hi
  have hcell : ((s.row b l p).at (i / s.kvMul * s.headSize)).at j =
      (s.row b l p).at (i / s.kvMul * s.headSize + j) := congrArg (Prod.mk b) (Nat.add_assoc _ _ _)
  rw [hcell]
  have hlt : i / s.kvMul * s.headSize + j < s.kvDim := by omega
  exact ⟨(h.fits_row hb hl hp).inBuf hlt, hv _ hlt⟩

/-- A cell of a head in the query or in the attended values. -/
theorem Sizes.Fit.inBuf_head (h : s.Fit) {b : Buf} (hb : b = .x ∨ b = .xb ∨ b = .xb2 ∨ b = .q)
    {i j : Nat} (hi : i < s.nHeads) (hj : j < s.headSize) :
    inBuf s.config.bufLen (Ptr.at (b, i * s.headSize) j) = true := by
  have hle := head_le hi
  have hfits : Ptr.Fits s.config.bufLen (b, i * s.headSize) s.headSize := by
    have hdim : 0 + s.dim ≤ s.config.bufLen b := h.fits_dim hb
    show i * s.headSize + s.headSize ≤ s.config.bufLen b
    omega
  exact hfits.inBuf hj

theorem ends_scores (h : s.Roomy) {l p i : Nat} (hl : l < s.nLayers) (hp : p < s.seqLen)
    (hi : i < s.nHeads) {q : Nat → F} {e : Nat → Entry F} (hq : Ptr.Holds m (.q, 0) s.dim q)
    (he : HoldsEntries s m l p e) :
    (scores ops s.config s.dims l p i).Ends (inBuf s.config.bufLen) m fun _ t =>
      Cmd.Sets m t (attAt s.config i).at (p + 1) fun tp => scoreOf ops s q (e tp).1 i := by
  have hhead := head_le hi
  have hquery : queryAt s.dims i = (.q, i * s.headSize) := congrArg _ (h.queryAt_eq hi)
  have hatt : ∀ j, (attAt s.config i).at j = (.att, (attAt s.config i).2 + j) := fun _ => rfl
  unfold scores
  rw [hquery]
  refine Cmd.Ends.fill (Ptr.at_injective _) fun tp htp t ht => ?_
  have htp : tp < p + 1 := htp
  -- the scores written so far are in another buffer
  have hframe : ∀ c : Ptr, c.1 ≠ .att → t c = m c :=
    fun c hc => ht.frame c fun j _ he => hc (congrArg Prod.fst he)
  have hqt : Ptr.Holds t (.q, 0) s.dim q := hq.of_frame fun j _ => hframe _ (show Buf.q ≠ .att by decide)
  have hkt : (s.row .keyCache l tp).Holds t s.kvDim (e tp).1 :=
    (he tp (Nat.le_of_lt_succ htp)).1.of_frame fun j _ =>
      hframe _ (show Buf.keyCache ≠ .att by decide)
  have htp' : tp < s.seqLen := by omega
  rw [h.cacheHead_eq _ hl htp' hi]
  have hsum : (Cmd.foldUpto s.headSize (ops.ofInt 0) fun j score => do
      let a ← Cmd.get (Ptr.at (.q, i * s.headSize) j)
      let b ← Cmd.get (((s.row .keyCache l tp).at (i / s.kvMul * s.headSize)).at j)
      return ops.add score (ops.mul a b)).Ends (inBuf s.config.bufLen) t fun a u =>
        a = sumUpto ops (ops.ofInt 0) (fun j => ops.mul (q (i * s.headSize + j))
          ((e tp).1 (i / s.kvMul * s.headSize + j))) s.headSize ∧ u = t := by
    refine Cmd.Ends.foldUpto_read (sumUpto ops (ops.ofInt 0) fun j =>
      ops.mul (q (i * s.headSize + j)) ((e tp).1 (i / s.kvMul * s.headSize + j))) fun j hj => ?_
    obtain ⟨hin, hval⟩ := h.head_cell (.inl rfl) hl htp' hi hj hkt
    refine .get_bind (h.inBuf_head (by simp) hi hj) (hqt.part (by omega)) ?_
    exact .get_bind hin hval (.done ⟨rfl, rfl⟩)
  refine hsum.bind ?_
  rintro score u ⟨rfl, rfl⟩
  exact .set ((h.fits_att hi hp).inBuf htp) rfl

/-- The weighted sum of the values, of which the first `n` positions are added. -/
def mixed (ops : FloatOps F) (s : Sizes) (e : Nat → Entry F) (weight : Nat → F) (i n j : Nat) : F :=
  sumUpto ops (ops.ofInt 0) (fun tp =>
    ops.mul (weight tp) ((e tp).2 (i / s.kvMul * s.headSize + j))) n

theorem ends_mixValues (h : s.Roomy) {l p i : Nat} (hl : l < s.nLayers) (hp : p < s.seqLen)
    (hi : i < s.nHeads) {e : Nat → Entry F} {weight : Nat → F} (he : HoldsEntries s m l p e)
    (hw : (attAt s.config i).Holds m (p + 1) weight) :
    (mixValues ops s.config s.dims l p i).Ends (inBuf s.config.bufLen) m fun _ t =>
      Cmd.Sets m t (Ptr.at (.xb, i * s.headSize)) s.headSize (mixed ops s e weight i (p + 1)) := by
  have hplace : xbAt s.dims i = (.xb, i * s.headSize) := congrArg _ (h.queryAt_eq hi)
  have hin : ∀ j < s.headSize, inBuf s.config.bufLen (Ptr.at (.xb, i * s.headSize) j) = true :=
    fun j hj => h.inBuf_head (by simp) hi hj
  unfold mixValues
  rw [hplace]
  have hzero : (Cmd.forUpto s.headSize fun j =>
      Cmd.set (Ptr.at (.xb, i * s.headSize) j) (ops.ofInt 0)).Ends (inBuf s.config.bufLen) m fun _ t =>
        Cmd.Sets m t (Ptr.at (.xb, i * s.headSize)) s.headSize (mixed ops s e weight i 0) :=
    Cmd.Ends.fill (Ptr.at_injective _) fun j hj t _ => .set (hin j hj) rfl
  refine hzero.bind fun _ t₀ ht₀ => ?_
  refine Cmd.Ends.forUpto (I := fun n t =>
    Cmd.Sets m t (Ptr.at (.xb, i * s.headSize)) s.headSize (mixed ops s e weight i n)) ht₀ ?_
  intro tp htp t ht
  have htp : tp < p + 1 := htp
  have hframe : ∀ c : Ptr, c.1 ≠ .xb → t c = m c :=
    fun c hc => ht.frame c fun j _ he => hc (congrArg Prod.fst he)
  have htp' : tp < s.seqLen := by omega
  rw [h.cacheHead_eq _ hl htp' hi]
  refine .get_bind ((h.fits_att hi hp).inBuf htp) ((hframe _ (show Buf.att ≠ .xb by decide)).trans
    (hw tp htp)) ?_
  have hround : (Cmd.forUpto s.headSize fun j => do
      let x ← Cmd.get (Ptr.at (.xb, i * s.headSize) j)
      let v ← Cmd.get (((s.row .valueCache l tp).at (i / s.kvMul * s.headSize)).at j)
      Cmd.set (Ptr.at (.xb, i * s.headSize) j) (ops.add x (ops.mul (weight tp) v))).Ends
        (inBuf s.config.bufLen) t fun _ u =>
          Cmd.Sets t u (Ptr.at (.xb, i * s.headSize)) s.headSize (mixed ops s e weight i (tp + 1)) := by
    refine Cmd.Ends.fill (Ptr.at_injective _) fun j hj u hu => ?_
    have hx : u (Ptr.at (.xb, i * s.headSize) j) = some (mixed ops s e weight i tp j) := by
      rw [hu.frame _ fun j' hj' he => Nat.ne_of_gt hj' (Ptr.at_injective _ he)]
      exact ht.value j hj
    have hvt : (s.row .valueCache l tp).Holds u s.kvDim (e tp).2 := by
      refine (he tp (Nat.le_of_lt_succ htp)).2.of_frame fun j' _ => ?_
      rw [hu.frame _ fun k _ => Ptr.at_ne (show Buf.valueCache ≠ .xb by decide) _ _]
      exact hframe _ (show Buf.valueCache ≠ .xb by decide)
    obtain ⟨hvin, hval⟩ := h.head_cell (.inr rfl) hl htp' hi hj hvt
    exact .get_bind (hin j hj) hx (.get_bind hvin hval (.set (hin j hj) rfl))
  exact hround.mono fun _ u hu => ht.trans hu

/-- The heads are attended one after the other. -/
theorem ends_attention (h : s.Roomy) {l p : Nat} (hl : l < s.nLayers) (hp : p < s.seqLen)
    {q : Nat → F} {e : Nat → Entry F} (hq : Ptr.Holds m (.q, 0) s.dim q)
    (he : HoldsEntries s m l p e) :
    (attention ops s.config s.dims l p).Ends (inBuf s.config.bufLen) m fun _ t =>
      Ptr.Holds t (.xb, 0) s.dim (attended ops s q e p) ∧
        ∀ c : Ptr, c.1 ≠ .att → c.1 ≠ .xb → t c = m c := by
  refine Cmd.Ends.forUpto (I := fun i t =>
    Ptr.Holds t (.xb, 0) (i * s.headSize) (attended ops s q e p) ∧
      ∀ c : Ptr, c.1 ≠ .att → c.1 ≠ .xb → t c = m c) ⟨fun j hj => ?_, fun _ _ _ => rfl⟩ ?_
  · rw [Nat.zero_mul] at hj
    exact absurd hj (Nat.not_lt_zero j)
  rintro i hi t ⟨hdone, hframe⟩
  have hi : i < s.nHeads := hi
  have hqt : Ptr.Holds t (.q, 0) s.dim q :=
    hq.of_frame fun j _ => hframe _ (show Buf.q ≠ .att by decide) (show Buf.q ≠ .xb by decide)
  have het : HoldsEntries s t l p e := he.of_frame fun c hc => by
    rcases hc with hc | hc <;> exact hframe c (by rw [hc]; decide) (by rw [hc]; decide)
  refine (ends_scores h hl hp hi hqt het).bind fun _ t₁ h₁ => ?_
  refine (ends_llmSoftmax (Nat.succ_pos p) (h.fits_att hi hp) h₁.value).bind fun _ t₂ h₂ => ?_
  have h₁₂ := h₁.trans h₂
  have hatt : ∀ c : Ptr, c.1 ≠ .att → t₂ c = t c :=
    fun c hc => h₁₂.frame c fun j _ he => hc (congrArg Prod.fst he)
  have het₂ : HoldsEntries s t₂ l p e := het.of_frame fun c hc => by
    rcases hc with hc | hc <;> exact hatt c (by rw [hc]; decide)
  refine (ends_mixValues h hl hp hi het₂ h₁₂.value).mono fun _ t₃ h₃ => ⟨?_, ?_⟩
  · intro j hj
    rw [Ptr.at_zero]
    by_cases hlt : j < i * s.headSize
    · -- an earlier head
      rw [h₃.frame _ fun k _ he => ?_, hatt _ (show Buf.xb ≠ .att by decide), ← Ptr.at_zero]
      · exact hdone j hlt
      · have hsnd : j = i * s.headSize + k := congrArg Prod.snd he
        omega
    · rw [Nat.add_mul, Nat.one_mul] at hj
      obtain ⟨k, rfl⟩ := Nat.exists_eq_add_of_le (Nat.le_of_not_lt hlt)
      have hk : k < s.headSize := by omega
      have hdiv : (i * s.headSize + k) / s.headSize = i := by
        rw [Nat.add_comm, Nat.add_mul_div_right _ _ h.headSize_pos, Nat.div_eq_of_lt hk, Nat.zero_add]
      have hmod : (i * s.headSize + k) % s.headSize = k := by
        rw [Nat.add_comm, Nat.add_mul_mod_self_right, Nat.mod_eq_of_lt hk]
      have hval := h₃.value k hk
      rw [attended, hdiv, hmod]
      exact hval
  · intro c hatt' hxb
    rw [h₃.frame c fun k _ he => hxb (congrArg Prod.fst he), hatt c hatt', hframe c hatt' hxb]

/-! ## The feed-forward network -/

/-- The gated product is left in the first of its two vectors. -/
theorem ends_silu (h : s.Fit) {a b : Nat → F} (ha : Ptr.Holds m (.hb, 0) s.hiddenDim a)
    (hb : Ptr.Holds m (.hb2, 0) s.hiddenDim b) :
    (Cmd.forUpto s.hiddenDim (silu ops)).Ends (inBuf s.config.bufLen) m fun _ t =>
      Cmd.Sets m t (Ptr.at (.hb, 0)) s.hiddenDim (gated ops a b) := by
  refine Cmd.Ends.fill (Ptr.at_injective _) fun i hi t ht => ?_
  have hread : t (Buf.hb, i) = some (a i) := by
    rw [← Ptr.at_zero, ht.frame _ fun j hj he => Nat.ne_of_gt hj (Ptr.at_injective _ he)]
    exact ha i hi
  have hread' : t (Buf.hb2, i) = some (b i) := by
    rw [← Ptr.at_zero, ht.frame _ fun j _ => Ptr.at_ne (by decide) _ _]
    exact hb i hi
  have hin : inBuf s.config.bufLen (Buf.hb, i) = true := by
    rw [← Ptr.at_zero]
    exact (h.fits_hidden (.inl rfl)).inBuf hi
  have hin' : inBuf s.config.bufLen (Buf.hb2, i) = true := by
    rw [← Ptr.at_zero]
    exact (h.fits_hidden (.inr rfl)).inBuf hi
  refine .get_bind hin hread (.get_bind hin' hread' (.set hin ?_))
  rw [Ptr.at_zero]
  rfl

/-- The caches are as they were. -/
def CachesKept (m t : Ptr → Option F) : Prop :=
  ∀ c : Ptr, c.1 = .keyCache ∨ c.1 = .valueCache → t c = m c

theorem CachesKept.trans {u : Ptr → Option F} (h : CachesKept m t) (h' : CachesKept t u) :
    CachesKept m u := fun c hc => (h' c hc).trans (h c hc)

theorem CachesKept.of_sets {o : Ptr} {n : Nat} {v : Nat → F} (h : Cmd.Sets m t o.at n v)
    (hk : o.1 ≠ .keyCache) (hv : o.1 ≠ .valueCache) : CachesKept m t := by
  intro c hc
  refine h.frame c fun i _ he => ?_
  have hbuf : c.1 = (o.at i).1 := congrArg Prod.fst he
  rcases hc with hc | hc
  · exact hk (hbuf.symm.trans hc)
  · exact hv (hbuf.symm.trans hc)

theorem ends_feedForward (h : s.Roomy) {l : Nat} {x a : Nat → F}
    (hx : Ptr.Holds m (.x, 0) s.dim x) (ha : Ptr.Holds m (.xb, 0) s.dim a) :
    (feedForward ops s.config w file l).Ends (inBuf s.config.bufLen) m fun _ t =>
      Ptr.Holds t (.x, 0) s.dim (residual ops s (layerWeights s w file l) x a) ∧ CachesKept m t := by
  have hfx := h.fits_dim (b := .x) (by simp)
  have hfb := h.fits_dim (b := .xb) (by simp)
  have hfb2 := h.fits_dim (b := .xb2) (by simp)
  have hfh := h.fits_hidden (.inl rfl)
  have hfh2 := h.fits_hidden (.inr rfl)
  unfold feedForward
  refine (ends_matmul hfb2 hfb ha (by decide)).bind fun _ t₁ h₁ => ?_
  have hx₁ : Ptr.Holds t₁ (.x, 0) s.dim x := hx.keep h₁ (by decide)
  refine (ends_addTo hfx hfb2 hx₁ h₁.value (by decide)).bind fun _ t₂ h₂ => ?_
  refine (ends_rmsnorm hfb hfx h₂.value fun i j _ => Ptr.at_ne (by decide) _ _).bind fun _ t₃ h₃ => ?_
  have hx₃ : Ptr.Holds t₃ (.x, 0) s.dim _ := Ptr.Holds.keep h₂.value h₃ (by decide)
  refine (ends_matmul hfh hfb h₃.value (by decide)).bind fun _ t₄ h₄ => ?_
  have hxb₄ : Ptr.Holds t₄ (.xb, 0) s.dim _ := Ptr.Holds.keep h₃.value h₄ (by decide)
  refine (ends_matmul hfh2 hfb hxb₄ (by decide)).bind fun _ t₅ h₅ => ?_
  have hhb₅ : Ptr.Holds t₅ (.hb, 0) s.hiddenDim _ := Ptr.Holds.keep h₄.value h₅ (by decide)
  refine (ends_silu h.toFit hhb₅ h₅.value).bind fun _ t₆ h₆ => ?_
  refine (ends_matmul hfb hfh h₆.value (by decide)).bind fun _ t₇ h₇ => ?_
  have hx₇ : Ptr.Holds t₇ (.x, 0) s.dim _ :=
    (((hx₃.keep h₄ (by decide)).keep h₅ (by decide)).keep h₆ (by decide)).keep h₇ (by decide)
  refine (ends_addTo hfx hfb hx₇ h₇.value (by decide)).mono fun _ t₈ h₈ => ⟨h₈.value, ?_⟩
  have hk₁ : CachesKept m t₁ := .of_sets h₁ (by decide) (by decide)
  have hk₂ : CachesKept t₁ t₂ := .of_sets h₂ (by decide) (by decide)
  have hk₃ : CachesKept t₂ t₃ := .of_sets h₃ (by decide) (by decide)
  have hk₄ : CachesKept t₃ t₄ := .of_sets h₄ (by decide) (by decide)
  have hk₅ : CachesKept t₄ t₅ := .of_sets h₅ (by decide) (by decide)
  have hk₆ : CachesKept t₅ t₆ := .of_sets h₆ (by decide) (by decide)
  have hk₇ : CachesKept t₆ t₇ := .of_sets h₇ (by decide) (by decide)
  have hk₈ : CachesKept t₇ t₈ := .of_sets h₈ (by decide) (by decide)
  exact ((((((hk₁.trans hk₂).trans hk₃).trans hk₄).trans hk₅).trans hk₆).trans hk₇).trans hk₈

/-! ## A layer -/

/-- The caches hold the entries of the positions before `p`, and in the layers before `l` that of `p`. -/
def HoldsCache (s : Sizes) (m : Ptr → Option F) (C : Nat → Nat → Entry F) (p l : Nat) : Prop :=
  ∀ k < s.nLayers, ∀ tp, tp < p ∨ (tp = p ∧ k < l) →
    (s.row .keyCache k tp).Holds m s.kvDim (C k tp).1 ∧
      (s.row .valueCache k tp).Holds m s.kvDim (C k tp).2

theorem HoldsCache.of_kept {C : Nat → Nat → Entry F} {p l : Nat} (h : HoldsCache s m C p l)
    (hs : CachesKept m t) : HoldsCache s t C p l := by
  intro k hk tp htp
  obtain ⟨hkey, hvalue⟩ := h k hk tp htp
  exact ⟨hkey.of_frame fun _ _ => hs _ (.inl rfl), hvalue.of_frame fun _ _ => hs _ (.inr rfl)⟩

/-- The rows of a layer up to the position, once that of the position is there. -/
theorem HoldsCache.entries {C : Nat → Nat → Entry F} {p l : Nat} (h : HoldsCache s m C p (l + 1))
    (hl : l < s.nLayers) : HoldsEntries s m l p (C l) := by
  intro tp htp
  apply h l hl tp
  omega

/-- The row of the position is put into the caches of a layer, and the other rows stay. -/
theorem HoldsCache.put {C : Nat → Nat → Entry F} {p l : Nat} (hl : l < s.nLayers) (hp : p < s.seqLen)
    (h : HoldsCache s m C p l) {e : Entry F} (hkey : (s.row .keyCache l p).Holds t s.kvDim e.1)
    (hvalue : (s.row .valueCache l p).Holds t s.kvDim e.2) (hframe : ProjectFrame s l p m t) :
    HoldsCache s t (Decoder.put C l p e) p (l + 1) := by
  intro k hk tp htp
  by_cases hkt : k = l ∧ tp = p
  · obtain ⟨rfl, rfl⟩ := hkt
    rw [Decoder.put_same]
    exact ⟨hkey, hvalue⟩
  have hne : k ≠ l ∨ tp ≠ p := by omega
  rw [Decoder.put_of_ne C e hne]
  have htp' : tp < s.seqLen := by omega
  obtain ⟨hkey', hvalue'⟩ := h k hk tp (by omega)
  constructor
  · refine hkey'.of_frame fun i hi => hframe _ (show Buf.keyCache ≠ .xb by decide)
      (show Buf.keyCache ≠ .q by decide) (fun j hj => ?_) fun j _ => ?_
    · exact row_ne hp htp' hj hi hne
    · exact Ptr.at_ne (show Buf.keyCache ≠ .valueCache by decide) _ _
  · refine hvalue'.of_frame fun i hi => hframe _ (show Buf.valueCache ≠ .xb by decide)
      (show Buf.valueCache ≠ .q by decide) (fun j _ => ?_) fun j hj => ?_
    · exact Ptr.at_ne (show Buf.valueCache ≠ .keyCache by decide) _ _
    · exact row_ne hp htp' hj hi hne

/-- A layer makes of the value and the caches what the decoder does. -/
theorem ends_layer (h : s.Roomy) {l p : Nat} (hl : l < s.nLayers) (hp : p < s.seqLen) {x : Nat → F}
    {C : Nat → Nat → Entry F} (hx : Ptr.Holds m (.x, 0) s.dim x) (hC : HoldsCache s m C p l) :
    (layer ops s.config s.dims w file p l).Ends (inBuf s.config.bufLen) m fun _ t =>
      let D := transformer ops s w file
      let C' := Decoder.put C l p (D.entry l p x)
      Ptr.Holds t (.x, 0) s.dim (D.mix l p x (C' l)) ∧ HoldsCache s t C' p (l + 1) := by
  refine (ends_project h hl hp hx).bind ?_
  rintro _ t₁ ⟨hq₁, hk₁, hv₁, hf₁⟩
  refine (ends_rope h hl hp hq₁ hk₁).bind ?_
  rintro _ t₂ ⟨hq₂, hk₂, hf₂⟩
  -- the row of the position, in front of the others
  have hf : ProjectFrame s l p m t₂ := fun c hxb hq hk hv =>
    (hf₂ c hq hk).trans (hf₁ c hxb hq hk hv)
  have hv₂ : (s.row .valueCache l p).Holds t₂ s.kvDim _ := hv₁.of_frame fun i _ =>
    hf₂ _ (show Buf.valueCache ≠ .q by decide) fun j _ =>
      Ptr.at_ne (show Buf.valueCache ≠ .keyCache by decide) _ _
  have hC₂ := hC.put (e := (transformer ops s w file).entry l p x) hl hp hk₂ hv₂ hf
  have hx₂ : Ptr.Holds t₂ (.x, 0) s.dim x := hx.of_frame fun i _ =>
    hf _ (show Buf.x ≠ .xb by decide) (show Buf.x ≠ .q by decide)
      (fun j _ => Ptr.at_ne (show Buf.x ≠ .keyCache by decide) _ _)
      fun j _ => Ptr.at_ne (show Buf.x ≠ .valueCache by decide) _ _
  refine (ends_attention h hl hp hq₂ (hC₂.entries hl)).bind ?_
  rintro _ t₃ ⟨hxb₃, hf₃⟩
  have hx₃ : Ptr.Holds t₃ (.x, 0) s.dim x := hx₂.of_frame fun i _ =>
    hf₃ _ (show Buf.x ≠ .att by decide) (show Buf.x ≠ .xb by decide)
  have hkept : CachesKept t₂ t₃ := fun c hc => by
    rcases hc with hc | hc <;> exact hf₃ c (by rw [hc]; decide) (by rw [hc]; decide)
  refine (ends_feedForward h hx₃ hxb₃).mono ?_
  rintro _ t₄ ⟨hx₄, hkept'⟩
  exact ⟨hx₄, hC₂.of_kept (hkept.trans hkept')⟩

/-! ## The pass -/

/-- A pass makes of the caches what the decoder does, and its logits are those of the last value. -/
theorem ends_forward (h : s.Roomy) {p : Nat} (hp : p < s.seqLen) (token : Int)
    {C : Nat → Nat → Entry F} (hC : HoldsCache s m C p 0) :
    (forward ops s.config w file token p).Ends (inBuf s.config.bufLen) m fun _ t =>
      let r := (transformer ops s w file).pass p token C s.nLayers
      Ptr.Holds t (.logits, 0) s.vocabSize (logitsOf ops s w file r.1) ∧
        HoldsCache s t r.2 p s.nLayers := by
  have hfx := h.fits_dim (b := .x) (by simp)
  have hdims : s.config.dims = some s.dims := by rw [h.dims_eq, if_pos h.kvDim_lt]
  have hlayers : u64 s.config.nLayers = s.nLayers := u64_int h.nLayers_lt
  unfold forward
  refine .ofOption_bind hdims ?_
  rw [hlayers]
  have hembed : (Cmd.forUpto s.dim fun i => Cmd.set (Buf.x, i)
      (tensor file w.tokenEmbeddingTable (mul64 (u64 token) (u64 s.config.dim)) i)).Ends
        (inBuf s.config.bufLen) m fun _ t =>
          Cmd.Sets m t (Ptr.at (.x, 0)) s.dim ((transformer ops s w file).embed token) := by
    refine Cmd.Ends.fill (Ptr.at_injective _) fun i hi t _ => ?_
    rw [← Ptr.at_zero]
    exact .set (hfx.inBuf hi) rfl
  refine hembed.bind fun _ t₀ h₀ => ?_
  have hloop : (Cmd.forUpto s.nLayers (layer ops s.config s.dims w file p)).Ends
      (inBuf s.config.bufLen) t₀ fun _ t =>
        Ptr.Holds t (.x, 0) s.dim ((transformer ops s w file).pass p token C s.nLayers).1 ∧
          HoldsCache s t ((transformer ops s w file).pass p token C s.nLayers).2 p s.nLayers := by
    refine Cmd.Ends.forUpto (I := fun l t =>
      Ptr.Holds t (.x, 0) s.dim ((transformer ops s w file).pass p token C l).1 ∧
        HoldsCache s t ((transformer ops s w file).pass p token C l).2 p l) ⟨h₀.value, ?_⟩ ?_
    · exact hC.of_kept (.of_sets h₀ (by decide) (by decide))
    · exact fun l hl t ht => ends_layer h hl hp ht.1 ht.2
  refine hloop.bind ?_
  rintro _ t₁ ⟨hx₁, hC₁⟩
  refine (ends_rmsnorm hfx hfx hx₁ fun i j hij he =>
    Nat.ne_of_gt hij (Ptr.at_injective _ he)).bind fun _ t₂ h₂ => ?_
  refine (ends_matmul h.fits_logits hfx h₂.value (by decide)).mono fun _ t₃ h₃ => ⟨h₃.value, ?_⟩
  have hk₂ : CachesKept t₁ t₂ := .of_sets h₂ (by decide) (by decide)
  exact hC₁.of_kept (hk₂.trans (.of_sets h₃ (by decide) (by decide)))

/-- What is in the run state after the passes of `n` tokens. -/
structure Passed (ops : FloatOps F) (s : Sizes) (w : TransformerWeights) (file : Nat → F)
    (toks : Nat → Int) (m : Ptr → Option F) (n : Nat) : Prop where
  cache : HoldsCache s m ((transformer ops s w file).entries toks) n 0
  logits : ∀ p, n = p + 1 → Ptr.Holds m (.logits, 0) s.vocabSize
    (logitsOf ops s w file ((transformer ops s w file).stream toks s.nLayers p))

theorem Passed.start (toks : Nat → Int) (m : Ptr → Option F) : Passed ops s w file toks m 0 := by
  constructor
  · intro k _ tp htp
    omega
  · intro p hp
    omega

/-- The caches of the earlier tokens are all that a pass needs. -/
theorem HoldsCache.forward (h : s.Roomy) {toks : Nat → Int} {p : Nat} (hp : p < s.seqLen)
    (hC : HoldsCache s m ((transformer ops s w file).entries toks) p 0) :
    (Llama.forward ops s.config w file (toks p) p).Ends (inBuf s.config.bufLen) m fun _ t =>
      Passed ops s w file toks t (p + 1) := by
  refine (ends_forward h hp (toks p) hC).mono ?_
  rintro _ t ⟨hlogits, hcache⟩
  have hready : (transformer ops s w file).Cached toks p 0
      ((transformer ops s w file).entries toks) := fun _ _ _ _ => rfl
  obtain ⟨hx, hC'⟩ := hready.pass (l := s.nLayers) (Nat.le_refl _)
  rw [hx] at hlogits
  constructor
  · intro k hk tp htp
    have htp' : tp < p ∨ (tp = p ∧ k < s.nLayers) := by omega
    rw [← hC' k hk tp htp']
    exact hcache k hk tp htp'
  · intro p' hp'
    cases hp'
    exact hlogits

end ChocoOs.Llama
