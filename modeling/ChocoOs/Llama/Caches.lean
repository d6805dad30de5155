import ChocoOs.Llama.RunState

/-!
# What a pass reads and writes

From the caches of the earlier positions a pass computes the logits and the caches of its position. It
reads nothing else that it has not written itself, as long as the keys of a position are pairs.
-/

namespace ChocoOs.Llama
open ProgLib

variable {F : Type} {ops : FloatOps F} {s : Sizes} {w : TransformerWeights} {file : Nat → F}
  {D : Set Ptr}

/-! ## Places -/

theorem Ptr.cells_subset {b : Buf} {o n o' n' : Nat} (ho : o' ≤ o) (hn : o + n ≤ o' + n') :
    Ptr.cells (b, o) n ⊆ Ptr.cells (b, o') n' := by
  rintro c ⟨i, hi, rfl⟩
  refine ⟨o - o' + i, by omega, ?_⟩
  show (b, o + i) = (b, o' + (o - o' + i))
  congr 1
  omega

theorem Ptr.at_zero (b : Buf) (i : Nat) : Ptr.at (b, 0) i = (b, i) := by
  show (b, 0 + i) = (b, i)
  rw [Nat.zero_add]

namespace Sizes

/-- The keys and values of a layer for the positions before `p`. -/
def cached (s : Sizes) (l p : Nat) : Set Ptr :=
  Ptr.cells (.keyCache, l * s.seqLen * s.kvDim) (p * s.kvDim) ∪
    Ptr.cells (.valueCache, l * s.seqLen * s.kvDim) (p * s.kvDim)

/-- The keys and values of the first `n` layers for the positions before `p`. -/
def past (s : Sizes) (n p : Nat) : Set Ptr := {c | ∃ l < n, c ∈ s.cached l p}

/-- The run state is as large as it should be, and the keys of a position are pairs. -/
structure Roomy (s : Sizes) : Prop extends s.Fit where
  cache_lt : s.cache < addrSpace
  kvDim_lt : s.dim * s.kvHeads < 2 ^ 31
  kvDim_even : 2 ∣ s.kvDim

theorem cached_subset_left {b : Buf} (hb : b = .keyCache ∨ b = .valueCache) (l p : Nat) :
    Ptr.cells (b, l * s.seqLen * s.kvDim) (p * s.kvDim) ⊆ s.cached l p := by
  rcases hb with rfl | rfl
  · exact Set.subset_union_left
  · exact Set.subset_union_right

/-- The last row of the caches is where the pass writes. -/
theorem cached_succ (l p : Nat) : s.cached l (p + 1) ⊆ s.cached l p ∪
    (Ptr.cells (.keyCache, l * s.seqLen * s.kvDim + p * s.kvDim) s.kvDim ∪
      Ptr.cells (.valueCache, l * s.seqLen * s.kvDim + p * s.kvDim) s.kvDim) := by
  have hrow : ∀ {b : Buf} {i : Nat}, i < (p + 1) * s.kvDim →
      Ptr.at (b, l * s.seqLen * s.kvDim) i ∈ Ptr.cells (b, l * s.seqLen * s.kvDim) (p * s.kvDim) ∨
        Ptr.at (b, l * s.seqLen * s.kvDim) i ∈
          Ptr.cells (b, l * s.seqLen * s.kvDim + p * s.kvDim) s.kvDim := by
    intro b i hi
    rw [Nat.add_mul, Nat.one_mul] at hi
    rcases Nat.lt_or_ge i (p * s.kvDim) with hlt | hge
    · exact .inl ⟨i, hlt, rfl⟩
    · refine .inr ⟨i - p * s.kvDim, by omega, ?_⟩
      show (b, _) = (b, _)
      congr 1
      omega
  rintro c (⟨i, hi, rfl⟩ | ⟨i, hi, rfl⟩)
  · exact (hrow hi).imp .inl .inl
  · exact (hrow hi).imp .inr .inr

theorem Roomy.even_dim (h : s.Roomy) : 2 ∣ s.dim := by
  rw [dim_eq]
  exact Dvd.dvd.mul_left h.kvDim_even _

theorem layer_lt (h : s.Fit) (hc : s.cache < addrSpace) {l : Nat} (hl : l < s.nLayers) :
    l * s.seqLen * s.kvDim + s.seqLen * s.kvDim ≤ s.cache ∧
      l * s.seqLen * s.kvDim < addrSpace := by
  have hle : (l + 1) * s.seqLen * s.kvDim ≤ s.cache :=
    Nat.mul_le_mul_right _ (Nat.mul_le_mul_right _ hl)
  have hpos : 0 < s.seqLen * s.kvDim := Nat.mul_pos h.seqLen_pos h.kvDim_pos
  rw [Nat.add_mul, Nat.one_mul, Nat.add_mul] at hle
  exact ⟨hle, by omega⟩

/-- The row of a position lies in its cache. -/
theorem Roomy.fits_row (h : s.Roomy) {b : Buf} (hb : b = .keyCache ∨ b = .valueCache) {l p : Nat}
    (hl : l < s.nLayers) (hp : p < s.seqLen) :
    Ptr.Fits s.config.bufLen (b, l * s.seqLen * s.kvDim + p * s.kvDim) s.kvDim := by
  have hle := (layer_lt h.toFit h.cache_lt hl).1
  have hrow : (p + 1) * s.kvDim ≤ s.seqLen * s.kvDim := Nat.mul_le_mul_right _ hp
  rw [Nat.add_mul, Nat.one_mul] at hrow
  have hlen := h.toFit.bufLen_cache hb
  rw [Nat.mod_eq_of_lt h.cache_lt] at hlen
  show l * s.seqLen * s.kvDim + p * s.kvDim + s.kvDim ≤ s.config.bufLen b
  omega

theorem Fit.fits_dim (h : s.Fit) {b : Buf} (hb : b = .x ∨ b = .xb ∨ b = .xb2 ∨ b = .q) :
    Ptr.Fits s.config.bufLen (b, 0) s.dim := by
  have hlen : s.config.bufLen b = s.dim := by rcases hb with rfl | rfl | rfl | rfl <;> exact h.bufLen_dim
  show 0 + s.dim ≤ s.config.bufLen b
  omega

theorem Fit.fits_hidden (h : s.Fit) {b : Buf} (hb : b = .hb ∨ b = .hb2) :
    Ptr.Fits s.config.bufLen (b, 0) s.hiddenDim := by
  have hlen : s.config.bufLen b = s.hiddenDim := by
    rcases hb with rfl | rfl <;> exact u64_int h.hiddenDim_lt
  show 0 + s.hiddenDim ≤ s.config.bufLen b
  omega

theorem Fit.fits_logits (h : s.Fit) : Ptr.Fits s.config.bufLen (.logits, 0) s.vocabSize := by
  have hlen : s.config.bufLen .logits = s.vocabSize := u64_int h.vocabSize_lt
  show 0 + s.vocabSize ≤ s.config.bufLen .logits
  omega

theorem Fit.fits_att (h : s.Fit) {i p : Nat} (hi : i < s.nHeads) (hp : p < s.seqLen) :
    Ptr.Fits s.config.bufLen (attAt s.config i) (p + 1) := by
  rw [h.attAt_eq hi]
  have hle : (i + 1) * s.seqLen ≤ s.nHeads * s.seqLen := Nat.mul_le_mul_right _ hi
  rw [Nat.add_mul, Nat.one_mul] at hle
  show i * s.seqLen + (p + 1) ≤ s.config.bufLen .att
  rw [h.bufLen_att]
  omega

/-- The part of a head lies in its buffer. -/
theorem head_le {i : Nat} (hi : i < s.nHeads) : i * s.headSize + s.headSize ≤ s.dim := by
  have hle : (i + 1) * s.headSize ≤ s.dim := Nat.mul_le_mul_right _ hi
  rwa [Nat.add_mul, Nat.one_mul] at hle

end Sizes

open Sizes

/-! ## The steps of a layer -/

theorem safe_each {n : Nat} {body : Nat → Cmd Ptr F Unit} {dom : Ptr → Bool}
    (h : ∀ i < n, (body i).Safe dom D D) : (Cmd.forUpto n body).Safe dom D D :=
  Cmd.Safe.forUpto (I := fun _ => D) h

/-- A step that reads and writes what is written already. -/
theorem safe_keep {α β : Type} {f : Cmd Ptr F α} {g : α → Cmd Ptr F β} {dom : Ptr → Bool} {E : Set Ptr}
    (hf : f.Safe dom D D) (hg : ∀ a, (g a).Safe dom D E) : (f.bind g).Safe dom D E := hf.bind hg

theorem safe_project (h : s.Roomy) {l p : Nat} (hl : l < s.nLayers) (hp : p < s.seqLen)
    (hx : Ptr.cells (.x, 0) s.dim ⊆ D) :
    (project ops s.config s.dims w file l p).Safe (inBuf s.config.bufLen) D
      (D ∪ Ptr.cells (.xb, 0) s.dim ∪ Ptr.cells (.q, 0) s.dim ∪
        Ptr.cells (.keyCache, l * s.seqLen * s.kvDim + p * s.kvDim) s.kvDim ∪
        Ptr.cells (.valueCache, l * s.seqLen * s.kvDim + p * s.kvDim) s.kvDim) := by
  have hfx := h.fits_dim (b := .x) (by simp)
  have hfb := h.fits_dim (b := .xb) (by simp)
  have hfq := h.fits_dim (b := .q) (by simp)
  have hlt := (layer_lt h.toFit h.cache_lt hl).2
  unfold project
  rw [h.cacheAt_eq _ hlt hp, h.cacheAt_eq _ hlt hp]
  refine (safe_rmsnorm hfb hfx hx).bind fun _ => ?_
  refine (safe_matmul hfq hfb Set.subset_union_right).bind fun _ => ?_
  refine (safe_matmul (h.fits_row (.inl rfl) hl hp) hfb ?_).bind fun _ => ?_
  · exact Set.subset_union_of_subset_left Set.subset_union_right _
  refine safe_matmul (h.fits_row (.inr rfl) hl hp) hfb ?_
  apply Set.subset_union_of_subset_left
  exact Set.subset_union_of_subset_left Set.subset_union_right _

theorem safe_rope (h : s.Roomy) {l p : Nat} (hl : l < s.nLayers) (hp : p < s.seqLen)
    (hq : Ptr.cells (.q, 0) s.dim ⊆ D)
    (hk : Ptr.cells (.keyCache, l * s.seqLen * s.kvDim + p * s.kvDim) s.kvDim ⊆ D) :
    (rope ops s.config s.dims l p).Safe (inBuf s.config.bufLen) D D := by
  have hdim := h.even_dim
  have hkv := h.kvDim_even
  have hlt := (layer_lt h.toFit h.cache_lt hl).2
  refine safe_each fun t ht => ?_
  have ht : t < (s.dim + 1) / 2 := ht
  refine (Cmd.Safe.ofOption _).bind fun headDim => ?_
  refine (safe_rotate (h.fits_dim (by simp)) (by omega) hq).bind fun _ => ?_
  by_cases hrotn : 2 * t < s.dims.kvDim.toNat
  · have hlt' : 2 * t < s.kvDim := hrotn
    rw [if_pos hrotn, h.cacheAt_eq _ hlt hp]
    exact safe_rotate (h.fits_row (.inl rfl) hl hp) (by omega) hk
  · rw [if_neg hrotn]
    exact .done ()

/-- The place of a head in the caches. -/
theorem safe_cacheHead (h : s.Roomy) {b : Buf} (hb : b = .keyCache ∨ b = .valueCache) {l p i : Nat}
    (hl : l < s.nLayers) (hp : p < s.seqLen) (hi : i < s.nHeads) {α : Type} {E : Set Ptr}
    {k : Ptr → Cmd Ptr F α}
    (hk : ∀ kt : Ptr, kt.Fits s.config.bufLen s.headSize →
      (∀ p', p < p' → kt.cells s.headSize ⊆ s.cached l p') → (k kt).Safe (inBuf s.config.bufLen) D E) :
    ((cacheHead s.config s.dims b l p i).bind k).Safe (inBuf s.config.bufLen) D E := by
  have hlt := (layer_lt h.toFit h.cache_lt hl).2
  have hg := h.div_kvMul_lt hi
  have hmul : i / s.kvMul * s.headSize + s.headSize ≤ s.kvDim := by
    have hle : (i / s.kvMul + 1) * s.headSize ≤ s.kvDim := Nat.mul_le_mul_right _ hg
    rwa [Nat.add_mul, Nat.one_mul] at hle
  have hword : mul64 (u64 ((i / s.kvMul : Nat) : Int)) (u64 s.dims.headSize) =
      i / s.kvMul * s.headSize := by
    have hgn : i / s.kvMul < s.nHeads := Nat.lt_of_le_of_lt (Nat.div_le_self _ _) hi
    rw [u64_int (Nat.lt_trans hgn (Nat.lt_of_le_of_lt h.nHeads_le h.dim_lt))]
    exact h.queryAt_eq hgn
  unfold cacheHead
  rw [h.divInt_kvMul]
  show (k ((cacheAt s.config s.dims b l p).at _)).Safe _ D E
  rw [hword, h.cacheAt_eq b hlt hp]
  have hrow := h.fits_row hb hl hp
  apply hk
  · show l * s.seqLen * s.kvDim + p * s.kvDim + i / s.kvMul * s.headSize + s.headSize ≤
      s.config.bufLen b
    have hrow : l * s.seqLen * s.kvDim + p * s.kvDim + s.kvDim ≤ s.config.bufLen b := hrow
    omega
  · intro p' hp'
    have hle : (p + 1) * s.kvDim ≤ p' * s.kvDim := Nat.mul_le_mul_right _ hp'
    rw [Nat.add_mul, Nat.one_mul] at hle
    refine subset_trans ?_ (cached_subset_left hb l p')
    apply Ptr.cells_subset
    · omega
    · omega

theorem safe_scores (h : s.Roomy) {l p i : Nat} (hl : l < s.nLayers) (hp : p < s.seqLen)
    (hi : i < s.nHeads) (hq : Ptr.cells (.q, 0) s.dim ⊆ D) (hcache : s.cached l (p + 1) ⊆ D) :
    (scores ops s.config s.dims l p i).Safe (inBuf s.config.bufLen) D
      (D ∪ (attAt s.config i).cells (p + 1)) := by
  have hhead := head_le hi
  have hquery : queryAt s.dims i = (.q, i * s.headSize) := congrArg _ (h.queryAt_eq hi)
  refine safe_fill fun tp htp => ?_
  have htp : tp < p + 1 := htp
  refine safe_cacheHead h (.inl rfl) hl (by omega) hi fun kt hfits hkt => ?_
  have hD := subset_trans (hkt (p + 1) htp) hcache
  refine safe_keep (Cmd.Safe.foldUpto_read fun j hj score => ?_) fun score => ?_
  · rw [hquery]
    refine safe_keep (safe_get (n := s.headSize) ?_ hj ?_) fun a => ?_
    · have hdim : 0 + s.dim ≤ s.config.bufLen .q := h.fits_dim (b := .q) (by simp)
      show i * s.headSize + s.headSize ≤ s.config.bufLen .q
      omega
    · exact subset_trans (Ptr.cells_subset (Nat.zero_le _) (by omega)) hq
    · exact (safe_get hfits hj hD).bind fun b => .done _
  · exact (safe_set (h.fits_att hi hp) htp _).mono subset_rfl Set.subset_union_right

theorem safe_mixValues (h : s.Roomy) {l p i : Nat} (hl : l < s.nLayers) (hp : p < s.seqLen)
    (hi : i < s.nHeads) (hxb : Ptr.cells (.xb, 0) s.dim ⊆ D) (hcache : s.cached l (p + 1) ⊆ D)
    (hatt : (attAt s.config i).cells (p + 1) ⊆ D) :
    (mixValues ops s.config s.dims l p i).Safe (inBuf s.config.bufLen) D D := by
  have hhead := head_le hi
  have hplace : xbAt s.dims i = (.xb, i * s.headSize) := congrArg _ (h.queryAt_eq hi)
  have hfits : (xbAt s.dims i).Fits s.config.bufLen s.headSize := by
    have hdim : 0 + s.dim ≤ s.config.bufLen .xb := h.fits_dim (b := .xb) (by simp)
    rw [hplace]
    show i * s.headSize + s.headSize ≤ s.config.bufLen .xb
    omega
  have hD : (xbAt s.dims i).cells s.headSize ⊆ D := by
    rw [hplace]
    exact subset_trans (Ptr.cells_subset (Nat.zero_le _) (by omega)) hxb
  refine safe_keep (safe_each fun j hj => ?_) fun _ => safe_each fun tp htp => ?_
  · exact (safe_set hfits hj _).mono subset_rfl Set.subset_union_left
  have htp : tp < p + 1 := htp
  refine safe_cacheHead h (.inr rfl) hl (by omega) hi fun vt hvt hcells => ?_
  refine safe_keep (safe_get (h.fits_att hi hp) htp hatt) fun a => safe_each fun j hj => ?_
  refine safe_keep (safe_get hfits hj hD) fun x => ?_
  refine safe_keep (safe_get hvt hj (subset_trans (hcells _ htp) hcache)) fun v => ?_
  exact (safe_set hfits hj _).mono subset_rfl Set.subset_union_left

theorem safe_attention (h : s.Roomy) {l p : Nat} (hl : l < s.nLayers) (hp : p < s.seqLen)
    (hq : Ptr.cells (.q, 0) s.dim ⊆ D) (hxb : Ptr.cells (.xb, 0) s.dim ⊆ D)
    (hcache : s.cached l (p + 1) ⊆ D) :
    (attention ops s.config s.dims l p).Safe (inBuf s.config.bufLen) D D := by
  refine safe_each fun i hi => ?_
  have hi : i < s.nHeads := hi
  have hmore : D ⊆ D ∪ (attAt s.config i).cells (p + 1) := Set.subset_union_left
  refine (safe_scores h hl hp hi hq hcache).bind fun _ => ?_
  refine safe_keep (safe_llmSoftmax (Nat.succ_pos p) (h.fits_att hi hp) Set.subset_union_right)
    fun _ => ?_
  refine (safe_mixValues h hl hp hi ?_ ?_ Set.subset_union_right).mono subset_rfl hmore
  · exact subset_trans hxb hmore
  · exact subset_trans hcache hmore

theorem safe_silu (h : s.Roomy) {i : Nat} (hi : i < s.hiddenDim)
    (hhb : Ptr.cells (.hb, 0) s.hiddenDim ⊆ D) (hhb2 : Ptr.cells (.hb2, 0) s.hiddenDim ⊆ D) :
    (silu ops i).Safe (inBuf s.config.bufLen) D D := by
  unfold silu
  rw [← Ptr.at_zero .hb, ← Ptr.at_zero .hb2]
  refine safe_keep (safe_get (h.fits_hidden (.inl rfl)) hi hhb) fun val => ?_
  refine safe_keep (safe_get (h.fits_hidden (.inr rfl)) hi hhb2) fun gate => ?_
  exact (safe_set (h.fits_hidden (.inl rfl)) hi _).mono subset_rfl Set.subset_union_left

theorem safe_feedForward (h : s.Roomy) {l : Nat} (hx : Ptr.cells (.x, 0) s.dim ⊆ D)
    (hxb : Ptr.cells (.xb, 0) s.dim ⊆ D) :
    (feedForward ops s.config w file l).Safe (inBuf s.config.bufLen) D D := by
  have hfx := h.fits_dim (b := .x) (by simp)
  have hfb := h.fits_dim (b := .xb) (by simp)
  have hfb2 := h.fits_dim (b := .xb2) (by simp)
  have hfh := h.fits_hidden (.inl rfl)
  have hfh2 := h.fits_hidden (.inr rfl)
  have hE : D ⊆ D ∪ Ptr.cells (.xb2, 0) s.dim ∪ Ptr.cells (.hb, 0) s.hiddenDim ∪
      Ptr.cells (.hb2, 0) s.hiddenDim := fun c hc => .inl (.inl (.inl hc))
  refine Cmd.Safe.mono ?_ subset_rfl hE
  refine (safe_matmul hfb2 hfb hxb).bind fun _ => ?_
  have hx₁ : Ptr.cells (.x, 0) s.dim ⊆ D ∪ Ptr.cells (.xb2, 0) s.dim := fun c hc => .inl (hx hc)
  have hxb₁ : Ptr.cells (.xb, 0) s.dim ⊆ D ∪ Ptr.cells (.xb2, 0) s.dim := fun c hc => .inl (hxb hc)
  refine safe_keep (safe_addTo hfx hfb2 hx₁ Set.subset_union_right) fun _ => ?_
  refine safe_keep ((safe_rmsnorm hfb hfx hx₁).mono subset_rfl Set.subset_union_left) fun _ => ?_
  refine (safe_matmul hfh hfb hxb₁).bind fun _ => ?_
  refine (safe_matmul hfh2 hfb fun c hc => .inl (hxb₁ hc)).bind fun _ => ?_
  refine safe_keep (safe_each fun i hi => safe_silu h hi (fun c hc => .inl (.inr hc))
    Set.subset_union_right) fun _ => ?_
  refine safe_keep ((safe_matmul hfb hfh fun c hc => .inl (.inr hc)).mono subset_rfl
    Set.subset_union_left) fun _ => ?_
  exact safe_addTo hfx hfb (fun c hc => .inl (.inl (hx₁ hc))) fun c hc => .inl (.inl (hxb₁ hc))

/-! ## The pass -/

theorem safe_layer (h : s.Roomy) {l p : Nat} (hl : l < s.nLayers) (hp : p < s.seqLen)
    (hx : Ptr.cells (.x, 0) s.dim ⊆ D) (hcache : s.cached l p ⊆ D) :
    (layer ops s.config s.dims w file p l).Safe (inBuf s.config.bufLen) D
      (D ∪ s.cached l (p + 1)) := by
  refine (safe_project h hl hp hx).bind fun _ => ?_
  have hrow : s.cached l (p + 1) ⊆ D ∪ Ptr.cells (.xb, 0) s.dim ∪ Ptr.cells (.q, 0) s.dim ∪
      Ptr.cells (.keyCache, l * s.seqLen * s.kvDim + p * s.kvDim) s.kvDim ∪
      Ptr.cells (.valueCache, l * s.seqLen * s.kvDim + p * s.kvDim) s.kvDim := by
    intro c hc
    rcases cached_succ l p hc with hc | hc | hc
    · exact .inl (.inl (.inl (.inl (hcache hc))))
    · exact .inl (.inr hc)
    · exact .inr hc
  refine safe_keep (safe_rope h hl hp (fun c hc => .inl (.inl (.inr hc)))
    fun c hc => .inl (.inr hc)) fun _ => ?_
  refine safe_keep (safe_attention h hl hp (fun c hc => .inl (.inl (.inr hc)))
    (fun c hc => .inl (.inl (.inl (.inr hc)))) hrow) fun _ => ?_
  refine (safe_feedForward h (fun c hc => .inl (.inl (.inl (.inl (hx hc)))))
    fun c hc => .inl (.inl (.inl (.inr hc)))).mono subset_rfl ?_
  apply Set.union_subset _ hrow
  exact fun c hc => .inl (.inl (.inl (.inl hc)))

/-- A pass reads the caches of the positions before its own, and extends them by its own. The logits
    are there at its end. -/
theorem safe_forward (h : s.Roomy) {p : Nat} (hp : p < s.seqLen) (token : Int) :
    (forward ops s.config w file token p).Safe (inBuf s.config.bufLen) (s.past s.nLayers p)
      (s.past s.nLayers (p + 1) ∪ Ptr.cells (.logits, 0) s.vocabSize) := by
  have hfx := h.fits_dim (b := .x) (by simp)
  have hdims : s.config.dims = some s.dims := by rw [h.dims_eq, if_pos h.kvDim_lt]
  have hlayers : u64 s.config.nLayers = s.nLayers := u64_int h.nLayers_lt
  unfold forward
  rw [hdims, hlayers]
  show Cmd.Safe _ _ (Cmd.bind (Cmd.forUpto _ _) _) _
  refine (safe_fill (o := (.x, 0)) fun i hi => ?_).bind fun _ => ?_
  · rw [← Ptr.at_zero]
    exact (safe_set hfx hi _).mono subset_rfl Set.subset_union_right
  have hx : Ptr.cells (.x, 0) s.dim ⊆ s.past s.nLayers p ∪ Ptr.cells (.x, 0) s.dim :=
    Set.subset_union_right
  -- a layer finds the caches of the earlier positions, whatever the layers before it have written
  have hlayer : ∀ l < s.nLayers, (layer ops s.config s.dims w file p l).Safe (inBuf s.config.bufLen)
      (s.past s.nLayers p ∪ Ptr.cells (.x, 0) s.dim ∪ {c | ∃ k < l, c ∈ s.cached k (p + 1)})
      (s.cached l (p + 1)) := by
    intro l hl
    refine (safe_layer h hl hp (fun c hc => .inl (hx hc)) ?_).mono subset_rfl Set.subset_union_right
    exact fun c hc => .inl (.inl ⟨l, hl, hc⟩)
  refine (Cmd.Safe.forUpto_union hlayer).bind fun _ => ?_
  refine safe_keep ((safe_rmsnorm hfx hfx fun c hc => .inl (hx hc)).mono subset_rfl
    Set.subset_union_left) fun _ => ?_
  refine (safe_matmul h.fits_logits hfx fun c hc => .inl (hx hc)).mono subset_rfl ?_
  exact Set.union_subset_union_left _ Set.subset_union_right

end ChocoOs.Llama
