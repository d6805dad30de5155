import ChocoOs.Llama.Registry
import ChocoOs.Llama.TokenizerFile
import ChocoOs.Qwen.Load

/-!
# Loading a model

`load_model` of `llm.c`, called while nothing else uses the heap or the slots. As in `qwen.c` the
header says where the tensors are, and nothing is compared with the size of the file.
-/

namespace ChocoOs.Llama
open ProgLib ChocoOs.Tok ChocoOs.Heap ChocoOs.Qwen

/-- `Config` (`llm.c:23-32`) -/
structure Config where
  dim : Int
  hiddenDim : Int
  nLayers : Int
  nHeads : Int
  nKvHeads : Int
  vocabSize : Int
  seqLen : Int
  deriving DecidableEq

/-- The configuration at the beginning of the file (`llm.c:470`). -/
def readConfig (m : Mapped) : Config where
  dim := m.intAt 0
  hiddenDim := m.intAt 4
  nLayers := m.intAt 8
  nHeads := m.intAt 12
  nKvHeads := m.intAt 16
  vocabSize := m.intAt 20
  seqLen := m.intAt 24

/-- `TransformerWeights` (`llm.c:34-48`) -/
structure TransformerWeights where
  tokenEmbeddingTable : Nat
  rmsAttWeight : Nat
  rmsFfnWeight : Nat
  wq : Nat
  wk : Nat
  wv : Nat
  wo : Nat
  w1 : Nat
  w2 : Nat
  w3 : Nat
  rmsFinalWeight : Nat
  wcls : Nat

/-- `memory_map_weights` (`llm.c:68-99`) -/
def memoryMapWeights (c : Config) (ptr : Nat) (shared : Bool) : Option TransformerWeights := do
  let headSize ← divInt c.dim c.nHeads
  let heads ← mulInt c.nHeads headSize
  let kvHeads ← mulInt c.nKvHeads headSize
  let freqs ← mulInt c.seqLen headSize
  let layers := mul64 (u64 c.nLayers) (u64 c.dim)
  let rmsAtt := floatStep ptr (mul64 (u64 c.vocabSize) (u64 c.dim))
  let wq := floatStep rmsAtt layers
  let wk := floatStep wq (mul64 layers (u64 heads))
  let wv := floatStep wk (mul64 layers (u64 kvHeads))
  let wo := floatStep wv (mul64 layers (u64 kvHeads))
  let rmsFfn := floatStep wo (mul64 (mul64 (u64 c.nLayers) (u64 heads)) (u64 c.dim))
  let w1 := floatStep rmsFfn layers
  let w2 := floatStep w1 (mul64 layers (u64 c.hiddenDim))
  let w3 := floatStep w2 (mul64 (mul64 (u64 c.nLayers) (u64 c.hiddenDim)) (u64 c.dim))
  let rmsFinal := floatStep w3 (mul64 layers (u64 c.hiddenDim))
  let real := floatStep rmsFinal (u64 c.dim)
  let imag := floatStep real (u64 (freqs.tdiv 2))
  let last := floatStep imag (u64 (freqs.tdiv 2))
  return {
    tokenEmbeddingTable := ptr
    rmsAttWeight := rmsAtt
    rmsFfnWeight := rmsFfn
    wq, wk, wv, wo, w1, w2, w3
    rmsFinalWeight := rmsFinal
    wcls := if shared then ptr else last }

/-- What `alloc_run_state` asks `calloc` for. -/
def Config.runState (c : Config) : List (Nat × Nat) :=
  let kvDim := mul64 (u64 c.dim) (u64 c.nKvHeads) / u64 c.nHeads
  let cache := mul64 (mul64 (u64 c.nLayers) (u64 c.seqLen)) kvDim
  [(u64 c.dim, 4), (u64 c.dim, 4), (u64 c.dim, 4), (u64 c.hiddenDim, 4), (u64 c.hiddenDim, 4),
    (u64 c.dim, 4), (mul64 (u64 c.nHeads) (u64 c.seqLen), 4), (u64 c.vocabSize, 4), (cache, 4),
    (cache, 4)]

/-- `alloc_run_state` (`llm.c:101-119`). The second component says that it returns 0. -/
def allocRunState (pick : Pick) (c : Config) (heap : Arena) : Option (Arena × Bool) :=
  if c.nHeads = 0 then none else Client.callocs pick c.runState heap

/-- What `load_model` sets up (`llm.c:60-65`, `llm.c:425-432`). -/
structure Model where
  config : Config
  shared : Bool
  weights : TransformerWeights
  tokenizer : Tokenizer UInt32

/-- `snprintf(fname, sizeof(fname), "%s.bin", model)` (`llm.c:461-462`) -/
def fileName (model : ModelName) : List UInt8 := (model ++ [46, 98, 105, 110]).take 63

/-- `tokenizer_for` (`llm.c:437-442`) -/
def tokenizerFor (model : ModelName) : List UInt8 :=
  if model = [115, 116, 111, 114, 105, 101, 115, 50, 54, 48, 75] then
    [116, 111, 107, 53, 49, 50, 46, 98, 105, 110]
  else [116, 111, 107, 101, 110, 105, 122, 101, 114, 46, 98, 105, 110]

/-- A negative vocabulary size is made positive (`llm.c:472-473`). -/
def absVocab (c : Config) : Option Config :=
  if c.vocabSize < 0 then (mulInt (-1) c.vocabSize).map fun n => { c with vocabSize := n } else some c

/-- `load_model` after `module_find` (`llm.c:469-495`) -/
def loadFile (pick : Pick) (heap : Arena) (mod tok : Mapped) : Option (Arena × LoadResult Model) :=
  let shared := decide (0 < (readConfig mod).vocabSize)
  (absVocab (readConfig mod)).bind fun c =>
    (memoryMapWeights c (add64 mod.address 28) shared).bind fun w =>
      (allocRunState pick c heap).bind fun state =>
        if state.2 = false then some (state.1, .failed)
        else
          (buildTokenizer pick state.1 (tok.bytes 0 tok.size) c.vocabSize).map fun
            | (heap, none) => (heap, .failed)
            | (heap, some t) => (heap, .loaded ⟨c, shared, w, t⟩)

/-- `load_model` (`llm.c:444-496`). The slots are those of the registry. -/
def loadModel (pick : Pick) (heap : Arena) (slots : Fin 2 → ModelSlot)
    (moduleFind : List UInt8 → Option Mapped) (model : ModelName) :
    Option (Arena × LoadResult Model) :=
  if ∃ i, (slots i).loaded = true ∧ (slots i).name = model then some (heap, .already)
  else if ∀ i, (slots i).loaded = true then some (heap, .failed)
  else
    match moduleFind (fileName model), moduleFind (tokenizerFor model) with
    | some mod, some tok => loadFile pick heap mod tok
    | _, _ => some (heap, .failed)

/-! ## The extents of the tensors -/

/-- `head_size` -/
def Config.headSize (c : Config) : Int := c.dim.tdiv c.nHeads

/-- `memory_map_weights` computes its sizes. -/
structure Config.Computes (c : Config) : Prop where
  nHeads : c.nHeads ≠ 0
  headSize : ¬ (c.dim = -2 ^ 31 ∧ c.nHeads = -1)
  heads : -2 ^ 31 ≤ c.nHeads * c.headSize ∧ c.nHeads * c.headSize < 2 ^ 31
  kvHeads : -2 ^ 31 ≤ c.nKvHeads * c.headSize ∧ c.nKvHeads * c.headSize < 2 ^ 31
  freqs : -2 ^ 31 ≤ c.seqLen * c.headSize ∧ c.seqLen * c.headSize < 2 ^ 31

instance (c : Config) : Decidable c.Computes :=
  decidable_of_iff (c.nHeads ≠ 0 ∧ ¬ (c.dim = -2 ^ 31 ∧ c.nHeads = -1) ∧
    (-2 ^ 31 ≤ c.nHeads * c.headSize ∧ c.nHeads * c.headSize < 2 ^ 31) ∧
    (-2 ^ 31 ≤ c.nKvHeads * c.headSize ∧ c.nKvHeads * c.headSize < 2 ^ 31) ∧
    (-2 ^ 31 ≤ c.seqLen * c.headSize ∧ c.seqLen * c.headSize < 2 ^ 31))
    ⟨fun h => ⟨h.1, h.2.1, h.2.2.1, h.2.2.2.1, h.2.2.2.2⟩,
      fun h => ⟨h.nHeads, h.headSize, h.heads, h.kvHeads, h.freqs⟩⟩

/-- All pointers of the weights, each with the number of its bytes. -/
def TransformerWeights.extents (w : TransformerWeights) (c : Config) : List (Nat × Int) :=
  let heads := c.nHeads * c.headSize
  let kvHeads := c.nKvHeads * c.headSize
  [(w.tokenEmbeddingTable, 4 * (c.vocabSize * c.dim)), (w.rmsAttWeight, 4 * (c.nLayers * c.dim)),
    (w.wq, 4 * (c.nLayers * c.dim * heads)), (w.wk, 4 * (c.nLayers * c.dim * kvHeads)),
    (w.wv, 4 * (c.nLayers * c.dim * kvHeads)), (w.wo, 4 * (c.nLayers * heads * c.dim)),
    (w.rmsFfnWeight, 4 * (c.nLayers * c.dim)), (w.w1, 4 * (c.nLayers * c.dim * c.hiddenDim)),
    (w.w2, 4 * (c.nLayers * c.hiddenDim * c.dim)), (w.w3, 4 * (c.nLayers * c.dim * c.hiddenDim)),
    (w.rmsFinalWeight, 4 * c.dim)] ++ [(w.wcls, 4 * (c.vocabSize * c.dim))]

/-- The bytes of all tensors, as they lie in the file, up to the table for the rotations. -/
def Config.sizes (c : Config) : List Int :=
  let heads := c.nHeads * c.headSize
  let kvHeads := c.nKvHeads * c.headSize
  [4 * (c.vocabSize * c.dim), 4 * (c.nLayers * c.dim), 4 * (c.nLayers * c.dim * heads),
    4 * (c.nLayers * c.dim * kvHeads), 4 * (c.nLayers * c.dim * kvHeads),
    4 * (c.nLayers * heads * c.dim), 4 * (c.nLayers * c.dim), 4 * (c.nLayers * c.dim * c.hiddenDim),
    4 * (c.nLayers * c.hiddenDim * c.dim), 4 * (c.nLayers * c.dim * c.hiddenDim), 4 * c.dim]

/-- The bytes of the table that are skipped. -/
def Config.skipped (c : Config) : Int := 8 * (c.seqLen * c.headSize).tdiv 2

/-- The sizes that the header gives are no negative numbers, and there is room for them in the file
    behind the 28 bytes of the header; and for the classifier behind the table, if it is not shared. -/
def Config.Fits (c : Config) (shared : Bool) (size : Nat) : Prop :=
  (∀ z ∈ c.sizes, 0 ≤ z) ∧ 28 + c.sizes.sum ≤ size ∧
    (shared = false → u64 (28 + c.sizes.sum + c.skipped) + 4 * (c.vocabSize * c.dim) ≤ size)

instance (c : Config) (shared : Bool) (size : Nat) : Decidable (c.Fits shared size) := by
  unfold Config.Fits
  infer_instance

theorem memoryMapWeights_eq_none {c : Config} {ptr : Nat} {shared : Bool} (h : ¬ c.Computes) :
    memoryMapWeights c ptr shared = none := by
  by_contra hsome
  obtain ⟨w, hw⟩ := Option.ne_none_iff_exists'.mp hsome
  obtain ⟨headSize, hsize, hw⟩ := Option.bind_eq_some_iff.mp hw
  obtain ⟨heads, hheads, hw⟩ := Option.bind_eq_some_iff.mp hw
  obtain ⟨kvHeads, hkv, hw⟩ := Option.bind_eq_some_iff.mp hw
  obtain ⟨freqs, hfreqs, -⟩ := Option.bind_eq_some_iff.mp hw
  have hmul : ∀ {a b z : Int}, mulInt a b = some z → -2 ^ 31 ≤ a * b ∧ a * b < 2 ^ 31 := by
    intro a b z hz
    unfold mulInt at hz
    split at hz
    · assumption
    · cases hz
  unfold divInt at hsize
  split at hsize
  · cases hsize
  next hok =>
  obtain rfl : c.headSize = headSize := Option.some.inj hsize
  exact h ⟨fun h0 => hok (.inl h0), fun h1 => hok (.inr h1), hmul hheads, hmul hkv, hmul hfreqs⟩

/-- The tensors lie in the file exactly if they fit. -/
theorem memoryMapWeights_inside_iff {c : Config} (h : c.Computes) (m : Mapped) (shared : Bool) :
    ∃ w, memoryMapWeights c (add64 m.address 28) shared = some w ∧
      ((∀ x ∈ w.extents c, m.Inside x.1 x.2) ↔ c.Fits shared m.size) := by
  have hbase : add64 m.address 28 = u64 (m.address + (28 : Nat)) := by
    rw [← add64_u64, u64_of_natCast_lt (by rw [addrSpace_eq]; decide)]
  have hoff : 28 < addrSpace := by
    rw [addrSpace_eq]
    decide
  have hdiv : divInt c.dim c.nHeads = some c.headSize :=
    if_neg fun hno => hno.elim h.nHeads h.headSize
  have hheads : mulInt c.nHeads c.headSize = some (c.nHeads * c.headSize) := if_pos h.heads
  have hkv : mulInt c.nKvHeads c.headSize = some (c.nKvHeads * c.headSize) := if_pos h.kvHeads
  have hfreqs : mulInt c.seqLen c.headSize = some (c.seqLen * c.headSize) := if_pos h.freqs
  unfold memoryMapWeights
  simp only [hdiv, hheads, hkv, hfreqs, Option.bind_eq_bind, Option.bind_some, mul64_u64,
    floatStep_u64]
  refine ⟨_, rfl, ?_⟩
  rw [TransformerWeights.extents, List.forall_mem_append, hbase, List.forall_mem_singleton]
  have hranges := Mapped.ranges_inside_iff (m := m) hoff (List.cons_ne_nil _ _ : c.sizes ≠ [])
  refine (and_congr_left' hranges).trans ?_
  rw [Config.Fits, and_assoc]
  refine and_congr_right fun hpos => and_congr_right fun hsum => ?_
  have htokens : 0 ≤ 4 * (c.vocabSize * c.dim) := hpos _ (List.mem_cons_self ..)
  cases shared with
  | true =>
    -- the table of tokens is the first range
    refine iff_of_true ?_ nofun
    exact hranges.mpr ⟨hpos, hsum⟩ _ (List.mem_cons_self ..)
  | false =>
    have hlast : (m.address : Int) + ((28 : Nat) : Int) + 4 * (c.vocabSize * c.dim) +
        4 * (c.nLayers * c.dim) + 4 * (c.nLayers * c.dim * (c.nHeads * c.headSize)) +
        4 * (c.nLayers * c.dim * (c.nKvHeads * c.headSize)) +
        4 * (c.nLayers * c.dim * (c.nKvHeads * c.headSize)) +
        4 * (c.nLayers * (c.nHeads * c.headSize) * c.dim) + 4 * (c.nLayers * c.dim) +
        4 * (c.nLayers * c.dim * c.hiddenDim) + 4 * (c.nLayers * c.hiddenDim * c.dim) +
        4 * (c.nLayers * c.dim * c.hiddenDim) + 4 * c.dim + 4 * (c.seqLen * c.headSize).tdiv 2 +
        4 * (c.seqLen * c.headSize).tdiv 2 = m.address + (28 + c.sizes.sum + c.skipped) := by
      simp only [Config.sizes, Config.skipped, List.sum_cons, List.sum_nil]
      omega
    simp only [Bool.false_eq_true, if_false, u64_add_u64, forall_const]
    rw [hlast, Mapped.inside_offset, and_iff_right htokens]

/-! ## How the call ends -/

/-- The sizes of the blocks of the run state. -/
def Config.stateSizes (c : Config) : List Nat :=
  c.runState.map fun q => Client.callocTotal q.1 q.2

theorem allocRunState_eq {pick : Pick} {c : Config} (h : c.Computes) {heap : Arena}
    {r : Arena × Bool} : allocRunState pick c heap = some r ↔
      Client.Whole pick c.stateSizes heap ∧ Client.mallocs pick c.stateSizes heap = r := by
  rw [allocRunState, if_neg h.nHeads]
  exact Client.callocs_eq

/-- All pointers of the model, with all of their tensors, lie in the file. -/
def Model.Inside (file : Mapped) (m : Model) : Prop :=
  ∀ x ∈ m.weights.extents m.config, file.Inside x.1 x.2

theorem absVocab_bounds {c c' : Config} (hc : -2 ^ 31 ≤ c.vocabSize ∧ c.vocabSize < 2 ^ 31)
    (h : absVocab c = some c') : -2 ^ 31 ≤ c'.vocabSize ∧ c'.vocabSize < 2 ^ 31 := by
  unfold absVocab at h
  split at h
  · obtain ⟨n, hn, rfl⟩ := Option.map_eq_some_iff.mp h
    unfold mulInt at hn
    split at hn
    · next hrange =>
      cases hn
      exact hrange
    · cases hn
  · cases h
    exact hc

theorem readConfig_bounds (m : Mapped) :
    -2 ^ 31 ≤ (readConfig m).vocabSize ∧ (readConfig m).vocabSize < 2 ^ 31 := by
  simp only [readConfig]
  exact m.intAt_bounds 20

/-- No size of the header makes the loader trap, and if the heap grants all that it asks for and the
    tokenizer file is complete, then the tensors fit in the file. -/
def LoadsInside (pick : Pick) (heap : Arena) (file tok : Mapped) : Prop :=
  ∃ c, absVocab (readConfig file) = some c ∧ c.Computes ∧ Client.Whole pick c.stateSizes heap ∧
    (Client.Granted pick c.stateSizes heap →
      TokenizerLoads pick (Client.mallocs pick c.stateSizes heap).1 (tok.bytes 0 tok.size)
        c.vocabSize → c.Fits (decide (0 < (readConfig file).vocabSize)) file.size)

theorem loadFile_sound_iff (pick : Pick) {heap : Arena} (hmax : heap.hi - heap.lo ≤ heapMax)
    (file tok : Mapped) :
    Sound (Model.Inside file) (loadFile pick heap file tok) ↔ LoadsInside pick heap file tok := by
  unfold loadFile LoadsInside
  extract_lets shared
  have hraw := readConfig_bounds file
  cases hvocab : absVocab (readConfig file) with
  | none =>
    rw [Option.bind_none]
    exact iff_of_false not_sound_none fun ⟨c, hno, _⟩ => nomatch hno
  | some c =>
    have hone : ∀ P : Config → Prop, (∃ c', some c = some c' ∧ P c') ↔ P c := fun P =>
      ⟨fun ⟨c', heq, hp⟩ => Option.some.inj heq ▸ hp, fun hp => ⟨c, rfl, hp⟩⟩
    rw [hone, Option.bind_some]
    by_cases hcomputes : c.Computes
    swap
    · rw [memoryMapWeights_eq_none hcomputes, Option.bind_none]
      refine iff_of_false not_sound_none ?_
      rintro ⟨hno, -⟩
      exact hcomputes hno
    obtain ⟨w, hw, hinside⟩ := memoryMapWeights_inside_iff hcomputes file shared
    rw [hw, Option.bind_some, and_iff_right hcomputes, ← Client.mallocs_granted]
    cases hstate : allocRunState pick c heap with
    | none =>
      rw [Option.bind_none]
      refine iff_of_false not_sound_none fun h => ?_
      rw [(allocRunState_eq hcomputes).mpr ⟨h.1, rfl⟩] at hstate
      cases hstate
    | some state =>
      obtain ⟨hwhole, rfl⟩ := (allocRunState_eq hcomputes).mp hstate
      rw [and_iff_right hwhole, Option.bind_some]
      have hregion := Client.mallocs_region pick c.stateSizes heap
      generalize Client.mallocs pick c.stateSizes heap = state at hregion ⊢
      by_cases hfail : state.2 = false
      · rw [if_pos hfail]
        exact iff_of_true (sound_failed _) fun h => absurd (hfail.symm.trans h) Bool.false_ne_true
      rw [if_neg hfail, forall_prop_of_true (Bool.eq_true_of_not_eq_false hfail)]
      have hmax' : state.1.hi - state.1.lo ≤ heapMax := by
        rw [hregion.1, hregion.2]
        exact hmax
      obtain ⟨heap', t, hbuild, -, hloads⟩ :=
        buildTokenizer_eq pick (tok.bytes 0 tok.size) hmax' (absVocab_bounds hraw hvocab)
      rw [hbuild, Option.map_some]
      cases t with
      | none => exact iff_of_true (sound_failed _) fun h => absurd (hloads.mpr h) nofun
      | some t =>
        rw [sound_loaded, forall_prop_of_true (hloads.mp rfl)]
        exact hinside

/-- A model that is not loaded yet, with a slot for it, is loaded from its file. -/
theorem loadModel_eq {pick : Pick} {heap : Arena} {slots : Fin 2 → ModelSlot}
    {moduleFind : List UInt8 → Option Mapped} {model : ModelName} {file tok : Mapped}
    (hnew : ∀ i, (slots i).loaded = true → (slots i).name ≠ model)
    (hfree : ∃ i, (slots i).loaded = false) (hmod : moduleFind (fileName model) = some file)
    (htok : moduleFind (tokenizerFor model) = some tok) :
    loadModel pick heap slots moduleFind model = loadFile pick heap file tok := by
  have hno : ¬ ∃ i, (slots i).loaded = true ∧ (slots i).name = model := by
    rintro ⟨i, hi, hname⟩
    exact hnew i hi hname
  have hroom : ¬ ∀ i, (slots i).loaded = true := by
    obtain ⟨i, hi⟩ := hfree
    intro hall
    exact Bool.false_ne_true (hi.symm.trans (hall i))
  rw [loadModel, if_neg hno, if_neg hroom, hmod, htok]

/-! ## What a failed call leaves behind -/

theorem loadFile_unchanged_iff (used : Arena → Nat) (pick : Pick) {heap heap' : Arena}
    (hmax : heap.hi - heap.lo ≤ heapMax) {file tok : Mapped}
    (h : loadFile pick heap file tok = some (heap', .failed)) :
    Unchanged used heap heap' ↔ ∀ c, absVocab (readConfig file) = some c →
      Client.Refused pick c.stateSizes heap := by
  unfold loadFile at h
  obtain ⟨c, hvocab, h⟩ := Option.bind_eq_some_iff.mp h
  obtain ⟨w, hw, h⟩ := Option.bind_eq_some_iff.mp h
  obtain ⟨state, hstate, h⟩ := Option.bind_eq_some_iff.mp h
  have hcomputes : c.Computes := by
    by_contra hno
    rw [memoryMapWeights_eq_none hno] at hw
    cases hw
  have hone : (∀ c', absVocab (readConfig file) = some c' → Client.Refused pick c'.stateSizes heap) ↔
      Client.Refused pick c.stateSizes heap := by
    rw [hvocab]
    exact ⟨fun hall => hall c rfl, fun hc c' heq => Option.some.inj heq ▸ hc⟩
  obtain ⟨-, rfl⟩ := (allocRunState_eq hcomputes).mp hstate
  rw [hone]
  split at h
  · -- a buffer is refused
    obtain ⟨rfl, -⟩ := Prod.mk.inj (Option.some.inj h)
    constructor
    · exact fun hsame => Client.mallocs_live_iff.mp hsame.1
    · intro hrefused
      rw [Client.mallocs_of_refused hrefused]
      exact unchanged_refl used heap
  next hok =>
  have hgrant : Client.Granted pick c.stateSizes heap :=
    Client.mallocs_granted.mp (Bool.eq_true_of_not_eq_false hok)
  have hne := hgrant.not_refused
  obtain ⟨r, hbuild, h⟩ := Option.map_eq_some_iff.mp h
  have hregion := Client.mallocs_region pick c.stateSizes heap
  obtain ⟨heap₁, t, hbuild', hsuffix, -⟩ := buildTokenizer_eq pick (tok.bytes 0 tok.size)
    (hregion.1 ▸ hregion.2 ▸ hmax) (absVocab_bounds (readConfig_bounds file) hvocab)
  rw [hbuild'] at hbuild
  cases hbuild
  cases t with
  | none =>
    cases h
    exact iff_of_false (not_unchanged hne hsuffix) hne
  | some t => cases h

/-- When `load_model` fails the heap is as before exactly if both slots are taken, a file is missing,
    or the heap had refused every buffer of the run state. -/
theorem loadModel_unchanged_iff (used : Arena → Nat) (pick : Pick) {heap heap' : Arena}
    (hmax : heap.hi - heap.lo ≤ heapMax) {slots : Fin 2 → ModelSlot}
    {moduleFind : List UInt8 → Option Mapped} {model : ModelName}
    (h : loadModel pick heap slots moduleFind model = some (heap', .failed)) :
    Unchanged used heap heap' ↔ (∀ i, (slots i).loaded = true) ∨
      ∀ file tok c, moduleFind (fileName model) = some file →
        moduleFind (tokenizerFor model) = some tok → absVocab (readConfig file) = some c →
          Client.Refused pick c.stateSizes heap := by
  unfold loadModel at h
  split at h
  · cases h
  split at h
  · next hfull =>
    cases h
    exact iff_of_true (unchanged_refl used heap) (.inl hfull)
  next hroom =>
  rw [or_iff_right hroom]
  split at h
  · next file tok hmod htok =>
    rw [loadFile_unchanged_iff used pick hmax h, hmod, htok]
    constructor
    · rintro hall _ _ c heq - hvocab
      obtain rfl := Option.some.inj heq
      exact hall c hvocab
    · exact fun hall c => hall file tok c rfl rfl
  · next hmissing =>
    cases h
    exact iff_of_true (unchanged_refl used heap) fun file tok c hmod htok =>
      (hmissing file tok hmod htok).elim

end ChocoOs.Llama
