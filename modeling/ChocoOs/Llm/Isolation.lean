import ChocoOs.Llm.Runs

/-!
# What a generation finds in the run state

The buffers of the run state are allocated once and never cleared. A call of `llama_generate` does not
depend on what an earlier one has left there exactly if the keys of a position are pairs. If they are an
odd number, then the first pass rotates its last key with the one behind it, which is left over.
-/

namespace ChocoOs.Llm
open ProgLib ChocoOs.Tok ChocoOs.Llama

variable {F S : Type} {ops : FloatOps F} {c : Config} {w : TransformerWeights} {file : Nat → F}
  {t : Tokenizer S} {prompt : List Int} {echoPrompt : Bool}

/-! ## Calls -/

/-- The pass of a round is carried out, and neither it nor the sampler reads what is not there. -/
def Clean (ops : FloatOps F) (c : Config) (w : TransformerWeights) (file : Nat → F) (prompt : List Int)
    (g : Gen (EngineState F)) : Prop :=
  ∃ m, runForward ops c w file g.state g.token g.pos = .done () m ∧
    (¬ g.pos < prompt.length - 1 → runSample ops c { g.state with memory := m } ≠ .fault)

/-- The loaded model, when `memory` is in its run state. -/
def llamaModel (ops : FloatOps F) {c : Config} (h : c.Shape) (w : TransformerWeights) (file : Nat → F)
    (t : Tokenizer S) (memory : Ptr → Option F) : LlamaModel (EngineState F) S where
  engine := llamaEngine ops c w file memory
  tokenizer := t
  vocabSize := c.vocabSize
  seqLen := c.seqLen
  seqLen_lt := h.int c.seqLen (by simp)

/-- `llama_generate` with a loaded model. -/
def generateWith (sys : System (EngineState F) S) (req : Request) (m : LlamaModel (EngineState F) S) :
    Result :=
  llamaGenerate { sys with llama := fun _ => some m } req

/-- Where the loop begins. -/
def firstRound (m : LlamaModel (EngineState F) S) (req : Request) (prompt : List Int) :
    Gen (EngineState F) :=
  ⟨prompt.headD 0, 0, 0, startState req m.engine, []⟩

/-- No round of the call reads a value that the call has not written itself, and what it emits and
    returns does not depend on what it finds in the run state. -/
structure Isolated (ops : FloatOps F) {c : Config} (h : c.Shape) (w : TransformerWeights)
    (file : Nat → F) (t : Tokenizer S) (sys : System (EngineState F) S) (req : Request) : Prop where
  clean : ∀ prompt, llamaPrompt sys req (llamaModel ops h w file t fun _ => none) = .ok prompt →
    ∀ g, Visits (llamaEngine ops c w file fun _ => none) t prompt req.echoPrompt
      (llamaSteps c.seqLen req.maxTokens)
      (firstRound (llamaModel ops h w file t fun _ => none) req prompt) g → Clean ops c w file prompt g
  same : ∀ left left' : Ptr → F,
    generateWith sys req (llamaModel ops h w file t fun x => some (left x)) =
      generateWith sys req (llamaModel ops h w file t fun x => some (left' x))

theorem generateWith_eq (sys : System (EngineState F) S) (req : Request)
    (m : LlamaModel (EngineState F) S) : generateWith sys req m =
      match llamaPrompt sys req m with
      | .error ret => .early ret
      | .ok prompt => llamaLoop m.engine m.tokenizer prompt req.echoPrompt
          (llamaSteps m.seqLen req.maxTokens).toNat (firstRound m req prompt) := rfl

/-! ## More in memory -/

/-- The same state with more in memory. -/
def EngineState.Extends (e e' : EngineState F) : Prop :=
  e' = { e with memory := e'.memory } ∧ ∀ x v, e.memory x = some v → e'.memory x = some v

/-- The same round with more in memory. -/
def Extends (g g' : Gen (EngineState F)) : Prop :=
  ∃ e', g' = { g with state := e' } ∧ g.state.Extends e'

theorem nextToken_extends {memory memory' : Ptr → Option F} {g g' : Gen (EngineState F)}
    (h : Extends g g') (hclean : Clean ops c w file prompt g) :
    match nextToken (llamaEngine ops c w file memory) prompt g with
    | none => nextToken (llamaEngine ops c w file memory') prompt g' = none
    | some (next, sampled, e) => ∃ e',
        nextToken (llamaEngine ops c w file memory') prompt g' = some (next, sampled, e') ∧
          e.Extends e' := by
  obtain ⟨e₀, rfl, he₀, hmem⟩ := h
  obtain ⟨m, hforward, hsample⟩ := hclean
  -- the pass
  have hpass := @Cmd.run_mono Ptr F Unit _ (inBuf c.bufLen)
    (Llama.forward ops c w file g.token g.pos) g.state.memory e₀.memory hmem
  unfold runForward at hforward
  rw [hforward] at hpass
  obtain ⟨m', hforward', hm⟩ := hpass
  rw [nextToken_of_forward ops c w file hforward,
    @nextToken_of_forward F ops c w file memory' prompt { g with state := e₀ } m' hforward']
  by_cases hprompt : g.pos < prompt.length - 1
  · rw [if_pos hprompt]
    refine ⟨{ e₀ with memory := m' }, if_pos hprompt, ?_, hm⟩
    rw [he₀]
  rw [if_neg hprompt]
  have hno : ¬ ({ g with state := e₀ } : Gen (EngineState F)).pos < prompt.length - 1 := hprompt
  rw [if_neg hno]
  -- the sampler
  have hdraw := @Cmd.run_mono Ptr F (Int × UInt64) _ (inBuf c.bufLen)
    (Llama.llmSample ops c.vocabSize.toNat g.state.temperature g.state.topp g.state.rngState) m m' hm
  have hsampler : Llama.llmSample ops c.vocabSize.toNat e₀.temperature e₀.topp e₀.rngState =
      Llama.llmSample ops c.vocabSize.toNat g.state.temperature g.state.topp g.state.rngState := by
    rw [he₀]
  have hnofault := hsample hprompt
  simp only [llamaEngine, runSample, hsampler] at hnofault ⊢
  cases hrun : (Llama.llmSample ops c.vocabSize.toNat g.state.temperature g.state.topp
      g.state.rngState).run (inBuf c.bufLen) m with
  | done r n =>
    rw [hrun] at hdraw
    obtain ⟨n', hrun', hn⟩ := hdraw
    rw [hrun']
    refine ⟨{ e₀ with memory := n', rngState := r.2 }, rfl, ?_, hn⟩
    rw [he₀]
  | stuck =>
    rw [hrun] at hdraw
    rw [hdraw]
    rfl
  | fault => exact absurd hrun hnofault

theorem llamaRound_extends {memory memory' : Ptr → Option F} {g g' : Gen (EngineState F)}
    (h : Extends g g') (hclean : Clean ops c w file prompt g) :
    match llamaRound (llamaEngine ops c w file memory) t prompt echoPrompt g with
    | .error r => llamaRound (llamaEngine ops c w file memory') t prompt echoPrompt g' = .error r
    | .ok g₁ => ∃ g₁', llamaRound (llamaEngine ops c w file memory') t prompt echoPrompt g' = .ok g₁' ∧
        Extends g₁ g₁' := by
  have hnext := @nextToken_extends F ops c w file prompt memory memory' g g' h hclean
  obtain ⟨e₀, rfl, -⟩ := h
  unfold llamaRound
  cases htoken : nextToken (llamaEngine ops c w file memory) prompt g with
  | none =>
    rw [htoken] at hnext
    simp only at hnext
    rw [hnext]
  | some r =>
    obtain ⟨next, sampled, e⟩ := r
    rw [htoken] at hnext
    obtain ⟨e', htoken', he'⟩ := hnext
    rw [htoken']
    simp only
    rw [@llamaAdvance_state _ S t echoPrompt g e₀ next sampled e e']
    cases hadv : llamaAdvance t echoPrompt g next sampled e with
    | error r => rfl
    | ok g₁ =>
      obtain ⟨-, -, rfl⟩ := llamaAdvance_ok hadv
      exact ⟨_, rfl, e', rfl, he'⟩

/-- Rounds that read only what the call has written come to the same with more in memory. -/
theorem llamaLoop_extends_memory {memory memory' : Ptr → Option F} {steps : Int}
    {g₀ g g' : Gen (EngineState F)} {k : Nat} (hk : g.pos + k = steps)
    (hclean : ∀ g, Visits (llamaEngine ops c w file memory) t prompt echoPrompt steps g₀ g →
      Clean ops c w file prompt g)
    (hg : g.pos < steps → Visits (llamaEngine ops c w file memory) t prompt echoPrompt steps g₀ g)
    (h : Extends g g') : llamaLoop (llamaEngine ops c w file memory') t prompt echoPrompt k g' =
      llamaLoop (llamaEngine ops c w file memory) t prompt echoPrompt k g := by
  induction k generalizing g g' with
  | zero =>
    obtain ⟨e₀, rfl, -⟩ := h
    rfl
  | succ k ih =>
    have hvisit := hg (by omega)
    have hround := @llamaRound_extends F S ops c w file t prompt echoPrompt memory memory' g g' h
      (hclean g hvisit)
    rw [llamaLoop_round, llamaLoop_round]
    cases hcase : llamaRound (llamaEngine ops c w file memory) t prompt echoPrompt g with
    | error r =>
      rw [hcase] at hround
      simp only at hround
      rw [hround]
    | ok g₁ =>
      rw [hcase] at hround
      obtain ⟨g₁', hround', hext⟩ := hround
      rw [hround']
      obtain ⟨-, -, -, -, -, hpos, -⟩ := llamaRound_ok hcase
      refine ih (by omega) (fun hlt => ?_) hext
      exact hvisit.step ⟨hcase, hlt⟩

/-! ## When a generation is isolated -/

/-- `kv_dim` is an `int` and an even number, and the caches are as large as they should be. -/
def KeyPairs (c : Config) : Prop :=
  c.dim * c.nKvHeads < 2 ^ 31 ∧ 2 ∣ c.dim * c.nKvHeads / c.nHeads ∧
    c.nLayers * c.seqLen * (c.dim * c.nKvHeads / c.nHeads) < 2 ^ 64

instance (c : Config) : Decidable (KeyPairs c) := by
  unfold KeyPairs
  infer_instance

theorem keyPairs_iff {s : Sizes} (h : s.Fit) : KeyPairs s.config ↔ s.Roomy := by
  have hkv : (s.dim : Int) * s.kvHeads / s.nHeads = (s.kvDim : Nat) := by
    rw [← Int.natCast_mul, Sizes.dim_mul_kvHeads, ← Int.natCast_ediv, Nat.mul_div_cancel_left _ h.nHeads_pos]
  have hpairs : KeyPairs s.config ↔ s.dim * s.kvHeads < 2 ^ 31 ∧ 2 ∣ s.kvDim ∧ s.cache < addrSpace := by
    show (s.dim : Int) * s.kvHeads < 2 ^ 31 ∧ 2 ∣ (s.dim : Int) * s.kvHeads / s.nHeads ∧
      (s.nLayers : Int) * s.seqLen * ((s.dim : Int) * s.kvHeads / s.nHeads) < 2 ^ 64 ↔ _
    rw [hkv, addrSpace_eq, Sizes.cache]
    norm_cast
  rw [hpairs]
  exact ⟨fun ⟨hint, heven, hcache⟩ => ⟨h, hcache, hint, heven⟩,
    fun h => ⟨h.kvDim_lt, h.kvDim_even, h.cache_lt⟩⟩

/-- In an allocated run state the floats of a buffer fit in the heap. -/
theorem bufLen_le {pick : Pick} {heap heap' : Arena} {c : Config}
    (h : allocRunState pick c heap = some (heap', true)) (b : Buf) :
    c.bufLen b * 4 ≤ heap.hi - heap.lo := by
  unfold allocRunState at h
  split at h
  · cases h
  refine (Heap.Client.callocs_le h (c.bufLen b, 4) ?_).2
  rw [c.runState_eq]
  cases b <;> simp

/-- The first pass goes wrong if the keys are not pairs. -/
theorem not_clean_first {pick : Pick} {heap heap' : Arena} {s : Sizes} (h : s.Fit)
    (hmax : heap.hi - heap.lo ≤ Heap.heapMax)
    (hstate : allocRunState pick s.config heap = some (heap', true)) (hpairs : ¬ s.Roomy)
    {g : Gen (EngineState F)} (hpos : g.pos = 0) (hblank : ∀ x, g.state.memory x = none) :
    ¬ Clean ops s.config w file prompt g := by
  rintro ⟨m, hdone, -⟩
  unfold runForward at hdone
  rw [hpos] at hdone
  by_cases hint : s.dim * s.kvHeads < 2 ^ 31
  swap
  · have hdims : s.config.dims = none := by rw [h.dims_eq, if_neg hint]
    unfold forward at hdone
    rw [hdims] at hdone
    cases hdone
  by_cases heven : 2 ∣ s.kvDim
  swap
  · have hfault := @faults_of_odd F ops s w file (inBuf s.config.bufLen) h hint heven g.token
    rw [hfault _ fun x _ => hblank x] at hdone
    cases hdone
  have hwrap : addrSpace ≤ s.cache := Nat.not_lt.mp fun hlt => hpairs ⟨h, hlt, hint, heven⟩
  -- the buffers are small
  have hcache := bufLen_le hstate .keyCache
  have hatt := bufLen_le hstate .att
  have hdim := bufLen_le hstate .x
  rw [h.bufLen_cache (.inl rfl)] at hcache
  rw [h.bufLen_att] at hatt
  rw [show s.config.bufLen .x = s.dim from h.bufLen_dim] at hdim
  have hseq : s.seqLen ≤ s.nHeads * s.seqLen := Nat.le_mul_of_pos_left _ h.nHeads_pos
  have hkv := h.kvDim_le
  have hheap : Heap.heapMax = 805306368 := by decide
  have hlayer : s.seqLen * s.kvDim ≤ 2 ^ 28 * 2 ^ 28 := Nat.mul_le_mul (by omega) (by omega)
  have hsmall : s.cache % addrSpace + s.seqLen * s.kvDim ≤ addrSpace := by
    rw [addrSpace_eq] at hcache ⊢
    omega
  have hfault := @faults_of_wrap F ops s w file h hint hwrap hsmall g.token
  rw [hfault _ nofun] at hdone
  cases hdone

theorem llamaSteps_pos {seqLen maxTokens : Int} (h : 0 < seqLen) : 0 < llamaSteps seqLen maxTokens := by
  unfold llamaSteps
  split <;> omega

theorem llamaSteps_le_seqLen (seqLen maxTokens : Int) : llamaSteps seqLen maxTokens ≤ seqLen := by
  unfold llamaSteps
  split <;> omega

/-- A call whose prompt is encoded is isolated exactly if the keys of a position are pairs; other calls
    do not come to a forward pass. -/
theorem generate_isolated_iff {pick : Pick} {heap heap' : Arena} (hshape : c.Shape)
    (hmax : heap.hi - heap.lo ≤ Heap.heapMax)
    (hstate : allocRunState pick c heap = some (heap', true)) (ops : FloatOps F)
    (w : TransformerWeights) (file : Nat → F) (t : Tokenizer S) (sys : System (EngineState F) S)
    (req : Request) : Isolated ops hshape w file t sys req ↔
      ((∃ prompt, llamaPrompt sys req (llamaModel ops hshape w file t fun _ => none) = .ok prompt) →
        KeyPairs c) := by
  obtain ⟨s, rfl, hfit⟩ := hshape.exists_sizes
  have hseq : (0 : Int) < s.config.seqLen := hshape.pos _ (by simp)
  rw [keyPairs_iff hfit]
  constructor
  · rintro ⟨hclean, -⟩ ⟨prompt, hprompt⟩
    by_contra hpairs
    refine @not_clean_first F ops w file prompt pick heap heap' s hfit hmax hstate hpairs
      (firstRound (llamaModel ops hshape w file t fun _ => none) req prompt) rfl (fun _ => rfl) ?_
    apply hclean prompt hprompt
    exact .init ⟨rfl, llamaSteps_pos hseq⟩
  intro hpairs
  have hclean : ∀ prompt,
      llamaPrompt sys req (llamaModel ops hshape w file t fun _ => none) = .ok prompt →
      ∀ g, Visits (llamaEngine ops s.config w file fun _ => none) t prompt req.echoPrompt
        (llamaSteps s.config.seqLen req.maxTokens)
        (firstRound (llamaModel ops hshape w file t fun _ => none) req prompt) g →
      Clean ops s.config w file prompt g := by
    intro prompt hprompt g hg
    have hroomy := hpairs ⟨prompt, hprompt⟩
    obtain ⟨hfilled, hlt⟩ := Filled.visits hroomy (llamaSteps_le_seqLen _ _) rfl hg
    obtain ⟨m, hdone, -, hlogits⟩ := @Filled.forward F ops s w file g hroomy hfilled hlt
    refine ⟨m, hdone, fun _ => ?_⟩
    exact (@Filled.sample F ops s hroomy { g.state with memory := m } hlogits).1
  -- with anything in the run state the call is the one that finds nothing there
  have hblank : ∀ left : Ptr → F,
      generateWith sys req (llamaModel ops hshape w file t fun x => some (left x)) =
        generateWith sys req (llamaModel ops hshape w file t fun _ => none) := by
    intro left
    rw [generateWith_eq, generateWith_eq]
    have heq : llamaPrompt sys req (llamaModel ops hshape w file t fun x => some (left x)) =
        llamaPrompt sys req (llamaModel ops hshape w file t fun _ => none) := rfl
    rw [heq]
    cases hprompt : llamaPrompt sys req (llamaModel ops hshape w file t fun _ => none) with
    | error ret => rfl
    | ok prompt =>
      have hsteps : 0 < llamaSteps s.config.seqLen req.maxTokens := llamaSteps_pos hseq
      have hrounds : (0 : Int) + ((llamaSteps s.config.seqLen req.maxTokens).toNat : Int) =
          llamaSteps s.config.seqLen req.maxTokens := by omega
      have hext : Extends (firstRound (llamaModel ops hshape w file t fun _ => none) req prompt)
          (firstRound (llamaModel ops hshape w file t fun x => some (left x)) req prompt) :=
        ⟨_, rfl, rfl, nofun⟩
      exact @llamaLoop_extends_memory F S ops s.config w file t prompt req.echoPrompt (fun _ => none)
        (fun x => some (left x)) (llamaSteps s.config.seqLen req.maxTokens) _ _ _ _ hrounds
        (hclean prompt hprompt) (fun hlt => .init ⟨rfl, hlt⟩) hext
  exact ⟨hclean, fun left left' => (hblank left).trans (hblank left').symm⟩

/-! ## Two small models -/

/-- Integers in the place of floats. Only the sine of 0 is 0. -/
def intOps : FloatOps Int where
  ofInt := id
  epsilon := 0
  add := (· + ·)
  sub := (· - ·)
  mul := (· * ·)
  div := fun a _ => a
  neg := fun a => -a
  lt := fun a b => decide (a < b)
  le := fun a b => decide (a ≤ b)
  eq := fun a b => decide (a = b)
  sqrtf_k := id
  expf_k := fun a => a + 1
  powf_k := fun _ _ => 1
  cosf_k := fun _ => 1
  sinf_k := id

/-- The weights of the classifier are apart from all others, and those of the first step of the feed
    forward too. -/
def smallWeights : TransformerWeights := ⟨0, 0, 0, 0, 0, 0, 0, 600, 0, 0, 0, 1000⟩

/-- The classifier prefers token 3 for positive numbers and token 4 for negative ones. -/
def smallFile (p : Nat) : Int :=
  if p < 600 then 1 else if p = 1024 then 1 else if p = 1032 then -1 else 0

def smallTokenizer : Tokenizer Nat :=
  .build [⟨[120], by decide⟩, ⟨[121], by decide⟩, ⟨[122], by decide⟩, ⟨[97], by decide⟩,
    ⟨[98], by decide⟩] [1, 1, 1, 1, 1] 31

theorem smallHeap_le : 0x20000 - 0x10000 ≤ Heap.heapMax := by decide

def smallSystem : System (EngineState Int) Nat where
  busy := false
  pick := fun a _ => a.lo + 1024 * a.live.length
  heap := ⟨0x10000, 0x20000, [], []⟩
  heap_le := smallHeap_le
  gt := fun a b => decide (b < a)
  floor := 0
  llama := fun _ => none
  qwen := none

/-- Two tokens without a prompt, the most likely ones. -/
def smallRequest : Request where
  model := [109]
  prompt := CString.nil
  maxTokens := 2
  tempCenti := 0
  toppCenti := 90
  seed := 0
  echoPrompt := false

/-- Two heads that share one key and one value. -/
def oddConfig : Config := ⟨2, 1, 1, 2, 1, 5, 3⟩

/-- The same with pairs. -/
def evenConfig : Config := ⟨4, 1, 1, 2, 1, 5, 3⟩

theorem oddConfig_shape : oddConfig.Shape := ⟨by decide, by decide, by decide, by decide⟩

theorem evenConfig_shape : evenConfig.Shape := ⟨by decide, by decide, by decide, by decide⟩

/-- A model with pairs answers the same whatever it finds. -/
theorem generate_isolated_boot :
    Isolated intOps evenConfig_shape smallWeights smallFile smallTokenizer smallSystem smallRequest := by
  have hstate : (allocRunState smallSystem.pick evenConfig smallSystem.heap).map (fun r => r.2) =
      some true := by decide +kernel
  obtain ⟨⟨heap', granted⟩, hstate, rfl⟩ := Option.map_eq_some_iff.mp hstate
  apply (generate_isolated_iff evenConfig_shape smallSystem.heap_le hstate intOps smallWeights smallFile
    smallTokenizer smallSystem smallRequest).mpr
  intro _
  decide

/-- What this model says with the same number everywhere in its run state. -/
def oddOutput (left : Int) : List (List UInt8) :=
  (generateWith smallSystem smallRequest (llamaModel intOps oddConfig_shape smallWeights smallFile
    smallTokenizer fun _ => some left)).out.map fun e => e.text

/-- With one key a position the second token depends on what was in the caches before. -/
theorem not_generate_isolated :
    (allocRunState smallSystem.pick oddConfig smallSystem.heap).map (fun r => r.2) = some true ∧
      ¬ ∀ left left' : Ptr → Int,
        generateWith smallSystem smallRequest (llamaModel intOps oddConfig_shape smallWeights smallFile
          smallTokenizer fun x => some (left x)) =
        generateWith smallSystem smallRequest (llamaModel intOps oddConfig_shape smallWeights smallFile
          smallTokenizer fun x => some (left' x)) := by
  refine ⟨by decide +kernel, fun h => ?_⟩
  have hzero : oddOutput 0 = [[97], [97]] := by decide +kernel
  have hlarge : oddOutput 100 = [[97], [98]] := by decide +kernel
  have hsame : oddOutput 0 = oddOutput 100 := by
    unfold oddOutput
    rw [h (fun _ => 0) fun _ => 100]
  rw [hzero, hlarge] at hsame
  cases hsame

end ChocoOs.Llm
