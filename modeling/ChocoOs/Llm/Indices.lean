import ChocoOs.Llm.Isolation

/-!
# Where a generation points

`pos` stays in the context and every token in the vocabulary, from the prompt and from the sampler
alike. So each pass of `forward` keeps to the buffers of the run state.
-/

namespace ChocoOs.Llm
open ProgLib ChocoOs.Tok ChocoOs.Llama

/-! ## The tokens of a prompt -/

section prompt

variable {S : Type} {t : Tokenizer S} {gt : S → S → Bool} {floor : S} {cap max : Nat}

theorem dummyPrefix_valid (h : t.Built) {text : List UInt8} {toks toks' : List Nat} (hv : t.Valid toks)
    (hrun : dummyPrefix t max text toks = some toks') : t.Valid toks' := by
  unfold dummyPrefix at hrun
  split at hrun
  · cases hrun
    exact hv
  obtain ⟨found, hfound, hrun⟩ := Option.bind_eq_some_iff.mp hrun
  rw [h.tokLookup_eq] at hfound
  cases found with
  | none =>
    cases hrun
    exact hv
  | some id => exact push_valid hv (h.find_some (Option.some.inj hfound)).1 hrun

/-- Byte tokens are in a vocabulary of at least 259 strings. -/
theorem bytes_valid (hsize : 259 ≤ t.vocab.length) {str : List UInt8} {toks toks' : List Nat}
    (hv : t.Valid toks)
    (hrun : str.foldlM (fun toks b => push max toks (b.toNat + 3)) toks = some toks') :
    t.Valid toks' := by
  induction str generalizing toks with
  | nil =>
    cases hrun
    exact hv
  | cons b str ih =>
    rw [List.foldlM_cons] at hrun
    obtain ⟨toks₁, hpush, hrun⟩ := Option.bind_eq_some_iff.mp hrun
    have hb := b.toNat_lt
    exact ih (push_valid hv (by omega) hpush) hrun

theorem readText_valid (h : t.Built) (hsize : 259 ≤ t.vocab.length) {text : List UInt8}
    {toks toks' : List Nat} (hv : t.Valid toks) (hrun : readText t cap max text toks = some toks') :
    t.Valid toks' := by
  refine @loop_preserves _ _ (textRound t cap max) (fun p => t.Valid p.2.2) t.Valid ?_ ?_ _ _ _ hv hrun
  · rintro ⟨rest, str, toks⟩ r hts hdone
    cases rest with
    | nil =>
      cases hdone
      exact hts
    | cons b rest =>
      rw [textRound] at hdone
      generalize (if isContinuation b = true then str else []) ++ [b] = str' at hdone
      obtain ⟨buf, -, hdone⟩ := Option.bind_eq_some_iff.mp hdone
      split at hdone
      · cases hdone
      obtain ⟨found, -, hdone⟩ := Option.bind_eq_some_iff.mp hdone
      cases found with
      | some id =>
        obtain ⟨toks₁, -, hdone⟩ := Option.bind_eq_some_iff.mp hdone
        cases hdone
      | none =>
        obtain ⟨toks₁, -, hdone⟩ := Option.bind_eq_some_iff.mp hdone
        cases hdone
  · rintro ⟨rest, str, toks⟩ s' hts hnext
    cases rest with
    | nil => cases hnext
    | cons b rest =>
      rw [textRound] at hnext
      generalize (if isContinuation b = true then str else []) ++ [b] = str' at hnext
      obtain ⟨buf, -, hnext⟩ := Option.bind_eq_some_iff.mp hnext
      split at hnext
      · cases hnext
        exact hts
      obtain ⟨found, hfound, hnext⟩ := Option.bind_eq_some_iff.mp hnext
      rw [h.tokLookup_eq] at hfound
      cases found with
      | some id =>
        obtain ⟨toks₁, hpush, hnext⟩ := Option.bind_eq_some_iff.mp hnext
        cases hnext
        exact push_valid hts (h.find_some (Option.some.inj hfound)).1 hpush
      | none =>
        obtain ⟨toks₁, hpush, hnext⟩ := Option.bind_eq_some_iff.mp hnext
        cases hnext
        exact bytes_valid hsize hts hpush

/-- `encode` gives tokens of the vocabulary. -/
theorem encode_valid (h : t.Built) (hsize : 259 ≤ t.vocab.length) {pick : Pick} {heap heap' : Arena}
    {text : List UInt8} {toks : List Nat}
    (hrun : Llama.encode t gt floor max pick heap text true false = some (heap', toks)) :
    t.Valid toks := by
  obtain ⟨toks₁, hbos, hrun⟩ := Option.bind_eq_some_iff.mp hrun
  obtain ⟨toks₂, hprefix, hrun⟩ := Option.bind_eq_some_iff.mp hrun
  obtain ⟨toks₃, htext, hrun⟩ := Option.bind_eq_some_iff.mp hrun
  obtain ⟨toks₄, hmerge, hrun⟩ := Option.bind_eq_some_iff.mp hrun
  obtain ⟨heap₁, -, hrun⟩ := Option.bind_eq_some_iff.mp hrun
  cases hrun
  have hnil : t.Valid [] := nofun
  have hv₁ := push_valid hnil (show 1 < t.vocab.length by omega) hbos
  have hv₂ := dummyPrefix_valid h hv₁ hprefix
  have hv₃ := readText_valid h hsize hv₂ htext
  exact mergeAll_valid gt floor _ h hv₃ hmerge

end prompt

section rounds

variable {F S : Type} {ops : FloatOps F} {c : Config} {s : Sizes} {w : TransformerWeights}
  {file : Nat → F} {memory : Ptr → Option F} {t : Tokenizer S} {prompt : List Int} {echoPrompt : Bool}

/-- The tokens of the prompt, of which there is at least one, are in the vocabulary. -/
theorem llamaPrompt_valid {sys : System (EngineState F) S} {req : Request}
    {m : LlamaModel (EngineState F) S} (h : m.tokenizer.Built)
    (hlen : (m.tokenizer.vocab.length : Int) = m.vocabSize) (hsize : 259 ≤ m.vocabSize)
    (hprompt : llamaPrompt sys req m = .ok prompt) :
    prompt ≠ [] ∧ ∀ x ∈ prompt, 0 ≤ x ∧ x < m.vocabSize := by
  unfold llamaPrompt at hprompt
  extract_lets probindex tokens at hprompt
  split at hprompt
  · cases hprompt
  split at hprompt
  · cases hprompt
  split at hprompt
  · cases hprompt
  next heap toks hencode =>
  cases hprompt
  have hv := encode_valid h (by omega) hencode
  split
  · refine ⟨List.cons_ne_nil _ _, fun x hx => ?_⟩
    rw [List.mem_singleton.mp hx]
    omega
  · next hne =>
    constructor
    · intro hnil
      rw [List.map_eq_nil_iff] at hnil
      rw [hnil] at hne
      exact hne (Nat.lt_succ_self 0)
    · intro x hx
      obtain ⟨id, hid, rfl⟩ := List.mem_map.mp hx
      have hlt := hv id hid
      show (0 : Int) ≤ (id : Int) ∧ (id : Int) < m.vocabSize
      omega

/-- Where a round points: its position is in the context and its tokens are in the vocabulary, and
    the pass accesses nothing outside its buffers. -/
structure Points (ops : FloatOps F) (c : Config) (w : TransformerWeights) (file : Nat → F)
    (memory : Ptr → Option F) (prompt : List Int) (g : Gen (EngineState F)) : Prop where
  pos : 0 ≤ g.pos ∧ g.pos < c.seqLen
  token : 0 ≤ g.token ∧ g.token < c.vocabSize
  forward : ∃ m, runForward ops c w file g.state g.token g.pos = .done () m
  next : ∀ next sampled e, nextToken (llamaEngine ops c w file memory) prompt g =
    some (next, sampled, e) → 0 ≤ next ∧ next < c.vocabSize

/-- The next token is in the vocabulary. -/
theorem nextToken_valid (h : s.Roomy) {g : Gen (EngineState F)} (hg : Filled s g)
    (hpos : g.pos < s.seqLen) (hprompt : ∀ x ∈ prompt, 0 ≤ x ∧ x < (s.vocabSize : Int)) {next : Int}
    {sampled : Bool} {e : EngineState F}
    (hnext : nextToken (llamaEngine ops s.config w file memory) prompt g = some (next, sampled, e)) :
    0 ≤ next ∧ next < (s.vocabSize : Int) := by
  obtain ⟨m, hforward, -⟩ := @Filled.forward F ops s w file g h hg hpos
  obtain ⟨p, hp, -⟩ := hg
  obtain ⟨hlt, rfl, -⟩ | ⟨r, m', hrun, rfl, -⟩ := nextToken_cases ops s.config w file hforward hnext
  · apply hprompt
    have hin : (g.pos + 1).toNat < prompt.length := by omega
    rw [List.getD_eq_getElem?_getD, List.getElem?_eq_getElem hin, Option.getD_some]
    exact List.getElem_mem hin
  · have hdraw := @llmSample_lt F ops (inBuf s.config.bufLen) s.vocabSize g.state.temperature
      g.state.topp g.state.rngState h.vocabSize_pos
    exact hdraw m m' r hrun

theorem points_of_visits {steps : Int} {g₀ g : Gen (EngineState F)} (h : s.Roomy)
    (hsteps : steps ≤ s.seqLen) (h0 : g₀.pos = 0) (htoken : 0 ≤ g₀.token ∧ g₀.token < (s.vocabSize : Int))
    (hprompt : ∀ x ∈ prompt, 0 ≤ x ∧ x < (s.vocabSize : Int))
    (hg : Visits (llamaEngine ops s.config w file memory) t prompt echoPrompt steps g₀ g) :
    Points ops s.config w file memory prompt g := by
  have htokens : 0 ≤ g.token ∧ g.token < (s.vocabSize : Int) := by
    induction hg with
    | init hfirst =>
      obtain ⟨rfl, -⟩ := hfirst
      exact htoken
    | step hreach hstep =>
      obtain ⟨hfilled, hlt⟩ := Filled.visits h hsteps h0 hreach
      obtain ⟨next, sampled, e, hnext, heq, -⟩ := llamaRound_ok hstep.1
      rw [heq]
      exact nextToken_valid h hfilled hlt hprompt hnext
  obtain ⟨hfilled, hlt⟩ := Filled.visits h hsteps h0 hg
  obtain ⟨m, hforward, -⟩ := @Filled.forward F ops s w file g h hfilled hlt
  refine ⟨⟨?_, hlt⟩, htokens, ⟨m, hforward⟩, fun next sampled e hnext => ?_⟩
  · obtain ⟨p, hp, -⟩ := hfilled
    omega
  · exact nextToken_valid h hfilled hlt hprompt hnext

end rounds

/-! ## Every call -/

/-- With an even head size and products that fit their types, every round of `llama_generate` points
    where it should, whatever is in the run state. -/
theorem generate_indices {F S : Type} {c : Config} (hshape : c.Shape) (heven : 2 ∣ c.dim / c.nHeads)
    (hvocab : 259 ≤ c.vocabSize) (hint : c.dim * c.nKvHeads < 2 ^ 31)
    (hcache : c.nLayers * c.seqLen * (c.dim * c.nKvHeads / c.nHeads) < 2 ^ 64) (ops : FloatOps F)
    (w : TransformerWeights) (file : Nat → F) {t : Tokenizer S} (hbuilt : t.Built)
    (hlen : (t.vocab.length : Int) = c.vocabSize) (sys : System (EngineState F) S) (req : Request)
    (left : Ptr → F) {prompt : List Int}
    (hprompt : llamaPrompt sys req (llamaModel ops hshape w file t fun x => some (left x)) = .ok prompt)
    {g : Gen (EngineState F)}
    (hg : Visits (llamaEngine ops c w file fun x => some (left x)) t prompt req.echoPrompt
      (llamaSteps c.seqLen req.maxTokens)
      (firstRound (llamaModel ops hshape w file t fun x => some (left x)) req prompt) g) :
    Points ops c w file (fun x => some (left x)) prompt g := by
  obtain ⟨s, rfl, hfit⟩ := hshape.exists_sizes
  have hsize : (s.dim : Int) / s.nHeads = s.headSize := by
    rw [← Int.natCast_ediv, Sizes.dim, Nat.mul_div_cancel_left _ hfit.nHeads_pos]
  have hkv : (s.dim : Int) * s.kvHeads / s.nHeads = s.kvHeads * s.headSize := by
    rw [← Int.natCast_mul, Sizes.dim_mul_kvHeads, ← Int.natCast_ediv,
      Nat.mul_div_cancel_left _ hfit.nHeads_pos, Sizes.kvDim, Int.natCast_mul]
  have hroomy : s.Roomy := by
    apply (keyPairs_iff hfit).mp
    refine ⟨hint, ?_, hcache⟩
    show 2 ∣ (s.dim : Int) * s.kvHeads / s.nHeads
    rw [hkv]
    have heven : 2 ∣ (s.dim : Int) / s.nHeads := heven
    rw [hsize] at heven
    exact Dvd.dvd.mul_left heven _
  obtain ⟨hne, hvalid⟩ := llamaPrompt_valid hbuilt hlen hvocab hprompt
  refine points_of_visits hroomy (llamaSteps_le_seqLen _ _) rfl ?_ hvalid hg
  cases prompt with
  | nil => exact absurd rfl hne
  | cons x prompt => exact hvalid x (List.mem_cons_self ..)

/-- The smallest vocabulary with all byte tokens. -/
def byteConfig : Config := ⟨4, 1, 1, 2, 1, 259, 3⟩

theorem byteConfig_shape : byteConfig.Shape := ⟨by decide, by decide, by decide, by decide⟩

theorem zero_not_mem_letter : (0 : UInt8) ∉ [97] := by decide

def byteTokenizer : Tokenizer Nat :=
  .build (List.replicate 259 ⟨[97], zero_not_mem_letter⟩) (List.replicate 259 1) 31

theorem byteTokenizer_length : byteTokenizer.vocab.length = 259 := List.length_replicate ..

theorem byteTokenizer_built : byteTokenizer.Built := by
  apply Tokenizer.built_build
  · rw [List.length_replicate]
    decide
  · rw [List.length_replicate, List.length_replicate]
  · decide

def byteSystem : System (EngineState Int) Nat :=
  { smallSystem with pick := fun a _ => a.lo + 4096 * a.live.length }

/-- The first round of a call without a prompt. -/
theorem generate_indices_boot :
    Points intOps byteConfig smallWeights smallFile (fun _ => some 0) [1]
      (firstRound (llamaModel intOps byteConfig_shape smallWeights smallFile byteTokenizer
        fun _ => some 0) smallRequest [1]) := by
  have hprompt : llamaPrompt byteSystem smallRequest (llamaModel intOps byteConfig_shape smallWeights
      smallFile byteTokenizer fun _ => some 0) = .ok [1] := by decide +kernel
  have hlen : (byteTokenizer.vocab.length : Int) = byteConfig.vocabSize := by
    rw [byteTokenizer_length]
    rfl
  apply generate_indices byteConfig_shape (by decide) (by decide) (by decide) (by decide) intOps
    smallWeights smallFile byteTokenizer_built hlen byteSystem smallRequest (fun _ => 0) hprompt
  apply Reach.init
  exact ⟨rfl, by decide⟩

end ChocoOs.Llm
