import ChocoOs.Lib.Transition
import ChocoOs.Llama.Leftover
import ChocoOs.Llama.Sample
import ChocoOs.Llm.Generate

/-!
# The rounds of a generation

The engine of `llm.c` as its forward pass and its sampler make it: programs over the run state, which
stays in memory from one call to the next. A call is a sequence of rounds, and all that is proved about
calls follows from what a round keeps.
-/

namespace ChocoOs.Llm
open ProgLib ChocoOs.Tok ChocoOs.Llama

/-! ## Rounds -/

section rounds

variable {E S : Type} (eng : Engine E) (t : Tokenizer S) (prompt : List Int) (echoPrompt : Bool)

/-- What a round does with the next token (`llm.c:562-578`). -/
def llamaAdvance (g : Gen E) (next : Int) (sampled : Bool) (e : E) : Except Result (Gen E) :=
  let generated := if sampled then g.generated + 1 else g.generated
  if next = 1 ∨ next = 2 then .error ⟨g.out, some generated⟩
  else if sampled ∨ echoPrompt then
    match llamaPiece t g.token next with
    | none => .error ⟨g.out, none⟩
    | some piece =>
      .ok ⟨next, g.pos + 1, generated, e, if piece ≠ [] then g.out ++ emits sampled piece else g.out⟩
  else .ok ⟨next, g.pos + 1, generated, e, g.out⟩

/-- A round of `llama_generate`: the end of the call, or the state of the next round. -/
def llamaRound (g : Gen E) : Except Result (Gen E) :=
  match nextToken eng prompt g with
  | none => .error ⟨g.out, none⟩
  | some (next, sampled, e) => llamaAdvance t echoPrompt g next sampled e

/-- The states in which a call begins a round, if it starts in `g₀`. -/
def Visits (steps : Int) (g₀ : Gen E) : Gen E → Prop :=
  Reach (fun g => g = g₀ ∧ g.pos < steps)
    fun g g' => llamaRound eng t prompt echoPrompt g = .ok g' ∧ g'.pos < steps

variable {eng t prompt echoPrompt}

theorem llamaLoop_round (k : Nat) (g : Gen E) : llamaLoop eng t prompt echoPrompt (k + 1) g =
    match llamaRound eng t prompt echoPrompt g with
    | .error r => r
    | .ok g' => llamaLoop eng t prompt echoPrompt k g' := by
  rw [llamaLoop, llamaRound]
  cases hnext : nextToken eng prompt g with
  | none => rfl
  | some r =>
    obtain ⟨next, sampled, e⟩ := r
    simp only [llamaAdvance]
    by_cases hend : next = 1 ∨ next = 2
    · rw [if_pos hend, if_pos hend]
    rw [if_neg hend, if_neg hend]
    by_cases hshow : sampled ∨ echoPrompt
    · rw [if_pos hshow, if_pos hshow]
      cases llamaPiece t g.token next <;> rfl
    · rw [if_neg hshow, if_neg hshow]

/-- What a round that goes on has done. -/
theorem llamaAdvance_ok {g g' : Gen E} {next : Int} {sampled : Bool} {e : E}
    (h : llamaAdvance t echoPrompt g next sampled e = .ok g') :
    g'.token = next ∧ g'.pos = g.pos + 1 ∧ g'.state = e := by
  unfold llamaAdvance at h
  extract_lets generated at h
  split at h
  · cases h
  split at h
  · split at h
    · cases h
    · cases h
      exact ⟨rfl, rfl, rfl⟩
  · cases h
    exact ⟨rfl, rfl, rfl⟩

theorem llamaRound_ok {g g' : Gen E} (h : llamaRound eng t prompt echoPrompt g = .ok g') :
    ∃ next sampled e, nextToken eng prompt g = some (next, sampled, e) ∧
      g'.token = next ∧ g'.pos = g.pos + 1 ∧ g'.state = e := by
  unfold llamaRound at h
  split at h
  · cases h
  next next sampled e hnext =>
  exact ⟨next, sampled, e, hnext, llamaAdvance_ok h⟩

/-- The state of the engine decides nothing but itself. -/
theorem llamaAdvance_state {g : Gen E} {e' : E} (next : Int) (sampled : Bool) (e₁ e₂ : E) :
    llamaAdvance t echoPrompt { g with state := e' } next sampled e₂ =
      (llamaAdvance t echoPrompt g next sampled e₁).map fun g₁ => { g₁ with state := e₂ } := by
  simp only [llamaAdvance]
  by_cases hend : next = 1 ∨ next = 2
  · rw [if_pos hend, if_pos hend]
    rfl
  rw [if_neg hend, if_neg hend]
  by_cases hshow : sampled ∨ echoPrompt
  · rw [if_pos hshow, if_pos hshow]
    cases llamaPiece t g.token next <;> rfl
  · rw [if_neg hshow, if_neg hshow]
    rfl

end rounds

/-! ## The engine -/

/-- What a call of the engine finds and leaves: the run state, and the sampler. Cells that nobody has
    written have no value. -/
structure EngineState (F : Type) where
  memory : Ptr → Option F
  temperature : F
  topp : F
  rngState : UInt64

section engine

variable {F : Type} (ops : FloatOps F) (c : Config) (w : TransformerWeights) (file : Nat → F)

/-- The outcome of a forward pass. -/
def runForward (e : EngineState F) (token pos : Int) : Outcome Ptr F Unit :=
  (Llama.forward ops c w file token pos).run (inBuf c.bufLen) e.memory

/-- The outcome of the sampler. -/
def runSample (e : EngineState F) : Outcome Ptr F (Int × UInt64) :=
  (Llama.llmSample ops c.vocabSize.toNat e.temperature e.topp e.rngState).run (inBuf c.bufLen) e.memory

/-- The engine of `llm.c`, when the run state is as the last call has left it. -/
def llamaEngine (memory : Ptr → Option F) : Engine (EngineState F) where
  init tempCenti toppCenti seed :=
    ⟨memory, ops.div (ops.ofInt tempCenti) (ops.ofInt 100), ops.div (ops.ofInt toppCenti) (ops.ofInt 100),
      UInt64.ofNat seed⟩
  forward e token pos :=
    match runForward ops c w file e token pos with
    | .done _ m => some { e with memory := m }
    | .stuck => none
    | .fault => none
  llmSample e :=
    match runSample ops c e with
    | .done r m => some (r.1, { e with memory := m, rngState := r.2 })
    | .stuck => none
    | .fault => none

/-- With a pass that ends, the next token comes from the prompt or from the sampler. -/
theorem nextToken_of_forward {memory : Ptr → Option F} {prompt : List Int} {g : Gen (EngineState F)}
    {m : Ptr → Option F} (h : runForward ops c w file g.state g.token g.pos = .done () m) :
    nextToken (llamaEngine ops c w file memory) prompt g =
      if g.pos < prompt.length - 1 then
        some (prompt.getD (g.pos + 1).toNat 0, false, { g.state with memory := m })
      else ((llamaEngine ops c w file memory).llmSample { g.state with memory := m }).map
        fun r => (r.1, true, r.2) := by
  have hforward : (llamaEngine ops c w file memory).forward g.state g.token g.pos =
      some { g.state with memory := m } := by
    simp only [llamaEngine, h]
  rw [nextToken, hforward]
  show (if _ then _ else _) = _
  by_cases hprompt : g.pos < prompt.length - 1
  · rw [if_pos hprompt, if_pos hprompt]
    rfl
  · rw [if_neg hprompt, if_neg hprompt]
    cases (llamaEngine ops c w file memory).llmSample { g.state with memory := m } <;> rfl

/-- Where the next token comes from, and what the state is after it. -/
theorem nextToken_cases {memory : Ptr → Option F} {prompt : List Int} {g : Gen (EngineState F)}
    {m : Ptr → Option F} {next : Int} {sampled : Bool} {e : EngineState F}
    (h : runForward ops c w file g.state g.token g.pos = .done () m)
    (hnext : nextToken (llamaEngine ops c w file memory) prompt g = some (next, sampled, e)) :
    (g.pos < prompt.length - 1 ∧ next = prompt.getD (g.pos + 1).toNat 0 ∧ e = { g.state with memory := m }) ∨
      ∃ r m', runSample ops c { g.state with memory := m } = .done r m' ∧ next = r.1 ∧
        e = { g.state with memory := m', rngState := r.2 } := by
  rw [nextToken_of_forward ops c w file h] at hnext
  split at hnext
  · next hprompt =>
    cases hnext
    exact .inl ⟨hprompt, rfl, rfl⟩
  · obtain ⟨⟨i, e'⟩, hsample, heq⟩ := Option.map_eq_some_iff.mp hnext
    cases heq
    simp only [llamaEngine] at hsample
    split at hsample
    · next r m' hrun =>
      cases hsample
      exact .inr ⟨r, m', hrun, rfl, rfl⟩
    · cases hsample
    · cases hsample

end engine

/-! ## What the rounds find in memory -/

section filled

variable {F S : Type} {ops : FloatOps F} {s : Sizes} {w : TransformerWeights} {file : Nat → F}
  {memory : Ptr → Option F} {t : Tokenizer S} {prompt : List Int} {echoPrompt : Bool}

/-- The caches hold the keys and values of all positions before that of the round. -/
def Filled (s : Sizes) (g : Gen (EngineState F)) : Prop :=
  ∃ p : Nat, g.pos = p ∧ ∀ x ∈ s.past s.nLayers p, g.state.memory x ≠ none

/-- A pass with filled caches ends, with more of the caches filled. -/
theorem Filled.forward {g : Gen (EngineState F)} (h : s.Roomy) (hg : Filled s g)
    (hpos : g.pos < s.seqLen) : ∃ m, runForward ops s.config w file g.state g.token g.pos = .done () m ∧
      (∀ x ∈ s.past s.nLayers (g.pos + 1).toNat, m x ≠ none) ∧
        ∀ x ∈ Ptr.cells (.logits, 0) s.vocabSize, m x ≠ none := by
  obtain ⟨p, hp, hfilled⟩ := hg
  have hlt : p < s.seqLen := by omega
  have hsafe := @safe_forward F ops s w file h p hlt g.token
  have hleaves := @leaves_forward F ops s w file (inBuf s.config.bufLen) h.toFit h.kvDim_lt g.token p
  have hrun : runForward ops s.config w file g.state g.token g.pos =
      (Llama.forward ops s.config w file g.token p).run (inBuf s.config.bufLen) g.state.memory := by
    rw [hp]
    rfl
  rw [hrun, show (g.pos + 1).toNat = p + 1 by omega]
  cases hout : (Llama.forward ops s.config w file g.token p).run (inBuf s.config.bufLen)
      g.state.memory with
  | done a m =>
    obtain ⟨-, hwritten⟩ := hsafe.written hfilled hout
    exact ⟨m, rfl, fun x hx => hwritten x (.inl hx), fun x hx => hwritten x (.inr hx)⟩
  | stuck => exact absurd hout (hleaves.not_stuck _)
  | fault => exact absurd hout (hsafe.not_fault hfilled)

/-- The sampler after it reads the logits. -/
theorem Filled.sample (h : s.Roomy) (e : EngineState F)
    (hlogits : ∀ x ∈ Ptr.cells (.logits, 0) s.vocabSize, e.memory x ≠ none) :
    (runSample ops s.config e ≠ .fault) ∧ ∀ r m, runSample ops s.config e = .done r m →
      ∀ x, e.memory x ≠ none → m x ≠ none := by
  have hsafe := @safe_llmSample F ops _ _ s.vocabSize e.temperature e.topp e.rngState h.vocabSize_pos
    h.fits_logits subset_rfl
  exact ⟨hsafe.not_fault hlogits, fun r m hrun => (hsafe.written hlogits hrun).1⟩

/-- A round fills the caches of its position. -/
theorem Filled.round {g g' : Gen (EngineState F)} (h : s.Roomy) (hg : Filled s g)
    (hpos : g.pos < s.seqLen)
    (hround : llamaRound (llamaEngine ops s.config w file memory) t prompt echoPrompt g = .ok g') :
    Filled s g' := by
  obtain ⟨next, sampled, e, hnext, -, hpos', hstate⟩ := llamaRound_ok hround
  obtain ⟨m, hforward, hpast, hlogits⟩ := @Filled.forward F ops s w file g h hg hpos
  obtain ⟨p, hp, -⟩ := hg
  refine ⟨p + 1, by omega, fun x hx => ?_⟩
  have hm : m x ≠ none := hpast x (by rwa [show (g.pos + 1).toNat = p + 1 by omega])
  rw [nextToken_of_forward ops s.config w file hforward] at hnext
  rw [hstate]
  split at hnext
  · obtain ⟨-, -, rfl⟩ : _ ∧ _ ∧ { g.state with memory := m } = e := by simpa using hnext
    exact hm
  obtain ⟨⟨i, e'⟩, hsample, heq⟩ := Option.map_eq_some_iff.mp hnext
  obtain ⟨-, -, rfl⟩ : i = next ∧ true = sampled ∧ e' = e := by simpa using heq
  obtain ⟨-, hkeep⟩ := @Filled.sample F ops s h { g.state with memory := m } hlogits
  simp only [llamaEngine] at hsample
  split at hsample
  · next r m' hrun =>
    obtain ⟨-, rfl⟩ := Prod.mk.inj (Option.some.inj hsample)
    exact hkeep r m' hrun x hm
  · cases hsample
  · cases hsample

/-- The caches are filled as far as they are needed in every round of a call. -/
theorem Filled.visits {steps : Int} {g₀ g : Gen (EngineState F)} (h : s.Roomy)
    (hsteps : steps ≤ s.seqLen) (h0 : g₀.pos = 0)
    (hg : Visits (llamaEngine ops s.config w file memory) t prompt echoPrompt steps g₀ g) :
    Filled s g ∧ g.pos < s.seqLen := by
  refine Reach.invariant (I := fun g => Filled s g ∧ g.pos < s.seqLen) ?_ ?_ hg
  · rintro g ⟨rfl, hlt⟩
    refine ⟨⟨0, h0, ?_⟩, by omega⟩
    rintro x ⟨l, -, ⟨i, hi, -⟩ | ⟨i, hi, -⟩⟩
    · rw [Nat.zero_mul] at hi
      cases hi
    · rw [Nat.zero_mul] at hi
      cases hi
  · rintro g g' ⟨hfilled, hlt⟩ ⟨hround, hlt'⟩
    exact ⟨hfilled.round h hlt hround, by omega⟩

end filled

end ChocoOs.Llm
