import ChocoOs.Llama.Draws
import ChocoOs.Llm.Isolation

/-!
# The coins of a call

What the sampler keeps from one round to the next. Its state of the random numbers begins with the seed, or
with 42 for the seed 0, and each round takes it one draw further or leaves it as it is.
-/

namespace ChocoOs.Llm
open ProgLib ChocoOs.Tok ChocoOs.Llama

section rounds

variable {F S : Type} {ops : FloatOps F} {c : Config} {w : TransformerWeights} {file : Nat → F}
  {memory : Ptr → Option F} {t : Tokenizer S} {prompt : List Int} {echoPrompt : Bool}

/-- The sampler after `e`: as it was, or after one more draw. -/
def DrawsOn (e e' : EngineState F) : Prop :=
  e'.temperature = e.temperature ∧ e'.topp = e.topp ∧
    (e'.rngState = e.rngState ∨ e'.rngState = nextState e.rngState)

/-- Without a pass that ends there is no next token. -/
theorem runForward_of_nextToken {g : Gen (EngineState F)} {r : Int × Bool × EngineState F}
    (hnext : nextToken (llamaEngine ops c w file memory) prompt g = some r) :
    ∃ m, runForward ops c w file g.state g.token g.pos = .done () m := by
  have hsome : (llamaEngine ops c w file memory).forward g.state g.token g.pos ≠ none := by
    intro hnone
    rw [nextToken, hnone] at hnext
    cases hnext
  cases hforward : runForward ops c w file g.state g.token g.pos with
  | done a m => exact ⟨m, rfl⟩
  | stuck => exact absurd (by simp only [llamaEngine, hforward]) hsome
  | fault => exact absurd (by simp only [llamaEngine, hforward]) hsome

/-- A pass leaves the sampler alone, and a token that is sampled takes at most one draw. -/
theorem drawsOn_nextToken {g : Gen (EngineState F)} {next : Int} {sampled : Bool} {e : EngineState F}
    (hnext : nextToken (llamaEngine ops c w file memory) prompt g = some (next, sampled, e)) :
    DrawsOn g.state e := by
  obtain ⟨m, hforward⟩ := runForward_of_nextToken hnext
  obtain ⟨-, -, rfl⟩ | ⟨r, m', hrun, -, rfl⟩ := nextToken_cases ops c w file hforward hnext
  · exact ⟨rfl, rfl, .inl rfl⟩
  · exact ⟨rfl, rfl, llmSample_rngState m m' r hrun⟩

/-- In every round of a call the sampler is where at most one draw for each round has taken it. -/
theorem sampler_visits {steps : Int} {g₀ g : Gen (EngineState F)}
    (hg : Visits (llamaEngine ops c w file memory) t prompt echoPrompt steps g₀ g) :
    g.state.temperature = g₀.state.temperature ∧ g.state.topp = g₀.state.topp ∧
      ∃ n : Nat, g₀.pos + n ≤ g.pos ∧ g.state.rngState = drawn n g₀.state.rngState := by
  refine Reach.invariant (I := fun g => g.state.temperature = g₀.state.temperature ∧
    g.state.topp = g₀.state.topp ∧
      ∃ n : Nat, g₀.pos + n ≤ g.pos ∧ g.state.rngState = drawn n g₀.state.rngState) ?_ ?_ hg
  · rintro g ⟨rfl, -⟩
    exact ⟨rfl, rfl, 0, by omega, rfl⟩
  · rintro g g' ⟨htemperature, htopp, n, hn, hstate⟩ ⟨hround, -⟩
    obtain ⟨next, sampled, e, hnext, -, hpos, rfl⟩ := llamaRound_ok hround
    obtain ⟨htemperature', htopp', hdraw⟩ := drawsOn_nextToken hnext
    refine ⟨htemperature'.trans htemperature, htopp'.trans htopp, ?_⟩
    rcases hdraw with hsame | hdrawn
    · exact ⟨n, by omega, hsame.trans hstate⟩
    · exact ⟨n + 1, by omega, by rw [hdrawn, hstate, drawn_succ]⟩

end rounds

/-! ## Every call -/

/-- The callers put 42 in the place of 0. -/
theorem rngState_startState_ne_zero {F : Type} {ops : FloatOps F} {c : Config} {w : TransformerWeights}
    {file : Nat → F} {memory : Ptr → Option F} {req : Request} (hseed : req.seed < 2 ^ 64) :
    (startState req (llamaEngine ops c w file memory)).rngState ≠ 0 := by
  intro hzero
  have hnat := congrArg UInt64.toNat hzero
  have hvalue : (if req.seed ≠ 0 then req.seed else 42) % 2 ^ 64 = 0 := hnat
  split at hvalue
  · next hne =>
    rw [Nat.mod_eq_of_lt hseed] at hvalue
    exact hne hvalue
  · exact absurd hvalue (by decide)

/-- In every round of `llama_generate` the coins come from a state that is not 0, with the temperature and
    the bound of the request. -/
theorem generate_draws {F S : Type} {ops : FloatOps F} {c : Config} (h : c.Shape) {w : TransformerWeights}
    {file : Nat → F} {t : Tokenizer S} {memory : Ptr → Option F} {req : Request} (hseed : req.seed < 2 ^ 64)
    {prompt : List Int} {steps : Int} {g : Gen (EngineState F)}
    (hg : Visits (llamaEngine ops c w file memory) t prompt req.echoPrompt steps
      (firstRound (llamaModel ops h w file t memory) req prompt) g) :
    g.state.temperature = ops.div (ops.ofInt req.tempCenti) (ops.ofInt 100) ∧
      g.state.topp = ops.div (ops.ofInt req.toppCenti) (ops.ofInt 100) ∧ g.state.rngState ≠ 0 := by
  obtain ⟨htemperature, htopp, n, -, hstate⟩ := sampler_visits hg
  have hstart := @rngState_startState_ne_zero F ops c w file memory req hseed
  refine ⟨htemperature, htopp, ?_⟩
  rw [hstate]
  exact drawn_ne_zero hstart n

/-- With the seed 0. -/
theorem generate_draws_boot :
    let g := firstRound (llamaModel intOps evenConfig_shape smallWeights smallFile smallTokenizer
      fun _ => some 7) smallRequest [1]
    g.state.temperature = intOps.div (intOps.ofInt smallRequest.tempCenti) (intOps.ofInt 100) ∧
      g.state.topp = intOps.div (intOps.ofInt smallRequest.toppCenti) (intOps.ofInt 100) ∧
      g.state.rngState ≠ 0 := by
  intro g
  have hstart : Visits (llamaEngine intOps evenConfig smallWeights smallFile fun _ => some 7)
      smallTokenizer [1] smallRequest.echoPrompt 2 g g := .init ⟨rfl, by decide⟩
  exact generate_draws evenConfig_shape (by decide) hstart

end ChocoOs.Llm
