import ChocoOs.Llama.KvCache
import ChocoOs.Llm.Isolation
import ChocoOs.Qwen.Forward
import Mathlib.Algebra.Group.Int.Defs
import Mathlib.Data.List.GetD

/-!
# Decoding from the whole text

An engine that keeps no run state but the tokens it was given, and computes the transformer for all of
them when it is asked for the next one. A call of `llama_generate` with the engine of `llm.c`, which
sees one token a pass and has everything else in its caches, emits and returns the same. So does a call of
`qwen_run`.
-/

namespace ChocoOs.Llm
open ProgLib ChocoOs.Tok ChocoOs.Llama

variable {F S : Type}

/-! ## The engine without a cache -/

/-- The tokens so far, and the sampler. -/
structure History (F : Type) where
  tokens : List Int
  temperature : F
  topp : F
  rngState : UInt64

/-- The tokens as a sequence. -/
def tokenAt (tokens : List Int) (i : Nat) : Int := tokens.getD i 0

section engine

variable (ops : FloatOps F) (s : Sizes) (w : TransformerWeights) (file : Nat → F)

/-- The logits that the transformer gives for the last of the tokens. -/
def textLogits (tokens : List Int) : Nat → F :=
  logitsOf ops s w file
    ((transformer ops s w file).stream (tokenAt tokens) s.nLayers (tokens.length - 1))

/-- A run state that holds some logits and nothing else. -/
def onlyLogits (n : Nat) (v : Nat → F) (c : Ptr) : Option F :=
  if c.1 = .logits ∧ c.2 < n then some (v c.2) else none

/-- What the sampler draws from some logits. -/
def drawFrom (v : Nat → F) (temperature topp : F) (rngState : UInt64) : Option (Int × UInt64) :=
  match (Llama.llmSample ops s.vocabSize temperature topp rngState).run (inBuf s.config.bufLen)
    (onlyLogits s.vocabSize v) with
  | .done r _ => some r
  | .stuck => none
  | .fault => none

/-- The engine that reads the whole text for each token. -/
def historyEngine : Engine (History F) where
  init tempCenti toppCenti seed :=
    ⟨[], ops.div (ops.ofInt tempCenti) (ops.ofInt 100), ops.div (ops.ofInt toppCenti) (ops.ofInt 100),
      UInt64.ofNat seed⟩
  forward e token _ := some { e with tokens := e.tokens ++ [token] }
  llmSample e :=
    (drawFrom ops s (textLogits ops s w file e.tokens) e.temperature e.topp e.rngState).map
      fun r => (r.1, { e with rngState := r.2 })

end engine

/-- Wherever the logits are, the sampler changes no other cell. -/
theorem touches_llmSample {ops : FloatOps F} {dom : Ptr → Bool} {n : Nat} {temperature topp : F}
    {rngState : UInt64} :
    (Llama.llmSample ops n temperature topp rngState).Touches dom {c | c.1 = .logits} := by
  have hlogit : ∀ i, Ptr.at (.logits, 0) i ∈ {c : Ptr | c.1 = Buf.logits} := fun _ => rfl
  have hsoftmax : (llmSoftmax ops (.logits, 0) n).Touches dom {c | c.1 = .logits} := by
    refine (Cmd.Touches.get _).bind fun _ => ?_
    refine Cmd.Touches.bind (.foldUpto fun i _ _ => ?_) fun _ => ?_
    · exact (Cmd.Touches.get _).bind fun _ => .done _
    refine Cmd.Touches.bind (.foldUpto fun i _ _ => ?_) fun _ => .forUpto fun i _ => ?_
    · exact (Cmd.Touches.get _).bind fun _ => (Cmd.Touches.set _ (hlogit i)).bind fun _ => .done _
    · exact (Cmd.Touches.get _).bind fun _ => .set _ (hlogit i)
  unfold Llama.llmSample
  split
  · refine Cmd.Touches.bind ((Cmd.Touches.get _).bind fun _ => ?_) fun _ => .done _
    refine Cmd.Touches.bind (.foldUpto fun i _ _ => ?_) fun _ => .done _
    exact (Cmd.Touches.get _).bind fun _ => .done _
  refine Cmd.Touches.bind (.forUpto fun i _ => ?_) fun _ => hsoftmax.bind fun _ => ?_
  · exact (Cmd.Touches.get _).bind fun _ => .set _ (hlogit i)
  split
  · refine Cmd.Touches.bind (Cmd.Touches.bind (.foldUpto fun i _ r => ?_) fun _ => .done _)
      fun _ => .done _
    obtain ⟨found, cdf⟩ := r
    cases found with
    | some _ => exact .done _
    | none => exact (Cmd.Touches.get _).bind fun _ => .done _
  · refine Cmd.Touches.bind (Cmd.Touches.bind (.foldUpto fun i _ _ => ?_) fun _ => .ofOption _)
      fun _ => .done _
    exact (Cmd.Touches.get _).bind fun _ => .done _

variable {ops : FloatOps F} {s : Sizes} {w : TransformerWeights} {file : Nat → F}

/-- The sampler draws from the logits, whatever else is in the run state. -/
theorem runSample_eq (ops : FloatOps F) (h : s.Roomy) (e : EngineState F) {v : Nat → F}
    (hv : Ptr.Holds e.memory (.logits, 0) s.vocabSize v) :
    match drawFrom ops s v e.temperature e.topp e.rngState with
    | some r => ∃ m, runSample ops s.config e = .done r m ∧ CachesKept e.memory m
    | none => runSample ops s.config e = .stuck := by
  have hsub : ∀ c x, onlyLogits s.vocabSize v c = some x → e.memory c = some x := by
    intro c x hc
    rw [onlyLogits] at hc
    split at hc
    · next hin =>
      obtain ⟨hbuf, hlt⟩ := hin
      have hcell : c = Ptr.at (.logits, 0) c.2 := by rw [Ptr.at_zero, ← hbuf]
      rw [hcell, hv c.2 hlt]
      exact hc
    · cases hc
  have hsafe := @safe_llmSample F ops s.config.bufLen _ s.vocabSize e.temperature e.topp e.rngState
    h.vocabSize_pos h.fits_logits subset_rfl
  have hnofault := hsafe.not_fault (m := onlyLogits s.vocabSize v) (by
    rintro c ⟨i, hi, rfl⟩
    rw [Ptr.at_zero, onlyLogits, if_pos ⟨rfl, hi⟩]
    exact Option.some_ne_none _)
  have hmono := @Cmd.run_mono Ptr F _ _ (inBuf s.config.bufLen)
    (Llama.llmSample ops s.vocabSize e.temperature e.topp e.rngState) _ _ hsub
  have hrun : runSample ops s.config e =
      (Llama.llmSample ops s.vocabSize e.temperature e.topp e.rngState).run (inBuf s.config.bufLen)
        e.memory := rfl
  rw [drawFrom, hrun]
  cases hout : (Llama.llmSample ops s.vocabSize e.temperature e.topp e.rngState).run
      (inBuf s.config.bufLen) (onlyLogits s.vocabSize v) with
  | done r m =>
    rw [hout] at hmono
    obtain ⟨m', hrun', -⟩ := hmono
    refine ⟨m', hrun', fun c hc => ?_⟩
    apply touches_llmSample _ _ _ hrun'
    rintro (hlogits : c.1 = .logits)
    rcases hc with hc | hc <;> rw [hc] at hlogits <;> cases hlogits
  | stuck =>
    rw [hout] at hmono
    exact hmono
  | fault => exact absurd hout hnofault

/-! ## The two engines -/

/-- The caches hold what the transformer computes for the tokens so far. -/
structure Remembers (ops : FloatOps F) (s : Sizes) (w : TransformerWeights) (file : Nat → F)
    (e : EngineState F) (e' : History F) : Prop where
  temperature : e'.temperature = e.temperature
  topp : e'.topp = e.topp
  rngState : e'.rngState = e.rngState
  cache : HoldsCache s e.memory ((transformer ops s w file).entries (tokenAt e'.tokens))
    e'.tokens.length 0

theorem tokenAt_append (tokens : List Int) (token : Int) {i : Nat} (hi : i < tokens.length) :
    tokenAt (tokens ++ [token]) i = tokenAt tokens i := by
  rw [tokenAt, tokenAt, List.getD_append _ _ _ _ hi]

theorem tokenAt_length (tokens : List Int) (token : Int) :
    tokenAt (tokens ++ [token]) tokens.length = token := by
  rw [tokenAt, List.getD_append_right _ _ _ _ (Nat.le_refl _), Nat.sub_self]
  rfl

/-- The entries of the earlier tokens do not depend on the next one. -/
theorem entries_append {X E : Type} (D : Decoder Int X E) (tokens : List Int) (token : Int) (l : Nat)
    {tp : Nat} (h : tp < tokens.length) :
    D.entries (tokenAt (tokens ++ [token])) l tp = D.entries (tokenAt tokens) l tp := by
  have hstream := D.stream_congr (p := tp)
    (fun i hi => tokenAt_append tokens token (Nat.lt_of_le_of_lt hi h)) l tp (Nat.le_refl tp)
  rw [Decoder.entries, hstream, Decoder.entries]

theorem Remembers.append {e : EngineState F} {e' : History F} (h : Remembers ops s w file e e')
    (token : Int) : HoldsCache s e.memory
      ((transformer ops s w file).entries (tokenAt (e'.tokens ++ [token]))) e'.tokens.length 0 := by
  intro k hk tp htp
  rw [entries_append _ _ _ _ (show tp < e'.tokens.length by omega)]
  exact h.cache k hk tp htp

/-- The same token, in states that remember the same text. -/
def SameToken (ops : FloatOps F) (s : Sizes) (w : TransformerWeights) (file : Nat → F) (n : Nat)
    (r : Int × Bool × EngineState F) (r' : Int × Bool × History F) : Prop :=
  r'.1 = r.1 ∧ r'.2.1 = r.2.1 ∧ Remembers ops s w file r.2.2 r'.2.2 ∧ r'.2.2.tokens.length = n

/-- A pass with the next token of the text. -/
theorem Remembers.forward (h : s.Roomy) {e : EngineState F} {e' : History F}
    (he : Remembers ops s w file e e') (token : Int) (hlt : e'.tokens.length < s.seqLen) :
    ∃ m, runForward ops s.config w file e token e'.tokens.length = .done () m ∧
      Passed ops s w file (tokenAt (e'.tokens ++ [token])) m (e'.tokens.length + 1) := by
  have hpass := (he.append token).forward h hlt
  rw [tokenAt_length] at hpass
  obtain ⟨_, m, hrun, hm⟩ := hpass
  exact ⟨m, hrun, hm⟩

theorem nextToken_history {prompt : List Int} (g : Gen (History F)) :
    nextToken (historyEngine ops s w file) prompt g =
      if g.pos < prompt.length - 1 then
        some (prompt.getD (g.pos + 1).toNat 0, false,
          { g.state with tokens := g.state.tokens ++ [g.token] })
      else (drawFrom ops s (textLogits ops s w file (g.state.tokens ++ [g.token]))
          g.state.temperature g.state.topp g.state.rngState).map fun r =>
        (r.1, true, { g.state with tokens := g.state.tokens ++ [g.token], rngState := r.2 }) := by
  rw [nextToken]
  show (if _ then _ else _) = _
  by_cases hprompt : g.pos < prompt.length - 1
  · rw [if_pos hprompt, if_pos hprompt]
    rfl
  · rw [if_neg hprompt, if_neg hprompt]
    simp only [historyEngine]
    cases drawFrom ops s (textLogits ops s w file (g.state.tokens ++ [g.token])) g.state.temperature
      g.state.topp g.state.rngState <;> rfl

/-- The next token is the same, and it is remembered. -/
theorem Remembers.nextToken (memory : Ptr → Option F) (h : s.Roomy) (prompt : List Int)
    {g : Gen (EngineState F)} {g' : Gen (History F)} (hg : Remembers ops s w file g.state g'.state)
    (htoken : g'.token = g.token) (hpos : g'.pos = g.pos) (hlen : g.pos = g'.state.tokens.length)
    (hlt : g'.state.tokens.length < s.seqLen) :
    Option.Rel (SameToken ops s w file (g'.state.tokens.length + 1))
      (Llm.nextToken (llamaEngine ops s.config w file memory) prompt g)
      (Llm.nextToken (historyEngine ops s w file) prompt g') := by
  obtain ⟨m, hrun, hm⟩ := hg.forward h g.token hlt
  rw [← hlen] at hrun
  have hcache : HoldsCache s m ((transformer ops s w file).entries
      (tokenAt (g'.state.tokens ++ [g.token]))) (g'.state.tokens ++ [g.token]).length 0 := by
    rw [List.length_append, List.length_singleton]
    exact hm.cache
  have hlength : (g'.state.tokens ++ [g.token]).length = g'.state.tokens.length + 1 := by
    rw [List.length_append, List.length_singleton]
  rw [nextToken_of_forward ops s.config w file hrun, nextToken_history, htoken, hpos]
  by_cases hprompt : g.pos < prompt.length - 1
  · rw [if_pos hprompt, if_pos hprompt]
    exact .some ⟨rfl, rfl, ⟨hg.temperature, hg.topp, hg.rngState, hcache⟩, hlength⟩
  rw [if_neg hprompt, if_neg hprompt]
  -- the sampler
  have hlogits : Ptr.Holds m (.logits, 0) s.vocabSize
      (textLogits ops s w file (g'.state.tokens ++ [g.token])) := by
    have hlast := hm.logits g'.state.tokens.length rfl
    rw [textLogits, hlength, Nat.add_sub_cancel]
    exact hlast
  have hsample := runSample_eq ops h { g.state with memory := m } hlogits
  simp only [llamaEngine, hg.temperature, hg.topp, hg.rngState]
  cases hdraw : drawFrom ops s (textLogits ops s w file (g'.state.tokens ++ [g.token]))
      g.state.temperature g.state.topp g.state.rngState with
  | none =>
    rw [hdraw] at hsample
    simp only at hsample
    rw [hsample]
    exact .none
  | some r =>
    rw [hdraw] at hsample
    obtain ⟨m', hrun', hkept⟩ := hsample
    rw [hrun']
    exact .some ⟨rfl, rfl, ⟨rfl, rfl, rfl, hcache.of_kept hkept⟩, hlength⟩

section quantized

/-- What `qwen_run` keeps between two rounds. -/
structure QwenState (F : Type) where
  caches : Qwen.Caches F
  logits : Nat → F
  temperature : F
  topp : F
  rngState : UInt64

/-- The tokens so far, the logits of the last, and the sampler. -/
structure QwenHistory (F : Type) where
  tokens : List Int
  logits : Nat → F
  temperature : F
  topp : F
  rngState : UInt64

variable (q : Qwen.Inference F)

/-- `llm_sample` with the logits of a pass. It overwrites them, and the next pass writes them all. -/
def qwenDraw (v : Nat → F) (temperature topp : F) (rngState : UInt64) : Option (Int × UInt64) :=
  match (Llama.llmSample q.ops.toFloatOps q.sizes.vocabSize temperature topp rngState).run
    (fun c => decide (c.1 = .logits ∧ c.2 < q.sizes.vocabSize)) (onlyLogits q.sizes.vocabSize v) with
  | .done r _ => some r
  | .stuck => none
  | .fault => none

/-- The engine of `qwen.c`, with what earlier calls have left in the run state. -/
def qwenEngine (caches : Qwen.Caches F) (logits : Nat → F) : Engine (QwenState F) where
  init tempCenti toppCenti seed :=
    ⟨caches, logits, q.ops.div (q.ops.ofInt tempCenti) (q.ops.ofInt 100),
      q.ops.div (q.ops.ofInt toppCenti) (q.ops.ofInt 100), UInt64.ofNat seed⟩
  forward e token pos :=
    (q.forward token pos.toNat e.caches).map fun r => { e with logits := r.1, caches := r.2 }
  llmSample e := (qwenDraw q e.logits e.temperature e.topp e.rngState).map
    fun r => (r.1, { e with rngState := r.2 })

/-- The engine that reads the whole text for each token. -/
def qwenTextEngine : Engine (QwenHistory F) where
  init tempCenti toppCenti seed :=
    ⟨[], q.written [], q.ops.div (q.ops.ofInt tempCenti) (q.ops.ofInt 100),
      q.ops.div (q.ops.ofInt toppCenti) (q.ops.ofInt 100), UInt64.ofNat seed⟩
  forward e token _ :=
    (q.logitsOf (tokenAt (e.tokens ++ [token])) e.tokens.length).map
      fun v => { e with tokens := e.tokens ++ [token], logits := v }
  llmSample e := (qwenDraw q e.logits e.temperature e.topp e.rngState).map
    fun r => (r.1, { e with rngState := r.2 })

variable {q}

/-- The caches hold what the decoder computes for the tokens so far. -/
structure QwenRemembers (q : Qwen.Inference F) (e : QwenState F) (e' : QwenHistory F) : Prop where
  temperature : e'.temperature = e.temperature
  topp : e'.topp = e.topp
  rngState : e'.rngState = e.rngState
  cache : Qwen.Inference.Holds q (tokenAt e'.tokens) e'.tokens.length 0 e.caches

/-- After a pass the logits are the same as well. -/
structure QwenPassed (q : Qwen.Inference F) (n : Nat) (e : QwenState F) (e' : QwenHistory F) : Prop
    extends QwenRemembers q e e' where
  logits : e'.logits = e.logits
  length : e'.tokens.length = n

theorem QwenRemembers.append {e : QwenState F} {e' : QwenHistory F} (h : QwenRemembers q e e')
    (token : Int) :
    Qwen.Inference.Holds q (tokenAt (e'.tokens ++ [token])) e'.tokens.length 0 e.caches := by
  intro k hk tp htp
  rw [entries_append _ _ _ _ (show tp < e'.tokens.length by omega)]
  exact h.cache k hk tp htp

/-- A pass with the next token of the text. -/
theorem QwenRemembers.forward (hfit : q.sizes.Fits) (caches : Qwen.Caches F) (logits : Nat → F)
    {e : QwenState F} {e' : QwenHistory F} (h : QwenRemembers q e e') (token : Int) {pos : Int}
    (hpos : pos = e'.tokens.length) (hlt : e'.tokens.length < q.sizes.seqLen) :
    Option.Rel (QwenPassed q (e'.tokens.length + 1)) ((qwenEngine q caches logits).forward e token pos)
      ((qwenTextEngine q).forward e' token pos) := by
  obtain ⟨hlogits, hnext⟩ := Qwen.Inference.forward_eq hfit hlt (h.append token)
  rw [tokenAt_length] at hlogits hnext
  simp only [qwenEngine, qwenTextEngine, hpos, Int.toNat_natCast]
  rw [← hlogits]
  cases hr : q.forward token e'.tokens.length e.caches with
  | none => exact .none
  | some r =>
    have hlength : (e'.tokens ++ [token]).length = e'.tokens.length + 1 := by
      rw [List.length_append, List.length_singleton]
    refine .some ⟨⟨h.temperature, h.topp, h.rngState, ?_⟩, rfl, hlength⟩
    show Qwen.Inference.Holds q _ (e'.tokens ++ [token]).length 0 r.2
    rw [hlength]
    exact hnext r hr

/-- The same token, in states that remember the same text. -/
def SameQwenToken (q : Qwen.Inference F) (n : Nat) (r : Int × Bool × QwenState F)
    (r' : Int × Bool × QwenHistory F) : Prop :=
  r'.1 = r.1 ∧ r'.2.1 = r.2.1 ∧ QwenRemembers q r.2.2 r'.2.2 ∧ r'.2.2.tokens.length = n

theorem QwenRemembers.nextToken (hfit : q.sizes.Fits) (caches : Qwen.Caches F)
    (logits : Nat → F) (prompt : List Int) {g : Gen (QwenState F)} {g' : Gen (QwenHistory F)}
    (h : QwenRemembers q g.state g'.state) (htoken : g'.token = g.token) (hpos : g'.pos = g.pos)
    (hlen : g.pos = g'.state.tokens.length) (hlt : g'.state.tokens.length < q.sizes.seqLen) :
    Option.Rel (SameQwenToken q (g'.state.tokens.length + 1))
      (Llm.nextToken (qwenEngine q caches logits) prompt g)
      (Llm.nextToken (qwenTextEngine q) prompt g') := by
  have hpass := h.forward hfit caches logits g.token hlen hlt
  rw [Llm.nextToken, Llm.nextToken, htoken, hpos]
  generalize (qwenEngine q caches logits).forward g.state g.token g.pos = r at hpass ⊢
  generalize (qwenTextEngine q).forward g'.state g.token g.pos = r' at hpass ⊢
  cases hpass with
  | none => exact .none
  | @some e e' he =>
    simp only [Option.bind_eq_bind, Option.bind_some]
    by_cases hprompt : g.pos < prompt.length - 1
    · rw [if_pos hprompt, if_pos hprompt]
      exact .some ⟨rfl, rfl, he.toQwenRemembers, he.length⟩
    rw [if_neg hprompt, if_neg hprompt]
    simp only [qwenEngine, qwenTextEngine, he.logits, he.temperature, he.topp, he.rngState]
    cases qwenDraw q e.logits e.temperature e.topp e.rngState with
    | none => exact .none
    | some r => exact .some ⟨rfl, rfl, ⟨rfl, rfl, rfl, he.cache⟩, he.length⟩

end quantized

end ChocoOs.Llm
