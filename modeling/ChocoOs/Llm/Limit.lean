import ChocoOs.Llm.Answer

/-!
# The token limit

`llama_generate` stops at the position `max_tokens`, so it draws no more tokens than that.
`qwen_run` stops `max_tokens` positions behind the end of the prompt; as the first token of the
answer is drawn at the last position of the prompt, this is one token more.
-/

namespace ChocoOs.Llm
open ProgLib ChocoOs.Tok

variable {E S : Type}

/-! ## The number of prompt tokens -/

theorem length_push {max : Nat} {toks toks' : List Nat} {id : Nat}
    (h : Tok.push max toks id = some toks') : toks'.length ≤ max := by
  unfold Tok.push at h
  split at h
  · next hlt =>
    obtain rfl : toks ++ [id] = toks' := by simpa using h
    rw [List.length_append]
    exact hlt
  · cases h

theorem length_mergeAll_le {t : Tokenizer S} {gt : S → S → Bool} {floor : S} {cap : Nat}
    {toks toks' : List Nat} (h : mergeAll t gt floor cap toks = some toks') :
    toks'.length ≤ toks.length := by
  refine loop_preserves (fun l => l.length ≤ toks.length) (fun l => l.length ≤ toks.length) ?_ ?_ _ _ _
    (Nat.le_refl _) h
  · intro l r hl hround
    rcases mergeRound_cases gt floor cap hround with hstep | ⟨k, id, -, hstep⟩
    · cases hstep
      exact hl
    · cases hstep
  · intro l l' hl hround
    exact (length_mergeRound gt floor cap hround).trans hl

/-- One round over the text keeps within the caller's array. -/
theorem length_textRound {t : Tokenizer S} {cap max : Nat} {p : List UInt8 × List Nat}
    {step : LoopStep (List UInt8 × List Nat) (List Nat)} (hp : p.2.length ≤ max)
    (h : Qwen.textRound t cap max p = some step) :
    match step with
    | .next q => q.2.length ≤ max
    | .done l => l.length ≤ max := by
  obtain ⟨text, l⟩ := p
  cases text with
  | nil => cases h; exact hp
  | cons b rest =>
    obtain ⟨found, -, h⟩ := Option.bind_eq_some_iff.mp h
    rcases found with - | ⟨id, k⟩
    · obtain ⟨str, -, h⟩ := Option.bind_eq_some_iff.mp h
      obtain ⟨look, -, h⟩ := Option.bind_eq_some_iff.mp h
      cases look with
      | none => cases h; exact hp
      | some id =>
        obtain ⟨l', hpush, h⟩ := Option.bind_eq_some_iff.mp h
        cases h
        exact length_push hpush
    · obtain ⟨l', hpush, h⟩ := Option.bind_eq_some_iff.mp h
      cases h
      exact length_push hpush

theorem length_readText {t : Tokenizer S} {cap max : Nat} {text : List UInt8} {toks : List Nat}
    (h : Qwen.readText t cap max text = some toks) : toks.length ≤ max := by
  refine loop_preserves (fun p => p.2.length ≤ max) (fun l => l.length ≤ max) ?_ ?_ _ _ _
    (Nat.zero_le _) h
  · exact fun p l hp hround => length_textRound hp hround
  · exact fun p q hp hround => length_textRound hp hround

/-- The tokens of a text fit into the caller's array. -/
theorem length_encode {t : Tokenizer S} {gt : S → S → Bool} {floor : S} {max : Nat} {pick : Pick}
    {heap heap' : Arena} {text : List UInt8} {toks : List Nat}
    (h : Qwen.encode t gt floor max pick heap text = some (heap', toks)) : toks.length ≤ max := by
  unfold Qwen.encode at h
  extract_lets r at h
  split at h
  · cases h
    exact Nat.zero_le _
  · obtain ⟨l, hread, h⟩ := Option.bind_eq_some_iff.mp h
    obtain ⟨l', hmerge, h⟩ := Option.bind_eq_some_iff.mp h
    obtain ⟨arena, -, h⟩ := Option.bind_eq_some_iff.mp h
    cases h
    exact Nat.le_trans (length_mergeAll_le hmerge) (length_readText hread)

/-- There is a prompt token, and their array fits into the heap. -/
theorem qwenPrompt_ok {sys : System E S} {req : Request} {m : QwenModel E S} {prompt : List Int}
    (h : qwenPrompt sys req m = .ok prompt) : prompt ≠ [] ∧ prompt.length < 2 ^ 31 := by
  unfold qwenPrompt at h
  extract_lets rlen rendered tokens probindex at h
  split at h
  · cases h
  next hgrant =>
  simp only [not_or] at hgrant
  split at h
  · cases h
  next arena toks hencode =>
  split at h
  · cases h
  next hne =>
  obtain rfl : toks.map Int.ofNat = prompt := by simpa using h
  have hle := length_encode hencode
  have hroom := (Arena.length_le_of_alloc hgrant.2.1).1
  have hregion := Arena.alloc_region sys.pick rlen sys.heap
  have hheap := sys.heap_le
  have hmax : Heap.heapMax = 805306368 := by decide
  rw [hregion.1, hregion.2] at hroom
  refine ⟨fun hnil => ?_, ?_⟩
  · rw [List.map_eq_nil_iff] at hnil
    rw [hnil] at hne
    exact hne Nat.zero_lt_one
  · rw [List.length_map]
    omega

/-! ## The number of rounds -/

/-- The rounds of `qwen_run` after the prompt: one more than the limit, if the context has room. -/
def answerRounds (seqLen n maxTokens : Int) : Nat := (min seqLen (n + maxTokens) - (n - 1)).toNat

theorem addInt_of_lt {a b : Int} (hlo : 0 ≤ a + b) (hhi : a + b < 2 ^ 31) : addInt a b = a + b := by
  unfold addInt
  omega

theorem addInt_of_wrap {a b : Int} (ha : 0 ≤ a ∧ a < 2 ^ 31) (hb : 0 ≤ b ∧ b < 2 ^ 31)
    (h : 2 ^ 31 ≤ a + b) : addInt a b < 0 := by
  unfold addInt
  omega

/-- `qwen_run` after a prompt: the answer of its model, with as many tokens as there are rounds
    left. -/
theorem qwenLoop_answer (m : QwenModel E S) (req : Request) {prompt : List Int} (hne : prompt ≠ [])
    (steps : Int) :
    let r := qwenLoop m.engine m.tokenizer m.bosTokenId m.eosTokenId prompt steps.toNat
      ⟨prompt.headD 0, 0, 0, startState req m.engine, []⟩
    let k := (steps - (prompt.length - 1)).toNat
    r.out = (m.answer req prompt k).flatMap (shown m.tokenizer) ∧
      (∀ n, r.ret = some n → n = (m.answer req prompt k).length) ∧
      (m.answer req prompt k ≠ [] → (m.answer req prompt k).length = k → r.ret = some k) := by
  intro r k
  obtain ⟨a, rest, rfl⟩ := List.exists_cons_of_ne_nil hne
  by_cases hshort : steps ≤ rest.length
  · -- the loop ends with the prompt
    have hk : k = 0 := by
      simp only [k, List.length_cons]
      omega
    have hempty : m.answer req (a :: rest) k = [] := by
      apply List.eq_nil_of_length_eq_zero
      have := m.length_answer_le req (a :: rest) k
      omega
    have hrun := qwenLoop_short m.engine m.tokenizer m.bosTokenId m.eosTokenId (a :: rest) steps.toNat
      (g := ⟨a, 0, 0, startState req m.engine, []⟩) (by
        simp only [List.length_cons]
        omega)
    rw [hempty]
    exact ⟨hrun.1, hrun.2, fun hno => absurd rfl hno⟩
  have hsteps : steps.toNat = rest.length + k := by
    simp only [k, List.length_cons]
    omega
  have hfeed := qwenLoop_feed m.engine m.tokenizer m.bosTokenId m.eosTokenId [] rest a k
    (g := ⟨a, 0, 0, startState req m.engine, []⟩) rfl rfl
  rw [List.nil_append, ← hsteps] at hfeed
  have hr : r = _ := hfeed
  rw [hr, QwenModel.answer]
  cases feed m.engine (a :: rest) (startState req m.engine) 0 with
  | none => exact ⟨rfl, fun _ hn => (by cases hn), fun hno => absurd rfl hno⟩
  | some e =>
    have hpos : ((a :: rest).length : Int) - 1 = 0 + rest.length := by
      rw [List.length_cons]
      push_cast
      omega
    obtain ⟨htalk, hfull⟩ := qwenLoop_talk m.engine m.tokenizer m.bosTokenId m.eosTokenId
      (a :: rest) k
      (g := ⟨(a :: rest).getLastD 0, 0 + rest.length, 0, e, []⟩) (Int.le_of_eq hpos)
    rw [hpos]
    refine ⟨htalk.out, fun n hn => ?_, fun _ hlen => ?_⟩
    · rw [htalk.ret n hn]
      simp
    · rw [hfull hlen]
      simp

/-! ## The loop of `llama_generate` -/

/-- How many of the texts come from sampled tokens. -/
def sampledCount (out : List Emitted) : Nat := out.countP (·.sampled)

theorem sampledCount_emits (sampled : Bool) (piece : List UInt8) :
    sampledCount (emits sampled piece) ≤ if sampled then 1 else 0 := by
  unfold sampledCount emits
  cases emitSanitized piece <;> cases sampled <;> simp

section llama

variable {eng : Engine E} {t : Tokenizer S} {prompt : List Int} {echoPrompt : Bool}

/-- A round of the loop ends it, or goes on with at most one more text, which is from a sampled token
    only if that is counted. -/
theorem llamaLoop_succ (g : Gen E) :
    (∃ ret, (∀ k, llamaLoop eng t prompt echoPrompt (k + 1) g = ⟨g.out, ret⟩) ∧
      ∀ n, ret = some n → n ≤ g.generated + 1) ∨
    ∃ g' more, (∀ k, llamaLoop eng t prompt echoPrompt (k + 1) g =
        llamaLoop eng t prompt echoPrompt k g') ∧
      g'.out = g.out ++ more ∧ g'.generated ≤ g.generated + 1 ∧ sampledCount more ≤ 1 := by
  cases hnext : nextToken eng prompt g with
  | none =>
    refine .inl ⟨none, fun k => ?_, nofun⟩
    rw [llamaLoop, hnext]
  | some p =>
    obtain ⟨next, sampled, e⟩ := p
    have hcount : (if sampled then g.generated + 1 else g.generated) ≤ g.generated + 1 := by
      split <;> omega
    by_cases hend : next = 1 ∨ next = 2
    · refine .inl ⟨some (if sampled then g.generated + 1 else g.generated), fun k => ?_,
        fun n hn => ?_⟩
      · rw [llamaLoop, hnext]
        exact if_pos hend
      · rwa [← Option.some.inj hn]
    by_cases hshow : sampled ∨ echoPrompt
    · cases hpiece : llamaPiece t g.token next with
      | none =>
        refine .inl ⟨none, fun k => ?_, nofun⟩
        rw [llamaLoop, hnext]
        simp only [if_neg hend, if_pos hshow, hpiece]
      | some piece =>
        refine .inr ⟨⟨next, g.pos + 1, if sampled then g.generated + 1 else g.generated, e,
          if piece ≠ [] then g.out ++ emits sampled piece else g.out⟩,
          if piece ≠ [] then emits sampled piece else [], fun k => ?_, ?_, hcount, ?_⟩
        · rw [llamaLoop, hnext]
          simp only [if_neg hend, if_pos hshow, hpiece]
        · by_cases hp : piece = [] <;> simp [hp]
        · have hone := sampledCount_emits sampled piece
          split
          · refine Nat.le_trans hone ?_
            split <;> omega
          · exact Nat.zero_le _
    · refine .inr ⟨⟨next, g.pos + 1, if sampled then g.generated + 1 else g.generated, e, g.out⟩, [],
        fun k => ?_, (List.append_nil _).symm, hcount, Nat.zero_le _⟩
      rw [llamaLoop, hnext]
      simp only [if_neg hend, if_neg hshow]

/-- A loop of `k` rounds counts at most `k` tokens and emits at most `k` sampled texts. -/
theorem llamaLoop_le (eng : Engine E) (t : Tokenizer S) (prompt : List Int) (echoPrompt : Bool) (k : Nat)
    (g : Gen E) :
    (∀ n, (llamaLoop eng t prompt echoPrompt k g).ret = some n → n ≤ g.generated + k) ∧
      sampledCount (llamaLoop eng t prompt echoPrompt k g).out ≤ sampledCount g.out + k := by
  induction k generalizing g with
  | zero => exact ⟨fun n hn => by simp [llamaLoop] at hn; omega, Nat.le_refl _⟩
  | succ k ih =>
    rcases llamaLoop_succ g with ⟨ret, heq, hret⟩ | ⟨g', more, heq, hout, hgen, hmore⟩
    · rw [heq]
      refine ⟨fun n hn => ?_, Nat.le_add_right _ _⟩
      have := hret n hn
      omega
    · obtain ⟨hret, hcount⟩ := ih g'
      rw [heq]
      refine ⟨fun n hn => ?_, ?_⟩
      · have := hret n hn
        omega
      · have hsum : sampledCount g'.out = sampledCount g.out + sampledCount more := by
          rw [hout, sampledCount, List.countP_append]
          rfl
        omega

/-- What a loop has emitted before stays, and more rounds only emit more. -/
theorem llamaLoop_extends {k k' : Nat} (h : k ≤ k') (g : Gen E) :
    g.out <+: (llamaLoop eng t prompt echoPrompt k g).out ∧
      (llamaLoop eng t prompt echoPrompt k g).out <+:
        (llamaLoop eng t prompt echoPrompt k' g).out := by
  induction k generalizing k' g with
  | zero =>
    refine ⟨List.prefix_rfl, ?_⟩
    induction k' generalizing g with
    | zero => exact List.prefix_rfl
    | succ k' ih =>
      rcases llamaLoop_succ g with ⟨ret, heq, -⟩ | ⟨g', more, heq, hout, -⟩
      · rw [heq]
        exact List.prefix_rfl
      · rw [heq]
        refine .trans ?_ (ih (Nat.zero_le _) g')
        exact ⟨more, hout.symm⟩
  | succ k ih =>
    obtain ⟨k', rfl⟩ : ∃ j, k' = j + 1 := ⟨k' - 1, by omega⟩
    rcases llamaLoop_succ g with ⟨ret, heq, -⟩ | ⟨g', more, heq, hout, -⟩
    · rw [heq, heq]
      exact ⟨List.prefix_rfl, List.prefix_rfl⟩
    · obtain ⟨hold, hnew⟩ := ih (Nat.le_of_succ_le_succ h) g'
      rw [heq, heq]
      refine ⟨.trans ⟨more, hout.symm⟩ hold, hnew⟩

end llama

/-! ## Every call -/

/-- The same request with another limit. -/
def Request.limit (req : Request) (k : Int) : Request := { req with maxTokens := k }

/-- The request gets as far as the loop of `qwen_run`, with these tokens in the prompt. -/
structure Asks (sys : System E S) (req : Request) (m : QwenModel E S) (prompt : List Int) : Prop where
  free : sys.busy = false
  isQwen : Llama.isQwen req.model = true
  loaded : sys.qwen = some m
  encoded : qwenPrompt sys req m = .ok prompt

/-- The call returns a negative number, or does not return. -/
def Fails (ret : Option Int) : Prop := ∀ n, ret = some n → n < 0

theorem fails_some {n : Int} (h : n < 0) : Fails (some n) := by
  intro n' hn
  rwa [← Option.some.inj hn]

theorem llamaPrompt_error {sys : System E S} {req : Request} {m : LlamaModel E S}
    {ret : Option Int} (h : llamaPrompt sys req m = .error ret) : Fails ret := by
  unfold llamaPrompt at h
  extract_lets probindex tokens at h
  split at h
  · cases h
    exact fails_some (by decide)
  split at h
  · cases h
    exact fails_some (by decide)
  split at h
  · cases h
    exact nofun
  · cases h

theorem qwenPrompt_error {sys : System E S} {req : Request} {m : QwenModel E S}
    {ret : Option Int} (h : qwenPrompt sys req m = .error ret) : Fails ret := by
  unfold qwenPrompt at h
  extract_lets rlen rendered tokens probindex at h
  split at h
  · cases h
    exact fails_some (by decide)
  split at h
  · cases h
    exact nofun
  split at h
  · cases h
    exact fails_some (by decide)
  · cases h

theorem Asks.run {sys : System E S} {req : Request} {m : QwenModel E S} {prompt : List Int}
    (h : Asks sys req m prompt) (k : Int) : llmGenerate sys (req.limit k) =
      qwenLoop m.engine m.tokenizer m.bosTokenId m.eosTokenId prompt
        (qwenSteps m.seqLen prompt.length k).toNat
        ⟨prompt.headD 0, 0, 0, startState req m.engine, []⟩ := by
  have hfree : ¬ sys.busy = true := by simp [h.free]
  have hprompt : qwenPrompt sys (req.limit k) m = qwenPrompt sys req m := rfl
  rw [llmGenerate, if_neg hfree]
  refine (if_pos h.isQwen).trans ?_
  rw [qwenRun, h.loaded]
  simp only [hprompt, h.encoded]
  rfl

/-- What a request comes to, whatever its limit is. -/
theorem llmGenerate_cases (sys : System E S) (req : Request) :
    (∃ ret, Fails ret ∧ ∀ k, llmGenerate sys (req.limit k) = .early ret) ∨
    (∃ (m : LlamaModel E S) (prompt : List Int), ∀ k, llmGenerate sys (req.limit k) =
      llamaLoop m.engine m.tokenizer prompt req.echoPrompt (llamaSteps m.seqLen k).toNat
        ⟨prompt.headD 0, 0, 0, startState req m.engine, []⟩) ∨
    ∃ m prompt, Asks sys req m prompt := by
  by_cases hbusy : sys.busy = true
  · exact .inl ⟨some (-4), fails_some (by decide), fun k => if_pos hbusy⟩
  by_cases hqwen : Llama.isQwen req.model = true
  · have heq : ∀ k, llmGenerate sys (req.limit k) = qwenRun sys (req.limit k) := fun k =>
      (if_neg hbusy).trans (if_pos hqwen)
    simp only [heq, qwenRun]
    cases hm : sys.qwen with
    | none => exact .inl ⟨some (-1), fails_some (by decide), fun k => rfl⟩
    | some m =>
      have hprompt : ∀ k, qwenPrompt sys (req.limit k) m = qwenPrompt sys req m := fun k => rfl
      simp only [hprompt]
      cases henc : qwenPrompt sys req m with
      | error ret => exact .inl ⟨ret, qwenPrompt_error henc, fun k => rfl⟩
      | ok prompt =>
        exact .inr (.inr ⟨m, prompt, by simpa using hbusy, hqwen, hm, henc⟩)
  · have heq : ∀ k, llmGenerate sys (req.limit k) = llamaGenerate sys (req.limit k) := fun k =>
      (if_neg hbusy).trans (if_neg hqwen)
    have hload : ∀ k, sys.llama (req.limit k).model = sys.llama req.model := fun k => rfl
    simp only [heq, llamaGenerate, hload]
    cases hm : sys.llama req.model with
    | none => exact .inl ⟨some (-1), fails_some (by decide), fun k => rfl⟩
    | some m =>
      have hprompt : ∀ k, llamaPrompt sys (req.limit k) m = llamaPrompt sys req m := fun k => rfl
      simp only [hprompt]
      cases henc : llamaPrompt sys req m with
      | error ret => exact .inl ⟨ret, llamaPrompt_error henc, fun k => rfl⟩
      | ok prompt => exact .inr (.inl ⟨m, prompt, fun k => rfl⟩)

/-! ## The limit -/

/-- The run returns at most `max`, and at most `max` sampled texts were emitted. -/
def WithinLimit (max : Int) (r : Result) : Prop :=
  (∀ n, r.ret = some n → n ≤ max) ∧ sampledCount r.out ≤ max

/-- The context has room for the prompt and `max_tokens` more, and the model has more to say than
    that: no end token is among the first `max_tokens + 1` tokens that it draws. -/
def Overtalks (sys : System E S) (req : Request) : Prop :=
  ∃ m prompt, Asks sys req m prompt ∧ prompt.length + req.maxTokens ≤ m.seqLen ∧
    (m.answer req prompt (req.maxTokens.toNat + 1)).length = req.maxTokens.toNat + 1

theorem sampledCount_le_length (out : List Emitted) : sampledCount out ≤ out.length :=
  List.countP_le_length

theorem qwenSteps_rounds (seqLen : Int) {n max : Int} (hn : 0 < n ∧ n < 2 ^ 31)
    (hmax : 0 < max ∧ max < 2 ^ 31) : (qwenSteps seqLen n max - (n - 1)).toNat =
      if n + max < 2 ^ 31 then answerRounds seqLen n max else 0 := by
  rcases Int.lt_or_le (n + max) (2 ^ 31) with hlt | hge
  · have hadd := addInt_of_lt (a := n) (b := max) (by omega) hlt
    rw [qwenSteps, answerRounds, hadd, if_pos hlt]
    split <;> omega
  · -- the sum wraps to a negative number
    have hadd := addInt_of_wrap (a := n) (b := max) (by omega) (by omega) hge
    rw [qwenSteps, if_neg (Int.not_lt.mpr hge)]
    split <;> omega

/-- The loop of `qwen_run` emits the answer to the prompt, and returns its length. -/
theorem Asks.answer {sys : System E S} {req : Request} {m : QwenModel E S} {prompt : List Int}
    (h : Asks sys req m prompt) (max : Int) (hmax : 0 < max ∧ max < 2 ^ 31) :
    let r := llmGenerate sys (req.limit max)
    let k := if prompt.length + max < 2 ^ 31 then answerRounds m.seqLen prompt.length max else 0
    r.out = (m.answer req prompt k).flatMap (shown m.tokenizer) ∧
      (∀ n, r.ret = some n → n = (m.answer req prompt k).length) ∧
      (m.answer req prompt k ≠ [] → (m.answer req prompt k).length = k → r.ret = some k) := by
  obtain ⟨hne, hn⟩ := qwenPrompt_ok h.encoded
  have hlen : 0 < (prompt.length : Int) := by
    have := List.length_pos_of_ne_nil hne
    omega
  have hrounds := qwenSteps_rounds m.seqLen ⟨hlen, by omega⟩ hmax
  have hloop := qwenLoop_answer m req hne (qwenSteps m.seqLen prompt.length max)
  rw [hrounds] at hloop
  rw [h.run max]
  exact hloop

/-- `llm_generate` keeps its limit exactly if the model of `qwen_run` has no more to say. -/
theorem generate_limit_iff (sys : System E S) (req : Request) (hpos : 0 < req.maxTokens)
    (hint : req.maxTokens < 2 ^ 31) :
    WithinLimit req.maxTokens (llmGenerate sys req) ↔ ¬ Overtalks sys req := by
  constructor
  · rintro ⟨hret, -⟩ ⟨m, prompt, hasks, hroom, hlong⟩
    -- the loop has a round for every token of the answer, and one more
    have hseq := m.seqLen_lt
    have hrounds : answerRounds m.seqLen prompt.length req.maxTokens = req.maxTokens.toNat + 1 := by
      rw [answerRounds, Int.min_eq_right hroom]
      omega
    obtain ⟨-, -, hfull⟩ := hasks.answer _ ⟨hpos, hint⟩
    rw [if_pos (Int.lt_of_le_of_lt hroom hseq), hrounds] at hfull
    have hans : m.answer req prompt (req.maxTokens.toNat + 1) ≠ [] := by
      intro hnil
      rw [hnil] at hlong
      cases hlong
    have hmore := hret _ (hfull hans hlong)
    omega
  · intro hquiet
    rcases llmGenerate_cases sys req with ⟨ret, hret, hrun⟩ | ⟨m, prompt, hrun⟩ |
      ⟨m, prompt, hasks⟩
    · have hrun : llmGenerate sys req = .early ret := hrun req.maxTokens
      rw [hrun]
      refine ⟨fun n hn => ?_, Int.le_of_lt hpos⟩
      have := hret n hn
      omega
    · have hrun := hrun req.maxTokens
      change llmGenerate sys req = _ at hrun
      rw [hrun]
      obtain ⟨hret, hcount⟩ := llamaLoop_le m.engine m.tokenizer prompt req.echoPrompt
        (llamaSteps m.seqLen req.maxTokens).toNat
        ⟨prompt.headD 0, 0, 0, startState req m.engine, []⟩
      have hsteps : (llamaSteps m.seqLen req.maxTokens).toNat ≤ req.maxTokens.toNat := by
        unfold llamaSteps
        split <;> omega
      refine ⟨fun n hn => ?_, ?_⟩
      · have := hret n hn
        simp only at this
        omega
      · simp only [sampledCount, List.countP_nil] at hcount ⊢
        omega
    · obtain ⟨hout, hret, -⟩ := hasks.answer _ ⟨hpos, hint⟩
      change (llmGenerate sys req).out = _ at hout
      set k := if prompt.length + req.maxTokens < 2 ^ 31 then
        answerRounds m.seqLen prompt.length req.maxTokens else 0 with hk
      have hle : (m.answer req prompt k).length ≤ req.maxTokens.toNat := by
        have hlong := m.length_answer_le req prompt k
        by_contra hmore
        apply hquiet
        -- an answer of one token too many is a full one
        have hrounds : k = req.maxTokens.toNat + 1 ∧ prompt.length + req.maxTokens ≤ m.seqLen := by
          unfold answerRounds at hk
          split at hk <;> omega
        rw [hrounds.1] at hlong hmore
        exact ⟨m, prompt, hasks, hrounds.2, by omega⟩
      refine ⟨fun n hn => ?_, ?_⟩
      · rw [hret n hn]
        omega
      · have hcount := sampledCount_le_length
          ((m.answer req prompt k).flatMap (shown m.tokenizer))
        have hshown := length_flatMap_shown_le (t := m.tokenizer) (m.answer req prompt k)
        rw [hout]
        omega

/-- A vocabulary with one string. -/
def chattyTokenizer : Tokenizer Nat := .build [⟨[117], by decide⟩] [1] 31

/-- A model that says `u` again and again. -/
def chattyModel : QwenModel Unit Nat where
  engine := ⟨fun _ _ _ => (), fun _ _ _ => some (), fun _ => some (0, ())⟩
  tokenizer := chattyTokenizer
  vocabSize := 1
  seqLen := 1024
  seqLen_lt := by decide
  bosTokenId := 1
  eosTokenId := 1

def chattySystem : System Unit Nat where
  busy := false
  pick := fun a _ => a.lo + 1024 * a.live.length
  heap := ⟨0x10000, 0x20000, [], []⟩
  heap_le := by decide
  gt := fun a b => decide (b < a)
  floor := 0
  llama := fun _ => none
  qwen := some chattyModel

/-- A request without a text to the model of `qwen_run`. -/
def chattyRequest (maxTokens : Int) : Request where
  model := [113, 119, 101, 110, 51]
  prompt := CString.nil
  maxTokens := maxTokens
  tempCenti := 80
  toppCenti := 90
  seed := 0
  echoPrompt := false

/-- Its prompt is one token. Asked for one token it says two, and asked for too many it says none. -/
theorem chattyRuns : qwenPrompt chattySystem (chattyRequest 0) chattyModel = .ok [0] ∧
    (llmGenerate chattySystem (chattyRequest 1)).ret = some 2 ∧
    (llmGenerate chattySystem (chattyRequest 1)).out = [⟨true, [117]⟩, ⟨true, [117]⟩] ∧
    (llmGenerate chattySystem (chattyRequest (2 ^ 31 - 1))).out = [] := by
  decide +kernel

/-- With a limit larger than the context, the limit is kept. -/
theorem generate_limit_iff_boot :
    WithinLimit 2000 (llmGenerate chattySystem (chattyRequest 2000)) := by
  apply (generate_limit_iff chattySystem (chattyRequest 2000) (by decide) (by decide)).mpr
  rintro ⟨m, prompt, hasks, hroom, -⟩
  obtain rfl : chattyModel = m := Option.some.inj hasks.loaded
  have hroom : (prompt.length : Int) + 2000 ≤ 1024 := hroom
  omega

/-- Asked for one token, `qwen_run` says two. -/
theorem not_generate_limit : ¬ WithinLimit 1 (llmGenerate chattySystem (chattyRequest 1)) := by
  obtain ⟨-, hret, -⟩ := chattyRuns
  rintro ⟨hle, -⟩
  exact absurd (hle 2 hret) (by decide)

/-! ## Two limits -/

/-- The larger limit overflows when the prompt is added to it, and the smaller one does not and lets
    the model of `qwen_run` emit something. -/
def Overflows (sys : System E S) (req : Request) (k k' : Int) : Prop :=
  ∃ m prompt, Asks sys req m prompt ∧ 2 ^ 31 ≤ prompt.length + k' ∧ prompt.length + k < 2 ^ 31 ∧
    (m.answer req prompt (answerRounds m.seqLen prompt.length k)).flatMap (shown m.tokenizer) ≠ []

theorem llamaSteps_le (seqLen : Int) {k k' : Int} (hpos : 0 < k) (h : k ≤ k') :
    llamaSteps seqLen k ≤ llamaSteps seqLen k' ∧ llamaSteps seqLen k' ≤ llamaSteps seqLen 0 := by
  unfold llamaSteps
  constructor
  · split <;> split <;> omega
  · rw [if_neg (show ¬ (0 < (0 : Int) ∧ 0 < seqLen) by omega)]
    split <;> omega

/-- What `qwen_run` emits without a limit. -/
theorem Asks.unlimited {sys : System E S} {req : Request} {m : QwenModel E S} {prompt : List Int}
    (h : Asks sys req m prompt) : (llmGenerate sys (req.limit 0)).out =
      (m.answer req prompt (m.seqLen - (prompt.length - 1)).toNat).flatMap (shown m.tokenizer) := by
  have hsteps : qwenSteps m.seqLen prompt.length 0 = m.seqLen := if_neg (by omega)
  rw [h.run 0, hsteps]
  exact (qwenLoop_answer m req (qwenPrompt_ok h.encoded).1 m.seqLen).1

/-- A larger limit, and no limit, only extend the output, unless the larger limit overflows. -/
theorem generate_extends_iff (sys : System E S) (req : Request) {k k' : Int} (hpos : 0 < k)
    (hle : k ≤ k') (hint : k' < 2 ^ 31) :
    ((llmGenerate sys (req.limit k)).out <+: (llmGenerate sys (req.limit k')).out ∧
      (llmGenerate sys (req.limit k')).out <+: (llmGenerate sys (req.limit 0)).out) ↔
      ¬ Overflows sys req k k' := by
  constructor
  · rintro ⟨hextends, -⟩ ⟨m, prompt, hasks, hwrap, hfit, hshow⟩
    have hout := (hasks.answer k ⟨hpos, by omega⟩).1
    have hout' := (hasks.answer k' ⟨by omega, hint⟩).1
    simp only [if_pos hfit] at hout
    simp only [if_neg (Int.not_lt.mpr hwrap)] at hout'
    -- with the larger limit nothing is emitted
    have hnil : m.answer req prompt 0 = [] :=
      List.eq_nil_of_length_eq_zero (Nat.le_zero.mp (m.length_answer_le req prompt 0))
    rw [hout, hout', hnil, List.flatMap_nil] at hextends
    exact hshow (List.prefix_nil.mp hextends)
  · intro hno
    rcases llmGenerate_cases sys req with ⟨ret, -, hrun⟩ | ⟨m, prompt, hrun⟩ | ⟨m, prompt, hasks⟩
    · rw [hrun, hrun, hrun]
      exact ⟨List.prefix_rfl, List.prefix_rfl⟩
    · rw [hrun, hrun, hrun]
      obtain ⟨hsteps, hsteps'⟩ := llamaSteps_le m.seqLen hpos hle
      exact ⟨(llamaLoop_extends (Int.toNat_le_toNat hsteps) _).2,
        (llamaLoop_extends (Int.toNat_le_toNat hsteps') _).2⟩
    · have hout := (hasks.answer k ⟨hpos, by omega⟩).1
      have hout' := (hasks.answer k' ⟨by omega, hint⟩).1
      rw [hasks.unlimited]
      have hmono : ∀ {i j : Nat}, i ≤ j →
          (m.answer req prompt i).flatMap (shown m.tokenizer) <+:
            (m.answer req prompt j).flatMap (shown m.tokenizer) := by
        intro i j hij
        obtain ⟨more, hmore⟩ := m.answer_prefix req prompt hij
        rw [← hmore, List.flatMap_append]
        exact List.prefix_append _ _
      by_cases hwrap : 2 ^ 31 ≤ prompt.length + k'
      · have hnil : m.answer req prompt 0 = [] :=
          List.eq_nil_of_length_eq_zero (Nat.le_zero.mp (m.length_answer_le req prompt 0))
        simp only [if_neg (Int.not_lt.mpr hwrap), hnil, List.flatMap_nil] at hout'
        have hsilent : (llmGenerate sys (req.limit k)).out = [] := by
          by_cases hfit : prompt.length + k < 2 ^ 31
          · rw [hout, if_pos hfit]
            by_contra hshow
            exact hno ⟨m, prompt, hasks, hwrap, hfit, hshow⟩
          · rw [hout, if_neg hfit, hnil, List.flatMap_nil]
        rw [hsilent, hout']
        exact ⟨List.prefix_rfl, List.nil_prefix⟩
      · have hfit : prompt.length + k' < 2 ^ 31 := Int.not_le.mp hwrap
        rw [if_pos (show prompt.length + k < 2 ^ 31 by omega)] at hout
        rw [if_pos hfit] at hout'
        rw [hout, hout']
        constructor
        · apply hmono
          unfold answerRounds
          omega
        · apply hmono
          unfold answerRounds
          omega

theorem generate_extends_iff_boot :
    (llmGenerate chattySystem (chattyRequest 1)).out <+:
      (llmGenerate chattySystem (chattyRequest 2)).out := by
  refine ((@generate_extends_iff Unit Nat chattySystem (chattyRequest 0) 1 2 (by decide) (by decide)
    (by decide)).mpr ?_).1
  rintro ⟨m, prompt, hasks, hwrap, -⟩
  obtain rfl : chattyModel = m := Option.some.inj hasks.loaded
  have hprompt := hasks.encoded.symm.trans chattyRuns.1
  obtain rfl : prompt = [0] := by simpa using hprompt
  exact absurd hwrap (by decide)

/-- With one token in the prompt, the largest limit of all wraps to a negative number of steps. -/
theorem not_generate_extends :
    ¬ ((llmGenerate chattySystem ((chattyRequest 0).limit 1)).out <+:
        (llmGenerate chattySystem ((chattyRequest 0).limit (2 ^ 31 - 1))).out ∧
      (llmGenerate chattySystem ((chattyRequest 0).limit (2 ^ 31 - 1))).out <+:
        (llmGenerate chattySystem ((chattyRequest 0).limit 0)).out) := by
  have hone : (llmGenerate chattySystem ((chattyRequest 0).limit 1)).out =
      [⟨true, [117]⟩, ⟨true, [117]⟩] := chattyRuns.2.2.1
  have hnone : (llmGenerate chattySystem ((chattyRequest 0).limit (2 ^ 31 - 1))).out = [] :=
    chattyRuns.2.2.2
  rintro ⟨hextends, -⟩
  rw [hone, hnone] at hextends
  exact absurd hextends (by decide)

end ChocoOs.Llm
