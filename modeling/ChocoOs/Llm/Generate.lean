import ChocoOs.Llama.Encode
import ChocoOs.Llama.Registry
import ChocoOs.Qwen.Encode
import ChocoOs.Qwen.TokenizerFile

/-!
# Generating text

`llm_generate` and the loops of the two engines. Both feed the prompt to the model and then the
tokens that the sampler draws, one position a round. What the forward pass and the sampler compute
is a parameter: a deterministic function of a state that they alone change. A run ends with a
result or, with `ret = none`, in undefined behaviour; `out` is what was emitted until then.
-/

namespace ChocoOs.Llm
open ProgLib ChocoOs.Tok

/-! ## Emission -/

/-- The replacements of `emit_sanitized` (`llm_common.c:243-264`). -/
def punctuation (cp : Nat) : List UInt8 :=
  if cp = 0x2018 ∨ cp = 0x2019 then [39]
  else if cp = 0x201C ∨ cp = 0x201D then [34]
  else if cp = 0x2013 ∨ cp = 0x2014 then [45]
  else if cp = 0x2026 then [46, 46, 46]
  else []

/-- The loop of `emit_sanitized` (`llm_common.c:215-265`). Every round consumes a byte, so there are
    at most as many rounds as bytes. -/
def sanitizeFrom : Nat → List UInt8 → List UInt8 → List UInt8
  | rounds + 1, c :: p, out =>
    if 76 ≤ out.length then out
    else if c = 10 ∨ c = 9 ∨ (32 ≤ c ∧ c < 127) then sanitizeFrom rounds p (out ++ [c])
    else if c &&& 0xE0 = 0xC0 ∧ p.headD 0 &&& 0xC0 = 0x80 then
      sanitizeFrom rounds (p.drop 1)
        (out ++ punctuation (c.toNat % 32 * 64 + (p.headD 0).toNat % 64))
    else if c &&& 0xF0 = 0xE0 ∧ p.headD 0 &&& 0xC0 = 0x80 ∧ p.getD 1 0 &&& 0xC0 = 0x80 then
      sanitizeFrom rounds (p.drop 2) (out ++ punctuation
        (c.toNat % 16 * 4096 + (p.headD 0).toNat % 64 * 64 + (p.getD 1 0).toNat % 64))
    else sanitizeFrom rounds p out
  | _, _, out => out

/-- `emit_sanitized` (`llm_common.c:209-272`): what it passes to `emit`, if it calls it. -/
def emitSanitized (piece : List UInt8) : Option (List UInt8) :=
  let out := sanitizeFrom piece.length piece []
  if out = [] then none else some out

/-! ## Engines -/

/-- The forward pass and the sampler. `E` is all they read and change: the run state with the KV
    cache and the logits, and the state of the random numbers. `init` makes the sampler from the
    parameters; `none` is undefined behaviour. -/
structure Engine (E : Type) where
  init : Int → Int → Nat → E
  forward : E → Int → Int → Option E
  llmSample : E → Option (Int × E)

/-- A text that was passed to `emit`, and whether it comes from a sampled token. -/
structure Emitted where
  sampled : Bool
  text : List UInt8
  deriving DecidableEq

structure Result where
  out : List Emitted
  ret : Option Int
  deriving DecidableEq

/-- The variables of a generation loop. -/
structure Gen (E : Type) where
  token : Int
  pos : Int
  generated : Int
  state : E
  out : List Emitted

/-- What `emit` gets for a piece. -/
def emits (sampled : Bool) (piece : List UInt8) : List Emitted :=
  ((emitSanitized piece).map (Emitted.mk sampled)).toList

/-- A run that ends before anything is emitted. -/
def Result.early (ret : Option Int) : Result := ⟨[], ret⟩

/-- `int` addition in two's complement. -/
def addInt (a b : Int) : Int := (a + b + 2 ^ 31) % 2 ^ 32 - 2 ^ 31

section loops

variable {E S : Type} (eng : Engine E)

/-- The next token: from the prompt, or sampled (`llm.c:549-559`, `qwen.c:627-635`). -/
def nextToken (prompt : List Int) (g : Gen E) : Option (Int × Bool × E) := do
  let e ← eng.forward g.state g.token g.pos
  if g.pos < prompt.length - 1 then return (prompt.getD (g.pos + 1).toNat 0, false, e)
  else
    let (next, e) ← eng.llmSample e
    return (next, true, e)

/-- `decode` of a token that may lie outside the vocabulary. -/
def llamaPiece (t : Tokenizer S) (prevToken token : Int) : Option (List UInt8) :=
  if 0 ≤ token then Llama.decode t prevToken.toNat token.toNat else none

/-- The loop of `llama_generate` (`llm.c:545-582`), from `pos` on with `rounds = steps - pos`. -/
def llamaLoop (t : Tokenizer S) (prompt : List Int) (echoPrompt : Bool) :
    Nat → Gen E → Result
  | 0, g => ⟨g.out, some g.generated⟩
  | rounds + 1, g =>
    match nextToken eng prompt g with
    | none => ⟨g.out, none⟩
    | some (next, sampled, e) =>
      let generated := if sampled then g.generated + 1 else g.generated
      if next = 1 ∨ next = 2 then ⟨g.out, some generated⟩
      else if sampled ∨ echoPrompt then
        match llamaPiece t g.token next with
        | none => ⟨g.out, none⟩
        | some piece =>
          let out := if piece ≠ [] then g.out ++ emits sampled piece else g.out
          llamaLoop t prompt echoPrompt rounds ⟨next, g.pos + 1, generated, e, out⟩
      else llamaLoop t prompt echoPrompt rounds ⟨next, g.pos + 1, generated, e, g.out⟩

/-- `t->vocab[token]`. -/
def qwenPiece (t : Tokenizer S) (token : Int) : Option (List UInt8) :=
  if 0 ≤ token then t.vocab[token.toNat]?.map (·.1) else none

/-- Special tokens are never printed (`qwen.c:644`). -/
def printed (piece : List UInt8) : Bool := piece ≠ [] && !(piece[0]? = some 60 && piece[1]? = some 124)

/-- `(int)id`. -/
def toToken (id : Nat) : Int := if id < 2 ^ 31 then id else id - 2 ^ 32

/-- The loop of `qwen_run` (`qwen.c:623-648`), from `pos` on with `rounds = steps - pos`. -/
def qwenLoop (t : Tokenizer S) (bos eos : Nat) (prompt : List Int) : Nat → Gen E → Result
  | 0, g => ⟨g.out, some g.generated⟩
  | rounds + 1, g =>
    match nextToken eng prompt g with
    | none => ⟨g.out, none⟩
    | some (next, false, e) =>
      qwenLoop t bos eos prompt rounds ⟨next, g.pos + 1, g.generated, e, g.out⟩
    | some (next, true, e) =>
      if next = toToken eos ∨ next = toToken bos then ⟨g.out, some g.generated⟩
      else
        match qwenPiece t next with
        | none => ⟨g.out, none⟩
        | some piece =>
          let out := if printed piece then g.out ++ emits true piece else g.out
          qwenLoop t bos eos prompt rounds ⟨next, g.pos + 1, g.generated + 1, e, out⟩

end loops

/-! ## The calls -/

/-- A loaded model of `llm.c`. -/
structure LlamaModel (E S : Type) where
  engine : Engine E
  tokenizer : Tokenizer S
  vocabSize : Int
  seqLen : Int
  seqLen_lt : seqLen < 2 ^ 31

/-- The loaded model of `qwen.c`. -/
structure QwenModel (E S : Type) extends LlamaModel E S where
  bosTokenId : Nat
  eosTokenId : Nat

/-- The arguments of `llm_generate`, apart from the callback. -/
structure Request where
  model : Llama.ModelName
  prompt : CString
  maxTokens : Int
  tempCenti : Int
  toppCenti : Int
  seed : Nat
  echoPrompt : Bool

/-- What `llm_generate` finds: the models that it loads, the heap, the flag. `gt` and `floor` are the
    comparison of scores and the start value of the merge loops. -/
structure System (E S : Type) where
  busy : Bool
  pick : Pick
  heap : Arena
  heap_le : heap.hi - heap.lo ≤ Heap.heapMax
  gt : S → S → Bool
  floor : S
  llama : Llama.ModelName → Option (LlamaModel E S)
  qwen : Option (QwenModel E S)

/-- `TMPL_PRE` -/
def tmplPre : List UInt8 :=
  [60, 124, 105, 109, 95, 115, 116, 97, 114, 116, 124, 62, 117, 115, 101, 114, 10]

/-- `TMPL_POST` -/
def tmplPost : List UInt8 :=
  [60, 124, 105, 109, 95, 101, 110, 100, 124, 62, 10, 60, 124, 105, 109, 95, 115, 116, 97, 114, 116,
    124, 62, 97, 115, 115, 105, 115, 116, 97, 110, 116, 10, 60, 116, 104, 105, 110, 107, 62, 10, 10,
    60, 47, 116, 104, 105, 110, 107, 62, 10, 10]

section calls

variable {E S : Type} (sys : System E S) (req : Request)

/-- The position at which the loop of `llama_generate` ends (`llm.c:527-529`). -/
def llamaSteps (seqLen maxTokens : Int) : Int :=
  if 0 < maxTokens ∧ maxTokens < seqLen then maxTokens else seqLen

/-- The position at which the loop of `qwen_run` ends (`qwen.c:619-621`). -/
def qwenSteps (seqLen n maxTokens : Int) : Int :=
  if 0 < maxTokens ∧ addInt n maxTokens < seqLen then addInt n maxTokens else seqLen

/-- The sampler and the run state at the start of a generation. -/
def startState (eng : Engine E) : E :=
  eng.init req.tempCenti req.toppCenti (if req.seed ≠ 0 then req.seed else 42)

/-- The tokens of the prompt in `llama_generate`, or what it returns instead
    (`llm.c:519-543`). -/
def llamaPrompt (m : LlamaModel E S) : Except (Option Int) (List Int) :=
  let probindex := sys.heap.alloc sys.pick (Qwen.arraySize m.vocabSize 8)
  if probindex.1 = 0 then .error (some (-3))
  else
    let tokens := probindex.2.alloc sys.pick ((req.prompt.length + 3) * 4)
    if tokens.1 = 0 then .error (some (-3))
    else
      match Llama.encode m.tokenizer sys.gt sys.floor (req.prompt.length + 3) sys.pick tokens.2
        req.prompt.1 true false with
      | none => .error none
      | some (_, toks) => .ok (if toks.length < 1 then [1] else toks.map Int.ofNat)

/-- `llama_generate` (`llm.c:503-590`). The two buffers are freed at the end, whatever happened. -/
def llamaGenerate : Result :=
  match sys.llama req.model with
  | none => .early (some (-1))
  | some m =>
    match llamaPrompt sys req m with
    | .error ret => .early ret
    | .ok prompt =>
      llamaLoop m.engine m.tokenizer prompt req.echoPrompt (llamaSteps m.seqLen req.maxTokens).toNat
        ⟨prompt.headD 0, 0, 0, startState req m.engine, []⟩

/-- The tokens of the prompt in its template in `qwen_run`, or what it returns instead
    (`qwen.c:589-617`). -/
def qwenPrompt (m : QwenModel E S) : Except (Option Int) (List Int) :=
  let rlen := tmplPre.length + 1 + req.prompt.length + (tmplPost.length + 1)
  let rendered := sys.heap.alloc sys.pick rlen
  let tokens := rendered.2.alloc sys.pick ((rlen + 4) * 4)
  let probindex := tokens.2.alloc sys.pick (Qwen.arraySize m.vocabSize 8)
  if rendered.1 = 0 ∨ tokens.1 = 0 ∨ probindex.1 = 0 then .error (some (-3))
  else
    match Qwen.encode m.tokenizer sys.gt sys.floor (rlen + 4) sys.pick probindex.2
      (tmplPre ++ req.prompt.1 ++ tmplPost) with
    | none => .error none
    | some (_, toks) =>
      if toks.length < 1 then .error (some (-1)) else .ok (toks.map Int.ofNat)

/-- `qwen_run` (`qwen.c:580-653`). The buffers are freed at the end, whatever happened. -/
def qwenRun : Result :=
  match sys.qwen with
  | none => .early (some (-1))
  | some m =>
    match qwenPrompt sys req m with
    | .error ret => .early ret
    | .ok prompt =>
      qwenLoop m.engine m.tokenizer m.bosTokenId m.eosTokenId prompt
        (qwenSteps m.seqLen prompt.length req.maxTokens).toNat
        ⟨prompt.headD 0, 0, 0, startState req m.engine, []⟩

/-- `llm_generate` (`llm.c:592-612`). -/
def llmGenerate : Result :=
  if sys.busy then .early (some (-4))
  else if Llama.isQwen req.model then qwenRun sys req
  else llamaGenerate sys req

end calls

end ChocoOs.Llm
