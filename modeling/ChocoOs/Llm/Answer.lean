import ChocoOs.Llm.Generate

/-!
# The answer of a model

The loop of `qwen_run` first feeds the prompt and then lets the model talk. `talk` is what the model
says when nothing but a number of tokens limits it; the loop is `talk` with the number of rounds
that are left after the prompt.
-/

namespace ChocoOs.Llm
open ProgLib ChocoOs.Tok

variable {E S : Type} (eng : Engine E) (t : Tokenizer S) (bos eos : Nat)

/-- The token ends the answer: it is an end token, or it is not in the vocabulary. -/
def EndsAnswer (next : Int) : Prop :=
  next = toToken eos ∨ next = toToken bos ∨ qwenPiece t next = none

instance (next : Int) : Decidable (EndsAnswer t bos eos next) := by
  unfold EndsAnswer
  infer_instance

/-- The tokens that the model draws before the end of its answer, at most `k`. `token` is the last
    token before them, at `pos`. -/
def talk : Nat → E → Int → Int → List Int
  | 0, _, _, _ => []
  | k + 1, e, token, pos =>
    match (eng.forward e token pos).bind eng.llmSample with
    | none => []
    | some (next, e) =>
      if EndsAnswer t bos eos next then [] else next :: talk k e next (pos + 1)

/-- The forward passes for the tokens of the prompt, except the last. -/
def feed : List Int → E → Int → Option E
  | a :: b :: rest, e, pos => (eng.forward e a pos).bind fun e => feed (b :: rest) e (pos + 1)
  | _, e, _ => some e

/-- The answer to a prompt, cut to `k` tokens. -/
def QwenModel.answer (m : QwenModel E S) (req : Request) (prompt : List Int) (k : Nat) : List Int :=
  match feed m.engine prompt (startState req m.engine) 0 with
  | none => []
  | some e =>
    talk m.engine m.tokenizer m.bosTokenId m.eosTokenId k e (prompt.getLastD 0) (prompt.length - 1)

/-- What is emitted for a token of an answer. -/
def shown (next : Int) : List Emitted :=
  match qwenPiece t next with
  | some piece => if printed piece then emits true piece else []
  | none => []

variable {eng t bos eos}

theorem length_talk_le (k : Nat) (e : E) (token pos : Int) :
    (talk eng t bos eos k e token pos).length ≤ k := by
  induction k generalizing e token pos with
  | zero => rfl
  | succ k ih =>
    unfold talk
    split
    · exact Nat.zero_le _
    · split
      · exact Nat.zero_le _
      · exact Nat.succ_le_succ (ih ..)

/-- A longer answer begins with the shorter one. -/
theorem talk_prefix {k k' : Nat} (h : k ≤ k') (e : E) (token pos : Int) :
    talk eng t bos eos k e token pos <+: talk eng t bos eos k' e token pos := by
  induction k generalizing k' e token pos with
  | zero => exact List.nil_prefix
  | succ k ih =>
    obtain ⟨k', rfl⟩ : ∃ j, k' = j + 1 := ⟨k' - 1, by omega⟩
    unfold talk
    split
    · exact List.prefix_rfl
    · split
      · exact List.prefix_rfl
      · exact (List.prefix_cons_inj _).mpr (ih (Nat.le_of_succ_le_succ h) ..)

theorem QwenModel.length_answer_le (m : QwenModel E S) (req : Request) (prompt : List Int)
    (k : Nat) : (m.answer req prompt k).length ≤ k := by
  unfold QwenModel.answer
  split
  · exact Nat.zero_le _
  · exact length_talk_le ..

theorem QwenModel.answer_prefix (m : QwenModel E S) (req : Request) (prompt : List Int)
    {k k' : Nat} (h : k ≤ k') : m.answer req prompt k <+: m.answer req prompt k' := by
  unfold QwenModel.answer
  split
  · exact List.prefix_rfl
  · exact talk_prefix h ..

/-- Only texts of at most one sampled token come from a token. -/
theorem length_shown_le (next : Int) : (shown t next).length ≤ 1 := by
  unfold shown emits
  split
  · split
    · cases emitSanitized _ <;> simp
    · exact Nat.zero_le _
  · exact Nat.zero_le _

theorem length_flatMap_shown_le (toks : List Int) :
    (toks.flatMap (shown t)).length ≤ toks.length := by
  induction toks with
  | nil => rfl
  | cons next toks ih =>
    have hone := length_shown_le (t := t) next
    rw [List.flatMap_cons, List.length_append, List.length_cons]
    omega

/-! ## The loop -/

/-- What a loop has emitted and returned: the tokens `toks` after the state `g`. -/
structure Says (t : Tokenizer S) (g : Gen E) (toks : List Int) (r : Result) : Prop where
  out : r.out = g.out ++ toks.flatMap (shown t)
  ret : ∀ n, r.ret = some n → n = g.generated + toks.length

/-- After the prompt, the loop is the model talking. An answer as long as the number of rounds has
    met no undefined behaviour. -/
theorem qwenLoop_talk (eng : Engine E) (t : Tokenizer S) (bos eos : Nat) (prompt : List Int) (k : Nat)
    {g : Gen E}
    (hpos : prompt.length - 1 ≤ g.pos) :
    Says t g (talk eng t bos eos k g.state g.token g.pos) (qwenLoop eng t bos eos prompt k g) ∧
      ((talk eng t bos eos k g.state g.token g.pos).length = k →
        (qwenLoop eng t bos eos prompt k g).ret = some (g.generated + k)) := by
  induction k generalizing g with
  | zero => exact ⟨⟨by simp [talk, qwenLoop], by simp [talk, qwenLoop]⟩, by simp [qwenLoop]⟩
  | succ k ih =>
    have hnext : nextToken eng prompt g = ((eng.forward g.state g.token g.pos).bind
        eng.llmSample).map fun p => (p.1, true, p.2) := by
      rw [nextToken]
      cases eng.forward g.state g.token g.pos with
      | none => rfl
      | some e =>
        simp only [Option.bind_eq_bind, Option.bind_some, if_neg (Int.not_lt.mpr hpos)]
        cases eng.llmSample e <;> rfl
    unfold qwenLoop talk
    rw [hnext]
    cases (eng.forward g.state g.token g.pos).bind eng.llmSample with
    | none => exact ⟨⟨by simp, by simp⟩, by simp⟩
    | some p =>
      obtain ⟨next, e⟩ := p
      simp only [Option.map_some]
      by_cases hend : next = toToken eos ∨ next = toToken bos
      · have hends : EndsAnswer t bos eos next := by
          rw [EndsAnswer, ← or_assoc]
          exact .inl hend
        rw [if_pos hend, if_pos hends]
        exact ⟨⟨by simp, by simp⟩, by simp⟩
      rw [if_neg hend]
      cases hpiece : qwenPiece t next with
      | none =>
        rw [if_pos (.inr (.inr hpiece))]
        exact ⟨⟨by simp, by simp⟩, by simp⟩
      | some piece =>
        have hgo : ¬ EndsAnswer t bos eos next := by
          rw [EndsAnswer, ← or_assoc, hpiece]
          simpa using hend
        rw [if_neg hgo]
        obtain ⟨hih, hfull⟩ := ih (g := ⟨next, g.pos + 1, g.generated + 1, e,
          if printed piece then g.out ++ emits true piece else g.out⟩) (by simp only; omega)
        refine ⟨⟨?_, fun n hn => ?_⟩, fun hlen => ?_⟩
        · rw [hih.out, List.flatMap_cons, ← List.append_assoc]
          congr 1
          simp only [shown, hpiece]
          split <;> simp
        · rw [hih.ret n hn, List.length_cons]
          simp only
          omega
        · rw [hfull (by simpa using hlen)]
          simp only [Option.some.injEq]
          omega

/-- A loop that ends before the prompt does emits nothing. -/
theorem qwenLoop_short (eng : Engine E) (t : Tokenizer S) (bos eos : Nat) (prompt : List Int)
    (k : Nat) {g : Gen E}
    (hpos : g.pos + k ≤ prompt.length - 1) :
    (qwenLoop eng t bos eos prompt k g).out = g.out ∧
      ∀ n, (qwenLoop eng t bos eos prompt k g).ret = some n → n = g.generated := by
  induction k generalizing g with
  | zero => exact ⟨rfl, fun n hn => (Option.some.inj hn).symm⟩
  | succ k ih =>
    have hlt : g.pos < (prompt.length : Int) - 1 := by omega
    unfold qwenLoop nextToken
    cases eng.forward g.state g.token g.pos with
    | none => exact ⟨rfl, nofun⟩
    | some e =>
      simp only [Option.bind_eq_bind, Option.bind_some, if_pos hlt]
      apply ih
      simp only
      omega

/-- The prompt is fed without any output. -/
theorem qwenLoop_feed (eng : Engine E) (t : Tokenizer S) (bos eos : Nat) (pre rest : List Int)
    (a : Int) (k : Nat) {g : Gen E} (htoken : g.token = a)
    (hpos : g.pos = pre.length) :
    qwenLoop eng t bos eos (pre ++ a :: rest) (rest.length + k) g =
      match feed eng (a :: rest) g.state g.pos with
      | none => ⟨g.out, none⟩
      | some e => qwenLoop eng t bos eos (pre ++ a :: rest) k
          ⟨(a :: rest).getLastD 0, g.pos + rest.length, g.generated, e, g.out⟩ := by
  induction rest generalizing pre a g with
  | nil =>
    subst htoken
    simp [feed]
  | cons b rest ih =>
    have hnext : nextToken eng (pre ++ a :: b :: rest) g =
        (eng.forward g.state a g.pos).map fun e => (b, false, e) := by
      have hlt : g.pos < ((pre ++ a :: b :: rest).length : Int) - 1 := by
        simp only [List.length_append, List.length_cons, hpos]
        omega
      have hget : (pre ++ a :: b :: rest).getD (g.pos + 1).toNat 0 = b := by
        have hidx : (g.pos + 1).toNat = pre.length + 1 := by omega
        rw [hidx]
        simp [List.getD_eq_getElem?_getD]
      rw [nextToken, htoken, hget]
      cases eng.forward g.state a g.pos with
      | none => rfl
      | some e =>
        simp only [Option.bind_eq_bind, Option.bind_some, if_pos hlt]
        rfl
    rw [List.length_cons, Nat.add_right_comm, qwenLoop, hnext]
    unfold feed
    cases eng.forward g.state a g.pos with
    | none => rfl
    | some e =>
      simp only [Option.map_some, Option.bind_some]
      have hih := ih (pre ++ [a]) b (g := ⟨b, g.pos + 1, g.generated, e, g.out⟩) rfl
        (by simp [hpos])
      rw [List.append_assoc, List.singleton_append] at hih
      rw [hih]
      cases feed eng (b :: rest) e (g.pos + 1) with
      | none => rfl
      | some e' =>
        have hend : g.pos + 1 + (rest.length : Int) = g.pos + ((b :: rest).length : Nat) := by
          rw [List.length_cons]
          push_cast
          omega
        simp only [hend]
        rfl

end ChocoOs.Llm
