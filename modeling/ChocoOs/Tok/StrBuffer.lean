import ChocoOs.Tok.Merge

/-!
# The scratch buffer of an encoder

`encode` of both engines writes strings to the start of `str_buffer`: in the loop over the text what
it looks up, and in the merge loop two strings of the vocabulary with `snprintf`. The writes belong to
the states that the loops come to; a round whose write does not fit goes no further.
-/

namespace ChocoOs.Tok
open ProgLib

variable {S P : Type}

/-- For two neighbours among the tokens, `snprintf` writes `n` bytes. -/
def MergeWrite (t : Tokenizer S) (toks : List Nat) (n : Nat) : Prop :=
  ∃ pre x y post a b, toks = pre ++ x :: y :: post ∧ t.vocab[x]? = some a ∧ t.vocab[y]? = some b ∧
    n = ((a.append b).take (t.printSize - 1)).length + 1

/-- All that is written to the buffer of `cap` bytes lies in it. The loop over the text does `round`
    from `start` on, and `writes p n` says that it writes the first `n` bytes in the state `p`. -/
structure InBuffer (t : Tokenizer S) (gt : S → S → Bool) (floor : S) (cap : Nat)
    (round : P → Option (LoopStep P (List Nat))) (start : P) (writes : P → Nat → Prop) : Prop where
  text : ∀ p, Relation.ReflTransGen (GoesOn round) start p → ∀ n, writes p n → n ≤ cap
  merge : ∀ p toks, Relation.ReflTransGen (GoesOn round) start p → round p = some (.done toks) →
    ∀ toks', Relation.ReflTransGen (GoesOn (mergeRound t gt floor cap)) toks toks' →
      ∀ n, MergeWrite t toks' n → n ≤ cap

theorem Tokenizer.printSize_pos (t : Tokenizer S) : 0 < t.printSize := by
  unfold Tokenizer.printSize
  omega

/-- `snprintf` is given the size of the buffer. -/
theorem mergeWrite_le {t : Tokenizer S} {toks : List Nat} {n : Nat} (h : MergeWrite t toks n) :
    n ≤ t.printSize := by
  obtain ⟨pre, x, y, post, a, b, -, -, -, rfl⟩ := h
  have hpos := t.printSize_pos
  have hlen : ((a.append b).take (t.printSize - 1)).length ≤ t.printSize - 1 :=
    List.length_take_le _ _
  omega

/-- A single token is never printed. -/
theorem MergeWrite.two_le {t : Tokenizer S} {toks : List Nat} {n : Nat} (h : MergeWrite t toks n) :
    2 ≤ toks.length := by
  obtain ⟨pre, x, y, post, a, b, rfl, -⟩ := h
  simp only [List.length_append, List.length_cons]
  omega

theorem length_le_of_merges {t : Tokenizer S} {gt : S → S → Bool} {floor : S} {cap : Nat}
    {toks toks' : List Nat}
    (h : Relation.ReflTransGen (GoesOn (mergeRound t gt floor cap)) toks toks') :
    toks'.length ≤ toks.length := by
  induction h with
  | refl => exact Nat.le_refl _
  | tail _ hgo ih => exact (length_mergeRound gt floor cap hgo).trans ih

/-- With a buffer of the size that `snprintf` is given, only the loop over the text matters. -/
theorem inBuffer_iff {t : Tokenizer S} {gt : S → S → Bool} {floor : S} {cap : Nat}
    {round : P → Option (LoopStep P (List Nat))} {start : P} {writes : P → Nat → Prop}
    (hcap : t.printSize ≤ cap) : InBuffer t gt floor cap round start writes ↔
      ∀ p, Relation.ReflTransGen (GoesOn round) start p → ∀ n, writes p n → n ≤ cap := by
  refine ⟨fun h => h.text, fun h => ⟨h, ?_⟩⟩
  intro p toks _ _ toks' _ n hn
  exact Nat.le_trans (mergeWrite_le hn) hcap

end ChocoOs.Tok
