import ChocoOs.Llama.TokenizerFile
import ChocoOs.Lib.Block
import ChocoOs.Lib.Traverse

/-!
# The strings in their blocks

`build_tokenizer` of `llm.c` with the bytes of the file and of the blocks for the strings. Each byte
that is read or written is checked. What it makes is the tokenizer of `buildTokenizer`.
-/

namespace ChocoOs.Llama
open ProgLib ProgLib.Block ChocoOs.Tok

/-- `Tokenizer` with its strings in memory: each has an address and a block. -/
structure PlacedTokenizer where
  vocab : List (Nat × Block)
  scores : List UInt32
  sorted : Nat → TokenIndex
  maxTokenLength : Nat

/-- The loop over the strings (`llm.c:294-313`): `p` is a place in the file. The inner `none` is a
    return of -1. -/
def placeTokens (pick : Pick) (left : Nat → UInt8) (data : Block) :
    Nat → Arena → Nat → Option (Arena × Option (List (Nat × Block) × List UInt32))
  | 0, heap, _ => some (heap, some ([], []))
  | n + 1, heap, p =>
    if data.length < p + 8 then some (heap, none)
    else do
      let score ← loadWord data p
      let word ← loadWord data (p + 4)
      let len := int32 word
      if len < 0 ∨ data.length < (p + 8 : Nat) + len then some (heap, none)
      else
        let str := mallocString pick heap len.toNat
        if str.1 = 0 then some (str.2, none)
        else do
          let block ← putText data (p + 8)
            (fresh left str.1 (Qwen.arraySize (int32 (len.toNat + 1)) 1)) 0 len.toNat
          let (heap, r) ← placeTokens pick left data n str.2 (p + 8 + len.toNat)
          return (heap, r.map fun (vocab, scores) =>
            ((str.1, block) :: vocab, UInt32.ofNat score :: scores))

/-- `build_tokenizer` (`llm.c:272-323`), with `left` in the memory that was free. -/
def placeTokenizer (pick : Pick) (heap : Arena) (left : Nat → UInt8) (data : Block) (vocabSize : Int) :
    Option (Arena × Option PlacedTokenizer) :=
  let vocab := heap.alloc pick (Qwen.arraySize vocabSize 8)
  let scores := vocab.2.alloc pick (Qwen.arraySize vocabSize 4)
  if vocab.1 = 0 ∨ scores.1 = 0 then some (scores.2, none)
  else if data.length < 4 then some (scores.2, none)
  else do
    let maxTokenLength ← loadWord data 0
    match ← placeTokens pick left data vocabSize.toNat scores.2 4 with
    | (heap, none) => some (heap, none)
    | (heap, some (blocks, bits)) =>
      let index := heap.alloc pick (Qwen.arraySize vocabSize 16)
      if index.1 = 0 then some (index.2, none)
      else do
        let strings ← blocks.mapM fun b => textAt b.2 0
        let sorted ← tokSort vocabSize.toNat (vocabIndex strings)
        return (index.2, some ⟨blocks, bits, sorted, maxTokenLength⟩)

/-- The blocks hold the strings, and a block has a byte more than the file gives for its string. -/
structure Holds (lens : List Nat) (a : List (Nat × Block) × List UInt32)
    (b : List CString × List UInt32) : Prop where
  vocab : List.Forall₂ (fun b s => textAt b.2 0 = some s) a.1 b.1
  scores : a.2 = b.2
  lengths : (a.1.map fun b => b.2.length) = lens.map (· + 1)

/-- In a file of less than 2 GiB the size of a block is an `int`, so no block is too small. -/
theorem placeTokens_eq (pick : Pick) (left : Nat → UInt8) {data : Block} (hsize : data.length < 2 ^ 31)
    {n p : Nat} (heap : Arena) (hp : p ≤ data.length) :
    ∃ r, placeTokens pick left data n heap p = some ((readTokens pick n heap (data.drop p)).1, r) ∧
      Option.Rel (Holds (entryLengths n (data.drop p))) r (readTokens pick n heap (data.drop p)).2 := by
  induction n generalizing heap p with
  | zero => exact ⟨_, rfl, .some ⟨.nil, rfl, rfl⟩⟩
  | succ n ih =>
    have hdrop : (data.drop p).length = data.length - p := List.length_drop ..
    rw [placeTokens, readTokens, hdrop]
    by_cases hhead : data.length < p + 8
    · rw [if_pos hhead, if_pos (by omega)]
      exact ⟨_, rfl, .none⟩
    rw [if_neg hhead, if_neg (by omega), loadWord_eq (by omega), loadWord_eq (by omega)]
    have hlen : entryLength (data.drop p) = leNat ((data.drop (p + 4)).take 4) := by
      rw [entryLength, List.drop_drop]
    have hcases := entry_int32 (data.drop p)
    rw [hlen] at hcases
    simp only [Option.bind_eq_bind, Option.bind_some, List.drop_drop, entryLengths, hlen]
    generalize leNat ((data.drop (p + 4)).take 4) = word at hcases ⊢
    have hrest : (data.drop (p + 8)).length = data.length - (p + 8) := List.length_drop ..
    rw [hrest]
    by_cases hbad : int32 word < 0 ∨ (data.length : Int) < (p + 8 : Nat) + int32 word
    · rw [if_pos hbad, if_pos (by omega)]
      exact ⟨_, rfl, .none⟩
    have hfits : ¬ (int32 word < 0 ∨ ((data.length - (p + 8) : Nat) : Int) < int32 word) := by omega
    obtain ⟨-, hint⟩ : word < 2 ^ 31 ∧ int32 word = word := by omega
    rw [if_neg hbad, if_neg hfits, hint, Int.toNat_natCast]
    rw [hint] at hbad
    by_cases h0 : (mallocString pick heap word).1 = 0
    · rw [if_pos h0, if_pos h0]
      exact ⟨_, rfl, .none⟩
    have hroom : Qwen.arraySize (int32 (word + 1)) 1 = word + 1 := by
      have hfit : int32 (word + 1) = ((word + 1 : Nat) : Int) := if_pos (by omega)
      rw [hfit, Qwen.arraySize_of_lt (by rw [addrSpace_eq]; omega), Nat.mul_one]
    have hfresh := length_fresh left (mallocString pick heap word).1 (word + 1)
    obtain ⟨block, hput, hsame, htext⟩ := @exists_putText data (fresh left
      (mallocString pick heap word).1 (word + 1)) (p + 8) 0 word (by omega) (by omega)
    rw [if_neg h0, if_neg h0, hroom, hput, Option.bind_some]
    obtain ⟨r, hplace, hrel⟩ := @ih (p + 8 + word) (mallocString pick heap word).2 (by omega)
    rw [hplace]
    refine ⟨_, rfl, ?_⟩
    generalize (readTokens pick n (mallocString pick heap word).2 (data.drop (p + 8 + word))).2 = r'
      at hrel ⊢
    cases hrel with
    | none => exact .none
    | some h =>
      refine .some ⟨.cons (htext block rfl).2 h.vocab, congrArg (_ :: ·) h.scores, ?_⟩
      exact congrArg₂ List.cons (hsame.trans hfresh) h.lengths

/-- What is placed is the tokenizer `t`. -/
structure Places (lens : List Nat) (a : PlacedTokenizer) (t : Tokenizer UInt32) : Prop where
  vocab : List.Forall₂ (fun b s => textAt b.2 0 = some s) a.vocab t.vocab
  scores : a.scores = t.scores
  sorted : a.sorted = t.sorted
  maxTokenLength : a.maxTokenLength = t.maxTokenLength
  lengths : (a.vocab.map fun b => b.2.length) = lens.map (· + 1)

/-- No byte outside the file and outside the blocks is accessed. -/
theorem placeTokenizer_eq (pick : Pick) {heap : Arena} (left : Nat → UInt8) {data : List UInt8}
    (hsize : data.length < 2 ^ 31) {n : Int} (hmax : heap.hi - heap.lo ≤ Heap.heapMax)
    (hn : -2 ^ 31 ≤ n ∧ n < 2 ^ 31) :
    ∃ heap' r r', placeTokenizer pick heap left data n = some (heap', r) ∧
      buildTokenizer pick heap data n = some (heap', r') ∧
      Option.Rel (Places (entryLengths n.toNat (data.drop 4))) r r' := by
  obtain ⟨heap', r', hbuild, -⟩ := buildTokenizer_eq pick data hmax hn
  rw [hbuild]
  unfold buildTokenizer at hbuild
  unfold placeTokenizer
  extract_lets vocab scores at hbuild ⊢
  by_cases hrefuse : vocab.1 = 0 ∨ scores.1 = 0
  · rw [if_pos hrefuse] at hbuild ⊢
    cases hbuild
    exact ⟨_, _, _, rfl, rfl, .none⟩
  rw [if_neg hrefuse] at hbuild ⊢
  by_cases hhead : data.length < 4
  · rw [if_pos hhead] at hbuild ⊢
    cases hbuild
    exact ⟨_, _, _, rfl, rfl, .none⟩
  rw [if_neg hhead] at hbuild ⊢
  obtain ⟨r, hplace, hrel⟩ := @placeTokens_eq pick left data hsize n.toNat 4 scores.2 (by omega)
  rw [loadWord_eq (by omega), hplace]
  generalize readTokens pick n.toNat scores.2 (data.drop 4) = read at hbuild hrel
  obtain ⟨heap₁, read⟩ := read
  simp only [Option.bind_eq_bind, Option.bind_some] at hrel ⊢
  cases hrel with
  | none =>
    cases hbuild
    exact ⟨_, _, _, rfl, rfl, .none⟩
  | @some a b h =>
    obtain ⟨blocks, bits⟩ := a
    obtain ⟨strings, bits'⟩ := b
    obtain ⟨hstrings, rfl, hlengths⟩ := h
    simp only at hbuild ⊢
    by_cases h0 : (heap₁.alloc pick (Qwen.arraySize n 16)).1 = 0
    · rw [if_pos h0] at hbuild ⊢
      cases hbuild
      exact ⟨_, _, _, rfl, rfl, .none⟩
    rw [if_neg h0] at hbuild ⊢
    obtain ⟨sorted, hsorted, heq⟩ := Option.map_eq_some_iff.mp hbuild
    cases heq
    rw [mapM_eq_some_iff.mpr hstrings, Option.bind_some, hsorted]
    exact ⟨_, _, _, rfl, rfl, .some ⟨hstrings, rfl, rfl, rfl, hlengths⟩⟩

end ChocoOs.Llama
