import ChocoOs.Lib.Block
import ChocoOs.Lib.Traverse
import ChocoOs.Qwen.TokenizerFile

/-!
# The strings in memory

`build_tokenizer` of `qwen.c` once more, with the bytes of the file and the memory for the strings as
blocks. Each byte that is read or written is checked. What it makes is the tokenizer of
`buildTokenizer`.
-/

namespace ChocoOs.Qwen
open ProgLib ProgLib.Block ChocoOs.Tok

/-- `Tokenizer` with its strings in memory: `vocab[i]` is a place in the arena. -/
structure PlacedTokenizer where
  arena : ProgLib.Block
  vocab : List Nat
  scores : List UInt32
  sorted : Nat → TokenIndex
  maxTokenLength : Nat
  bosTokenId : Nat
  eosTokenId : Nat

/-- The loop over the strings (`qwen.c:267-283`): `p` is a place in the file, and `used` the one in the
    arena. The inner `none` is a return of -1. -/
def placeTokens (data : ProgLib.Block) :
    Nat → Nat → ProgLib.Block → Nat → Option (ProgLib.Block × Option (List Nat × List UInt32))
  | 0, _, arena, _ => some (arena, some ([], []))
  | n + 1, p, arena, used =>
    if data.length < p + 8 then some (arena, none)
    else do
      let score ← loadWord data p
      let len ← loadWord data (p + 4)
      if data.length < p + 8 + len then some (arena, none)
      else do
        let arena ← putText data (p + 8) arena used len
        let (arena, r) ← placeTokens data n (p + 8 + len) arena (used + len + 1)
        return (arena, r.map fun (vocab, scores) => (used :: vocab, UInt32.ofNat score :: scores))

/-- `build_tokenizer` (`qwen.c:245-293`), with `left` in the memory that was free. -/
def placeTokenizer (pick : Pick) (heap : Arena) (left : Nat → UInt8) (data : ProgLib.Block)
    (vocabSize : Int) :
    Option (Arena × Option PlacedTokenizer) :=
  if data.length < 12 then some (heap, none)
  else do
    let maxTokenLength ← loadWord data 0
    let bosTokenId ← loadWord data 4
    let eosTokenId ← loadWord data 8
    let vocab := heap.alloc pick (arraySize vocabSize 8)
    let scores := vocab.2.alloc pick (arraySize vocabSize 4)
    let arena := scores.2.alloc pick data.length
    if vocab.1 = 0 ∨ scores.1 = 0 ∨ arena.1 = 0 then some (arena.2, none)
    else
      match ← placeTokens data vocabSize.toNat 12 (fresh left arena.1 data.length) 0 with
      | (_, none) => some (arena.2, none)
      | (text, some (places, bits)) =>
        let index := arena.2.alloc pick (arraySize vocabSize 16)
        if index.1 = 0 then some (index.2, none)
        else do
          let strings ← places.mapM (textAt text)
          let sorted ← tokSort vocabSize.toNat (vocabIndex strings)
          return (index.2, some ⟨text, places, bits, sorted, maxTokenLength, bosTokenId, eosTokenId⟩)

/-- The places hold the strings. -/
def Holds (text : ProgLib.Block) (a : List Nat × List UInt32) (b : List CString × List UInt32) : Prop :=
  List.Forall₂ (fun i s => textAt text i = some s) a.1 b.1 ∧ a.2 = b.2

/-- The arena suffices: what is left of it is never less than what is left of the file. What is in it
    already stays. -/
theorem placeTokens_eq {data arena : ProgLib.Block} {n p used : Nat} (hp : p ≤ data.length)
    (hroom : used + (data.length - p) ≤ arena.length) :
    ∃ arena' r r', placeTokens data n p arena used = some (arena', r) ∧
      readTokens arena.length n (data.drop p) used = some r' ∧ arena'.length = arena.length ∧
      arena'.take used = arena.take used ∧ Option.Rel (Holds arena') r r' := by
  induction n generalizing p arena used with
  | zero => exact ⟨arena, _, _, rfl, rfl, rfl, rfl, .some ⟨.nil, rfl⟩⟩
  | succ n ih =>
    have hdrop : (data.drop p).length = data.length - p := List.length_drop ..
    rw [placeTokens, readTokens, hdrop]
    by_cases hhead : data.length < p + 8
    · rw [if_pos hhead, if_pos (by omega)]
      exact ⟨arena, _, _, rfl, rfl, rfl, rfl, .none⟩
    rw [if_neg hhead, if_neg (by omega), loadWord_eq (by omega), loadWord_eq (by omega)]
    simp only [Option.bind_eq_bind, Option.bind_some, List.drop_drop]
    generalize hlen : leNat ((data.drop (p + 4)).take 4) = len
    have hrest : (data.drop (p + 8)).length = data.length - (p + 8) := List.length_drop ..
    rw [hrest]
    by_cases hstr : data.length < p + 8 + len
    · rw [if_pos hstr, if_pos (by omega)]
      exact ⟨arena, _, _, rfl, rfl, rfl, rfl, .none⟩
    obtain ⟨arena₁, hput, hsame, htext⟩ := @exists_putText data arena (p + 8) used len (by omega)
      (by omega)
    rw [if_neg hstr, if_neg (by omega), if_neg (by omega), hput, Option.bind_some]
    obtain ⟨arena', r, r', hplace, hread, hlength, hkeep, hrel⟩ :=
      ih (show p + 8 + len ≤ data.length by omega)
        (show used + len + 1 + (data.length - (p + 8 + len)) ≤ arena₁.length by omega)
    rw [hsame] at hread hlength
    rw [hplace, hread]
    obtain ⟨hbefore, hat⟩ := htext arena' hkeep
    refine ⟨arena', _, _, rfl, rfl, hlength, hbefore, ?_⟩
    cases hrel with
    | none => exact .none
    | some h => exact .some ⟨.cons hat h.1, congrArg (_ :: ·) h.2⟩

/-- What is placed is the tokenizer `t` of `n` strings, in an arena of `size` bytes. -/
structure Places (size n : Nat) (a : PlacedTokenizer) (t : FileTokenizer) : Prop where
  arena : a.arena.length = size
  length : a.vocab.length = n
  vocab : List.Forall₂ (fun i s => textAt a.arena i = some s) a.vocab t.vocab
  scores : a.scores = t.scores
  sorted : a.sorted = t.sorted
  maxTokenLength : a.maxTokenLength = t.maxTokenLength
  bosTokenId : a.bosTokenId = t.bosTokenId
  eosTokenId : a.eosTokenId = t.eosTokenId

/-- No byte outside the file and outside the arena is accessed. -/
theorem placeTokenizer_eq (pick : Pick) {heap : Arena} (left : Nat → UInt8) (data : List UInt8)
    {n : Int} (hmax : heap.hi - heap.lo ≤ Heap.heapMax) (hn : -2 ^ 31 ≤ n ∧ n < 2 ^ 31) :
    ∃ heap' r r', placeTokenizer pick heap left data n = some (heap', r) ∧
      buildTokenizer pick heap data n = some (heap', r') ∧
      Option.Rel (Places data.length n.toNat) r r' := by
  obtain ⟨heap', r', hbuild, -⟩ := buildTokenizer_eq pick data hmax hn
  rw [hbuild]
  unfold buildTokenizer at hbuild
  unfold placeTokenizer
  extract_lets vocab scores arena index at hbuild ⊢
  by_cases hhead : data.length < 12
  · rw [if_pos hhead] at hbuild ⊢
    cases hbuild
    exact ⟨_, _, _, rfl, rfl, .none⟩
  rw [if_neg hhead] at hbuild ⊢
  rw [loadWord_eq (by omega), loadWord_eq (by omega), loadWord_eq (by omega)]
  simp only [Option.bind_eq_bind, Option.bind_some]
  by_cases hrefuse : vocab.1 = 0 ∨ scores.1 = 0 ∨ arena.1 = 0
  · rw [if_pos hrefuse] at hbuild ⊢
    cases hbuild
    exact ⟨_, _, _, rfl, rfl, .none⟩
  rw [if_neg hrefuse] at hbuild ⊢
  have hfresh := length_fresh left arena.1 data.length
  obtain ⟨text, r, r', hplace, hread, hlength, -, hrel⟩ :=
    @placeTokens_eq data (fresh left arena.1 data.length) n.toNat 12 0 (by omega) (by omega)
  rw [hfresh] at hread
  rw [hread] at hbuild
  rw [hplace]
  cases hrel with
  | none =>
    cases hbuild
    exact ⟨_, _, _, rfl, rfl, .none⟩
  | @some a b h =>
    obtain ⟨places, bits⟩ := a
    obtain ⟨strings, bits'⟩ := b
    obtain ⟨hstrings, rfl⟩ := h
    simp only [Option.bind_some] at hbuild ⊢
    by_cases h0 : index.1 = 0
    · rw [if_pos h0] at hbuild ⊢
      cases hbuild
      exact ⟨_, _, _, rfl, rfl, .none⟩
    rw [if_neg h0] at hbuild ⊢
    obtain ⟨sorted, hsorted, heq⟩ := Option.map_eq_some_iff.mp hbuild
    cases heq
    rw [mapM_eq_some_iff.mpr hstrings, Option.bind_some, hsorted]
    have hcount := hstrings.length_eq.trans (readTokens_length hread).1
    exact ⟨_, _, _, rfl, rfl, .some ⟨hlength.trans hfresh, hcount, hstrings, rfl, rfl, rfl, rfl, rfl⟩⟩

end ChocoOs.Qwen
