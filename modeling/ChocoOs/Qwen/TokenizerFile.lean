import ChocoOs.Lib.Word
import ChocoOs.Tok.Merge
import Mathlib.Algebra.Group.Int.Defs

/-!
# The tokenizer file

`build_tokenizer` of `qwen.c`. The file is the list of its bytes; `none` means that a byte outside
the file or outside the memory for the strings is accessed.
-/

/-!
## The entries of a tokenizer file

For each token the file has its score, the length of its string, both in four bytes, and the string.
-/

namespace ChocoOs.Tok
open ProgLib

/-- The length that the first entry gives for its string. -/
def entryLength (p : List UInt8) : Nat := leNat ((p.drop 4).take 4)

/-- The bytes begin with `n` entries whose lengths are below `limit`. -/
def HasEntries (limit : Nat) : Nat → List UInt8 → Prop
  | 0, _ => True
  | n + 1, p =>
    8 ≤ p.length ∧ entryLength p < limit ∧ entryLength p ≤ (p.drop 8).length ∧
      HasEntries limit n ((p.drop 8).drop (entryLength p))

instance decidableHasEntries (limit : Nat) : ∀ n p, Decidable (HasEntries limit n p)
  | 0, _ => .isTrue trivial
  | n + 1, _ => @instDecidableAnd _ _ _ (@instDecidableAnd _ _ _ (@instDecidableAnd _ _ _
      (decidableHasEntries limit n _)))

/-- The lengths of the first `n` strings. -/
def entryLengths : Nat → List UInt8 → List Nat
  | 0, _ => []
  | n + 1, p => entryLength p :: entryLengths n ((p.drop 8).drop (entryLength p))

theorem length_entryLengths (n : Nat) (p : List UInt8) : (entryLengths n p).length = n := by
  induction n generalizing p with
  | zero => rfl
  | succ n ih => rw [entryLengths, List.length_cons, ih]

theorem entryLength_lt (p : List UInt8) : entryLength p < 2 ^ 32 :=
  Nat.lt_of_lt_of_le (leNat_lt _) (Nat.pow_le_pow_right (by decide) (List.length_take_le 4 _))

end ChocoOs.Tok

namespace ChocoOs.Qwen
open ProgLib ChocoOs.Tok

/-- `Tokenizer` (`qwen.c:93-102`). The scores are the bits of floats. -/
structure FileTokenizer extends Tokenizer UInt32 where
  bosTokenId : Nat
  eosTokenId : Nat

/-- `n * size` as a `size_t`. -/
def arraySize (n : Int) (size : Nat) : Nat := (n * size % addrSpace).toNat

theorem arraySize_of_lt {n size : Nat} (h : n * size < addrSpace) :
    arraySize n size = n * size := by
  have hcast : (n : Int) * (size : Int) % (addrSpace : Int) = ((n * size % addrSpace : Nat) : Int) := by
    push_cast
    rfl
  rw [arraySize, hcast, Int.toNat_natCast, Nat.mod_eq_of_lt h]

/-- The loop over the strings (`qwen.c:267-283`). `used` bytes of the `size` bytes for the strings
    are taken. The inner `none` is a return of -1. -/
def readTokens (size : Nat) : Nat → List UInt8 → Nat → Option (Option (List CString × List UInt32))
  | 0, _, _ => some (some ([], []))
  | n + 1, p, used =>
    if p.length < 8 then some none
    else
      let score := UInt32.ofNat (leNat (p.take 4))
      let len := leNat ((p.drop 4).take 4)
      let p := p.drop 8
      if p.length < len then some none
      else if size < used + len + 1 then none
      else (readTokens size n (p.drop len) (used + len + 1)).map fun r =>
        r.map fun (vocab, scores) => (.ofBytes (p.take len) :: vocab, score :: scores)

/-- `build_tokenizer` (`qwen.c:245-293`). -/
def buildTokenizer (pick : Pick) (heap : Arena) (data : List UInt8) (vocabSize : Int) :
    Option (Arena × Option FileTokenizer) :=
  if data.length < 12 then some (heap, none)
  else
    let vocab := heap.alloc pick (arraySize vocabSize 8)
    let scores := vocab.2.alloc pick (arraySize vocabSize 4)
    let arena := scores.2.alloc pick data.length
    if vocab.1 = 0 ∨ scores.1 = 0 ∨ arena.1 = 0 then some (arena.2, none)
    else
      match readTokens data.length vocabSize.toNat (data.drop 12) 0 with
      | none => none
      | some none => some (arena.2, none)
      | some (some (strings, bits)) =>
        let index := arena.2.alloc pick (arraySize vocabSize 16)
        if index.1 = 0 then some (index.2, none)
        else (tokSort vocabSize.toNat (vocabIndex strings)).map fun sorted =>
          (index.2, some {
            vocab := strings
            scores := bits
            sorted := sorted
            maxTokenLength := leNat (data.take 4)
            bosTokenId := leNat ((data.drop 4).take 4)
            eosTokenId := leNat ((data.drop 8).take 4) })

/-! ## What is accepted -/

/-- `t` is what `build_tokenizer` makes of some file, with some heap of the kernel. -/
def Accepted (t : FileTokenizer) : Prop :=
  ∃ (pick : Pick) (heap heap' : Arena) (data : List UInt8) (vocabSize : Int),
    heap.hi - heap.lo ≤ Heap.heapMax ∧ -2 ^ 31 ≤ vocabSize ∧ vocabSize < 2 ^ 31 ∧
      buildTokenizer pick heap data vocabSize = some (heap', some t)

theorem leNat_take_lt (bs : List UInt8) : leNat (bs.take 4) < 2 ^ 32 :=
  Nat.lt_of_lt_of_le (leNat_lt _) (Nat.pow_le_pow_right (by decide) (List.length_take_le 4 bs))

/-- The array of 16 bytes a token that the heap grants is not of a negative size, and it is not
    large. -/
theorem length_of_index {pick : Pick} {heap : Arena} {n : Int} (hmax : heap.hi - heap.lo ≤ Heap.heapMax)
    (hn : -2 ^ 31 ≤ n ∧ n < 2 ^ 31) (h : (heap.alloc pick (arraySize n 16)).1 ≠ 0) :
    n = n.toNat ∧ n.toNat * 16 ≤ Heap.heapMax := by
  have hfits := (Arena.length_le_of_alloc h).1
  have hheap : Heap.heapMax = 805306368 := by decide
  have has := addrSpace_eq
  unfold arraySize at hfits
  rw [has] at hfits
  omega

/-- As many strings and scores are read as there shall be. -/
theorem readTokens_length {size n used : Nat} {p : List UInt8} {vocab : List CString}
    {scores : List UInt32} (h : readTokens size n p used = some (some (vocab, scores))) :
    vocab.length = n ∧ scores.length = n := by
  induction n generalizing p used vocab scores with
  | zero =>
    obtain ⟨rfl, rfl⟩ : [] = vocab ∧ [] = scores := by simpa [readTokens] using h
    exact ⟨rfl, rfl⟩
  | succ n ih =>
    unfold readTokens at h
    extract_lets score len p at h
    split at h
    · cases h
    split at h
    · cases h
    split at h
    · cases h
    · obtain ⟨r, hr, heq⟩ := Option.map_eq_some_iff.mp h
      obtain ⟨⟨vocab', scores'⟩, rfl, heq⟩ := Option.map_eq_some_iff.mp heq
      obtain ⟨hv, hs⟩ := ih hr
      cases heq
      exact ⟨congrArg (· + 1) hv, congrArg (· + 1) hs⟩

/-- Strings are read as long as there are entries. The memory for them suffices, since an entry is
    longer than its string. -/
theorem readTokens_eq {size n used : Nat} {p : List UInt8} (hroom : used + p.length ≤ size) :
    ∃ r, readTokens size n p used = some r ∧ (r.isSome = true ↔ HasEntries (2 ^ 32) n p) := by
  induction n generalizing p used with
  | zero => exact ⟨_, rfl, fun _ => trivial, fun _ => rfl⟩
  | succ n ih =>
    unfold readTokens HasEntries
    have hlen := entryLength_lt p
    change entryLength p < 2 ^ 32 at hlen
    by_cases hhead : p.length < 8
    · rw [if_pos hhead]
      exact ⟨none, rfl, nofun, fun h => absurd h.1 (Nat.not_le.mpr hhead)⟩
    rw [if_neg hhead]
    change ∃ r, (if (p.drop 8).length < entryLength p then some none else
      if size < used + entryLength p + 1 then none else
        (readTokens size n ((p.drop 8).drop (entryLength p)) (used + entryLength p + 1)).map
          _) = some r ∧ _
    by_cases hstr : (p.drop 8).length < entryLength p
    · rw [if_pos hstr]
      exact ⟨none, rfl, nofun, fun h => absurd h.2.2.1 (Nat.not_le.mpr hstr)⟩
    have hrest : ((p.drop 8).drop (entryLength p)).length = p.length - 8 - entryLength p := by
      rw [List.length_drop, List.length_drop]
    rw [List.length_drop] at hstr
    rw [List.length_drop, if_neg hstr, if_neg (show ¬ size < used + entryLength p + 1 by omega)]
    obtain ⟨r, hr, hiff⟩ := @ih (used + entryLength p + 1) ((p.drop 8).drop (entryLength p))
      (by omega)
    rw [hr, Option.map_some]
    refine ⟨_, rfl, ?_⟩
    rw [Option.isSome_map, hiff]
    exact ⟨fun h => ⟨Nat.not_lt.mp hhead, hlen, Nat.not_lt.mp hstr, h⟩, fun h => h.2.2.2⟩

/-- The file has an entry for each of `n` tokens, and the heap grants all that `build_tokenizer` asks
    for. -/
def TokenizerLoads (pick : Pick) (heap : Arena) (data : List UInt8) (n : Int) : Prop :=
  12 ≤ data.length ∧ HasEntries (2 ^ 32) n.toNat (data.drop 12) ∧
    Arena.Grants pick [arraySize n 8, arraySize n 4, data.length, arraySize n 16] heap

instance (pick : Pick) (heap : Arena) (data : List UInt8) (n : Int) :
    Decidable (TokenizerLoads pick heap data n) := by
  unfold TokenizerLoads
  infer_instance

/-- `build_tokenizer` never frees, and accepts exactly what loads. -/
theorem buildTokenizer_eq (pick : Pick) {heap : Arena} (data : List UInt8) {n : Int}
    (hmax : heap.hi - heap.lo ≤ Heap.heapMax) (hn : -2 ^ 31 ≤ n ∧ n < 2 ^ 31) :
    ∃ heap' t, buildTokenizer pick heap data n = some (heap', t) ∧ heap.live <:+ heap'.live ∧
      (t.isSome = true ↔ TokenizerLoads pick heap data n) := by
  unfold buildTokenizer TokenizerLoads
  extract_lets vocab scores arena index
  by_cases hhead : data.length < 12
  · rw [if_pos hhead]
    exact ⟨_, _, rfl, List.suffix_rfl, nofun, fun h => absurd h.1 (Nat.not_le.mpr hhead)⟩
  rw [if_neg hhead]
  have hsuffix : heap.live <:+ arena.2.live := (heap.alloc_suffix pick _).trans
    ((vocab.2.alloc_suffix pick _).trans (scores.2.alloc_suffix pick _))
  by_cases hrefuse : vocab.1 = 0 ∨ scores.1 = 0 ∨ arena.1 = 0
  · rw [if_pos hrefuse]
    refine ⟨_, _, rfl, hsuffix, nofun, ?_⟩
    rintro ⟨-, -, hvocab, hscores, harena, -⟩
    rcases hrefuse with h0 | h0 | h0
    · exact absurd hvocab (Arena.alloc_eq_zero_iff.mp h0)
    · exact absurd hscores (Arena.alloc_eq_zero_iff.mp h0)
    · exact absurd harena (Arena.alloc_eq_zero_iff.mp h0)
  rw [if_neg hrefuse]
  have hroom : 0 + (data.drop 12).length ≤ data.length := by
    rw [List.length_drop]
    omega
  obtain ⟨r, hr, hiff⟩ := readTokens_eq (n := n.toNat) hroom
  rw [hr]
  cases r with
  | none =>
    refine ⟨_, _, rfl, hsuffix, nofun, fun h => ?_⟩
    exact absurd (hiff.mpr h.2.1) nofun
  | some r =>
    obtain ⟨strings, bits⟩ := r
    dsimp only
    have hindex : heap.live <:+ index.2.live := hsuffix.trans (arena.2.alloc_suffix pick _)
    by_cases h0 : index.1 = 0
    · rw [if_pos h0]
      refine ⟨_, _, rfl, hindex, nofun, ?_⟩
      rintro ⟨-, -, -, -, -, hgrant, -⟩
      exact absurd hgrant (Arena.alloc_eq_zero_iff.mp h0)
    rw [if_neg h0]
    have hregion : arena.2.hi - arena.2.lo = heap.hi - heap.lo := by
      have h₁ := heap.alloc_region pick (arraySize n 8)
      have h₂ := vocab.2.alloc_region pick (arraySize n 4)
      have h₃ := scores.2.alloc_region pick data.length
      rw [h₃.1, h₃.2, h₂.1, h₂.2, h₁.1, h₁.2]
    obtain ⟨-, hsize⟩ := length_of_index (hregion ▸ hmax) hn h0
    have hheap : Heap.heapMax = 805306368 := by decide
    obtain ⟨sorted, hsorted, -⟩ := tokSort_eq (n := n.toNat) (vocabIndex strings) (by omega)
    rw [hsorted, Option.map_some]
    refine ⟨_, _, rfl, hindex, fun _ => ⟨Nat.not_lt.mp hhead, hiff.mp rfl, ?_⟩, fun _ => rfl⟩
    exact ⟨Arena.fits_of_alloc fun h => hrefuse (.inl h),
      Arena.fits_of_alloc fun h => hrefuse (.inr (.inl h)),
      Arena.fits_of_alloc fun h => hrefuse (.inr (.inr h)), Arena.fits_of_alloc h0, trivial⟩

/-- The strings and scores are those that are read, and the header goes into the tokenizer as it is. -/
theorem fields_of_build {pick : Pick} {heap heap' : Arena} {data : List UInt8} {n : Int}
    {t : FileTokenizer} (h : buildTokenizer pick heap data n = some (heap', some t)) :
    readTokens data.length n.toNat (data.drop 12) 0 = some (some (t.vocab, t.scores)) ∧
      t.maxTokenLength = leNat (data.take 4) ∧ t.bosTokenId = leNat ((data.drop 4).take 4) ∧
      t.eosTokenId = leNat ((data.drop 8).take 4) := by
  unfold buildTokenizer at h
  extract_lets vocab scores arena at h
  split at h
  · cases h
  split at h
  · cases h
  split at h
  · cases h
  · cases h
  next hread =>
  split at h
  · cases h
  obtain ⟨sorted, -, heq⟩ := Option.map_eq_some_iff.mp h
  cases heq
  exact ⟨hread, rfl, rfl, rfl⟩

theorem maxTokenLength_of_build {pick : Pick} {heap heap' : Arena} {data : List UInt8} {n : Int}
    {t : FileTokenizer} (h : buildTokenizer pick heap data n = some (heap', some t)) :
    t.maxTokenLength = leNat (data.take 4) :=
  (fields_of_build h).2.1

theorem Accepted.built {t : FileTokenizer} (h : Accepted t) : t.Built := by
  obtain ⟨pick, heap, heap', data, n, hmax, hlo, hhi, h⟩ := h
  unfold buildTokenizer at h
  extract_lets vocab scores arena at h
  split at h
  · cases h
  split at h
  · cases h
  split at h
  · cases h
  · cases h
  next strings bits hread =>
  split at h
  · cases h
  next hgrant =>
  obtain ⟨sorted, hsorted, heq⟩ := Option.map_eq_some_iff.mp h
  cases heq
  obtain ⟨hv, hs⟩ := readTokens_length hread
  have hregion : arena.2.hi - arena.2.lo = heap.hi - heap.lo := by
    have h₁ := Arena.alloc_region pick (arraySize n 8) heap
    have h₂ := Arena.alloc_region pick (arraySize n 4) vocab.2
    have h₃ := Arena.alloc_region pick data.length scores.2
    rw [h₃.1, h₃.2, h₂.1, h₂.2, h₁.1, h₁.2]
  obtain ⟨-, hsize⟩ := length_of_index (hregion ▸ hmax) ⟨hlo, hhi⟩ hgrant
  refine ⟨?_, ?_, hs.trans hv.symm, leNat_take_lt data⟩
  · unfold IsIndex
    rw [hv]
    exact hsorted
  · rw [hv]
    exact hsize

end ChocoOs.Qwen
