import ChocoOs.Lib.Mapped
import ChocoOs.Qwen.TokenizerFile

/-!
# The tokenizer file of `llm.c`

`build_tokenizer` of `llm.c`. Every string gets a block of its own, so the heap changes with every
token read, also when the file turns out to be bad.
-/

namespace ChocoOs.Llama
open ProgLib ChocoOs.Tok

/-- `malloc(len + 1)` for an `int` that is not negative. -/
def mallocString (pick : Pick) (heap : Arena) (len : Nat) : Nat × Arena :=
  heap.alloc pick (Qwen.arraySize (int32 (len + 1)) 1)

/-- The loop over the strings (`llm.c:294-313`). `none` is a return of -1. -/
def readTokens (pick : Pick) :
    Nat → Arena → List UInt8 → Arena × Option (List CString × List UInt32)
  | 0, heap, _ => (heap, some ([], []))
  | n + 1, heap, p =>
    if p.length < 8 then (heap, none)
    else
      let score := UInt32.ofNat (leNat (p.take 4))
      let len := int32 (leNat ((p.drop 4).take 4))
      let p := p.drop 8
      if len < 0 ∨ p.length < len then (heap, none)
      else
        let str := mallocString pick heap len.toNat
        if str.1 = 0 then (str.2, none)
        else
          let r := readTokens pick n str.2 (p.drop len.toNat)
          (r.1, r.2.map fun (vocab, scores) =>
            (.ofBytes (p.take len.toNat) :: vocab, score :: scores))

/-- `build_tokenizer` (`llm.c:272-323`). -/
def buildTokenizer (pick : Pick) (heap : Arena) (data : List UInt8) (vocabSize : Int) :
    Option (Arena × Option (Tokenizer UInt32)) :=
  let vocab := heap.alloc pick (Qwen.arraySize vocabSize 8)
  let scores := vocab.2.alloc pick (Qwen.arraySize vocabSize 4)
  if vocab.1 = 0 ∨ scores.1 = 0 then some (scores.2, none)
  else if data.length < 4 then some (scores.2, none)
  else
    match readTokens pick vocabSize.toNat scores.2 (data.drop 4) with
    | (heap, none) => some (heap, none)
    | (heap, some (strings, bits)) =>
      let index := heap.alloc pick (Qwen.arraySize vocabSize 16)
      if index.1 = 0 then some (index.2, none)
      else (tokSort vocabSize.toNat (vocabIndex strings)).map fun sorted =>
        (index.2, some {
          vocab := strings
          scores := bits
          sorted := sorted
          maxTokenLength := leNat (data.take 4) })

/-! ## What is accepted -/

/-- `t` is what `build_tokenizer` makes of some file, with some heap of the kernel. -/
def Accepted (t : Tokenizer UInt32) : Prop :=
  ∃ (pick : Pick) (heap heap' : Arena) (data : List UInt8) (vocabSize : Int),
    heap.hi - heap.lo ≤ Heap.heapMax ∧ -2 ^ 31 ≤ vocabSize ∧ vocabSize < 2 ^ 31 ∧
      buildTokenizer pick heap data vocabSize = some (heap', some t)

theorem readTokens_region (pick : Pick) (n : Nat) (heap : Arena) (p : List UInt8) :
    (readTokens pick n heap p).1.lo = heap.lo ∧ (readTokens pick n heap p).1.hi = heap.hi := by
  induction n generalizing heap p with
  | zero => exact ⟨rfl, rfl⟩
  | succ n ih =>
    unfold readTokens
    extract_lets score len p str r
    have hstr := Arena.alloc_region pick (Qwen.arraySize (int32 (len.toNat + 1)) 1) heap
    split
    · exact ⟨rfl, rfl⟩
    split
    · exact ⟨rfl, rfl⟩
    split
    · exact hstr
    · exact ⟨(ih _ _).1.trans hstr.1, (ih _ _).2.trans hstr.2⟩

/-- As many strings and scores are read as there shall be. -/
theorem readTokens_length {pick : Pick} {n : Nat} {heap : Arena} {p : List UInt8}
    {vocab : List CString} {scores : List UInt32}
    (h : (readTokens pick n heap p).2 = some (vocab, scores)) :
    vocab.length = n ∧ scores.length = n := by
  induction n generalizing heap p vocab scores with
  | zero =>
    obtain ⟨rfl, rfl⟩ : [] = vocab ∧ [] = scores := by simpa [readTokens] using h
    exact ⟨rfl, rfl⟩
  | succ n ih =>
    unfold readTokens at h
    extract_lets score len p str r at h
    split at h
    · cases h
    split at h
    · cases h
    split at h
    · cases h
    · obtain ⟨⟨vocab', scores'⟩, hr, heq⟩ := Option.map_eq_some_iff.mp h
      obtain ⟨hv, hs⟩ := ih hr
      cases heq
      exact ⟨congrArg (· + 1) hv, congrArg (· + 1) hs⟩

/-- The sizes of the strings with their NUL. -/
def stringSizes (n : Nat) (p : List UInt8) : List Nat :=
  (entryLengths n p).map fun len => Qwen.arraySize (int32 (len + 1)) 1

/-- A length is an `int` that is not negative, or it is too large for one. -/
theorem entry_int32 (p : List UInt8) : (entryLength p < 2 ^ 31 ∧ int32 (entryLength p) = entryLength p) ∨
    (¬ entryLength p < 2 ^ 31 ∧ int32 (entryLength p) < 0) := by
  have hlt := entryLength_lt p
  unfold int32
  split
  · next h => exact .inl ⟨h, rfl⟩
  · next h => exact .inr ⟨h, by omega⟩

/-- Strings are read as long as there are entries and the heap grants a block for each. -/
theorem readTokens_eq (pick : Pick) (n : Nat) (heap : Arena) (p : List UInt8) :
    heap.live <:+ (readTokens pick n heap p).1.live ∧
      ((readTokens pick n heap p).2.isSome = true ↔
        HasEntries (2 ^ 31) n p ∧ Arena.Grants pick (stringSizes n p) heap) ∧
      (Arena.Grants pick (stringSizes n p) heap → HasEntries (2 ^ 31) n p →
        (readTokens pick n heap p).1 = Arena.allocAll pick (stringSizes n p) heap) := by
  induction n generalizing heap p with
  | zero => exact ⟨List.suffix_rfl, ⟨fun _ => ⟨trivial, trivial⟩, fun _ => rfl⟩, fun _ _ => rfl⟩
  | succ n ih =>
    unfold readTokens HasEntries
    by_cases hhead : p.length < 8
    · rw [if_pos hhead]
      have hno := Nat.not_le.mpr hhead
      exact ⟨List.suffix_rfl, ⟨fun h => absurd h Bool.false_ne_true, fun h => absurd h.1.1 hno⟩, fun _ h => absurd h.1 hno⟩
    rw [if_neg hhead]
    extract_lets score len q str r
    have hlen : len = int32 (entryLength p) := rfl
    by_cases hbad : len < 0 ∨ q.length < len
    · rw [if_pos hbad]
      have hno : ¬ (entryLength p < 2 ^ 31 ∧ entryLength p ≤ q.length) := by
        rintro ⟨hlt, hle⟩
        rcases entry_int32 p with ⟨-, heq⟩ | ⟨hno, -⟩
        · rw [hlen, heq] at hbad
          omega
        · exact hno hlt
      exact ⟨List.suffix_rfl, ⟨fun h => absurd h Bool.false_ne_true, fun h => absurd ⟨h.1.2.1, h.1.2.2.1⟩ hno⟩,
        fun _ h => absurd ⟨h.2.1, h.2.2.1⟩ hno⟩
    rw [if_neg hbad]
    have hint : entryLength p < 2 ^ 31 ∧ len = entryLength p := by
      rcases entry_int32 p with hint | ⟨-, hneg⟩
      · exact hint
      · exact absurd (.inl hneg) hbad
    obtain ⟨hlt, hnat⟩ := hint
    have htoNat : len.toNat = entryLength p := by omega
    have hle : entryLength p ≤ q.length := by omega
    have hsizes : stringSizes (n + 1) p =
        Qwen.arraySize (int32 (len.toNat + 1)) 1 :: stringSizes n (q.drop len.toNat) := by
      rw [htoNat]
      rfl
    have hsuffix : heap.live <:+ str.2.live := heap.alloc_suffix pick _
    rw [hsizes, ← htoNat]
    by_cases h0 : str.1 = 0
    · rw [if_pos h0]
      have hno := Arena.alloc_eq_zero_iff.mp h0
      exact ⟨hsuffix, ⟨fun h => absurd h Bool.false_ne_true, fun h => absurd h.2.1 hno⟩, fun h => absurd h.1 hno⟩
    rw [if_neg h0]
    have hfits := Arena.fits_of_alloc h0
    obtain ⟨hmore, hiff, hall⟩ := ih str.2 (q.drop len.toNat)
    refine ⟨hsuffix.trans hmore, ?_, fun hgrant hentries => ?_⟩
    · rw [Option.isSome_map, hiff]
      constructor
      · rintro ⟨hentries, hgrant⟩
        exact ⟨⟨Nat.not_lt.mp hhead, htoNat ▸ hlt, htoNat ▸ hle, hentries⟩, hfits, hgrant⟩
      · rintro ⟨⟨-, -, -, hentries⟩, -, hgrant⟩
        exact ⟨hentries, hgrant⟩
    · exact hall hgrant.2 hentries.2.2.2

/-- The file has an entry for each of `n` tokens, and the heap grants all that `build_tokenizer` asks
    for. -/
def TokenizerLoads (pick : Pick) (heap : Arena) (data : List UInt8) (n : Int) : Prop :=
  4 ≤ data.length ∧ HasEntries (2 ^ 31) n.toNat (data.drop 4) ∧
    Arena.Grants pick ([Qwen.arraySize n 8, Qwen.arraySize n 4] ++
      stringSizes n.toNat (data.drop 4) ++ [Qwen.arraySize n 16]) heap

instance (pick : Pick) (heap : Arena) (data : List UInt8) (n : Int) :
    Decidable (TokenizerLoads pick heap data n) := by
  unfold TokenizerLoads
  infer_instance

/-- `build_tokenizer` never frees, and accepts exactly what loads. -/
theorem buildTokenizer_eq (pick : Pick) {heap : Arena} (data : List UInt8) {n : Int}
    (hmax : heap.hi - heap.lo ≤ Heap.heapMax) (hn : -2 ^ 31 ≤ n ∧ n < 2 ^ 31) :
    ∃ heap' t, buildTokenizer pick heap data n = some (heap', t) ∧ heap.live <:+ heap'.live ∧
      (t.isSome = true ↔ TokenizerLoads pick heap data n) := by
  unfold buildTokenizer TokenizerLoads
  extract_lets vocab scores
  have hsuffix : heap.live <:+ scores.2.live :=
    (heap.alloc_suffix pick _).trans (vocab.2.alloc_suffix pick _)
  rw [List.append_assoc, Arena.grants_append]
  by_cases hrefuse : vocab.1 = 0 ∨ scores.1 = 0
  · rw [if_pos hrefuse]
    refine ⟨_, _, rfl, hsuffix, nofun, ?_⟩
    rintro ⟨-, -, ⟨hvocab, hscores, -⟩, -⟩
    rcases hrefuse with h0 | h0
    · exact absurd hvocab (Arena.alloc_eq_zero_iff.mp h0)
    · exact absurd hscores (Arena.alloc_eq_zero_iff.mp h0)
  rw [if_neg hrefuse]
  have htwo : Arena.Grants pick [Qwen.arraySize n 8, Qwen.arraySize n 4] heap :=
    ⟨Arena.fits_of_alloc fun h => hrefuse (.inl h), Arena.fits_of_alloc fun h => hrefuse (.inr h),
      trivial⟩
  have hscores : Arena.allocAll pick [Qwen.arraySize n 8, Qwen.arraySize n 4] heap = scores.2 := rfl
  rw [hscores, and_iff_right htwo]
  by_cases hhead : data.length < 4
  · rw [if_pos hhead]
    exact ⟨_, _, rfl, hsuffix, nofun, fun h => absurd h.1 (Nat.not_le.mpr hhead)⟩
  rw [if_neg hhead, and_iff_right (Nat.not_lt.mp hhead), Arena.grants_append]
  obtain ⟨hmore, hiff, hall⟩ := readTokens_eq pick n.toNat scores.2 (data.drop 4)
  have hregion := readTokens_region pick n.toNat scores.2 (data.drop 4)
  generalize readTokens pick n.toNat scores.2 (data.drop 4) = r at hmore hiff hall hregion
  obtain ⟨heap₁, r⟩ := r
  cases r with
  | none =>
    refine ⟨_, _, rfl, hsuffix.trans hmore, nofun, ?_⟩
    rintro ⟨hentries, hgrant, -⟩
    exact absurd (hiff.mpr ⟨hentries, hgrant⟩) nofun
  | some r =>
    obtain ⟨strings, bits⟩ := r
    obtain ⟨hentries, hgrant⟩ := hiff.mp rfl
    rw [← hall hgrant hentries, and_iff_right hentries, and_iff_right hgrant]
    dsimp only
    have hindex := (hsuffix.trans hmore).trans (heap₁.alloc_suffix pick (Qwen.arraySize n 16))
    by_cases h0 : (heap₁.alloc pick (Qwen.arraySize n 16)).1 = 0
    · rw [if_pos h0]
      refine ⟨_, _, rfl, hindex, nofun, ?_⟩
      rintro ⟨hgrant, -⟩
      exact absurd hgrant (Arena.alloc_eq_zero_iff.mp h0)
    rw [if_neg h0]
    have hsame : heap₁.hi - heap₁.lo = heap.hi - heap.lo := by
      have h₁ := heap.alloc_region pick (Qwen.arraySize n 8)
      have h₂ := vocab.2.alloc_region pick (Qwen.arraySize n 4)
      rw [hregion.1, hregion.2, h₂.1, h₂.2, h₁.1, h₁.2]
    obtain ⟨-, hsize⟩ := Qwen.length_of_index (hsame ▸ hmax) hn h0
    have hheap : Heap.heapMax = 805306368 := by decide
    obtain ⟨sorted, hsorted, -⟩ := tokSort_eq (n := n.toNat) (vocabIndex strings) (by omega)
    rw [hsorted, Option.map_some]
    exact ⟨_, _, rfl, hindex, fun _ => ⟨Arena.fits_of_alloc h0, trivial⟩, fun _ => rfl⟩

/-- The header goes into the tokenizer as it is. -/
theorem maxTokenLength_of_build {pick : Pick} {heap heap' : Arena} {data : List UInt8} {n : Int}
    {t : Tokenizer UInt32} (h : buildTokenizer pick heap data n = some (heap', some t)) :
    t.maxTokenLength = leNat (data.take 4) := by
  unfold buildTokenizer at h
  extract_lets vocab scores at h
  split at h
  · cases h
  split at h
  · cases h
  split at h
  · cases h
  extract_lets index at h
  split at h
  · cases h
  obtain ⟨sorted, -, heq⟩ := Option.map_eq_some_iff.mp h
  cases heq
  rfl

theorem Accepted.built {t : Tokenizer UInt32} (h : Accepted t) : t.Built := by
  obtain ⟨pick, heap, heap', data, n, hmax, hlo, hhi, h⟩ := h
  unfold buildTokenizer at h
  extract_lets vocab scores at h
  split at h
  · cases h
  split at h
  · cases h
  split at h
  · cases h
  next heap₁ strings bits hread =>
  extract_lets index at h
  split at h
  · cases h
  next hgrant =>
  obtain ⟨sorted, hsorted, heq⟩ := Option.map_eq_some_iff.mp h
  cases heq
  obtain ⟨hv, hs⟩ := @readTokens_length pick n.toNat scores.2 (data.drop 4) strings bits
    (by rw [hread])
  have hregion : heap₁.hi - heap₁.lo = heap.hi - heap.lo := by
    have h₁ := Arena.alloc_region pick (Qwen.arraySize n 8) heap
    have h₂ := Arena.alloc_region pick (Qwen.arraySize n 4) vocab.2
    have h₃ := readTokens_region pick n.toNat scores.2 (data.drop 4)
    rw [hread] at h₃
    rw [h₃.1, h₃.2, h₂.1, h₂.2, h₁.1, h₁.2]
  obtain ⟨-, hsize⟩ := Qwen.length_of_index (hregion ▸ hmax) ⟨hlo, hhi⟩ hgrant
  refine ⟨?_, ?_, hs.trans hv.symm, Qwen.leNat_take_lt data⟩
  · unfold IsIndex
    rw [hv]
    exact hsorted
  · rw [hv]
    exact hsize

end ChocoOs.Llama
