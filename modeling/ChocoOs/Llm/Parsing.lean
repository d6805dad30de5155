import ChocoOs.Llama.TokenizerText
import ChocoOs.Qwen.TokenizerText

/-!
# Any file as a tokenizer file

Both loops over the strings keep to the file and to the memory that was granted for the strings,
whatever lengths the file gives.
-/

namespace ChocoOs.Llm
open ProgLib ProgLib.Block ChocoOs.Tok

/-- The arena of `qwen.c` has as many bytes as the file, and all strings are in it. -/
structure InArena (size n : Nat) (a : Qwen.PlacedTokenizer) : Prop where
  arena : a.arena.length = size
  length : a.vocab.length = n
  strings : ∀ i ∈ a.vocab, ∃ s, textAt a.arena i = some s

/-- The block of a string has a byte more than the file gives for it, and the string is in it. -/
structure InBlocks (lens : List Nat) (a : Llama.PlacedTokenizer) : Prop where
  blocks : (a.vocab.map fun b => b.2.length) = lens.map (· + 1)
  strings : ∀ b ∈ a.vocab, ∃ s, textAt b.2 0 = some s

theorem exists_text {α : Type} {f : α → Option CString} {as : List α} {ss : List CString}
    (h : List.Forall₂ (fun a s => f a = some s) as ss) : ∀ a ∈ as, ∃ s, f a = some s := by
  induction h with
  | nil => nofun
  | cons hab _ ih => exact List.forall_mem_cons.mpr ⟨⟨_, hab⟩, ih⟩

/-- Neither engine accesses a byte outside the file or outside the memory for the strings. -/
theorem tokenizer_parsing_safe (pick : Pick) {heap : Arena} (left : Nat → UInt8) {data : List UInt8}
    (hsize : data.length < 2 ^ 31) {n : Int} (h0 : 0 ≤ n) (hn : n < 2 ^ 31)
    (hmax : heap.hi - heap.lo ≤ Heap.heapMax) :
    (∃ heap' r, Qwen.placeTokenizer pick heap left data n = some (heap', r) ∧
      ∀ a, r = some a → InArena data.length n.toNat a) ∧
    ∃ heap' r, Llama.placeTokenizer pick heap left data n = some (heap', r) ∧
      ∀ a, r = some a → a.vocab.length = n ∧ InBlocks (entryLengths n.toNat (data.drop 4)) a := by
  constructor
  · obtain ⟨heap', r, r', hplace, -, hrel⟩ := Qwen.placeTokenizer_eq pick left data hmax ⟨by omega, hn⟩
    refine ⟨heap', r, hplace, fun a ha => ?_⟩
    subst ha
    cases hrel with
    | some h => exact ⟨h.arena, h.length, exists_text h.vocab⟩
  · obtain ⟨heap', r, r', hplace, -, hrel⟩ :=
      Llama.placeTokenizer_eq pick left hsize hmax ⟨by omega, hn⟩
    refine ⟨heap', r, hplace, fun a ha => ?_⟩
    subst ha
    cases hrel with
    | some h =>
      refine ⟨?_, h.lengths, exists_text h.vocab⟩
      have hcount := congrArg List.length h.lengths
      rw [List.length_map, List.length_map, length_entryLengths] at hcount
      omega

/-- A file that both engines accept for one token: `qwen.c` reads a NUL in its string, which ends it
    early. -/
def bothFile : List UInt8 :=
  [0, 0, 0, 0, 0, 0, 0, 0, 1, 0, 0, 0, 97, 0, 0, 0, 2, 0, 0, 0, 98, 0]

theorem tokenizer_parsing_safe_boot :
    (∃ heap' a, Qwen.placeTokenizer (fun a _ => a.lo + 64 * a.live.length) ⟨0x1000, 0x2000, [], []⟩
      (fun _ => 7) bothFile 1 = some (heap', some a) ∧ InArena 22 1 a) ∧
    ∃ heap' a, Llama.placeTokenizer (fun a _ => a.lo + 64 * a.live.length) ⟨0x1000, 0x2000, [], []⟩
      (fun _ => 7) bothFile 1 = some (heap', some a) ∧
        InBlocks (entryLengths 1 (bothFile.drop 4)) a := by
  obtain ⟨⟨heap₁, r₁, hqwen, hin₁⟩, heap₂, r₂, hllama, hin₂⟩ :=
    @tokenizer_parsing_safe (fun a _ => a.lo + 64 * a.live.length) ⟨0x1000, 0x2000, [], []⟩ (fun _ => 7)
      bothFile (by decide) 1 (by decide) (by decide) (by decide)
  have hsome₁ : (Qwen.placeTokenizer (fun a _ => a.lo + 64 * a.live.length)
      ⟨0x1000, 0x2000, [], []⟩ (fun _ => 7) bothFile 1).map (fun r => r.2.isSome) = some true := by
    decide +kernel
  have hsome₂ : (Llama.placeTokenizer (fun a _ => a.lo + 64 * a.live.length)
      ⟨0x1000, 0x2000, [], []⟩ (fun _ => 7) bothFile 1).map (fun r => r.2.isSome) = some true := by
    decide +kernel
  rw [hqwen] at hsome₁
  rw [hllama] at hsome₂
  obtain ⟨a₁, rfl⟩ := Option.isSome_iff_exists.mp (Option.some.inj hsome₁)
  obtain ⟨a₂, rfl⟩ := Option.isSome_iff_exists.mp (Option.some.inj hsome₂)
  exact ⟨⟨heap₁, a₁, hqwen, hin₁ a₁ rfl⟩, heap₂, a₂, hllama, (hin₂ a₂ rfl).2⟩

end ChocoOs.Llm
