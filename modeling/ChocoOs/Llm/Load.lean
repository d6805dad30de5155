import ChocoOs.Llama.Load

/-!
# Both loaders

Neither loader looks at the size of the model's file, and neither frees what it has got when it
fails. The theorems say for which headers, tokenizer files and heaps that does no harm.
-/

namespace ChocoOs.Llm
open ProgLib ChocoOs.Tok ChocoOs.Heap ChocoOs.Qwen ChocoOs.Llama

/-! ## What is mapped -/

/-- For all files: a loader returns, and fails or has set up pointers to tensors in the file only,
    exactly if the header divides by nothing that is zero and, in case all that it asks for is granted,
    gives sizes that fit. -/
theorem load_inside_iff (pick : Pick) {heap : Arena} (hmax : heap.hi - heap.lo ≤ heapMax)
    (file tok : Mapped) {slots : Fin 2 → ModelSlot} {moduleFind : List UInt8 → Option Mapped}
    {model : ModelName} (hnew : ∀ i, (slots i).loaded = true → (slots i).name ≠ model)
    (hfree : ∃ i, (slots i).loaded = false) (hmod : moduleFind (fileName model) = some file)
    (htok : moduleFind (tokenizerFor model) = some tok) :
    (Sound (Qwen.Model.Inside file) (loadQwen pick heap false (some file) (some tok)) ↔
      (GoodMagic file → Qwen.LoadsInside pick heap file tok)) ∧
    (Sound (Llama.Model.Inside file) (loadModel pick heap slots moduleFind model) ↔
      Llama.LoadsInside pick heap file tok) := by
  constructor
  · exact loadQwen_sound_iff pick hmax file tok
  · rw [loadModel_eq hnew hfree hmod htok]
    exact loadFile_sound_iff pick hmax file tok

def loadHeap : Arena := ⟨0x100000, 0x200000, [], []⟩

def loadPick : Pick := fun a _ => a.lo + 1024 * a.live.length

/-- A file of `size` bytes that begins with these; all others are zero. -/
def zeroFile (front : List UInt8) (size : Nat) (h : size < 2 ^ 20) : Mapped where
  address := 0x200000
  size := size
  byte := fun i => front.getD i 0
  fits := by
    rw [addrSpace_eq]
    omega

/-- A checkpoint header: all numbers are 1, but there are `headDim` and `groupSize`. -/
def qwenHeader (headDim groupSize : UInt8) : List UInt8 :=
  [0x31, 0x63, 0x6A, 0x61, 1, 0, 0, 0] ++ (List.replicate 7 [1, 0, 0, 0]).flatten ++
    [headDim, 0, 0, 0, 1, 0, 0, 0, groupSize, 0, 0, 0]

/-- A model header: all numbers are 1, but there are `nHeads` heads. -/
def llamaHeader (nHeads : UInt8) : List UInt8 :=
  (List.replicate 3 [1, 0, 0, 0]).flatten ++ [nHeads, 0, 0, 0] ++
    (List.replicate 3 [1, 0, 0, 0]).flatten

/-- One token, for `llm.c` behind 4 bytes and for `qwen.c` behind 12. -/
def tokenEntries (header : Nat) : List UInt8 :=
  List.replicate header 0 ++ [0, 0, 0, 0, 1, 0, 0, 0, 97]

def qwenTokens : Mapped := zeroFile (tokenEntries 12) 21 (by decide)

def llamaTokens : Mapped := zeroFile (tokenEntries 4) 13 (by decide)

/-- The tensors of this checkpoint end with the file. -/
def qwenFile : Mapped := zeroFile (qwenHeader 2 1) 344 (by decide)

def llamaFile : Mapped := zeroFile (llamaHeader 1) 72 (by decide)

def shortQwenFile : Mapped := zeroFile (qwenHeader 2 1) 343 (by decide)

def shortLlamaFile : Mapped := zeroFile (llamaHeader 1) 71 (by decide)

def emptyFile : Mapped := zeroFile [] 0 (by decide)

def freeSlots : Fin 2 → ModelSlot := fun _ => ⟨[], false⟩

/-- Both modules of a model that is called `m`. -/
def findModules (file tok : Mapped) : List UInt8 → Option Mapped := fun name =>
  if name = fileName [109] then some file
  else if name = tokenizerFor [109] then some tok else none

theorem loadHeap_max : loadHeap.hi - loadHeap.lo ≤ heapMax := by decide

/-- The header of a model whose numbers are all 1. -/
def onesConfig : Llama.Config := ⟨1, 1, 1, 1, 1, 1, 1⟩

/-- Complete files are loaded: the tensors of the first one end with it, at byte 344, and those of the
    second one at byte 72. -/
theorem load_inside_iff_boot :
    Sound (Qwen.Model.Inside qwenFile)
      (loadQwen loadPick loadHeap false (some qwenFile) (some qwenTokens)) ∧
    Sound (Llama.Model.Inside llamaFile)
      (loadModel loadPick loadHeap freeSlots (findModules llamaFile llamaTokens) [109]) := by
  constructor
  · apply (@load_inside_iff loadPick loadHeap loadHeap_max qwenFile qwenTokens freeSlots
      (findModules qwenFile qwenTokens) [109] nofun ⟨0, rfl⟩ rfl rfl).1.mpr
    intro _
    decide +kernel
  · apply (@load_inside_iff loadPick loadHeap loadHeap_max llamaFile llamaTokens freeSlots
      (findModules llamaFile llamaTokens) [109] nofun ⟨0, rfl⟩ rfl rfl).2.mpr
    refine ⟨onesConfig, by decide +kernel, by decide +kernel, by decide +kernel, ?_⟩
    intro _ _
    decide

/-- Files that are a byte too short are loaded all the same, and a group size or a number of heads
    that is zero is divided by. -/
theorem not_load_inside :
    ¬ Sound (Qwen.Model.Inside shortQwenFile)
      (loadQwen loadPick loadHeap false (some shortQwenFile) (some qwenTokens)) ∧
    loadQwen loadPick loadHeap false (some (zeroFile (qwenHeader 2 0) 344 (by decide)))
      (some qwenTokens) = none ∧
    ¬ Sound (Llama.Model.Inside shortLlamaFile)
      (loadFile loadPick loadHeap shortLlamaFile llamaTokens) ∧
    loadFile loadPick loadHeap (zeroFile (llamaHeader 0) 72 (by decide)) llamaTokens = none := by
  refine ⟨?_, ?_, ?_, ?_⟩
  · rw [loadQwen_sound_iff loadPick loadHeap_max]
    intro hinside
    exact absurd (hinside (by decide +kernel)) (by decide +kernel)
  · apply Option.not_isSome_iff_eq_none.mp
    decide
  · rw [loadFile_sound_iff loadPick loadHeap_max]
    rintro ⟨c, hvocab, -, -, hfit⟩
    have hones : absVocab (Llama.readConfig shortLlamaFile) = some onesConfig := by decide
    obtain rfl : onesConfig = c := Option.some.inj (hones.symm.trans hvocab)
    exact absurd (hfit (by decide +kernel) (by decide +kernel)) (by decide +kernel)
  · apply Option.not_isSome_iff_eq_none.mp
    decide

/-! ## What is left behind -/

/-- For all heaps and files: a call that fails leaves the heap as it was exactly if the heap had
    refused what the loader asks for first: in `qwen.c` the tables of the layers, in `llm.c` every
    buffer of the run state. Otherwise what was granted is lost. -/
theorem load_leaves_heap_iff (used : Arena → Nat) (pick : Pick) {heap heap' : Arena}
    (hmax : heap.hi - heap.lo ≤ heapMax) :
    (∀ loaded mod tok, loadQwen pick heap loaded mod tok = some (heap', .failed) →
      (Unchanged used heap heap' ↔ ∀ file file', mod = some file → tok = some file' →
        GoodMagic file → Client.Refused pick (tableSizes (Qwen.readConfig file)) heap)) ∧
    (∀ slots moduleFind model,
      loadModel pick heap slots moduleFind model = some (heap', .failed) →
      (Unchanged used heap heap' ↔ (∀ i, (slots i).loaded = true) ∨
        ∀ file tok c, moduleFind (fileName model) = some file →
          moduleFind (tokenizerFor model) = some tok → absVocab (Llama.readConfig file) = some c →
            Client.Refused pick c.stateSizes heap)) := by
  constructor
  · intro loaded mod tok h
    exact loadQwen_unchanged_iff used pick hmax h
  · intro slots moduleFind model h
    exact loadModel_unchanged_iff used pick hmax h

/-- How many blocks a failed call has left behind. -/
def blocksAfter {W : Type} : Option (Arena × LoadResult W) → Option Nat
  | some (heap, .failed) => some heap.live.length
  | _ => none

theorem blocksAfter_eq_some {W : Type} {o : Option (Arena × LoadResult W)} {n : Nat}
    (h : blocksAfter o = some n) : ∃ heap, o = some (heap, .failed) ∧ heap.live.length = n := by
  unfold blocksAfter at h
  split at h
  · next heap =>
    exact ⟨heap, rfl, Option.some.inj h⟩
  · cases h

def noHeap : Arena := ⟨0, 0, [], []⟩

/-- With no room at all nothing is lost. -/
theorem load_leaves_heap_iff_boot :
    (∃ heap', loadQwen loadPick noHeap false (some qwenFile) (some qwenTokens) =
        some (heap', .failed) ∧ Unchanged (fun heap => heap.live.length) noHeap heap') ∧
    ∃ heap', loadModel loadPick noHeap freeSlots (findModules llamaFile llamaTokens) [109] =
        some (heap', .failed) ∧ Unchanged (fun heap => heap.live.length) noHeap heap' := by
  constructor
  · have hrun : blocksAfter (loadQwen loadPick noHeap false (some qwenFile) (some qwenTokens)) =
        some 0 := by decide +kernel
    obtain ⟨heap', h, -⟩ := blocksAfter_eq_some hrun
    refine ⟨heap', h, ((load_leaves_heap_iff _ loadPick (by decide)).1 _ _ _ h).mpr ?_⟩
    rintro file file' hmod - -
    obtain rfl := Option.some.inj hmod
    decide +kernel
  · have hrun : blocksAfter (loadModel loadPick noHeap freeSlots (findModules llamaFile llamaTokens)
        [109]) = some 0 := by decide +kernel
    obtain ⟨heap', h, -⟩ := blocksAfter_eq_some hrun
    refine ⟨heap', h, ((load_leaves_heap_iff _ loadPick (by decide)).2 _ _ _ h).mpr (.inr ?_)⟩
    rintro file tok c hmod - hvocab
    obtain rfl : llamaFile = file := Option.some.inj hmod
    have hones : absVocab (Llama.readConfig llamaFile) = some onesConfig := by decide
    obtain rfl : onesConfig = c := Option.some.inj (hones.symm.trans hvocab)
    decide +kernel

/-- With an empty tokenizer file both loaders fail, one after 21 blocks and the other after 12. -/
theorem not_load_leaves_heap :
    (∃ heap', loadQwen loadPick loadHeap false (some qwenFile) (some emptyFile) =
        some (heap', .failed) ∧ heap'.live.length = 21 ∧ loadHeap.live.length = 0) ∧
    ∃ heap', loadFile loadPick loadHeap llamaFile emptyFile = some (heap', .failed) ∧
        heap'.live.length = 12 ∧ loadHeap.live.length = 0 := by
  constructor
  · have hrun : blocksAfter (loadQwen loadPick loadHeap false (some qwenFile) (some emptyFile)) =
        some 21 := by decide +kernel
    obtain ⟨heap', h, hlen⟩ := blocksAfter_eq_some hrun
    exact ⟨heap', h, hlen, rfl⟩
  · have hrun : blocksAfter (loadFile loadPick loadHeap llamaFile emptyFile) = some 12 := by
      decide +kernel
    obtain ⟨heap', h, hlen⟩ := blocksAfter_eq_some hrun
    exact ⟨heap', h, hlen, rfl⟩

end ChocoOs.Llm
