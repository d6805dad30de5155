import ChocoOs.Llama.StrBuffer
import ChocoOs.Llm.Generate
import ChocoOs.Qwen.StrBuffer

/-!
# The scratch buffers of both engines

`max_token_length` is read from the tokenizer file and bounds nothing. Both encoders size their
buffer with it, and both write more than that: `llm.c` a codepoint of the prompt, `qwen.c` a special
token. The `snprintf` of the merge loops is bounded by it too, and never writes more.
-/

namespace ChocoOs.Llm
open ProgLib ChocoOs.Tok

/-- A header of 31 is enough for every special token. -/
theorem not_longSpecial_of_max {S : Type} {t : Tokenizer S} (h : 31 ≤ t.maxTokenLength)
    (text : List UInt8) : ¬ Qwen.LongSpecial text (Qwen.bufferSize t) := by
  rintro ⟨pre, rest, k, -, hend, hlong⟩
  obtain ⟨hk, -⟩ := Qwen.endPos_lt hend
  unfold Qwen.bufferSize at hlong
  omega

/-- For tokenizers that `build_tokenizer` accepts and a text with room for its tokens: all that
    `encode` writes through `str_buffer` lies in the block that it got exactly if, in `llm.c`, there
    is no text or a block that holds its codepoints, and, in `qwen.c`, the block holds every special
    token of the text. -/
theorem str_buffer_inside_iff {t : Tokenizer UInt32} {t' : Qwen.FileTokenizer}
    (ht : Llama.Accepted t) (ht' : Qwen.Accepted t') (gt : UInt32 → UInt32 → Bool) (floor : UInt32)
    (pick : Pick) (heap : Arena) (text : CString) (bos : Bool) {max : Nat}
    (hmax : text.length + 2 ≤ max) :
    (Llama.EncodeInBuffer t gt floor max pick heap text.1 bos ↔
      text.1 = [] ∨ ((heap.alloc pick t.printSize).1 ≠ 0 ∧
        (5 ≤ t.printSize ∨ (t.printSize = 3 ∧ ¬ Llama.LongCodepoint text.1)))) ∧
    (Qwen.EncodeInBuffer t'.toTokenizer gt floor max pick heap text.1 ↔
      ((heap.alloc pick (Qwen.bufferSize t'.toTokenizer)).1 ≠ 0 →
        ¬ Qwen.LongSpecial text.1 (Qwen.bufferSize t'.toTokenizer))) := by
  have hlen : text.1.length + 2 ≤ max := hmax
  constructor
  · exact Llama.encodeInBuffer_iff ht.built gt floor pick heap bos hlen
  · exact Qwen.encodeInBuffer_iff ht'.built gt floor pick heap (by omega)

def bufferHeap : Arena := ⟨0x100000, 0x200000, [], []⟩

def bufferPick : Pick := fun a _ => a.lo + 1024 * a.live.length

/-- A tokenizer file with the token `a`; the middle of the header is for `qwen.c` only. -/
def tokenFile (max : UInt8) (middle : List UInt8) : List UInt8 :=
  [max, 0, 0, 0] ++ middle ++ [0, 0, 0, 0, 1, 0, 0, 0, 97]

theorem llama_accepts (max : UInt8) (hsome : ((Llama.buildTokenizer bufferPick bufferHeap
    (tokenFile max []) 1).bind Prod.snd).isSome = true) :
    ∃ t, Llama.Accepted t ∧ t.maxTokenLength = max.toNat := by
  obtain ⟨t, hbind⟩ := Option.isSome_iff_exists.mp hsome
  obtain ⟨⟨heap', o⟩, hbuild, rfl⟩ := Option.bind_eq_some_iff.mp hbind
  refine ⟨t, ⟨bufferPick, bufferHeap, heap', _, 1, by decide, by decide, by decide, hbuild⟩, ?_⟩
  rw [Llama.maxTokenLength_of_build hbuild]
  simp [tokenFile, leNat]

theorem qwen_accepts (max : UInt8) (hsome : ((Qwen.buildTokenizer bufferPick bufferHeap
    (tokenFile max [0, 0, 0, 0, 0, 0, 0, 0]) 1).bind Prod.snd).isSome = true) :
    ∃ t, Qwen.Accepted t ∧ t.maxTokenLength = max.toNat := by
  obtain ⟨t, hbind⟩ := Option.isSome_iff_exists.mp hsome
  obtain ⟨⟨heap', o⟩, hbuild, rfl⟩ := Option.bind_eq_some_iff.mp hbind
  refine ⟨t, ⟨bufferPick, bufferHeap, heap', _, 1, by decide, by decide, by decide, hbuild⟩, ?_⟩
  rw [Qwen.maxTokenLength_of_build hbuild]
  simp [tokenFile, leNat]

/-- With headers of 31 both engines stay in their buffers. -/
theorem str_buffer_inside_iff_boot : ∃ t t', Llama.Accepted t ∧ Qwen.Accepted t' ∧
    Llama.EncodeInBuffer t (fun a b => decide (b < a)) 0 100 bufferPick bufferHeap [226, 128, 153]
      true ∧
    Qwen.EncodeInBuffer t'.toTokenizer (fun a b => decide (b < a)) 0 100 bufferPick bufferHeap
      [226, 128, 153] := by
  obtain ⟨t, ht, hlen⟩ := llama_accepts 31 (by decide +kernel)
  obtain ⟨t', ht', hlen'⟩ := qwen_accepts 31 (by decide +kernel)
  have hsize : t.printSize = 65 := by
    rw [Tokenizer.printSize, hlen]
    rfl
  obtain ⟨hllama, hqwen⟩ := str_buffer_inside_iff ht ht' (fun a b => decide (b < a)) 0 bufferPick
    bufferHeap ⟨[226, 128, 153], by decide⟩ true (show 3 + 2 ≤ 100 by decide)
  refine ⟨t, t', ht, ht', hllama.mpr (.inr ⟨?_, .inl ?_⟩), hqwen.mpr fun _ => ?_⟩
  · rw [hsize]
    decide
  · rw [hsize]
    decide
  · exact not_longSpecial_of_max (Nat.le_of_eq hlen'.symm) _

/-- Headers of 0 make buffers of three bytes: too short for an apostrophe, and for the chat template
    around a prompt. -/
theorem not_str_buffer_inside : ∃ t t', Llama.Accepted t ∧ Qwen.Accepted t' ∧
    ¬ Llama.EncodeInBuffer t (fun a b => decide (b < a)) 0 100 bufferPick bufferHeap [226, 128, 153]
      true ∧
    ¬ Qwen.EncodeInBuffer t'.toTokenizer (fun a b => decide (b < a)) 0 100 bufferPick bufferHeap
      (tmplPre ++ [104] ++ tmplPost) := by
  obtain ⟨t, ht, hlen⟩ := llama_accepts 0 (by decide +kernel)
  obtain ⟨t', ht', hlen'⟩ := qwen_accepts 0 (by decide +kernel)
  have hsize : t.printSize = 3 := by
    rw [Tokenizer.printSize, hlen]
    rfl
  have hcap : Qwen.bufferSize t'.toTokenizer = 3 := by
    rw [Qwen.bufferSize, hlen']
    rfl
  refine ⟨t, t', ht, ht', fun hin => ?_, fun hin => ?_⟩
  · rcases (Llama.encodeInBuffer_iff ht.built _ 0 bufferPick bufferHeap true (by decide)).mp hin with
      hno | ⟨-, hfive | ⟨-, hshort⟩⟩
    · cases hno
    · omega
    · exact hshort ⟨[], 226, 128, 153, [], rfl, by decide, by decide⟩
  · refine (Qwen.encodeInBuffer_iff ht'.built _ 0 bufferPick bufferHeap (by decide)).mp hin ?_ ?_
    · rw [hcap]
      decide
    · rw [hcap]
      exact ⟨[], _, 11, rfl, by decide, by decide⟩

end ChocoOs.Llm
