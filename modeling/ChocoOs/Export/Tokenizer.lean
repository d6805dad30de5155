import ChocoOs.Lib.Word
import ChocoOs.Lib.Dict
import Mathlib.Data.List.Nodup

/-!
# The tokenizer exporter

`export_tokenizer` of `export_qwen3.py`. Python strings are lists of characters; `none` stands for
an exception. The logarithm is a parameter: `score` gives the bits of the float that is packed for
a rank.
-/

namespace ChocoOs.Export
open ProgLib

/-- The bytes that stand for themselves. -/
def printable : List Nat := List.range' 33 94 ++ List.range' 161 12 ++ List.range' 174 82

/-- The other bytes, which get the characters from 256 on. -/
def others : List Nat := (List.range 256).filter fun b => !printable.contains b

/-- `bytes_to_unicode` (`export_qwen3.py:122-136`). -/
@[irreducible] def bytesToUnicode : Dict Nat Char :=
  (printable ++ others).zip ((printable ++ List.range' 256 others.length).map Char.ofNat)

/-- `u2b` (`export_qwen3.py:140`). -/
def u2b : Dict Char Nat := .ofList (bytesToUnicode.map Prod.swap)

/-- `to_bytes` (`export_qwen3.py:142-145`). -/
def toBytes (token : List Char) : List UInt8 :=
  token.flatMap fun ch =>
    match u2b.get? ch with
    | some b => [UInt8.ofNat b]
    | none => String.utf8EncodeChar ch

/-- An entry of `merges` in `tokenizer.json`: a list of strings or one string. -/
inductive JsonMerge where
  | parts (strs : List (List Char))
  | text (str : List Char)

/-- What `str.split()` splits at. -/
def isSpace (c : Char) : Bool :=
  (9 ≤ c.val && c.val ≤ 13) || (28 ≤ c.val && c.val ≤ 32) || c.val == 0x85 || c.val == 0xA0 ||
    c.val == 0x1680 || (0x2000 ≤ c.val && c.val ≤ 0x200A) || c.val == 0x2028 || c.val == 0x2029 ||
    c.val == 0x202F || c.val == 0x205F || c.val == 0x3000

/-- `"".join(m if isinstance(m, list) else m.split())`. -/
def JsonMerge.joined : JsonMerge → List Char
  | .parts strs => strs.flatten
  | .text str => str.filter fun c => !isSpace c

/-- What is read of `tokenizer.json`. -/
structure TokJson where
  vocab : List (List Char × Nat)
  merges : List JsonMerge
  addedTokens : List (List Char × Nat)

/-- `id_to_token` (`export_qwen3.py:151-155`). -/
def TokJson.idToToken (j : TokJson) : Dict Nat (List UInt8 × List Char) :=
  (Dict.ofList ((Dict.ofList j.vocab).map fun p => (p.2, toBytes p.1, p.1))).update
    ((Dict.ofList j.addedTokens).map fun p => (p.2, p.1.flatMap String.utf8EncodeChar, p.1))

/-- `merge_rank` (`export_qwen3.py:157-160`). -/
def TokJson.mergeRank (j : TokJson) : Dict (List Char) Nat :=
  .ofList (j.merges.zipIdx.map fun p => (p.1.joined, p.2))

/-- `raw` of the token `i` (`export_qwen3.py:167`). -/
def TokJson.raw (j : TokJson) (i : Nat) : List UInt8 := (j.idToToken.get? i).elim [] Prod.fst

/-- `rank` of the token `i` (`export_qwen3.py:167-168`). -/
def TokJson.rank (j : TokJson) (i : Nat) : Option Nat :=
  (j.idToToken.get? i).bind fun t => if t.2 = [] then none else j.mergeRank.get? t.2

/-- `struct.pack("<I", n)`. -/
def packWord (n : Nat) : Option (List UInt8) := if n < 2 ^ 32 then some (leBytes 4 n) else none

/-- A token as it is written. -/
def tokenEntry (score : UInt32) (raw : List UInt8) : List UInt8 :=
  leBytes 4 score.toNat ++ leBytes 4 raw.length ++ raw

/-- One round of the loop over the ids (`export_qwen3.py:166-171`). -/
def TokJson.writeToken (j : TokJson) (score : Option Nat → UInt32) (i : Nat) : Option (List UInt8) :=
  if (j.raw i).length < 2 ^ 32 then some (tokenEntry (score (j.rank i)) (j.raw i)) else none

/-- `export_tokenizer` (`export_qwen3.py:139-172`). -/
def exportTokenizer (score : Option Nat → UInt32) (vocabSize bos eos : Nat) (j : TokJson) :
    Option (List UInt8) := do
  let maxLen ← (j.idToToken.map fun p => p.2.1.length).max?
  let maxLen ← packWord maxLen
  let bos ← packWord bos
  let eos ← packWord eos
  let tokens ← (List.range vocabSize).mapM (j.writeToken score)
  return maxLen ++ bos ++ eos ++ tokens.flatten

/-- The same file for given scores and strings (`export_qwen3.py:163-171`). -/
def writeTokens (bos eos : Nat) (es : List (UInt32 × List UInt8)) : Option (List UInt8) := do
  let maxLen ← (es.map fun e => e.2.length).max?
  let maxLen ← packWord maxLen
  let bos ← packWord bos
  let eos ← packWord eos
  let tokens ← es.mapM fun e => if e.2.length < 2 ^ 32 then some (tokenEntry e.1 e.2) else none
  return maxLen ++ bos ++ eos ++ tokens.flatten

/-- A tokenizer file. -/
def tokenizerFile (maxLen bos eos : Nat) (es : List (UInt32 × List UInt8)) : List UInt8 :=
  leBytes 4 maxLen ++ leBytes 4 bos ++ leBytes 4 eos ++ es.flatMap fun e => tokenEntry e.1 e.2

/-! ## The byte characters -/

/-- The character that stands for a byte in `tokenizer.json`. -/
def byteChar (b : UInt8) : Char := (bytesToUnicode.get? b.toNat).getD default

theorem mem_printable {n : Nat} :
    n ∈ printable ↔ (33 ≤ n ∧ n < 127) ∨ (161 ≤ n ∧ n < 173) ∨ (174 ≤ n ∧ n < 256) := by
  unfold printable
  simp only [List.mem_append, List.mem_range'_1]
  omega

/-- The numbers of the characters. -/
theorem mem_chars {n : Nat} (h : n ∈ printable ++ List.range' 256 others.length) :
    n ∈ printable ∨ (256 ≤ n ∧ n < 512) := by
  have hlen : others.length ≤ 256 := by
    unfold others
    exact Nat.le_trans (List.length_filter_le _ _) (Nat.le_of_eq List.length_range)
  refine (List.mem_append.mp h).imp_right fun h => ?_
  rw [List.mem_range'_1] at h
  omega

theorem bytesToUnicode_keys : bytesToUnicode.map Prod.fst = printable ++ others := by
  unfold bytesToUnicode
  refine List.map_fst_zip (Nat.le_of_eq ?_)
  rw [List.length_map, List.length_append, List.length_append, List.length_range']

theorem bytesToUnicode_chars : bytesToUnicode.map Prod.snd =
    (printable ++ List.range' 256 others.length).map Char.ofNat := by
  unfold bytesToUnicode
  refine List.map_snd_zip (Nat.le_of_eq ?_)
  rw [List.length_map, List.length_append, List.length_append, List.length_range']

theorem val_ofNat {n : Nat} (h : n < 512) : (Char.ofNat n).val.toNat = n := by
  have hv : n.isValidChar := .inl (by omega)
  rw [Char.ofNat, dif_pos hv]
  rfl

theorem bytesToUnicode_nodup : (bytesToUnicode.map Prod.snd).Nodup := by
  rw [bytesToUnicode_chars]
  refine List.Nodup.map_on (fun a ha b hb he => ?_) ?_
  · have hlt : ∀ {n}, n ∈ printable ++ List.range' 256 others.length → n < 512 := fun hn => by
      rcases mem_chars hn with hn | hn
      · rw [mem_printable] at hn
        omega
      · exact hn.2
    rw [← val_ofNat (hlt ha), ← val_ofNat (hlt hb), he]
  · have hprintable : printable.Nodup := by
      unfold printable
      refine List.nodup_append.mpr ⟨List.nodup_append.mpr ⟨List.nodup_range', List.nodup_range',
        fun a ha b hb => ?_⟩, List.nodup_range', fun a ha b hb => ?_⟩
      all_goals
        simp only [List.mem_append, List.mem_range'_1] at ha hb
        omega
    refine List.nodup_append.mpr ⟨hprintable, List.nodup_range', fun a ha b hb => ?_⟩
    rw [mem_printable] at ha
    rw [List.mem_range'_1] at hb
    omega

theorem mem_bytesToUnicode (b : UInt8) : (b.toNat, byteChar b) ∈ bytesToUnicode := by
  have hkey : b.toNat ∈ bytesToUnicode.map Prod.fst := by
    rw [bytesToUnicode_keys]
    by_cases hb : b.toNat ∈ printable
    · exact List.mem_append_left _ hb
    · refine List.mem_append_right _ (List.mem_filter.mpr ⟨List.mem_range.mpr b.toNat_lt, ?_⟩)
      simpa using hb
  unfold byteChar
  cases hget : bytesToUnicode.get? b.toNat with
  | some c => exact Dict.mem_of_get? hget
  | none => exact absurd hget (Dict.get?_ne_none hkey)

theorem u2b_byteChar (b : UInt8) : u2b.get? (byteChar b) = some b.toNat := by
  have hmem : (byteChar b, b.toNat) ∈ bytesToUnicode.map Prod.swap :=
    List.mem_map.mpr ⟨_, mem_bytesToUnicode b, rfl⟩
  unfold u2b Dict.ofList
  refine Dict.get?_update_of_mem ?_ hmem
  rw [List.map_map]
  exact bytesToUnicode_nodup

theorem toBytes_byteChar (s : List UInt8) : toBytes (s.map byteChar) = s := by
  unfold toBytes
  induction s with
  | nil => rfl
  | cons b s ih =>
    rw [List.map_cons, List.flatMap_cons, ih, u2b_byteChar]
    simp only [UInt8.ofNat_toNat, List.singleton_append]

theorem byteChar_injective : Function.Injective byteChar := by
  intro a b h
  have ha := u2b_byteChar a
  rw [h, u2b_byteChar b] at ha
  exact (UInt8.toNat_inj.mp (Option.some.inj ha)).symm

theorem isSpace_byteChar (b : UInt8) : isSpace (byteChar b) = false := by
  have hmem : byteChar b ∈ bytesToUnicode.map Prod.snd :=
    List.mem_map.mpr ⟨_, mem_bytesToUnicode b, rfl⟩
  rw [bytesToUnicode_chars] at hmem
  obtain ⟨n, hn, hc⟩ := List.mem_map.mp hmem
  have hcases := mem_chars hn
  rw [mem_printable] at hcases
  have hval := val_ofNat (n := n) (by omega)
  rw [← hc]
  generalize Char.ofNat n = c at hval
  simp only [isSpace, Bool.or_eq_false_iff, Bool.and_eq_false_iff, decide_eq_false_iff_not,
    beq_eq_false_iff_ne, ne_eq, ← UInt32.toNat_inj, UInt32.le_iff_toNat_le, hval,
    UInt32.reduceToNat]
  omega

end ChocoOs.Export
