import ChocoOs.Export.Bpe
import ChocoOs.Lib.Traverse
import ChocoOs.Qwen.TokenizerFile
import Mathlib.Algebra.GroupWithZero.Nat

/-!
# The tokenizer file there and back

What `export_tokenizer` writes for some strings and scores, `build_tokenizer` reads back as it was.
-/

namespace ChocoOs.Qwen
open ProgLib ChocoOs.Tok ChocoOs.Export

/-! ## The file that is written -/

theorem packWord_eq_some {n : Nat} {w : List UInt8} :
    packWord n = some w ↔ n < 2 ^ 32 ∧ leBytes 4 n = w := by
  unfold packWord
  split
  · next h => exact ⟨fun hw => ⟨h, Option.some.inj hw⟩, fun hw => congrArg some hw.2⟩
  · next h => exact ⟨nofun, fun hw => absurd hw.1 h⟩

theorem mapM_tokenEntry {es : List (UInt32 × List UInt8)} (h : ∀ e ∈ es, e.2.length < 2 ^ 32) :
    (es.mapM fun e => if e.2.length < 2 ^ 32 then some (tokenEntry e.1 e.2) else none) =
      some (es.map fun e => tokenEntry e.1 e.2) :=
  mapM_eq_map fun e he => if_pos (h e he)

/-- A file is written for one token or more if all numbers fit in a word. -/
theorem writeTokens_eq_some {bos eos : Nat} {es : List (UInt32 × List UInt8)} {file : List UInt8} :
    writeTokens bos eos es = some file ↔ ∃ maxLen, (es.map fun e => e.2.length).max? = some maxLen ∧
      maxLen < 2 ^ 32 ∧ bos < 2 ^ 32 ∧ eos < 2 ^ 32 ∧ tokenizerFile maxLen bos eos es = file := by
  have hshort : ∀ {maxLen}, (es.map fun e => e.2.length).max? = some maxLen → maxLen < 2 ^ 32 →
      ∀ e ∈ es, e.2.length < 2 ^ 32 := by
    intro maxLen hmax hlt e he
    have hle := (List.max?_eq_some_iff.mp hmax).2 _ (List.mem_map.mpr ⟨e, he, rfl⟩)
    omega
  constructor
  · intro h
    obtain ⟨maxLen, hmax, h⟩ := Option.bind_eq_some_iff.mp h
    obtain ⟨w₁, h₁, h⟩ := Option.bind_eq_some_iff.mp h
    obtain ⟨w₂, h₂, h⟩ := Option.bind_eq_some_iff.mp h
    obtain ⟨w₃, h₃, h⟩ := Option.bind_eq_some_iff.mp h
    obtain ⟨ts, hts, h⟩ := Option.bind_eq_some_iff.mp h
    obtain ⟨hlt, rfl⟩ := packWord_eq_some.mp h₁
    obtain ⟨hbos, rfl⟩ := packWord_eq_some.mp h₂
    obtain ⟨heos, rfl⟩ := packWord_eq_some.mp h₃
    rw [mapM_tokenEntry (hshort hmax hlt)] at hts
    cases hts
    cases h
    exact ⟨maxLen, hmax, hlt, hbos, heos, by rw [tokenizerFile, List.flatMap_def]⟩
  · rintro ⟨maxLen, hmax, hlt, hbos, heos, rfl⟩
    unfold writeTokens
    rw [hmax, mapM_tokenEntry (hshort hmax hlt)]
    simp only [Option.bind_eq_bind, Option.bind_some, packWord, if_pos hlt, if_pos hbos, if_pos heos,
      tokenizerFile, List.flatMap_def]
    rfl

/-- The ids of the tokens of a `tokenizer.json` are below `n`. -/
def IdsBelow (j : TokJson) (n : Nat) : Prop := j.idToToken ≠ [] ∧ ∀ p ∈ j.idToToken, p.1 < n

/-- `export_tokenizer` writes the strings and the scores of the ids. -/
theorem exportTokenizer_eq_writeTokens {j : TokJson} {n : Nat} (h : IdsBelow j n)
    (score : Option Nat → UInt32) (bos eos : Nat) : exportTokenizer score n bos eos j =
      writeTokens bos eos ((List.range n).map fun i => (score (j.rank i), j.raw i)) := by
  obtain ⟨hne, hids⟩ := h
  have hraw : ∀ p ∈ j.idToToken, j.raw p.1 = p.2.1 := by
    intro p hp
    have hkeys : (j.idToToken.map Prod.fst).Nodup :=
      Dict.nodup_update _ (Dict.nodup_update _ List.nodup_nil)
    rw [TokJson.raw, Dict.get?_of_mem hkeys hp, Option.elim_some]
  have hmax : (j.idToToken.map fun p => p.2.1.length).max? =
      (((List.range n).map fun i => (score (j.rank i), j.raw i)).map fun e => e.2.length).max? := by
    obtain ⟨maxLen, hmax⟩ := Option.ne_none_iff_exists'.mp
      (mt List.max?_eq_none_iff.mp (mt List.map_eq_nil_iff.mp hne) :
        (j.idToToken.map fun p => p.2.1.length).max? ≠ none)
    rw [hmax]
    symm
    apply List.max?_eq_some_iff.mpr
    obtain ⟨hmem, hle⟩ := List.max?_eq_some_iff.mp hmax
    rw [List.map_map]
    constructor
    · obtain ⟨p, hp, rfl⟩ := List.mem_map.mp hmem
      apply List.mem_map.mpr
      exact ⟨p.1, List.mem_range.mpr (hids p hp), congrArg List.length (hraw p hp)⟩
    · intro b hb
      obtain ⟨i, hi, rfl⟩ := List.mem_map.mp hb
      show (j.raw i).length ≤ maxLen
      rcases j.raw_mem i with hnil | ⟨internal, hmem⟩
      · rw [hnil]
        exact Nat.zero_le _
      · exact hle _ (List.mem_map.mpr ⟨_, hmem, rfl⟩)
  unfold exportTokenizer writeTokens
  rw [hmax, List.mapM_map]
  rfl

/-! ## The file is read back -/

/-- Tokens are read back as they were written. The memory for the strings suffices if it has a
    byte more than each string. -/
theorem readTokens_entries {size used : Nat} {es : List (UInt32 × List UInt8)} {rest : List UInt8}
    (hlen : ∀ e ∈ es, e.2.length < 2 ^ 32)
    (hsize : used + (es.map fun e => e.2.length + 1).sum ≤ size) :
    readTokens size es.length ((es.flatMap fun e => tokenEntry e.1 e.2) ++ rest) used =
      some (some (es.map fun e => .ofBytes e.2, es.map Prod.fst)) := by
  induction es generalizing used with
  | nil => rfl
  | cons e es ih =>
    obtain ⟨score, raw⟩ := e
    have hraw : raw.length < 2 ^ 32 := hlen _ (List.mem_cons_self ..)
    rw [List.map_cons, List.sum_cons] at hsize
    simp only at hsize
    have hrest := ih (fun e he => hlen e (List.mem_cons_of_mem _ he))
      (show used + raw.length + 1 + (es.map fun e => e.2.length + 1).sum ≤ size by omega)
    have hsplit : (((score, raw) :: es).flatMap fun e => tokenEntry e.1 e.2) ++ rest =
        leBytes 4 score.toNat ++ (leBytes 4 raw.length ++
          (raw ++ ((es.flatMap fun e => tokenEntry e.1 e.2) ++ rest))) := by
      simp only [List.flatMap_cons, tokenEntry, List.append_assoc]
    have h4 := leBytes_length 4
    have hscore : leNat (leBytes 4 score.toNat) = score.toNat := leNat_leBytes score.toNat_lt
    have hlen4 : leNat (leBytes 4 raw.length) = raw.length := leNat_leBytes hraw
    rw [hsplit, List.length_cons, readTokens]
    generalize (es.flatMap fun e => tokenEntry e.1 e.2) ++ rest = tail at hrest ⊢
    generalize hx : leBytes 4 score.toNat = x at hscore ⊢
    generalize hy : leBytes 4 raw.length = y at hlen4 ⊢
    have hxl : x.length = 4 := hx ▸ h4 _
    have hyl : y.length = 4 := hy ▸ h4 _
    have htake : (x ++ (y ++ (raw ++ tail))).take 4 = x := List.take_left' hxl
    have hdrop : (x ++ (y ++ (raw ++ tail))).drop 4 = y ++ (raw ++ tail) := List.drop_left' hxl
    have hdrop8 : (x ++ (y ++ (raw ++ tail))).drop 8 = raw ++ tail := by
      rw [← List.append_assoc]
      exact List.drop_left' (by rw [List.length_append, hxl, hyl])
    have hge : ¬ (x ++ (y ++ (raw ++ tail))).length < 8 := by
      simp only [List.length_append]
      omega
    simp only [if_neg hge, htake, hdrop, hdrop8, List.take_left' hyl, hlen4, hscore]
    have hfits : ¬ (raw ++ tail).length < raw.length := by
      rw [List.length_append]
      omega
    have hroom : ¬ size < used + raw.length + 1 := by omega
    rw [if_neg hfits, if_neg hroom, List.drop_left' rfl, List.take_left' rfl, hrest,
      UInt32.ofNat_toNat]
    rfl

/-- The tokens of the file need less memory than the file. -/
theorem sum_length_le (es : List (UInt32 × List UInt8)) :
    (es.map fun e => e.2.length + 1).sum ≤ (es.flatMap fun e => tokenEntry e.1 e.2).length := by
  induction es with
  | nil => exact Nat.le_refl 0
  | cons e es ih =>
    rw [List.map_cons, List.sum_cons, List.flatMap_cons, List.length_append, tokenEntry]
    simp only [List.length_append, leBytes_length]
    omega

/-- The tokenizer has these strings and scores, and this header. -/
structure Reads (maxLen bos eos : Nat) (es : List (UInt32 × List UInt8)) (t : FileTokenizer) :
    Prop where
  vocab : t.vocab = es.map fun e => .ofBytes e.2
  scores : t.scores = es.map Prod.fst
  built : t.Built
  maxTokenLength : t.maxTokenLength = maxLen
  bosTokenId : t.bosTokenId = bos
  eosTokenId : t.eosTokenId = eos

/-- `build_tokenizer` accepts a tokenizer file if the heap grants its requests, and makes of it the
    tokenizer that was written. -/
theorem buildTokenizer_file {maxLen bos eos : Nat} (hmaxLen : maxLen < 2 ^ 32) (hbos : bos < 2 ^ 32)
    (heos : eos < 2 ^ 32) {es : List (UInt32 × List UInt8)} (hn : es.length < 2 ^ 31)
    (hraw : ∀ e ∈ es, e.2.length < 2 ^ 32) (pick : Pick) {heap : Arena}
    (hheap : heap.hi - heap.lo ≤ Heap.heapMax) :
    ∃ heap' r, buildTokenizer pick heap (tokenizerFile maxLen bos eos es) es.length =
        some (heap', r) ∧
      (Arena.Grants pick [arraySize es.length 8, arraySize es.length 4,
        (tokenizerFile maxLen bos eos es).length, arraySize es.length 16] heap → r ≠ none) ∧
      ∀ t, r = some t → Reads maxLen bos eos es t := by
  have h4 := leBytes_length 4
  generalize hfile : tokenizerFile maxLen bos eos es = file
  have hheader : file = leBytes 4 maxLen ++ (leBytes 4 bos ++ (leBytes 4 eos ++
      es.flatMap fun e => tokenEntry e.1 e.2)) := by
    rw [← hfile, tokenizerFile, List.append_assoc, List.append_assoc]
  have hlength : file.length = 12 + (es.flatMap fun e => tokenEntry e.1 e.2).length := by
    rw [hheader]
    simp only [List.length_append, h4]
    omega
  have hsum := sum_length_le es
  have htokens : readTokens file.length es.length (file.drop 12) 0 =
      some (some (es.map fun e => .ofBytes e.2, es.map Prod.fst)) := by
    have hdrop : file.drop 12 = (es.flatMap fun e => tokenEntry e.1 e.2) ++ [] := by
      rw [← hfile, tokenizerFile, List.append_nil]
      exact List.drop_left' (by simp only [List.length_append, h4])
    rw [hdrop]
    apply readTokens_entries hraw
    omega
  have hbounds : -2 ^ 31 ≤ (es.length : Int) ∧ (es.length : Int) < 2 ^ 31 := by omega
  obtain ⟨heap', r, hbuild, -, hloads⟩ := buildTokenizer_eq pick file hheap hbounds
  refine ⟨heap', r, hbuild, fun hgrants => ?_, fun t ht => ?_⟩
  · -- what is read says that the entries are there
    have hroom : 0 + (file.drop 12).length ≤ file.length := by
      rw [List.length_drop]
      omega
    obtain ⟨r', hread, hentries⟩ := @readTokens_eq _ es.length _ _ hroom
    rw [htokens] at hread
    cases hread
    exact Option.isSome_iff_ne_none.mp (hloads.mpr ⟨by omega, hentries.mp rfl, hgrants⟩)
  · subst ht
    obtain ⟨hread, hmax, hbosId, heosId⟩ := fields_of_build hbuild
    rw [Int.toNat_natCast, htokens] at hread
    obtain ⟨hvocab, hscores⟩ := Prod.mk.inj (Option.some.inj (Option.some.inj hread))
    have hdrop : file.drop 8 = leBytes 4 eos ++ es.flatMap fun e => tokenEntry e.1 e.2 := by
      rw [hheader, ← List.append_assoc]
      exact List.drop_left' (by simp only [List.length_append, h4])
    refine ⟨hvocab.symm, hscores.symm, Accepted.built ⟨pick, heap, heap', file, es.length, hheap,
      hbounds.1, hbounds.2, hbuild⟩, ?_, ?_, ?_⟩
    · rw [hmax, hheader, List.take_left' (h4 _)]
      exact leNat_leBytes (by omega)
    · rw [hbosId, hheader, List.drop_left' (h4 _), List.take_left' (h4 _)]
      exact leNat_leBytes (by omega)
    · rw [heosId, hdrop, List.take_left' (h4 _)]
      exact leNat_leBytes (by omega)

/-- The tokenizer that is read is the one that was written. -/
structure RoundTrip (bos eos : Nat) (es : List (UInt32 × List UInt8)) (t : FileTokenizer) :
    Prop where
  vocab : t.vocab.map Subtype.val = es.map Prod.snd
  scores : t.scores = es.map Prod.fst
  length_le : ∀ e ∈ es, e.2.length ≤ t.maxTokenLength
  length_eq : ∃ e ∈ es, e.2.length = t.maxTokenLength
  bosTokenId : t.bosTokenId = bos
  eosTokenId : t.eosTokenId = eos

/-- The exporter writes a file for the strings and scores of its ids, whenever their numbers fit, and
    `build_tokenizer` gives them back. -/
theorem tokenizer_round_trip {n bos eos : Nat} (h1 : 1 ≤ n) (hn : n < 2 ^ 31)
    {es : List (UInt32 × List UInt8)} (hlen : es.length = n) (hnul : ∀ e ∈ es, 0 ∉ e.2) :
    (∀ j score, IdsBelow j n → (List.range n).map (fun i => (score (j.rank i), j.raw i)) = es →
      exportTokenizer score n bos eos j = writeTokens bos eos es) ∧
    ((∃ file, writeTokens bos eos es = some file) ↔
      bos < 2 ^ 32 ∧ eos < 2 ^ 32 ∧ ∀ e ∈ es, e.2.length < 2 ^ 32) ∧
    ∀ file, writeTokens bos eos es = some file → ∀ (pick : Pick) (heap : Arena),
      heap.hi - heap.lo ≤ Heap.heapMax →
      Arena.Grants pick [arraySize n 8, arraySize n 4, file.length, arraySize n 16] heap →
        ∃ heap' t, buildTokenizer pick heap file n = some (heap', some t) ∧
          RoundTrip bos eos es t := by
  subst hlen
  have hmem : ∀ maxLen, (es.map fun e => e.2.length).max? = some maxLen →
      (∀ e ∈ es, e.2.length ≤ maxLen) ∧ ∃ e ∈ es, e.2.length = maxLen := by
    intro maxLen hmax
    obtain ⟨hmem, hle⟩ := List.max?_eq_some_iff.mp hmax
    exact ⟨fun e he => hle _ (List.mem_map.mpr ⟨e, he, rfl⟩), List.mem_map.mp hmem⟩
  refine ⟨?_, ?_, ?_⟩
  · rintro j score hids hes
    rw [exportTokenizer_eq_writeTokens hids, hes]
  · constructor
    · rintro ⟨file, hfile⟩
      obtain ⟨maxLen, hmax, hlt, hbos, heos, -⟩ := writeTokens_eq_some.mp hfile
      exact ⟨hbos, heos, fun e he => Nat.lt_of_le_of_lt ((hmem _ hmax).1 e he) hlt⟩
    · rintro ⟨hbos, heos, hraw⟩
      have hne : es ≠ [] := List.ne_nil_of_length_pos h1
      obtain ⟨maxLen, hmax⟩ := Option.ne_none_iff_exists'.mp
        (mt List.max?_eq_none_iff.mp (mt List.map_eq_nil_iff.mp hne) :
          (es.map fun e => e.2.length).max? ≠ none)
      obtain ⟨e, he, hlong⟩ := (hmem _ hmax).2
      exact ⟨_, writeTokens_eq_some.mpr ⟨maxLen, hmax, hlong ▸ hraw e he, hbos, heos, rfl⟩⟩
  · intro file hfile pick heap hheap hgrants
    obtain ⟨maxLen, hmax, hlt, hbos, heos, rfl⟩ := writeTokens_eq_some.mp hfile
    obtain ⟨hle, hattained⟩ := hmem _ hmax
    have hraw : ∀ e ∈ es, e.2.length < 2 ^ 32 := fun e he => Nat.lt_of_le_of_lt (hle e he) hlt
    obtain ⟨heap', r, hrun, hgrant, hreads⟩ := buildTokenizer_file hlt hbos heos hn hraw pick hheap
    obtain ⟨t, rfl⟩ := Option.ne_none_iff_exists'.mp (hgrant hgrants)
    have ht := hreads t rfl
    refine ⟨heap', t, hrun, ?_, ht.scores, ?_, ?_, ht.bosTokenId, ht.eosTokenId⟩
    · rw [ht.vocab, List.map_map]
      apply List.map_congr_left
      intro e he
      exact congrArg Subtype.val (CString.ofBytes_eq (hnul e he))
    · rw [ht.maxTokenLength]
      exact hle
    · rw [ht.maxTokenLength]
      exact hattained

/-- Two tokens, one of them empty. -/
def twoTokens : List (UInt32 × List UInt8) := [(0xc9742400, []), (0, [97, 98])]

theorem tokenizer_round_trip_boot :
    ∃ heap' t, buildTokenizer (fun a _ => a.lo + 64 * a.live.length) ⟨0x1000, 0x2000, [], []⟩
      (tokenizerFile 2 7 8 twoTokens) 2 = some (heap', some t) ∧ RoundTrip 7 8 twoTokens t := by
  apply (@tokenizer_round_trip 2 7 8 (by decide) (by decide) twoTokens rfl (by decide)).2.2
  · decide
  · decide
  · decide +kernel

end ChocoOs.Qwen
