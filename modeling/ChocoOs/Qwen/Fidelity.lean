import ChocoOs.Export.Bpe
import ChocoOs.Qwen.Encode
import ChocoOs.Qwen.RoundTrip
import ChocoOs.Tok.Bpe

/-!
# From the exporter to the tokens

The tokenizer file that `export_tokenizer` writes is read back by `build_tokenizer`. On it `encode`
computes byte pair encoding by the ranks of the strings, which is reference BPE if the model is
unambiguous.
-/

namespace ChocoOs.Qwen
open ProgLib ChocoOs.Tok ChocoOs.Export

/-- The loaded tokenizer is the exported one. -/
structure Loaded (j : TokJson) (score : Option Nat → UInt32) (vocabSize bos eos : Nat)
    (t : FileTokenizer) : Prop where
  vocab : t.vocab = (List.range vocabSize).map fun i => .ofBytes (j.raw i)
  scores : t.scores = (List.range vocabSize).map fun i => score (j.rank i)
  built : t.Built
  length_le : ∀ p ∈ j.idToToken, p.2.1.length ≤ t.maxTokenLength
  length_eq : ∃ p ∈ j.idToToken, p.2.1.length = t.maxTokenLength
  bosTokenId : t.bosTokenId = bos
  eosTokenId : t.eosTokenId = eos

variable {j : TokJson} {m : ByteBpe} {score : Option Nat → UInt32} {vocabSize bos eos : Nat}
  {file : List UInt8} {t : FileTokenizer}

/-- A string without NUL behind its first byte is read as itself, or as the empty string. -/
theorem ofBytes_cases {raw : List UInt8} (h : 0 ∉ raw.tail) :
    (CString.ofBytes raw).1 = [] ∨ (CString.ofBytes raw).1 = raw := by
  cases raw with
  | nil => exact .inl rfl
  | cons b rest =>
    by_cases hb : b = 0
    · subst hb
      exact .inl rfl
    · have hnul : 0 ∉ b :: rest := fun hm => (List.mem_cons.mp hm).elim (fun he => hb he.symm) h
      exact .inr (by rw [CString.ofBytes_eq hnul])

/-- What the strings that occur in the encoding of a text without `<` have in common. -/
structure Plain (s : List UInt8) : Prop where
  nonempty : s ≠ []
  no_nul : 0 ∉ s
  no_lt : 60 ∉ s

theorem Plain.append {a b : List UInt8} (ha : Plain a) (hb : Plain b) : Plain (a ++ b) :=
  ⟨List.append_ne_nil_of_left_ne_nil ha.nonempty _,
    fun h => (List.mem_append.mp h).elim ha.no_nul hb.no_nul,
    fun h => (List.mem_append.mp h).elim ha.no_lt hb.no_lt⟩

theorem Loaded.length (h : Loaded j score vocabSize bos eos t) : t.vocab.length = vocabSize := by
  rw [h.vocab, List.length_map, List.length_range]

theorem Loaded.str (h : Loaded j score vocabSize bos eos t) {i : Nat} (hi : i < vocabSize) :
    t.str i = .ofBytes (j.raw i) := by
  have hget := Tokenizer.vocab_getElem? (t := t.toTokenizer) (x := i) (by rwa [h.length])
  rw [h.vocab, List.getElem?_map, List.getElem?_range hi] at hget
  exact (Option.some.inj hget).symm

/-- A plain string of the loaded vocabulary is the string of the model with the same id. -/
theorem Loaded.mem_vocab (h : Loaded j score vocabSize bos eos t) (hj : j.Describes m)
    (hwf : m.WellFormed vocabSize) {i : Nat} (hi : i < vocabSize) (hs : Plain (t.str i).1) :
    ((t.str i).1, i) ∈ m.vocab := by
  rw [h.str hi] at hs ⊢
  rcases hj.raw_cases i with hraw | hraw | hraw
  · rw [hraw] at hs
    exact absurd rfl hs.nonempty
  · have hcases := (ofBytes_cases (hwf.no_nul _ hraw)).resolve_left hs.nonempty
    rwa [hcases]
  · obtain ⟨rest, hrest⟩ := List.head?_eq_some_iff.mp hraw
    rw [hrest] at hs
    exact absurd (List.mem_cons_self ..) hs.no_lt

/-- The ids of plain strings are those of the model. -/
theorem Loaded.find_iff (h : Loaded j score vocabSize bos eos t) (hj : j.Describes m)
    (hwf : m.WellFormed vocabSize) {s : CString} (hs : Plain s.1) {i : Nat} :
    t.find s = some i ↔ (s.1, i) ∈ m.vocab := by
  have hmem : ∀ {i}, t.find s = some i → (s.1, i) ∈ m.vocab := by
    intro i hfind
    obtain ⟨hi, hstr⟩ := h.built.find_some hfind
    rw [← hstr] at hs ⊢
    exact h.mem_vocab hj hwf (by rwa [← h.length]) hs
  refine ⟨hmem, fun hvocab => ?_⟩
  have hi : i < vocabSize := hwf.ids_lt _ hvocab
  have hstr : t.str i = s := by
    rw [h.str hi, hj.raw_eq hwf hvocab, CString.ofBytes_eq s.2]
  have hsome : t.find s ≠ none := fun hnone => h.built.find_eq_none.mp hnone (by
    rw [← hstr]
    exact List.mem_of_getElem? (Tokenizer.vocab_getElem? (by rwa [h.length])))
  obtain ⟨i', hi'⟩ := Option.ne_none_iff_exists'.mp hsome
  -- a string has one id in the model
  have hsame := List.inj_on_of_nodup_map hwf.strings_nodup (hmem hi') hvocab rfl
  rw [hi', (Prod.mk.inj hsame).2]

/-- The scores fall with the rank. Tokens without one come last, and all are above the floor. -/
structure Decreasing (score : Option Nat → UInt32) (gt : UInt32 → UInt32 → Bool) (floor : UInt32)
    (n : Nat) : Prop where
  floor : ∀ o, (∀ r, o = some r → r < n) → gt (score o) floor = true
  gt_iff : ∀ o o', (∀ r, o = some r → r < n) → (∀ r, o' = some r → r < n) →
    (gt (score o) (score o') = true ↔ o.getD n < o'.getD n)

variable {gt : UInt32 → UInt32 → Bool} {floor : UInt32}

theorem Loaded.rankedBy (h : Loaded j score vocabSize bos eos t) (hj : j.Describes m)
    (hscore : Decreasing score gt floor m.merges.length) :
    t.RankedBy gt floor fun i => (j.rank i).getD m.merges.length := by
  have hget : ∀ {i sc}, t.scores[i]? = some sc → sc = score (j.rank i) := by
    intro i sc hi
    rw [h.scores, List.getElem?_map] at hi
    obtain ⟨i', hi', rfl⟩ := Option.map_eq_some_iff.mp hi
    rw [(List.getElem?_eq_some_iff.mp hi').2.symm, List.getElem_range]
  refine ⟨fun sc hsc => ?_, fun i i' sc sc' hi hi' => ?_⟩
  · obtain ⟨i, hi⟩ := List.mem_iff_getElem?.mp hsc
    rw [hget hi]
    exact hscore.floor _ fun _ => hj.rank_lt
  · rw [hget hi, hget hi']
    exact hscore.gt_iff _ _ (fun _ => hj.rank_lt) fun _ => hj.rank_lt

/-- The rank of a pair in the loaded tokenizer is the rank of its string in the model. -/
theorem Loaded.pairRank (h : Loaded j score vocabSize bos eos t) (hj : j.Describes m)
    (hwf : m.WellFormed vocabSize) {a b : List UInt8} (ha : Plain a) (hb : Plain b) :
    t.pairRank (fun i => (j.rank i).getD m.merges.length) a b = m.stringRank a b := by
  have hab := ha.append hb
  rw [Tokenizer.pairRank, dif_pos hab.no_nul, ByteBpe.stringRank]
  by_cases hmem : a ++ b ∈ m.vocab.map Prod.fst
  · obtain ⟨⟨s, i⟩, hi, rfl⟩ := List.mem_map.mp hmem
    rw [if_pos hmem, (h.find_iff hj hwf (s := ⟨a ++ b, hab.no_nul⟩) hab).mpr hi, Option.map_some,
      hj.rank_eq hwf hi hab.nonempty]
  · rw [if_neg hmem]
    cases hfind : t.find ⟨a ++ b, hab.no_nul⟩ with
    | none => rfl
    | some i =>
      exact absurd (List.mem_map.mpr ⟨_, (h.find_iff hj hwf hab).mp hfind, rfl⟩) hmem

/-! ## Encoding -/

/-- On the loaded tokenizer `encode` computes BPE by the ranks of the strings. -/
theorem Loaded.encode (h : Loaded j score vocabSize bos eos t) (hj : j.Describes m)
    (hwf : m.WellFormed vocabSize) (hlong : ∃ p ∈ j.idToToken, 31 ≤ p.2.1.length)
    (hscore : Decreasing score gt floor m.merges.length) (pick : Pick) {heap : Arena}
    (hheap : heap.hi - heap.lo ≤ Heap.heapMax) {text : List UInt8} (h0 : 0 ∉ text)
    (hlt : 60 ∉ text) :
    ∃ heap' ids, encode t.toTokenizer gt floor text.length pick heap text = some (heap', ids) ∧
      if (heap.alloc pick (t.maxTokenLength * 2 + 3)).1 = 0 then ids = []
      else ∃ strs, m.ByString text strs ∧ List.Forall₂ (fun id s => (s, id) ∈ m.vocab) ids strs := by
  unfold Qwen.encode
  by_cases hp : (heap.alloc pick (t.maxTokenLength * 2 + 3)).1 = 0
  · exact ⟨_, [], if_pos hp, by rw [if_pos hp]⟩
  obtain ⟨hsize, heap', hfree⟩ := Arena.length_le_of_alloc hp
  obtain ⟨p, hpmem, hplen⟩ := hlong
  have hmin := h.length_le p hpmem
  have hmax : Heap.heapMax = 805306368 := by decide
  have hsingle : ∀ b ∈ text, Plain [b] := fun b hb =>
    ⟨List.cons_ne_nil _ _, fun hm => h0 (List.mem_singleton.mp hm ▸ hb),
      fun hm => hlt (List.mem_singleton.mp hm ▸ hb)⟩
  have hlen : ∀ s ∈ t.vocab, s.length ≤ t.maxTokenLength := by
    intro s hs
    rw [h.vocab] at hs
    obtain ⟨i, -, rfl⟩ := List.mem_map.mp hs
    have hraw : (j.raw i).length ≤ t.maxTokenLength := by
      rcases j.raw_mem i with hraw | ⟨internal, hmem⟩
      · rw [hraw]
        exact Nat.zero_le _
      · exact h.length_le _ hmem
    exact Nat.le_trans (List.takeWhile_sublist _).length_le hraw
  have hbytes : ∀ b, b ≠ 0 → ∃ s ∈ t.vocab, s.1 = [b] := by
    intro b hb
    obtain ⟨⟨s, i⟩, hi, hs⟩ := List.mem_map.mp (hwf.bytes b hb)
    simp only at hs
    subst hs
    have hilt : i < vocabSize := hwf.ids_lt _ hi
    refine ⟨t.str i, List.mem_of_getElem? (Tokenizer.vocab_getElem? (by rwa [h.length])), ?_⟩
    rw [h.str hilt, hj.raw_eq hwf hi, CString.ofBytes_eq (by simpa using Ne.symm hb)]
  have hfit := Tokenizer.pairsFit hlen (by omega)
  obtain ⟨toks, hread, hv, -, -, hplain⟩ :=
    readText_eq h.built hbytes (show 65 ≤ t.maxTokenLength * 2 + 3 by omega) h0
  obtain ⟨ids, hmerge, hv', hto⟩ := mergeAll_mergesTo h.built hfit
    (show t.printSize ≤ t.maxTokenLength * 2 + 3 from Nat.mod_le _ _) (h.rankedBy hj hscore) hv
  have hstart : t.strings toks = text.map fun b => [b] := hplain hlt
  rw [hstart] at hto
  have hall : ∀ s ∈ text.map fun b => [b], Plain s := fun s hs => by
    obtain ⟨b, hb, rfl⟩ := List.mem_map.mp hs
    exact hsingle b hb
  have hstrs := hto.forall_mem (fun _ _ => Plain.append) hall
  refine ⟨heap', ids, ?_, ?_⟩
  · simp only [if_neg hp, hread, hmerge, hfree, Option.bind_eq_bind, Option.bind_some]
    rfl
  · rw [if_neg hp]
    refine ⟨t.strings ids, hto.congr (fun a b => h.pairRank hj hwf)
      (fun a b _ ha hb _ => ha.append hb) hall, ?_⟩
    rw [Tokenizer.strings, List.forall₂_map_right_iff, List.forall₂_same]
    exact fun i hi => h.mem_vocab hj hwf (by rw [← h.length]; exact hv' i hi)
      (hstrs _ (List.mem_map.mpr ⟨i, hi, rfl⟩))

/-- The model that has the bytes and the results of the merges. -/
def sampleModel (merges : List (List UInt8 × List UInt8)) : ByteBpe where
  vocab := (List.range 255).map (fun i => ([UInt8.ofNat (i + 1)], i)) ++
    merges.zipIdx.map fun p => (p.1.1 ++ p.1.2, 255 + p.2)
  merges := merges

/-- Its `tokenizer.json`, with one added token of 31 bytes. -/
def sampleJson (merges : List (List UInt8 × List UInt8)) : TokJson where
  vocab := (sampleModel merges).vocab.map fun p => (p.1.map byteChar, p.2)
  merges := merges.map fun p => .parts [p.1.map byteChar, p.2.map byteChar]
  addedTokens := [(List.replicate 31 '<', 255 + merges.length)]

/-- What the merges of a sample yield: different strings of at least two bytes. -/
structure Sample (merges : List (List UInt8 × List UInt8)) : Prop where
  nodup : (merges.map fun p => p.1 ++ p.2).Nodup
  two_le : ∀ p ∈ merges, 2 ≤ (p.1 ++ p.2).length
  le : ∀ p ∈ merges, (p.1 ++ p.2).length ≤ 31
  no_nul : ∀ p ∈ merges, 0 ∉ p.1 ++ p.2

variable {merges : List (List UInt8 × List UInt8)}

theorem sample_strings : (sampleModel merges).vocab.map Prod.fst =
    (List.range 255).map (fun i => [UInt8.ofNat (i + 1)]) ++ merges.map fun p => p.1 ++ p.2 := by
  have hzip : (merges.zipIdx.map fun p => p.1.1 ++ p.1.2) = merges.map fun p => p.1 ++ p.2 := by
    calc (merges.zipIdx.map fun p => p.1.1 ++ p.1.2)
        = (merges.zipIdx.map Prod.fst).map fun p => p.1 ++ p.2 := by rw [List.map_map]; rfl
      _ = merges.map fun p => p.1 ++ p.2 := by rw [List.zipIdx_map_fst]
  rw [← hzip, sampleModel, List.map_append, List.map_map, List.map_map]
  rfl

theorem byte_ids (n : Nat) :
    ((List.range n).map fun i => ([UInt8.ofNat (i + 1)], i)).map Prod.snd = List.range n := by
  rw [List.map_map]
  exact List.map_id _

theorem sample_ids : (sampleModel merges).vocab.map Prod.snd = List.range (255 + merges.length) := by
  have hzip : (merges.zipIdx.map fun p => 255 + p.2) = (List.range merges.length).map (255 + ·) := by
    calc (merges.zipIdx.map fun p => 255 + p.2)
        = (merges.zipIdx.map Prod.snd).map (255 + ·) := by rw [List.map_map]; rfl
      _ = (List.range merges.length).map (255 + ·) := by
        rw [List.zipIdx_map_snd, List.range_eq_range']
  rw [List.range_add, ← hzip, sampleModel, List.map_append, byte_ids, List.map_map]
  rfl

theorem Sample.wellFormed (h : Sample merges) :
    (sampleModel merges).WellFormed (256 + merges.length) where
  strings_nodup := by
    rw [sample_strings]
    refine List.nodup_append.mpr ⟨?_, h.nodup, fun s hs s' hs' he => ?_⟩
    · refine List.Nodup.map_on (fun i hi k hk he => ?_) List.nodup_range
      rw [List.mem_range] at hi hk
      have := congrArg UInt8.toNat (List.cons.inj he).1
      rw [UInt8.toNat_ofNat', UInt8.toNat_ofNat'] at this
      omega
    · obtain ⟨i, -, rfl⟩ := List.mem_map.mp hs
      obtain ⟨p, hp, rfl⟩ := List.mem_map.mp hs'
      have := h.two_le p hp
      rw [← he] at this
      exact absurd this (by simp)
  ids_nodup := by
    rw [sample_ids]
    exact List.nodup_range
  ids_lt p hp := by
    have hmem : p.2 ∈ (sampleModel merges).vocab.map Prod.snd := List.mem_map.mpr ⟨p, hp, rfl⟩
    rw [sample_ids, List.mem_range] at hmem
    omega
  bytes b hb := by
    rw [sample_strings]
    have hpos := toNat_pos hb
    have hlt := b.toNat_lt
    refine List.mem_append_left _ (List.mem_map.mpr ⟨b.toNat - 1, List.mem_range.mpr (by omega), ?_⟩)
    rw [Nat.sub_add_cancel hpos, UInt8.ofNat_toNat]
  results p hp := by
    rw [sample_strings]
    exact List.mem_append_right _ (List.mem_map.mpr ⟨p, hp, rfl⟩)
  no_nul p hp hmem := by
    have hs : p.1 ∈ (sampleModel merges).vocab.map Prod.fst := List.mem_map.mpr ⟨p, hp, rfl⟩
    rw [sample_strings] at hs
    rcases List.mem_append.mp hs with hs | hs
    · obtain ⟨i, -, hi⟩ := List.mem_map.mp hs
      rw [← hi] at hmem
      cases hmem
    · obtain ⟨q, hq, hs⟩ := List.mem_map.mp hs
      rw [← hs] at hmem
      exact h.no_nul q hq (List.mem_of_mem_tail hmem)

theorem added_length : ((List.replicate 31 '<').flatMap String.utf8EncodeChar).length = 31 := by
  decide

/-- The added token is the longest. -/
theorem Sample.length_le (h : Sample merges) :
    ∀ p ∈ (sampleJson merges).idToToken, p.2.1.length ≤ 31 := by
  intro p hp
  rcases TokJson.mem_idToToken hp with ⟨q, hq, rfl⟩ | ⟨q, hq, rfl⟩
  · obtain ⟨r, hr, rfl⟩ := List.mem_map.mp hq
    have hs : r.1 ∈ (sampleModel merges).vocab.map Prod.fst := List.mem_map.mpr ⟨r, hr, rfl⟩
    simp only [toBytes_byteChar]
    rw [sample_strings] at hs
    rcases List.mem_append.mp hs with hs | hs
    · obtain ⟨i, -, hi⟩ := List.mem_map.mp hs
      rw [← hi]
      exact Nat.le_add_left 1 30
    · obtain ⟨p, hp, hs⟩ := List.mem_map.mp hs
      rw [← hs]
      exact h.le p hp
  · obtain rfl := List.mem_singleton.mp hq
    exact Nat.le_of_eq added_length

end ChocoOs.Qwen
