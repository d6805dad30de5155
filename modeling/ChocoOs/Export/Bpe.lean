import ChocoOs.Lib.Traverse
import ChocoOs.Export.Tokenizer
import ChocoOs.Lib.PairMerge

/-!
# What the exporter makes of a byte-level BPE model

A model is a vocabulary with ids and a list of merges. Reference BPE ranks a pair by its place in
the list. The file keeps one score for each string: a pair gets the rank of the last merge that
yields the same string.
-/

namespace ChocoOs.Export
open ProgLib

/-- A byte-level BPE model: the strings with their ids, and the merges in the order of their
    ranks. -/
structure ByteBpe where
  vocab : List (List UInt8 × Nat)
  merges : List (List UInt8 × List UInt8)

namespace ByteBpe

/-- The rank of a pair in reference BPE. -/
def pairRank (m : ByteBpe) (a b : List UInt8) : Option Nat := m.merges.idxOf? (a, b)

/-- The rank of the last merge that yields `s`. -/
def lastRank (m : ByteBpe) (s : List UInt8) : Option Nat :=
  (m.merges.zipIdx.reverse.find? fun p => p.1.1 ++ p.1.2 = s).map Prod.snd

/-- The rank of a pair that its concatenation has. Strings of the vocabulary that no merge yields
    come last. -/
def stringRank (m : ByteBpe) (a b : List UInt8) : Option Nat :=
  if a ++ b ∈ m.vocab.map Prod.fst then some ((m.lastRank (a ++ b)).getD m.merges.length) else none

/-- Every non-zero byte and every merge result is in the vocabulary, under an id of its own. NUL
    can only begin a string. -/
structure WellFormed (m : ByteBpe) (vocabSize : Nat) : Prop where
  strings_nodup : (m.vocab.map Prod.fst).Nodup
  ids_nodup : (m.vocab.map Prod.snd).Nodup
  ids_lt : ∀ p ∈ m.vocab, p.2 < vocabSize
  bytes : ∀ b, b ≠ 0 → [b] ∈ m.vocab.map Prod.fst
  results : ∀ p ∈ m.merges, p.1 ++ p.2 ∈ m.vocab.map Prod.fst
  no_nul : ∀ p ∈ m.vocab, 0 ∉ p.1.tail

/-- Every string of the vocabulary that is made up of two others is so in one way, by a merge, and
    no merge is listed twice. -/
structure Unambiguous (m : ByteBpe) : Prop where
  nodup : m.merges.Nodup
  merged : ∀ a b, a ∈ m.vocab.map Prod.fst → b ∈ m.vocab.map Prod.fst → a ≠ [] → b ≠ [] →
    a ++ b ∈ m.vocab.map Prod.fst → (a, b) ∈ m.merges
  unique : ∀ p ∈ m.merges, ∀ q ∈ m.merges, p.1 ++ p.2 = q.1 ++ q.2 → p = q

/-- Reference BPE of a text. -/
def Reference (m : ByteBpe) (text : List UInt8) : List (List UInt8) → Prop :=
  MergesTo m.pairRank (· ++ ·) (text.map fun b => [b])

/-- BPE of a text by the ranks of the strings. -/
def ByString (m : ByteBpe) (text : List UInt8) : List (List UInt8) → Prop :=
  MergesTo m.stringRank (· ++ ·) (text.map fun b => [b])

/-- In an unambiguous model the two rankings agree on strings of the vocabulary. -/
theorem Unambiguous.rank_eq {m : ByteBpe} {vocabSize : Nat} (h : m.Unambiguous)
    (hwf : m.WellFormed vocabSize) {a b : List UInt8} (ha : a ∈ m.vocab.map Prod.fst)
    (hb : b ∈ m.vocab.map Prod.fst) (ha0 : a ≠ []) (hb0 : b ≠ []) :
    m.stringRank a b = m.pairRank a b := by
  unfold stringRank pairRank
  by_cases hab : a ++ b ∈ m.vocab.map Prod.fst
  · rw [if_pos hab]
    have hmem := h.merged a b ha hb ha0 hb0 hab
    obtain ⟨r, hr⟩ : ∃ r, m.lastRank (a ++ b) = some r := by
      obtain ⟨k, hk⟩ := List.mem_iff_getElem?.mp hmem
      refine Option.ne_none_iff_exists'.mp fun hnone => ?_
      rw [lastRank, Option.map_eq_none_iff, List.find?_eq_none] at hnone
      exact hnone ((a, b), k) (List.mem_reverse.mpr (List.mem_zipIdx_iff_getElem?.mpr hk)) (by simp)
    rw [hr, Option.getD_some]
    obtain ⟨⟨q, r'⟩, hfind, rfl⟩ := Option.map_eq_some_iff.mp hr
    have hq : m.merges[r']? = some q := List.mem_zipIdx_iff_getElem?.mp
      (List.mem_reverse.mp (List.mem_of_find?_eq_some hfind))
    have hcat : q.1 ++ q.2 = a ++ b := by simpa using List.find?_some hfind
    obtain rfl := h.unique q (List.mem_of_getElem? hq) (a, b) hmem hcat
    obtain ⟨hlt, hget⟩ := List.getElem?_eq_some_iff.mp hq
    refine (List.idxOf?_eq_some_iff.mpr ⟨hlt, hget, fun k hk he => ?_⟩).symm
    have := (List.Nodup.getElem_inj_iff h.nodup).mp (he.trans hget.symm)
    omega
  · rw [if_neg hab]
    refine (List.idxOf?_eq_none_iff.mpr fun hmem => hab (hwf.results _ hmem)).symm

/-- For an unambiguous model both give the same tokens. -/
theorem Unambiguous.reference {m : ByteBpe} {vocabSize : Nat} (h : m.Unambiguous)
    (hwf : m.WellFormed vocabSize) {text : List UInt8} (h0 : 0 ∉ text) {strs : List (List UInt8)}
    (hs : m.ByString text strs) : m.Reference text strs := by
  refine MergesTo.congr (I := fun s => s ∈ m.vocab.map Prod.fst ∧ s ≠ []) ?_ ?_ ?_ hs
  · intro a b ⟨ha, ha0⟩ ⟨hb, hb0⟩
    exact h.rank_eq hwf ha hb ha0 hb0
  · intro a b r ⟨_, ha0⟩ _ hr
    refine ⟨?_, List.append_ne_nil_of_left_ne_nil ha0 _⟩
    unfold stringRank at hr
    by_cases hab : a ++ b ∈ m.vocab.map Prod.fst
    · exact hab
    · rw [if_neg hab] at hr
      cases hr
  · intro s hs
    obtain ⟨b, hb, rfl⟩ := List.mem_map.mp hs
    exact ⟨hwf.bytes b fun hb0 => h0 (hb0 ▸ hb), List.cons_ne_nil _ _⟩

end ByteBpe

/-! ## The file of a model -/

/-- How `tokenizer.json` writes a merge. -/
inductive Writes : JsonMerge → List UInt8 × List UInt8 → Prop where
  | parts (a b : List UInt8) : Writes (.parts [a.map byteChar, b.map byteChar]) (a, b)
  | text (a b : List UInt8) : Writes (.text (a.map byteChar ++ ' ' :: b.map byteChar)) (a, b)

/-- `tokenizer.json` describes the model. Tokens may be added that begin with `<`. -/
structure TokJson.Describes (j : TokJson) (m : ByteBpe) : Prop where
  vocab : j.vocab = m.vocab.map fun p => (p.1.map byteChar, p.2)
  merges : List.Forall₂ Writes j.merges m.merges
  added : ∀ p ∈ j.addedTokens, p.1.head? = some '<' ∧ p.2 ∉ m.vocab.map Prod.snd

theorem Writes.joined {e : JsonMerge} {p : List UInt8 × List UInt8} (h : Writes e p) :
    e.joined = (p.1 ++ p.2).map byteChar := by
  have hfilter : ∀ s : List UInt8, (s.map byteChar).filter (fun c => !isSpace c) = s.map byteChar :=
    fun s => List.filter_eq_self.mpr fun c hc => by
      obtain ⟨b, -, rfl⟩ := List.mem_map.mp hc
      rw [isSpace_byteChar]
      rfl
  cases h with
  | parts a b => simp [JsonMerge.joined]
  | text a b =>
    have hspace : isSpace ' ' = true := by decide
    rw [JsonMerge.joined, List.filter_append, List.filter_cons_of_neg (by simp [hspace]), hfilter,
      hfilter, List.map_append]

theorem Writes.map_joined {es : List JsonMerge} {ps : List (List UInt8 × List UInt8)}
    (h : List.Forall₂ Writes es ps) :
    es.map JsonMerge.joined = ps.map fun p => (p.1 ++ p.2).map byteChar := by
  induction h with
  | nil => rfl
  | cons hw _ ih => rw [List.map_cons, List.map_cons, ih, hw.joined]

variable {j : TokJson} {m : ByteBpe} {vocabSize : Nat}

theorem map_byteChar_injective : Function.Injective (List.map byteChar) :=
  List.map_injective_iff.mpr byteChar_injective

/-- The rank of a string in the exporter's table. -/
theorem TokJson.Describes.mergeRank_get? (h : j.Describes m) (s : List UInt8) :
    j.mergeRank.get? (s.map byteChar) = m.lastRank s := by
  have hitems : (j.merges.zipIdx.map fun p => (p.1.joined, p.2)) =
      m.merges.zipIdx.map fun p => ((p.1.1 ++ p.1.2).map byteChar, p.2) := by
    have hzip := congrArg List.zipIdx (Writes.map_joined h.merges)
    rwa [List.zipIdx_map, List.zipIdx_map] at hzip
  have hpred : ((fun p : List Char × Nat => decide (p.1 = s.map byteChar)) ∘
      fun p : (List UInt8 × List UInt8) × Nat => ((p.1.1 ++ p.1.2).map byteChar, p.2)) =
      fun p => decide (p.1.1 ++ p.1.2 = s) := by
    funext p
    rw [Function.comp, decide_eq_decide]
    exact map_byteChar_injective.eq_iff
  unfold TokJson.mergeRank ByteBpe.lastRank
  rw [hitems, Dict.get?_ofList, ← List.map_reverse, List.find?_map, Option.map_map, hpred]
  rfl

/-- The token of a string of the vocabulary. -/
theorem TokJson.Describes.idToToken_get? (h : j.Describes m) (hwf : m.WellFormed vocabSize)
    {s : List UInt8} {i : Nat} (hs : (s, i) ∈ m.vocab) :
    j.idToToken.get? i = some (s, s.map byteChar) := by
  have hkeys : (j.vocab.map Prod.fst).Nodup := by
    rw [h.vocab, List.map_map]
    have := hwf.strings_nodup.map map_byteChar_injective
    rwa [List.map_map] at this
  unfold TokJson.idToToken
  rw [Dict.ofList_of_nodup hkeys, Dict.get?_update_of_notMem]
  · refine Dict.get?_update_of_mem ?_ ?_
    · rw [h.vocab, List.map_map, List.map_map]
      exact hwf.ids_nodup
    · rw [h.vocab, List.map_map]
      refine List.mem_map.mpr ⟨(s, i), hs, ?_⟩
      simp only [Function.comp, toBytes_byteChar]
  · rw [List.map_map]
    intro hi
    obtain ⟨p, hp, rfl⟩ := List.mem_map.mp hi
    rcases Dict.mem_of_mem_update hp with hp | hp
    · cases hp
    · exact (h.added p hp).2 (List.mem_map.mpr ⟨(s, p.2), hs, rfl⟩)

/-- Every entry comes from the vocabulary or from an added token. -/
theorem TokJson.mem_idToToken {p : Nat × List UInt8 × List Char} (hp : p ∈ j.idToToken) :
    (∃ q ∈ j.vocab, p = (q.2, toBytes q.1, q.1)) ∨
      ∃ q ∈ j.addedTokens, p = (q.2, q.1.flatMap String.utf8EncodeChar, q.1) := by
  have hold : ∀ {α : Type} {V : Type} [DecidableEq α] {items : Dict α V} {q : α × V},
      q ∈ Dict.ofList items → q ∈ items := fun hq =>
    (Dict.mem_of_mem_update hq).resolve_left List.not_mem_nil
  rcases Dict.mem_of_mem_update hp with hp | hp
  · obtain ⟨q, hq, rfl⟩ := List.mem_map.mp (hold hp)
    exact .inl ⟨q, hold hq, rfl⟩
  · obtain ⟨q, hq, rfl⟩ := List.mem_map.mp hp
    exact .inr ⟨q, hold hq, rfl⟩

theorem TokJson.raw_mem (j : TokJson) (i : Nat) :
    j.raw i = [] ∨ ∃ internal, (i, j.raw i, internal) ∈ j.idToToken := by
  unfold TokJson.raw
  cases hget : j.idToToken.get? i with
  | none => exact .inl rfl
  | some t => exact .inr ⟨t.2, Dict.mem_of_get? hget⟩

/-- A token is empty, of the vocabulary, or begins with `<`. -/
theorem TokJson.Describes.raw_cases (h : j.Describes m) (i : Nat) :
    j.raw i = [] ∨ (j.raw i, i) ∈ m.vocab ∨ (j.raw i).head? = some 60 := by
  rcases j.raw_mem i with hraw | ⟨internal, hmem⟩
  · exact .inl hraw
  refine .inr ?_
  rcases TokJson.mem_idToToken hmem with ⟨⟨tok, id⟩, hq, he⟩ | ⟨⟨content, id⟩, hq, he⟩
  · rw [h.vocab] at hq
    obtain ⟨⟨s, id'⟩, hs, hq⟩ := List.mem_map.mp hq
    cases hq
    simp only [Prod.mk.injEq, toBytes_byteChar] at he
    refine .inl ?_
    rw [he.2.1, he.1]
    exact hs
  · obtain ⟨rest, rfl⟩ := List.head?_eq_some_iff.mp (h.added _ hq).1
    simp only [Prod.mk.injEq] at he
    have hlt : String.utf8EncodeChar '<' = [60] := by decide
    refine .inr ?_
    rw [he.2.1, List.flatMap_cons, hlt, List.singleton_append, List.head?_cons]

theorem TokJson.Describes.raw_eq (h : j.Describes m) (hwf : m.WellFormed vocabSize)
    {s : List UInt8} {i : Nat} (hs : (s, i) ∈ m.vocab) : j.raw i = s := by
  rw [TokJson.raw, h.idToToken_get? hwf hs]
  rfl

theorem TokJson.Describes.rank_eq (h : j.Describes m) (hwf : m.WellFormed vocabSize)
    {s : List UInt8} {i : Nat} (hs : (s, i) ∈ m.vocab) (h0 : s ≠ []) : j.rank i = m.lastRank s := by
  have hne : s.map byteChar ≠ [] := mt List.map_eq_nil_iff.mp h0
  rw [TokJson.rank, h.idToToken_get? hwf hs, Option.bind_some, if_neg hne, h.mergeRank_get?]

theorem TokJson.Describes.rank_lt (h : j.Describes m) {i r : Nat} (hr : j.rank i = some r) :
    r < m.merges.length := by
  obtain ⟨t, -, ht⟩ := Option.bind_eq_some_iff.mp hr
  split at ht
  · cases ht
  · have hmem := (Dict.mem_of_get?_update ht).resolve_right (by simp [Dict.get?])
    obtain ⟨⟨e, r'⟩, he, hp⟩ := List.mem_map.mp hmem
    obtain rfl : r' = r := congrArg Prod.snd hp
    rw [← h.merges.length_eq]
    exact (List.mem_zipIdx' he).1

end ChocoOs.Export
