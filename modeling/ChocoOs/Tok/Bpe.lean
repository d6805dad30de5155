import ChocoOs.Lib.PairMerge
import ChocoOs.Tok.Merge

/-!
# The merge loop as byte pair encoding

On the strings of the tokens the merge loop is a rewriting that joins ranked pairs: two strings
have the rank of the token that their concatenation is.
-/

namespace ChocoOs.Tok
open ProgLib Relation

variable {S : Type} {t : Tokenizer S} {gt : S → S → Bool} {floor : S} {m : Nat → Nat}

/-- The rank of a pair: that of its concatenation, if it is in the vocabulary. -/
def Tokenizer.pairRank (t : Tokenizer S) (m : Nat → Nat) (a b : List UInt8) : Option Nat :=
  if h : 0 ∉ a ++ b then (t.find ⟨a ++ b, h⟩).map m else none

/-- The strings of the tokens. -/
def Tokenizer.strings (t : Tokenizer S) (toks : List Nat) : List (List UInt8) :=
  toks.map fun x => (t.str x).1

theorem pairRank_str (h : t.Built) (hfit : t.PairsFit) {x y : Nat} (hx : x < t.vocab.length)
    (hy : y < t.vocab.length) : t.pairRank m (t.str x).1 (t.str y).1 =
      (t.candidate x y).map fun c => m c.1 := by
  have h0 : 0 ∉ (t.str x).1 ++ (t.str y).1 := ((t.str x).append (t.str y)).2
  rw [Tokenizer.pairRank, dif_pos h0, Tokenizer.candidate, pair_take hfit hx hy, CString.append]
  cases hfind : t.find ⟨(t.str x).1 ++ (t.str y).1, h0⟩ with
  | none => rfl
  | some id =>
    have hid := (h.find_some hfind).1
    rw [← h.scores_length] at hid
    rw [Option.bind_some, List.getElem?_eq_getElem hid]
    rfl

/-- Neighbours among the strings are the strings of neighbours. -/
theorem strings_split {toks : List Nat} {pre : List (List UInt8)} {a b : List UInt8}
    {post : List (List UInt8)} (h : t.strings toks = pre ++ a :: b :: post) :
    ∃ pre' x y post', toks = pre' ++ x :: y :: post' ∧ pre'.length = pre.length ∧
      (t.str x).1 = a ∧ (t.str y).1 = b := by
  obtain ⟨pre', rest, rfl, rfl, hrest⟩ := List.map_eq_append_iff.mp h
  obtain ⟨x, rest, rfl, hx, hrest⟩ := List.map_eq_cons_iff.mp hrest
  obtain ⟨y, post', rfl, hy, -⟩ := List.map_eq_cons_iff.mp hrest
  exact ⟨pre', x, y, post', rfl, (List.length_map _).symm, hx, hy⟩

/-- One merge joins the leftmost pair of the lowest rank. -/
theorem mergeStep_of_bestPair (h : t.Built) (hfit : t.PairsFit)
    (hm : t.RankedBy gt floor m) {pre : List Nat} {x y : Nat} {post : List Nat} {id : Nat}
    (hv : t.Valid (pre ++ x :: y :: post))
    (hbest : t.bestPair gt floor (pre ++ x :: y :: post) = some (pre.length, id))
    (hfind : t.find ((t.str x).append (t.str y)) = some id) :
    MergeStep (t.pairRank m) (· ++ ·) (t.strings (pre ++ x :: y :: post))
      (t.strings (pre ++ id :: post)) := by
  have hx := hv x (by simp)
  have hy := hv y (by simp)
  obtain ⟨⟨sc, hc⟩, hmin⟩ := bestPair_first hm hbest
  refine ⟨t.strings pre, (t.str x).1, (t.str y).1, t.strings post, m id, ?_, ?_, ?_, ?_⟩
  · simp only [Tokenizer.strings, List.map_append, List.map_cons]
  · simp only [Tokenizer.strings, List.map_append, List.map_cons, (h.find_some hfind).2,
      CString.append]
  · rw [pairRank_str h hfit hx hy, hc, Option.map_some]
  · intro pre' a b post' r' he hr'
    obtain ⟨pre'', x', y', post'', he', hlen, rfl, rfl⟩ := strings_split he
    have hx' := hv x' (by rw [he']; simp)
    have hy' := hv y' (by rw [he']; simp)
    rw [pairRank_str h hfit hx' hy'] at hr'
    obtain ⟨⟨id', sc'⟩, hc', rfl⟩ := Option.map_eq_some_iff.mp hr'
    rw [Tokenizer.strings, List.length_map, ← hlen]
    exact hmin pre'' x' y' post'' id' sc' he' hc'

/-- The merge loop ends with the normal form of the strings. -/
theorem mergeAll_mergesTo (h : t.Built) (hfit : t.PairsFit) {cap : Nat} (hcap : t.printSize ≤ cap)
    (hm : t.RankedBy gt floor m) {toks : List Nat} (hv : t.Valid toks) :
    ∃ toks', mergeAll t gt floor cap toks = some toks' ∧ t.Valid toks' ∧
      MergesTo (t.pairRank m) (· ++ ·) (t.strings toks) (t.strings toks') := by
  have hstep : ∀ pre x y post id, t.Valid (pre ++ x :: y :: post) →
      ReflTransGen (MergeStep (t.pairRank m) (· ++ ·)) (t.strings toks)
        (t.strings (pre ++ x :: y :: post)) →
      t.bestPair gt floor (pre ++ x :: y :: post) = some (pre.length, id) →
      t.find (((t.str x).append (t.str y)).take (t.printSize - 1)) = some id →
      ReflTransGen (MergeStep (t.pairRank m) (· ++ ·)) (t.strings toks)
        (t.strings (pre ++ id :: post)) := by
    intro pre x y post id hvt hsteps hbest hfind
    rw [pair_take hfit (hvt x (by simp)) (hvt y (by simp))] at hfind
    exact hsteps.tail (mergeStep_of_bestPair h hfit hm hvt hbest hfind)
  obtain ⟨toks', hrun, hsteps, hv', -, hnone⟩ := mergeAll_spec gt floor cap h hcap
    (P := fun ts => ReflTransGen (MergeStep (t.pairRank m) (· ++ ·)) (t.strings toks) (t.strings ts))
    hstep hv .refl
  refine ⟨toks', hrun, hv', hsteps, fun pre a b post he => ?_⟩
  obtain ⟨pre', x, y, post', rfl, -, rfl, rfl⟩ := strings_split he
  rw [pairRank_str h hfit (hv' x (by simp)) (hv' y (by simp))]
  cases hc : t.candidate x y with
  | none => rfl
  | some c =>
    have hmem := candidate_mem (t := t) pre' x y post'
    rw [hc] at hmem
    have hlow := bestOf_eq_none hnone c.1 c.2 hmem
    rw [hm.floor _ (List.mem_of_getElem? (score_of_mem hmem))] at hlow
    cases hlow

end ChocoOs.Tok
