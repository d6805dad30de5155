import ChocoOs.Lib.Threshold
import ChocoOs.Llama.Sample
import Mathlib.Algebra.Order.Field.Rat
import Mathlib.Tactic.FieldSimp
import Mathlib.Tactic.Linarith
import Mathlib.Tactic.NormNum

/-!
# The cutoff of the sampler

`sample_topp` drops tokens of small probability before it sorts the others. With exact numbers this
changes nothing: what is dropped would never be in the nucleus.
-/

namespace ChocoOs.Llama
open ProgLib

/-! ## Sampling without a cutoff -/

/-- All tokens with their probabilities. -/
def allTokens (probs : List ℚ) : List (ProbIndex ℚ) := probs.zipIdx.map fun p => ⟨p.1, p.2⟩

/-- The larger probability comes first, and the smaller index if they are equal. -/
def Before (a b : ProbIndex ℚ) : Prop := b.prob < a.prob ∨ a.prob = b.prob ∧ a.index ≤ b.index

instance : DecidableRel Before := fun a b => by
  unfold Before
  infer_instance

/-- All tokens in this order. -/
def ranked (probs : List ℚ) : List (ProbIndex ℚ) :=
  (allTokens probs).mergeSort fun a b => decide (Before a b)

/-- The nucleus is the shortest prefix of all tokens whose sum exceeds `topp`. The token is the first
    one of it at which the sum exceeds `coin` times the sum of the nucleus. -/
def toppReference (probs : List ℚ) (topp coin : ℚ) : Option Int := do
  let kept ← firstOver ProbIndex.prob topp (ranked probs)
  let upto ← firstOver ProbIndex.prob (coin * total ProbIndex.prob kept) kept
  let e ← upto.getLast?
  return e.index

/-! ## The order -/

theorem Before.antisymm {a b : ProbIndex ℚ} (hab : Before a b) (hba : Before b a) : a = b := by
  obtain ⟨p, i⟩ := a
  obtain ⟨q, j⟩ := b
  rcases hab with hab | ⟨heq, hij⟩
  · rcases hba with hba | ⟨heq, -⟩
    · exact absurd hab (not_lt_of_gt hba)
    · exact absurd hab (by rw [heq]; exact lt_irrefl _)
  · rcases hba with hba | ⟨-, hji⟩
    · exact absurd hba (by rw [heq]; exact lt_irrefl _)
    · obtain rfl : p = q := heq
      obtain rfl : i = j := Int.le_antisymm hij hji
      rfl

theorem Before.trans {a b c : ProbIndex ℚ} (hab : Before a b) (hbc : Before b c) : Before a c := by
  unfold Before at *
  rcases hab with hab | ⟨hp, hi⟩
  · left
    rcases hbc with hbc | ⟨hq, -⟩
    · exact lt_trans hbc hab
    · rwa [← hq]
  · rcases hbc with hbc | ⟨hq, hj⟩
    · left
      rwa [hp]
    · exact .inr ⟨hp.trans hq, Int.le_trans hi hj⟩

theorem Before.total (a b : ProbIndex ℚ) : Before a b ∨ Before b a := by
  unfold Before
  rcases lt_trichotomy a.prob b.prob with h | h | h
  · exact .inr (.inl h)
  · rcases Int.le_total a.index b.index with hi | hi
    · exact .inl (.inr ⟨h, hi⟩)
    · exact .inr (.inr ⟨h.symm, hi⟩)
  · exact .inl (.inl h)

theorem Before.le {a b : ProbIndex ℚ} (h : Before a b) : b.prob ≤ a.prob := by
  rcases h with h | ⟨h, -⟩
  · exact le_of_lt h
  · exact le_of_eq h.symm

theorem ranked_pairwise (probs : List ℚ) : (ranked probs).Pairwise Before := by
  have hsorted := @List.pairwise_mergeSort _ (fun a b => decide (Before a b))
    (fun a b c hab hbc => decide_eq_true ((of_decide_eq_true hab).trans (of_decide_eq_true hbc)))
    (fun a b => by
      rw [Bool.or_eq_true, decide_eq_true_eq, decide_eq_true_eq]
      exact Before.total a b) (allTokens probs)
  exact hsorted.imp of_decide_eq_true

theorem ranked_perm (probs : List ℚ) : (ranked probs).Perm (allTokens probs) := List.mergeSort_perm _ _

/-- There is only one list of given tokens in this order. -/
theorem eq_ranked {probs : List ℚ} {l : List (ProbIndex ℚ)} (hl : l.Pairwise Before)
    (hperm : l.Perm (allTokens probs)) : l = ranked probs :=
  List.Perm.eq_of_pairwise (fun _ _ _ _ => Before.antisymm) hl (ranked_pairwise probs)
    (hperm.trans (ranked_perm probs).symm)

section sort

variable {kernels : FloatOps ℚ}

theorem insertKey_perm (arr : List (ProbIndex ℚ)) (key : ProbIndex ℚ) :
    (insertKey (exactOps kernels) arr key).Perm (key :: arr) := by
  unfold insertKey
  generalize hp : (fun e : ProbIndex ℚ => (exactOps kernels).lt e.prob key.prob) = p
  have hsplit := @List.rdropWhile_append_rtakeWhile _ p arr
  calc (arr.rdropWhile p ++ key :: arr.rtakeWhile p).Perm
        (key :: (arr.rdropWhile p ++ arr.rtakeWhile p)) := List.perm_middle
    _ = key :: arr := by rw [hsplit]

/-- A key of a larger index than all others finds its place: what is as likely stays before it. -/
theorem insertKey_pairwise {arr : List (ProbIndex ℚ)} {key : ProbIndex ℚ} (h : arr.Pairwise Before)
    (hkey : ∀ e ∈ arr, e.index < key.index) :
    (insertKey (exactOps kernels) arr key).Pairwise Before := by
  unfold insertKey
  generalize hp : (fun e : ProbIndex ℚ => (exactOps kernels).lt e.prob key.prob) = p
  have hlt : ∀ e, p e = true ↔ e.prob < key.prob := fun e => by
    rw [← hp]
    exact decide_eq_true_iff
  have hsplit := @List.rdropWhile_append_rtakeWhile _ p arr
  rw [← hsplit, List.pairwise_append] at h
  obtain ⟨hfront, hback, hcross⟩ := h
  have hlate : ∀ e ∈ arr.rtakeWhile p, Before key e := fun e he =>
    .inl ((hlt e).mp (List.mem_rtakeWhile_imp he))
  have hearly : ∀ e ∈ arr.rdropWhile p, Before e key := by
    intro e he
    have hne : arr.rdropWhile p ≠ [] := List.ne_nil_of_mem he
    have hlast := List.rdropWhile_last_not p arr hne
    rw [hlt, not_lt] at hlast
    have hindex : e.index ≤ key.index := by
      have hmem : e ∈ arr := (List.rdropWhile_prefix p arr).subset he
      have := hkey e hmem
      omega
    -- the last one is not less likely than the key, and the others are before it
    have hle : key.prob ≤ e.prob := by
      rw [← List.dropLast_append_getLast hne] at he hfront
      rcases List.mem_append.mp he with he | he
      · have hbefore := (List.pairwise_append.mp hfront).2.2 e he _ (List.mem_singleton_self _)
        exact le_trans hlast hbefore.le
      · rw [List.mem_singleton.mp he]
        exact hlast
    rcases lt_or_eq_of_le hle with hlt | heq
    · exact .inl hlt
    · exact .inr ⟨heq.symm, hindex⟩
  apply List.pairwise_append.mpr
  refine ⟨hfront, List.pairwise_cons.mpr ⟨hlate, hback⟩, fun a ha b hb => ?_⟩
  rcases List.mem_cons.mp hb with rfl | hb
  · exact hearly a ha
  · exact hcross a ha b hb

/-- `sort_probindex` sorts tokens whose indices grow. -/
theorem sortProbindex_spec {arr : List (ProbIndex ℚ)} (h : arr.Pairwise fun a b => a.index < b.index) :
    (sortProbindex (exactOps kernels) arr).Pairwise Before ∧
      (sortProbindex (exactOps kernels) arr).Perm arr := by
  induction arr using List.reverseRecOn with
  | nil => exact ⟨.nil, .nil⟩
  | append_singleton arr key ih =>
    obtain ⟨harr, -, hkey⟩ := List.pairwise_append.mp h
    obtain ⟨hsorted, hperm⟩ := ih harr
    have hstep : sortProbindex (exactOps kernels) (arr ++ [key]) =
        insertKey (exactOps kernels) (sortProbindex (exactOps kernels) arr) key :=
      List.foldl_concat ..
    rw [hstep]
    constructor
    · apply insertKey_pairwise hsorted
      intro e he
      exact hkey e (hperm.subset he) key (List.mem_singleton_self key)
    · calc (insertKey (exactOps kernels) (sortProbindex (exactOps kernels) arr) key).Perm
            (key :: sortProbindex (exactOps kernels) arr) := insertKey_perm _ _
        _ = [key] ++ sortProbindex (exactOps kernels) arr := rfl
        List.Perm _ ([key] ++ arr) := hperm.append_left [key]
        List.Perm _ (arr ++ [key]) := List.perm_append_comm

end sort

/-! ## The nucleus -/

section nucleus

variable {kernels : FloatOps ℚ}

/-- `nucleus` is the shortest prefix over `topp`, if there is one. -/
theorem nucleus_eq {topp cum : ℚ} (h : cum ≤ topp) {es q : List (ProbIndex ℚ)}
    (hq : firstOver ProbIndex.prob (topp - cum) es = some q) :
    nucleus (exactOps kernels) topp es cum = (q, cum + total ProbIndex.prob q) := by
  induction es generalizing cum q with
  | nil =>
    rw [firstOver_nil (sub_nonneg.mpr h)] at hq
    cases hq
  | cons e es ih =>
    have hcum : (exactOps kernels).add cum e.prob = cum + e.prob := rfl
    have hif : (exactOps kernels).lt topp (cum + e.prob) = decide (topp < cum + e.prob) := rfl
    obtain ⟨rest, rfl, hcases⟩ := firstOver_cons_cases (sub_nonneg.mpr h) hq
    rw [nucleus, hcum, hif, total_cons, ← add_assoc]
    rcases hcases with ⟨hover, rfl⟩ | ⟨hbelow, hrest⟩
    · rw [decide_eq_true (sub_lt_iff_lt_add'.mp hover), if_pos rfl, total_nil, add_zero]
    · have hle : cum + e.prob ≤ topp := le_sub_iff_add_le'.mp hbelow
      rw [sub_sub] at hrest
      rw [decide_eq_false (not_lt.mpr hle), if_neg Bool.false_ne_true, ih hle hrest]

/-- `pickIndex` takes the last token of the shortest prefix over `r`. -/
theorem pickIndex_eq {r cdf : ℚ} (h : cdf ≤ r) {es q : List (ProbIndex ℚ)}
    (hq : firstOver ProbIndex.prob (r - cdf) es = some q) :
    pickIndex (exactOps kernels) r es cdf = q.getLast?.map ProbIndex.index := by
  induction es generalizing cdf q with
  | nil =>
    rw [firstOver_nil (sub_nonneg.mpr h)] at hq
    cases hq
  | cons e es ih =>
    have hcdf : (exactOps kernels).add cdf e.prob = cdf + e.prob := rfl
    have hif : (exactOps kernels).lt r (cdf + e.prob) = decide (r < cdf + e.prob) := rfl
    obtain ⟨rest, rfl, hcases⟩ := firstOver_cons_cases (sub_nonneg.mpr h) hq
    rw [pickIndex, hcdf, hif]
    rcases hcases with ⟨hover, rfl⟩ | ⟨hbelow, hrest⟩
    · rw [decide_eq_true (sub_lt_iff_lt_add'.mp hover), if_pos rfl]
      rfl
    · have hle : cdf + e.prob ≤ r := le_sub_iff_add_le'.mp hbelow
      rw [sub_sub] at hrest
      rw [decide_eq_false (not_lt.mpr hle), if_neg Bool.false_ne_true, ih hle hrest]
      have hheavy := lt_of_firstOver hrest
      cases rest with
      | nil => exact absurd hheavy (not_lt.mpr (sub_nonneg.mpr hle))
      | cons a rest => rfl

end nucleus

/-! ## The cutoff -/

theorem length_allTokens (probs : List ℚ) : (allTokens probs).length = probs.length := by
  rw [allTokens, List.length_map, List.length_zipIdx]

theorem allTokens_concat (probs : List ℚ) (x : ℚ) :
    allTokens (probs ++ [x]) = allTokens probs ++ [⟨x, probs.length⟩] := by
  rw [allTokens, List.zipIdx_append, List.map_append, Nat.zero_add]
  rfl

theorem index_lt {probs : List ℚ} {e : ProbIndex ℚ} (h : e ∈ allTokens probs) :
    e.index < probs.length := by
  obtain ⟨⟨x, i⟩, hx, rfl⟩ := List.mem_map.mp h
  have hi := (List.mem_zipIdx' hx).1
  show (i : Int) < probs.length
  omega

theorem allTokens_pairwise (probs : List ℚ) :
    (allTokens probs).Pairwise fun a b => a.index < b.index := by
  induction probs using List.reverseRecOn with
  | nil => exact .nil
  | append_singleton probs x ih =>
    rw [allTokens_concat]
    apply List.pairwise_append.mpr
    refine ⟨ih, List.pairwise_singleton _ _, fun a ha b hb => ?_⟩
    rw [List.mem_singleton.mp hb]
    exact index_lt ha

theorem total_allTokens (probs : List ℚ) : total ProbIndex.prob (allTokens probs) = probs.sum := by
  induction probs using List.reverseRecOn with
  | nil => rfl
  | append_singleton probs x ih =>
    rw [allTokens_concat, total_append, ih, List.sum_append]
    rfl

/-- The tokens that the cutoff keeps. -/
def keptTokens (probs : List ℚ) (cut : ℚ) : List (ProbIndex ℚ) :=
  (allTokens probs).filter fun e => decide (cut ≤ e.prob)

/-- The tokens that it drops. -/
def droppedTokens (probs : List ℚ) (cut : ℚ) : List (ProbIndex ℚ) :=
  (allTokens probs).filter fun e => !decide (cut ≤ e.prob)

theorem kept_dropped_perm (probs : List ℚ) (cut : ℚ) :
    (keptTokens probs cut ++ droppedTokens probs cut).Perm (allTokens probs) :=
  List.filter_append_perm _ _

section kept

variable {kernels : FloatOps ℚ} {probs : List ℚ} {topp cut : ℚ}

/-- All that is kept comes before all that is dropped. -/
theorem ranked_eq (probs : List ℚ) (cut : ℚ) : ranked probs =
    sortProbindex (exactOps kernels) (keptTokens probs cut) ++
      sortProbindex (exactOps kernels) (droppedTokens probs cut) := by
  obtain ⟨hkept, hkeptPerm⟩ := @sortProbindex_spec kernels (keptTokens probs cut)
    ((allTokens_pairwise probs).sublist List.filter_sublist)
  obtain ⟨hdropped, hdroppedPerm⟩ := @sortProbindex_spec kernels (droppedTokens probs cut)
    ((allTokens_pairwise probs).sublist List.filter_sublist)
  symm
  apply eq_ranked
  · refine List.pairwise_append.mpr ⟨hkept, hdropped, fun a ha b hb => .inl ?_⟩
    have ha := (List.mem_filter.mp (hkeptPerm.subset ha)).2
    have hb := (List.mem_filter.mp (hdroppedPerm.subset hb)).2
    rw [Bool.not_eq_true', decide_eq_false_iff_not, not_le] at hb
    exact lt_of_lt_of_le hb (of_decide_eq_true ha)
  · exact (hkeptPerm.append hdroppedPerm).trans (kept_dropped_perm probs cut)

/-- Tokens are dropped from a sum of 1. There are at most `n - 1` of them, each below
    `(1 - topp) / (n - 1)`. -/
theorem topp_lt_kept (hn : 2 ≤ probs.length) (hsum : probs.sum = 1) (htopp : topp < 1)
    (hmany : 1 ≤ probs.length * topp) (hcut : cut = (1 - topp) / (probs.length - 1)) :
    topp < total ProbIndex.prob (keptTokens probs cut) := by
  have hperm := kept_dropped_perm probs cut
  have hweight := total_perm (w := ProbIndex.prob) hperm
  rw [total_append, total_allTokens, hsum] at hweight
  have hcount := hperm.length_eq
  rw [List.length_append, length_allTokens] at hcount
  have hn1 : (0 : ℚ) < probs.length - 1 := by
    have : (2 : ℚ) ≤ probs.length := by exact_mod_cast hn
    linarith
  have hscale : ((probs.length : ℚ) - 1) * cut = 1 - topp := by
    rw [hcut]
    field_simp
  have hcutpos : 0 < cut := by
    rw [hcut]
    exact div_pos (by linarith) hn1
  by_cases hnone : droppedTokens probs cut = []
  · rw [hnone, total_nil, add_zero] at hweight
    rwa [hweight]
  have hlight := total_lt hnone fun e he => by
    have he := (List.mem_filter.mp he).2
    rw [Bool.not_eq_true', decide_eq_false_iff_not, not_le] at he
    exact he
  have hfew : ((droppedTokens probs cut).length : ℚ) ≤ probs.length - 1 := by
    have hkept : keptTokens probs cut ≠ [] := by
      intro hnil
      rw [hnil, total_nil, zero_add] at hweight
      rw [hnil, List.length_nil, Nat.zero_add] at hcount
      rw [hweight, hcount] at hlight
      -- then 1 < n * cut, but n * topp is at least 1
      nlinarith
    have hpos : 1 ≤ (keptTokens probs cut).length := List.length_pos_of_ne_nil hkept
    have hcast : ((keptTokens probs cut).length : ℚ) + (droppedTokens probs cut).length =
        probs.length := by exact_mod_cast hcount
    have : (1 : ℚ) ≤ (keptTokens probs cut).length := by exact_mod_cast hpos
    linarith
  have hbound : ((droppedTokens probs cut).length : ℚ) * cut ≤ 1 - topp := by
    rw [← hscale]
    exact mul_le_mul_of_nonneg_right hfew hcutpos.le
  linarith

/-- Without the tokens that are dropped the same one is chosen. -/
theorem chooseIndex_kept {coin : ℚ} (htopp : 0 ≤ topp) (hcoin : 0 ≤ coin) (hcoin1 : coin < 1)
    (hkept : topp < total ProbIndex.prob (keptTokens probs cut)) :
    ∃ i, chooseIndex (exactOps kernels) topp coin (keptTokens probs cut) = some i ∧
      toppReference probs topp coin = some i := by
  obtain ⟨-, hperm⟩ := @sortProbindex_spec kernels (keptTokens probs cut)
    ((allTokens_pairwise probs).sublist List.filter_sublist)
  rw [← total_perm hperm] at hkept
  obtain ⟨q, hq⟩ := exists_firstOver hkept
  have hheavy := lt_of_firstOver hq
  have hbound : coin * total ProbIndex.prob q < total ProbIndex.prob q := by
    nlinarith
  obtain ⟨u, hu⟩ := exists_firstOver hbound
  have hpos : 0 ≤ coin * total ProbIndex.prob q := mul_nonneg hcoin (by linarith)
  have hlast : ∃ e, u.getLast? = some e := by
    have hu0 := lt_of_firstOver hu
    cases u with
    | nil => exact absurd hu0 (not_lt.mpr hpos)
    | cons a u => exact ⟨_, rfl⟩
  obtain ⟨e, he⟩ := hlast
  refine ⟨e.index, ?_, ?_⟩
  · have hzero : (exactOps kernels).ofInt 0 = 0 := Int.cast_zero
    have hmul : (exactOps kernels).mul coin (total ProbIndex.prob q) =
        coin * total ProbIndex.prob q := rfl
    have hnucleus := @nucleus_eq kernels topp 0 htopp _ q (by rwa [sub_zero])
    have hpick := @pickIndex_eq kernels (coin * total ProbIndex.prob q) 0 hpos q u
      (by rwa [sub_zero])
    rw [chooseIndex, hzero, hnucleus, zero_add, hmul, hpick, he]
    rfl
  · have hranked := firstOver_append hq (sortProbindex (exactOps kernels) (droppedTokens probs cut))
    rw [← ranked_eq] at hranked
    rw [toppReference, hranked, Option.bind_eq_bind, Option.bind_some, hu, Option.bind_eq_bind,
      Option.bind_some, he]
    rfl

/-! ## The run -/

variable {dom : Ptr → Bool} {m : Ptr → Option ℚ} {p : Ptr}

/-- `p` points to these probabilities. -/
def PointsTo (dom : Ptr → Bool) (m : Ptr → Option ℚ) (p : Ptr) (probs : List ℚ) : Prop :=
  ∀ i v, probs[i]? = some v → dom (p.at i) = true ∧ m (p.at i) = some v

theorem candidates_run (h : PointsTo dom m p probs) (cut : ℚ) :
    (candidates (exactOps kernels) p probs.length cut).run dom m = .done (keptTokens probs cut) m := by
  have hrun := @Cmd.run_foldUpto Ptr ℚ (List (ProbIndex ℚ)) _ dom probs.length
    (fun i acc => (Cmd.get (p.at i)).bind fun v =>
      .done (if (exactOps kernels).le cut v then acc ++ [⟨v, i⟩] else acc)) m
    (fun i => keptTokens (probs.take i) cut) ?_
  · rw [List.take_length] at hrun
    exact hrun
  · intro i hi
    obtain ⟨hdom, hm⟩ := h i probs[i] (List.getElem?_eq_getElem hi)
    have hle : (exactOps kernels).le cut probs[i] = decide (cut ≤ probs[i]) := rfl
    have hlen : (probs.take i).length = i := List.length_take_of_le (Nat.le_of_lt hi)
    rw [Cmd.run_bind, Cmd.get, Cmd.run, if_pos hdom, hm]
    simp only [Cmd.run, hle]
    congr 1
    rw [List.take_add_one, List.getElem?_eq_getElem hi, Option.toList_some, keptTokens, keptTokens,
      allTokens_concat, List.filter_append, hlen, List.filter_cons, List.filter_nil]
    split <;> simp

end kept

/-- The cutoff of `sample_topp` loses nothing: a candidate is kept, and the token is the one that would
    be drawn without it. -/
theorem sampleTopp_eq_reference (kernels : FloatOps ℚ) {dom : Ptr → Bool} {m : Ptr → Option ℚ} {p : Ptr}
    {probs : List ℚ} (hn : 100 ≤ probs.length) (hmem : PointsTo dom m p probs)
    (hsum : probs.sum = 1) {k : Nat} (hk : 1 ≤ k ∧ k ≤ 99) {coin : ℚ}
    (hcoin : 0 ≤ coin ∧ coin < 1) :
    ∃ found i,
      (candidates (exactOps kernels) p probs.length
        (cutoff (exactOps kernels) (k / 100) probs.length)).run dom m = .done found m ∧ found ≠ [] ∧
      (sampleTopp (exactOps kernels) p probs.length (k / 100) coin).run dom m = .done i m ∧
      toppReference probs (k / 100) coin = some i := by
  have hk1 : (1 : ℚ) ≤ k := by exact_mod_cast hk.1
  have hk99 : (k : ℚ) ≤ 99 := by exact_mod_cast hk.2
  have hn100 : (100 : ℚ) ≤ probs.length := by exact_mod_cast hn
  generalize hcut : cutoff (exactOps kernels) (k / 100) probs.length = cut
  have hcutoff : cut = (1 - (k : ℚ) / 100) / (probs.length - 1) := by
    rw [← hcut]
    show ((1 : Int) - (k : ℚ) / 100) / (((probs.length : Int) - 1 : Int) : ℚ) = _
    push_cast
    rfl
  have hmany : 1 ≤ (probs.length : ℚ) * (k / 100) := by nlinarith
  have hkept := topp_lt_kept (by omega) hsum (by linarith) hmany hcutoff
  obtain ⟨i, hchoose, hreference⟩ := @chooseIndex_kept kernels probs (k / 100) cut coin (by linarith)
    hcoin.1 hcoin.2 hkept
  have hcandidates := @candidates_run kernels probs dom m p hmem cut
  refine ⟨keptTokens probs cut, i, hcandidates, ?_, ?_, hreference⟩
  · intro hnil
    rw [hnil, total_nil] at hkept
    linarith
  · have hbind : sampleTopp (exactOps kernels) p probs.length (k / 100) coin =
        (candidates (exactOps kernels) p probs.length cut).bind fun found =>
          Cmd.ofOption (chooseIndex (exactOps kernels) (k / 100) coin found) := by
      rw [← hcut]
      rfl
    rw [hbind, Cmd.run_bind, hcandidates]
    simp only
    rw [hchoose]
    rfl

/-- 100 tokens that are equally likely. -/
def evenProbs : List ℚ := List.replicate 100 (1 / 100)

theorem sampleTopp_eq_reference_boot :
    ∃ found i,
      (candidates (exactOps testKernels) (.logits, 0) evenProbs.length
        (cutoff (exactOps testKernels) ((90 : Nat) / 100) evenProbs.length)).run (fun _ => true)
          (fun _ => some (1 / 100)) = .done found (fun _ => some (1 / 100)) ∧ found ≠ [] ∧
      (sampleTopp (exactOps testKernels) (.logits, 0) evenProbs.length ((90 : Nat) / 100) (1 / 2)).run
        (fun _ => true) (fun _ => some (1 / 100)) = .done i (fun _ => some (1 / 100)) ∧
      toppReference evenProbs ((90 : Nat) / 100) (1 / 2) = some i := by
  have hpoints : PointsTo (fun _ => true) (fun _ => some (1 / 100)) (.logits, 0) evenProbs := by
    intro i v hv
    have hmem := List.mem_of_getElem? hv
    rw [List.eq_of_mem_replicate hmem]
    exact ⟨rfl, rfl⟩
  have hlen : evenProbs.length = 100 := List.length_replicate ..
  apply sampleTopp_eq_reference testKernels (by rw [hlen]) hpoints
  · rw [evenProbs, List.sum_replicate]
    norm_num
  · decide
  · norm_num

end ChocoOs.Llama
