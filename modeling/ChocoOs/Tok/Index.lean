import ChocoOs.Lib.CString
import ChocoOs.Lib.Heap
import ChocoOs.Lib.Loop
import Mathlib.Algebra.Group.Nat.Defs

/-!
# The sorted vocabulary

`tok_sort` and `tok_lookup` of `llm_common.c`. The index is an array of `n` entries; `none` means
that an entry outside it is accessed, that an `int` overflows, or that a loop never ends.
-/

namespace ChocoOs.Tok
open ProgLib

/-- `TokenIndex` (`llm_common.h:14-18`). -/
structure TokenIndex where
  str : CString
  id : Nat
  deriving DecidableEq

/-- `INT_MAX`. -/
def intMax : Nat := 2 ^ 31 - 1

/-- `compare_tokens` (`llm_common.c:29-32`). -/
def compareTokens (a b : TokenIndex) : Int := strcmp a.str.1 b.str.1

/-- `arr[i]` of an array of `n` entries. -/
def readAt (n : Nat) (arr : Nat → TokenIndex) (i : Nat) : Option TokenIndex :=
  if i < n then some (arr i) else none

/-- Two entries change places. -/
def swapAt (n : Nat) (arr : Nat → TokenIndex) (i j : Nat) : Option (Nat → TokenIndex) :=
  if i < n ∧ j < n then some (exchange arr i j) else none

/-- The child that no other child below `bound` is above. -/
def upperChild (n bound : Nat) (arr : Nat → TokenIndex) (child : Nat) : Option Nat :=
  if child + 1 < bound then do
    let a ← readAt n arr child
    let b ← readAt n arr (child + 1)
    return if compareTokens a b < 0 then child + 1 else child
  else some child

/-- One round of the inner loops of `tok_sort`, with `end` as `bound`
    (`llm_common.c:40-52` and `60-72`). -/
def siftRound (n bound : Nat) :
    (Nat → TokenIndex) × Nat → Option (LoopStep ((Nat → TokenIndex) × Nat) (Nat → TokenIndex))
  | (arr, root) =>
    if intMax < 2 * root + 1 then none
    else if bound ≤ 2 * root + 1 then some (.done arr)
    else do
      let child ← upperChild n bound arr (2 * root + 1)
      let r ← readAt n arr root
      let c ← readAt n arr child
      if 0 ≤ compareTokens r c then return .done arr
      let arr ← swapAt n arr root child
      return .next (arr, child)

def siftDown (n bound root : Nat) (arr : Nat → TokenIndex) : Option (Nat → TokenIndex) :=
  loop (siftRound n bound) (n + 1) (arr, root)

/-- The first loop of `tok_sort` from `start = k - 1` down (`llm_common.c:37-53`). -/
def heapify (n : Nat) : Nat → (Nat → TokenIndex) → Option (Nat → TokenIndex)
  | 0, arr => some arr
  | k + 1, arr => (siftDown n n k arr).bind (heapify n k)

/-- The second loop of `tok_sort` from `end = e` down (`llm_common.c:54-74`). -/
def extract (n : Nat) : Nat → (Nat → TokenIndex) → Option (Nat → TokenIndex)
  | 0, arr => some arr
  | e + 1, arr => (swapAt n arr 0 (e + 1)).bind fun arr =>
      (siftDown n (e + 1) 0 arr).bind (extract n e)

/-- `tok_sort` (`llm_common.c:35-75`). -/
def tokSort (n : Nat) (arr : Nat → TokenIndex) : Option (Nat → TokenIndex) :=
  (heapify n (n / 2) arr).bind (extract n (n - 1))

/-- One round of `tok_lookup`: `lo` and `hi` are `int`s. -/
def lookupRound (str : CString) (sorted : Nat → TokenIndex) (n : Nat) :
    Int × Int → Option (LoopStep (Int × Int) (Option Nat))
  | (lo, hi) =>
    if hi < lo then some (.done none)
    else if intMax < lo + hi then none
    else do
      let mid := (lo + hi).tdiv 2
      let t ← if 0 ≤ mid then readAt n sorted mid.toNat else none
      let c := strcmp str.1 t.str.1
      if c = 0 then return .done (some t.id)
      if c < 0 then return .next (lo, mid - 1)
      return .next (mid + 1, hi)

/-- `tok_lookup` (`llm_common.c:77-92`); `-1` is `none`. -/
def tokLookup (str : CString) (sorted : Nat → TokenIndex) (n : Nat) : Option (Option Nat) :=
  loop (lookupRound str sorted n) (n + 1) (0, (n : Int) - 1)

/-! ## The order of the entries -/

/-- The order that `tok_sort` sorts by. -/
def Upto (a b : TokenIndex) : Prop := compareTokens a b ≤ 0

theorem Upto.refl (a : TokenIndex) : Upto a a := Int.le_of_eq (strcmp_self a.str.1)

theorem Upto.trans {a b c : TokenIndex} (hab : Upto a b) (hbc : Upto b c) : Upto a c :=
  strcmp_trans hab hbc

theorem upto_of_nonneg {a b : TokenIndex} (h : 0 ≤ compareTokens a b) : Upto b a := by
  unfold Upto compareTokens
  rw [strcmp_neg a.str.1]
  exact Int.neg_nonpos_of_nonneg h

theorem upto_of_neg {a b : TokenIndex} (h : ¬ 0 ≤ compareTokens a b) : Upto a b :=
  Int.le_of_lt (Int.not_le.mp h)

/-! ## Sifting down -/

theorem readAt_of_lt {n i : Nat} (arr : Nat → TokenIndex) (h : i < n) :
    readAt n arr i = some (arr i) := if_pos h

/-- The chosen child exists, and no child is above it. -/
theorem upperChild_eq {n bound root : Nat} (arr : Nat → TokenIndex) (hbound : bound ≤ n)
    (hchild : 2 * root + 1 < bound) : ∃ c, upperChild n bound arr (2 * root + 1) = some c ∧
      IsKid c root ∧ c < bound ∧ ∀ d, IsKid d root → d < bound → Upto (arr d) (arr c) := by
  unfold upperChild
  by_cases htwo : 2 * root + 1 + 1 < bound
  · rw [if_pos htwo, readAt_of_lt arr (by omega), readAt_of_lt arr (by omega)]
    by_cases hlt : compareTokens (arr (2 * root + 1)) (arr (2 * root + 1 + 1)) < 0
    · refine ⟨2 * root + 1 + 1, congrArg some (if_pos hlt), .inr rfl, htwo, ?_⟩
      rintro d (rfl | rfl) _
      · exact Int.le_of_lt hlt
      · exact .refl _
    · refine ⟨2 * root + 1, congrArg some (if_neg hlt), .inl rfl, hchild, ?_⟩
      rintro d (rfl | rfl) _
      · exact .refl _
      · exact upto_of_nonneg (Int.not_lt.mp hlt)
  · refine ⟨2 * root + 1, if_neg htwo, .inl rfl, hchild, ?_⟩
    rintro d (rfl | rfl) hd
    · exact .refl _
    · exact absurd hd htwo

/-- Sifting down repairs a heap that is broken at the root of the sift. -/
theorem siftDown_eq {n bound s root : Nat} {arr : Nat → TokenIndex} (hn : n ≤ 2 ^ 30)
    (hbound : bound ≤ n) (hroot : root < n) (hs : s ≤ root)
    (h : AlmostHeap Upto s bound arr root) : ∃ arr', siftDown n bound root arr = some arr' ∧
      HeapFrom Upto s bound arr' ∧ Rearranged bound arr arr' := by
  refine loop_total (siftRound n bound)
    (fun x => x.2 < n ∧ s ≤ x.2 ∧ AlmostHeap Upto s bound x.1 x.2 ∧ Rearranged bound arr x.1)
    (fun arr' => HeapFrom Upto s bound arr' ∧ Rearranged bound arr arr') (fun x => n - x.2)
    ?_ (n + 1) (arr, root) ⟨hroot, hs, h, .refl _ _⟩ (by simp only; omega)
  rintro ⟨f, r⟩ ⟨hr, hsr, hheap, hperm⟩
  simp only at hr hsr hheap hperm
  have hint : ¬ intMax < 2 * r + 1 := by
    unfold intMax
    omega
  rw [siftRound, if_neg hint]
  by_cases hleaf : bound ≤ 2 * r + 1
  · refine .inl ⟨f, if_pos hleaf, hheap.done fun c hc hcb => ?_, hperm⟩
    unfold IsKid at hc
    omega
  rw [if_neg hleaf]
  obtain ⟨c, hc, hkid, hcb, hmax⟩ := upperChild_eq f hbound (Nat.lt_of_not_le hleaf)
  rw [hc]
  simp only [Option.bind_eq_bind, Option.bind_some, readAt_of_lt f hr,
    readAt_of_lt f (Nat.lt_of_lt_of_le hcb hbound)]
  have hrc : r < c := by
    unfold IsKid at hkid
    omega
  by_cases hge : 0 ≤ compareTokens (f r) (f c)
  · exact .inl ⟨f, if_pos hge, hheap.done fun d hd hdb => (hmax d hd hdb).trans
      (upto_of_nonneg hge), hperm⟩
  · refine .inr ⟨(exchange f r c, c), ?_, ⟨by simp only; omega, by simp only; omega,
      hheap.step hsr hkid hcb hmax (upto_of_neg hge),
      hperm.trans (.of_exchange f (by omega) hcb)⟩, by simp only; omega⟩
    have hswap : swapAt n f r c = some (exchange f r c) := if_pos ⟨hr, by omega⟩
    refine (if_neg hge).trans ?_
    rw [hswap]
    rfl

/-! ## Sorting -/

/-- The entries below `n` are in order. -/
def Sorted (n : Nat) (arr : Nat → TokenIndex) : Prop :=
  ∀ i j, i ≤ j → j < n → Upto (arr i) (arr j)

/-- The entries behind `e` are where they belong. -/
def Settled (e n : Nat) (arr : Nat → TokenIndex) : Prop :=
  ∀ i j, i ≤ j → e < j → j < n → Upto (arr i) (arr j)

theorem heapify_eq {n k : Nat} {arr : Nat → TokenIndex} (hn : n ≤ 2 ^ 30) (hk : k ≤ n / 2)
    (h : HeapFrom Upto k n arr) : ∃ arr', heapify n k arr = some arr' ∧
      HeapFrom Upto 0 n arr' ∧ Rearranged n arr arr' := by
  induction k generalizing arr with
  | zero => exact ⟨arr, rfl, h, .refl _ _⟩
  | succ k ih =>
    obtain ⟨f, hf, hheap, hperm⟩ :=
      siftDown_eq hn (Nat.le_refl n) (by omega) (Nat.le_refl k) h.almost
    obtain ⟨g, hg, hheap', hperm'⟩ := ih (by omega) hheap
    exact ⟨g, by rw [heapify, hf, Option.bind_some, hg], hheap', hperm.trans hperm'⟩

/-- One round of the second loop: the largest entry goes to its place. -/
theorem settled_step {e n : Nat} {f g : Nat → TokenIndex}
    (hheap : HeapFrom Upto 0 (e + 1 + 1) f) (hset : Settled (e + 1) n f)
    (hperm : Rearranged (e + 1) (exchange f 0 (e + 1)) g) : Settled e n g := by
  have hall : Rearranged (e + 2) f g :=
    (Rearranged.of_exchange f (by omega) (by omega)).trans (hperm.mono (by omega))
  have hlast : g (e + 1) = f 0 := by
    rw [hperm.eq_of_le (Nat.le_refl _), exchange_right]
  intro i j hij hej hjn
  by_cases hj : j = e + 1
  · subst hj
    obtain ⟨k, hk, hgk⟩ := hall.exists_of_lt (show i < e + 2 by omega)
    rw [hlast, hgk]
    exact hheap.le_first .refl (fun _ _ _ => .trans) hk
  · rw [hall.eq_of_le (show e + 2 ≤ j by omega)]
    by_cases hi : i < e + 2
    · obtain ⟨k, hk, hgk⟩ := hall.exists_of_lt hi
      rw [hgk]
      exact hset k j (by omega) (by omega) hjn
    · rw [hall.eq_of_le (Nat.le_of_not_lt hi)]
      exact hset i j hij (by omega) hjn

theorem extract_eq {n e : Nat} {f : Nat → TokenIndex} (hn : n ≤ 2 ^ 30) (he : e < n ∨ e = 0)
    (hheap : HeapFrom Upto 0 (e + 1) f) (hset : Settled e n f) :
    ∃ g, extract n e f = some g ∧ Rearranged n f g ∧ Sorted n g := by
  induction e generalizing f with
  | zero =>
    refine ⟨f, rfl, .refl _ _, fun i j hij hjn => ?_⟩
    by_cases hj : j = 0
    · obtain rfl : i = j := by omega
      exact .refl _
    · exact hset i j hij (Nat.pos_of_ne_zero hj) hjn
  | succ e ih =>
    have hen : e + 1 < n := he.resolve_right (Nat.succ_ne_zero e)
    have hswap : swapAt n f 0 (e + 1) = some (exchange f 0 (e + 1)) := if_pos ⟨by omega, hen⟩
    obtain ⟨g, hg, hheap', hperm⟩ := siftDown_eq hn (Nat.le_of_lt hen) (by omega) (Nat.le_refl 0)
      hheap.almost_exchange
    obtain ⟨g', hg', hperm', hsorted⟩ :=
      ih (.inl (by omega)) hheap' (settled_step hheap hset hperm)
    refine ⟨g', ?_, ?_, hsorted⟩
    · rw [extract, hswap, Option.bind_some, hg, Option.bind_some, hg']
    · exact ((Rearranged.of_exchange f (by omega) hen).trans (hperm.mono (by omega))).trans hperm'

/-- `tok_sort` returns the entries in order. -/
theorem tokSort_eq {n : Nat} (arr : Nat → TokenIndex) (hn : n ≤ 2 ^ 30) :
    ∃ g, tokSort n arr = some g ∧ Rearranged n arr g ∧ Sorted n g := by
  have hstart : HeapFrom Upto (n / 2) n arr := fun i c hi hc hcn => by unfold IsKid at hc; omega
  obtain ⟨f, hf, hheap, hperm⟩ := heapify_eq hn (Nat.le_refl (n / 2)) hstart
  obtain ⟨g, hg, hperm', hsorted⟩ := extract_eq hn (e := n - 1) (by omega)
    (fun i c hi hc hcn => hheap i c hi hc (by unfold IsKid at hc; omega))
    (f := f) fun i j _ hj hjn => absurd hj (by omega)
  exact ⟨g, by rw [tokSort, hf, Option.bind_some, hg], hperm.trans hperm', hsorted⟩

/-! ## Looking up -/

/-- The index of a vocabulary (`llm.c:316-321`, `qwen.c:285-290`). -/
def vocabIndex (vocab : List CString) (i : Nat) : TokenIndex := ⟨vocab.getD i CString.nil, i⟩

/-- `sorted` is the sorted index of `vocab`. -/
def IsIndex (vocab : List CString) (sorted : Nat → TokenIndex) : Prop :=
  tokSort vocab.length (vocabIndex vocab) = some sorted

theorem tokLookup_eq {n : Nat} {arr : Nat → TokenIndex} (hn : n ≤ 2 ^ 30) (h : Sorted n arr)
    (str : CString) : ∃ r, tokLookup str arr n = some r ∧
      ((r = none ∧ ∀ i < n, (arr i).str ≠ str) ∨
        ∃ i < n, (arr i).str = str ∧ r = some (arr i).id) := by
  refine loop_total (lookupRound str arr n)
    (fun x => 0 ≤ x.1 ∧ x.2 < n ∧ x.1 ≤ x.2 + 1 ∧
      (∀ i < n, (i : Int) < x.1 → 0 < strcmp str.1 (arr i).str.1) ∧
      ∀ i < n, x.2 < i → strcmp str.1 (arr i).str.1 < 0)
    (fun r => (r = none ∧ ∀ i < n, (arr i).str ≠ str) ∨
      ∃ i < n, (arr i).str = str ∧ r = some (arr i).id)
    (fun x => (x.2 + 1 - x.1).toNat) ?_ (n + 1) (0, (n : Int) - 1) ?_ (by simp only; omega)
  · rintro ⟨lo, hi⟩ ⟨hlo, hhi, hle, hbelow, habove⟩
    simp only at hlo hhi hle hbelow habove
    rw [lookupRound]
    by_cases hend : hi < lo
    · refine .inl ⟨none, if_pos hend, .inl ⟨rfl, fun i hi he => ?_⟩⟩
      have hne : strcmp str.1 (arr i).str.1 = 0 := by rw [he, strcmp_self]
      rcases Int.lt_or_le i lo with hlt | hge
      · have := hbelow i hi hlt
        omega
      · have := habove i hi (by omega)
        omega
    have hint : ¬ (intMax : Int) < lo + hi := by
      have : (intMax : Int) = 2 ^ 31 - 1 := by unfold intMax; omega
      omega
    rw [if_neg hend, if_neg hint]
    obtain ⟨m, hm⟩ : ∃ m : Nat, (lo + hi).tdiv 2 = m :=
      ⟨((lo + hi) / 2).toNat, by rw [Int.tdiv_eq_ediv_of_nonneg (by omega)]; omega⟩
    have hmlo : lo ≤ m := by rw [← hm, Int.tdiv_eq_ediv_of_nonneg (by omega)]; omega
    have hmhi : (m : Int) ≤ hi := by rw [← hm, Int.tdiv_eq_ediv_of_nonneg (by omega)]; omega
    have hmn : m < n := by omega
    simp only [hm, Option.bind_eq_bind, Int.natCast_nonneg, if_true, Int.toNat_natCast,
      readAt_of_lt arr hmn, Option.bind_some]
    by_cases hzero : strcmp str.1 (arr m).str.1 = 0
    · exact .inl ⟨some (arr m).id, if_pos hzero, .inr ⟨m, hmn, (strcmp_eq_zero.mp hzero).symm, rfl⟩⟩
    rw [if_neg hzero]
    by_cases hneg : strcmp str.1 (arr m).str.1 < 0
    · refine .inr ⟨(lo, (m : Int) - 1), if_pos hneg, ⟨hlo, by simp only; omega, by simp only; omega,
        hbelow, fun i hi hmi => ?_⟩, by simp only; omega⟩
      -- everything from `m` on is above the string
      have hle : strcmp (arr m).str.1 (arr i).str.1 ≤ 0 := h m i (by simp only at hmi; omega) hi
      have htrans := strcmp_trans (Int.le_of_lt hneg) hle
      have hne : strcmp str.1 (arr i).str.1 ≠ 0 := fun h0 => by
        rw [strcmp_neg (arr i).str.1, ← strcmp_eq_zero.mp h0] at hle
        omega
      omega
    · refine .inr ⟨((m : Int) + 1, hi), if_neg hneg, ⟨by simp only; omega, hhi, by simp only; omega,
        fun i hi hmi => ?_, habove⟩, by simp only; omega⟩
      -- everything up to `m` is below the string
      have hle : strcmp (arr i).str.1 (arr m).str.1 ≤ 0 := h i m (by simp only at hmi; omega) hmn
      have hpos : strcmp (arr m).str.1 str.1 ≤ 0 := by
        rw [strcmp_neg str.1]
        omega
      have htrans := strcmp_trans hle hpos
      rw [strcmp_neg str.1] at htrans
      have hne : strcmp str.1 (arr i).str.1 ≠ 0 := fun h0 => by
        rw [← strcmp_eq_zero.mp h0] at hle
        omega
      omega
  · exact ⟨Int.le_refl 0, by simp only; omega, by simp only; omega,
      fun i _ hi => absurd hi (by simp only; omega), fun i hi hi' => absurd hi' (by simp only; omega)⟩

/-- `tok_lookup` in the index of a vocabulary finds a string if and only if it is in the
    vocabulary, and then returns an id of it. -/
theorem IsIndex.lookup {vocab : List CString} {sorted : Nat → TokenIndex}
    (h : IsIndex vocab sorted) (hn : vocab.length ≤ 2 ^ 30) (str : CString) :
    ∃ r, tokLookup str sorted vocab.length = some r ∧
      ((r = none ∧ str ∉ vocab) ∨ ∃ id, r = some id ∧ vocab[id]? = some str) := by
  obtain ⟨g, hg, hperm, hsorted⟩ := tokSort_eq (vocabIndex vocab) hn
  unfold IsIndex at h
  rw [h] at hg
  cases hg
  obtain ⟨r, hr, hcases⟩ := tokLookup_eq hn hsorted str
  refine ⟨r, hr, ?_⟩
  have hentry : ∀ i < vocab.length, ∃ j < vocab.length, sorted i = vocabIndex vocab j :=
    fun i hi => hperm.exists_of_lt hi
  rcases hcases with ⟨hnone, hall⟩ | ⟨i, hi, hstr, hsome⟩
  · refine .inl ⟨hnone, fun hmem => ?_⟩
    obtain ⟨j, hj, he⟩ := List.mem_iff_getElem.mp hmem
    obtain ⟨i, hi, hji⟩ := hperm.symm.exists_of_lt hj
    refine hall i hi ?_
    rw [← hji, vocabIndex, List.getD_eq_getElem?_getD, List.getElem?_eq_getElem hj, he]
    rfl
  · obtain ⟨j, hj, he⟩ := hentry i hi
    rw [he] at hstr hsome
    refine .inr ⟨j, hsome, ?_⟩
    rw [List.getElem?_eq_getElem hj, ← hstr, vocabIndex, List.getD_eq_getElem?_getD,
      List.getElem?_eq_getElem hj]
    rfl

end ChocoOs.Tok
