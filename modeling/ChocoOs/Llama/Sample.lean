import ChocoOs.Llama.Math
import Mathlib.Data.List.DropRight

/-!
# The sampler

`llm_sample` of `llm_common.c`. It works on the logits in place. The candidates of `sample_topp` are in a
buffer of their own, which is always written before it is read; here they are a list.
-/

namespace ChocoOs.Llama
open ProgLib

/-- `ProbIndex` (`llm_common.h:24-28`) -/
structure ProbIndex (F : Type) where
  prob : F
  index : Int
  deriving DecidableEq

/-- `random_u32` (`llm_common.c:96-102`), and the state after it. -/
def randomU32 (state : UInt64) : UInt32 × UInt64 :=
  let state := state ^^^ (state >>> 12)
  let state := state ^^^ (state <<< 25)
  let state := state ^^^ (state >>> 27)
  (((state * 0x2545F4914F6CDD1D) >>> 32).toUInt32, state)

section sample

variable {F : Type} (ops : FloatOps F)

/-- `random_f32` (`llm_common.c:104-107`), and the state after it. -/
def randomF32 (state : UInt64) : F × UInt64 :=
  let u := randomU32 state
  (ops.div (ops.ofInt (u.1 >>> 8).toNat) (ops.ofInt 16777216), u.2)

/-- `sample_argmax` (`llm_common.c:109-122`) -/
def sampleArgmax (p : Ptr) (n : Nat) : Cmd Ptr F Int := do
  let maxP ← Cmd.get (p.at 0)
  let r ← Cmd.foldUpto (n - 1) ((0 : Int), maxP) fun i r => do
    let v ← Cmd.get (p.at (i + 1))
    return if ops.lt r.2 v then ((i : Int) + 1, v) else r
  return r.1

/-- `sample_mult` (`llm_common.c:124-134`). Nothing is read after the index is found. -/
def sampleMult (p : Ptr) (n : Nat) (coin : F) : Cmd Ptr F Int := do
  let r ← Cmd.foldUpto n ((none : Option Int), ops.ofInt 0) fun i r =>
    match r.1 with
    | some _ => return r
    | none => do
      let v ← Cmd.get (p.at i)
      let cdf := ops.add r.2 v
      return (if ops.lt coin cdf then some (i : Int) else none, cdf)
  return r.1.getD (n - 1)

/-- One round of `sort_probindex`: what has a smaller probability than the key moves up. -/
def insertKey (arr : List (ProbIndex F)) (key : ProbIndex F) : List (ProbIndex F) :=
  arr.rdropWhile (fun e => ops.lt e.prob key.prob) ++
    key :: arr.rtakeWhile (fun e => ops.lt e.prob key.prob)

/-- `sort_probindex` (`llm_common.c:136-150`) -/
def sortProbindex (arr : List (ProbIndex F)) : List (ProbIndex F) := arr.foldl (insertKey ops) []

/-- `1.0f - topp` over `n - 1` (`llm_common.c:157`). -/
def cutoff (topp : F) (n : Nat) : F :=
  ops.div (ops.sub (ops.ofInt 1) topp) (ops.ofInt ((n : Int) - 1))

/-- The tokens that may be in the nucleus (`llm_common.c:158-166`). -/
def candidates (p : Ptr) (n : Nat) (cut : F) : Cmd Ptr F (List (ProbIndex F)) :=
  Cmd.foldUpto n [] fun i acc => do
    let v ← Cmd.get (p.at i)
    return if ops.le cut v then acc ++ [⟨v, i⟩] else acc

/-- The candidates up to `last_idx`, and their sum (`llm_common.c:169-179`). -/
def nucleus (topp : F) : List (ProbIndex F) → F → List (ProbIndex F) × F
  | [], cum => ([], cum)
  | e :: es, cum =>
    let cum := ops.add cum e.prob
    if ops.lt topp cum then ([e], cum)
    else
      let r := nucleus topp es cum
      (e :: r.1, r.2)

/-- The first candidate at which the sum exceeds `r` (`llm_common.c:182-188`). -/
def pickIndex (r : F) : List (ProbIndex F) → F → Option Int
  | [], _ => none
  | e :: es, cdf =>
    let cdf := ops.add cdf e.prob
    if ops.lt r cdf then some e.index else pickIndex r es cdf

/-- `sample_topp` after the candidates are found (`llm_common.c:167-189`). Without a candidate it reads
    in front of their buffer. -/
def chooseIndex (topp coin : F) (found : List (ProbIndex F)) : Option Int :=
  let kept := nucleus ops topp (sortProbindex ops found) (ops.ofInt 0)
  (pickIndex ops (ops.mul coin kept.2) kept.1 (ops.ofInt 0)).or
    (kept.1.getLast?.map fun e => e.index)

/-- `sample_topp` (`llm_common.c:152-190`) -/
def sampleTopp (p : Ptr) (n : Nat) (topp coin : F) : Cmd Ptr F Int := do
  let found ← candidates ops p n (cutoff ops topp n)
  Cmd.ofOption (chooseIndex ops topp coin found)

/-- `llm_sample` (`llm_common.c:192-205`), and the state of the random numbers after it. -/
def llmSample (n : Nat) (temperature topp : F) (rngState : UInt64) : Cmd Ptr F (Int × UInt64) := do
  if ops.eq temperature (ops.ofInt 0) then
    let i ← sampleArgmax ops (.logits, 0) n
    return (i, rngState)
  else
    Cmd.forUpto n fun q => do
      let v ← Cmd.get (Ptr.at (.logits, 0) q)
      Cmd.set (Ptr.at (.logits, 0) q) (ops.div v temperature)
    llmSoftmax ops (.logits, 0) n
    let coin := randomF32 ops rngState
    let i ← if ops.le topp (ops.ofInt 0) || ops.le (ops.ofInt 1) topp then
        sampleMult ops (.logits, 0) n coin.1
      else sampleTopp ops (.logits, 0) n topp coin.1
    return (i, coin.2)

end sample

/-! ## What the sampler reads and writes -/

section safe

variable {F : Type} {ops : FloatOps F} {len : Buf → Nat} {D : Set Ptr}

theorem safe_sampleArgmax {p : Ptr} {n : Nat} (hpos : 0 < n) (hp : p.Fits len n)
    (hD : p.cells n ⊆ D) : (sampleArgmax ops p n).Safe (inBuf len) D D := by
  refine (safe_get hp hpos hD).bind fun _ => ?_
  refine Cmd.Safe.bind (Cmd.Safe.foldUpto_read fun i hi r => ?_) fun _ => .done _
  exact (safe_get hp (by omega) hD).bind fun _ => .done _

theorem safe_sampleMult {p : Ptr} {n : Nat} {coin : F} (hp : p.Fits len n) (hD : p.cells n ⊆ D) :
    (sampleMult ops p n coin).Safe (inBuf len) D D := by
  refine Cmd.Safe.bind (Cmd.Safe.foldUpto_read fun i hi r => ?_) fun _ => .done _
  obtain ⟨found, cdf⟩ := r
  cases found with
  | some _ => exact .done _
  | none => exact (safe_get hp hi hD).bind fun _ => .done _

theorem safe_sampleTopp {p : Ptr} {n : Nat} {topp coin : F} (hp : p.Fits len n)
    (hD : p.cells n ⊆ D) : (sampleTopp ops p n topp coin).Safe (inBuf len) D D := by
  refine Cmd.Safe.bind (Cmd.Safe.foldUpto_read fun i hi acc => ?_) fun _ => .ofOption _
  exact (safe_get hp hi hD).bind fun _ => .done _

/-- The sampler reads the logits and nothing else. -/
theorem safe_llmSample {n : Nat} {temperature topp : F} {rngState : UInt64} (hpos : 0 < n)
    (hp : Ptr.Fits len (.logits, 0) n) (hD : Ptr.cells (.logits, 0) n ⊆ D) :
    (llmSample ops n temperature topp rngState).Safe (inBuf len) D D := by
  unfold llmSample
  split
  · exact (safe_sampleArgmax hpos hp hD).bind fun _ => .done _
  refine Cmd.Safe.bind (Cmd.Safe.forUpto (I := fun _ => D) fun q hq => ?_) fun _ => ?_
  · refine (safe_get hp hq hD).bind fun v => ?_
    exact (safe_set hp hq _).mono subset_rfl Set.subset_union_left
  refine (safe_llmSoftmax hpos hp hD).bind fun _ => ?_
  split
  · exact (safe_sampleMult hp hD).bind fun _ => .done _
  · exact (safe_sampleTopp hp hD).bind fun _ => .done _

end safe

/-! ## Which token it draws -/

section index

variable {F : Type} {ops : FloatOps F}

theorem mem_insertKey {arr : List (ProbIndex F)} {key e : ProbIndex F} :
    e ∈ insertKey ops arr key ↔ e ∈ arr ∨ e = key := by
  have hsplit := @List.rdropWhile_append_rtakeWhile _ (fun e => ops.lt e.prob key.prob) arr
  unfold insertKey
  rw [List.mem_append, List.mem_cons]
  conv_rhs => rw [← hsplit, List.mem_append]
  tauto

theorem mem_sortProbindex {arr : List (ProbIndex F)} {e : ProbIndex F} :
    e ∈ sortProbindex ops arr ↔ e ∈ arr := by
  have hfold : ∀ start : List (ProbIndex F),
      e ∈ arr.foldl (insertKey ops) start ↔ e ∈ start ∨ e ∈ arr := by
    induction arr with
    | nil => simp
    | cons key arr ih =>
      intro start
      rw [List.foldl_cons, ih, mem_insertKey, List.mem_cons, or_assoc]
  unfold sortProbindex
  rw [hfold]
  simp

theorem nucleus_prefix_sorted (topp : F) (es : List (ProbIndex F)) (cum : F) :
    (nucleus ops topp es cum).1 <+: es := by
  induction es generalizing cum with
  | nil => exact List.prefix_rfl
  | cons e es ih =>
    rw [nucleus]
    split
    · exact List.prefix_append [e] es
    · exact List.prefix_cons_inj e |>.mpr (ih _)

theorem pickIndex_mem {r : F} {es : List (ProbIndex F)} {cdf : F} {i : Int}
    (h : pickIndex ops r es cdf = some i) : ∃ e ∈ es, e.index = i := by
  induction es generalizing cdf with
  | nil => cases h
  | cons e es ih =>
    rw [pickIndex] at h
    split at h
    · exact ⟨e, List.mem_cons_self .., Option.some.inj h⟩
    · obtain ⟨e', he', hi⟩ := ih h
      exact ⟨e', List.mem_cons_of_mem _ he', hi⟩

/-- The index is that of a candidate. -/
theorem chooseIndex_mem {topp coin : F} {found : List (ProbIndex F)} {i : Int}
    (h : chooseIndex ops topp coin found = some i) : ∃ e ∈ found, e.index = i := by
  unfold chooseIndex at h
  extract_lets kept at h
  have hmem : ∀ e ∈ kept.1, e ∈ found := by
    intro e he
    exact mem_sortProbindex.mp ((nucleus_prefix_sorted topp _ _).subset he)
  rcases Option.or_eq_some_iff.mp h with h | ⟨-, h⟩
  · obtain ⟨e, he, hi⟩ := pickIndex_mem h
    exact ⟨e, hmem e he, hi⟩
  · obtain ⟨e, he, hi⟩ := Option.map_eq_some_iff.mp h
    exact ⟨e, hmem e (List.mem_of_getLast? he), hi⟩

variable {dom : Ptr → Bool}

theorem sampleArgmax_lt {p : Ptr} {n : Nat} (hpos : 0 < n) :
    (sampleArgmax ops p n).Yields dom fun i => 0 ≤ i ∧ i < (n : Int) := by
  refine (Cmd.Yields.any _).bind fun _ _ => ?_
  refine Cmd.Yields.bind (P := fun r : Int × F => 0 ≤ r.1 ∧ r.1 < n) ?_ fun r hr => .done hr
  refine Cmd.Yields.foldUpto (I := fun _ (r : Int × F) => 0 ≤ r.1 ∧ r.1 < n) ⟨Int.le_refl 0, by omega⟩ ?_
  intro i hi r hr
  refine (Cmd.Yields.any _).bind fun v _ => .done ?_
  split
  · exact ⟨by show 0 ≤ (i : Int) + 1; omega, by show (i : Int) + 1 < n; omega⟩
  · exact hr

theorem sampleMult_lt {p : Ptr} {n : Nat} {coin : F} (hpos : 0 < n) :
    (sampleMult ops p n coin).Yields dom fun i => 0 ≤ i ∧ i < (n : Int) := by
  refine Cmd.Yields.bind (P := fun r : Option Int × F => ∀ i, r.1 = some i → 0 ≤ i ∧ i < n) ?_ fun r hr => .done ?_
  · refine Cmd.Yields.foldUpto (I := fun _ (r : Option Int × F) => ∀ i, r.1 = some i → 0 ≤ i ∧ i < n) nofun ?_
    intro j hj r hr
    cases hfound : r.1 with
    | some i => exact .done hr
    | none =>
      refine (Cmd.Yields.any _).bind fun v _ => .done fun i hi => ?_
      simp only at hi
      split at hi
      · cases hi
        omega
      · cases hi
  · cases hfound : r.1 with
    | some i => exact hr i hfound
    | none => exact ⟨by show 0 ≤ (n : Int) - 1; omega, by show (n : Int) - 1 < n; omega⟩

theorem sampleTopp_lt {p : Ptr} {n : Nat} {topp coin : F} :
    (sampleTopp ops p n topp coin).Yields dom fun i => 0 ≤ i ∧ i < (n : Int) := by
  refine Cmd.Yields.bind (P := fun found : List (ProbIndex F) => ∀ e ∈ found, 0 ≤ e.index ∧ e.index < n) ?_
    fun found hfound => .ofOption fun i hi => ?_
  · refine Cmd.Yields.foldUpto
      (I := fun _ (found : List (ProbIndex F)) => ∀ e ∈ found, 0 ≤ e.index ∧ e.index < n) nofun ?_
    intro j hj found hfound
    refine (Cmd.Yields.any _).bind fun v _ => .done fun e he => ?_
    split at he
    · rcases List.mem_append.mp he with he | he
      · exact hfound e he
      · rw [List.mem_singleton.mp he]
        exact ⟨by show 0 ≤ (j : Int); omega, by show (j : Int) < n; omega⟩
    · exact hfound e he
  · obtain ⟨e, he, rfl⟩ := chooseIndex_mem hi
    exact hfound e he

/-- A token that is drawn is one of the vocabulary. -/
theorem llmSample_lt {n : Nat} {temperature topp : F} {rngState : UInt64} (hpos : 0 < n) :
    (llmSample ops n temperature topp rngState).Yields dom fun r => 0 ≤ r.1 ∧ r.1 < (n : Int) := by
  unfold llmSample
  split
  · exact (sampleArgmax_lt hpos).bind fun i hi => .done hi
  refine (Cmd.Yields.any _).bind fun _ _ => (Cmd.Yields.any _).bind fun _ _ => ?_
  split
  · exact (sampleMult_lt hpos).bind fun i hi => .done hi
  · exact sampleTopp_lt.bind fun i hi => .done hi

end index

end ChocoOs.Llama
