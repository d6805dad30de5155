import Mathlib.Algebra.BigOperators.Group.List.Lemmas
import Mathlib.Algebra.Order.Ring.Defs
import Mathlib.Data.List.Infix

/-!
# Prefixes of some weight

Elements have weights. `firstOver` is the shortest prefix of a list whose weight exceeds a bound.
-/

namespace ProgLib

variable {α M : Type*} (w : α → M)

/-- The weight of a list. -/
def total [AddCommMonoid M] (l : List α) : M := (l.map w).sum

/-- The shortest prefix that weighs more than `c`. -/
def firstOver [AddCommMonoid M] [LinearOrder M] (c : M) (l : List α) : Option (List α) :=
  l.inits.find? fun q => decide (c < total w q)

section weights

variable {w}

theorem total_nil [AddCommMonoid M] : total w [] = 0 := rfl

theorem total_cons [AddCommMonoid M] (a : α) (l : List α) : total w (a :: l) = w a + total w l :=
  List.sum_cons

theorem total_append [AddCommMonoid M] (l l' : List α) :
    total w (l ++ l') = total w l + total w l' := by
  rw [total, List.map_append, List.sum_append]
  rfl

theorem total_perm [AddCommMonoid M] {l l' : List α} (h : l.Perm l') : total w l = total w l' :=
  (h.map w).sum_eq

variable [AddCommGroup M] [LinearOrder M]

theorem firstOver_nil {c : M} (h : 0 ≤ c) : firstOver w c [] = none := by
  rw [firstOver, List.inits, List.find?_cons, decide_eq_false]
  · rfl
  · exact not_lt.mpr h

/-- Nothing is left to look for when the bound is exceeded. -/
theorem firstOver_of_neg {c : M} (h : c < 0) (l : List α) : firstOver w c l = some [] := by
  have hnil : decide (c < total w []) = true := decide_eq_true h
  cases l with
  | nil => rw [firstOver, List.inits, List.find?_cons, hnil]
  | cons a l => rw [firstOver, List.inits_cons, List.find?_cons, hnil]

/-- What is found is heavy enough. -/
theorem lt_of_firstOver {c : M} {l q : List α} (h : firstOver w c l = some q) : c < total w q := by
  rw [firstOver] at h
  have hq := List.find?_some h
  exact of_decide_eq_true hq

/-- A list that is heavy enough has such a prefix. -/
theorem exists_firstOver {c : M} {l : List α} (h : c < total w l) : ∃ q, firstOver w c l = some q := by
  apply Option.isSome_iff_exists.mp
  rw [firstOver, List.find?_isSome]
  exact ⟨l, (List.mem_inits l l).mpr List.prefix_rfl, decide_eq_true h⟩

/-- What is found does not depend on what comes behind it. -/
theorem firstOver_append {c : M} {l q : List α} (h : firstOver w c l = some q) (l' : List α) :
    firstOver w c (l ++ l') = some q := by
  rw [firstOver] at h ⊢
  rw [List.inits_append, List.find?_append, h]
  rfl

/-- Below a bound the first element is taken, and the rest is looked for behind it. -/
theorem firstOver_cons [IsOrderedAddMonoid M] {c : M} (h : 0 ≤ c) (a : α) (l : List α) :
    firstOver w c (a :: l) = (firstOver w (c - w a) l).map (a :: ·) := by
  have hpred : ((fun q => decide (c < total w q)) ∘ fun t => a :: t) =
      fun q => decide (c - w a < total w q) := by
    funext q
    rw [Function.comp, decide_eq_decide, total_cons, sub_lt_iff_lt_add']
  rw [firstOver, List.inits_cons, List.find?_cons, decide_eq_false, List.find?_map, hpred]
  · rfl
  · exact not_lt.mpr h

/-- The search ends with the first element if that exceeds the bound, and otherwise goes on behind it. -/
theorem firstOver_cons_cases [IsOrderedAddMonoid M] {c : M} (h : 0 ≤ c) {a : α} {l q : List α}
    (hq : firstOver w c (a :: l) = some q) : ∃ rest, q = a :: rest ∧
      ((c < w a ∧ rest = []) ∨ (w a ≤ c ∧ firstOver w (c - w a) l = some rest)) := by
  rw [firstOver_cons h] at hq
  obtain ⟨rest, hrest, rfl⟩ := Option.map_eq_some_iff.mp hq
  refine ⟨rest, rfl, ?_⟩
  by_cases hover : c < w a
  · rw [firstOver_of_neg (sub_neg.mpr hover)] at hrest
    cases hrest
    exact .inl ⟨hover, rfl⟩
  · exact .inr ⟨not_lt.mp hover, hrest⟩

end weights

section bound

variable [CommRing M] [LinearOrder M] [IsStrictOrderedRing M] {w}

/-- Elements that are all lighter than `c` weigh less than as many times `c`. -/
theorem total_lt {c : M} {l : List α} (hne : l ≠ []) (h : ∀ a ∈ l, w a < c) :
    total w l < l.length * c := by
  induction l with
  | nil => exact absurd rfl hne
  | cons a l ih =>
    have ha := h a (List.mem_cons_self ..)
    rw [total_cons, List.length_cons, Nat.cast_add_one, add_mul, one_mul, add_comm]
    by_cases hl : l = []
    · rw [hl, total_nil, List.length_nil, Nat.cast_zero, zero_mul, zero_add, zero_add]
      exact ha
    · exact add_lt_add (ih hl fun b hb => h b (List.mem_cons_of_mem _ hb)) ha

end bound

end ProgLib
