import Mathlib.Data.List.DropRight
import Mathlib.Data.List.Destutter

/-!
# Bounded histories

A history keeps the last elements that were recorded, at most `n` of them. An element that repeats
the newest one is not recorded, and a full history gives up its oldest element.
-/

namespace ProgLib

variable {α : Type}

/-! ## The last elements of a list -/

theorem length_rtake (n : Nat) (l : List α) : (l.rtake n).length = min n l.length := by
  rw [List.rtake, List.length_drop]
  omega

theorem getLast?_rtake {n : Nat} (hn : 0 < n) (l : List α) : (l.rtake n).getLast? = l.getLast? := by
  rw [List.rtake, List.getLast?_drop]
  split
  · next h =>
    have h0 : l.length = 0 := by omega
    rw [List.eq_nil_of_length_eq_zero h0]
    rfl
  · rfl

/-- A full history gives up its oldest element for a new one. -/
theorem rtake_concat {n : Nat} (hn : 0 < n) (l : List α) (a : α) : (l ++ [a]).rtake n =
    (if (l.rtake n).length = n then (l.rtake n).tail else l.rtake n) ++ [a] := by
  obtain ⟨m, rfl⟩ := Nat.exists_eq_succ_of_ne_zero (Nat.ne_of_gt hn)
  rw [List.rtake_concat_succ, length_rtake]
  congr 1
  by_cases h : m + 1 ≤ l.length
  · rw [if_pos (Nat.min_eq_left h), List.rtake, List.rtake, List.tail_drop]
    congr 1
    omega
  · rw [if_neg (by omega), List.rtake, List.rtake]
    congr 1
    omega

/-! ## Repetitions -/

variable [DecidableEq α]

/-- The last `n` elements, after repetitions in succession have been collapsed. -/
def recent (n : Nat) (l : List α) : List α := (l.destutter (· ≠ ·)).rtake n

/-- Record an element. -/
def record (n : Nat) (h : List α) (a : α) : List α :=
  if h.getLast? = some a then h else (if h.length = n then h.tail else h) ++ [a]

theorem getLastD_destutter' (l : List α) : ∀ a d : α, (l.destutter' (· ≠ ·) a).getLastD d = l.getLastD a := by
  induction l with
  | nil => exact fun _ _ => rfl
  | cons b l ih =>
    intro a d
    rw [List.getLastD_cons]
    by_cases hab : a ≠ b
    · rw [List.destutter'_cons_pos l hab, List.getLastD_cons, ih]
    · rw [List.destutter'_cons_neg l hab, ih, not_not.mp hab]

theorem destutter'_concat (l : List α) (b : α) : ∀ a : α, (l ++ [b]).destutter' (· ≠ ·) a =
    if l.getLastD a = b then l.destutter' (· ≠ ·) a else l.destutter' (· ≠ ·) a ++ [b] := by
  induction l with
  | nil =>
    intro a
    rw [List.nil_append, List.destutter'_singleton, List.destutter'_nil]
    by_cases hab : a = b
    · rw [if_neg (not_not.mpr hab)]
      exact (if_pos hab).symm
    · rw [if_pos hab]
      exact (if_neg hab).symm
  | cons d l ih =>
    intro a
    rw [List.cons_append, List.getLastD_cons]
    by_cases had : a ≠ d
    · rw [List.destutter'_cons_pos _ had, List.destutter'_cons_pos _ had, ih]
      split <;> rfl
    · rw [List.destutter'_cons_neg _ had, List.destutter'_cons_neg _ had, ih, not_not.mp had]

/-- One more element at the end. -/
theorem destutter_concat (l : List α) (b : α) : (l ++ [b]).destutter (· ≠ ·) =
    if l.getLast? = some b then l.destutter (· ≠ ·) else l.destutter (· ≠ ·) ++ [b] := by
  cases l with
  | nil => rfl
  | cons a l =>
    have hlast : (a :: l).getLast? = some b ↔ l.getLastD a = b := by
      rw [List.getLast?_cons, Option.some_inj, List.getLastD_eq_getLast?]
    rw [List.cons_append, List.destutter_cons', List.destutter_cons', destutter'_concat]
    simp only [hlast]

theorem getLast?_destutter (l : List α) : (l.destutter (· ≠ ·)).getLast? = l.getLast? := by
  cases l with
  | nil => rfl
  | cons a l =>
    obtain ⟨x, xs, hx⟩ := List.exists_cons_of_ne_nil (List.destutter'_ne_nil l (· ≠ ·) (a := a))
    have h := getLastD_destutter' l a a
    rw [List.destutter_cons', hx, List.getLast?_cons, List.getLast?_cons]
    rw [hx, List.getLastD_cons, List.getLastD_eq_getLast?, List.getLastD_eq_getLast?] at h
    rw [h]

theorem mem_of_mem_recent {n : Nat} {l : List α} {a : α} (h : a ∈ recent n l) : a ∈ l :=
  (List.destutter_sublist (· ≠ ·) l).mem (List.mem_of_mem_drop h)

/-- Recording the elements one by one keeps the history up to date. -/
theorem record_recent {n : Nat} (hn : 0 < n) (l : List α) (a : α) :
    record n (recent n l) a = recent n (l ++ [a]) := by
  rw [record, recent, recent, getLast?_rtake hn, getLast?_destutter, destutter_concat]
  split
  · rfl
  · rw [rtake_concat hn]

end ProgLib
