import Mathlib.Data.List.Induction
import Mathlib.Logic.Function.Basic

/-!
# The last of many writes

What a sequence of writes leaves at a place is the value of the last write to it.
-/

namespace ProgLib

variable {α β γ : Type} [DecidableEq α] [DecidableEq γ]

/-- The value of the last write to `a`. -/
def lastWrite : List (α × β) → α → Option β
  | [], _ => none
  | w :: ws, a => (lastWrite ws a).or (if w.1 = a then some w.2 else none)

theorem lastWrite_append (ws vs : List (α × β)) (a : α) :
    lastWrite (ws ++ vs) a = (lastWrite vs a).or (lastWrite ws a) := by
  induction ws with
  | nil => rw [List.nil_append, lastWrite, Option.or_none]
  | cons w ws ih => rw [List.cons_append, lastWrite, lastWrite, ih, Option.or_assoc]

theorem lastWrite_eq_none {ws : List (α × β)} {a : α} :
    lastWrite ws a = none ↔ ∀ w ∈ ws, w.1 ≠ a := by
  induction ws with
  | nil => exact ⟨fun _ => nofun, fun _ => rfl⟩
  | cons w ws ih =>
    rw [lastWrite, Option.or_eq_none_iff, ih, List.forall_mem_cons, and_comm]
    refine and_congr_left fun _ => ?_
    by_cases h : w.1 = a
    · rw [if_pos h]
      exact ⟨nofun, fun hne => absurd h hne⟩
    · rw [if_neg h]
      exact ⟨fun _ => h, fun _ => rfl⟩

/-- Places may be renamed where no two of them become one. -/
theorem lastWrite_map {f : α → γ} {ws : List (α × β)} {a : α}
    (hf : ∀ w ∈ ws, f w.1 = f a → w.1 = a) :
    lastWrite (ws.map fun w => (f w.1, w.2)) (f a) = lastWrite ws a := by
  induction ws with
  | nil => rfl
  | cons w ws ih =>
    rw [List.map_cons, lastWrite, lastWrite, ih fun v hv => hf v (List.mem_cons_of_mem _ hv)]
    congr 1
    by_cases h : w.1 = a
    · rw [if_pos (congrArg f h), if_pos h]
    · rw [if_neg fun hfa => h (hf w (List.mem_cons_self ..) hfa), if_neg h]

/-- Each place of a list gets its own value. -/
theorem lastWrite_self {as : List α} {a : α} (g : α → β) (ha : a ∈ as) :
    lastWrite (as.map fun a => (a, g a)) a = some (g a) := by
  induction as with
  | nil => cases ha
  | cons b as ih =>
    rw [List.map_cons, lastWrite]
    by_cases hmem : a ∈ as
    · rw [ih hmem]
      rfl
    · have hb : a = b := (List.mem_cons.mp ha).resolve_right hmem
      rw [if_pos hb.symm, hb, lastWrite_eq_none.mpr]
      · rfl
      · intro w hw hwb
        obtain ⟨c, hc, rfl⟩ := List.mem_map.mp hw
        exact hmem (hb ▸ hwb ▸ hc)

/-- A memory after the writes. -/
theorem foldl_update (ws : List (α × β)) (m : α → β) (a : α) :
    ws.foldl (fun m w => Function.update m w.1 w.2) m a = (lastWrite ws a).getD (m a) := by
  induction ws generalizing m with
  | nil => rfl
  | cons w ws ih =>
    rw [List.foldl_cons, ih, lastWrite]
    cases lastWrite ws a with
    | some v => rfl
    | none =>
      by_cases h : w.1 = a
      · rw [Option.none_or, if_pos h, ← h]
        exact Function.update_self ..
      · rw [Option.none_or, if_neg h]
        exact Function.update_of_ne (Ne.symm h) ..

/-- Leaving out the writers of one kind changes nothing at a place iff each of them is overwritten
    there, or writes what the others have left there. -/
theorem lastWrite_filter_iff {ι : Type} (kept : ι → Bool) (ws : ι → List (α × β)) (a : α)
    (is : List ι) :
    lastWrite ((is.filter kept).flatMap ws) a = lastWrite (is.flatMap ws) a ↔
      ∀ before i after, is = before ++ i :: after → kept i = false →
        ∀ v, lastWrite (ws i) a = some v → (∃ j ∈ after, ∃ w ∈ ws j, w.1 = a) ∨
          lastWrite ((before.filter kept).flatMap ws) a = some v := by
  refine ⟨fun h before i after his hi v hv => ?_, fun h => ?_⟩
  · by_cases hafter : ∃ j ∈ after, ∃ w ∈ ws j, w.1 = a
    · exact .inl hafter
    · have hnone : ∀ js : List ι, (∀ j ∈ js, j ∈ after) → lastWrite (js.flatMap ws) a = none :=
        fun js hjs => lastWrite_eq_none.mpr fun w hw hwa =>
          have ⟨j, hj, hwj⟩ := List.mem_flatMap.mp hw
          hafter ⟨j, hjs j hj, w, hwj, hwa⟩
      rw [his, List.filter_append, List.filter_cons_of_neg (Bool.eq_false_iff.mp hi),
        List.flatMap_append, List.flatMap_append, List.flatMap_cons, lastWrite_append,
        lastWrite_append, lastWrite_append, hnone after fun _ hj => hj,
        hnone _ fun _ hj => (List.mem_filter.mp hj).1, hv] at h
      exact .inr h
  · induction is using List.reverseRecOn with
    | nil => rfl
    | append_singleton is i ih =>
      cases hi : lastWrite (ws i) a with
      | some v =>
        cases hkept : kept i with
        | true =>
          rw [List.filter_append, List.filter_cons_of_pos hkept, List.flatMap_append,
            List.flatMap_append, List.filter_nil, List.flatMap_singleton, lastWrite_append,
            lastWrite_append, hi]
          rfl
        | false =>
          rw [List.filter_append, List.filter_cons_of_neg (Bool.eq_false_iff.mp hkept),
            List.filter_nil, List.append_nil, List.flatMap_append, List.flatMap_singleton,
            lastWrite_append, hi]
          exact (h is i [] rfl hkept v hi).resolve_left nofun
      | none =>
        have hleft : lastWrite ((is.filter kept).flatMap ws) a = lastWrite (is.flatMap ws) a := by
          refine ih fun before j after his hj v hv => ?_
          refine (h before j (after ++ [i]) (by rw [his, List.append_assoc]; rfl) hj v hv).imp_left ?_
          rintro ⟨k, hk, w, hw, hwa⟩
          obtain hk | hk := List.mem_append.mp hk
          · exact ⟨k, hk, w, hw, hwa⟩
          · rw [List.mem_singleton.mp hk] at hw
            exact absurd hwa (lastWrite_eq_none.mp hi w hw)
        rw [List.filter_append, List.flatMap_append, List.flatMap_append, lastWrite_append,
          lastWrite_append, List.flatMap_singleton, hi, ← hleft, lastWrite_eq_none.mpr]
        · intro w hw
          obtain ⟨j, hj, hwj⟩ := List.mem_flatMap.mp hw
          rw [List.mem_singleton.mp ((List.mem_filter.mp hj).1)] at hwj
          exact lastWrite_eq_none.mp hi w hwj

end ProgLib
