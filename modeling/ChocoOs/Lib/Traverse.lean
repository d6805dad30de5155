import Mathlib.Data.List.Forall2

/-!
# Lists of results

A pass over a list whose rounds may fail succeeds if all of them do.
-/

namespace ProgLib

variable {α β : Type} {f : α → Option β}

theorem mapM_eq_some_iff {as : List α} {bs : List β} :
    as.mapM f = some bs ↔ List.Forall₂ (fun a b => f a = some b) as bs := by
  constructor
  · intro h
    induction as generalizing bs with
    | nil =>
      cases h
      exact .nil
    | cons a as ih =>
      rw [List.mapM_cons] at h
      obtain ⟨b, hb, h⟩ := Option.bind_eq_some_iff.mp h
      obtain ⟨bs', hbs, h⟩ := Option.bind_eq_some_iff.mp h
      cases h
      exact .cons hb (ih hbs)
  · intro h
    induction h with
    | nil => rfl
    | cons hab _ ih =>
      rw [List.mapM_cons, hab, ih]
      rfl

theorem mapM_congr {g : α → Option β} {as : List α} (h : ∀ a ∈ as, f a = g a) : as.mapM f = as.mapM g := by
  induction as with
  | nil => rfl
  | cons a as ih =>
    rw [List.mapM_cons, List.mapM_cons, h a List.mem_cons_self,
      ih fun b hb => h b (List.mem_cons_of_mem a hb)]

/-- If a result says that `p` holds and what it is, all results together do. -/
theorem eq_map_of_mapM {g : α → β} {p : α → Prop} (hf : ∀ a b, f a = some b → p a ∧ b = g a)
    {as : List α} {bs : List β} (h : as.mapM f = some bs) : (∀ a ∈ as, p a) ∧ bs = as.map g := by
  rw [mapM_eq_some_iff] at h
  induction h with
  | nil => exact ⟨nofun, rfl⟩
  | cons hab _ ih =>
    obtain ⟨ha, rfl⟩ := hf _ _ hab
    exact ⟨List.forall_mem_cons.mpr ⟨ha, ih.1⟩, congrArg (_ :: ·) ih.2⟩

theorem mapM_eq_map {g : α → β} {as : List α} (h : ∀ a ∈ as, f a = some (g a)) :
    as.mapM f = some (as.map g) := by
  rw [mapM_eq_some_iff, List.forall₂_map_right_iff]
  exact List.forall₂_same.mpr h

end ProgLib
