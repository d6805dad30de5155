import Mathlib.Data.List.TakeWhile

/-!
# Fields of a list between separators

`fields sep xs` are the maximal runs of elements that are no separators, in order. A scanner that
skips separators and takes the elements up to the next one meets them one by one
(`fields_eq_cons`).
-/

namespace ProgLib

variable {α : Type}

/-- The maximal runs of elements that are no separators. -/
def fields (sep : α → Bool) (xs : List α) : List (List α) :=
  (xs.splitOnP sep).filter fun w => !w.isEmpty

theorem fields_nil (sep : α → Bool) : fields sep [] = [] := rfl

theorem fields_cons_sep {sep : α → Bool} {a : α} (h : sep a = true) (xs : List α) :
    fields sep (a :: xs) = fields sep xs := by
  unfold fields
  rw [List.splitOnP_cons_eq_if_modifyHead, if_pos h]
  rfl

theorem fields_dropWhile (sep : α → Bool) (xs : List α) :
    fields sep (xs.dropWhile sep) = fields sep xs := by
  induction xs with
  | nil => rfl
  | cons a xs ih =>
    by_cases h : sep a = true
    · rw [List.dropWhile_cons_of_pos h, ih, fields_cons_sep h]
    · rw [List.dropWhile_cons_of_neg h]

/-- A run that ends with the list is the only field. -/
theorem fields_run {sep : α → Bool} {w : List α} (hne : w ≠ []) (h : ∀ x ∈ w, sep x = false) :
    fields sep w = [w] := by
  unfold fields
  rw [List.splitOnP_eq_singleton h, List.filter_cons_of_pos (by simpa using hne)]
  rfl

/-- A run that ends with a separator is the first field. -/
theorem fields_run_append {sep : α → Bool} {w : List α} {a : α} (hne : w ≠ [])
    (h : ∀ x ∈ w, sep x = false) (ha : sep a = true) (xs : List α) :
    fields sep (w ++ a :: xs) = w :: fields sep xs := by
  unfold fields
  rw [List.splitOnP_append_cons_of_forall_mem h a ha,
    List.filter_cons_of_pos (by simpa using hne)]

/-- One step of a scanner: the first field, and the fields behind it. -/
theorem fields_eq_cons {sep : α → Bool} {a : α} (h : sep a = false) (xs : List α) :
    fields sep (a :: xs) = (a :: xs).takeWhile (fun x => !sep x) ::
      fields sep ((a :: xs).dropWhile fun x => !sep x) := by
  have hsplit := List.takeWhile_append_dropWhile (p := fun x => !sep x) (l := a :: xs)
  have hrun : ∀ x ∈ (a :: xs).takeWhile (fun x => !sep x), sep x = false := fun x hx => by
    simpa using List.mem_takeWhile_imp hx
  have hne : (a :: xs).takeWhile (fun x => !sep x) ≠ [] := by simp [h]
  have hhead := List.head?_dropWhile_not (fun x => !sep x) (a :: xs)
  cases hrest : (a :: xs).dropWhile fun x => !sep x with
  | nil =>
    rw [hrest, List.append_nil] at hsplit
    rw [hsplit] at hrun ⊢
    exact fields_run (by simp) hrun
  | cons b ys =>
    rw [hrest] at hsplit hhead
    have hb : sep b = true := by simpa using hhead
    rw [← hsplit, fields_run_append hne hrun hb, hsplit, fields_cons_sep hb]

theorem mem_fields {sep : α → Bool} {xs w : List α} (h : w ∈ fields sep xs) :
    w ≠ [] ∧ ∀ x ∈ w, sep x = false := by
  unfold fields at h
  obtain ⟨hmem, hne⟩ := List.mem_filter.mp h
  refine ⟨by simpa using hne, ?_⟩
  clear hne h
  induction xs generalizing w with
  | nil =>
    have : w = [] := by simpa using hmem
    subst this
    simp
  | cons a xs ih =>
    rw [List.splitOnP_cons_eq_if_modifyHead] at hmem
    by_cases ha : sep a = true
    · rw [if_pos ha] at hmem
      rcases List.mem_cons.mp hmem with rfl | hmem
      · simp
      · exact ih hmem
    · rw [if_neg ha] at hmem
      obtain ⟨v, vs, hv⟩ := List.exists_cons_of_ne_nil (List.splitOnP_ne_nil sep xs)
      rw [hv, List.modifyHead_cons] at hmem
      rcases List.mem_cons.mp hmem with rfl | hmem
      · intro x hx
        rcases List.mem_cons.mp hx with rfl | hx
        · simpa using ha
        · exact ih (by rw [hv]; simp) x hx
      · exact ih (by rw [hv]; simp [hmem])

theorem fields_seps {sep : α → Bool} {ts : List α} (h : ∀ x ∈ ts, sep x = true) :
    fields sep ts = [] := by
  induction ts with
  | nil => rfl
  | cons a ts ih =>
    rw [fields_cons_sep (h a (by simp)), ih fun x hx => h x (by simp [hx])]

/-- Fields that are written with a separator between them, and separators at the end, are read
    back. -/
theorem fields_intercalate {sep : α → Bool} {a : α} (ha : sep a = true) {ws : List (List α)}
    (h : ∀ w ∈ ws, w ≠ [] ∧ ∀ x ∈ w, sep x = false) {ts : List α} (hts : ∀ x ∈ ts, sep x = true) :
    fields sep (List.intercalate [a] ws ++ ts) = ws := by
  induction ws with
  | nil => exact fields_seps hts
  | cons w ws ih =>
    obtain ⟨hne, hw⟩ := h w (by simp)
    cases ws with
    | nil =>
      rw [List.intercalate_singleton]
      cases ts with
      | nil => rw [List.append_nil, fields_run hne hw]
      | cons b ts =>
        rw [fields_run_append hne hw (hts b (by simp)),
          fields_seps fun x hx => hts x (by simp [hx])]
    | cons v ws =>
      rw [List.intercalate_cons_cons, List.append_assoc, List.append_assoc, List.singleton_append,
        fields_run_append hne hw ha, ih fun u hu => h u (by simp [hu])]

theorem intercalate_snoc (a : α) {ws : List (List α)} (hne : ws ≠ []) (w : List α) :
    List.intercalate [a] (ws ++ [w]) = List.intercalate [a] ws ++ a :: w := by
  induction ws with
  | nil => exact absurd rfl hne
  | cons v ws ih =>
    cases ws with
    | nil => simp [List.intercalate]
    | cons u ws =>
      rw [List.cons_append, List.cons_append, List.intercalate_cons_cons, ← List.cons_append,
        ih (by simp), List.intercalate_cons_cons]
      simp only [List.append_assoc]

end ProgLib
