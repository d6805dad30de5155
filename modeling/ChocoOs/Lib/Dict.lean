import Mathlib.Data.List.Induction

/-!
# Dictionaries that keep their order

A dictionary is the list of its items in the order in which their keys came first; a new value of
a key takes the place of the old one.
-/

namespace ProgLib

abbrev Dict (K V : Type*) := List (K × V)

namespace Dict

variable {K V : Type*} [DecidableEq K]

/-- `d[k] = v`. -/
def insert : Dict K V → K → V → Dict K V
  | [], k, v => [(k, v)]
  | p :: d, k, v => if p.1 = k then (k, v) :: d else p :: insert d k v

/-- `d.get(k)`. -/
def get? : Dict K V → K → Option V
  | [], _ => none
  | p :: d, k => if p.1 = k then some p.2 else get? d k

/-- The items are inserted one after another. -/
def update (d items : Dict K V) : Dict K V := items.foldl (fun d p => d.insert p.1 p.2) d

def ofList (items : Dict K V) : Dict K V := update [] items

theorem get?_insert (d : Dict K V) (k k' : K) (v : V) :
    (d.insert k v).get? k' = if k = k' then some v else d.get? k' := by
  induction d with
  | nil => rfl
  | cons p d ih =>
    rw [insert]
    by_cases hp : p.1 = k
    · rw [if_pos hp, get?, get?]
      by_cases hk : k = k'
      · rw [if_pos hk, if_pos hk]
      · rw [if_neg hk, if_neg hk, if_neg (hp ▸ hk)]
    · rw [if_neg hp, get?, get?, ih]
      by_cases hk : k = k'
      · rw [if_pos hk, if_neg (hk ▸ hp), if_pos hk]
      · rw [if_neg hk, if_neg hk]

theorem get?_update_concat (d items : Dict K V) (p : K × V) (k : K) :
    (d.update (items ++ [p])).get? k = if p.1 = k then some p.2 else (d.update items).get? k := by
  rw [update, List.foldl_append, List.foldl_cons, List.foldl_nil, get?_insert]
  rfl

theorem get?_update_of_notMem {d items : Dict K V} {k : K} (h : k ∉ items.map Prod.fst) :
    (d.update items).get? k = d.get? k := by
  induction items using List.reverseRecOn with
  | nil => rfl
  | append_singleton items p ih =>
    rw [List.map_append, List.mem_append, not_or] at h
    rw [get?_update_concat, if_neg fun he => h.2 (by simp [he]), ih h.1]

theorem get?_update_of_mem {d items : Dict K V} (hkeys : (items.map Prod.fst).Nodup) {k : K} {v : V}
    (h : (k, v) ∈ items) : (d.update items).get? k = some v := by
  induction items using List.reverseRecOn with
  | nil => cases h
  | append_singleton items p ih =>
    rw [List.map_append, List.map_singleton] at hkeys
    obtain ⟨hitems, -, hnew⟩ := List.nodup_append.mp hkeys
    rw [get?_update_concat]
    rcases List.mem_append.mp h with h | h
    · rw [if_neg fun he => hnew k (List.mem_map_of_mem h) p.1 (by simp) he.symm]
      exact ih hitems h
    · cases List.mem_singleton.mp h
      rw [if_pos rfl]

theorem mem_of_get?_update {d items : Dict K V} {k : K} {v : V}
    (h : (d.update items).get? k = some v) : (k, v) ∈ items ∨ d.get? k = some v := by
  induction items using List.reverseRecOn with
  | nil => exact .inr h
  | append_singleton items p ih =>
    rw [get?_update_concat] at h
    by_cases hp : p.1 = k
    · rw [if_pos hp] at h
      cases h
      exact .inl (List.mem_append_right _ (by simp [← hp]))
    · rw [if_neg hp] at h
      exact (ih h).imp_left (List.mem_append_left _)

theorem mem_of_get? {d : Dict K V} {k : K} {v : V} (h : d.get? k = some v) : (k, v) ∈ d := by
  induction d with
  | nil => cases h
  | cons p d ih =>
    rw [get?] at h
    by_cases hp : p.1 = k
    · rw [if_pos hp] at h
      cases h
      rw [← hp]
      exact List.mem_cons_self ..
    · rw [if_neg hp] at h
      exact List.mem_cons_of_mem _ (ih h)

theorem get?_ne_none {d : Dict K V} {k : K} (h : k ∈ d.map Prod.fst) : d.get? k ≠ none := by
  induction d with
  | nil => cases h
  | cons p d ih =>
    rw [get?]
    by_cases hp : p.1 = k
    · rw [if_pos hp]
      exact Option.some_ne_none _
    · rw [if_neg hp]
      exact ih ((List.mem_cons.mp h).resolve_left (Ne.symm hp))

theorem mem_of_mem_update {d items : Dict K V} {p : K × V} (h : p ∈ d.update items) :
    p ∈ d ∨ p ∈ items := by
  have hinsert : ∀ {d : Dict K V} {k : K} {v : V}, p ∈ d.insert k v → p ∈ d ∨ p = (k, v) := by
    intro d k v h
    induction d with
    | nil => exact .inr (List.mem_singleton.mp h)
    | cons q d ih =>
      rw [insert] at h
      split at h
      · exact (List.mem_cons.mp h).elim .inr fun h => .inl (List.mem_cons_of_mem _ h)
      · rcases List.mem_cons.mp h with rfl | h
        · exact .inl (List.mem_cons_self ..)
        · exact (ih h).imp_left (List.mem_cons_of_mem _)
  induction items using List.reverseRecOn with
  | nil => exact .inl h
  | append_singleton items q ih =>
    rw [update, List.foldl_append, List.foldl_cons, List.foldl_nil, ← update] at h
    rcases hinsert h with h | rfl
    · exact (ih h).imp_right (List.mem_append_left _)
    · exact .inr (by simp)

/-- The last item of a key counts. -/
theorem get?_ofList (items : Dict K V) (k : K) :
    (ofList items).get? k = (items.reverse.find? fun p => p.1 = k).map Prod.snd := by
  unfold ofList
  induction items using List.reverseRecOn with
  | nil => rfl
  | append_singleton items p ih =>
    rw [get?_update_concat, List.reverse_append, List.reverse_singleton, List.singleton_append,
      List.find?_cons]
    by_cases hp : p.1 = k
    · rw [if_pos hp]
      simp [hp]
    · rw [if_neg hp, ih]
      simp [hp]

/-- Items with different keys are the dictionary they make. -/
theorem ofList_of_nodup {items : Dict K V} (h : (items.map Prod.fst).Nodup) :
    ofList items = items := by
  have hinsert : ∀ {d : Dict K V} {k : K} {v : V}, k ∉ d.map Prod.fst →
      d.insert k v = d ++ [(k, v)] := by
    intro d k v hk
    induction d with
    | nil => rfl
    | cons p d ih =>
      rw [List.map_cons, List.mem_cons, not_or] at hk
      rw [insert, if_neg (Ne.symm hk.1), ih hk.2, List.cons_append]
  unfold ofList
  induction items using List.reverseRecOn with
  | nil => rfl
  | append_singleton items p ih =>
    rw [List.map_append, List.map_singleton] at h
    obtain ⟨hitems, -, hnew⟩ := List.nodup_append.mp h
    rw [update, List.foldl_append, List.foldl_cons, List.foldl_nil, ← update, ih hitems]
    exact hinsert fun hm => hnew p.1 hm p.1 (by simp) rfl

/-- A dictionary has an item for each of its keys. -/
theorem nodup_update {d : Dict K V} (items : Dict K V) (h : (d.map Prod.fst).Nodup) :
    ((d.update items).map Prod.fst).Nodup := by
  have hkeys : ∀ (d : Dict K V) (k : K) (v : V), (d.insert k v).map Prod.fst =
      if k ∈ d.map Prod.fst then d.map Prod.fst else d.map Prod.fst ++ [k] := by
    intro d k v
    induction d with
    | nil => rfl
    | cons p d ih =>
      rw [insert]
      by_cases hp : p.1 = k
      · rw [if_pos hp, if_pos (by simp [hp]), List.map_cons, List.map_cons, hp]
      · have hmem : k ∈ (p :: d).map Prod.fst ↔ k ∈ d.map Prod.fst := by
          rw [List.map_cons, List.mem_cons]
          exact or_iff_right (Ne.symm hp)
        rw [if_neg hp, List.map_cons, ih, List.map_cons]
        by_cases hk : k ∈ d.map Prod.fst
        · rw [if_pos hk, if_pos (List.mem_cons_of_mem _ hk)]
        · rw [if_neg hk, List.cons_append, ← List.map_cons, if_neg (mt hmem.mp hk)]
  induction items using List.reverseRecOn with
  | nil => exact h
  | append_singleton items p ih =>
    rw [update, List.foldl_append, List.foldl_cons, List.foldl_nil, ← update, hkeys]
    split
    · exact ih
    · next hnew =>
      apply List.nodup_append.mpr
      refine ⟨ih, List.nodup_cons.mpr ⟨List.not_mem_nil, List.nodup_nil⟩, fun a ha b hb hab => ?_⟩
      rw [List.mem_singleton.mp hb] at hab
      exact hnew (hab ▸ ha)

theorem get?_of_mem {d : Dict K V} (h : (d.map Prod.fst).Nodup) {k : K} {v : V} (hm : (k, v) ∈ d) :
    d.get? k = some v := by
  rw [← ofList_of_nodup h]
  exact get?_update_of_mem h hm

end Dict

end ProgLib
