import Mathlib.Data.List.Count
import Mathlib.Data.List.Nodup
import Mathlib.Logic.Function.Iterate

/-!
# Rooted trees given by child lists and parent pointers

`RootedTree root nodes kids parent`: below `root` hang the nodes `nodes`, each listed once by
its `parent` and by no other node. The rank excludes cycles, so that parents lead to the root.
A tree grows by a leaf and shrinks by a leaf.
-/

namespace ProgLib

variable {α : Type}

structure RootedTree (root : α) (nodes : List α) (kids : α → List α) (parent : α → α) : Prop where
  nodup : (root :: nodes).Nodup
  child : ∀ d ∈ root :: nodes, ∀ c ∈ kids d, c ∈ nodes ∧ parent c = d
  listed : ∀ c ∈ nodes, parent c ∈ root :: nodes ∧ c ∈ kids (parent c)
  kids_nodup : ∀ d ∈ root :: nodes, (kids d).Nodup
  ranked : ∃ rank : α → Nat, ∀ c ∈ nodes, rank (parent c) < rank c

namespace RootedTree

variable {root : α} {nodes : List α} {kids kids' : α → List α} {parent parent' : α → α}

theorem singleton (root : α) (parent : α → α) : RootedTree root [] (fun _ => []) parent :=
  ⟨by simp, by simp, by simp, by simp, ⟨fun _ => 0, by simp⟩⟩

/-- Induction from the root down to the leaves. -/
theorem induction (h : RootedTree root nodes kids parent) {P : α → Prop} (base : P root)
    (step : ∀ c ∈ nodes, P (parent c) → P c) : ∀ c ∈ root :: nodes, P c := by
  obtain ⟨rank, hrank⟩ := h.ranked
  have key : ∀ n, ∀ c ∈ root :: nodes, rank c = n → P c := by
    intro n
    induction n using Nat.strongRecOn with
    | ind n ih =>
      intro c hc hn
      rcases List.mem_cons.mp hc with rfl | hc
      · exact base
      · exact step c hc (ih _ (hn ▸ hrank c hc) _ (h.listed c hc).1 rfl)
  exact fun c hc => key _ c hc rfl

/-- Parents lead to the root. -/
theorem reaches_root (h : RootedTree root nodes kids parent) :
    ∀ c ∈ root :: nodes, ∃ k, parent^[k] c = root := by
  refine h.induction ⟨0, rfl⟩ fun c _ hp => ?_
  obtain ⟨k, hk⟩ := hp
  exact ⟨k + 1, hk⟩

/-- A node is listed once by its parent and by no other node. -/
theorem count_kids [DecidableEq α] (h : RootedTree root nodes kids parent) {c d : α}
    (hc : c ∈ nodes) (hd : d ∈ root :: nodes) :
    (kids d).count c = if parent c = d then 1 else 0 := by
  split
  · next hp =>
    subst hp
    exact List.count_eq_one_of_mem (h.kids_nodup _ hd) (h.listed c hc).2
  · next hp => exact List.count_eq_zero.mpr fun hmem => hp (h.child d hd c hmem).2

theorem root_not_kid (h : RootedTree root nodes kids parent) {d : α} (hd : d ∈ root :: nodes) :
    root ∉ kids d :=
  fun hmem => (List.nodup_cons.mp h.nodup).1 (h.child d hd root hmem).1

/-- The tree only depends on the parents of its nodes. -/
theorem congr_parent (h : RootedTree root nodes kids parent)
    (agree : ∀ c ∈ nodes, parent' c = parent c) : RootedTree root nodes kids parent' := by
  obtain ⟨rank, hrank⟩ := h.ranked
  refine ⟨h.nodup, fun d hd c hc => ?_, fun c hc => ?_, h.kids_nodup, rank, fun c hc => ?_⟩
  · obtain ⟨hmem, hp⟩ := h.child d hd c hc
    exact ⟨hmem, (agree c hmem).trans hp⟩
  · rw [agree c hc]; exact h.listed c hc
  · rw [agree c hc]; exact hrank c hc

/-- A new leaf `n` becomes the first child of `d`. -/
theorem addLeaf [DecidableEq α] {n d : α} (h : RootedTree root nodes kids parent)
    (hn : n ∉ root :: nodes) (hd : d ∈ root :: nodes) (hparent : parent' n = d)
    (agree : ∀ c ∈ nodes, parent' c = parent c) :
    RootedTree root (n :: nodes)
      (Function.update (Function.update kids d (n :: kids d)) n []) parent' := by
  obtain ⟨rank, hrank⟩ := h.ranked
  have hdn : d ≠ n := fun he => hn (he ▸ hd)
  have hne : ∀ x ∈ root :: nodes, x ≠ n := fun x hx he => hn (he ▸ hx)
  have hkids_d : Function.update (Function.update kids d (n :: kids d)) n [] d = n :: kids d := by
    rw [Function.update_of_ne hdn, Function.update_self]
  have hkids : ∀ x ∈ root :: nodes, x ≠ d →
      Function.update (Function.update kids d (n :: kids d)) n [] x = kids x := by
    intro x hx hxd
    rw [Function.update_of_ne (hne x hx), Function.update_of_ne hxd]
  have hmem : ∀ x, x ∈ root :: n :: nodes ↔ x = n ∨ x ∈ root :: nodes := by
    intro x; simp only [List.mem_cons]; tauto
  constructor
  · have hnr := List.ne_of_not_mem_cons hn
    have hnn := List.not_mem_of_not_mem_cons hn
    have := List.nodup_cons.mp h.nodup
    simp only [List.nodup_cons, List.mem_cons, not_or]
    exact ⟨⟨hnr.symm, this.1⟩, hnn, this.2⟩
  · intro x hx c hc
    rcases (hmem x).mp hx with rfl | hx
    · simp at hc
    · by_cases hxd : x = d
      · subst hxd
        rw [hkids_d] at hc
        rcases List.mem_cons.mp hc with rfl | hc
        · exact ⟨by simp, hparent⟩
        · obtain ⟨hm, hp⟩ := h.child x hx c hc
          exact ⟨by simp [hm], (agree c hm).trans hp⟩
      · rw [hkids x hx hxd] at hc
        obtain ⟨hm, hp⟩ := h.child x hx c hc
        exact ⟨by simp [hm], (agree c hm).trans hp⟩
  · intro c hc
    rcases List.mem_cons.mp hc with rfl | hc
    · rw [hparent, hkids_d]
      exact ⟨(hmem d).mpr (.inr hd), by simp⟩
    · obtain ⟨hp, hk⟩ := h.listed c hc
      rw [agree c hc]
      refine ⟨(hmem _).mpr (.inr hp), ?_⟩
      by_cases hpd : parent c = d
      · rw [hpd] at hk ⊢; rw [hkids_d]; simp [hk]
      · rw [hkids _ hp hpd]; exact hk
  · intro x hx
    rcases (hmem x).mp hx with rfl | hx
    · simp
    · by_cases hxd : x = d
      · subst hxd
        rw [hkids_d, List.nodup_cons]
        exact ⟨fun hmem' => hn (by simp [(h.child x hx n hmem').1]), h.kids_nodup x hx⟩
      · rw [hkids x hx hxd]; exact h.kids_nodup x hx
  · refine ⟨Function.update rank n (rank d + 1), fun c hc => ?_⟩
    rcases List.mem_cons.mp hc with rfl | hc
    · rw [hparent, Function.update_self, Function.update_of_ne hdn]; omega
    · rw [agree c hc, Function.update_of_ne (hne _ (h.listed c hc).1),
        Function.update_of_ne (hne c (by simp [hc]))]
      exact hrank c hc

/-- The leaf `x` is removed from its parent's children. -/
theorem removeLeaf [DecidableEq α] {x : α} (h : RootedTree root nodes kids parent)
    (hx : x ∈ nodes) (hleaf : kids x = []) :
    RootedTree root (nodes.erase x)
      (Function.update kids (parent x) ((kids (parent x)).erase x)) parent := by
  obtain ⟨rank, hrank⟩ := h.ranked
  obtain ⟨hrn, hnd⟩ := List.nodup_cons.mp h.nodup
  have hsub : ∀ y, y ∈ root :: nodes.erase x → y ∈ root :: nodes ∧ y ≠ x := by
    intro y hy
    rcases List.mem_cons.mp hy with rfl | hy
    · exact ⟨by simp, fun he => hrn (he ▸ hx)⟩
    · obtain ⟨hne, hy⟩ := hnd.mem_erase_iff.mp hy
      exact ⟨by simp [hy], hne⟩
  have hsup : ∀ y, y ∈ root :: nodes → y ≠ x → y ∈ root :: nodes.erase x := by
    intro y hy hne
    rcases List.mem_cons.mp hy with rfl | hy
    · simp
    · exact List.mem_cons_of_mem _ (hnd.mem_erase_iff.mpr ⟨hne, hy⟩)
  have hpx := h.listed x hx
  constructor
  · exact List.nodup_cons.mpr ⟨fun hm => hrn (List.mem_of_mem_erase hm), hnd.erase x⟩
  · intro d hd c hc
    obtain ⟨hd, hdx⟩ := hsub d hd
    by_cases hdp : d = parent x
    · subst hdp
      rw [Function.update_self] at hc
      obtain ⟨hcx, hc⟩ := (h.kids_nodup _ hd).mem_erase_iff.mp hc
      obtain ⟨hm, hp⟩ := h.child _ hd c hc
      exact ⟨hnd.mem_erase_iff.mpr ⟨hcx, hm⟩, hp⟩
    · rw [Function.update_of_ne hdp] at hc
      obtain ⟨hm, hp⟩ := h.child _ hd c hc
      exact ⟨hnd.mem_erase_iff.mpr ⟨fun he => hdp (he ▸ hp.symm), hm⟩, hp⟩
  · intro c hc
    obtain ⟨hcx, hc⟩ := hnd.mem_erase_iff.mp hc
    obtain ⟨hp, hk⟩ := h.listed c hc
    refine ⟨hsup _ hp fun he => ?_, ?_⟩
    · -- the leaf is nobody's parent
      rw [he, hleaf] at hk; cases hk
    · by_cases hpp : parent c = parent x
      · rw [hpp, Function.update_self]
        exact (h.kids_nodup _ hpx.1).mem_erase_iff.mpr ⟨hcx, hpp ▸ hk⟩
      · rw [Function.update_of_ne hpp]; exact hk
  · intro d hd
    obtain ⟨hd, -⟩ := hsub d hd
    by_cases hdp : d = parent x
    · subst hdp
      rw [Function.update_self]
      exact (h.kids_nodup _ hd).erase x
    · rw [Function.update_of_ne hdp]; exact h.kids_nodup _ hd
  · exact ⟨rank, fun c hc => hrank c (List.mem_of_mem_erase hc)⟩

end RootedTree

end ProgLib
