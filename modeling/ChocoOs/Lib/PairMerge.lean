import Mathlib.Logic.Relation

/-!
# Merging ranked pairs

A rewriting of lists. `rank` gives a rank to some pairs; a step joins the leftmost neighbours of
the lowest rank. The rewriting is deterministic, so a list has at most one normal form.
-/

namespace ProgLib
open Relation

variable {α : Type*} (rank : α → α → Option Nat) (join : α → α → α)

/-- The leftmost neighbours of the lowest rank are joined. -/
def MergeStep (xs ys : List α) : Prop :=
  ∃ pre x y post r, xs = pre ++ x :: y :: post ∧ ys = pre ++ join x y :: post ∧
    rank x y = some r ∧ ∀ pre' x' y' post' r', xs = pre' ++ x' :: y' :: post' →
      rank x' y' = some r' → r < r' ∨ (r = r' ∧ pre.length ≤ pre'.length)

/-- No neighbours have a rank. -/
def Merged (xs : List α) : Prop := ∀ pre x y post, xs = pre ++ x :: y :: post → rank x y = none

/-- `ys` is what remains of `xs` when no pair can be merged any more. -/
def MergesTo (xs ys : List α) : Prop := ReflTransGen (MergeStep rank join) xs ys ∧ Merged rank ys

variable {rank join}

theorem MergeStep.unique : Relator.RightUnique (MergeStep rank join) := by
  rintro xs ys zs ⟨pre, x, y, post, r, rfl, rfl, hr, hmin⟩
    ⟨pre', x', y', post', r', he, rfl, hr', hmin'⟩
  have hle := hmin pre' x' y' post' r' he hr'
  have hle' := hmin' pre x y post r rfl hr
  obtain ⟨rfl, hlen⟩ : r = r' ∧ pre.length = pre'.length := by omega
  obtain ⟨rfl, htail⟩ := List.append_inj he hlen
  cases htail
  rfl

theorem Merged.not_step {xs ys : List α} (h : Merged rank xs) : ¬ MergeStep rank join xs ys := by
  rintro ⟨pre, x, y, post, r, rfl, -, hr, -⟩
  rw [h pre x y post rfl] at hr
  cases hr

theorem Merged.eq {xs ys : List α} (h : Merged rank xs)
    (hs : ReflTransGen (MergeStep rank join) xs ys) : xs = ys := by
  rcases hs.cases_head with he | ⟨zs, hstep, -⟩
  · exact he
  · exact absurd hstep h.not_step

/-- A list has one normal form. -/
theorem MergesTo.unique {xs ys zs : List α} (hy : MergesTo rank join xs ys)
    (hz : MergesTo rank join xs zs) : ys = zs := by
  rcases hy.1.total_of_right_unique MergeStep.unique hz.1 with h | h
  · exact hy.2.eq h
  · exact (hz.2.eq h).symm

/-- What joining keeps holds of the normal form. -/
theorem MergesTo.forall_mem {I : α → Prop} (hjoin : ∀ x y, I x → I y → I (join x y)) {xs ys : List α}
    (hxs : ∀ x ∈ xs, I x) (h : MergesTo rank join xs ys) : ∀ y ∈ ys, I y := by
  obtain ⟨hsteps, -⟩ := h
  induction hsteps with
  | refl => exact hxs
  | tail _ hstep ih =>
    obtain ⟨pre, x, y, post, r, rfl, rfl, -, -⟩ := hstep
    intro z hz
    rcases List.mem_append.mp hz with hz | hz
    · exact ih z (List.mem_append_left _ hz)
    · rcases List.mem_cons.mp hz with rfl | hz
      · exact hjoin x y (ih x (by simp)) (ih y (by simp))
      · exact ih z (by simp [hz])

/-- Where two rankings agree on all pairs that can occur, they merge alike. -/
theorem MergesTo.congr {rank' : α → α → Option Nat} {I : α → Prop}
    (hrank : ∀ x y, I x → I y → rank x y = rank' x y)
    (hjoin : ∀ x y r, I x → I y → rank x y = some r → I (join x y)) {xs ys : List α}
    (hxs : ∀ x ∈ xs, I x) (h : MergesTo rank join xs ys) : MergesTo rank' join xs ys := by
  obtain ⟨hsteps, hdone⟩ := h
  have hagree : ∀ {ts : List α}, (∀ x ∈ ts, I x) → ∀ {pre x y post},
      ts = pre ++ x :: y :: post → rank x y = rank' x y := fun hts pre x y post he =>
    hrank x y (hts x (by rw [he]; simp)) (hts y (by rw [he]; simp))
  have hrun : ReflTransGen (MergeStep rank' join) xs ys ∧ ∀ x ∈ ys, I x := by
    clear hdone
    induction hsteps with
    | refl => exact ⟨.refl, hxs⟩
    | tail _ hstep ih =>
      obtain ⟨hsteps', hI⟩ := ih
      obtain ⟨pre, x, y, post, r, rfl, rfl, hr, hmin⟩ := hstep
      refine ⟨hsteps'.tail ⟨pre, x, y, post, r, rfl, rfl, ?_, ?_⟩, fun z hz => ?_⟩
      · rw [← hagree hI rfl, hr]
      · intro pre' x' y' post' r' he hr'
        rw [← hagree hI he] at hr'
        exact hmin pre' x' y' post' r' he hr'
      · rcases List.mem_append.mp hz with hz | hz
        · exact hI z (List.mem_append_left _ hz)
        · rcases List.mem_cons.mp hz with rfl | hz
          · exact hjoin x y r (hI x (by simp)) (hI y (by simp)) hr
          · exact hI z (by simp [hz])
  refine ⟨hrun.1, fun pre x y post he => ?_⟩
  rw [← hagree hrun.2 he]
  exact hdone pre x y post he

end ProgLib
