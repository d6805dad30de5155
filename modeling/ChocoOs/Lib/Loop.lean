import Mathlib.Data.Finset.Card
import Mathlib.Logic.Relation

/-!
# Loops with early exit

A C loop is a body that either goes round again with a new loop state or leaves with a
result. `loop` runs such a body for at most `fuel` rounds; `none` stands for a loop that
never ends (or for a body whose behaviour is undefined). `loop_total` is the rule of total
correctness: an invariant, a measure that every further round decreases, and a
postcondition that every exit establishes.
-/

namespace ProgLib

/-- What one round of a loop does: go round again, or leave with a result. -/
inductive LoopStep (σ ρ : Type) where
  | next (s : σ)
  | done (r : ρ)
  deriving DecidableEq, Repr

variable {σ ρ : Type}

/-- Run `body` from `s` for at most `fuel` rounds. -/
def loop (body : σ → Option (LoopStep σ ρ)) : Nat → σ → Option ρ
  | 0, _ => none
  | fuel + 1, s =>
    match body s with
    | none => none
    | some (.done r) => some r
    | some (.next s') => loop body fuel s'

theorem loop_of_done {body : σ → Option (LoopStep σ ρ)} {fuel : Nat} {s : σ} {r : ρ}
    (h : body s = some (.done r)) : loop body (fuel + 1) s = some r := by
  simp only [loop, h]

theorem loop_of_next {body : σ → Option (LoopStep σ ρ)} {fuel : Nat} {s s' : σ}
    (h : body s = some (.next s')) : loop body (fuel + 1) s = loop body fuel s' := by
  simp only [loop, h]

/-- A body that goes round again from each of the states `f 0`, ..., `f (n - 1)` reaches `f n`. -/
theorem loop_iterate {body : σ → Option (LoopStep σ ρ)} (f : Nat → σ) {n : Nat}
    (h : ∀ i < n, body (f i) = some (.next (f (i + 1)))) (fuel : Nat) :
    loop body (n + fuel) (f 0) = loop body fuel (f n) := by
  induction n generalizing fuel with
  | zero => rw [Nat.zero_add]
  | succ n ih =>
    rw [Nat.add_right_comm, Nat.add_assoc, ih (fun i hi => h i (Nat.lt_succ_of_lt hi)) (fuel + 1)]
    exact loop_of_next (h n (Nat.lt_succ_self n))

/-- Total correctness. Every round from a state of the invariant `I` either leaves with a
    result in `Q` or reaches a state of `I` of smaller measure. -/
theorem loop_total (body : σ → Option (LoopStep σ ρ)) (I : σ → Prop) (Q : ρ → Prop)
    (μ : σ → Nat)
    (round : ∀ s, I s → (∃ r, body s = some (.done r) ∧ Q r) ∨
      (∃ s', body s = some (.next s') ∧ I s' ∧ μ s' < μ s)) :
    ∀ (fuel : Nat) (s : σ), I s → μ s < fuel → ∃ r, loop body fuel s = some r ∧ Q r := by
  intro fuel
  induction fuel with
  | zero => intro s _ hlt; exact absurd hlt (Nat.not_lt_zero _)
  | succ fuel ih =>
    intro s hs hlt
    rcases round s hs with ⟨r, hbody, hq⟩ | ⟨s', hbody, hs', hdec⟩
    · exact ⟨r, loop_of_done hbody, hq⟩
    · rw [loop_of_next hbody]
      exact ih s' hs' (by omega)

/-- Partial correctness. Whatever a loop returns satisfies `Q`. -/
theorem loop_preserves {body : σ → Option (LoopStep σ ρ)} (I : σ → Prop) (Q : ρ → Prop)
    (leave : ∀ s r, I s → body s = some (.done r) → Q r)
    (again : ∀ s s', I s → body s = some (.next s') → I s') :
    ∀ (fuel : Nat) (s : σ) (r : ρ), I s → loop body fuel s = some r → Q r := by
  intro fuel
  induction fuel with
  | zero => intro s r _ h; simp [loop] at h
  | succ fuel ih =>
    intro s r hs h
    unfold loop at h
    split at h
    · cases h
    · next r' hbody => cases h; exact leave s _ hs hbody
    · next s' hbody => exact ih s' r (again s s' hs hbody) h

/-! ## Two views of one loop -/

/-- What a round does, in another view of the states. -/
def LoopStep.mapState {τ : Type} (abs : τ → σ) : LoopStep τ ρ → LoopStep σ ρ
  | .next t => .next (abs t)
  | .done r => .done r

/-- A round does the same in both views, and keeps to the states of `I`. -/
def RoundView {τ : Type} (abs : τ → σ) (I : τ → Prop) (x : Option (LoopStep σ ρ))
    (y : Option (LoopStep τ ρ)) : Prop :=
  x = y.map (LoopStep.mapState abs) ∧ ∀ t, y = some (.next t) → I t

/-- A loop does the same in both views if each of its rounds does. -/
theorem loop_view {τ : Type} {body : σ → Option (LoopStep σ ρ)} {body' : τ → Option (LoopStep τ ρ)}
    {abs : τ → σ} {I : τ → Prop} (round : ∀ t, I t → RoundView abs I (body (abs t)) (body' t))
    (fuel : Nat) : ∀ t, I t → loop body fuel (abs t) = loop body' fuel t := by
  induction fuel with
  | zero => exact fun _ _ => rfl
  | succ fuel ih =>
    intro t ht
    obtain ⟨hround, hkeep⟩ := round t ht
    cases hbody : body' t with
    | none =>
      rw [hbody] at hround
      simp only [loop, hbody, hround, Option.map_none]
    | some step =>
      rw [hbody] at hround
      cases step with
      | done r => rw [loop_of_done hbody, loop_of_done hround]
      | next u =>
        rw [loop_of_next hbody, loop_of_next hround]
        exact ih u (hkeep u hbody)

/-! ## The states of a run -/

/-- `body` goes round again from `s` with `t`. -/
def GoesOn (body : σ → Option (LoopStep σ ρ)) (s t : σ) : Prop := body s = some (.next t)

/-- A loop that returns is nowhere undefined, and it leaves from one of its states. -/
theorem loop_states {body : σ → Option (LoopStep σ ρ)} :
    ∀ {fuel : Nat} {s : σ} {r : ρ}, loop body fuel s = some r →
      (∀ t, Relation.ReflTransGen (GoesOn body) s t → body t ≠ none) ∧
      ∃ t, Relation.ReflTransGen (GoesOn body) s t ∧ body t = some (.done r) := by
  intro fuel
  induction fuel with
  | zero => intro s r h; simp [loop] at h
  | succ fuel ih =>
    intro s r h
    unfold loop at h
    split at h
    · cases h
    · next r' hbody =>
      cases h
      refine ⟨fun t ht => ?_, s, .refl, hbody⟩
      rcases ht.cases_head with rfl | ⟨u, hu, -⟩
      · simp [hbody]
      · rw [GoesOn, hbody] at hu
        cases hu
    · next s' hbody =>
      obtain ⟨hall, t, ht, hdone⟩ := ih h
      refine ⟨fun t ht => ?_, t, .head hbody ht, hdone⟩
      rcases ht.cases_head with rfl | ⟨u, hu, ht⟩
      · simp [hbody]
      · rw [GoesOn, hbody] at hu
        cases hu
        exact hall t ht

/-- A walk among the numbers below `M` that ends has fewer than `M` steps. -/
theorem walk_lt {next : Nat → Nat} {x n M : Nat} {Ends : Nat → Prop} (hend : Ends (next^[n] x))
    (hfirst : ∀ k < n, ¬ Ends (next^[k] x)) (hbound : ∀ k, next^[k] x < M) : n < M := by
  have hinj : Set.InjOn (fun k => next^[k] x) (Finset.range (n + 1)) := by
    -- a walk that comes back to a place goes on as before and never ends
    have hapart : ∀ i j, i < j → j < n + 1 → next^[i] x ≠ next^[j] x := by
      intro i j hij hj heq
      apply hfirst (n - j + i) (by omega)
      have hsplit : next^[n] x = next^[n - j] (next^[j] x) := by
        rw [← Function.iterate_add_apply, Nat.sub_add_cancel (Nat.le_of_lt_succ hj)]
      rw [Function.iterate_add_apply, heq, ← hsplit]
      exact hend
    intro i hi j hj heq
    have hi := Finset.mem_range.mp hi
    have hj := Finset.mem_range.mp hj
    rcases Nat.lt_trichotomy i j with hlt | rfl | hlt
    · exact absurd heq (hapart i j hlt hj)
    · rfl
    · exact absurd heq.symm (hapart j i hlt hi)
  have hcard := Finset.card_le_card_of_injOn (t := Finset.range M) _ (fun k _ =>
    Finset.mem_range.mpr (hbound k)) hinj
  rwa [Finset.card_range, Finset.card_range] at hcard

end ProgLib
