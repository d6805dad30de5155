import Mathlib.Data.List.Induction

/-!
# Trees whose nodes are found by paths

A partial function `next` gives the child of a node under an index. `follow` goes down a path
from a node, and the tree of depth `d` below a root is `Distinct` if no node in it is found by two
paths. In such a tree one change of `next` has one effect: a new child is found by one new path
(`follow_addChild`), and nothing else moves.
-/

namespace ProgLib

variable {N I : Type}

/-- The node at the end of a path. -/
def follow (next : N → I → Option N) : N → List I → Option N
  | n, [] => some n
  | n, i :: is => (next n i).bind (follow next · is)

theorem follow_append (next : N → I → Option N) (n : N) (p q : List I) :
    follow next n (p ++ q) = (follow next n p).bind (follow next · q) := by
  induction p generalizing n with
  | nil => rfl
  | cons i p ih =>
    simp only [List.cons_append, follow]
    cases next n i with
    | none => rfl
    | some c => exact ih c

theorem follow_snoc (next : N → I → Option N) (n : N) (p : List I) (i : I) :
    follow next n (p ++ [i]) = (follow next n p).bind (next · i) := by
  rw [follow_append]
  congr
  funext x
  simp only [follow]
  cases next x i <;> rfl

/-- The paths of length up to `d` from the root lead to different nodes. -/
def Distinct (next : N → I → Option N) (root : N) (d : Nat) : Prop :=
  ∀ p q n, p.length ≤ d → q.length ≤ d → follow next root p = some n →
    follow next root q = some n → p = q

variable {next next' : N → I → Option N} {root : N} {d : Nat}

/-- The tree depends on the children of its inner nodes only. -/
theorem follow_congr
    (same : ∀ p n, p.length < d → follow next root p = some n → ∀ i, next' n i = next n i) :
    ∀ p, p.length ≤ d → follow next' root p = follow next root p := by
  intro p
  induction p using List.reverseRecOn with
  | nil => intro _; rfl
  | append_singleton p i ih =>
    intro hlen
    rw [List.length_append, List.length_singleton] at hlen
    rw [follow_snoc, follow_snoc, ih (by omega)]
    cases hp : follow next root p with
    | none => rfl
    | some n => exact same p n (by omega) hp i

theorem Distinct.congr (h : Distinct next root d)
    (same : ∀ p, p.length ≤ d → follow next' root p = follow next root p) :
    Distinct next' root d := by
  intro p q n hp hq hfp hfq
  rw [same p hp] at hfp
  rw [same q hq] at hfq
  exact h p q n hp hq hfp hfq

/-- The node `n` at the path `p` gets a new child `c`, which has no children itself. -/
theorem follow_addChild [DecidableEq I] (h : Distinct next root d) {p : List I} {n c : N} {i : I}
    (hp : p.length < d) (hfp : follow next root p = some n) (hnone : next n i = none)
    (hchild : next' n i = some c) (hleaf : ∀ j, next' c j = none)
    (same : ∀ q x j, q.length < d → follow next root q = some x → (x ≠ n ∨ j ≠ i) →
      next' x j = next x j) :
    ∀ q, q.length ≤ d →
      follow next' root q = if q = p ++ [i] then some c else follow next root q := by
  intro q
  induction q using List.reverseRecOn with
  | nil => intro _; rw [if_neg (by simp)]; rfl
  | append_singleton q j ih =>
    intro hlen
    rw [List.length_append, List.length_singleton] at hlen
    rw [follow_snoc, follow_snoc, ih (by omega)]
    by_cases hq : q = p ++ [i]
    · -- the new node has no children, and neither had the missing one
      have hne : q ++ [j] ≠ p ++ [i] := by
        rw [hq]
        exact fun he => by simpa using congrArg List.length he
      rw [if_pos hq, if_neg hne, hq, follow_snoc, hfp, Option.bind_some, Option.bind_some, hnone,
        hleaf]
      rfl
    · rw [if_neg hq]
      cases hfq : follow next root q with
      | none =>
        have hne : q ++ [j] ≠ p ++ [i] := by
          intro he
          obtain ⟨rfl, -⟩ := List.append_inj' he rfl
          rw [hfp] at hfq
          cases hfq
        rw [if_neg hne]
        rfl
      | some x =>
        rw [Option.bind_some, Option.bind_some]
        by_cases hx : x = n ∧ j = i
        · obtain ⟨rfl, rfl⟩ := hx
          have hqp : q = p := h q p x (by omega) (by omega) hfq hfp
          rw [if_pos (by rw [hqp]), hchild]
        · have hne : q ++ [j] ≠ p ++ [i] := by
            intro he
            obtain ⟨rfl, hji⟩ := List.append_inj' he rfl
            rw [hfp] at hfq
            exact hx ⟨(Option.some.inj hfq).symm, by simpa using hji⟩
          rw [if_neg hne]
          exact same q x j (by omega) hfq (by
            by_cases hxn : x = n
            · exact .inr fun hji => hx ⟨hxn, hji⟩
            · exact .inl hxn)

/-- A tree with a new child has no node twice if the child is new to it. -/
theorem Distinct.addChild [DecidableEq I] (h : Distinct next root d) {p : List I} {c : N} {i : I}
    (fresh : ∀ q, q.length ≤ d → follow next root q ≠ some c)
    (hfollow : ∀ q, q.length ≤ d →
      follow next' root q = if q = p ++ [i] then some c else follow next root q) :
    Distinct next' root d := by
  intro q r x hq hr hfq hfr
  rw [hfollow q hq] at hfq
  rw [hfollow r hr] at hfr
  split at hfq <;> split at hfr
  · next h₁ h₂ => rw [h₁, h₂]
  · cases hfq
    exact absurd hfr (fresh r hr)
  · cases hfr
    exact absurd hfq (fresh q hq)
  · exact h q r x hq hr hfq hfr

end ProgLib
