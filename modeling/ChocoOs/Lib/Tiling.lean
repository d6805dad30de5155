import Mathlib.Data.List.Nodup
import Mathlib.Tactic.ByContra

/-!
# Ranges that tile an interval

`Tiles start len lo xs hi` says that the ranges `[start x, start x + len x)`, taken in the
order of the list, cover `[lo, hi)` from end to end without gap or overlap.
-/

namespace ProgLib

variable {β : Type} {start len : β → Nat}

/-- The ranges of `xs` follow one another from `lo` to `hi`. -/
def Tiles (start len : β → Nat) : Nat → List β → Nat → Prop
  | lo, [], hi => lo = hi
  | lo, x :: xs, hi => start x = lo ∧ Tiles start len (lo + len x) xs hi

theorem tiles_cons {lo hi : Nat} {x : β} {xs : List β} : Tiles start len lo (x :: xs) hi ↔
    start x = lo ∧ Tiles start len (lo + len x) xs hi := Iff.rfl

theorem tiles_append {lo hi : Nat} {xs ys : List β} :
    Tiles start len lo (xs ++ ys) hi ↔
      ∃ mid, Tiles start len lo xs mid ∧ Tiles start len mid ys hi := by
  induction xs generalizing lo with
  | nil => simp [Tiles]
  | cons x xs ih =>
    rw [List.cons_append, tiles_cons, ih]
    simp only [tiles_cons, and_assoc, exists_and_left]

theorem tiles_map {γ : Type} {f : γ → β} {lo hi : Nat} {xs : List γ} :
    Tiles start len lo (xs.map f) hi ↔
      Tiles (fun x => start (f x)) (fun x => len (f x)) lo xs hi := by
  induction xs generalizing lo with
  | nil => exact Iff.rfl
  | cons x xs ih => rw [List.map_cons, tiles_cons, tiles_cons, ih]

theorem Tiles.le {lo hi : Nat} {xs : List β} (h : Tiles start len lo xs hi) : lo ≤ hi := by
  induction xs generalizing lo with
  | nil => exact Nat.le_of_eq h
  | cons x xs ih =>
    have := ih h.2
    omega

theorem Tiles.mem_bounds {lo hi : Nat} {xs : List β} (h : Tiles start len lo xs hi) :
    ∀ x ∈ xs, lo ≤ start x ∧ start x + len x ≤ hi := by
  induction xs generalizing lo with
  | nil => simp
  | cons y xs ih =>
    obtain ⟨hy, hxs⟩ := h
    have hle := hxs.le
    intro x hx
    rcases List.mem_cons.mp hx with rfl | hx
    · omega
    · have := ih hxs x hx
      omega

/-- In list order every range ends before the later ones start. -/
theorem Tiles.pairwise {lo hi : Nat} {xs : List β} (h : Tiles start len lo xs hi) :
    xs.Pairwise fun x y => start x + len x ≤ start y := by
  induction xs generalizing lo with
  | nil => exact .nil
  | cons x xs ih =>
    obtain ⟨hx, hxs⟩ := h
    refine List.pairwise_cons.mpr ⟨fun y hy => ?_, ih hxs⟩
    have := hxs.mem_bounds y hy
    omega

theorem Tiles.apart {lo hi : Nat} {pre post : List β} {x : β}
    (h : Tiles start len lo (pre ++ x :: post) hi) :
    (∀ y ∈ pre, start y + len y ≤ start x) ∧ ∀ y ∈ post, start x + len x ≤ start y := by
  have hp := List.pairwise_append.mp h.pairwise
  exact ⟨fun y hy => hp.2.2 y hy x (by simp), (List.pairwise_cons.mp hp.2.1).1⟩

/-- Every place lies in one of the ranges. -/
theorem Tiles.exists_mem {lo hi a : Nat} {xs : List β} (h : Tiles start len lo xs hi)
    (hlo : lo ≤ a) (hhi : a < hi) : ∃ x ∈ xs, start x ≤ a ∧ a < start x + len x := by
  induction xs generalizing lo with
  | nil =>
    have : lo = hi := h
    omega
  | cons x xs ih =>
    obtain ⟨hx, hxs⟩ := h
    by_cases ha : a < start x + len x
    · exact ⟨x, List.mem_cons_self .., by omega, ha⟩
    · obtain ⟨y, hy, hya⟩ := ih hxs (by omega)
      exact ⟨y, List.mem_cons_of_mem _ hy, hya⟩

/-- No place lies in two of them. -/
theorem Tiles.mem_unique {lo hi a : Nat} {xs : List β} (h : Tiles start len lo xs hi) {x y : β}
    (hx : x ∈ xs) (hy : y ∈ xs) (hax : start x ≤ a ∧ a < start x + len x)
    (hay : start y ≤ a ∧ a < start y + len y) : x = y := by
  by_contra hne
  obtain ⟨pre, post, rfl⟩ := List.append_of_mem hx
  obtain ⟨hpre, hpost⟩ := h.apart
  simp only [List.mem_append, List.mem_cons] at hy
  rcases hy with hy | hy | hy
  · have := hpre y hy
    omega
  · exact hne hy.symm
  · have := hpost y hy
    omega

/-- What lies on the left of a range. -/
theorem Tiles.left {lo hi : Nat} {pre post : List β} {x : β}
    (h : Tiles start len lo (pre ++ x :: post) hi) :
    (pre = [] ∧ start x = lo) ∨ ∃ pre' y, pre = pre' ++ [y] ∧ start y + len y = start x := by
  rcases List.eq_nil_or_concat pre with rfl | ⟨pre', y, rfl⟩
  · exact .inl ⟨rfl, h.1⟩
  · rw [List.concat_eq_append] at *
    rw [List.append_assoc] at h
    obtain ⟨mid, -, hy, hx, -⟩ := tiles_append.mp h
    exact .inr ⟨pre', y, rfl, by omega⟩

/-- What lies on the right of it. -/
theorem Tiles.right {lo hi : Nat} {pre post : List β} {x : β}
    (h : Tiles start len lo (pre ++ x :: post) hi) :
    (post = [] ∧ start x + len x = hi) ∨ ∃ y post', post = y :: post' ∧ start x + len x = start y := by
  obtain ⟨mid, -, hx, hpost⟩ := tiles_append.mp h
  cases post with
  | nil =>
    have : mid + len x = hi := hpost
    exact .inl ⟨rfl, by omega⟩
  | cons y post' => exact .inr ⟨y, post', rfl, by rw [hx, hpost.1]⟩

theorem Tiles.congr {start' len' : β → Nat} {lo hi : Nat} {xs : List β}
    (h : Tiles start len lo xs hi) (hs : ∀ x ∈ xs, start' x = start x)
    (hl : ∀ x ∈ xs, len' x = len x) : Tiles start' len' lo xs hi := by
  induction xs generalizing lo with
  | nil => exact h
  | cons x xs ih =>
    obtain ⟨hx, hxs⟩ := h
    refine ⟨(hs x (by simp)).trans hx, ?_⟩
    rw [hl x (by simp)]
    exact ih hxs (fun y hy => hs y (by simp [hy])) fun y hy => hl y (by simp [hy])

/-- A stretch of ranges may be replaced by another one of the same extent. -/
theorem Tiles.replace {lo hi : Nat} {pre mid mid' post : List β}
    (h : Tiles start len lo (pre ++ mid ++ post) hi)
    (hmid : ∀ a b, Tiles start len a mid b → Tiles start len a mid' b) :
    Tiles start len lo (pre ++ mid' ++ post) hi := by
  obtain ⟨b, h1, hpost⟩ := tiles_append.mp h
  obtain ⟨a, hpre, hm⟩ := tiles_append.mp h1
  exact tiles_append.mpr ⟨b, tiles_append.mpr ⟨a, hpre, hmid a b hm⟩, hpost⟩

/-- Ranges of length at least `k > 0` are at most `(hi - lo) / k` many. -/
theorem Tiles.length_le {lo hi k : Nat} {xs : List β} (h : Tiles start len lo xs hi)
    (hk : ∀ x ∈ xs, k ≤ len x) : lo + k * xs.length ≤ hi := by
  induction xs generalizing lo with
  | nil => simpa using Nat.le_of_eq h
  | cons x xs ih =>
    have h1 := ih h.2 fun y hy => hk y (by simp [hy])
    have h2 := hk x (by simp)
    rw [List.length_cons, Nat.mul_succ]
    omega

end ProgLib
