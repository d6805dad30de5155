import Mathlib.Data.List.Chain
import Mathlib.Data.List.Nodup

/-!
# Trails

A trail is a list of places without repetition, each of which is next to the one behind it. Something that
leaves a trail goes on to a place in front, and the trail is cut off somewhere at its end.
-/

namespace ProgLib

variable {α : Type} {P : α → Prop} {R : α → α → Prop} {l : List α}

/-- The places meet `P`, are different, and each is related to the one behind it. -/
structure Trail (P : α → Prop) (R : α → α → Prop) (l : List α) : Prop where
  inside : ∀ a ∈ l, P a
  distinct : l.Nodup
  adjacent : l.IsChain R

theorem Trail.single {a : α} (ha : P a) : Trail P R [a] where
  inside _ hb := List.mem_singleton.mp hb ▸ ha
  distinct := List.nodup_singleton a
  adjacent := List.isChain_singleton a

/-- One place in front of what is left of the trail. -/
theorem Trail.follow (h : Trail P R l) {a b : α} (hhead : l.head? = some b) (ha : P a) (hab : R a b)
    {k : Nat} (hnew : a ∉ l.take k) : Trail P R (a :: l.take k) := by
  refine ⟨?_, List.nodup_cons.mpr ⟨hnew, h.distinct.sublist (List.take_sublist k l)⟩, ?_⟩
  · intro c hc
    rcases List.mem_cons.mp hc with rfl | hc
    · exact ha
    · exact h.inside c (List.mem_of_mem_take hc)
  · refine List.isChain_cons.mpr ⟨fun c hc => ?_, h.adjacent.take k⟩
    -- the first place that is left is the first of the trail
    have hcut : (l.take k).head? = some c := hc
    rw [List.head?_take] at hcut
    split at hcut
    · cases hcut
    · rw [hhead] at hcut
      cases hcut
      exact hab

/-- Two places of a trail are different. -/
theorem Trail.ne (h : Trail P R l) {i j : Nat} (hij : i < j) (hj : j < l.length) : l[i]? ≠ l[j]? :=
  List.nodup_iff_getElem?_ne_getElem?.mp h.distinct i j hij hj

end ProgLib
