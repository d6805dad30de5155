import ChocoOs.Lib.Loop
import Mathlib.Data.List.Perm.Subperm
import Mathlib.Logic.Function.Iterate

/-!
# Linked lists threaded through a pointer function

A linked structure in memory is a function `next` from node to node, and for a doubly linked
one a second function `prev`. `Linked next l e` says that following `next` from the first
node of `l` runs through the nodes of `l` and arrives at `e`; with `e` the null pointer this
is a list, with `e` the first node itself it is a ring. `DLinked` adds the backward pointers. The edits are insertion behind a node and removal of a node's successor.
-/

namespace ProgLib

variable {α : Type}

/-! ## Singly linked -/

/-- `next` leads through the nodes of `l` and from the last one to `e`. -/
def Linked (next : α → α) : List α → α → Prop
  | [], _ => True
  | x :: xs, e => next x = xs.headD e ∧ Linked next xs e

@[simp] theorem linked_nil (next : α → α) (e : α) : Linked next [] e := trivial

theorem linked_cons {next : α → α} {x : α} {xs : List α} {e : α} :
    Linked next (x :: xs) e ↔ next x = xs.headD e ∧ Linked next xs e := Iff.rfl

theorem headD_append (xs ys : List α) (e : α) :
    (xs ++ ys).headD e = xs.headD (ys.headD e) := by
  cases xs <;> rfl

theorem linked_append {next : α → α} {xs ys : List α} {e : α} :
    Linked next (xs ++ ys) e ↔ Linked next xs (ys.headD e) ∧ Linked next ys e := by
  induction xs with
  | nil => simp
  | cons x xs ih =>
    rw [List.cons_append, linked_cons, linked_cons, ih, headD_append, and_assoc]

/-- A linked list survives any change of `next` outside its nodes. -/
theorem Linked.congr {next next' : α → α} {l : List α} {e : α} (h : Linked next l e)
    (agree : ∀ x ∈ l, next' x = next x) : Linked next' l e := by
  induction l with
  | nil => trivial
  | cons x xs ih =>
    obtain ⟨hx, hxs⟩ := h
    exact ⟨(agree x (by simp)).trans hx, ih hxs fun y hy => agree y (by simp [hy])⟩

/-- Inserting `y` behind `x`. -/
theorem Linked.insert {next next' : α → α} (pre : List α) {post : List α} {x y e : α}
    (h : Linked next (pre ++ x :: post) e) (hx : next' x = y) (hy : next' y = next x)
    (agree : ∀ z ∈ pre ++ post, next' z = next z) :
    Linked next' (pre ++ x :: y :: post) e := by
  rw [linked_append, linked_cons] at h
  obtain ⟨hpre, hnext, hpost⟩ := h
  rw [linked_append, linked_cons, linked_cons]
  refine ⟨hpre.congr fun z hz => agree z (by simp [hz]), hx, hy.trans hnext,
    hpost.congr fun z hz => agree z (by simp [hz])⟩

/-- Removing the successor `y` of `x`. -/
theorem Linked.remove {next next' : α → α} {pre post : List α} {x y e : α}
    (h : Linked next (pre ++ x :: y :: post) e) (hx : next' x = next y)
    (agree : ∀ z ∈ pre ++ post, next' z = next z) :
    Linked next' (pre ++ x :: post) e := by
  rw [linked_append, linked_cons, linked_cons] at h
  obtain ⟨hpre, -, hnext, hpost⟩ := h
  rw [linked_append, linked_cons]
  exact ⟨hpre.congr fun z hz => agree z (by simp [hz]), hx.trans hnext,
    hpost.congr fun z hz => agree z (by simp [hz])⟩

/-- Taking out a node, wherever it is: the pointer in front of it then leads behind it. -/
theorem Linked.unlink [DecidableEq α] {next next' : α → α} {pre post : List α} {x e : α}
    (h : Linked next (pre ++ x :: post) e) (hnd : (pre ++ x :: post).Nodup)
    (hnext : ∀ y, next' y = if pre.getLast? = some y then post.headD e else next y) :
    Linked next' (pre ++ post) e := by
  rcases List.eq_nil_or_concat pre with rfl | ⟨qs, q, rfl⟩
  · exact h.2.congr fun y _ => by simp [hnext]
  · rw [List.concat_eq_append, List.append_assoc, List.singleton_append] at *
    have hq : ∀ z ∈ qs ++ post, z ≠ q := by
      intro z hz he
      subst he
      rw [List.nodup_append, List.nodup_cons] at hnd
      rcases List.mem_append.mp hz with hz | hz
      · exact hnd.2.2 z hz z List.mem_cons_self rfl
      · exact hnd.2.1.1 (List.mem_cons_of_mem x hz)
    refine h.remove (x := q) (y := x) ?_ fun z hz => ?_
    · rw [linked_append, linked_cons, linked_cons] at h
      rw [hnext, List.getLast?_concat, if_pos rfl]
      exact h.2.2.1.symm
    · rw [hnext, if_neg]
      simpa using (hq z hz).symm

/-- Follow `next` from `x` for at most `fuel` nodes until `e`; the nodes passed. -/
def walk [DecidableEq α] (next : α → α) (e : α) : Nat → α → Option (List α)
  | 0, _ => none
  | fuel + 1, x => if x = e then some [] else (walk next e fuel (next x)).map (x :: ·)

/-- Walking a linked list passes its nodes in order. -/
theorem Linked.walk_eq [DecidableEq α] {next : α → α} {l : List α} {e : α} {fuel : Nat}
    (h : Linked next l e) (hne : ∀ x ∈ l, x ≠ e) (hfuel : l.length < fuel) :
    walk next e fuel (l.headD e) = some l := by
  induction l generalizing fuel with
  | nil =>
    obtain ⟨fuel, rfl⟩ := Nat.exists_eq_add_of_lt hfuel
    exact if_pos rfl
  | cons x xs ih =>
    obtain ⟨fuel, rfl⟩ : ∃ f, fuel = f + 1 := ⟨fuel - 1, by omega⟩
    have hx : x ≠ e := hne x (by simp)
    rw [List.headD_cons, walk, if_neg hx, h.1,
      ih h.2 (fun y hy => hne y (by simp [hy])) (by simpa using hfuel), Option.map_some]

/-- A loop that follows `next` through the nodes at the addresses `addr` and stops at the first
    node that passes `test`, or at `e`. -/
theorem Linked.loop_find {β ρ : Type} {addr : β → α} {next : α → α} {l : List β} {e : α}
    (body : α → Option (LoopStep α ρ)) (test : β → Bool) (found : β → ρ) (missed : ρ)
    (h : Linked next (l.map addr) e) (stop : body e = some (.done missed))
    (round : ∀ x ∈ l, body (addr x) =
      some (if test x then .done (found x) else .next (next (addr x)))) {fuel : Nat}
    (hfuel : l.length < fuel) :
    loop body fuel ((l.map addr).headD e) = some (((l.find? test).map found).getD missed) := by
  induction l generalizing fuel with
  | nil =>
    obtain ⟨fuel, rfl⟩ := Nat.exists_eq_add_of_lt hfuel
    exact loop_of_done stop
  | cons x xs ih =>
    obtain ⟨fuel, rfl⟩ : ∃ f, fuel = f + 1 := ⟨fuel - 1, by omega⟩
    have hx := round x (by simp)
    rw [List.map_cons, List.headD_cons]
    cases ht : test x with
    | true =>
      rw [ht, if_pos rfl] at hx
      rw [List.find?_cons_of_pos ht]
      exact loop_of_done hx
    | false =>
      rw [ht, if_neg (by simp)] at hx
      rw [List.find?_cons_of_neg (by simp [ht]), loop_of_next hx, h.1]
      exact ih h.2 (fun y hy => round y (by simp [hy])) (by simpa using hfuel)

/-- Distinct non-null addresses below `n` are fewer than `n`. -/
theorem length_lt_of_nodup {l : List Nat} {n : Nat} (hnd : l.Nodup) (h : ∀ x ∈ l, 0 < x ∧ x < n)
    (hn : 0 < n) : l.length < n := by
  have hsub : l ⊆ List.range' 1 (n - 1) := fun x hx => by
    have := h x hx
    rw [List.mem_range'_1]
    omega
  have hle := (hnd.subperm hsub).length_le
  rw [List.length_range'] at hle
  omega

/-- A sublist of distinct nodes is what is left when the others are filtered out. -/
theorem filter_mem_of_sublist [DecidableEq α] {l l' : List α} (h : l'.Sublist l)
    (hnd : l.Nodup) : l.filter (· ∈ l') = l' := by
  induction h with
  | slnil => rfl
  | @cons l' l x h ih =>
    have hx := List.nodup_cons.mp hnd
    rw [List.filter_cons_of_neg (by simpa using fun hm => hx.1 (h.subset hm))]
    exact ih hx.2
  | @cons_cons l' l x h ih =>
    have hx := List.nodup_cons.mp hnd
    rw [List.filter_cons_of_pos (by simp)]
    refine congrArg (x :: ·) (Eq.trans (List.filter_congr fun y hy => ?_) (ih hx.2))
    have hne : y ≠ x := fun he => hx.1 (he ▸ hy)
    simp [hne]

/-! ## Rings -/

/-- `next` leads from `x` once around through the distinct nodes of `l` and back to `x`. -/
structure Ring (next : α → α) (l : List α) (x : α) : Prop where
  nodup : l.Nodup
  head : l.head? = some x
  linked : Linked next l x

namespace Ring

variable {next next' : α → α}

theorem congr {l : List α} {x : α} (h : Ring next l x) (agree : ∀ y ∈ l, next' y = next y) :
    Ring next' l x :=
  ⟨h.nodup, h.head, h.linked.congr agree⟩

theorem eq_cons {l : List α} {x : α} (h : Ring next l x) : ∃ xs, l = x :: xs := by
  cases l with
  | nil => cases h.head
  | cons y ys => exact ⟨ys, by rw [Option.some.inj h.head]⟩

/-- A ring may be read from any of its nodes. -/
theorem rotate {pre post : List α} {x y : α} (h : Ring next (pre ++ y :: post) x) :
    Ring next (y :: post ++ pre) y := by
  have hl := linked_append.mp h.linked
  refine ⟨(List.perm_append_comm.nodup_iff).mp h.nodup, rfl, linked_append.mpr ⟨?_, hl.1⟩⟩
  have hx : pre.headD y = x := by
    have hhead := h.head
    cases pre with
    | nil => simpa using hhead
    | cons z pre => simpa using hhead
  rw [hx]
  exact hl.2

/-- Inserting `y` behind the first node. -/
theorem insert {l : List α} {x y : α} (h : Ring next (x :: l) x) (hy : y ∉ x :: l)
    (hx : next' x = y) (hnext : next' y = next x) (agree : ∀ z ∈ l, next' z = next z) :
    Ring next' (x :: y :: l) x := by
  refine ⟨?_, rfl, Linked.insert [] h.linked hx hnext agree⟩
  have hnd := List.nodup_cons.mp h.nodup
  simp only [List.mem_cons, not_or] at hy
  simp only [List.nodup_cons, List.mem_cons, not_or]
  exact ⟨⟨fun he => hy.1 he.symm, hnd.1⟩, hy.2, hnd.2⟩

/-- Removing the successor `y` of `p`, which is not the first node. -/
theorem remove {pre post : List α} {x p y : α} (h : Ring next (pre ++ p :: y :: post) x)
    (hp : next' p = next y) (agree : ∀ z ∈ pre ++ post, next' z = next z) :
    Ring next' (pre ++ p :: post) x := by
  refine ⟨h.nodup.sublist ?_, ?_, h.linked.remove hp agree⟩
  · exact (List.Sublist.refl pre).append ((List.sublist_cons_self y post).cons_cons p)
  · have hhead := h.head
    cases pre with
    | nil => simpa using hhead
    | cons z pre => simpa using hhead

/-- The successor of a node. -/
theorem next_eq {pre post : List α} {x p : α} (h : Ring next (pre ++ p :: post) x) :
    next p = post.headD x := by
  have hl := h.linked
  rw [linked_append, linked_cons] at hl
  exact hl.2.1

/-- Following `next` from the first node stays on the ring. -/
theorem split_iterate {l : List α} {x : α} (h : Ring next l x) (n : Nat) :
    ∃ pre post, l = pre ++ next^[n] x :: post ∧ pre.length ≤ n := by
  induction n with
  | zero =>
    obtain ⟨xs, hxs⟩ := h.eq_cons
    exact ⟨[], xs, hxs, Nat.le_refl _⟩
  | succ n ih =>
    obtain ⟨pre, post, hsplit, hlen⟩ := ih
    have hnext := next_eq (hsplit ▸ h)
    rw [Function.iterate_succ_apply', hnext]
    cases post with
    | nil =>
      obtain ⟨xs, hxs⟩ := h.eq_cons
      exact ⟨[], xs, hxs, Nat.zero_le _⟩
    | cons y post =>
      refine ⟨pre ++ [next^[n] x], post, by simpa using hsplit, ?_⟩
      rw [List.length_append]
      exact Nat.succ_le_succ hlen

/-- The node behind `n` others is reached in `n` steps. -/
theorem iterate_length {pre post : List α} {x y : α} (h : Ring next (pre ++ y :: post) x) :
    next^[pre.length] x = y := by
  induction pre generalizing x post with
  | nil => exact (Option.some.inj h.head).symm
  | cons z pre ih =>
    have hx : z = x := Option.some.inj h.head
    subst hx
    have hnext : next z = (pre ++ y :: post).headD z := h.linked.1
    have hrot : Ring next ((pre ++ y :: post) ++ [z]) (next z) := by
      obtain ⟨w, ws, hws⟩ : ∃ w ws, pre ++ y :: post = w :: ws := by
        cases pre with
        | nil => exact ⟨y, post, rfl⟩
        | cons w ws => exact ⟨w, ws ++ y :: post, rfl⟩
      have h' : Ring next ([z] ++ w :: ws) z := hws ▸ h
      rw [hnext, hws]
      exact h'.rotate
    have hrot' : Ring next (pre ++ y :: (post ++ [z])) (next z) := by simpa using hrot
    rw [List.length_cons, Function.iterate_succ_apply]
    exact ih hrot'

/-- A do-while loop once around a ring. The body at `y` takes the state `s` to `f s y`, and `I`
    relates the states to the nodes passed. -/
theorem loop_around {σ : Type} [DecidableEq α] {l : List α} {x : α} (h : Ring next l x)
    (body : σ × α → Option (LoopStep (σ × α) σ)) (f : σ → α → σ) (I : σ → List α → Prop)
    (round : ∀ s y pre post, l = pre ++ y :: post → I s pre → I (f s y) (pre ++ [y]) ∧
      body (s, y) = some (if next y = x then .done (f s y) else .next (f s y, next y)))
    {fuel : Nat} (hfuel : l.length < fuel) {s : σ} (hs : I s []) :
    ∃ s', loop body fuel (s, x) = some s' ∧ I s' l := by
  refine loop_total body
    (fun c : σ × α => ∃ pre post, l = pre ++ c.2 :: post ∧ I c.1 pre) (fun s' => I s' l)
    (fun c => l.length - l.idxOf c.2) ?_ fuel (s, x) ?_ (by omega)
  · rintro ⟨s, y⟩ ⟨pre, post, hsplit, hI⟩
    simp only at hsplit hI
    obtain ⟨hI', hbody⟩ := round s y pre post hsplit hI
    have hnext : next y = post.headD x := by
      have h' := h
      rw [hsplit] at h'
      exact h'.next_eq
    cases post with
    | nil =>
      rw [hnext, List.headD_nil, if_pos rfl] at hbody
      exact .inl ⟨_, hbody, hsplit ▸ hI'⟩
    | cons z post =>
      have hnd := h.nodup
      have hhead := h.head
      have hzx : z ≠ x := by
        rintro rfl
        rw [hsplit] at hnd hhead
        cases pre with
        | nil =>
          simp only [List.nil_append, List.head?_cons, Option.some.injEq] at hhead
          simp [hhead] at hnd
        | cons w pre =>
          simp only [List.cons_append, List.head?_cons, Option.some.injEq] at hhead
          simp [hhead] at hnd
      rw [hnext, List.headD_cons, if_neg hzx] at hbody
      refine .inr ⟨_, hbody, ⟨pre ++ [y], post, by simp [hsplit], hI'⟩, ?_⟩
      have hy : l.idxOf y = pre.length := by
        rw [hsplit] at hnd ⊢
        have hypre : y ∉ pre := fun hm => (List.nodup_append.mp hnd).2.2 y hm y (by simp) rfl
        rw [List.idxOf_append_of_notMem hypre, List.idxOf_cons_self, Nat.add_zero]
      have hz : l.idxOf z = pre.length + 1 := by
        have hsplit' : l = (pre ++ [y]) ++ z :: post := by simp [hsplit]
        rw [hsplit'] at hnd ⊢
        have hzpre : z ∉ pre ++ [y] := fun hm =>
          (List.nodup_append.mp hnd).2.2 z hm z (by simp) rfl
        rw [List.idxOf_append_of_notMem hzpre, List.idxOf_cons_self, List.length_append]
        rfl
      have hlen : l.length = pre.length + (post.length + 2) := by simp [hsplit]
      simp only
      omega
  · obtain ⟨xs, rfl⟩ := h.eq_cons
    exact ⟨[], xs, rfl, hs⟩

end Ring

/-! ## Doubly linked -/

/-- `next` leads through `l` to `n`, and `prev` leads back from the nodes of `l` to `p`. -/
def DLinked (next prev : α → α) (p : α) : List α → α → Prop
  | [], _ => True
  | x :: xs, n => prev x = p ∧ next x = xs.headD n ∧ DLinked next prev x xs n

section DLinked

variable {next prev next' prev' : α → α}

@[simp] theorem dLinked_nil (p n : α) : DLinked next prev p [] n := trivial

theorem dLinked_cons {p x n : α} {xs : List α} : DLinked next prev p (x :: xs) n ↔
    prev x = p ∧ next x = xs.headD n ∧ DLinked next prev x xs n := Iff.rfl

theorem dLinked_append {p n : α} {xs ys : List α} :
    DLinked next prev p (xs ++ ys) n ↔
      DLinked next prev p xs (ys.headD n) ∧ DLinked next prev (xs.getLastD p) ys n := by
  induction xs generalizing p with
  | nil => simp
  | cons x xs ih =>
    rw [List.cons_append, dLinked_cons, dLinked_cons, ih, headD_append, and_assoc, and_assoc,
      List.getLastD_cons]

theorem DLinked.linked {p n : α} {l : List α} (h : DLinked next prev p l n) :
    Linked next l n := by
  induction l generalizing p with
  | nil => trivial
  | cons x xs ih => exact ⟨h.2.1, ih h.2.2⟩

theorem DLinked.congr {p n : α} {l : List α} (h : DLinked next prev p l n)
    (hn : ∀ x ∈ l, next' x = next x) (hp : ∀ x ∈ l, prev' x = prev x) :
    DLinked next' prev' p l n := by
  induction l generalizing p with
  | nil => trivial
  | cons x xs ih =>
    obtain ⟨h1, h2, h3⟩ := h
    exact ⟨(hp x (by simp)).trans h1, (hn x (by simp)).trans h2,
      ih h3 (fun y hy => hn y (by simp [hy])) fun y hy => hp y (by simp [hy])⟩

/-- The same list behind another node: only the first node's `prev` has to change. -/
theorem DLinked.relink {p p' n : α} {l : List α} (h : DLinked next prev p l n)
    (hn : ∀ x ∈ l, next' x = next x) (hhead : ∀ x ∈ l.head?, prev' x = p')
    (hp : ∀ x ∈ l.tail, prev' x = prev x) : DLinked next' prev' p' l n := by
  cases l with
  | nil => trivial
  | cons x xs =>
    obtain ⟨-, h2, h3⟩ := h
    exact ⟨hhead x (by simp), (hn x (by simp)).trans h2,
      h3.congr (fun y hy => hn y (by simp [hy])) fun y hy => hp y (by simpa using hy)⟩

/-- Inserting `y` behind `x`. -/
theorem DLinked.insert {p n x y : α} {pre post : List α}
    (h : DLinked next prev p (pre ++ x :: post) n)
    (hnx : next' x = y) (hpx : prev' x = prev x) (hny : next' y = next x) (hpy : prev' y = x)
    (hpre : ∀ z ∈ pre, next' z = next z ∧ prev' z = prev z)
    (hpostn : ∀ z ∈ post, next' z = next z) (hhead : ∀ z ∈ post.head?, prev' z = y)
    (htail : ∀ z ∈ post.tail, prev' z = prev z) :
    DLinked next' prev' p (pre ++ x :: y :: post) n := by
  rw [dLinked_append, dLinked_cons] at h
  obtain ⟨h1, h2, h3, h4⟩ := h
  rw [dLinked_append, dLinked_cons, dLinked_cons]
  exact ⟨h1.congr (fun z hz => (hpre z hz).1) fun z hz => (hpre z hz).2, hpx.trans h2, hnx,
    hpy, hny.trans h3, h4.relink hpostn hhead htail⟩

/-- Removing the successor `y` of `x`. -/
theorem DLinked.remove {p n x y : α} {pre post : List α}
    (h : DLinked next prev p (pre ++ x :: y :: post) n)
    (hnx : next' x = next y) (hpx : prev' x = prev x)
    (hpre : ∀ z ∈ pre, next' z = next z ∧ prev' z = prev z)
    (hpostn : ∀ z ∈ post, next' z = next z) (hhead : ∀ z ∈ post.head?, prev' z = x)
    (htail : ∀ z ∈ post.tail, prev' z = prev z) :
    DLinked next' prev' p (pre ++ x :: post) n := by
  rw [dLinked_append, dLinked_cons, dLinked_cons] at h
  obtain ⟨h1, h2, -, -, h5, h6⟩ := h
  rw [dLinked_append, dLinked_cons]
  exact ⟨h1.congr (fun z hz => (hpre z hz).1) fun z hz => (hpre z hz).2, hpx.trans h2,
    hnx.trans h5, h6.relink hpostn hhead htail⟩

/-- The pointers around a node in the middle. -/
theorem DLinked.around {p n x : α} {pre post : List α}
    (h : DLinked next prev p (pre ++ x :: post) n) :
    prev x = pre.getLastD p ∧ next x = post.headD n := by
  rw [dLinked_append, dLinked_cons] at h
  exact ⟨h.2.1, h.2.2.1⟩

/-- `prev` is the inverse of `next`. -/
theorem DLinked.next_eq_iff {p n x y : α} {l : List α} (h : DLinked next prev p l n)
    (hp : p ∉ l) (hn : n ∉ l) (hx : x ∈ l) (hy : y ∈ l) : next x = y ↔ prev y = x := by
  constructor
  · intro hxy
    obtain ⟨pre, post, rfl⟩ := List.append_of_mem hx
    have hnext := h.around.2
    cases post with
    | nil =>
      rw [hxy, List.headD_nil] at hnext
      exact absurd (hnext ▸ hy) hn
    | cons z post =>
      rw [hxy, List.headD_cons] at hnext
      subst hnext
      have h' : DLinked next prev p ((pre ++ [x]) ++ y :: post) n := by simpa using h
      simpa using h'.around.1
  · intro hyx
    obtain ⟨pre, post, rfl⟩ := List.append_of_mem hy
    have hprev := h.around.1
    rcases List.eq_nil_or_concat pre with rfl | ⟨pre, z, rfl⟩
    · rw [hyx, List.getLastD_nil] at hprev
      exact absurd (hprev ▸ hx) hp
    · rw [hyx, List.concat_eq_append, List.getLastD_concat] at hprev
      subst hprev
      have h' : DLinked next prev p (pre ++ x :: y :: post) n := by simpa using h
      exact h'.around.2

end DLinked

end ProgLib
