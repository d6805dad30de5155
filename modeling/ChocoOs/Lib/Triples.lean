import ChocoOs.Lib.Cells

/-!
# Total correctness of programs over cells

`Ends` says that a program started in a memory runs to its end, and what holds of its result and of
the memory there. There is one rule for each way to build a program; a loop has an invariant that
names the round. `Sets` is the postcondition of a loop that writes one cell after another, and
`Touches` the frame of a program of which nothing else is known.
-/

namespace ProgLib.Cmd

variable {A V α β : Type} [DecidableEq A] {dom : A → Bool} {m t u : A → Option V}

/-! ## Programs that end -/

variable (dom) in
/-- From `m` the program runs to its end, and `Q` holds of its result and of memory there. -/
def Ends (f : Cmd A V α) (m : A → Option V) (Q : α → (A → Option V) → Prop) : Prop :=
  ∃ a t, f.run dom m = .done a t ∧ Q a t

variable {Q : α → (A → Option V) → Prop} {R : β → (A → Option V) → Prop}

theorem Ends.mono {f : Cmd A V α} {Q' : α → (A → Option V) → Prop} (h : Ends dom f m Q)
    (hQ : ∀ a t, Q a t → Q' a t) : Ends dom f m Q' := by
  obtain ⟨a, t, hrun, hq⟩ := h
  exact ⟨a, t, hrun, hQ a t hq⟩

theorem Ends.done {a : α} (h : Q a m) : Ends dom (.done a) m Q := ⟨a, m, rfl, h⟩

theorem Ends.bind {f : Cmd A V α} {g : α → Cmd A V β} (hf : Ends dom f m Q)
    (hg : ∀ a t, Q a t → Ends dom (g a) t R) : Ends dom (f.bind g) m R := by
  obtain ⟨a, t, hrun, hq⟩ := hf
  obtain ⟨b, u, hrun', hr⟩ := hg a t hq
  refine ⟨b, u, ?_, hr⟩
  rw [run_bind, hrun]
  exact hrun'

theorem Ends.get {c : A} {v : V} {Q : V → (A → Option V) → Prop} (hc : dom c = true)
    (hv : m c = some v) (h : Q v m) : Ends dom (Cmd.get c) m Q := by
  refine ⟨v, m, ?_, h⟩
  rw [Cmd.get, run, if_pos hc, hv]
  rfl

theorem Ends.get_bind {c : A} {v : V} {g : V → Cmd A V β} (hc : dom c = true) (hv : m c = some v)
    (h : Ends dom (g v) m R) : Ends dom ((Cmd.get c).bind g) m R := by
  have hget : Ends dom (Cmd.get c) m fun a t => a = v ∧ t = m := .get hc hv ⟨rfl, rfl⟩
  refine hget.bind ?_
  rintro a t ⟨rfl, rfl⟩
  exact h

theorem Ends.set {c : A} {v : V} {Q : Unit → (A → Option V) → Prop} (hc : dom c = true)
    (h : Q () (store m c v)) : Ends dom (Cmd.set c v) m Q := by
  refine ⟨(), store m c v, ?_, h⟩
  rw [Cmd.set, run, if_pos hc]
  rfl

theorem Ends.set_bind {c : A} {v : V} {g : Unit → Cmd A V β} (hc : dom c = true)
    (h : Ends dom (g ()) (store m c v) R) : Ends dom ((Cmd.set c v).bind g) m R := by
  have hset : Ends dom (Cmd.set c v) m fun _ t => t = store m c v := .set hc rfl
  refine hset.bind ?_
  rintro _ t rfl
  exact h

theorem Ends.ofOption_bind {o : Option α} {a : α} {g : α → Cmd A V β} (ho : o = some a)
    (h : Ends dom (g a) m R) : Ends dom ((Cmd.ofOption o).bind g) m R := by
  rw [ho]
  exact h

/-- A loop: the invariant of a round and of the memory that it finds. -/
theorem Ends.forUpto {n : Nat} {body : Nat → Cmd A V Unit} {I : Nat → (A → Option V) → Prop}
    (h0 : I 0 m) (h : ∀ i < n, ∀ t, I i t → Ends dom (body i) t fun _ u => I (i + 1) u) :
    Ends dom (Cmd.forUpto n body) m fun _ t => I n t := by
  induction n with
  | zero => exact .done h0
  | succ n ih =>
    have hbefore := ih fun i hi => h i (Nat.lt_succ_of_lt hi)
    exact hbefore.bind fun _ t ht => h n (Nat.lt_succ_self n) t ht

theorem Ends.foldUpto {n : Nat} {a : α} {body : Nat → α → Cmd A V α}
    {I : Nat → α → (A → Option V) → Prop} (h0 : I 0 a m)
    (h : ∀ i < n, ∀ a t, I i a t → Ends dom (body i a) t fun b u => I (i + 1) b u) :
    Ends dom (Cmd.foldUpto n a body) m fun b t => I n b t := by
  induction n with
  | zero => exact .done h0
  | succ n ih =>
    have hbefore := ih fun i hi => h i (Nat.lt_succ_of_lt hi)
    exact hbefore.bind fun a t ht => h n (Nat.lt_succ_self n) a t ht

/-- A loop that only reads: the value of the accumulator in each round. -/
theorem Ends.foldUpto_read {n : Nat} {body : Nat → α → Cmd A V α} (val : Nat → α)
    (h : ∀ i < n, Ends dom (body i (val i)) m fun b u => b = val (i + 1) ∧ u = m) :
    Ends dom (Cmd.foldUpto n (val 0) body) m fun b t => b = val n ∧ t = m := by
  refine Ends.foldUpto (I := fun i b t => b = val i ∧ t = m) ⟨rfl, rfl⟩ ?_
  rintro i hi a t ⟨rfl, rfl⟩
  exact h i hi

/-! ## Cells that are set -/

theorem store_self (m : A → Option V) (c : A) (v : V) : store m c v c = some v := if_pos rfl

theorem store_of_ne (m : A → Option V) {c c' : A} (v : V) (h : c' ≠ c) : store m c v c' = m c' :=
  if_neg h

/-- `t` is `m` with the value `v i` in the cell `p i` for each `i < n`. -/
structure Sets (m t : A → Option V) (p : Nat → A) (n : Nat) (v : Nat → V) : Prop where
  value : ∀ i < n, t (p i) = some (v i)
  frame : ∀ c, (∀ i < n, c ≠ p i) → t c = m c

variable {p : Nat → A} {n : Nat} {v v' : Nat → V}

omit [DecidableEq A] in
theorem Sets.zero (m : A → Option V) (p : Nat → A) (v : Nat → V) : Sets m m p 0 v :=
  ⟨fun _ hi => absurd hi (Nat.not_lt_zero _), fun _ _ => rfl⟩

/-- One more cell. -/
theorem Sets.store (hp : Function.Injective p) (h : Sets m t p n v) :
    Sets m (store t (p n) (v n)) p (n + 1) v := by
  constructor
  · intro i hi
    rcases Nat.lt_succ_iff_lt_or_eq.mp hi with hlt | rfl
    · rw [store_of_ne _ _ fun he => Nat.ne_of_lt hlt (hp he)]
      exact h.value i hlt
    · exact store_self _ _ _
  · intro c hc
    rw [store_of_ne _ _ (hc n (Nat.lt_succ_self n))]
    exact h.frame c fun i hi => hc i (Nat.lt_succ_of_lt hi)

omit [DecidableEq A] in
/-- The values may be given by another function. -/
theorem Sets.congr (h : Sets m t p n v) (hv : ∀ i < n, v i = v' i) : Sets m t p n v' :=
  ⟨fun i hi => hv i hi ▸ h.value i hi, h.frame⟩

omit [DecidableEq A] in
/-- Cells that are set twice hold what is set last. -/
theorem Sets.trans (h : Sets m t p n v) (h' : Sets t u p n v') : Sets m u p n v' :=
  ⟨h'.value, fun c hc => (h'.frame c hc).trans (h.frame c hc)⟩

/-- A loop that writes one cell after another. -/
theorem Ends.fill {body : Nat → Cmd A V Unit} (hp : Function.Injective p)
    (h : ∀ i < n, ∀ t, Sets m t p i v → Ends dom (body i) t fun _ u => u = Cmd.store t (p i) (v i)) :
    Ends dom (Cmd.forUpto n body) m fun _ t => Sets m t p n v := by
  refine Ends.forUpto (I := fun i t => Sets m t p i v) (.zero m p v) ?_
  intro i hi t ht
  refine (h i hi t ht).mono ?_
  rintro _ u rfl
  exact ht.store hp

/-! ## Cells that are not touched -/

variable (dom) in
/-- However the program runs, it changes no cell outside `W`. -/
def Touches (W : Set A) (f : Cmd A V α) : Prop :=
  ∀ m a t, f.run dom m = .done a t → ∀ c, c ∉ W → t c = m c

variable {W : Set A}

theorem Touches.done (a : α) : Touches dom W (.done a : Cmd A V α) := by
  intro m b t hrun c _
  cases hrun
  rfl

theorem Touches.bind {f : Cmd A V α} {g : α → Cmd A V β} (hf : Touches dom W f)
    (hg : ∀ a, Touches dom W (g a)) : Touches dom W (f.bind g) := by
  intro m b u hrun c hc
  rw [run_bind] at hrun
  cases hout : f.run dom m with
  | done a t =>
    rw [hout] at hrun
    rw [hg a t b u hrun c hc]
    exact hf m a t hout c hc
  | stuck => rw [hout] at hrun; cases hrun
  | fault => rw [hout] at hrun; cases hrun

theorem Touches.get (c : A) : Touches dom W (Cmd.get c : Cmd A V V) := by
  intro m v t hrun c' _
  rw [Cmd.get, run] at hrun
  by_cases hc : dom c = true
  · rw [if_pos hc] at hrun
    cases hm : m c with
    | none => rw [hm] at hrun; cases hrun
    | some v => rw [hm] at hrun; cases hrun; rfl
  · rw [if_neg hc] at hrun
    cases hrun

theorem Touches.set {c : A} (v : V) (hc : c ∈ W) : Touches dom W (Cmd.set c v) := by
  intro m a t hrun c' hc'
  rw [Cmd.set, run] at hrun
  by_cases hdom : dom c = true
  · rw [if_pos hdom] at hrun
    cases hrun
    exact store_of_ne _ _ fun he => hc' (he ▸ hc)
  · rw [if_neg hdom] at hrun
    cases hrun

theorem Touches.ofOption (o : Option α) : Touches dom W (Cmd.ofOption o : Cmd A V α) := by
  cases o with
  | none => intro m a t hrun; cases hrun
  | some a => exact .done a

theorem Touches.forUpto {n : Nat} {body : Nat → Cmd A V Unit} (h : ∀ i < n, Touches dom W (body i)) :
    Touches dom W (Cmd.forUpto n body) := by
  induction n with
  | zero => exact .done ()
  | succ n ih =>
    exact (ih fun i hi => h i (Nat.lt_succ_of_lt hi)).bind fun _ => h n (Nat.lt_succ_self n)

theorem Touches.foldUpto {n : Nat} {a : α} {body : Nat → α → Cmd A V α}
    (h : ∀ i < n, ∀ a, Touches dom W (body i a)) : Touches dom W (Cmd.foldUpto n a body) := by
  induction n with
  | zero => exact .done a
  | succ n ih =>
    exact (ih fun i hi => h i (Nat.lt_succ_of_lt hi)).bind fun a => h n (Nat.lt_succ_self n) a

end ProgLib.Cmd
