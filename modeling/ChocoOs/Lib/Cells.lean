import Mathlib.Data.Set.Lattice

/-!
# Programs over memory cells

A program reads and writes cells. Memory may have cells that were never written; to read one of
them, or to access a cell outside the domain, is a fault. A program that runs without a fault has
the same outcome whatever the unwritten cells hold. `Safe` says from which written cells a program
runs without a fault, and which cells it has written at its end; `Leaves` and `Faults` say what a
program does while some cells are not written.
-/

namespace ProgLib

/-- A program that accesses cells `A` with values `V`. `stuck` is undefined behaviour that does not
    come from a cell. -/
inductive Cmd (A V α : Type) where
  | done (a : α)
  | stuck
  | read (c : A) (k : V → Cmd A V α)
  | write (c : A) (v : V) (k : Cmd A V α)

/-- How a program ends. -/
inductive Outcome (A V α : Type) where
  | done (a : α) (m : A → Option V)
  | stuck
  | fault

namespace Cmd

variable {A V α β : Type}

def bind : Cmd A V α → (α → Cmd A V β) → Cmd A V β
  | .done a, g => g a
  | .stuck, _ => .stuck
  | .read c k, g => .read c fun v => (k v).bind g
  | .write c v k, g => .write c v (k.bind g)

instance : Monad (Cmd A V) where
  pure := .done
  bind := Cmd.bind

/-- The value of a cell. -/
def get (c : A) : Cmd A V V := .read c .done

/-- A cell is written. -/
def set (c : A) (v : V) : Cmd A V Unit := .write c v (.done ())

/-- A result that may not exist. -/
def ofOption : Option α → Cmd A V α
  | some a => .done a
  | none => .stuck

/-- `for (i = 0; i < n; i++) body(i)`. -/
def forUpto : Nat → (Nat → Cmd A V Unit) → Cmd A V Unit
  | 0, _ => .done ()
  | n + 1, body => (forUpto n body).bind fun _ => body n

/-- The same with an accumulator. -/
def foldUpto : Nat → α → (Nat → α → Cmd A V α) → Cmd A V α
  | 0, a, _ => .done a
  | n + 1, a, body => (foldUpto n a body).bind (body n)

section run

variable [DecidableEq A] (dom : A → Bool)

/-- Memory after a write. -/
def store (m : A → Option V) (c : A) (v : V) : A → Option V :=
  fun c' => if c' = c then some v else m c'

theorem store_ne_none {m : A → Option V} {c c' : A} {v : V} (h : c' = c ∨ m c' ≠ none) :
    store m c v c' ≠ none := by
  unfold store
  by_cases he : c' = c
  · rw [if_pos he]
    exact Option.some_ne_none _
  · rw [if_neg he]
    exact h.resolve_left he

/-- The outcome of a program that may access the cells of `dom`. -/
def run : Cmd A V α → (A → Option V) → Outcome A V α
  | .done a, m => .done a m
  | .stuck, _ => .stuck
  | .read c k, m =>
    if dom c then
      match m c with
      | some v => run (k v) m
      | none => .fault
    else .fault
  | .write c v k, m => if dom c then run k (store m c v) else .fault

variable {dom}

/-- Memory after a write has more written cells if memory before it had. -/
theorem store_mono {m m' : A → Option V} {c : A} {v : V} (hm : ∀ c v, m c = some v → m' c = some v)
    (c' : A) (v' : V) (h : store m c v c' = some v') : store m' c v c' = some v' := by
  unfold store at h ⊢
  by_cases he : c' = c
  · rw [if_pos he] at h ⊢
    exact h
  · rw [if_neg he] at h ⊢
    exact hm c' v' h

/-- What runs without a fault runs alike from every memory with more written cells. -/
theorem run_mono {f : Cmd A V α} {m m' : A → Option V} (hm : ∀ c v, m c = some v → m' c = some v) :
    match f.run dom m with
    | .done a t => ∃ t', f.run dom m' = .done a t' ∧ ∀ c v, t c = some v → t' c = some v
    | .stuck => f.run dom m' = .stuck
    | .fault => True := by
  induction f generalizing m m' with
  | done a => exact ⟨m', rfl, hm⟩
  | stuck => rfl
  | read c k ih =>
    rw [run, run]
    by_cases hc : dom c = true
    · rw [if_pos hc, if_pos hc]
      cases hv : m c with
      | none => trivial
      | some v =>
        rw [hm c v hv]
        exact ih v hm
    · rw [if_neg hc]
      trivial
  | write c v k ih =>
    rw [run, run]
    by_cases hc : dom c = true
    · rw [if_pos hc, if_pos hc]
      apply ih
      exact store_mono hm
    · rw [if_neg hc]
      trivial

theorem run_bind (f : Cmd A V α) (g : α → Cmd A V β) (m : A → Option V) :
    (f.bind g).run dom m = match f.run dom m with
      | .done a t => (g a).run dom t
      | .stuck => .stuck
      | .fault => .fault := by
  induction f generalizing m with
  | done a => rfl
  | stuck => rfl
  | read c k ih =>
    rw [bind, run, run]
    by_cases hc : dom c = true
    · rw [if_pos hc, if_pos hc]
      cases m c with
      | none => rfl
      | some v => exact ih v m
    · rw [if_neg hc, if_neg hc]
  | write c v k ih =>
    rw [bind, run, run]
    by_cases hc : dom c = true
    · rw [if_pos hc, if_pos hc]
      exact ih _
    · rw [if_neg hc, if_neg hc]

/-- A loop that leaves memory as it is: each round gives the next value. -/
theorem run_foldUpto {n : Nat} {body : Nat → α → Cmd A V α} {m : A → Option V} {I : Nat → α}
    (h : ∀ i < n, (body i (I i)).run dom m = .done (I (i + 1)) m) :
    (foldUpto n (I 0) body).run dom m = .done (I n) m := by
  induction n with
  | zero => rfl
  | succ n ih =>
    rw [foldUpto, run_bind, ih fun i hi => h i (Nat.lt_succ_of_lt hi)]
    exact h n (Nat.lt_succ_self n)

variable (dom)

/-- From every memory in which the cells of `D` are written the program runs without a fault. It
    keeps every written cell written, and at its end the cells of `E` are written. -/
def Safe (D : Set A) (f : Cmd A V α) (E : Set A) : Prop :=
  ∀ m : A → Option V, (∀ c ∈ D, m c ≠ none) →
    match f.run dom m with
    | .done _ t => (∀ c, m c ≠ none → t c ≠ none) ∧ ∀ c ∈ E, t c ≠ none
    | .stuck => True
    | .fault => False

variable {dom} {D D' E E' : Set A}

theorem Safe.not_fault {f : Cmd A V α} (h : Safe dom D f E) {m : A → Option V}
    (hm : ∀ c ∈ D, m c ≠ none) : f.run dom m ≠ .fault := by
  intro hfault
  have := h m hm
  rw [hfault] at this
  exact this

/-- What a program that has ended leaves in memory. -/
theorem Safe.written {f : Cmd A V α} (h : Safe dom D f E) {m t : A → Option V} {a : α}
    (hm : ∀ c ∈ D, m c ≠ none) (hrun : f.run dom m = .done a t) :
    (∀ c, m c ≠ none → t c ≠ none) ∧ ∀ c ∈ E, t c ≠ none := by
  have := h m hm
  rw [hrun] at this
  exact this

theorem Safe.mono {f : Cmd A V α} (h : Safe dom D f E) (hD : D ⊆ D') (hE : E' ⊆ E) :
    Safe dom D' f E' := by
  intro m hm
  have := h m fun c hc => hm c (hD hc)
  cases hrun : f.run dom m with
  | done a t => rw [hrun] at this; exact ⟨this.1, fun c hc => this.2 c (hE hc)⟩
  | stuck => trivial
  | fault => rw [hrun] at this; exact this

/-- Written cells stay written. -/
theorem Safe.frame {f : Cmd A V α} (h : Safe dom D f E) : Safe dom D f (D ∪ E) := by
  intro m hm
  have := h m hm
  cases hrun : f.run dom m with
  | done a t =>
    rw [hrun] at this
    exact ⟨this.1, fun c hc => hc.elim (fun hc => this.1 c (hm c hc)) (this.2 c)⟩
  | stuck => trivial
  | fault => rw [hrun] at this; exact this

theorem Safe.done (a : α) : Safe dom D (.done a : Cmd A V α) D := fun _ hm => ⟨fun _ => id, hm⟩

theorem Safe.stuck : Safe dom D (.stuck : Cmd A V α) E := fun _ _ => trivial

theorem Safe.bind {f : Cmd A V α} {g : α → Cmd A V β} (hf : Safe dom D f D')
    (hg : ∀ a, Safe dom D' (g a) E) : Safe dom D (f.bind g) E := by
  intro m hm
  have hfm := hf m hm
  rw [run_bind]
  cases hrun : f.run dom m with
  | done a t =>
    rw [hrun] at hfm
    have hgt := hg a t hfm.2
    simp only
    cases hrun' : (g a).run dom t with
    | done b u =>
      rw [hrun'] at hgt
      exact ⟨fun c hc => hgt.1 c (hfm.1 c hc), hgt.2⟩
    | stuck => trivial
    | fault => rw [hrun'] at hgt; exact hgt
  | stuck => trivial
  | fault => rw [hrun] at hfm; exact hfm

/-- A first step that reads `D` and writes `E`, where more is written already. -/
theorem Safe.seq {f : Cmd A V α} {g : α → Cmd A V β} (hf : Safe dom D f E) (hD : D ⊆ D')
    (hg : ∀ a, Safe dom (D' ∪ E) (g a) E') : Safe dom D' (f.bind g) E' := by
  have hf' := (hf.mono hD subset_rfl).frame
  exact hf'.bind hg

theorem Safe.get {c : A} (hc : dom c = true) (hD : c ∈ D) :
    Safe dom D (Cmd.get c : Cmd A V V) D := by
  intro m hm
  rw [Cmd.get, run, if_pos hc]
  cases hv : m c with
  | none => exact absurd hv (hm c hD)
  | some v => exact ⟨fun _ => id, hm⟩

theorem Safe.set {c : A} (v : V) (hc : dom c = true) : Safe dom D (Cmd.set c v) (D ∪ {c}) := by
  intro m hm
  rw [Cmd.set, run, if_pos hc]
  exact ⟨fun c' hc' => store_ne_none (.inr hc'),
    fun c' hc' => store_ne_none (hc'.symm.imp_right fun hc' => hm c' hc')⟩

theorem Safe.ofOption (o : Option α) : Safe dom D (Cmd.ofOption o : Cmd A V α) D := by
  cases o with
  | none => exact .stuck
  | some a => exact .done a

/-- A loop: each round establishes the next set of written cells. -/
theorem Safe.forUpto {n : Nat} {body : Nat → Cmd A V Unit} {I : Nat → Set A}
    (h : ∀ i < n, Safe dom (I i) (body i) (I (i + 1))) : Safe dom (I 0) (Cmd.forUpto n body) (I n) := by
  induction n with
  | zero => exact .done ()
  | succ n ih =>
    exact (ih fun i hi => h i (Nat.lt_succ_of_lt hi)).bind fun _ => h n (Nat.lt_succ_self n)

theorem Safe.foldUpto {n : Nat} {a : α} {body : Nat → α → Cmd A V α} {I : Nat → Set A}
    (h : ∀ i < n, ∀ a, Safe dom (I i) (body i a) (I (i + 1))) :
    Safe dom (I 0) (Cmd.foldUpto n a body) (I n) := by
  induction n with
  | zero => exact .done a
  | succ n ih =>
    exact (ih fun i hi => h i (Nat.lt_succ_of_lt hi)).bind fun a => h n (Nat.lt_succ_self n) a

/-- A loop that only reads. -/
theorem Safe.foldUpto_read {n : Nat} {a : α} {body : Nat → α → Cmd A V α}
    (h : ∀ i < n, ∀ a, Safe dom D (body i a) D) : Safe dom D (Cmd.foldUpto n a body) D :=
  Safe.foldUpto (I := fun _ => D) h

/-- A loop whose rounds may read what earlier rounds wrote. -/
theorem Safe.forUpto_union {n : Nat} {body : Nat → Cmd A V Unit} {E : Nat → Set A}
    (h : ∀ i < n, Safe dom (D ∪ {c | ∃ k < i, c ∈ E k}) (body i) (E i)) :
    Safe dom D (Cmd.forUpto n body) (D ∪ {c | ∃ k < n, c ∈ E k}) := by
  have hloop := Safe.forUpto (n := n) (I := fun i => D ∪ {c | ∃ k < i, c ∈ E k}) fun i hi =>
    (h i hi).frame.mono subset_rfl fun c hc => ?_
  · exact hloop.mono (fun c hc => hc.resolve_right nofun) subset_rfl
  · rcases hc with hc | ⟨k, hk, hc⟩
    · exact .inl (.inl hc)
    · rcases Nat.lt_succ_iff_lt_or_eq.mp hk with hk | rfl
      · exact .inl (.inr ⟨k, hk, hc⟩)
      · exact .inr hc

/-! ## Results -/

variable (dom) in
/-- Whatever memory it finds, the program yields only results in `P`. -/
def Yields (P : α → Prop) (f : Cmd A V α) : Prop := ∀ m t a, f.run dom m = .done a t → P a

variable {P : α → Prop} {Q : β → Prop}

theorem Yields.done {a : α} (h : P a) : Yields dom P (.done a : Cmd A V α) := by
  intro m t a' hrun
  cases hrun
  exact h

theorem Yields.ofOption {o : Option α} (h : ∀ a, o = some a → P a) :
    Yields dom P (Cmd.ofOption o : Cmd A V α) := by
  cases o with
  | none => intro m t a hrun; cases hrun
  | some a => exact .done (h a rfl)

theorem Yields.bind {f : Cmd A V α} {g : α → Cmd A V β} (hf : Yields dom P f)
    (hg : ∀ a, P a → Yields dom Q (g a)) : Yields dom Q (f.bind g) := by
  intro m t b hrun
  rw [run_bind] at hrun
  cases hout : f.run dom m with
  | done a u =>
    rw [hout] at hrun
    exact hg a (hf m u a hout) u t b hrun
  | stuck => rw [hout] at hrun; cases hrun
  | fault => rw [hout] at hrun; cases hrun

theorem Yields.any (f : Cmd A V α) : Yields dom (fun _ => True) f := fun _ _ _ _ => trivial

/-- What each round keeps holds of the result of a loop. -/
theorem Yields.foldUpto {n : Nat} {a : α} {body : Nat → α → Cmd A V α} {I : Nat → α → Prop}
    (h0 : I 0 a) (h : ∀ i < n, ∀ a, I i a → Yields dom (I (i + 1)) (body i a)) :
    Yields dom (I n) (Cmd.foldUpto n a body) := by
  induction n with
  | zero => exact .done h0
  | succ n ih =>
    exact (ih fun i hi => h i (Nat.lt_succ_of_lt hi)).bind fun a ha => h n (Nat.lt_succ_self n) a ha

/-! ## Cells that stay unwritten -/

variable (dom) (U : Set A)

/-- From every memory in which no cell of `U` is written the program faults, or it ends and has still
    written none of them. -/
def Leaves (f : Cmd A V α) : Prop :=
  ∀ m : A → Option V, (∀ c ∈ U, m c = none) →
    match f.run dom m with
    | .done _ t => ∀ c ∈ U, t c = none
    | .stuck => False
    | .fault => True

/-- From every memory in which no cell of `U` is written the program faults. -/
def Faults (f : Cmd A V α) : Prop :=
  ∀ m : A → Option V, (∀ c ∈ U, m c = none) → f.run dom m = .fault

variable {dom U}

theorem Leaves.not_stuck {f : Cmd A V α} (h : Leaves dom ∅ f) (m : A → Option V) :
    f.run dom m ≠ .stuck := by
  intro hstuck
  have := h m nofun
  rw [hstuck] at this
  exact this

theorem Leaves.done (a : α) : Leaves dom U (.done a : Cmd A V α) := fun _ hm => hm

theorem Leaves.ofOption_some {o : Option α} {a : α} (h : o = some a) :
    Leaves dom U (Cmd.ofOption o : Cmd A V α) := by
  rw [h]
  exact .done a

theorem Leaves.bind {f : Cmd A V α} {g : α → Cmd A V β} (hf : Leaves dom U f)
    (hg : ∀ a, Leaves dom U (g a)) : Leaves dom U (f.bind g) := by
  intro m hm
  have hfm := hf m hm
  rw [run_bind]
  cases hrun : f.run dom m with
  | done a t => rw [hrun] at hfm; exact hg a t hfm
  | stuck => rw [hrun] at hfm; exact hfm
  | fault => trivial

theorem Leaves.get (c : A) : Leaves dom U (Cmd.get c : Cmd A V V) := by
  intro m hm
  rw [Cmd.get, run]
  by_cases hc : dom c = true
  · rw [if_pos hc]
    cases m c with
    | none => trivial
    | some v => exact hm
  · rw [if_neg hc]
    trivial

theorem Leaves.set {c : A} (v : V) (hc : c ∉ U) : Leaves dom U (Cmd.set c v) := by
  intro m hm
  rw [Cmd.set, run]
  by_cases hdom : dom c = true
  · rw [if_pos hdom]
    intro c' hc'
    rw [store, if_neg fun he : c' = c => hc (he ▸ hc')]
    exact hm c' hc'
  · rw [if_neg hdom]
    trivial

theorem Leaves.forUpto {n : Nat} {body : Nat → Cmd A V Unit} (h : ∀ i < n, Leaves dom U (body i)) :
    Leaves dom U (Cmd.forUpto n body) := by
  induction n with
  | zero => exact .done ()
  | succ n ih =>
    exact (ih fun i hi => h i (Nat.lt_succ_of_lt hi)).bind fun _ => h n (Nat.lt_succ_self n)

theorem Leaves.foldUpto {n : Nat} {a : α} {body : Nat → α → Cmd A V α}
    (h : ∀ i < n, ∀ a, Leaves dom U (body i a)) : Leaves dom U (Cmd.foldUpto n a body) := by
  induction n with
  | zero => exact .done a
  | succ n ih =>
    exact (ih fun i hi => h i (Nat.lt_succ_of_lt hi)).bind fun a => h n (Nat.lt_succ_self n) a

theorem Faults.get {c : A} (hc : c ∈ U) : Faults dom U (Cmd.get c : Cmd A V V) := by
  intro m hm
  rw [Cmd.get, run, hm c hc]
  split <;> rfl

theorem Faults.set {c : A} (v : V) (hc : dom c = false) : Faults dom U (Cmd.set c v) := by
  intro m _
  rw [Cmd.set, run, hc]
  rfl

theorem Faults.bind {f : Cmd A V α} (hf : Faults dom U f) (g : α → Cmd A V β) :
    Faults dom U (f.bind g) := by
  intro m hm
  rw [run_bind, hf m hm]

theorem Leaves.bind_faults {f : Cmd A V α} {g : α → Cmd A V β} (hf : Leaves dom U f)
    (hg : ∀ a, Faults dom U (g a)) : Faults dom U (f.bind g) := by
  intro m hm
  have hfm := hf m hm
  rw [run_bind]
  cases hrun : f.run dom m with
  | done a t => rw [hrun] at hfm; exact hg a t hfm
  | stuck => rw [hrun] at hfm; exact hfm.elim
  | fault => rfl

/-- A loop faults if one of its rounds does. -/
theorem Faults.forUpto {n k : Nat} {body : Nat → Cmd A V Unit} (hk : k < n)
    (hbefore : ∀ i < k, Leaves dom U (body i)) (hfault : Faults dom U (body k)) :
    Faults dom U (Cmd.forUpto n body) := by
  induction n with
  | zero => cases hk
  | succ n ih =>
    rcases Nat.lt_succ_iff_lt_or_eq.mp hk with hlt | rfl
    · exact (ih hlt).bind _
    · exact (Leaves.forUpto hbefore).bind_faults fun _ => hfault

end run

end Cmd

end ProgLib
