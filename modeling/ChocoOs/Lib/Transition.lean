/-!
# Reachable states and invariants

A system is given by its initial states and its step relation. An invariant is shown once
per system: it holds initially and every step keeps it (`Reach.invariant`).
-/

namespace ProgLib

section reach

variable {σ : Type}

/-- The states that some run from an initial state visits. -/
inductive Reach (init : σ → Prop) (step : σ → σ → Prop) : σ → Prop
  | init {s : σ} : init s → Reach init step s
  | step {s t : σ} : Reach init step s → step s t → Reach init step t

theorem Reach.invariant {init : σ → Prop} {step : σ → σ → Prop} {I : σ → Prop}
    (start : ∀ s, init s → I s) (keep : ∀ s t, I s → step s t → I t) {s : σ}
    (h : Reach init step s) : I s := by
  induction h with
  | init h0 => exact start _ h0
  | step _ hst ih => exact keep _ _ ih hst

/-- A list of events that are all possible leads from a reachable state to a reachable state. -/
theorem Reach.foldlM {ε : Type} {init : σ → Prop} {step : σ → ε → Option σ} {s t : σ} {es : List ε}
    (hs : Reach init (fun s t => ∃ e, step s e = some t) s) (h : es.foldlM step s = some t) :
    Reach init (fun s t => ∃ e, step s e = some t) t := by
  induction es generalizing s with
  | nil => cases h; exact hs
  | cons e es ih =>
    rw [List.foldlM_cons, Option.bind_eq_bind, Option.bind_eq_some_iff] at h
    obtain ⟨u, hstep, hrest⟩ := h
    exact ih (.step hs ⟨e, hstep⟩) hrest

end reach

/-!
## Runs of a deterministic system

A run is a list of events. `Always` says that a property holds in every state that the run visits,
`Admitted` that every event meets a condition in the state that it finds. Where an invariant is
kept by the events that meet the condition, and every other event breaks the property, the two are
the same (`always_iff_admitted`).
-/

section trace

variable {σ ε : Type} (step : σ → ε → σ)

/-- `P` holds in the state and in every state after it. -/
def Always (P : σ → Prop) : σ → List ε → Prop
  | s, [] => P s
  | s, e :: es => P s ∧ Always P (step s e) es

/-- Every event meets `ok` in the state before it. -/
def Admitted (ok : σ → ε → Prop) : σ → List ε → Prop
  | _, [] => True
  | s, e :: es => ok s e ∧ Admitted ok (step s e) es

instance decidableAdmitted (ok : σ → ε → Prop) [∀ s e, Decidable (ok s e)] :
    ∀ s es, Decidable (Admitted step ok s es)
  | _, [] => .isTrue trivial
  | s, e :: es => @instDecidableAnd _ _ _ (decidableAdmitted ok (step s e) es)

variable {step} {P I : σ → Prop} {ok : σ → ε → Prop}

theorem Always.head {s : σ} {es : List ε} (h : Always step P s es) : P s := by
  cases es with
  | nil => exact h
  | cons e es => exact h.1

theorem Always.last {s : σ} {es : List ε} (h : Always step P s es) : P (es.foldl step s) := by
  induction es generalizing s with
  | nil => exact h
  | cons e es ih => exact ih h.2

theorem Admitted.and {ok' : σ → ε → Prop} {s : σ} {es : List ε} (h : Admitted step ok s es)
    (h' : Admitted step ok' s es) : Admitted step (fun s e => ok s e ∧ ok' s e) s es := by
  induction es generalizing s with
  | nil => trivial
  | cons e es ih => exact ⟨⟨h.1, h'.1⟩, ih h.2 h'.2⟩

/-- An invariant that the admitted events keep holds all along. -/
theorem always_of_admitted (keep : ∀ s e, I s → ok s e → I (step s e)) (sound : ∀ s, I s → P s)
    {s : σ} {es : List ε} (hs : I s) (h : Admitted step ok s es) : Always step P s es := by
  induction es generalizing s with
  | nil => exact sound s hs
  | cons e es ih => exact ⟨sound s hs, ih (keep s e hs h.1) h.2⟩

/-- An event that is not admitted breaks the property. -/
theorem always_iff_admitted (keep : ∀ s e, I s → ok s e → I (step s e)) (sound : ∀ s, I s → P s)
    (fails : ∀ s e, I s → ¬ ok s e → ¬ P (step s e)) {s : σ} {es : List ε} (hs : I s) :
    Always step P s es ↔ Admitted step ok s es := by
  refine ⟨fun h => ?_, always_of_admitted keep sound hs⟩
  induction es generalizing s with
  | nil => trivial
  | cons e es ih =>
    have hok : ok s e := Classical.byContradiction fun hnot => fails s e hs hnot h.2.head
    exact ⟨hok, ih (keep s e hs hok) h.2⟩

/-- A property of every state is one of every run. -/
theorem always_of_invariant (keep : ∀ s e, I s → I (step s e)) (sound : ∀ s, I s → P s) {s : σ}
    (hs : I s) (es : List ε) : Always step P s es := by
  induction es generalizing s with
  | nil => exact sound s hs
  | cons e es ih => exact ⟨sound s hs, ih (keep s e hs)⟩

end trace

/-!
## Runs of a partial system with outputs

A step may be impossible; otherwise it has an output and leads to a state. A run is a list of events, and
`EachStep` says that all of them are possible and what holds of each.
-/

section mealy

variable {σ ε ω : Type} (step : σ → ε → Option (ω × σ))

/-- Every event is possible, and `P` holds of the state before it, the event, its output and the state
    after it. -/
def EachStep (P : σ → ε → ω → σ → Prop) : σ → List ε → Prop
  | _, [] => True
  | s, e :: es => ∃ o t, step s e = some (o, t) ∧ P s e o t ∧ EachStep P t es

/-- The state after a run. -/
def finalState : σ → List ε → Option σ
  | s, [] => some s
  | s, e :: es => (step s e).bind fun r => finalState r.2 es

variable {step} {P ok : σ → ε → ω → σ → Prop} {I : σ → Prop}

/-- Each step has the property if and only if each meets the condition, where a step that meets it keeps the
    invariant and has the property, and a step that does not meet it does not have the property. -/
theorem eachStep_iff (possible : ∀ s e, I s → ∃ o t, step s e = some (o, t))
    (keep : ∀ s e o t, I s → step s e = some (o, t) → ok s e o t → I t ∧ P s e o t)
    (fails : ∀ s e o t, I s → step s e = some (o, t) → ¬ ok s e o t → ¬ P s e o t) {s : σ} {es : List ε}
    (hs : I s) : EachStep step P s es ↔ EachStep step ok s es := by
  induction es generalizing s with
  | nil => exact Iff.rfl
  | cons e es ih =>
    obtain ⟨o, t, hstep⟩ := possible s e hs
    constructor
    · rintro ⟨o', t', hstep', hP, hrest⟩
      have hok : ok s e o' t' := Classical.byContradiction fun hnot => fails s e o' t' hs hstep' hnot hP
      have ht := (keep s e o' t' hs hstep' hok).1
      exact ⟨o', t', hstep', hok, (ih ht).mp hrest⟩
    · rintro ⟨o', t', hstep', hok, hrest⟩
      obtain ⟨ht, hP⟩ := keep s e o' t' hs hstep' hok
      exact ⟨o', t', hstep', hP, (ih ht).mpr hrest⟩

/-- A last event is possible where the run before it has led. -/
theorem EachStep.snoc {s : σ} {es : List ε} {e : ε} (h : EachStep step P s (es ++ [e])) {t : σ}
    (ht : finalState step s es = some t) :
    ∃ o u, step t e = some (o, u) ∧ P t e o u ∧ finalState step s (es ++ [e]) = some u := by
  induction es generalizing s with
  | nil =>
    cases ht
    obtain ⟨o, u, hstep, hP, -⟩ := h
    exact ⟨o, u, hstep, hP, by rw [List.nil_append, finalState, hstep]; rfl⟩
  | cons e' es ih =>
    obtain ⟨o', t', hstep', -, hrest⟩ := h
    rw [finalState, hstep', Option.bind_some] at ht
    obtain ⟨o, u, hstep, hP, hfinal⟩ := ih hrest ht
    exact ⟨o, u, hstep, hP, by rw [List.cons_append, finalState, hstep', Option.bind_some, hfinal]⟩

end mealy

end ProgLib
