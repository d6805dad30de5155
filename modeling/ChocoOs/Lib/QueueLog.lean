import Mathlib.Data.List.Basic

/-!
# What became of everything that was pushed

The history of a bounded queue as a list of all pushes, each with its fate. An entry is in the queue
while it is pending or leaving: a flush first marks what is pending, and takes it out later. The
queue has room for `cap` entries; a push into a full queue is dropped.
-/

namespace ProgLib

/-- What became of a push. -/
inductive Fate where
  | pending
  | leaving
  | returned
  | flushed
  | dropped
  deriving DecidableEq

/-- The entry is still in the queue. -/
def Fate.inside : Fate → Bool
  | .pending | .leaving => true
  | _ => false

def Fate.mark : Fate → Fate
  | .pending => .leaving
  | f => f

def Fate.clear : Fate → Fate
  | .leaving => .flushed
  | f => f

/-- All pushes, the oldest first. -/
abbrev QueueLog (α : Type) := List (α × Fate)

namespace QueueLog

variable {α : Type}

/-- What is in the queue. -/
def inside (log : QueueLog α) : List α := (log.filter (·.2.inside)).map Prod.fst

/-- The entries with this fate. -/
def having (log : QueueLog α) (f : Fate) : List α := (log.filter (·.2 = f)).map Prod.fst

def push (cap : Nat) (log : QueueLog α) (a : α) : QueueLog α :=
  log ++ [(a, if log.inside.length = cap then .dropped else .pending)]

/-- The oldest pending entry is returned. -/
def pop : QueueLog α → QueueLog α
  | [] => []
  | (a, .pending) :: log => (a, .returned) :: log
  | q :: log => q :: pop log

/-- A flush marks what is pending. -/
def mark (log : QueueLog α) : QueueLog α :=
  log.map fun q => (q.1, q.2.mark)

/-- What is marked leaves. -/
def clear (log : QueueLog α) : QueueLog α :=
  log.map fun q => (q.1, q.2.clear)

/-- Nothing is returned behind something in the queue, nothing leaves behind something pending. -/
def Ordered (log : QueueLog α) : Prop :=
  log.Pairwise fun a b => (b.2 = .returned → a.2.inside = false) ∧ (b.2 = .leaving → a.2 ≠ .pending)

/-- No flush is under way. -/
def Steady (log : QueueLog α) : Prop := ∀ q ∈ log, q.2 ≠ .leaving

@[simp] theorem inside_nil : inside ([] : QueueLog α) = [] := rfl

theorem inside_cons (q : α × Fate) (log : QueueLog α) :
    inside (q :: log) = if q.2.inside then q.1 :: log.inside else log.inside := by
  rw [inside, List.filter_cons]
  split <;> rfl

theorem having_cons (q : α × Fate) (log : QueueLog α) (f : Fate) :
    having (q :: log) f = if q.2 = f then q.1 :: log.having f else log.having f := by
  rw [having, List.filter_cons]
  by_cases h : q.2 = f
  · rw [if_pos h, if_pos (by simpa using h)]
    rfl
  · rw [if_neg h, if_neg (by simpa using h)]
    rfl

theorem inside_append (log log' : QueueLog α) : inside (log ++ log') = log.inside ++ log'.inside := by
  rw [inside, List.filter_append, List.map_append]
  rfl

theorem having_append (log log' : QueueLog α) (f : Fate) :
    having (log ++ log') f = log.having f ++ log'.having f := by
  rw [having, List.filter_append, List.map_append]
  rfl

/-! ## Pushing -/

section push

variable (cap : Nat) (log : QueueLog α) (a : α)

theorem inside_push : (push cap log a).inside =
    if log.inside.length = cap then log.inside else log.inside ++ [a] := by
  rw [push, inside_append]
  split
  · exact List.append_nil _
  · rfl

theorem having_push {f : Fate} (hf : f = .returned ∨ f = .leaving) :
    (push cap log a).having f = log.having f := by
  rw [push, having_append, having_cons, if_neg]
  · exact List.append_nil _
  · rcases hf with rfl | rfl <;> (split <;> exact Fate.noConfusion)

theorem ordered_push (h : log.Ordered) : (push cap log a).Ordered := by
  refine List.pairwise_append.mpr ⟨h, List.pairwise_singleton _ _, fun p _ q hq => ?_⟩
  obtain rfl := List.mem_singleton.mp hq
  constructor
  · intro hret
    split at hret <;> cases hret
  · intro hleave
    split at hleave <;> cases hleave

theorem steady_push (h : log.Steady) : (push cap log a).Steady := by
  intro q hq
  rcases List.mem_append.mp hq with hq | hq
  · exact h q hq
  · obtain rfl := List.mem_singleton.mp hq
    intro hl
    split at hl <;> cases hl

end push

/-! ## Returning -/

theorem inside_pop {log : QueueLog α} (h : log.Steady) : (pop log).inside = log.inside.tail := by
  induction log with
  | nil => rfl
  | cons q log ih =>
    obtain ⟨a, f⟩ := q
    have hrest := ih fun q hq => h q (List.mem_cons_of_mem _ hq)
    have hne : f ≠ .leaving := h (a, f) (List.mem_cons_self ..)
    cases f with
    | pending => rfl
    | leaving => exact absurd rfl hne
    | _ => simpa [pop, inside_cons, Fate.inside] using hrest

/-- Behind something in the queue nothing has been returned. -/
theorem having_returned_of_pending {a : α} {log : QueueLog α}
    (h : Ordered ((a, .pending) :: log)) : log.having .returned = [] := by
  rw [having, List.map_eq_nil_iff, List.filter_eq_nil_iff]
  intro q hq hret
  have := ((List.pairwise_cons.mp h).1 q hq).1 (by simpa using hret)
  cases this

theorem returned_pop {log : QueueLog α} (h : log.Ordered) (hs : log.Steady) :
    (pop log).having .returned = log.having .returned ++ log.inside.head?.toList := by
  induction log with
  | nil => rfl
  | cons q log ih =>
    obtain ⟨a, f⟩ := q
    have hrest := ih (List.pairwise_cons.mp h).2 fun q hq => hs q (List.mem_cons_of_mem _ hq)
    have hne : f ≠ .leaving := hs (a, f) (List.mem_cons_self ..)
    cases f with
    | pending =>
      have hnone := having_returned_of_pending h
      rw [pop, having_cons, having_cons, if_pos rfl, if_neg Fate.noConfusion, hnone, inside_cons]
      rfl
    | leaving => exact absurd rfl hne
    | _ => simpa [pop, having_cons, inside_cons, Fate.inside] using hrest

theorem mem_pop {log : QueueLog α} {q : α × Fate} (hq : q ∈ pop log) :
    q ∈ log ∨ q.2 = .returned := by
  induction log with
  | nil => exact .inl hq
  | cons p log ih =>
    obtain ⟨a, f⟩ := p
    cases f with
    | pending =>
      rcases List.mem_cons.mp hq with rfl | hq
      · exact .inr rfl
      · exact .inl (List.mem_cons_of_mem _ hq)
    | _ =>
      rcases List.mem_cons.mp hq with rfl | hq
      · exact .inl (List.mem_cons_self ..)
      · exact (ih hq).imp (List.mem_cons_of_mem _) id

theorem steady_pop {log : QueueLog α} (h : log.Steady) : (pop log).Steady := by
  intro q hq
  rcases mem_pop hq with hq | hret
  · exact h q hq
  · rw [hret]
    decide

theorem ordered_pop {log : QueueLog α} (h : log.Ordered) (hs : log.Steady) : (pop log).Ordered := by
  induction log with
  | nil => exact h
  | cons p log ih =>
    obtain ⟨a, f⟩ := p
    obtain ⟨hhead, htail⟩ := List.pairwise_cons.mp h
    have hs' : Steady log := fun q hq => hs q (List.mem_cons_of_mem _ hq)
    have hne : f ≠ .leaving := hs (a, f) (List.mem_cons_self ..)
    cases f with
    | pending =>
      refine List.pairwise_cons.mpr ⟨fun q hq => ⟨fun _ => rfl, fun hl => absurd hl (hs' q hq)⟩, htail⟩
    | leaving => exact absurd rfl hne
    | _ =>
      refine List.pairwise_cons.mpr ⟨fun q hq => ⟨fun _ => rfl, fun _ => ?_⟩, ih htail hs'⟩
      exact Fate.noConfusion

/-! ## Flushing -/

theorem inside_map {log : QueueLog α} {g : Fate → Fate} (hg : ∀ f, (g f).inside = f.inside) :
    inside (log.map fun q => (q.1, g q.2)) = log.inside := by
  induction log with
  | nil => rfl
  | cons q log ih => rw [List.map_cons, inside_cons, inside_cons, hg, ih]

theorem inside_mark (log : QueueLog α) : (mark log).inside = log.inside :=
  inside_map fun f => by cases f <;> rfl

theorem returned_map {log : QueueLog α} {g : Fate → Fate}
    (hg : ∀ f, g f = .returned ↔ f = .returned) :
    having (log.map fun q => (q.1, g q.2)) .returned = log.having .returned := by
  induction log with
  | nil => rfl
  | cons q log ih =>
    rw [List.map_cons, having_cons, having_cons, ih]
    exact if_congr (hg q.2) rfl rfl

theorem returned_mark (log : QueueLog α) : (mark log).having .returned = log.having .returned :=
  returned_map fun f => by cases f <;> decide

theorem returned_clear (log : QueueLog α) : (clear log).having .returned = log.having .returned :=
  returned_map fun f => by cases f <;> decide

/-- A flush marks everything in the queue. -/
theorem leaving_mark (log : QueueLog α) : (mark log).having .leaving = log.inside := by
  induction log with
  | nil => rfl
  | cons q log ih =>
    obtain ⟨a, f⟩ := q
    rw [mark, List.map_cons, having_cons, inside_cons, ← mark, ih]
    cases f <;> rfl

/-- Both are steps of single fates, and keep what has been returned apart from the queue. -/
theorem ordered_map {log : QueueLog α} {g : Fate → Fate} (h : log.Ordered)
    (hret : ∀ f, g f = .returned → f = .returned)
    (hin : ∀ f, f.inside = false → (g f).inside = false)
    (hleave : (∀ f, g f ≠ .pending) ∨ ∀ f, g f ≠ .leaving) :
    Ordered (log.map fun q => (q.1, g q.2)) := by
  refine List.pairwise_map.mpr (h.imp fun {a b} hab => ⟨fun hb => ?_, fun hb => ?_⟩)
  · exact hin _ (hab.1 (hret _ hb))
  · rcases hleave with hp | hl
    · exact hp _
    · exact absurd hb (hl _)

theorem ordered_mark {log : QueueLog α} (h : log.Ordered) : (mark log).Ordered :=
  ordered_map h (by intro f; cases f <;> decide) (by intro f; cases f <;> decide)
    (.inl (by intro f; cases f <;> decide))

theorem ordered_clear {log : QueueLog α} (h : log.Ordered) : (clear log).Ordered :=
  ordered_map h (by intro f; cases f <;> decide) (by intro f; cases f <;> decide)
    (.inr (by intro f; cases f <;> decide))

theorem steady_clear (log : QueueLog α) : (clear log).Steady := by
  intro q hq
  obtain ⟨⟨a, f⟩, -, rfl⟩ := List.mem_map.mp hq
  cases f <;> exact Fate.noConfusion

/-- What leaves stands first in the queue. -/
theorem inside_clear {log : QueueLog α} (h : log.Ordered) :
    log.inside = log.having .leaving ++ (clear log).inside := by
  induction log with
  | nil => rfl
  | cons q log ih =>
    obtain ⟨a, f⟩ := q
    obtain ⟨hhead, htail⟩ := List.pairwise_cons.mp h
    have hrest := ih htail
    rw [clear, List.map_cons, having_cons, inside_cons, inside_cons, ← clear]
    cases f with
    | pending =>
      -- nothing behind it leaves
      have hnone : having log .leaving = [] := by
        rw [having, List.map_eq_nil_iff, List.filter_eq_nil_iff]
        intro q hq hleave
        exact (hhead q hq).2 (by simpa using hleave) rfl
      rw [hnone, List.nil_append] at hrest
      simp [Fate.inside, Fate.clear, hnone, ← hrest]
    | leaving => simpa [Fate.inside, Fate.clear] using hrest
    | _ => simpa [Fate.inside, Fate.clear] using hrest

end QueueLog

end ProgLib
