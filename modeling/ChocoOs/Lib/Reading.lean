/-!
# Programs that only read

Another thread may write the cells while such a program runs, so that each access sees the memory
of its own time. `finish` is the result that is still to come if the cells stay as they are now: an
access changes nothing about it.
-/

namespace ProgLib

/-- A program that reads cells; the cell `c` holds a value of type `V c`. `stuck` has no result. -/
inductive Reading {A : Type} (V : A → Type) (α : Type) where
  | done (a : α)
  | stuck
  | read (c : A) (k : V c → Reading V α)

namespace Reading

variable {A α β : Type} {V : A → Type}

def bind : Reading V α → (α → Reading V β) → Reading V β
  | .done a, g => g a
  | .stuck, _ => .stuck
  | .read c k, g => .read c fun v => (k v).bind g

instance : Monad (Reading V) where
  pure := .done
  bind := Reading.bind

/-- The value of a cell. -/
def get (c : A) : Reading V (V c) := .read c .done

/-- The result over a memory that does not change. -/
def finish (m : ∀ c, V c) : Reading V α → Option α
  | .done a => some a
  | .stuck => none
  | .read c k => (k (m c)).finish m

section finish

variable (m : ∀ c, V c)

@[simp] theorem finish_pure (a : α) : (pure a : Reading V α).finish m = some a := rfl

@[simp] theorem finish_get (c : A) : (get c : Reading V (V c)).finish m = some (m c) := rfl

@[simp] theorem finish_bind (x : Reading V α) (g : α → Reading V β) :
    (x >>= g).finish m = (x.finish m).bind fun a => (g a).finish m := by
  show (x.bind g).finish m = _
  induction x with
  | done a => rfl
  | stuck => rfl
  | read c k ih => exact ih (m c)

end finish

end Reading

end ProgLib
