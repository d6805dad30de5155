import ChocoOs.Lib.CString
import Mathlib.Data.List.TakeWhile

/-!
# Cursors in a C string

A cursor is an index; the terminator is the last byte that may be read. A scan moves the cursor over
the bytes that a step accepts. It does what it would do on the list of the bytes that are left, as
long as the step does not accept the terminator.
-/

namespace ProgLib

/-- The byte at an index. There is none behind the terminator. -/
def byteAt (s : List UInt8) (i : Nat) : Option UInt8 := (s ++ [0])[i]?

theorem byteAt_eq {s : List UInt8} {i : Nat} (h : i ≤ s.length) :
    byteAt s i = some ((s.drop i).headD 0) := by
  rw [byteAt]
  rcases Nat.lt_or_eq_of_le h with hlt | rfl
  · rw [List.getElem?_append_left hlt, List.getElem?_eq_getElem hlt, List.drop_eq_getElem_cons hlt]
    rfl
  · rw [List.getElem?_append_right (Nat.le_refl _), Nat.sub_self, List.drop_length]
    rfl

variable {σ : Type} (f : σ → UInt8 → Option σ)

/-- `while (f accepts *p) p++;`, for at most as many rounds. -/
def scanAt (s : List UInt8) : Nat → σ → Nat → Option (σ × Nat)
  | 0, _, _ => none
  | n + 1, a, i => do
    let c ← byteAt s i
    match f a c with
    | some a => scanAt s n a (i + 1)
    | none => return (a, i)

/-- The same on the bytes that are left. -/
def scanList : σ → List UInt8 → σ × List UInt8
  | a, [] => (a, [])
  | a, c :: cs =>
    match f a c with
    | some a => scanList a cs
    | none => (a, c :: cs)

variable {f}

theorem scanAt_eq (hstop : ∀ a, f a 0 = none) {s : List UInt8} :
    ∀ {n : Nat} {a : σ} {i : Nat}, i ≤ s.length → s.length < i + n →
      ∃ a' j, i ≤ j ∧ j ≤ s.length ∧ scanAt f s n a i = some (a', j) ∧
        scanList f a (s.drop i) = (a', s.drop j) := by
  intro n
  induction n with
  | zero =>
    intro a i hi hn
    omega
  | succ n ih =>
    intro a i hi hn
    rw [scanAt, byteAt_eq hi]
    rcases Nat.lt_or_eq_of_le hi with hlt | rfl
    · rw [List.drop_eq_getElem_cons hlt, List.headD_cons, scanList, Option.bind_eq_bind,
        Option.bind_some]
      cases haccept : f a s[i] with
      | none => exact ⟨a, i, Nat.le_refl i, hi, rfl, by rw [List.drop_eq_getElem_cons hlt]⟩
      | some a' =>
        obtain ⟨a'', j, hij, hj, hscan, hlist⟩ := ih (a := a') (i := i + 1) hlt (by omega)
        exact ⟨a'', j, Nat.le_of_succ_le hij, hj, hscan, hlist⟩
    · rw [List.drop_length, List.headD_nil, Option.bind_eq_bind, Option.bind_some, hstop]
      refine ⟨a, s.length, Nat.le_refl _, Nat.le_refl _, rfl, ?_⟩
      rw [List.drop_length]
      rfl

/-- What a scan leaves is a part of what it was given. -/
theorem scanList_length (a : σ) (cs : List UInt8) : (scanList f a cs).2.length ≤ cs.length := by
  induction cs generalizing a with
  | nil => exact Nat.le_refl _
  | cons c cs ih =>
    rw [scanList]
    cases f a c with
    | none => exact Nat.le_refl _
    | some a' => exact Nat.le_succ_of_le (ih a')

/-!
## Decimal numerals

The value of a string of decimal digits, read from the left.
-/

section numeral

def isDigit (c : UInt8) : Bool := decide (48 ≤ c ∧ c ≤ 57)

/-- What reading digits makes of a value. -/
def decimalFrom (v : Nat) (ds : List UInt8) : Nat := ds.foldl (fun v c => v * 10 + (c.toNat - 48)) v

/-- The value of a numeral. -/
def decimal (ds : List UInt8) : Nat := decimalFrom 0 ds

theorem decimalFrom_cons (v : Nat) (c : UInt8) (ds : List UInt8) :
    decimalFrom v (c :: ds) = decimalFrom (v * 10 + (c.toNat - 48)) ds := List.foldl_cons ..

theorem decimal_concat (ds : List UInt8) (c : UInt8) :
    decimal (ds ++ [c]) = decimal ds * 10 + (c.toNat - 48) := by
  rw [decimal, decimalFrom, List.foldl_append]
  rfl

/-- More digits never make a value smaller. -/
theorem le_decimalFrom (ds : List UInt8) : ∀ v, v ≤ decimalFrom v ds := by
  induction ds with
  | nil => exact Nat.le_refl
  | cons c ds ih =>
    intro v
    have hstep := ih (v * 10 + (c.toNat - 48))
    rw [decimalFrom_cons]
    omega

/-- The digits at the beginning of a string, and what follows them. -/
theorem takeWhile_digits {ds rest : List UInt8} (hds : ∀ c ∈ ds, isDigit c = true)
    (hrest : ∀ c ∈ rest.head?, ¬ isDigit c = true) : (ds ++ rest).takeWhile isDigit = ds := by
  rw [List.takeWhile_append_of_pos hds]
  cases rest with
  | nil => rw [List.takeWhile_nil, List.append_nil]
  | cons c rest =>
    rw [List.takeWhile_cons_of_neg (hrest c rfl), List.append_nil]

end numeral

end ProgLib
