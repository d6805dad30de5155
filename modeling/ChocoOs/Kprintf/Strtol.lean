import ChocoOs.Kprintf.Integers

/-!
# Printing and parsing

`strtol` of `string.c`. It reads back what `%ld`, `%lx` and `%lX` print.
-/

namespace ChocoOs.Kprintf
open ProgLib

/-! ## `strtol` -/

/-- The digit that a character stands for (`string.c:147-155`). -/
def strtolDigit (c : UInt8) : Option Nat :=
  if 48 ≤ c ∧ c ≤ 57 then some (c.toNat - 48)
  else if 97 ≤ c ∧ c ≤ 122 then some (c.toNat - 97 + 10)
  else if 65 ≤ c ∧ c ≤ 90 then some (c.toNat - 65 + 10)
  else none

/-- One round of the loop over the digits (`string.c:144-159`). -/
def digitStep (base : Nat) (val : UInt64) (c : UInt8) : Option UInt64 :=
  match strtolDigit c with
  | some d => if d < base then some (val * UInt64.ofNat base + UInt64.ofNat d) else none
  | none => none

/-- The sign (`string.c:123-132`). -/
def strtolSign (s : List UInt8) : Bool × List UInt8 :=
  match s with
  | [] => (false, [])
  | c :: s => if c = 45 then (true, s) else if c = 43 then (false, s) else (false, c :: s)

/-- The prefix of the base (`string.c:134-142`). -/
def strtolBase (base : Nat) (s : List UInt8) : Nat × List UInt8 :=
  if (base = 0 ∨ base = 16) ∧ s.head? = some 48 ∧ (s[1]? = some 120 ∨ s[1]? = some 88) then
    (16, s.drop 2)
  else if base = 0 then (if s.head? = some 48 then 8 else 10, s)
  else (base, s)

/-- `strtol` (`string.c:118-164`): the value modulo 2^64, and the string from `end` on. -/
def strtol (s : List UInt8) (base : Nat) : UInt64 × List UInt8 :=
  let s := s.dropWhile fun c => c == 32 || c == 9
  let (neg, s) := strtolSign s
  let (base, s) := strtolBase base s
  let (val, s) := scanList (digitStep base) 0 s
  (if neg then -val else val, s)

/-! ## Digits -/

theorem strtolDigit_digitChar (upper : Bool) {d : Nat} (h : d < 16) :
    strtolDigit (digitChar upper d) = some d := by
  have hall : ∀ (u : Bool) (d : Fin 16), strtolDigit (digitChar u d.1) = some d.1 := by decide
  exact hall upper ⟨d, h⟩

theorem scan_digits {base : Nat} (hbase : base ≤ 16) (upper : Bool) (ds : List Nat)
    (hds : ∀ d ∈ ds, d < base) : ∀ v : Nat,
    scanList (digitStep base) (UInt64.ofNat v) (ds.map (digitChar upper)) =
      (UInt64.ofNat (ds.foldl (fun v d => v * base + d) v), []) := by
  induction ds with
  | nil => exact fun _ => rfl
  | cons d ds ih =>
    intro v
    have hd := hds d (List.mem_cons_self ..)
    rw [List.map_cons, scanList, digitStep, strtolDigit_digitChar upper (Nat.lt_of_lt_of_le hd hbase)]
    simp only [if_pos hd]
    rw [← UInt64.ofNat_mul, ← UInt64.ofNat_add, List.foldl_cons]
    exact ih (fun d' hd' => hds d' (List.mem_cons_of_mem _ hd')) _

/-- The digits of a number have its value. -/
theorem scan_cDigits {base : Nat} (hbase : 1 < base) (hle : base ≤ 16) (upper : Bool) (n : Nat) :
    scanList (digitStep base) 0 (cDigits base upper n) = (UInt64.ofNat n, []) := by
  rw [cDigits]
  by_cases h0 : n = 0
  · rw [if_pos h0, h0]
    have hone := scan_digits hle upper [0] (fun d hd => by
      rw [List.mem_singleton.mp hd]
      exact Nat.zero_lt_of_lt hbase) 0
    rw [List.foldl_cons, List.foldl_nil, Nat.zero_mul] at hone
    exact hone
  · have hall := scan_digits hle upper (Nat.digits base n).reverse
      (fun d hd => Nat.digits_lt_base hbase (List.mem_reverse.mp hd)) 0
    have hvalue : (Nat.digits base n).reverse.foldl (fun v d => v * base + d) 0 = n := by
      rw [List.foldl_reverse]
      refine Eq.trans ?_ (Nat.ofDigits_digits base n)
      rw [Nat.ofDigits_eq_foldr]
      refine congrArg (fun f => List.foldr f 0 _) (funext fun d => funext fun v => ?_)
      rw [Nat.cast_id, Nat.add_comm, Nat.mul_comm]
    rw [if_neg h0, ← List.map_reverse]
    rw [hvalue] at hall
    exact hall

/-- A numeral begins with a digit, and with a zero only if that is all of it. -/
theorem cDigits_cons {base : Nat} (hbase : 1 < base) (hle : base ≤ 16) (upper : Bool) (n : Nat) :
    ∃ d ds, d < 16 ∧ cDigits base upper n = digitChar upper d :: ds ∧ (d = 0 → ds = []) := by
  rw [cDigits]
  by_cases h0 : n = 0
  · rw [if_pos h0]
    exact ⟨0, [], by decide, rfl, fun _ => rfl⟩
  · rw [if_neg h0, ← List.map_reverse]
    have hne := Nat.digits_ne_nil_iff_ne_zero (b := base).mpr h0
    have hlast := Nat.getLast_digit_ne_zero base h0
    have hlt := Nat.digits_lt_base hbase (List.getLast_mem hne)
    have hhead := List.head?_reverse (l := Nat.digits base n)
    rw [List.getLast?_eq_getLast_of_ne_nil hne] at hhead
    cases hrev : (Nat.digits base n).reverse with
    | nil => rw [hrev] at hhead; cases hhead
    | cons d ds =>
      rw [hrev] at hhead
      obtain rfl := Option.some.inj hhead
      exact ⟨_, _, Nat.lt_of_lt_of_le hlt hle, rfl, fun h => absurd h hlast⟩

theorem digitChar_ne (upper : Bool) {d : Nat} (h : d < 16) :
    digitChar upper d ≠ 32 ∧ digitChar upper d ≠ 9 ∧ digitChar upper d ≠ 45 ∧
      digitChar upper d ≠ 43 ∧ (digitChar upper d = 48 → d = 0) := by
  have hall : ∀ (u : Bool) (d : Fin 16), digitChar u d.1 ≠ 32 ∧ digitChar u d.1 ≠ 9 ∧
      digitChar u d.1 ≠ 45 ∧ digitChar u d.1 ≠ 43 ∧ (digitChar u d.1 = 48 → d.1 = 0) := by decide
  exact hall upper ⟨d, h⟩

/-- Blanks, a sign and digits are read as the number. -/
theorem strtol_text (pad : Nat) (negative upper : Bool) {base : Nat} (hbase : base = 10 ∨ base = 16)
    (n : Nat) : strtol (List.replicate pad 32 ++ ((if negative then [45] else []) ++
      cDigits base upper n)) base =
        (if negative then -UInt64.ofNat n else UInt64.ofNat n, []) := by
  have hone : 1 < base := by omega
  have hle : base ≤ 16 := by omega
  obtain ⟨d, ds, hd, hdigits, hzero⟩ := cDigits_cons hone hle upper n
  obtain ⟨h32, h9, h45, h43, h48⟩ := digitChar_ne upper hd
  have hblank : (List.replicate pad 32 ++ ((if negative then [45] else []) ++
      cDigits base upper n)).dropWhile (fun c => c == 32 || c == 9) =
        (if negative then [45] else []) ++ cDigits base upper n := by
    rw [List.dropWhile_append_of_pos fun c hc => by rw [List.eq_of_mem_replicate hc]; rfl, hdigits]
    cases negative with
    | true => rfl
    | false =>
      refine List.dropWhile_cons_of_neg ?_
      simp [h32, h9]
  have hsign : strtolSign ((if negative then [45] else []) ++ cDigits base upper n) =
      (negative, cDigits base upper n) := by
    rw [hdigits]
    cases negative with
    | true => rfl
    | false =>
      show (if digitChar upper d = 45 then (true, ds) else if digitChar upper d = 43 then (false, ds)
        else (false, digitChar upper d :: ds)) = (false, digitChar upper d :: ds)
      rw [if_neg h45, if_neg h43]
  have hprefix : strtolBase base (cDigits base upper n) = (base, cDigits base upper n) := by
    have hno : ¬ ((base = 0 ∨ base = 16) ∧ (cDigits base upper n).head? = some 48 ∧
        ((cDigits base upper n)[1]? = some 120 ∨ (cDigits base upper n)[1]? = some 88)) := by
      rintro ⟨-, hhead, hx⟩
      rw [hdigits] at hhead hx
      rw [hzero (h48 (Option.some.inj hhead))] at hx
      rcases hx with hx | hx
      · cases hx
      · cases hx
    rw [strtolBase, if_neg hno, if_neg (by omega)]
  rw [strtol, hblank]
  simp only [hsign, hprefix, scan_cDigits hone hle]

/-! ## Reading back -/

/-- A word is given back by the magnitude and the sign of the number that it stands for. -/
theorem ofNat_natAbs (v : UInt64) :
    (if decide (signedArg 1 v < 0) then -UInt64.ofNat (signedArg 1 v).natAbs
      else UInt64.ofNat (signedArg 1 v).natAbs) = v := by
  have hint : signedArg 1 v = if 2 * v.toNat < 2 ^ 64 then (v.toNat : Int) else v.toNat - 2 ^ 64 :=
    BitVec.toInt_eq_toNat_cond v.toBitVec
  have hlt := v.toNat_lt
  apply UInt64.toNat_inj.mp
  by_cases hneg : signedArg 1 v < 0
  · rw [decide_eq_true hneg, if_pos rfl, UInt64.toNat_neg, UInt64.toNat_ofNat']
    have habs : (signedArg 1 v).natAbs = 2 ^ 64 - v.toNat := by
      rw [hint] at hneg ⊢
      split at hneg <;> omega
    have hpos : 0 < v.toNat := by
      rw [hint] at hneg
      split at hneg <;> omega
    have hmod : (2 ^ 64 - v.toNat) % 2 ^ 64 = 2 ^ 64 - v.toNat := Nat.mod_eq_of_lt (by omega)
    have hback : 2 ^ 64 - (2 ^ 64 - v.toNat) = v.toNat := Nat.sub_sub_self (Nat.le_of_lt hlt)
    rw [habs, hmod]
    show (2 ^ 64 - (2 ^ 64 - v.toNat)) % 2 ^ 64 = v.toNat
    rw [hback, Nat.mod_eq_of_lt hlt]
  · rw [decide_eq_false hneg, if_neg Bool.false_ne_true, UInt64.toNat_ofNat']
    have habs : (signedArg 1 v).natAbs = v.toNat := by
      rw [hint] at hneg ⊢
      split at hneg <;> omega
    rw [habs]
    exact Nat.mod_eq_of_lt hlt

/-- `strtol` reads back what `%ld` prints in a field of any width, and what `%lx` and `%lX` print. -/
theorem strtol_printed (v : UInt64) :
    (∀ width, ∃ text, Produces (directive [] width true .d) [.word v] text ∧
      strtol text 10 = (v, [])) ∧
    (∃ text, Produces (directive [] 0 true .x) [.word v] text ∧ strtol text 16 = (v, [])) ∧
    ∃ text, Produces (directive [] 0 true .X) [.word v] text ∧ strtol text 16 = (v, []) := by
  have hhex : ∀ upper : Bool, strtol (cInteger [] 0 false 16 upper v.toNat) 16 = (v, []) := by
    intro upper
    have htext := strtol_text 0 false upper (.inr rfl) v.toNat
    rw [cInteger_plain]
    exact htext.trans (congrArg (·, []) UInt64.ofNat_toNat)
  refine ⟨fun width => ?_, ⟨_, produces_text List.not_mem_nil 0 true .x v, hhex false⟩,
    ⟨_, produces_text List.not_mem_nil 0 true .X v, hhex true⟩⟩
  refine ⟨_, produces_text List.not_mem_nil width true .d v, ?_⟩
  have htext : IntConv.d.text [] width true v = List.replicate (width -
      ((if decide (signedArg 1 v < 0) then [(45 : UInt8)] else []).length +
        (cDigits 10 false (signedArg 1 v).natAbs).length)) 32 ++
      ((if decide (signedArg 1 v < 0) then [45] else []) ++
        cDigits 10 false (signedArg 1 v).natAbs) := List.append_assoc ..
  rw [htext, strtol_text _ _ _ (.inl rfl), ofNat_natAbs]

end ChocoOs.Kprintf
