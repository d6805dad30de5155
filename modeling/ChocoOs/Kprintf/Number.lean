import ChocoOs.Kprintf.Format
import ChocoOs.Lib.Scan

/-!
# Printed numbers

Text that fits is written as it is. A number is printed as its numeral.
-/

namespace ChocoOs.Kprintf
open ProgLib

/-! ## Text that fits -/

/-- The buffer behind a text. -/
def OutBuf.write (o : OutBuf) (t : List UInt8) : OutBuf :=
  { o with buf := o.buf.take o.pos ++ t ++ o.buf.drop (o.pos + t.length), pos := o.pos + t.length }

theorem OutBuf.write_length {o : OutBuf} {t : List UInt8} (h : o.pos + t.length ≤ o.buf.length) :
    (o.write t).buf.length = o.buf.length := by
  simp only [OutBuf.write, List.length_append, List.length_take, List.length_drop]
  omega

theorem OutBuf.write_append {o : OutBuf} {t u : List UInt8} (h : o.pos + t.length ≤ o.buf.length) :
    (o.write t).write u = o.write (t ++ u) := by
  have htake : (o.buf.take o.pos ++ t).length = o.pos + t.length := by
    rw [List.length_append, List.length_take]
    omega
  have hdrop : (o.buf.take o.pos ++ t ++ o.buf.drop (o.pos + t.length)).drop
      (o.pos + t.length + u.length) = o.buf.drop (o.pos + (t.length + u.length)) := by
    rw [← List.drop_drop, List.drop_left' htake, List.drop_drop, Nat.add_assoc]
  simp only [OutBuf.write, List.length_append, OutBuf.mk.injEq]
  refine ⟨?_, trivial, Nat.add_assoc ..⟩
  rw [List.take_left' htake, hdrop, List.append_assoc _ t u]

theorem outChar_fits {o : OutBuf} {c : UInt8} (hsize : o.size ≤ o.buf.length)
    (h : o.pos + 1 < o.size) : outChar o c = some (o.write [c]) := by
  have hlt : o.pos < o.buf.length := by omega
  rw [outChar, if_pos h, if_pos hlt, OutBuf.write, List.set_eq_take_append_cons_drop, if_pos hlt,
    List.append_assoc]
  rfl

/-- A text is written as far as there is room for it and the terminator. -/
theorem outString_eq {t : List UInt8} : ∀ {o : OutBuf}, o.size ≤ o.buf.length → outString o t =
    some { o.write (t.take (o.size - 1 - o.pos)) with pos := o.pos + t.length } := by
  induction t with
  | nil =>
    intro o _
    rw [List.take_nil, OutBuf.write, List.append_nil, List.length_nil, Nat.add_zero,
      List.take_append_drop]
    rfl
  | cons c t ih =>
    intro o hsize
    rw [outString, List.foldlM_cons, Option.bind_eq_bind]
    by_cases hroom : o.pos + 1 < o.size
    · have hone : o.pos + [c].length ≤ o.buf.length := Nat.le_trans (Nat.le_of_lt hroom) hsize
      have hrest := ih (o := o.write [c]) (by rw [OutBuf.write_length hone]; exact hsize)
      have hsucc : o.size - 1 - o.pos = (o.size - 1 - (o.pos + 1)) + 1 := by omega
      rw [outChar_fits hsize hroom, Option.bind_some, hsucc, List.take_succ_cons]
      refine hrest.trans ?_
      rw [OutBuf.write_append hone, List.length_cons, Nat.add_comm t.length, ← Nat.add_assoc]
      rfl
    · have hnone : o.size - 1 - o.pos = 0 := by omega
      have hnone' : o.size - 1 - (o.pos + 1) = 0 := by omega
      have hrest := ih (o := { o with pos := o.pos + 1 }) hsize
      have hbuf : ∀ p : Nat, o.buf.take p ++ [] ++ o.buf.drop (p + 0) = o.buf := by
        intro p
        rw [List.append_nil, Nat.add_zero, List.take_append_drop]
      rw [outChar, if_neg hroom, Option.bind_some, hnone, List.take_zero, OutBuf.write]
      refine hrest.trans ?_
      simp only [OutBuf.write, hnone', List.take_zero, List.length_nil, hbuf, List.length_cons]
      rw [Nat.add_comm t.length, Nat.add_assoc]

/-- A text that leaves room for the terminator is written as it is. -/
theorem outString_fits {t : List UInt8} {o : OutBuf} (hsize : o.size ≤ o.buf.length)
    (h : o.pos + t.length < o.size) : outString o t = some (o.write t) := by
  rw [outString_eq hsize, List.take_of_length_le (by omega)]
  rfl

/-! ## Numbers -/

/-- What `out_number` prints. -/
def numberText (value base : Nat) (negative upper : Bool) (width : Int) (zeroPad left : Bool) :
    List UInt8 :=
  let text := (numberTmp value base negative upper).reverse
  let pad := (width - text.length).toNat
  if left then text ++ List.replicate pad 32
  else List.replicate pad (if zeroPad then 48 else 32) ++ text

theorem outString_append (o : OutBuf) (t u : List UInt8) :
    outString o (t ++ u) = (outString o t).bind fun o => outString o u := List.foldlM_append ..

theorem outNumber_eq (o : OutBuf) {value base : Nat} {negative upper : Bool} (width : Int)
    (zeroPad left : Bool) (htmp : (numberTmp value base negative upper).length ≤ 32) :
    outNumber o value base negative upper width zeroPad left =
      outString o (numberText value base negative upper width zeroPad left) := by
  rw [outNumber, if_neg (Nat.not_lt.mpr htmp), numberText, List.length_reverse]
  cases left with
  | true =>
    simp only [if_true, outString_append]
    rfl
  | false =>
    simp only [Bool.false_eq_true, if_false, outString_append]
    rw [outPad]
    cases outString o _ with
    | none => rfl
    | some o =>
      simp only [Option.bind_eq_bind, Option.bind_some]
      cases outString o _ <;> rfl

theorem digitChar_toNat (upper : Bool) {d : Nat} (h : d < 10) : (digitChar upper d).toNat = 48 + d := by
  rw [digitChar, if_pos h, UInt8.toNat_ofNat']
  exact Nat.mod_eq_of_lt (by omega)

theorem isDigit_digitChar {upper : Bool} {d : Nat} (h : d < 10) : isDigit (digitChar upper d) = true := by
  rw [isDigit, decide_eq_true_eq, UInt8.le_iff_toNat_le, UInt8.le_iff_toNat_le, digitChar_toNat upper h]
  exact ⟨Nat.le_add_right .., show 48 + d ≤ 57 by omega⟩

/-- The digits of a number, read from the last one on, have its value. -/
theorem decimal_digitsOf {upper : Bool} : ∀ {fuel value : Nat}, value ≤ fuel →
    decimal (digitsOf 10 upper fuel value).reverse = value := by
  intro fuel
  induction fuel with
  | zero =>
    intro value h
    rw [Nat.le_zero.mp h]
    rfl
  | succ fuel ih =>
    intro value h
    rw [digitsOf]
    by_cases h0 : value = 0
    · rw [if_pos h0, h0]
      rfl
    · have hmod : value % 10 < 10 := Nat.mod_lt _ (by decide)
      rw [if_neg h0, List.reverse_cons, decimal_concat, ih (show value / 10 ≤ fuel by omega),
        digitChar_toNat _ hmod]
      omega

theorem isDigit_digitsOf {upper : Bool} (fuel : Nat) : ∀ value, ∀ c ∈ digitsOf 10 upper fuel value,
    isDigit c = true := by
  induction fuel with
  | zero => exact fun _ _ h => absurd h List.not_mem_nil
  | succ fuel ih =>
    intro value c hc
    rw [digitsOf] at hc
    split at hc
    · exact absurd hc List.not_mem_nil
    · rcases List.mem_cons.mp hc with rfl | hc
      · exact isDigit_digitChar (Nat.mod_lt _ (by decide))
      · exact ih _ c hc

/-- A number below a power of the base has no more digits than its exponent says. -/
theorem length_digitsOf {base : Nat} {upper : Bool} (hbase : 0 < base) : ∀ (k fuel value : Nat),
    value < base ^ k → (digitsOf base upper fuel value).length ≤ k := by
  intro k
  induction k with
  | zero =>
    intro fuel value h
    have h0 : value = 0 := by
      rw [Nat.pow_zero] at h
      omega
    cases fuel with
    | zero => exact Nat.le_refl 0
    | succ fuel =>
      rw [digitsOf, if_pos h0]
      exact Nat.le_refl 0
  | succ k ih =>
    intro fuel value h
    cases fuel with
    | zero => exact Nat.zero_le _
    | succ fuel =>
      rw [digitsOf]
      split
      · exact Nat.zero_le _
      · rw [List.length_cons]
        apply Nat.succ_le_succ
        apply ih
        rw [Nat.div_lt_iff_lt_mul hbase, ← Nat.pow_succ]
        exact h

/-- The numeral of a number, without a sign and padding. -/
def numeral (value : Nat) : List UInt8 := (numberTmp value 10 false false).reverse

theorem numeral_eq (value : Nat) : numeral value =
    if value = 0 then [48] else (digitsOf 10 false value value).reverse := by
  rw [numeral, numberTmp]
  simp only [Bool.false_eq_true, if_false, List.append_nil]
  split <;> rfl

theorem decimal_numeral (value : Nat) : decimal (numeral value) = value := by
  rw [numeral_eq]
  by_cases h0 : value = 0
  · rw [if_pos h0, h0]
    rfl
  · rw [if_neg h0, decimal_digitsOf (Nat.le_refl _)]

theorem isDigit_numeral (value : Nat) : ∀ c ∈ numeral value, isDigit c = true := by
  intro c hc
  rw [numeral_eq] at hc
  split at hc
  · rw [List.mem_singleton.mp hc]
    decide
  · exact isDigit_digitsOf value value c (List.mem_reverse.mp hc)

theorem length_numeral {k value : Nat} (hk : 0 < k) (h : value < 10 ^ k) :
    (numeral value).length ≤ k := by
  rw [numeral_eq]
  split
  · exact hk
  · rw [List.length_reverse]
    exact length_digitsOf (by decide) k value value h

theorem numeral_ne_nil (value : Nat) : numeral value ≠ [] := by
  rw [numeral_eq]
  by_cases h0 : value = 0
  · rw [if_pos h0]
    exact List.cons_ne_nil _ _
  · rw [if_neg h0]
    obtain ⟨fuel, hfuel⟩ := Nat.exists_eq_succ_of_ne_zero h0
    rw [hfuel, digitsOf, if_neg (Nat.succ_ne_zero fuel), List.reverse_cons]
    exact List.append_ne_nil_of_right_ne_nil _ (List.cons_ne_nil _ _)

/-- `%d` of a word that holds a small number. -/
theorem conversion_decimal (o : OutBuf) (args : List Arg) {v : Nat} (h : v < 2 ^ 31) :
    conversion o (.word (UInt64.ofNat v) :: args) false false 0 0 100 =
      (outString o (numeral v)).map (·, args) := by
  have hsigned : signedArg 0 (UInt64.ofNat v) = v := by
    have hlt : v < 2 ^ 64 := Nat.lt_of_lt_of_le h (by decide)
    have hword : ((UInt64.ofNat v).toBitVec.setWidth 32).toNat = v := by
      rw [BitVec.toNat_setWidth, UInt64.toNat_toBitVec, UInt64.toNat_ofNat', Nat.mod_eq_of_lt hlt,
        Nat.mod_eq_of_lt (Nat.lt_of_lt_of_le h (by decide))]
    rw [signedArg, if_neg (fun h => h rfl), BitVec.toInt_eq_toNat_of_lt, hword]
    rw [hword]
    omega
  have hneg : decide ((v : Int) < 0) = false := decide_eq_false (by omega)
  have htmp : (numberTmp v 10 false false).length ≤ 32 := by
    have hlen := length_numeral (k := 10) (by decide) (Nat.lt_trans h (by decide))
    rw [numeral, List.length_reverse] at hlen
    omega
  have htext : numberText v 10 false false (0 : Nat) false false = numeral v := by
    have hpad : ((0 : Nat) - ((numberTmp v 10 false false).reverse.length : Int)).toNat = 0 := by omega
    rw [numberText, hpad, List.replicate_zero]
    rfl
  have hconv : conversion o (.word (UInt64.ofNat v) :: args) false false 0 0 100 =
      (outNumber o (signedArg 0 (UInt64.ofNat v)).natAbs 10
        (decide (signedArg 0 (UInt64.ofNat v) < 0)) false (0 : Nat) false false).map (·, args) := rfl
  rw [hconv, hsigned, hneg, Int.natAbs_natCast, outNumber_eq o _ false false htmp, htext]

end ChocoOs.Kprintf
