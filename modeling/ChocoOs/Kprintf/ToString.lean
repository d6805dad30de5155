import ChocoOs.Kprintf.Integers
import Mathlib.Data.List.Induction

/-!
# The other decimal printer

`to_string` of `lib.c` collects the digits from the last one on and reverses them in place.
-/

namespace ChocoOs.Kprintf
open ProgLib

/-- One round of the loop over the digits (`lib.c:8-13`). -/
def digitRound : List UInt8 × Nat × Nat → Option (LoopStep (List UInt8 × Nat × Nat) (List UInt8 × Nat))
  | (str, num, i) =>
    if 0 < num then
      if i < str.length then
        some (.next (str.set i (UInt8.ofNat (num % 10 + 48)), num / 10, i + 1))
      else none
    else some (.done (str, i))

/-- One round of the loop that reverses (`lib.c:17-24`). -/
def reverseRound : List UInt8 × Nat × Int → Option (LoopStep (List UInt8 × Nat × Int) (List UInt8))
  | (str, j, i) =>
    if (j : Int) < i then do
      let temp ← str[j]?
      let c ← str[i.toNat]?
      return .next ((str.set j c).set i.toNat temp, j + 1, i - 1)
    else some (.done str)

/-- `to_string` (`lib.c:5-25`): what it leaves in `str`. -/
def toString (num : UInt64) (str : List UInt8) : Option (List UInt8) := do
  let (str, i) ← loop digitRound (num.toNat + 1) (str, num.toNat, 0)
  if i < str.length then loop reverseRound (i + 1) (str.set i 0, 0, (i : Int) - 1) else none

/-! ## The loops -/

theorem digit_loop (num : Nat) : ∀ (a b : List UInt8) (fuel : Nat), num < fuel →
    (Nat.digits 10 num).length ≤ b.length →
    loop digitRound fuel (a ++ b, num, a.length) =
      some (a ++ (Nat.digits 10 num).map (digitChar false) ++ b.drop (Nat.digits 10 num).length,
        a.length + (Nat.digits 10 num).length) := by
  induction num using Nat.strongRecOn with
  | ind num ih =>
    intro a b fuel hfuel hroom
    obtain ⟨fuel, rfl⟩ := Nat.exists_eq_succ_of_ne_zero (Nat.ne_zero_of_lt hfuel)
    by_cases h0 : num = 0
    · subst h0
      have hdone : digitRound (a ++ b, 0, a.length) = some (.done (a ++ b, a.length)) := rfl
      rw [loop_of_done hdone, Nat.digits_zero, List.map_nil, List.append_nil, List.length_nil,
        List.drop_zero, Nat.add_zero]
    · have hpos := Nat.pos_of_ne_zero h0
      have hdigits := Nat.digits_def' (by decide : 1 < 10) hpos
      rw [hdigits, List.length_cons] at hroom
      cases b with
      | nil => exact absurd hroom (Nat.not_succ_le_zero _)
      | cons x b =>
        have hlt : a.length < (a ++ x :: b).length := by
          rw [List.length_append, List.length_cons]
          omega
        have hround : digitRound (a ++ x :: b, num, a.length) =
            some (.next (a ++ [digitChar false (num % 10)] ++ b, num / 10,
              (a ++ [digitChar false (num % 10)]).length)) := by
          have hchar : UInt8.ofNat (num % 10 + 48) = digitChar false (num % 10) := by
            rw [digitChar, if_pos (Nat.mod_lt _ (by decide)), Nat.add_comm]
          rw [digitRound, if_pos hpos, if_pos hlt, List.set_append_right _ _ (Nat.le_refl _),
            Nat.sub_self, List.set_cons_zero, hchar, List.append_assoc, List.length_append]
          rfl
        have hdiv := Nat.div_lt_self hpos (by decide : 1 < 10)
        have hrest := ih (num / 10) hdiv (a ++ [digitChar false (num % 10)]) b fuel (by omega)
          (Nat.le_of_succ_le_succ hroom)
        rw [loop_of_next hround, hrest, hdigits, List.map_cons, List.length_cons, List.drop_succ_cons,
          List.length_append, List.length_singleton, List.append_assoc a, List.singleton_append,
          Nat.add_assoc, Nat.add_comm 1]

theorem set_length_append {α : Type} (a : List α) (x y : α) (b : List α) :
    (a ++ x :: b).set a.length y = a ++ y :: b := by
  rw [List.set_append_right _ _ (Nat.le_refl _), Nat.sub_self, List.set_cons_zero]

theorem getElem?_length_append {α : Type} (a : List α) (x : α) (b : List α) :
    (a ++ x :: b)[a.length]? = some x := by
  rw [List.getElem?_append_right (Nat.le_refl _), Nat.sub_self, List.getElem?_cons_zero]

/-- The loop exchanges the outer characters and goes on with those between them. -/
theorem reverse_loop (mid : List UInt8) : ∀ (a b : List UInt8) (fuel : Nat), mid.length < fuel →
    loop reverseRound fuel (a ++ mid ++ b, a.length, (a.length + mid.length : Nat) - 1) =
      some (a ++ mid.reverse ++ b) := by
  induction mid using List.bidirectionalRec with
  | nil =>
    intro a b fuel hfuel
    obtain ⟨fuel, rfl⟩ := Nat.exists_eq_succ_of_ne_zero (Nat.ne_zero_of_lt hfuel)
    apply loop_of_done
    rw [reverseRound, if_neg (by simp only [List.length_nil]; omega)]
    rfl
  | singleton x =>
    intro a b fuel hfuel
    obtain ⟨fuel, rfl⟩ := Nat.exists_eq_succ_of_ne_zero (Nat.ne_zero_of_lt hfuel)
    apply loop_of_done
    rw [reverseRound, if_neg (by simp only [List.length_singleton]; omega)]
    rfl
  | cons_append x m y ih =>
    intro a b fuel hfuel
    obtain ⟨fuel, rfl⟩ := Nat.exists_eq_succ_of_ne_zero (Nat.ne_zero_of_lt hfuel)
    have hsplit : ∀ u v : UInt8, a ++ u :: (m ++ v :: b) = (a ++ u :: m) ++ v :: b := by
      intro u v
      rw [List.append_assoc, List.cons_append]
    have hlast : ∀ u : UInt8, (a ++ u :: m).length = a.length + m.length + 1 := by
      intro u
      rw [List.length_append, List.length_cons, Nat.add_assoc]
    have hstr : a ++ (x :: (m ++ [y])) ++ b = a ++ x :: (m ++ y :: b) := by
      simp only [List.append_assoc, List.cons_append, List.nil_append]
    have hi : (((a.length + (x :: (m ++ [y])).length : Nat) : Int) - 1) =
        ((a.length + m.length + 1 : Nat) : Int) := by
      rw [List.length_cons, List.length_append, List.length_singleton]
      omega
    have hround : reverseRound (a ++ x :: (m ++ y :: b), a.length, ((a.length + m.length + 1 : Nat) : Int)) =
        some (.next (a ++ [y] ++ m ++ x :: b, (a ++ [y]).length,
          (((a ++ [y]).length + m.length : Nat) : Int) - 1)) := by
      have hfirst : (a ++ x :: (m ++ y :: b))[a.length]? = some x := getElem?_length_append a x _
      have hsecond : (a ++ x :: (m ++ y :: b))[a.length + m.length + 1]? = some y := by
        rw [hsplit, ← hlast x]
        exact getElem?_length_append _ y b
      have hset : (a ++ x :: (m ++ y :: b)).set a.length y = a ++ y :: (m ++ y :: b) :=
        set_length_append a x y _
      have hset' : (a ++ y :: (m ++ y :: b)).set (a.length + m.length + 1) x = a ++ y :: (m ++ x :: b) := by
        rw [hsplit, ← hlast y, set_length_append, ← hsplit]
      have hlist : a ++ [y] ++ m ++ x :: b = a ++ y :: (m ++ x :: b) := by
        simp only [List.append_assoc, List.cons_append, List.nil_append]
      have hnext : (((a ++ [y]).length + m.length : Nat) : Int) - 1 =
          ((a.length + m.length + 1 : Nat) : Int) - 1 := by
        rw [List.length_append, List.length_singleton]
        omega
      rw [reverseRound, if_pos (by omega), Int.toNat_natCast, hfirst, hsecond, hlist, hnext,
        List.length_append]
      simp only [Option.bind_eq_bind, Option.bind_some, Option.pure_def, hset, hset']
      rfl
    have hrest := ih (a ++ [y]) (x :: b) fuel (by
      rw [List.length_cons, List.length_append] at hfuel
      omega)
    rw [hstr, hi, loop_of_next hround, hrest]
    simp only [List.reverse_cons, List.reverse_append, List.reverse_nil, List.nil_append,
      List.append_assoc, List.cons_append]

/-! ## The two printers -/

/-- For every number but 0 the string is its numeral. -/
theorem toString_eq (num : UInt64) {str : List UInt8}
    (hroom : (cDigits 10 false num.toNat).length < str.length) :
    toString num str =
      some ((if num = 0 then [] else cDigits 10 false num.toNat) ++
        0 :: str.drop ((if num = 0 then [] else cDigits 10 false num.toNat).length + 1)) := by
  have hlt : (Nat.digits 10 num.toNat).length < str.length := by
    refine Nat.lt_of_le_of_lt ?_ hroom
    rw [cDigits]
    split
    · next h0 =>
      rw [h0, Nat.digits_zero]
      exact Nat.zero_le _
    · rw [List.length_reverse, List.length_map]
  have hdigits := digit_loop num.toNat [] str (num.toNat + 1) (Nat.lt_succ_self _) (Nat.le_of_lt hlt)
  rw [List.nil_append, List.nil_append, List.length_nil, Nat.zero_add] at hdigits
  have hnumeral : (if num = 0 then [] else cDigits 10 false num.toNat) =
      ((Nat.digits 10 num.toNat).map (digitChar false)).reverse := by
    by_cases h0 : num = 0
    · rw [if_pos h0, h0]
      rfl
    · have hne : num.toNat ≠ 0 := fun h => h0 (UInt64.toNat_inj.mp h)
      rw [if_neg h0, cDigits, if_neg hne]
  have hset : (((Nat.digits 10 num.toNat).map (digitChar false)) ++
      str.drop (Nat.digits 10 num.toNat).length).set (Nat.digits 10 num.toNat).length 0 =
      (Nat.digits 10 num.toNat).map (digitChar false) ++
        0 :: str.drop ((Nat.digits 10 num.toNat).length + 1) := by
    rw [List.drop_eq_getElem_cons hlt]
    have hset := set_length_append ((Nat.digits 10 num.toNat).map (digitChar false))
      str[(Nat.digits 10 num.toNat).length] 0 (str.drop ((Nat.digits 10 num.toNat).length + 1))
    rw [List.length_map] at hset
    exact hset
  have hreverse := reverse_loop ((Nat.digits 10 num.toNat).map (digitChar false)) []
    (0 :: str.drop ((Nat.digits 10 num.toNat).length + 1)) ((Nat.digits 10 num.toNat).length + 1) (by
      rw [List.length_map]
      exact Nat.lt_succ_self _)
  rw [List.length_map, List.nil_append, List.nil_append, List.length_nil, Nat.zero_add] at hreverse
  have hroom' : (Nat.digits 10 num.toNat).length < (((Nat.digits 10 num.toNat).map (digitChar false)) ++
      str.drop (Nat.digits 10 num.toNat).length).length := by
    rw [List.length_append, List.length_map, List.length_drop]
    omega
  rw [toString, hdigits]
  simp only [Option.bind_eq_bind, Option.bind_some, if_pos hroom', hset, hreverse, hnumeral,
    List.length_reverse, List.length_map]

/-- In a buffer with room for the numeral `to_string` writes what `%lu` prints, for every number but 0. -/
theorem toString_eq_snprintf_iff (num : UInt64) {str : List UInt8}
    (hroom : (cDigits 10 false num.toNat).length < str.length) :
    (∃ text, Produces (directive [] 0 true .u) [.word num] text ∧
      text = cDigits 10 false num.toNat ∧
      toString num str = some (text ++ 0 :: str.drop (text.length + 1))) ↔ num ≠ 0 := by
  constructor
  · rintro ⟨text, -, rfl, hstr⟩ rfl
    rw [toString_eq 0 hroom, if_pos rfl] at hstr
    have hhead := congrArg List.head? (Option.some.inj hstr)
    have hzero : (0 : UInt8) = 48 := Option.some.inj hhead
    exact absurd hzero (by decide)
  · intro h0
    refine ⟨cDigits 10 false num.toNat, ?_, rfl, ?_⟩
    · have hprints := produces_text List.not_mem_nil 0 true .u num
      rw [show IntConv.u.text [] 0 true num = _ from cInteger_plain 10 false num.toNat] at hprints
      exact hprints
    · rw [toString_eq num hroom, if_neg h0]

theorem toString_eq_snprintf_iff_seven : (∃ text, Produces (directive [] 0 true .u) [.word 7] text ∧
      text = cDigits 10 false (7 : UInt64).toNat ∧
      toString 7 [0, 0] = some (text ++ 0 :: [0, 0].drop (text.length + 1))) ↔
    (7 : UInt64) ≠ 0 := toString_eq_snprintf_iff 7 (by decide +kernel)

/-- For 0 the string is empty. -/
theorem not_toString_eq_snprintf : ¬ ∃ text, Produces (directive [] 0 true .u) [.word 0] text ∧
    text = cDigits 10 false (0 : UInt64).toNat ∧ toString 0 [0, 0] =
      some (text ++ 0 :: [0, 0].drop (text.length + 1)) := by
  rintro ⟨text, -, rfl, hstr⟩
  rw [toString_eq 0 (by decide)] at hstr
  exact absurd hstr (by decide)

end ChocoOs.Kprintf
