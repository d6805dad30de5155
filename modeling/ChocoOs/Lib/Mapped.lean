import ChocoOs.Lib.Word
import ChocoOs.Lib.Tiling
import Mathlib.Algebra.Order.BigOperators.Group.List
import Mathlib.Data.Int.ModEq

/-!
# A file in memory

A writer puts pieces into a file, one behind the other; `placed` says where they are. A reader has the
file in memory, and a pointer that it moves over the pieces; `tour` says where it points. The
arithmetic of the reader is that of the machine: integers become 64-bit words, and words wrap.
-/

namespace ProgLib

/-! ## Integers as words -/

/-- An integer as a `uint64_t`. -/
def u64 (z : Int) : Nat := (z % (addrSpace : Int)).toNat

theorem u64_lt (z : Int) : u64 z < addrSpace := by
  have hpos := addrSpace_pos
  have h := Int.emod_lt_of_pos z (b := addrSpace) (by omega)
  unfold u64
  omega

theorem u64_cast (z : Int) : (u64 z : Int) = z % (addrSpace : Int) := by
  have hpos := addrSpace_pos
  exact Int.toNat_of_nonneg (Int.emod_nonneg _ (by omega))

theorem u64_natCast (n : Nat) : u64 n = n % addrSpace := by
  have h := u64_cast n
  rw [← Int.natCast_emod] at h
  exact Int.natCast_inj.mp h

theorem u64_of_lt {z : Int} (h0 : 0 ≤ z) (h : z < addrSpace) : u64 z = z.toNat := by
  unfold u64
  rw [Int.emod_eq_of_lt h0 h]

/-- The product of words is the word of the product. -/
theorem mul64_u64 (a b : Int) : mul64 (u64 a) (u64 b) = u64 (a * b) := by
  apply Int.natCast_inj.mp
  rw [mul64, Int.natCast_emod, Int.natCast_mul, u64_cast, u64_cast, u64_cast, ← Int.mul_emod]

theorem add64_u64 (p : Nat) (z : Int) : add64 p (u64 z) = u64 (p + z) := by
  apply Int.natCast_inj.mp
  rw [add64, Int.natCast_emod, Int.natCast_add, u64_cast, u64_cast, Int.add_emod_emod]

/-- The integer that 32 bits stand for. -/
def int32 (v : Nat) : Int := if v < 2 ^ 31 then v else v - 2 ^ 32

/-- A product of `int`s. There is none if it overflows. -/
def mulInt (a b : Int) : Option Int := if -2 ^ 31 ≤ a * b ∧ a * b < 2 ^ 31 then some (a * b) else none

/-- The quotient of `int`s. The processor traps if there is none. -/
def divInt (a b : Int) : Option Int :=
  if b = 0 ∨ (a = -2 ^ 31 ∧ b = -1) then none else some (a.tdiv b)

theorem u64_add_u64 (y z : Int) : u64 (u64 y + z) = u64 (y + z) := by
  apply Int.natCast_inj.mp
  rw [u64_cast, u64_cast, u64_cast, Int.emod_add_emod]

/-! ## The file -/

/-- A file in memory: its address and size. `byte` also tells what lies behind it. -/
structure Mapped where
  address : Nat
  size : Nat
  byte : Nat → UInt8
  fits : address + size < addrSpace

/-- Only so many integers can be read from four bytes. -/
theorem int32_bounds {v : Nat} (hv : v < 2 ^ 32) : -2 ^ 31 ≤ int32 v ∧ int32 v < 2 ^ 31 := by
  unfold int32
  split <;> omega

namespace Mapped

variable (m : Mapped)

/-- The `n` bytes from `off` on. -/
def bytes (off n : Nat) : List UInt8 := (List.range n).map fun i => m.byte (off + i)

/-- A `uint32_t` of the file. -/
def word32 (off : Nat) : Nat := leNat (m.bytes off 4)

/-- An `int` of the file. -/
def intAt (off : Nat) : Int := int32 (m.word32 off)

theorem intAt_bounds (off : Nat) : -2 ^ 31 ≤ m.intAt off ∧ m.intAt off < 2 ^ 31 := by
  apply int32_bounds
  have hlt := leNat_lt (m.bytes off 4)
  have hlen : (m.bytes off 4).length = 4 := by
    rw [bytes, List.length_map, List.length_range]
  rw [hlen] at hlt
  exact hlt

/-- The file has these bytes. -/
def Holds (file : List UInt8) : Prop := ∀ i, ∀ h : i < file.length, m.byte i = file[i]

variable {m}

theorem Holds.bytes {file : List UInt8} (h : m.Holds file) {off n : Nat} (hn : off + n ≤ file.length) :
    m.bytes off n = (file.drop off).take n := by
  show (List.range n).map (fun i => m.byte (off + i)) = _
  apply List.ext_getElem
  · rw [List.length_map, List.length_range, List.length_take, List.length_drop]
    omega
  · intro i hi hi'
    have hin : i < n := by
      rw [List.length_map, List.length_range] at hi
      exact hi
    rw [List.getElem_map, List.getElem_range, h (off + i) (by omega), List.getElem_take,
      List.getElem_drop]

/-- `n` bytes at `p` lie in the file. There is no place for a negative number of bytes. -/
def Inside (m : Mapped) (p : Nat) (n : Int) : Prop :=
  0 ≤ n ∧ m.address ≤ p ∧ p + n ≤ m.address + m.size

instance (p : Nat) (n : Int) : Decidable (m.Inside p n) := by
  unfold Inside
  infer_instance

end Mapped

/-! ## The pieces -/

section pieces

variable {P : Type}

/-- Where the pieces are that are written from `off` on. -/
def placed (off : Nat) : List (P × List UInt8) → List (P × Nat × List UInt8)
  | [] => []
  | (x, bs) :: rest => (x, off, bs) :: placed (off + bs.length) rest

/-- The bytes of the pieces. -/
def content (pieces : List (P × List UInt8)) : List UInt8 := pieces.flatMap Prod.snd

/-- The sizes of the pieces. -/
def sizes (pieces : List (P × List UInt8)) : List (P × Nat) :=
  pieces.map fun x => (x.1, x.2.length)

/-- Where a pointer is that walks over pieces of these sizes. -/
def tour (p : Nat) : List (P × Nat) → List (P × Nat × Nat)
  | [] => []
  | (x, n) :: rest => (x, p, n) :: tour (add64 p n) rest

/-- Where it is behind them. -/
def tourEnd (p : Nat) (plan : List (P × Nat)) : Nat := add64 p (plan.map Prod.snd).sum

theorem placed_append (off : Nat) (xs ys : List (P × List UInt8)) :
    placed off (xs ++ ys) = placed off xs ++ placed (off + (content xs).length) ys := by
  induction xs generalizing off with
  | nil => rfl
  | cons x xs ih =>
    obtain ⟨name, bs⟩ := x
    have hlen : off + (content ((name, bs) :: xs)).length =
        off + bs.length + (content xs).length := by
      rw [content, List.flatMap_cons, List.length_append, ← Nat.add_assoc]
      rfl
    rw [hlen, List.cons_append, placed, ih]
    rfl

theorem content_append (xs ys : List (P × List UInt8)) :
    content (xs ++ ys) = content xs ++ content ys := List.flatMap_append

/-- The pieces follow one another without a gap, up to the end. -/
theorem tiles_placed (off : Nat) (pieces : List (P × List UInt8)) :
    Tiles (fun x : P × Nat × List UInt8 => x.2.1) (fun x => x.2.2.length) off (placed off pieces)
      (off + (content pieces).length) := by
  induction pieces generalizing off with
  | nil => rfl
  | cons x rest ih =>
    obtain ⟨name, bs⟩ := x
    refine ⟨rfl, ?_⟩
    have h := ih (off + bs.length)
    rw [Nat.add_assoc, ← List.length_append] at h
    exact h

/-- Each piece is in the file where it was placed. -/
theorem slice_placed {pre : List UInt8} {pieces : List (P × List UInt8)} {x : P × Nat × List UInt8}
    (h : x ∈ placed pre.length pieces) :
    ((pre ++ content pieces).drop x.2.1).take x.2.2.length = x.2.2 := by
  induction pieces generalizing pre with
  | nil => cases h
  | cons y rest ih =>
    obtain ⟨name, bs⟩ := y
    have hcontent : content ((name, bs) :: rest) = bs ++ content rest := List.flatMap_cons
    rw [hcontent]
    rcases List.mem_cons.mp h with rfl | h
    · rw [List.drop_left, List.take_left]
    · rw [← List.length_append] at h
      rw [← List.append_assoc]
      exact ih h

theorem tour_append {p : Nat} (hp : p < addrSpace) (xs ys : List (P × Nat)) :
    tour p (xs ++ ys) = tour p xs ++ tour (tourEnd p xs) ys := by
  induction xs generalizing p with
  | nil =>
    have hend : tourEnd p ([] : List (P × Nat)) = p := Nat.mod_eq_of_lt hp
    rw [hend]
    rfl
  | cons x xs ih =>
    obtain ⟨name, n⟩ := x
    have hend : tourEnd p ((name, n) :: xs) = tourEnd (add64 p n) xs := by
      simp only [tourEnd, add64, List.map_cons, List.sum_cons, Nat.mod_add_mod, Nat.add_assoc]
    rw [hend, List.cons_append, tour, ih (add64_lt ..)]
    rfl

theorem tourEnd_append (p : Nat) (xs ys : List (P × Nat)) :
    tourEnd p (xs ++ ys) = tourEnd (tourEnd p xs) ys := by
  simp only [tourEnd, add64, List.map_append, List.sum_append_nat, Nat.mod_add_mod, Nat.add_assoc]

theorem tourEnd_lt (p : Nat) (xs : List (P × Nat)) : tourEnd p xs < addrSpace := add64_lt ..

/-- A pointer that walks over the sizes of the pieces points to each of them. -/
theorem tour_sizes (base off : Nat) (pieces : List (P × List UInt8)) :
    tour (add64 base off) (sizes pieces) =
      (placed off pieces).map fun x => (x.1, add64 base x.2.1, x.2.2.length) := by
  induction pieces generalizing off with
  | nil => rfl
  | cons x rest ih =>
    obtain ⟨name, bs⟩ := x
    have hstep : add64 (add64 base off) bs.length = add64 base (off + bs.length) := by
      simp only [add64, Nat.mod_add_mod, Nat.add_assoc]
    rw [sizes, List.map_cons, tour, hstep]
    exact congrArg _ (ih _)

end pieces

/-! ## What a pointer walks over -/

/-- A pointer that walks over ranges of these sizes, with the size of each. -/
def ranges (p : Nat) : List Int → List (Nat × Int)
  | [] => []
  | z :: zs => (p, z) :: ranges (u64 (p + z)) zs

/-- Where it is behind them. -/
def rangesEnd (p : Nat) (zs : List Int) : Nat := u64 (p + zs.sum)

theorem u64_of_natCast_lt {n : Nat} (h : n < addrSpace) : u64 n = n := by
  rw [u64_natCast, Nat.mod_eq_of_lt h]

theorem ranges_append {p : Nat} (hp : p < addrSpace) (xs ys : List Int) :
    ranges p (xs ++ ys) = ranges p xs ++ ranges (rangesEnd p xs) ys := by
  induction xs generalizing p with
  | nil => rw [rangesEnd, List.sum_nil, Int.add_zero, u64_of_natCast_lt hp]; rfl
  | cons x xs ih =>
    have hend : rangesEnd p (x :: xs) = rangesEnd (u64 (p + x)) xs := by
      rw [rangesEnd, rangesEnd, u64_add_u64, List.sum_cons, Int.add_assoc]
    rw [hend, List.cons_append, ranges, ih (u64_lt _)]
    rfl

theorem rangesEnd_append (p : Nat) (xs ys : List Int) :
    rangesEnd p (xs ++ ys) = rangesEnd (rangesEnd p xs) ys := by
  rw [rangesEnd, rangesEnd, rangesEnd, u64_add_u64, List.sum_append, Int.add_assoc]

/-- From `p` to `q` a pointer walks over `xs`, which have the sizes `zs`. -/
structure Spans (p q : Nat) (xs : List (Nat × Int)) (zs : List Int) : Prop where
  ranges : xs = ranges p zs
  stop : q = rangesEnd p zs

theorem Spans.append {p q r : Nat} {xs ys : List (Nat × Int)} {zs ws : List Int} (hp : p < addrSpace)
    (h : Spans p q xs zs) (h' : Spans q r ys ws) : Spans p r (xs ++ ys) (zs ++ ws) := by
  obtain ⟨rfl, rfl⟩ := h
  obtain ⟨rfl, rfl⟩ := h'
  exact ⟨(ranges_append hp zs ws).symm, (rangesEnd_append p zs ws).symm⟩

theorem Spans.lt {p q : Nat} {xs : List (Nat × Int)} {zs : List Int} (h : Spans p q xs zs) :
    q < addrSpace := by
  rw [h.stop]
  exact u64_lt _

theorem spans_one (p : Nat) (z : Int) : Spans p (u64 (p + z)) [(p, z)] [z] := by
  refine ⟨rfl, ?_⟩
  rw [rangesEnd, List.sum_singleton]

namespace Mapped

variable {m : Mapped}

/-- What is `z` bytes behind the address, in 64 bits, lies in the file as if nothing could wrap. -/
theorem inside_offset (z e : Int) : m.Inside (u64 (m.address + z)) e ↔ 0 ≤ e ∧ u64 z + e ≤ m.size := by
  have hfits := m.fits
  have hz := u64_lt z
  have heq : u64 (m.address + z) = (m.address + u64 z) % addrSpace := by
    rw [← add64_u64]
    rfl
  unfold Inside
  rw [heq]
  rcases Nat.lt_or_ge (m.address + u64 z) addrSpace with hlt | hge
  · rw [Nat.mod_eq_of_lt hlt]
    omega
  · -- the pointer wraps to below the file
    have hmod : (m.address + u64 z) % addrSpace = m.address + u64 z - addrSpace := by
      rw [Nat.mod_eq_sub_mod hge, Nat.mod_eq_of_lt (by omega)]
    rw [hmod]
    omega

/-- Ranges one behind the other lie in the file if the last one does. -/
theorem ranges_inside_iff {off : Nat} (hoff : off < addrSpace) {zs : List Int} (hne : zs ≠ []) :
    (∀ x ∈ ranges (u64 (m.address + off)) zs, m.Inside x.1 x.2) ↔
      (∀ z ∈ zs, 0 ≤ z) ∧ off + zs.sum ≤ m.size := by
  induction zs generalizing off with
  | nil => exact absurd rfl hne
  | cons z zs ih =>
    have hhead : m.Inside (u64 (m.address + off)) z ↔ 0 ≤ z ∧ off + z ≤ m.size := by
      rw [inside_offset, u64_of_natCast_lt hoff]
    rw [ranges, List.forall_mem_cons, List.forall_mem_cons, List.sum_cons, hhead, u64_add_u64]
    have hfits := m.fits
    by_cases hin : 0 ≤ z ∧ off + z ≤ m.size
    · obtain ⟨hz, hle⟩ := hin
      lift z to Nat using hz
      have hoff' : off + z < addrSpace := by omega
      have hnext : (m.address : Int) + off + z = m.address + ((off + z : Nat) : Int) := by
        rw [Nat.cast_add, Int.add_assoc]
      rw [hnext]
      rcases eq_or_ne zs [] with rfl | hzs
      · simp [ranges]
      · rw [ih hoff' hzs, Nat.cast_add]
        constructor
        · rintro ⟨-, hpos, hsum⟩
          exact ⟨⟨Int.natCast_nonneg z, hpos⟩, by omega⟩
        · rintro ⟨⟨-, hpos⟩, hsum⟩
          exact ⟨⟨Int.natCast_nonneg z, hle⟩, hpos, by omega⟩
    · refine iff_of_false (fun h => hin h.1) ?_
      rintro ⟨⟨hz, hpos⟩, hsum⟩
      have hrest := List.sum_nonneg hpos
      exact hin ⟨hz, by omega⟩

end Mapped

end ProgLib
