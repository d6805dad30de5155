import ChocoOs.Memory.Memmove

/-!
# Scrolling the screen

`framebuffer_scroll_up` of `framebuffer.c`. The rows below are moved up with `memmove` between two ranges
that overlap, and the rows that become free are filled with one colour.
-/

namespace ChocoOs.Framebuffer
open ProgLib Memory

/-- One row of the loop that fills the rows that become free (`framebuffer.c:110-112`). -/
def fillLine (m : Mem) (line : Nat) (color : UInt32) : Nat → Mem
  | 0 => m
  | x + 1 => storeLE (fillLine m line color x) (line + 4 * x) 4 color.toNat

/-- That loop from the row `first` on, after `k` rows (`framebuffer.c:108-113`). -/
def fillRows (m : Mem) (fb pitch width : Nat) (color : UInt32) (first : Nat) : Nat → Mem
  | 0 => m
  | k + 1 => fillLine (fillRows m fb pitch width color first k) (fb + (first + k) * pitch) color width

/-- `framebuffer_scroll_up` (`framebuffer.c:96-114`) -/
def scrollUp (m : Mem) (fb pitch width height pixels : Nat) (color : UInt32) : Mem :=
  if pixels = 0 ∨ height < pixels then m
  else
    let m := memmove m fb (add64 fb (mul64 pixels pitch)) (mul64 (height - pixels) pitch)
    fillRows m fb pitch width color (height - pixels) pixels

section fill

variable {m : Mem} {fb pitch width first : Nat} {color : UInt32}

theorem sameOutside_fillLine (m : Mem) (line : Nat) (color : UInt32) (n : Nat) :
    SameOutside m (fillLine m line color n) line (line + 4 * n) := by
  induction n with
  | zero => exact SameOutside.refl _ _ _
  | succ n ih =>
    have hstore := sameOutside_storeLE (fillLine m line color n) (line + 4 * n) 4 color.toNat
    exact (ih.mono (Nat.le_refl _) (by omega)).trans (hstore.mono (by omega) (by omega))

/-- Every pixel of the row has the colour. -/
theorem loadLE_fillLine {line n x : Nat} (hx : x < n) :
    loadLE (fillLine m line color n) (line + 4 * x) 4 = color.toNat := by
  induction n with
  | zero => exact absurd hx (Nat.not_lt_zero x)
  | succ n ih =>
    rw [fillLine]
    by_cases hlast : x = n
    · subst hlast
      exact loadLE_storeLE_same color.toNat_lt
    · rw [(sameOutside_storeLE _ _ _ _).loadLE_eq (by omega)]
      exact ih (by omega)

theorem sameOutside_fillRows (hpitch : 4 * width ≤ pitch) (k : Nat) :
    SameOutside m (fillRows m fb pitch width color first k) (fb + first * pitch)
      (fb + (first + k) * pitch) := by
  induction k with
  | zero => exact SameOutside.refl _ _ _
  | succ k ih =>
    have hrow : (first + (k + 1)) * pitch = (first + k) * pitch + pitch := Nat.succ_mul _ _
    have hstart : first * pitch ≤ (first + k) * pitch := Nat.mul_le_mul_right pitch (Nat.le_add_right first k)
    have hline := sameOutside_fillLine (fillRows m fb pitch width color first k)
      (fb + (first + k) * pitch) color width
    exact (ih.mono (Nat.le_refl _) (by omega)).trans (hline.mono (by omega) (by omega))

/-- Every pixel of the rows has the colour. -/
theorem loadLE_fillRows (hpitch : 4 * width ≤ pitch) {k y x : Nat} (hy : y < k) (hx : x < width) :
    loadLE (fillRows m fb pitch width color first k) (fb + (first + y) * pitch + 4 * x) 4 = color.toNat := by
  induction k with
  | zero => exact absurd hy (Nat.not_lt_zero y)
  | succ k ih =>
    rw [fillRows]
    by_cases hlast : y = k
    · subst hlast
      exact loadLE_fillLine hx
    · -- a row further down is filled later
      have hrow : (first + y) * pitch + pitch ≤ (first + k) * pitch := by
        rw [← Nat.succ_mul]
        exact Nat.mul_le_mul_right pitch (by omega)
      rw [(sameOutside_fillLine _ _ _ _).loadLE_eq (by omega)]
      exact ih (by omega)

end fill

section scroll

variable {fb pitch width height pixels : Nat}

/-- The rows go up by `pixels`, the lowest rows have the colour, and nothing outside the framebuffer
    changes. -/
theorem scrollUp_spec (m : Mem) (color : UInt32) (hspace : fb + height * pitch < addrSpace)
    (hpitch : 4 * width ≤ pitch) (hpixels : 0 < pixels) (hle : pixels ≤ height) :
    (∀ y < height - pixels, ∀ k < pitch, scrollUp m fb pitch width height pixels color (fb + y * pitch + k) =
      m (fb + (y + pixels) * pitch + k)) ∧
    (∀ y < pixels, ∀ x < width, loadLE (scrollUp m fb pitch width height pixels color)
      (fb + (height - pixels + y) * pitch + 4 * x) 4 = color.toNat) ∧
    SameOutside m (scrollUp m fb pitch width height pixels color) fb (fb + height * pitch) := by
  have hrows : height * pitch = (height - pixels) * pitch + pixels * pitch := by
    rw [← Nat.add_mul, Nat.sub_add_cancel hle]
  have hsource : add64 fb (mul64 pixels pitch) = fb + pixels * pitch := by
    rw [mul64_of_lt (by omega), add64_of_lt (by omega)]
  have hcount : mul64 (height - pixels) pitch = (height - pixels) * pitch := mul64_of_lt (by omega)
  have hdest : InSpace fb ((height - pixels) * pitch) := by
    unfold InSpace
    omega
  have hsrc : InSpace (fb + pixels * pitch) ((height - pixels) * pitch) := by
    unfold InSpace
    omega
  obtain ⟨hmoved, hframe⟩ := memmove_spec m hdest hsrc
  have heq : scrollUp m fb pitch width height pixels color =
      fillRows (memmove m fb (fb + pixels * pitch) ((height - pixels) * pitch)) fb pitch width color
        (height - pixels) pixels := by
    rw [scrollUp, if_neg (by omega), hsource, hcount]
  have hfill : SameOutside (memmove m fb (fb + pixels * pitch) ((height - pixels) * pitch))
      (fillRows (memmove m fb (fb + pixels * pitch) ((height - pixels) * pitch)) fb pitch width color
        (height - pixels) pixels) (fb + (height - pixels) * pitch) (fb + height * pitch) := by
    have hall := @sameOutside_fillRows (memmove m fb (fb + pixels * pitch) ((height - pixels) * pitch)) fb
      pitch width (height - pixels) color hpitch pixels
    rw [Nat.sub_add_cancel hle] at hall
    exact hall
  rw [heq]
  refine ⟨fun y hy k hk => ?_, fun y hy x hx => loadLE_fillRows hpitch hy hx, ?_⟩
  · -- the row is above those that are filled
    have hrow : y * pitch + pitch ≤ (height - pixels) * pitch := by
      rw [← Nat.succ_mul]
      exact Nat.mul_le_mul_right pitch hy
    rw [hfill _ (.inl (by omega)), Nat.add_assoc, hmoved (y * pitch + k) (by omega), Nat.add_mul]
    exact congrArg m (by omega)
  · exact (hframe.mono (Nat.le_refl _) (by omega)).trans (hfill.mono (by omega) (Nat.le_refl _))

/-- Two rows of one pixel go up by one. -/
theorem scrollUp_spec_small :
    (∀ y < 2 - 1, ∀ k < 4, scrollUp (fun _ => 7) 16 4 1 2 1 0 (16 + y * 4 + k) =
      (fun _ => 7 : Mem) (16 + (y + 1) * 4 + k)) ∧
    (∀ y < 1, ∀ x < 1, loadLE (scrollUp (fun _ => 7) 16 4 1 2 1 0)
      (16 + (2 - 1 + y) * 4 + 4 * x) 4 = (0 : UInt32).toNat) ∧
    SameOutside (fun _ => 7) (scrollUp (fun _ => 7) 16 4 1 2 1 0) 16 (16 + 2 * 4) :=
  scrollUp_spec (fun _ => 7) 0 (by rw [addrSpace_eq]; decide) (by decide) (by decide) (by decide)

end scroll

end ChocoOs.Framebuffer
