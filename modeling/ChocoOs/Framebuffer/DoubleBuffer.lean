import ChocoOs.Framebuffer.Operations
import ChocoOs.Lib.LastWrite

/-!
# Double buffering

Clearing and rectangles go to the back buffer, characters to the screen, where the swap overwrites
them. A sequence of calls looks the same with and without the back buffer if no character is left to
be seen on it.
-/

namespace ChocoOs.Framebuffer
open ProgLib

/-- What the variables of the back buffer always satisfy. -/
def Screen.Ok (s : Screen) : Prop :=
  s.backbuffer.isSome = true → s.backWidth = s.width ∧ s.backHeight = s.height

/-- The word of a pixel. -/
def Screen.pixelIndex (s : Screen) (x y : Nat) : Nat := y * s.pitchPixels + x

/-- The pixels of a clearing or a rectangle, in the order in which they are drawn. -/
def Screen.shape (s : Screen) : Draw → List ((Nat × Nat) × UInt32)
  | .clear color => (grid (List.range s.height) (List.range s.width)).map fun p => ((p.2, p.1), color)
  | .rect x y width height color =>
    ((grid (span x width) (span y height)).filter fun p => p.1 < s.width ∧ p.2 < s.height).map
      fun p => (p, color)
  | .string .. => []

/-- The words that a character writes. -/
def Screen.charWrites (s : Screen) (font : Font) (c : Nat) (cx cy : Int) (fg bg : UInt32) :
    List (Nat × UInt32) :=
  (grid (List.range font.height) (List.range font.width)).map fun p =>
    (((charOffset s.pitch font cx cy + p.1 * toInt32 s.pitch + 4 * p.2) / 4).toNat,
      if font.pixel c p.2 p.1 = true then fg else bg)

def Screen.stringWrites (s : Screen) (font : Font) : List UInt8 → (cx cy : Int) →
    (fg bg : UInt32) → List (Nat × UInt32)
  | [], _, _, _, _ => []
  | b :: str, cx, cy, fg, bg =>
    if b = 0 then []
    else s.charWrites font (charCode b) cx cy fg bg ++ s.stringWrites font str (cx + 1) cy fg bg

/-- The words of the screen that a call writes when double buffering is off, in order. -/
def Screen.writes (s : Screen) (font : Font) : Draw → List (Nat × UInt32)
  | .string str cx cy fg bg => s.stringWrites font str cx cy fg bg
  | d => (s.shape d).map fun w => (s.pixelIndex w.1.1 w.1.2, w.2)

def Draw.isString : Draw → Bool
  | .string .. => true
  | _ => false

/-- Every visible pixel that a string writes is written again by a later call, or gets the colour that
    the last clearing or rectangle before had given it. -/
def Screen.TextHidden (s : Screen) (font : Font) (calls : List Draw) : Prop :=
  ∀ before text after, calls = before ++ text :: after → text.isString = true →
    ∀ x < s.width, ∀ y < s.height, ∀ color,
      lastWrite (s.writes font text) (s.pixelIndex x y) = some color →
      (∃ d ∈ after, ∃ w ∈ s.writes font d, w.1 = s.pixelIndex x y) ∨
      lastWrite ((before.filter fun d => !d.isString).flatMap (s.writes font)) (s.pixelIndex x y) =
        some color

/-! ## Drawing to the screen -/

theorem mem_grid {outer inner : List Nat} {p : Nat × Nat} :
    p ∈ grid outer inner ↔ p.1 ∈ outer ∧ p.2 ∈ inner := by
  simp only [grid, List.mem_flatMap, List.mem_map]
  exact ⟨fun ⟨i, hi, j, hj, h⟩ => h ▸ ⟨hi, hj⟩, fun ⟨h1, h2⟩ => ⟨p.1, h1, p.2, h2, rfl⟩⟩

/-- Of the pixels of a loop only the visible ones are drawn. -/
theorem flatMap_visible {s : Screen} {is : List (Nat × Nat)} (f : Nat × Nat → Nat × Nat)
    (g : Nat → Nat → Nat) (color : UInt32) :
    (is.flatMap fun p =>
      if (f p).1 < s.width ∧ (f p).2 < s.height then [(g (f p).1 (f p).2, color)] else []) =
    ((is.filter fun p => (f p).1 < s.width ∧ (f p).2 < s.height).map fun p =>
      (g (f p).1 (f p).2, color)) := by
  induction is with
  | nil => rfl
  | cons i is ih =>
    rw [List.flatMap_cons, ih, List.filter_cons]
    by_cases h : (f i).1 < s.width ∧ (f i).2 < s.height
    · rw [if_pos h, if_pos (decide_eq_true h), List.map_cons]
      rfl
    · rw [if_neg h, if_neg (by simpa only [decide_eq_true_eq] using h)]
      rfl

/-- All pixels of a clearing are visible. -/
theorem grid_visible (s : Screen) : (grid (List.range s.height) (List.range s.width)).filter
    (fun p => p.2 < s.width ∧ p.1 < s.height) = grid (List.range s.height) (List.range s.width) := by
  refine List.filter_eq_self.mpr fun p hp => ?_
  obtain ⟨h1, h2⟩ := mem_grid.mp hp
  exact decide_eq_true ⟨List.mem_range.mp h2, List.mem_range.mp h1⟩

/-- A memory after writes. -/
def written (m : Nat → UInt32) (ws : List (Nat × UInt32)) : Nat → UInt32 :=
  ws.foldl (fun m w => Function.update m w.1 w.2) m

theorem written_append (m : Nat → UInt32) (ws vs : List (Nat × UInt32)) :
    written m (ws ++ vs) = written (written m ws) vs := List.foldl_append ..

/-- A loop of steps that write to the screen. -/
theorem foldlM_front {ι : Type} {step : Screen → ι → Option Screen} {s t : Screen}
    {ws : ι → List (Nat × UInt32)}
    (hstep : ∀ m i t, step { s with front := m } i = some t → t = { s with front := written m (ws i) })
    {is : List ι} {m : Nat → UInt32} (h : is.foldlM step { s with front := m } = some t) :
    t = { s with front := written m (is.flatMap ws) } := by
  induction is generalizing m with
  | nil => cases h; rfl
  | cons i is ih =>
    rw [List.foldlM_cons, Option.bind_eq_bind, Option.bind_eq_some_iff] at h
    obtain ⟨u, hu, h⟩ := h
    rw [hstep m i u hu] at h
    rw [List.flatMap_cons, written_append]
    exact ih h

/-- Each step of such a loop is defined. -/
theorem foldlM_mem {ι : Type} {step : Screen → ι → Option Screen} {s t : Screen}
    {ws : ι → List (Nat × UInt32)}
    (hstep : ∀ m i t, step { s with front := m } i = some t → t = { s with front := written m (ws i) })
    {is : List ι} {m : Nat → UInt32} (h : is.foldlM step { s with front := m } = some t) {i : ι}
    (hi : i ∈ is) : ∃ m' u, step { s with front := m' } i = some u := by
  induction is generalizing m with
  | nil => cases hi
  | cons j is ih =>
    rw [List.foldlM_cons, Option.bind_eq_bind, Option.bind_eq_some_iff] at h
    obtain ⟨u, hu, h⟩ := h
    obtain rfl | hi := List.mem_cons.mp hi
    · exact ⟨m, u, hu⟩
    · rw [hstep m j u hu] at h
      exact ih h hi

section front

variable {s t : Screen} {m : Nat → UInt32}

theorem poke_front {off : Int} {color : UInt32} (h : ({ s with front := m } : Screen).poke off color = some t) :
    t = { s with front := written m [((off / 4).toNat, color)] } := by
  rw [Screen.poke] at h
  split at h
  · cases h
    rfl
  · cases h

theorem drawPixel_front (hoff : s.useDoubleBuffer = false) {x y : Nat} {color : UInt32}
    (h : ({ s with front := m } : Screen).drawPixel x y color = some t) :
    t = { s with front := written m (
      if x < s.width ∧ y < s.height then [(s.pixelIndex x y, color)] else []) } := by
  rw [Screen.drawPixel] at h
  by_cases hvis : x < s.width ∧ y < s.height
  · have hin : ¬ (s.width ≤ x ∨ s.height ≤ y) := by omega
    have hdirect : ¬ (s.useDoubleBuffer = true ∧ s.backbuffer.isSome = true ∧ x < s.backWidth ∧
        y < s.backHeight) := fun h => by
      rw [hoff] at h
      cases h.1
    rw [if_neg hin, if_neg hdirect] at h
    have hword : (4 * ((y * s.pitchPixels + x : Nat) : Int) / 4).toNat = s.pixelIndex x y := by
      rw [Int.mul_ediv_cancel_left _ (by decide), Int.toNat_natCast]
      rfl
    rw [if_pos hvis, ← hword]
    exact poke_front h
  · rw [if_pos (show s.width ≤ x ∨ s.height ≤ y by omega)] at h
    rw [if_neg hvis]
    cases h
    rfl

theorem putChar_front {font : Font} {c : Nat} {cx cy : Int} {fg bg : UInt32}
    (h : ({ s with front := m } : Screen).putChar font c cx cy fg bg = some t) :
    t = { s with front := written m (s.charWrites font c cx cy fg bg) } := by
  rw [Screen.putChar] at h
  rw [Screen.charWrites, List.map_eq_flatMap]
  exact foldlM_front (s := s) (fun m i t hstep => poke_front (s := s) hstep) h

theorem putString_front {font : Font} {str : List UInt8} {cy : Int} {fg bg : UInt32} :
    ∀ {cx : Int} {m : Nat → UInt32} {t : Screen},
    ({ s with front := m } : Screen).putString font str cx cy fg bg = some t →
    t = { s with front := written m (s.stringWrites font str cx cy fg bg) } := by
  induction str with
  | nil =>
    intro cx m t h
    cases h
    rfl
  | cons b str ih =>
    intro cx m t h
    rw [Screen.putString] at h
    rw [Screen.stringWrites]
    by_cases hb : b = 0
    · rw [if_pos hb] at h
      rw [if_pos hb]
      cases h
      rfl
    · rw [if_neg hb, Option.bind_eq_bind, Option.bind_eq_some_iff] at h
      obtain ⟨u, hu, h⟩ := h
      rw [putChar_front hu] at h
      rw [if_neg hb, written_append]
      exact ih h

theorem draw_front (hoff : s.useDoubleBuffer = false) {font : Font} {d : Draw}
    (h : ({ s with front := m } : Screen).draw font d = some t) :
    t = { s with front := written m (s.writes font d) } := by
  cases d with
  | clear color =>
    have hrun := foldlM_front (s := s) (fun m p t hstep => drawPixel_front (s := s) hoff hstep) h
    rw [hrun, flatMap_visible (fun p => (p.2, p.1)) s.pixelIndex, grid_visible, Screen.writes,
      Screen.shape, List.map_map]
    · rfl
    · exact nofun
  | rect x y width height color =>
    have hrun := foldlM_front (s := s) (fun m p t hstep => drawPixel_front (s := s) hoff hstep) h
    rw [hrun, flatMap_visible (fun p => p) s.pixelIndex, Screen.writes, Screen.shape, List.map_map]
    · rfl
    · exact nofun
  | string str cx cy fg bg => exact putString_front h

theorem drawAll_front (hoff : s.useDoubleBuffer = false) {font : Font} {calls : List Draw}
    (h : ({ s with front := m } : Screen).drawAll font calls = some t) :
    t = { s with front := written m (calls.flatMap (s.writes font)) } :=
  foldlM_front (s := s) (fun _ _ _ hstep => draw_front hoff hstep) h

end front

/-! ## Drawing to the back buffer -/

/-- The state with these two memories, and double buffering on. -/
def Screen.doubled (s : Screen) (m b : Nat → UInt32) : Screen :=
  { s with
    front := m, backbuffer := some b, useDoubleBuffer := true
    backWidth := s.width, backHeight := s.height }

/-- The words of the back buffer that a call writes. -/
def Screen.backWrites (s : Screen) (d : Draw) : List (Nat × UInt32) :=
  (s.shape d).map fun w => (w.1.2 * s.width + w.1.1, w.2)

section back

variable {s t : Screen} {m : Nat → UInt32}

/-- Whether a write fits does not depend on what the memories hold. -/
theorem poke_doubled {off : Int} {color : UInt32}
    (h : ({ s with front := m } : Screen).poke off color = some t) (m' b : Nat → UInt32) :
    ∃ m'', (s.doubled m' b).poke off color = some (s.doubled m'' b) := by
  rw [Screen.poke] at h
  split at h
  · next hfit => exact ⟨_, if_pos hfit⟩
  · cases h

/-- A loop that writes to the screen only. -/
theorem foldlM_doubled {ι : Type} {step step' : Screen → ι → Option Screen}
    (hstep : ∀ m i t, step { s with front := m } i = some t → (∃ m', t = { s with front := m' }) ∧
      ∀ m' b, ∃ m'', step' (s.doubled m' b) i = some (s.doubled m'' b))
    {is : List ι} (h : is.foldlM step { s with front := m } = some t) (m' b : Nat → UInt32) :
    ∃ m'', is.foldlM step' (s.doubled m' b) = some (s.doubled m'' b) := by
  induction is generalizing m m' with
  | nil => exact ⟨m', rfl⟩
  | cons i is ih =>
    rw [List.foldlM_cons, Option.bind_eq_bind, Option.bind_eq_some_iff] at h
    obtain ⟨u, hu, h⟩ := h
    obtain ⟨⟨m1, rfl⟩, hdouble⟩ := hstep m i u hu
    obtain ⟨m2, hm2⟩ := hdouble m' b
    rw [List.foldlM_cons, hm2]
    exact ih h m2

theorem putString_doubled {font : Font} {str : List UInt8} {cy : Int} {fg bg : UInt32}
    (b : Nat → UInt32) : ∀ {cx : Int} {m m' : Nat → UInt32},
    ({ s with front := m } : Screen).putString font str cx cy fg bg = some t →
    ∃ m'', (s.doubled m' b).putString font str cx cy fg bg = some (s.doubled m'' b) := by
  induction str with
  | nil => exact fun _ => ⟨_, rfl⟩
  | cons c str ih =>
    intro cx m m' h
    rw [Screen.putString] at h ⊢
    by_cases hc : c = 0
    · rw [if_pos hc]
      exact ⟨m', rfl⟩
    · rw [if_neg hc, Option.bind_eq_bind, Option.bind_eq_some_iff] at h
      obtain ⟨u, hu, h⟩ := h
      obtain ⟨m1, hm1⟩ : ∃ m1, (s.doubled m' b).putChar font (charCode c) cx cy fg bg =
          some (s.doubled m1 b) :=
        foldlM_doubled (s := s) (fun m p t hstep => ⟨⟨_, poke_front (s := s) hstep⟩,
          fun m' b => poke_doubled hstep m' b⟩) hu m' b
      rw [putChar_front hu] at h
      rw [if_neg hc, hm1]
      exact ih h

/-- A pixel of the back buffer. -/
theorem drawPixel_doubled (m b : Nat → UInt32) (x y : Nat) (color : UInt32) :
    (s.doubled m b).drawPixel x y color = some (s.doubled m (written b
      (if x < s.width ∧ y < s.height then [(y * s.width + x, color)] else []))) := by
  rw [Screen.drawPixel]
  by_cases hvis : x < s.width ∧ y < s.height
  · have hin : ¬ ((s.doubled m b).width ≤ x ∨ (s.doubled m b).height ≤ y) := by
      show ¬ (s.width ≤ x ∨ s.height ≤ y)
      omega
    rw [if_neg hin, if_pos hvis]
    exact if_pos ⟨rfl, rfl, hvis⟩
  · have hout : (s.doubled m b).width ≤ x ∨ (s.doubled m b).height ≤ y := by
      show s.width ≤ x ∨ s.height ≤ y
      omega
    rw [if_pos hout, if_neg hvis]
    rfl

theorem foldlM_back {f : Nat × Nat → Nat × Nat} {color : UInt32} {m : Nat → UInt32}
    {is : List (Nat × Nat)} : ∀ {b : Nat → UInt32},
    is.foldlM (fun (s : Screen) p => s.drawPixel (f p).1 (f p).2 color) (s.doubled m b) =
      some (s.doubled m (written b (is.flatMap fun p =>
        if (f p).1 < s.width ∧ (f p).2 < s.height then [((f p).2 * s.width + (f p).1, color)] else []))) := by
  induction is with
  | nil => exact rfl
  | cons i is ih =>
    intro b
    rw [List.foldlM_cons, drawPixel_doubled, List.flatMap_cons, written_append]
    exact ih

theorem draw_doubled {font : Font} {d : Draw}
    (h : ({ s with front := m } : Screen).draw font d = some t) (m' b : Nat → UInt32) :
    ∃ m'', (s.doubled m' b).draw font d = some (s.doubled m'' (written b (s.backWrites d))) := by
  cases d with
  | clear color =>
    refine ⟨m', (foldlM_back (s := s) (f := fun p => (p.2, p.1))).trans ?_⟩
    have hgrid : grid (List.range (s.doubled m' b).height) (List.range (s.doubled m' b).width) =
        grid (List.range s.height) (List.range s.width) := rfl
    rw [flatMap_visible (fun p => (p.2, p.1)) fun x y => y * s.width + x, hgrid, grid_visible,
      Screen.backWrites, Screen.shape, List.map_map]
    rfl
  | rect x y width height color =>
    refine ⟨m', (foldlM_back (s := s) (f := fun p => p)).trans ?_⟩
    rw [flatMap_visible (fun p => p) fun x y => y * s.width + x, Screen.backWrites, Screen.shape,
      List.map_map]
    rfl
  | string str cx cy fg bg => exact putString_doubled b h

theorem drawAll_doubled {font : Font} (hoff : s.useDoubleBuffer = false) {calls : List Draw} :
    ∀ (m' b : Nat → UInt32) {m : Nat → UInt32}, ({ s with front := m } : Screen).drawAll font calls = some t →
    ∃ m'', (s.doubled m' b).drawAll font calls =
      some (s.doubled m'' (written b (calls.flatMap s.backWrites))) := by
  induction calls with
  | nil => exact fun _ _ _ _ => ⟨_, rfl⟩
  | cons d calls ih =>
    intro m' b m h
    rw [Screen.drawAll, List.foldlM_cons, Option.bind_eq_bind, Option.bind_eq_some_iff] at h
    obtain ⟨u, hu, h⟩ := h
    obtain ⟨m1, hm1⟩ := draw_doubled hu m' b
    rw [draw_front hoff hu] at h
    rw [Screen.drawAll, List.foldlM_cons, hm1, List.flatMap_cons, written_append]
    exact ih m1 _ h

/-! ## The swap -/

/-- All words of the visible pixels lie in the framebuffer. -/
def Screen.Fits (s : Screen) : Prop :=
  ∀ x < s.width, ∀ y < s.height, 4 * s.pixelIndex x y + 4 ≤ s.pitch * s.height

/-- The loops of the swap. -/
theorem swap_loop {is : List (Nat × Nat)} (b : Nat → UInt32)
    (his : ∀ p ∈ is, 4 * s.pixelIndex p.2 p.1 + 4 ≤ s.pitch * s.height) :
    is.foldlM (fun (s : Screen) p =>
      s.poke (4 * (p.1 * s.pitchPixels + p.2 : Nat)) (b (p.1 * s.backWidth + p.2)))
      (s.doubled m b) =
    some (s.doubled (written m (is.map fun p =>
      (s.pixelIndex p.2 p.1, b (p.1 * s.width + p.2)))) b) := by
  induction is generalizing m with
  | nil => rfl
  | cons i is ih =>
    rw [List.foldlM_cons, List.map_cons]
    have hi : 4 * s.pixelIndex i.2 i.1 + 4 ≤ s.pitch * s.height := his i (List.mem_cons_self ..)
    have hfit : 0 ≤ 4 * ((s.pixelIndex i.2 i.1 : Nat) : Int) ∧
        4 * ((s.pixelIndex i.2 i.1 : Nat) : Int) + 4 ≤ s.pitch * s.height ∧
        4 * ((s.pixelIndex i.2 i.1 : Nat) : Int) % 4 = 0 := by
      refine ⟨by omega, ?_, Int.mul_emod_right ..⟩
      exact_mod_cast hi
    have hword : (4 * ((s.pixelIndex i.2 i.1 : Nat) : Int) / 4).toNat = s.pixelIndex i.2 i.1 := by
      rw [Int.mul_ediv_cancel_left _ (by decide), Int.toNat_natCast]
    have hpoke : (s.doubled m b).poke (4 * (i.1 * (s.doubled m b).pitchPixels + i.2 : Nat))
        (b (i.1 * (s.doubled m b).backWidth + i.2)) =
        some (s.doubled (written m [(s.pixelIndex i.2 i.1, b (i.1 * s.width + i.2))]) b) := by
      refine (if_pos hfit).trans ?_
      rw [← hword]
      rfl
    rw [hpoke]
    exact ih fun p hp => his p (List.mem_cons_of_mem _ hp)

theorem swap_doubled (hfits : s.Fits) (b : Nat → UInt32) : (s.doubled m b).swap =
    some (s.doubled (written m ((grid (List.range s.height) (List.range s.width)).map fun p =>
      (s.pixelIndex p.2 p.1, b (p.1 * s.width + p.2)))) b) := by
  have hgrid : grid (List.range (min s.height s.height)) (List.range (min s.width s.width)) =
      grid (List.range s.height) (List.range s.width) := by rw [Nat.min_self, Nat.min_self]
  refine Eq.trans ?_ (swap_loop b fun p hp => ?_)
  · rw [← hgrid]
    rfl
  · obtain ⟨hy, hx⟩ := mem_grid.mp hp
    exact hfits p.2 (List.mem_range.mp hx) p.1 (List.mem_range.mp hy)

/-- A clearing that draws directly shows that the pixels lie in the framebuffer. -/
theorem clear_fits (hoff : s.useDoubleBuffer = false) {color : UInt32}
    (h : ({ s with front := m } : Screen).clear color = some t) : s.Fits := by
  intro x hx y hy
  have hmem : (y, x) ∈ grid (List.range s.height) (List.range s.width) :=
    mem_grid.mpr ⟨List.mem_range.mpr hy, List.mem_range.mpr hx⟩
  obtain ⟨m', u, hu⟩ := foldlM_mem (s := s)
    (fun m p t hstep => drawPixel_front (s := s) hoff hstep) h hmem
  have hin : ¬ (s.width ≤ x ∨ s.height ≤ y) := by omega
  have hdirect : ¬ (s.useDoubleBuffer = true ∧ s.backbuffer.isSome = true ∧ x < s.backWidth ∧
      y < s.backHeight) := fun h => by
    rw [hoff] at h
    cases h.1
  rw [Screen.drawPixel, if_neg hin, if_neg hdirect, Screen.poke] at hu
  split at hu
  · next hfit =>
    have hbytes := hfit.2.1
    exact_mod_cast hbytes
  · cases hu

end back

/-! ## What is seen -/

section seen

variable {s : Screen} {font : Font} {calls : List Draw} {x y : Nat}

/-- A place in rows that do not overlap has one row and one column. -/
theorem place_inj {pitch x' y' : Nat} (hx : x < pitch) (hx' : x' < pitch)
    (h : y' * pitch + x' = y * pitch + x) : (x', y') = (x, y) := by
  have hpos : 0 < pitch := by omega
  have hrow : y' = y := by
    have hdiv := congrArg (· / pitch) h
    simpa only [Nat.mul_comm _ pitch, Nat.mul_add_div hpos, Nat.div_eq_of_lt hx,
      Nat.div_eq_of_lt hx', Nat.add_zero] using hdiv
  rw [hrow] at h ⊢
  rw [Nat.add_left_cancel h]

theorem mem_shape {d : Draw} {w : (Nat × Nat) × UInt32} (hw : w ∈ s.shape d) :
    w.1.1 < s.width ∧ w.1.2 < s.height := by
  cases d with
  | clear color =>
    obtain ⟨p, hp, rfl⟩ := List.mem_map.mp hw
    obtain ⟨hy, hx⟩ := mem_grid.mp hp
    exact ⟨List.mem_range.mp hx, List.mem_range.mp hy⟩
  | rect x y width height color =>
    obtain ⟨p, hp, rfl⟩ := List.mem_map.mp hw
    exact of_decide_eq_true (List.mem_filter.mp hp).2
  | string => cases hw

/-- The last shape over a pixel can be read off either buffer. -/
theorem lastWrite_shapes {pitch : Nat} (hpitch : s.width ≤ pitch) (hx : x < s.width)
    (calls : List Draw) :
    lastWrite (calls.flatMap fun d => (s.shape d).map fun w => (w.1.2 * pitch + w.1.1, w.2))
      (y * pitch + x) = lastWrite (calls.flatMap s.shape) (x, y) := by
  rw [← List.map_flatMap]
  refine lastWrite_map (f := fun p : Nat × Nat => p.2 * pitch + p.1) (a := (x, y))
    fun w hw heq => ?_
  obtain ⟨d, -, hwd⟩ := List.mem_flatMap.mp hw
  exact place_inj (by omega) (Nat.lt_of_lt_of_le (mem_shape hwd).1 hpitch) heq

/-- The words that the calls other than strings write. -/
theorem filter_writes (s : Screen) (font : Font) (calls : List Draw) :
    (calls.filter fun d => !d.isString).flatMap (s.writes font) =
      calls.flatMap fun d => (s.shape d).map fun w => (w.1.2 * s.pitchPixels + w.1.1, w.2) := by
  induction calls with
  | nil => rfl
  | cons d calls ih =>
    rw [List.flatMap_cons, ← ih]
    cases d with
    | string str cx cy fg bg => rfl
    | clear color => rfl
    | rect x y width height color => rfl

/-- After a clearing every pixel has got a colour. -/
theorem clear_paints (hx : x < s.width) (hy : y < s.height) (color : UInt32) (calls : List Draw) :
    ∃ c, lastWrite ((Draw.clear color :: calls).flatMap s.shape) (x, y) = some c := by
  cases hlast : lastWrite ((Draw.clear color :: calls).flatMap s.shape) (x, y) with
  | some c => exact ⟨c, rfl⟩
  | none =>
    have hmem : ((x, y), color) ∈ (Draw.clear color :: calls).flatMap s.shape :=
      List.mem_flatMap.mpr ⟨_, List.mem_cons_self .., List.mem_map.mpr
        ⟨(y, x), mem_grid.mpr ⟨List.mem_range.mpr hy, List.mem_range.mpr hx⟩, rfl⟩⟩
    exact absurd rfl (lastWrite_eq_none.mp hlast _ hmem)

/-- What is written by shapes is written. -/
theorem writes_paint {p : Nat} {c : UInt32}
    (h : lastWrite ((calls.filter fun d => !d.isString).flatMap (s.writes font)) p = some c) :
    ∃ c', lastWrite (calls.flatMap (s.writes font)) p = some c' := by
  cases hlast : lastWrite (calls.flatMap (s.writes font)) p with
  | some c' => exact ⟨c', rfl⟩
  | none =>
    have hnone : lastWrite ((calls.filter fun d => !d.isString).flatMap (s.writes font)) p = none :=
      lastWrite_eq_none.mpr fun w hw =>
        have ⟨d, hd, hwd⟩ := List.mem_flatMap.mp hw
        lastWrite_eq_none.mp hlast w (List.mem_flatMap.mpr ⟨d, (List.mem_filter.mp hd).1, hwd⟩)
    rw [hnone] at h
    cases h

/-- The swap shows the back buffer. -/
theorem visible_swapped {m b b' : Nat → UInt32} (hfit : s.width ≤ s.pitchPixels) (hx : x < s.width)
    (hy : y < s.height) :
    (s.doubled (written m ((grid (List.range s.height) (List.range s.width)).map fun p =>
      (s.pixelIndex p.2 p.1, b (p.1 * s.width + p.2)))) b').visible x y = b (y * s.width + x) := by
  have hmem : (y, x) ∈ grid (List.range s.height) (List.range s.width) :=
    mem_grid.mpr ⟨List.mem_range.mpr hy, List.mem_range.mpr hx⟩
  have hplaces := lastWrite_map (f := fun p : Nat × Nat => s.pixelIndex p.2 p.1) (a := (y, x))
    fun (w : (Nat × Nat) × UInt32) (hw : w ∈ (grid (List.range s.height) (List.range s.width)).map
      fun p => (p, b (p.1 * s.width + p.2))) heq => by
        obtain ⟨p, hp, rfl⟩ := List.mem_map.mp hw
        have hcol := List.mem_range.mp (mem_grid.mp hp).2
        have hplace := place_inj (Nat.lt_of_lt_of_le hx hfit) (Nat.lt_of_lt_of_le hcol hfit) heq
        exact Prod.ext (congrArg Prod.snd hplace) (congrArg Prod.fst hplace)
  rw [List.map_map, lastWrite_self (fun p : Nat × Nat => b (p.1 * s.width + p.2)) hmem] at hplaces
  refine (foldl_update _ m (s.pixelIndex x y)).trans ?_
  exact congrArg (fun c : Option UInt32 => c.getD _) hplaces

end seen

/-- A pixel that is drawn directly. -/
theorem visible_written {s : Screen} {m : Nat → UInt32} {ws : List (Nat × UInt32)} {x y : Nat}
    {c : UInt32} (h : lastWrite ws (s.pixelIndex x y) = some c) :
    ({ s with front := written m ws } : Screen).visible x y = c := by
  refine (foldl_update ws m (s.pixelIndex x y)).trans ?_
  rw [h]
  rfl

/-- Both ways of drawing, from the same screen. -/
theorem swapped_eq_direct_iff {s t : Screen} (hoff : s.useDoubleBuffer = false)
    (hfit : s.width ≤ s.pitchPixels) {font : Font} {color : UInt32} {calls : List Draw}
    (hdirect : s.drawAll font (.clear color :: calls) = some t) (b : Nat → UInt32) :
    (∃ s2 s3, (s.doubled s.front b).drawAll font (.clear color :: calls) = some s2 ∧
      s2.swap = some s3 ∧ ∀ x < s.width, ∀ y < s.height, s3.visible x y = t.visible x y) ↔
    s.TextHidden font (.clear color :: calls) := by
  have hfits : s.Fits := by
    rw [Screen.drawAll, List.foldlM_cons, Option.bind_eq_bind, Option.bind_eq_some_iff] at hdirect
    obtain ⟨u, hu, -⟩ := hdirect
    exact clear_fits (s := s) (m := s.front) hoff hu
  have ht := drawAll_front (s := s) (m := s.front) hoff hdirect
  obtain ⟨m, hm⟩ := drawAll_doubled (s := s) (m := s.front) hoff s.front b hdirect
  have hswap := swap_doubled (m := m) hfits
    (written b ((Draw.clear color :: calls).flatMap s.backWrites))
  -- the colours of a pixel are those of its last shape, and of its last call
  have hpixel : ∀ x < s.width, ∀ y < s.height, (s.doubled (written m
      ((grid (List.range s.height) (List.range s.width)).map fun p => (s.pixelIndex p.2 p.1,
        written b ((Draw.clear color :: calls).flatMap s.backWrites) (p.1 * s.width + p.2))))
      (written b ((Draw.clear color :: calls).flatMap s.backWrites))).visible x y = t.visible x y ↔
      lastWrite (((Draw.clear color :: calls).filter fun d => !d.isString).flatMap (s.writes font))
          (s.pixelIndex x y) =
        lastWrite ((Draw.clear color :: calls).flatMap (s.writes font)) (s.pixelIndex x y) := by
    intro x hx y hy
    obtain ⟨c, hc⟩ := clear_paints hx hy color calls
    have hshape : lastWrite (((Draw.clear color :: calls).filter fun d => !d.isString).flatMap
        (s.writes font)) (s.pixelIndex x y) = some c := by
      rw [filter_writes, ← hc]
      exact lastWrite_shapes hfit hx _
    have hback : written b ((Draw.clear color :: calls).flatMap s.backWrites) (y * s.width + x) =
        c := by
      refine (foldl_update _ b (y * s.width + x)).trans ?_
      have hlast := (lastWrite_shapes (y := y) (Nat.le_refl s.width) hx
        (Draw.clear color :: calls)).trans hc
      exact congrArg (fun c : Option UInt32 => c.getD _) hlast
    obtain ⟨c', hc'⟩ := writes_paint hshape
    rw [visible_swapped hfit hx hy, hback, ht, visible_written hc', hshape, hc', Option.some_inj]
  constructor
  · rintro ⟨s2, s3, hs2, hs3, heq⟩ before text after hcalls htext x hx y hy
    rw [hm] at hs2
    cases hs2
    rw [hswap] at hs3
    cases hs3
    have hlast := (hpixel x hx y hy).mp (heq x hx y hy)
    exact (lastWrite_filter_iff _ _ _ _).mp hlast before text after hcalls
      (by rw [htext]; rfl)
  · intro hhidden
    refine ⟨_, _, hm, hswap, fun x hx y hy => (hpixel x hx y hy).mpr ?_⟩
    apply (lastWrite_filter_iff _ _ _ _).mpr
    intro before text after hcalls htext
    exact hhidden before text after hcalls (by rw [← Bool.not_eq_false', htext]) x hx y hy

/-- Turning the double buffer off moves no pixel. -/
theorem setDoubleBuffer_false (s : Screen) :
    (s.setDoubleBuffer false none).useDoubleBuffer = false ∧
    (s.setDoubleBuffer false none).width = s.width ∧
    (s.setDoubleBuffer false none).height = s.height ∧
    (s.setDoubleBuffer false none).pitch = s.pitch ∧
    (s.setDoubleBuffer false none).bpp = s.bpp := by
  cases s with
  | mk width height pitch bpp front backbuffer on backWidth backHeight =>
    cases backbuffer with
    | none => exact ⟨rfl, rfl, rfl, rfl, rfl⟩
    | some b => exact ⟨rfl, rfl, rfl, rfl, rfl⟩

theorem writes_congr {s s' : Screen} (hwidth : s'.width = s.width) (hheight : s'.height = s.height)
    (hpitch : s'.pitch = s.pitch) (hbpp : s'.bpp = s.bpp) (font : Font) :
    s'.writes font = s.writes font := by
  funext d
  cases d with
  | clear color =>
    simp only [Screen.writes, Screen.shape, Screen.pixelIndex, Screen.pitchPixels, hwidth, hheight,
      hpitch, hbpp]
  | rect x y width height color =>
    simp only [Screen.writes, Screen.shape, Screen.pixelIndex, Screen.pitchPixels, hwidth, hheight,
      hpitch, hbpp]
  | string str cx cy fg bg =>
    show s'.stringWrites font str cx cy fg bg = s.stringWrites font str cx cy fg bg
    induction str generalizing cx with
    | nil => rfl
    | cons b str ih =>
      rw [Screen.stringWrites, Screen.stringWrites, ih, Screen.charWrites, Screen.charWrites, hpitch]

theorem textHidden_setDoubleBuffer {s : Screen} {font : Font} {calls : List Draw} :
    (s.setDoubleBuffer false none).TextHidden font calls ↔ s.TextHidden font calls := by
  obtain ⟨-, hwidth, hheight, hpitch, hbpp⟩ := setDoubleBuffer_false s
  unfold Screen.TextHidden Screen.pixelIndex Screen.pitchPixels
  rw [writes_congr hwidth hheight hpitch hbpp, hwidth, hheight, hpitch, hbpp]

/-- Turning the double buffer on, and what it holds then. -/
theorem setDoubleBuffer_true {s : Screen} (hs : s.Ok) (fresh : Nat → UInt32) :
    ∃ b, s.setDoubleBuffer true (some fresh) =
      (s.setDoubleBuffer false none).doubled (s.setDoubleBuffer false none).front b := by
  obtain ⟨width, height, pitch, bpp, front, backbuffer, on, backWidth, backHeight⟩ := s
  cases backbuffer with
  | none => exact ⟨fresh, rfl⟩
  | some b =>
    obtain ⟨hwidth, hheight⟩ : backWidth = width ∧ backHeight = height := hs rfl
    rw [hwidth, hheight]
    exact ⟨b, rfl⟩

/-- Drawing to the back buffer and swapping it shows what drawing directly does iff no text is to be
    seen. -/
theorem double_buffer_transparent_iff (font : Font) (s0 s1 : Screen) (hs : s0.Ok)
    (hfit : s0.width ≤ s0.pitchPixels) (color : UInt32) (calls : List Draw)
    (hdirect : (s0.setDoubleBuffer false none).drawAll font (.clear color :: calls) = some s1)
    (fresh : Nat → UInt32) :
    (∃ s2 s3, (s0.setDoubleBuffer true (some fresh)).drawAll font (.clear color :: calls) =
        some s2 ∧ s2.swap = some s3 ∧
      ∀ x < s0.width, ∀ y < s0.height, s3.visible x y = s1.visible x y) ↔
    s0.TextHidden font (.clear color :: calls) := by
  obtain ⟨b, hb⟩ := setDoubleBuffer_true hs fresh
  obtain ⟨hoff, hwidth, hheight, hpitch, hbpp⟩ := setDoubleBuffer_false s0
  have hfit' : (s0.setDoubleBuffer false none).width ≤
      (s0.setDoubleBuffer false none).pitchPixels := by
    rw [Screen.pitchPixels, hwidth, hpitch, hbpp]
    exact hfit
  have hiff := swapped_eq_direct_iff hoff hfit' hdirect b
  rw [textHidden_setDoubleBuffer, hwidth, hheight] at hiff
  rw [hb]
  exact hiff

/-- A screen of one character. -/
def smallScreen : Screen where
  width := 2
  height := 2
  pitch := 8
  bpp := 32
  front := fun _ => 0
  backbuffer := none
  useDoubleBuffer := false
  backWidth := 0
  backHeight := 0

/-- A font in which every pixel of a character is set. -/
def fullFont : Font where
  headersize := 0
  numglyph := 256
  bytesperglyph := 2
  height := 2
  width := 2
  width_lt := by decide
  data := fun _ => 0xFF

theorem double_buffer_transparent_iff_rect : ∃ s1 s2 s3,
    (smallScreen.setDoubleBuffer false none).drawAll fullFont [.clear 0, .rect 0 0 1 2 5] =
      some s1 ∧
    (smallScreen.setDoubleBuffer true (some fun _ => 0)).drawAll fullFont
      [.clear 0, .rect 0 0 1 2 5] = some s2 ∧ s2.swap = some s3 ∧
    ∀ x < smallScreen.width, ∀ y < smallScreen.height, s3.visible x y = s1.visible x y := by
  obtain ⟨s1, hs1⟩ := Option.isSome_iff_exists.mp (show ((smallScreen.setDoubleBuffer false
    none).drawAll fullFont [.clear 0, .rect 0 0 1 2 5]).isSome = true by decide)
  have hhidden : smallScreen.TextHidden fullFont [.clear 0, .rect 0 0 1 2 5] := by
    intro before text after hcalls htext
    have hmem : text ∈ [Draw.clear 0, .rect 0 0 1 2 5] :=
      hcalls ▸ List.mem_append_right _ (List.mem_cons_self ..)
    obtain rfl | hmem := List.mem_cons.mp hmem
    · cases htext
    · rw [List.mem_singleton.mp hmem] at htext
      cases htext
  obtain ⟨s2, s3, hs2, hs3, heq⟩ := (double_buffer_transparent_iff fullFont smallScreen s1 nofun
    (by decide) 0 [.rect 0 0 1 2 5] hs1 fun _ => 0).mpr hhidden
  exact ⟨s1, s2, s3, hs1, hs2, hs3, heq⟩

/-- A character that is seen when it is drawn directly is gone after the swap. -/
theorem swap_loses_text :
    ((smallScreen.setDoubleBuffer false none).drawAll fullFont
      [.clear 0, .string [65] 0 0 7 0]).map (fun s => s.visible 0 0) = some 7 ∧
    (((smallScreen.setDoubleBuffer true (some fun _ => 0)).drawAll fullFont
      [.clear 0, .string [65] 0 0 7 0]).bind Screen.swap).map (fun s => s.visible 0 0) = some 0 := by
  decide +kernel

end ChocoOs.Framebuffer
