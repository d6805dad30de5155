import ChocoOs.Snake.Body

/-!
# Whole games

The snake moves as a body in every game on a grid of at least six by six cells, until it has more than 256
segments. Then the index of the loop that moves the segments is cut off.
-/

namespace ChocoOs.Snake
open ProgLib

/-- What holds in every game until a step breaks it. -/
structure Game.Inv (width height : Nat) (g : Game) : Prop where
  block : g.snake.snake = [] ∨ g.snake.snake.length = g.snake.snakeCapacity
  held : g.playing = true → g.snake.Held
  alive : g.playing = true → g.snake.killSig = false
  grid : g.snake.snake ≠ [] → 6 ≤ gridSide width ∧ 6 ≤ gridSide height
  proper : g.playing = true → Proper (gridSide width) (gridSide height) g.snake

theorem inv_boot (width height : Nat) : boot.Inv width height where
  block := .inl rfl
  held := nofun
  alive := nofun
  grid := fun h => absurd rfl h
  proper := nofun

section steps

variable {width height : Nat} {g g' : Game} {o : Option UpdateEnd}

/-- A game that is launched begins with one segment in the place where the snake starts, unless there is
    no memory for it. -/
theorem Game.Inv.snakeInit (h : g.Inv width height) (ticks : UInt64) (fresh : Option (Nat → SnakeBody)) :
    ∃ g', Game.snakeInit width height ticks fresh g.snake = some g' ∧
      ((g'.playing = false ∧ g'.snake.snake = [] ∧ fresh = none) ∨
        g'.playing = true ∧ g'.snake.Started width height ∧ (fresh ≠ none ∨ g.snake.snake ≠ [])) := by
  unfold Game.snakeInit
  by_cases hnull : g.snake.snake = []
  · rw [if_pos hnull]
    cases fresh with
    | none => exact ⟨_, if_pos rfl, .inl ⟨rfl, rfl, rfl⟩⟩
    | some fresh =>
      have hlen : ((List.range 100).map fresh).length = 100 := by rw [List.length_map, List.length_range]
      have hne : (List.range 100).map fresh ≠ [] :=
        List.ne_nil_of_length_pos (by rw [hlen]; decide)
      obtain ⟨t, ht, hstarted⟩ := State.snakeReset_spec width height
        (s := { g.snake with
          snakeCapacity := 100, snake := (List.range 100).map fresh
          rngSeed := if ticks.toUInt32 = 0 then 12345 else ticks.toUInt32 }) hlen
        (List.length_pos_iff.mpr hne)
      refine ⟨⟨t, true⟩, ?_, .inr ⟨rfl, hstarted, .inl nofun⟩⟩
      rw [if_neg hne]
      simp only [ht, Option.bind_eq_bind, Option.bind_some, Option.pure_def]
  · rw [if_neg hnull]
    obtain ⟨t, ht, hstarted⟩ := State.snakeReset_spec width height
      (s := { g.snake with rngSeed := if ticks.toUInt32 = 0 then 12345 else ticks.toUInt32 })
      (h.block.resolve_left hnull) (List.length_pos_iff.mpr hnull)
    refine ⟨⟨t, true⟩, ?_, .inr ⟨rfl, hstarted, .inr hnull⟩⟩
    rw [if_neg hnull]
    simp only [ht, Option.bind_eq_bind, Option.bind_some, Option.pure_def]

/-- A game that begins is a proper one if the grid has the place where the snake starts. -/
theorem State.Started.inv {s : State} (h : s.Started width height)
    (hgrid : 6 ≤ gridSide width ∧ 6 ≤ gridSide height) : Game.Inv width height ⟨s, true⟩ where
  block := .inr h.held.block
  held _ := h.held
  alive _ := h.alive
  grid _ := hgrid
  proper _ := h.proper hgrid

/-- On a smaller grid the first segment is outside. -/
theorem State.Started.not_proper {s : State} (h : s.Started width height)
    (hgrid : ¬ (6 ≤ gridSide width ∧ 6 ≤ gridSide height)) :
    ¬ Proper (gridSide width) (gridSide height) s := by
  intro hproper
  obtain ⟨hx, hy⟩ := hproper.inside ⟨5, 5⟩ (by rw [h.segments]; exact List.mem_singleton_self _)
  rw [UInt8.lt_iff_toNat_lt] at hx hy
  refine hgrid ⟨UInt8.le_iff_toNat_le.mpr ?_, UInt8.le_iff_toNat_le.mpr ?_⟩
  · exact hx
  · exact hy

theorem Game.Inv.grid_of_playing (h : g.Inv width height) (hplaying : g.playing = true) :
    6 ≤ gridSide width ∧ 6 ≤ gridSide height := by
  have hheld := h.held hplaying
  refine h.grid (List.ne_nil_of_length_pos ?_)
  rw [hheld.block]
  exact Nat.lt_of_lt_of_le hheld.pos hheld.room

/-- No step accesses anything outside the block. -/
theorem Game.Inv.possible (h : g.Inv width height) (e : Event) :
    ∃ o g', g.step width height e = some (o, g') := by
  cases e with
  | launch ticks fresh =>
    by_cases hplaying : g.playing = true
    · exact ⟨none, g, if_pos hplaying⟩
    · obtain ⟨g', hinit, -⟩ := h.snakeInit ticks fresh
      exact ⟨none, g', by rw [Game.step, if_neg hplaying, hinit]; rfl⟩
  | update key fresh =>
    by_cases hplaying : g.playing = true
    · rw [Game.step, if_pos hplaying]
      obtain ⟨t, ht, -⟩ | ⟨t, ht, -⟩ | ⟨t, c, ht, -⟩ :=
        (h.held hplaying).update_cases width height key fresh
      · exact ⟨_, _, by rw [ht]; rfl⟩
      · exact ⟨_, _, by rw [ht]; rfl⟩
      · exact ⟨_, _, by rw [ht]; rfl⟩
    · exact ⟨none, g, if_neg hplaying⟩

/-- A step that meets the condition keeps what holds in a game, and moves the snake as a body. -/
theorem Game.Inv.keep (h : g.Inv width height) {e : Event} (hstep : g.step width height e = some (o, g'))
    (hok : ShortOnGrid width height g e) :
    g'.Inv width height ∧ KeepsBody width height g e o g' := by
  cases e with
  | launch ticks fresh =>
    by_cases hplaying : g.playing = true
    · rw [Game.step, if_pos hplaying] at hstep
      cases hstep
      exact ⟨h, nofun, h.proper⟩
    · obtain ⟨g₁, hinit, hcases⟩ := h.snakeInit ticks fresh
      rw [Game.step, if_neg hplaying, hinit] at hstep
      cases hstep
      rcases hcases with ⟨hidle, hnull, -⟩ | ⟨hlaunched, hstarted, hmemory⟩
      · have hnot : g'.playing ≠ true := by
          rw [hidle]
          decide
        exact ⟨⟨.inl hnull, fun h => absurd h hnot, fun h => absurd h hnot, fun h => absurd hnull h,
          fun h => absurd h hnot⟩, nofun, fun h => absurd h hnot⟩
      · have hstart : g' = ⟨g'.snake, true⟩ := by rw [← hlaunched]
        have hinv := hstarted.inv (hmemory.elim hok h.grid)
        rw [← hstart] at hinv
        exact ⟨hinv, nofun, hinv.proper⟩
  | update key fresh =>
    by_cases hplaying : g.playing = true
    · rw [Game.step, if_pos hplaying] at hstep
      have hheld := h.held hplaying
      have hgrid := h.grid_of_playing hplaying
      obtain ⟨t, ht, -, hkill, hblock⟩ | ⟨t, ht, -, hstarted⟩ |
          ⟨t, c, ht, hmoves, hkill, htheld, hdirection, hfirst, hsegments, hnew⟩ :=
        hheld.update_cases width height key fresh
      · -- the loop of the game ends
        rw [ht] at hstep
        cases hstep
        have hnot : (!t.killSig) ≠ true := by
          rw [hkill]
          decide
        exact ⟨⟨.inr hblock, fun h => absurd h hnot, fun h => absurd h hnot, fun _ => hgrid,
          fun h => absurd h hnot⟩, nofun, fun h => absurd h hnot⟩
      · rw [ht] at hstep
        cases hstep
        have hinv := hstarted.inv hgrid
        simp only [hstarted.alive, Bool.not_false]
        exact ⟨hinv, nofun, hinv.proper⟩
      · rw [ht] at hstep
        cases hstep
        obtain ⟨hbody, hproper⟩ := moves_of_short hheld (h.proper hplaying) (hok hplaying hmoves) hfirst
          hdirection hsegments hnew
        have halive : t.killSig = false := hkill.trans (h.alive hplaying)
        exact ⟨⟨.inr htheld.block, fun _ => htheld, fun _ => halive, fun _ => hgrid, fun _ => hproper⟩,
          fun _ => hbody, fun _ => hproper⟩
    · rw [Game.step, if_neg hplaying] at hstep
      cases hstep
      exact ⟨h, nofun, h.proper⟩

/-- A step that does not meet the condition does not move the snake as a body, or begins a game outside the
    grid. -/
theorem Game.Inv.fails (h : g.Inv width height) {e : Event} (hstep : g.step width height e = some (o, g'))
    (hnot : ¬ ShortOnGrid width height g e) : ¬ KeepsBody width height g e o g' := by
  intro hkeeps
  cases e with
  | launch ticks fresh =>
    obtain ⟨hfresh, hgrid⟩ := Classical.not_imp.mp hnot
    by_cases hplaying : g.playing = true
    · exact hgrid (h.grid_of_playing hplaying)
    · obtain ⟨g₁, hinit, hcases⟩ := h.snakeInit ticks fresh
      rw [Game.step, if_neg hplaying, hinit] at hstep
      cases hstep
      rcases hcases with ⟨-, -, hnone⟩ | ⟨hlaunched, hstarted, -⟩
      · exact hfresh hnone
      · exact hstarted.not_proper hgrid (hkeeps.2 hlaunched)
  | update key fresh =>
    obtain ⟨hplaying, hrest⟩ := Classical.not_imp.mp hnot
    obtain ⟨hmoves, hlong⟩ := Classical.not_imp.mp hrest
    rw [Game.step, if_pos hplaying] at hstep
    obtain ⟨t, -, hquit, -⟩ | ⟨t, -, hreset, -⟩ | ⟨t, c, ht, -, -, -, -, -, hsegments, -⟩ :=
      (h.held hplaying).update_cases width height key fresh
    · exact hquit hmoves
    · exact hreset hmoves
    · rw [ht] at hstep
      cases hstep
      exact not_moves_of_long (h.held hplaying) (h.proper hplaying) (Nat.lt_of_not_le hlong) hsegments
        (hkeeps.1 rfl)

/-- Along a run, the two hold together. -/
theorem Game.Inv.eachStep_iff (h : g.Inv width height) (es : List Event) :
    EachStep (Game.step width height) (KeepsBody width height) g es ↔
      EachStep (Game.step width height) (fun g e _ _ => ShortOnGrid width height g e) g es :=
  ProgLib.eachStep_iff (I := Game.Inv width height) (fun _ e h => h.possible e)
    (fun _ _ _ _ h hstep hok => h.keep hstep hok) (fun _ _ _ _ h hstep hnot => h.fails hstep hnot) h

end steps

/-- In every run every access is inside the block of the snake, every update that neither resets nor quits
    moves the snake as a body, and the snake in play is proper, if and only if every game is on a grid of
    at least six by six cells and no such update has more than 256 segments to move. -/
theorem keepsBody_iff (width height : Nat) (es : List Event) :
    EachStep (Game.step width height) (KeepsBody width height) boot es ↔
      EachStep (Game.step width height) (fun g e _ _ => ShortOnGrid width height g e) boot es :=
  (inv_boot width height).eachStep_iff es

end ChocoOs.Snake
