import ChocoOs.Snake.Run
import Mathlib.Order.Monotone.Basic

/-!
# A game that gets too long

On a grid of 17 by 17 cells, a snake that turns right at the end of every column and then down again comes
through all cells and back to the first. Until it is longer than the tour it never hits itself, and it finds
every apple. So it gets its 257th segment.
-/

namespace ChocoOs.Snake
open ProgLib

/-! ## The tour -/

/-- The cell of the head after `t` updates. -/
def tourCell (t : Nat) : Nat × Nat := ((5 + t / 17) % 17, (5 + (t - t / 17)) % 17)

/-- The key in the update `t`: one column further after every 17 updates. -/
def tourKey (t : Nat) : Key := if t % 17 = 0 then .d else .s

/-- A game that is launched, and `n` updates. -/
def tour (n : Nat) : List Event :=
  .launch 1 (some fun _ => ⟨0, 0⟩) :: (List.range n).map fun i => .update (tourKey (i + 1)) fun _ => ⟨0, 0⟩

theorem tour_succ (n : Nat) : tour (n + 1) = tour n ++ [.update (tourKey (n + 1)) fun _ => ⟨0, 0⟩] := by
  rw [tour, tour, List.range_succ, List.map_append, List.map_singleton, List.cons_append]

/-- The tour comes back to a cell after 289 updates and not before. -/
theorem tourCell_ne {a b : Nat} (hab : a < b) (hb : b < a + 289) : tourCell a ≠ tourCell b := by
  intro h
  obtain ⟨hx, hy⟩ := Prod.ext_iff.mp h
  simp only [tourCell] at hx hy
  omega

/-- The tour comes to every cell again and again. -/
theorem tour_visits {x y : Nat} (hx : x < 17) (hy : y < 17) (n : Nat) :
    ∃ t, n < t ∧ tourCell t = (x, y) := by
  refine ⟨289 * (n + 1) + 17 * ((x + 12) % 17) + (x + y + 24) % 17, by omega, ?_⟩
  rw [tourCell, Prod.mk.injEq]
  omega

theorem gridSide_340 : gridSide 340 = 17 := by decide

theorem tourCell_lt (t : Nat) : (tourCell t).1 < 17 ∧ (tourCell t).2 < 17 :=
  ⟨Nat.mod_lt _ (by decide), Nat.mod_lt _ (by decide)⟩

/-- The keys lead from each cell of the tour to the next. -/
theorem neighbour_tourCell {d : Direction} (hd : d = .down ∨ d = .right) (t : Nat) :
    (d.turn (tourKey (t + 1)) = .down ∨ d.turn (tourKey (t + 1)) = .right) ∧
      neighbour 17 17 (d.turn (tourKey (t + 1))) (tourCell t) = tourCell (t + 1) := by
  have hside : (17 : UInt8).toNat = 17 := rfl
  by_cases hturn : (t + 1) % 17 = 0
  · have hright : d.turn (tourKey (t + 1)) = .right := by
      rw [tourKey, if_pos hturn]
      rcases hd with rfl | rfl <;> rfl
    refine ⟨.inr hright, ?_⟩
    rw [hright, neighbour, hside, tourCell, tourCell, Prod.mk.injEq]
    omega
  · have hdown : d.turn (tourKey (t + 1)) = .down := by
      rw [tourKey, if_neg hturn]
      rcases hd with rfl | rfl <;> rfl
    refine ⟨.inl hdown, ?_⟩
    rw [hdown, neighbour, hside, tourCell, tourCell, Prod.mk.injEq]
    omega

/-! ## On the tour -/

/-- The apple of the snake. -/
def State.apple (s : State) : Nat × Nat := (s.appleX.toNat, s.appleY.toNat)

/-- An apple at the place of the head is eaten, and otherwise nothing happens. -/
theorem eat_cases (maxX maxY : UInt8) (head last : SnakeBody) (s : State) :
    (head.cell = s.apple ∧ (s.eat maxX maxY head last).justAteApple = true ∧
      (s.eat maxX maxY head last).tail = last ∧
      (0 < maxX.toNat → 0 < maxY.toNat → (s.eat maxX maxY head last).AppleOn maxX maxY)) ∨
    head.cell ≠ s.apple ∧ s.eat maxX maxY head last = s := by
  unfold State.eat
  by_cases hhit : head.coordinatesX.toUInt64 = s.appleX ∧ head.coordinatesY.toUInt64 = s.appleY
  · rw [if_pos hhit]
    refine .inl ⟨?_, rfl, ?_, fun hx hy => State.appleOn_placeApple maxX maxY s hx hy⟩
    · rw [State.apple, ← hhit.1, ← hhit.2, UInt8.toNat_toUInt64, UInt8.toNat_toUInt64]
      rfl
    · simp only [State.tail, UInt8.toUInt8_toUInt64]
  · rw [if_neg hhit]
    refine .inr ⟨fun hcell => hhit ?_, rfl⟩
    obtain ⟨hx, hy⟩ := Prod.ext_iff.mp hcell
    refine ⟨UInt64.toNat_inj.mp ?_, UInt64.toNat_inj.mp ?_⟩
    · rw [UInt8.toNat_toUInt64]
      exact hx
    · rw [UInt8.toNat_toUInt64]
      exact hy

/-- After `t` updates the segments are in the last cells of the tour, and so is the place where the snake
    will grow. -/
structure OnTour (t : Nat) (s : State) : Prop where
  held : s.Held
  turned : s.direction = .down ∨ s.direction = .right
  size_le : s.snakeSize ≤ t + 1
  short : s.snakeSize ≤ 256
  place : ∀ i c, s.segments[i]? = some c → c.cell = tourCell (t - i)
  tail : s.justAteApple = true → ∃ j ≤ 256, j ≤ t ∧ s.tail.cell = tourCell (t - j)
  apple : s.AppleOn 17 17
  alive : s.killSig = false

section tour

variable {t : Nat} {s : State}

/-- After the loop that moves the segments, each is at a place of the tour where the snake has been in its
    last 256 updates. -/
theorem OnTour.cells (h : OnTour t s) {c : SnakeBody} (hc : c ∈ s.behind) :
    ∃ j ≤ 256, j ≤ t ∧ c.cell = tourCell (t - j) := by
  have hsize := h.size_le
  have hshort := h.short
  rcases List.mem_append.mp (List.mem_of_mem_eraseIdx hc) with hold | hadded
  · obtain ⟨i, hi, hget⟩ := List.mem_iff_getElem.mp hold
    rw [h.held.length_segments] at hi
    exact ⟨i, by omega, by omega, h.place i c (List.getElem?_eq_some_iff.mpr ⟨_, hget⟩)⟩
  · by_cases hate : s.justAteApple = true
    · rw [if_pos hate] at hadded
      rw [List.mem_singleton.mp hadded]
      exact h.tail hate
    · rw [if_neg hate] at hadded
      exact absurd hadded List.not_mem_nil

/-- The head goes to the next cell of the tour. -/
theorem OnTour.cell_nextHead (h : OnTour t s) {c : SnakeBody} (hc : s.segments[0]? = some c) :
    (s.nextHead 340 340 (tourKey (t + 1)) c).cell = tourCell (t + 1) := by
  have hplace := h.place 0 c hc
  have hinside : Inside 17 17 c := by
    obtain ⟨hx, hy⟩ := tourCell_lt (t - 0)
    rw [← hplace] at hx hy
    exact ⟨UInt8.lt_iff_toNat_lt.mpr hx, UInt8.lt_iff_toNat_lt.mpr hy⟩
  have hwrap := (wrap_advance hinside (s.direction.turn (tourKey (t + 1)))).2
  rw [hplace, Nat.sub_zero, (neighbour_tourCell h.turned t).2] at hwrap
  rw [State.nextHead, gridSide_340]
  exact hwrap

/-- No segment is there. -/
theorem OnTour.moves (h : OnTour t s) : Moves 340 340 (tourKey (t + 1)) s := by
  refine ⟨?_, fun c hc hmem => ?_⟩
  · unfold tourKey
    split <;> decide
  · obtain ⟨j, hj, -, hat⟩ := h.cells hmem
    exact tourCell_ne (by omega) (by omega) (hat.symm.trans (h.cell_nextHead hc))

/-- A snake that is short enough stays on the tour. -/
theorem OnTour.withHead (h : OnTour t s) {blk : List SnakeBody} (hs : s.Shifted blk) {head : SnakeBody}
    (hhead : head.cell = tourCell (t + 1)) (hshort : s.nextSize ≤ 256) :
    OnTour (t + 1) (s.withHead (tourKey (t + 1)) blk head) := by
  have hsize := h.size_le
  have hle := s.nextSize_le
  refine ⟨h.held.withHead hs _ head, (neighbour_tourCell h.turned t).1, ?_, hshort, fun i c hc => ?_, nofun,
    h.apple, h.alive⟩
  · exact Nat.le_trans hle (Nat.succ_le_succ hsize)
  · rw [State.segments_withHead h.held hs, h.held.behind_of_short hshort] at hc
    cases i with
    | zero =>
      cases hc
      exact hhead
    | succ i =>
      rw [List.getElem?_cons_succ, List.getElem?_take] at hc
      rw [Nat.add_sub_add_right]
      split at hc
      · exact h.place i c hc
      · cases hc

/-- So does one that eats an apple and will grow in a cell of the tour. -/
theorem OnTour.eat (h : OnTour t s) (head : SnakeBody) {last : SnakeBody}
    (hlast : ∃ j ≤ 256, j ≤ t ∧ last.cell = tourCell (t - j)) : OnTour t (s.eat 17 17 head last) := by
  rcases eat_cases 17 17 head last s with ⟨-, -, htail, happle⟩ | ⟨-, hsame⟩
  · obtain ⟨x, y, seed, ate, tx, ty, heat⟩ := s.eat_eq 17 17 head last
    rw [heat] at htail happle ⊢
    refine ⟨⟨h.held.block, h.held.pos, h.held.room⟩, h.turned, h.size_le, h.short, h.place, fun _ => ?_,
      happle (by decide) (by decide), h.alive⟩
    rw [htail]
    exact hlast
  · rw [hsame]
    exact h

/-- An update moves the head to the next cell of the tour, and nothing but the length of the snake can break
    the tour. -/
theorem OnTour.step (h : OnTour t s) (fresh : Nat → SnakeBody) : ∃ u,
    s.snakeUpdate 340 340 (tourKey (t + 1)) (some fresh) = some (.moved, u) ∧ u.killSig = false ∧
      (s.nextSize ≤ 256 → OnTour (t + 1) u) ∧ u.snakeSize = s.nextSize ∧
      ((tourCell (t + 1) = s.apple ∧ u.justAteApple = true) ∨
        tourCell (t + 1) ≠ s.apple ∧ u.justAteApple = false ∧ u.apple = s.apple) := by
  have hpos := h.held.pos
  obtain ⟨blk, c, last, hshift, hfirst, hlast, hupdate⟩ :=
    h.held.snakeUpdate 340 340 (tourKey (t + 1)) fresh
  have hc : s.segments[0]? = some c := (State.getElem?_segments hpos).trans hfirst
  have hhead := h.cell_nextHead hc
  obtain ⟨hkey, hnew⟩ := h.moves
  rw [if_neg hkey, if_neg (hnew c hc), gridSide_340] at hupdate
  obtain ⟨x, y, seed, ate, tx, ty, heat⟩ := State.eat_eq 17 17
    (s.withHead (tourKey (t + 1)) blk (s.nextHead 340 340 (tourKey (t + 1)) c))
    (s.nextHead 340 340 (tourKey (t + 1)) c) last
  refine ⟨_, hupdate, by rw [heat]; exact h.alive, fun hshort => ?_, by rw [heat]; rfl, ?_⟩
  · -- the place of the tail before the update
    have hplace : last.cell = tourCell (t - (s.snakeSize - 1)) := h.place (s.snakeSize - 1) last
      ((State.getElem?_segments (Nat.sub_lt hpos Nat.one_pos)).trans hlast)
    refine (h.withHead hshift hhead hshort).eat _ ⟨s.snakeSize, h.short, h.size_le, ?_⟩
    rw [hplace, show t + 1 - s.snakeSize = t - (s.snakeSize - 1) by omega]
  · rw [← hhead]
    rcases eat_cases 17 17 (s.nextHead 340 340 (tourKey (t + 1)) c) last
        (s.withHead (tourKey (t + 1)) blk (s.nextHead 340 340 (tourKey (t + 1)) c)) with
      ⟨hat, hate, -⟩ | ⟨hat, hsame⟩
    · exact .inl ⟨hat, hate⟩
    · rw [hsame]
      exact .inr ⟨hat, rfl, rfl⟩

end tour

/-! ## A run that is too long -/

/-- A number that never falls and grows again and again passes every bound. -/
theorem passes_bound {f : Nat → Nat} (mono : ∀ n, f n ≤ f (n + 1)) (grows : ∀ n, ∃ k, n ≤ k ∧ f k < f (k + 1))
    (b : Nat) : ∃ n, b ≤ f n := by
  induction b with
  | zero => exact ⟨0, Nat.zero_le _⟩
  | succ b ih =>
    obtain ⟨n, hn⟩ := ih
    obtain ⟨k, hnk, hlt⟩ := grows n
    have hle : f n ≤ f k := monotone_nat_of_le_succ mono hnk
    exact ⟨k + 1, by omega⟩

/-- What a launch leaves is on the tour. -/
theorem State.Started.onTour {s : State} (h : s.Started 340 340) : OnTour 0 s := by
  have hone : s.snakeSize = 1 := by
    rw [← h.held.length_segments, h.segments]
    rfl
  refine ⟨h.held, .inl h.direction, by omega, by omega, fun i c hc => ?_, fun hate => ?_, ?_, h.alive⟩
  · rw [h.segments] at hc
    cases i with
    | zero =>
      cases hc
      decide
    | succ i => cases hc
  · rw [h.hungry] at hate
    exact absurd hate Bool.false_ne_true
  · have happle := h.apple
    rw [gridSide_340] at happle
    exact happle

section run

variable (hshort : ∀ n,
  EachStep (Game.step 340 340) (fun g e _ _ => ShortOnGrid 340 340 g e) boot (tour n))

include hshort

/-- As long as the snake is short enough, every update keeps to the tour. -/
theorem tour_next {n : Nat} {s : State}
    (hs : finalState (Game.step 340 340) boot (tour n) = some ⟨s, true⟩) (h : OnTour n s) :
    ∃ u, finalState (Game.step 340 340) boot (tour (n + 1)) = some ⟨u, true⟩ ∧ OnTour (n + 1) u ∧
      u.snakeSize = s.nextSize ∧
      ((tourCell (n + 1) = s.apple ∧ u.justAteApple = true) ∨
        tourCell (n + 1) ≠ s.apple ∧ u.justAteApple = false ∧ u.apple = s.apple) := by
  obtain ⟨u, hupdate, halive, htour, hsize, hate⟩ := h.step fun _ => ⟨0, 0⟩
  have hrun := hshort (n + 1)
  rw [tour_succ] at hrun ⊢
  obtain ⟨o, g', hstep, hok, hfinal⟩ := hrun.snoc hs
  rw [Game.step, if_pos rfl, hupdate] at hstep
  cases hstep
  refine ⟨u, ?_, htour (hok rfl h.moves), hsize, hate⟩
  rw [hfinal]
  simp only [halive, Bool.not_false]

theorem tour_states (n : Nat) : ∃ s,
    finalState (Game.step 340 340) boot (tour n) = some ⟨s, true⟩ ∧ OnTour n s := by
  induction n with
  | zero =>
    obtain ⟨g', hinit, hcases⟩ := (inv_boot 340 340).snakeInit 1 (some fun _ => ⟨0, 0⟩)
    have hstep : Game.step 340 340 boot (.launch 1 (some fun _ => ⟨0, 0⟩)) = some (none, g') := by
      rw [Game.step, if_neg (by decide), hinit]
      rfl
    rcases hcases with ⟨-, -, hnone⟩ | ⟨hplaying, hstarted, -⟩
    · cases hnone
    · refine ⟨g'.snake, ?_, hstarted.onTour⟩
      rw [tour, List.range_zero, List.map_nil, finalState, hstep, Option.bind_some, finalState, ← hplaying]
  | succ n ih =>
    obtain ⟨s, hs, htour⟩ := ih
    obtain ⟨u, hu, hnext, -⟩ := tour_next hshort hs htour
    exact ⟨u, hu, hnext⟩

/-- The snake finds an apple again and again, and so gets longer than it may. -/
theorem tour_too_long : False := by
  choose S hfinal htour using tour_states hshort
  have hnext : ∀ n, (S (n + 1)).snakeSize = (S n).nextSize ∧
      ((tourCell (n + 1) = (S n).apple ∧ (S (n + 1)).justAteApple = true) ∨
        tourCell (n + 1) ≠ (S n).apple ∧ (S (n + 1)).justAteApple = false ∧
          (S (n + 1)).apple = (S n).apple) := by
    intro n
    obtain ⟨u, hu, -, hsize, hate⟩ := tour_next hshort (hfinal n) (htour n)
    obtain rfl : S (n + 1) = u := by
      have heq := Option.some.inj ((hfinal (n + 1)).symm.trans hu)
      exact congrArg Game.snake heq
    exact ⟨hsize, hate⟩
  have heats : ∀ n, ∃ k, n ≤ k ∧ (S k).justAteApple = true := by
    intro n
    by_contra hnone
    simp only [not_exists, not_and] at hnone
    -- the apple stays where it is, and the tour comes there
    have hstays : ∀ k, (S (n + k)).apple = (S n).apple := by
      intro k
      induction k with
      | zero => rfl
      | succ k ih =>
        rcases (hnext (n + k)).2 with ⟨-, hate⟩ | ⟨-, -, hsame⟩
        · exact absurd hate (hnone _ (by omega))
        · exact hsame.trans ih
    obtain ⟨hx, hy⟩ := (htour n).apple
    obtain ⟨t, hnt, hcell⟩ := tour_visits hx hy n
    obtain ⟨k, rfl⟩ : ∃ k, t = n + k + 1 := ⟨t - n - 1, by omega⟩
    rcases (hnext (n + k)).2 with ⟨-, hate⟩ | ⟨hmiss, -⟩
    · exact hnone _ (by omega) hate
    · exact hmiss (hcell.trans (hstays k).symm)
  obtain ⟨n, hn⟩ := passes_bound (f := fun n => (S n).snakeSize)
    (fun n => by
      have hge := (S n).snakeSize_le_nextSize
      rw [(hnext n).1]
      exact hge)
    (fun n => by
      obtain ⟨k, hnk, hate⟩ := heats n
      refine ⟨k, hnk, ?_⟩
      have hgrown : (S k).nextSize = (S k).snakeSize + 1 := if_pos hate
      rw [(hnext k).1, hgrown]
      exact Nat.lt_succ_self _) 257
  have hle := (htour n).short
  omega

end run

/-- The tour on a framebuffer of 340 by 340 pixels: at its 257th segment the snake comes apart. -/
theorem not_keepsBody :
    ¬ ∀ n, EachStep (Game.step 340 340) (KeepsBody 340 340) boot (tour n) := by
  intro hkeeps
  refine tour_too_long fun n => ?_
  exact ((inv_boot 340 340).eachStep_iff (tour n)).mp (hkeeps n)

end ChocoOs.Snake
