import ChocoOs.Snake.Game

/-!
# What an update does

The loops and the branches of `snake_update`, each with what it leaves in the block. The facts hold for
snakes of every length; the index of the loop that moves the segments is taken modulo 256.
-/

namespace ChocoOs.Snake

/-! ## The loops -/

theorem setSegment_of_lt {snake : List SnakeBody} {i : Nat} (h : i < snake.length) (c : SnakeBody) :
    setSegment snake i c = some (snake.set i c) := if_pos h

/-- The loop moves the segments up to the index `k`, and so the place of the one at `k` is lost. -/
theorem shiftSegments_eq {k : Nat} {c : SnakeBody} {snake : List SnakeBody} (hk : k < snake.length)
    (hc : snake[0]? = some c) : shiftSegments k snake = some (c :: snake.eraseIdx k) := by
  induction k generalizing snake with
  | zero =>
    cases snake with
    | nil => cases hc
    | cons c' cs =>
      cases hc
      rfl
  | succ k ih =>
    have hread : snake[k]? = some snake[k] := List.getElem?_eq_getElem (by omega)
    have hset : k < (snake.set (k + 1) snake[k]).length := by
      rw [List.length_set]
      omega
    have hfirst : (snake.set (k + 1) snake[k])[0]? = some c := by
      rw [List.getElem?_set_ne (Nat.succ_ne_zero k), hc]
    rw [shiftSegments, hread, Option.bind_eq_bind, Option.bind_some, setSegment_of_lt hk,
      Option.bind_eq_bind, Option.bind_some, ih hset hfirst]
    refine congrArg (fun l => some (c :: l)) (List.ext_getElem? fun i => ?_)
    rw [List.getElem?_eraseIdx, List.getElem?_eraseIdx]
    by_cases hlow : i < k
    · rw [if_pos hlow, if_pos (Nat.lt_succ_of_lt hlow), List.getElem?_set_ne (by omega)]
    · rw [if_neg hlow]
      by_cases hi : i = k
      · subst hi
        rw [if_pos (Nat.lt_succ_self i), List.getElem?_set_self hk, hread]
      · rw [if_neg (by omega), List.getElem?_set_ne (by omega)]

/-- The search finds the head if and only if it is at the place of one of the segments. -/
theorem hitsFrom_eq {snake : List SnakeBody} (head : SnakeBody) {rounds i : Nat}
    (h : i + rounds ≤ snake.length) :
    hitsFrom snake head rounds i = some (decide (head ∈ (snake.drop i).take rounds)) := by
  induction rounds generalizing i with
  | zero => simp [hitsFrom]
  | succ rounds ih =>
    have hi : i < snake.length := by omega
    rw [hitsFrom, List.getElem?_eq_getElem hi, Option.bind_eq_bind, Option.bind_some,
      List.drop_eq_getElem_cons hi, List.take_succ_cons]
    by_cases hhead : head = snake[i]
    · rw [if_pos hhead, decide_eq_true (List.mem_cons.mpr (.inl hhead))]
      rfl
    · rw [if_neg hhead, ih (by omega)]
      simp only [List.mem_cons, hhead, false_or]

/-- A grid has at least one row and one column. -/
theorem gridSide_pos (pixels : Nat) : 0 < (gridSide pixels).toNat := by
  unfold gridSide
  simp only
  split
  · decide
  · next hne => exact Nat.pos_of_ne_zero fun hzero => hne (UInt8.toNat_inj.mp hzero)

/-! ## The apple -/

namespace State

section apple

variable (maxX maxY : UInt8) (s : State)

/-- The apple is inside the grid. -/
def AppleOn (maxX maxY : UInt8) (s : State) : Prop :=
  s.appleX.toNat < maxX.toNat ∧ s.appleY.toNat < maxY.toNat

/-- An apple is drawn from the next two random numbers. -/
theorem placeApple_eq : ∃ x y seed, s.placeApple maxX maxY =
    { s with appleX := x, appleY := y, rngSeed := seed } := by
  unfold placeApple getRandom
  exact ⟨_, _, _, rfl⟩

theorem appleOn_placeApple (hx : 0 < maxX.toNat) (hy : 0 < maxY.toNat) :
    (s.placeApple maxX maxY).AppleOn maxX maxY := by
  unfold placeApple AppleOn
  simp only [UInt32.toNat_toUInt64, UInt32.toNat_mod, UInt8.toNat_toUInt32]
  exact ⟨Nat.mod_lt _ hx, Nat.mod_lt _ hy⟩

/-- The head may eat the apple; the segments stay where they are. -/
theorem eat_eq (head tail : SnakeBody) : ∃ x y seed ate tx ty, s.eat maxX maxY head tail =
    { s with appleX := x, appleY := y, rngSeed := seed, justAteApple := ate, tailX := tx, tailY := ty } := by
  unfold eat
  obtain ⟨x, y, seed, hplace⟩ := s.placeApple_eq maxX maxY
  split
  · rw [hplace]
    exact ⟨x, y, seed, true, tail.coordinatesX.toUInt64, tail.coordinatesY.toUInt64, rfl⟩
  · exact ⟨s.appleX, s.appleY, s.rngSeed, s.justAteApple, s.tailX, s.tailY, rfl⟩

end apple

/-! ## Growing -/

/-- The block has as many entries as `snake_capacity` says, and holds the snake. -/
structure Held (s : State) : Prop where
  block : s.snake.length = s.snakeCapacity
  pos : 0 < s.snakeSize
  room : s.snakeSize ≤ s.snakeCapacity

/-- The number of segments in an update. -/
def nextSize (s : State) : Nat := if s.justAteApple then s.snakeSize + 1 else s.snakeSize

theorem snakeSize_le_nextSize (s : State) : s.snakeSize ≤ s.nextSize := by
  unfold nextSize
  split <;> omega

theorem nextSize_le (s : State) : s.nextSize ≤ s.snakeSize + 1 := by
  unfold nextSize
  split <;> omega

/-- The segments that there are. -/
def segments (s : State) : List SnakeBody := s.snake.take s.snakeSize

theorem Held.length_segments {s : State} (h : s.Held) : s.segments.length = s.snakeSize := by
  have hroom := h.room
  rw [segments, List.length_take, h.block]
  exact Nat.min_eq_left hroom

theorem getElem?_segments {s : State} {i : Nat} (hi : i < s.snakeSize) : s.segments[i]? = s.snake[i]? :=
  List.getElem?_take_of_lt hi

/-- The segment that is added after an apple. -/
def tail (s : State) : SnakeBody := ⟨s.tailX.toUInt8, s.tailY.toUInt8⟩

/-- The segments after the snake has grown. -/
def grown (s : State) : List SnakeBody := s.segments ++ if s.justAteApple then [s.tail] else []

theorem Held.length_grown {s : State} (h : s.Held) : s.grown.length = s.nextSize := by
  rw [grown, List.length_append, h.length_segments, nextSize]
  split <;> rfl

/-- The places of the other segments when the head moves: each is where the one in front of it was, up to
    the index that the loop begins with, and the others have not moved. -/
def behind (s : State) : List SnakeBody := s.grown.eraseIdx ((s.nextSize - 1) % 256)

theorem Held.length_behind {s : State} (h : s.Held) : s.behind.length = s.nextSize - 1 := by
  have hpos := h.pos
  have hge := s.snakeSize_le_nextSize
  have hlt : (s.nextSize - 1) % 256 < s.grown.length := by
    rw [h.length_grown]
    omega
  rw [behind, List.length_eraseIdx_of_lt hlt, h.length_grown]

theorem length_reallocBlock (snake : List SnakeBody) (capacity : Nat) (fresh : Nat → SnakeBody) :
    (reallocBlock snake capacity fresh).length = capacity := by
  rw [reallocBlock, List.length_map, List.length_range]

theorem take_reallocBlock {snake : List SnakeBody} {capacity n : Nat} (fresh : Nat → SnakeBody)
    (hn : n ≤ snake.length) (hcap : n ≤ capacity) :
    (reallocBlock snake capacity fresh).take n = snake.take n := by
  refine List.ext_getElem? fun i => ?_
  by_cases hi : i < n
  · rw [List.getElem?_take_of_lt hi, List.getElem?_take_of_lt hi, reallocBlock, List.getElem?_map,
      List.getElem?_range (by omega), Option.map_some, List.getD_eq_getElem?_getD,
      List.getElem?_eq_getElem (by omega), Option.getD_some]
  · rw [List.getElem?_take_eq_none (by omega), List.getElem?_take_eq_none (by omega)]

/-- With a `realloc` that succeeds there is room for one more segment. -/
theorem Held.extend {s : State} (h : s.Held) (fresh : Nat → SnakeBody) :
    ∃ blk, s.extend (some fresh) = { s with snake := blk, snakeCapacity := blk.length } ∧
      s.snakeSize < blk.length ∧ blk.take s.snakeSize = s.segments := by
  have hpos := h.pos
  have hroom := h.room
  unfold State.extend
  by_cases hfull : s.snakeCapacity ≤ s.snakeSize
  · rw [if_pos hfull]
    refine ⟨reallocBlock s.snake (s.snakeCapacity * 2) fresh, ?_, ?_, ?_⟩
    · rw [length_reallocBlock]
    · rw [length_reallocBlock]
      omega
    · exact take_reallocBlock fresh (by rw [h.block]; exact hroom) (by omega)
  · rw [if_neg hfull]
    refine ⟨s.snake, ?_, by rw [h.block]; omega, rfl⟩
    rw [h.block]

/-- The segments are in the block `blk`. -/
def withBlock (s : State) (blk : List SnakeBody) : State :=
  { s with
    snake := blk, snakeCapacity := blk.length, snakeSize := s.nextSize, justAteApple := false }

/-- After an apple the snake has one more segment, and otherwise as many as before. -/
theorem Held.grow {s : State} (h : s.Held) (fresh : Nat → SnakeBody) :
    ∃ blk, s.grow (some fresh) = some (s.withBlock blk) ∧ s.nextSize ≤ blk.length ∧
      blk.take s.nextSize = s.grown := by
  unfold State.grow withBlock nextSize State.grown
  by_cases hate : s.justAteApple = true
  · obtain ⟨blk, hextend, hlt, htake⟩ := h.extend fresh
    rw [if_pos hate, if_pos hate, if_pos hate, hextend]
    refine ⟨blk.set s.snakeSize s.tail, ?_, ?_, ?_⟩
    · simp only [if_pos hlt, setSegment_of_lt hlt, Option.bind_eq_bind, Option.bind_some,
        Option.pure_def, List.length_set]
      rfl
    · rw [List.length_set]
      exact hlt
    · rw [List.take_add_one, List.take_set_of_le (Nat.le_refl _), htake, List.getElem?_set_self hlt]
      rfl
  · rw [if_neg hate, if_neg hate, if_neg hate, List.append_nil]
    refine ⟨s.snake, ?_, ?_, rfl⟩
    · rw [h.block, ← Bool.eq_false_iff.mpr hate]
      rfl
    · rw [h.block]
      exact h.room

/-! ## A whole update -/

/-- The block after the loop that moves the segments. -/
structure Shifted (s : State) (blk : List SnakeBody) : Prop where
  room : s.nextSize ≤ blk.length
  head : blk[0]? = s.snake[0]?
  behind : (blk.drop 1).take (s.nextSize - 1) = s.behind

/-- The place of the head after a key. -/
def nextHead (width height : Nat) (key : Key) (s : State) (c : SnakeBody) : SnakeBody :=
  (c.advance (s.direction.turn key)).wrap (gridSide width) (gridSide height) (s.direction.turn key)

/-- The head is in its new place. -/
def withHead (key : Key) (s : State) (blk : List SnakeBody) (head : SnakeBody) : State :=
  { s.withBlock (blk.set 0 head) with direction := s.direction.turn key }

theorem Held.first {s : State} (h : s.Held) : ∃ c, s.snake[0]? = some c ∧ s.segments[0]? = some c := by
  have hlt : 0 < s.snake.length := by
    rw [h.block]
    exact Nat.lt_of_lt_of_le h.pos h.room
  have hread : s.snake[0]? = some s.snake[0] := List.getElem?_eq_getElem hlt
  exact ⟨s.snake[0], hread, (getElem?_segments h.pos).trans hread⟩

theorem Held.shift {s : State} (h : s.Held) (fresh : Nat → SnakeBody) : ∃ blk₀ blk, s.Shifted blk ∧
    s.grow (some fresh) = some (s.withBlock blk₀) ∧ blk₀.length = blk.length ∧
    shiftSegments ((s.nextSize - 1) % 256) blk₀ = some blk := by
  have hpos := h.pos
  have hge := s.snakeSize_le_nextSize
  have hmod : (s.nextSize - 1) % 256 ≤ s.nextSize - 1 := Nat.mod_le _ _
  obtain ⟨blk₀, hgrow, hlen, htake⟩ := h.grow fresh
  obtain ⟨c, hsnake, hfirst⟩ := h.first
  have hget : ∀ i < s.nextSize, blk₀[i]? = s.grown[i]? := by
    intro i hi
    rw [← htake, List.getElem?_take_of_lt hi]
  have hc : blk₀[0]? = some c := by
    rw [hget 0 (by omega), grown, List.getElem?_append_left (by rw [h.length_segments]; exact hpos), hfirst]
  have hindex : (s.nextSize - 1) % 256 < blk₀.length := by omega
  have hblk : (c :: blk₀.eraseIdx ((s.nextSize - 1) % 256)).length = blk₀.length := by
    rw [List.length_cons, List.length_eraseIdx_of_lt hindex]
    omega
  refine ⟨blk₀, _, ⟨?_, ?_, ?_⟩, hgrow, hblk.symm, shiftSegments_eq hindex hc⟩
  · rw [hblk]
    exact hlen
  · rw [hsnake]
    rfl
  · rw [List.drop_one, List.tail_cons]
    refine List.ext_getElem? fun i => ?_
    by_cases hi : i < s.nextSize - 1
    · rw [List.getElem?_take_of_lt hi, behind, List.getElem?_eraseIdx, List.getElem?_eraseIdx,
        hget i (by omega), hget (i + 1) (by omega)]
    · rw [List.getElem?_take_eq_none (by omega), List.getElem?_eq_none (by rw [h.length_behind]; omega)]

theorem snakeReset_eq (width height : Nat) {s : State} (h : 0 < s.snake.length) :
    ∃ x y seed, s.snakeReset width height = some { s with
      snake := s.snake.set 0 ⟨5, 5⟩, direction := .down, snakeSize := 1, killSig := false,
      justAteApple := false, appleX := x, appleY := y, rngSeed := seed } ∧
      x.toNat < (gridSide width).toNat ∧ y.toNat < (gridSide height).toNat := by
  unfold snakeReset
  rw [setSegment_of_lt h, Option.bind_eq_bind, Option.bind_some]
  obtain ⟨x, y, seed, hplace⟩ := placeApple_eq (gridSide width) (gridSide height)
    { s with
      direction := .down, snakeSize := 1, killSig := false, justAteApple := false
      snake := s.snake.set 0 ⟨5, 5⟩ }
  have happle := appleOn_placeApple (gridSide width) (gridSide height)
    { s with
      direction := .down, snakeSize := 1, killSig := false, justAteApple := false
      snake := s.snake.set 0 ⟨5, 5⟩ } (gridSide_pos width) (gridSide_pos height)
  rw [hplace] at happle
  exact ⟨x, y, seed, congrArg some hplace, happle⟩

/-- An update moves the segments. Then it quits, or it resets the game because the head is at the place of
    another segment, or it has moved the head. -/
theorem Held.snakeUpdate {s : State} (h : s.Held) (width height : Nat) (key : Key)
    (fresh : Nat → SnakeBody) : ∃ blk c last, s.Shifted blk ∧ s.snake[0]? = some c ∧
    s.snake[s.snakeSize - 1]? = some last ∧
    s.snakeUpdate width height key (some fresh) =
      if key = .escape then some (.quit, { s.withBlock blk with killSig := true })
      else if s.nextHead width height key c ∈ s.behind then
        ((s.withHead key blk (s.nextHead width height key c)).snakeReset width height).map (.reset, ·)
      else some (.moved, (s.withHead key blk (s.nextHead width height key c)).eat (gridSide width)
        (gridSide height) (s.nextHead width height key c) last) := by
  have hpos := h.pos
  have hge := s.snakeSize_le_nextSize
  obtain ⟨blk₀, blk, hshift, hgrow, hlen, hloop⟩ := h.shift fresh
  have hroom := hshift.room
  have hsize : s.snakeSize - 1 < s.snake.length := by
    have hle := h.room
    rw [h.block]
    omega
  obtain ⟨c, hfirst, -⟩ := h.first
  obtain ⟨last, hlast⟩ : ∃ c, s.snake[s.snakeSize - 1]? = some c := ⟨_, List.getElem?_eq_getElem hsize⟩
  refine ⟨blk, c, last, hshift, hfirst, hlast, ?_⟩
  have hset : setSegment blk 0 (s.nextHead width height key c) =
      some (blk.set 0 (s.nextHead width height key c)) := setSegment_of_lt (by omega) _
  have hbound : 1 + (s.nextSize - 1) ≤ (blk.set 0 (s.nextHead width height key c)).length := by
    rw [List.length_set]
    omega
  have hhits := hitsFrom_eq (s.nextHead width height key c) hbound
  have hdrop : (blk.set 0 (s.nextHead width height key c)).drop 1 = blk.drop 1 :=
    List.drop_set_of_lt (by decide)
  rw [hdrop, hshift.behind] at hhits
  unfold State.snakeUpdate
  simp only [hlast, hgrow, withBlock, hloop, hlen, Option.bind_eq_bind, Option.bind_some]
  by_cases hkey : key = .escape
  · rw [if_pos hkey, if_pos hkey]
    rfl
  rw [if_neg hkey, if_neg hkey]
  have hhead : blk[0]? = some c := hshift.head.trans hfirst
  have hwith : s.withHead key blk (s.nextHead width height key c) = { s with
      snake := blk.set 0 (s.nextHead width height key c), snakeCapacity := blk.length
      snakeSize := s.nextSize, justAteApple := false, direction := s.direction.turn key } := by
    simp only [withHead, withBlock, List.length_set]
  rw [hwith]
  by_cases hhit : s.nextHead width height key c ∈ s.behind
  · rw [decide_eq_true hhit] at hhits
    rw [if_pos hhit, Option.map_eq_bind]
    simp only [nextHead] at hset hhits ⊢
    simp only [hhead, hset, hhits, Option.bind_some]
    rfl
  · rw [decide_eq_false hhit] at hhits
    rw [if_neg hhit]
    simp only [nextHead] at hset hhits ⊢
    simp only [hhead, hset, hhits, Option.bind_some]
    rfl

end State

end ChocoOs.Snake
