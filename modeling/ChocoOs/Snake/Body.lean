import ChocoOs.Lib.Transition
import ChocoOs.Lib.Trail
import ChocoOs.Snake.Update

/-!
# The snake as a body

On a grid that has the first place of the snake, a snake that is short enough for the 8-bit index moves as
a body: the head goes one cell further, and every other segment to where the one in front of it was.
-/

namespace ChocoOs.Snake
open ProgLib

/-! ## The grid -/

/-- The cell of a segment. -/
def SnakeBody.cell (c : SnakeBody) : Nat × Nat := (c.coordinatesX.toNat, c.coordinatesY.toNat)

/-- The cell next to a cell, on a grid whose opposite sides are joined. -/
def neighbour (maxX maxY : UInt8) (d : Direction) (c : Nat × Nat) : Nat × Nat :=
  match d with
  | .left => ((c.1 + maxX.toNat - 1) % maxX.toNat, c.2)
  | .right => ((c.1 + 1) % maxX.toNat, c.2)
  | .up => (c.1, (c.2 + maxY.toNat - 1) % maxY.toNat)
  | .down => (c.1, (c.2 + 1) % maxY.toNat)

/-- The segment is inside the grid. -/
def Inside (maxX maxY : UInt8) (c : SnakeBody) : Prop :=
  c.coordinatesX < maxX ∧ c.coordinatesY < maxY

/-- The first segment is at a cell next to the second one. -/
def Adjacent (maxX maxY : UInt8) (c c' : SnakeBody) : Prop :=
  ∃ d, c.cell = neighbour maxX maxY d c'.cell

section coordinate

variable {a m : UInt8}

/-- A coordinate that grows comes back to 0 at the side of the grid. -/
theorem wrap_add (h : a < m) : (if m ≤ a + 1 then 0 else a + 1) < m ∧
    (if m ≤ a + 1 then (0 : UInt8) else a + 1).toNat = (a.toNat + 1) % m.toNat := by
  have hlt := UInt8.lt_iff_toNat_lt.mp h
  have hm := m.toNat_lt
  have hadd : (a + 1).toNat = a.toNat + 1 := by
    rw [UInt8.toNat_add]
    exact Nat.mod_eq_of_lt (show a.toNat + 1 < 256 by omega)
  simp only [UInt8.le_iff_toNat_le, UInt8.lt_iff_toNat_lt, hadd]
  split
  · have hside : a.toNat + 1 = m.toNat := by omega
    rw [hside, Nat.mod_self]
    exact ⟨by show 0 < m.toNat; omega, rfl⟩
  · rw [hadd, Nat.mod_eq_of_lt (by omega)]
    exact ⟨by omega, rfl⟩

/-- A coordinate that falls below 0 becomes 255, which no grid has, and comes back to its last value. -/
theorem wrap_sub (h : a < m) : (if m ≤ a - 1 then m - 1 else a - 1) < m ∧
    (if m ≤ a - 1 then m - 1 else a - 1).toNat = (a.toNat + m.toNat - 1) % m.toNat := by
  have hlt := UInt8.lt_iff_toNat_lt.mp h
  have hm := m.toNat_lt
  have hlast : (m - 1).toNat = m.toNat - 1 := by
    rw [UInt8.toNat_sub]
    show (256 - 1 + m.toNat) % 256 = _
    omega
  have hsub : (a - 1).toNat = (255 + a.toNat) % 256 := UInt8.toNat_sub a 1
  simp only [UInt8.le_iff_toNat_le, UInt8.lt_iff_toNat_lt, hsub]
  by_cases hzero : a.toNat = 0
  · rw [if_pos (by omega), hlast, hzero, Nat.zero_add, Nat.mod_eq_of_lt (by omega)]
    exact ⟨by omega, rfl⟩
  · have hmod : (a.toNat + m.toNat - 1) % m.toNat = a.toNat - 1 := by
      rw [show a.toNat + m.toNat - 1 = a.toNat - 1 + m.toNat by omega, Nat.add_mod_right,
        Nat.mod_eq_of_lt (by omega)]
    rw [if_neg (by omega), hsub, hmod]
    omega

/-- The other coordinate stays. -/
theorem wrap_same (h : a < m) (b : UInt8) : (if m ≤ a then b else a) < m ∧
    (if m ≤ a then b else a).toNat = a.toNat := by
  have hle : ¬ m ≤ a := by
    rw [UInt8.lt_iff_toNat_lt] at h
    rw [UInt8.le_iff_toNat_le]
    omega
  rw [if_neg hle]
  exact ⟨h, rfl⟩

end coordinate

/-- From inside the grid the head goes to the next cell in its direction, which is inside the grid. -/
theorem wrap_advance {maxX maxY : UInt8} {c : SnakeBody} (h : Inside maxX maxY c) (d : Direction) :
    Inside maxX maxY ((c.advance d).wrap maxX maxY d) ∧
      ((c.advance d).wrap maxX maxY d).cell = neighbour maxX maxY d c.cell := by
  obtain ⟨hx, hy⟩ := h
  cases d with
  | left => exact ⟨⟨(wrap_sub hx).1, (wrap_same hy _).1⟩, Prod.ext (wrap_sub hx).2 (wrap_same hy _).2⟩
  | right => exact ⟨⟨(wrap_add hx).1, (wrap_same hy _).1⟩, Prod.ext (wrap_add hx).2 (wrap_same hy _).2⟩
  | up => exact ⟨⟨(wrap_same hx _).1, (wrap_sub hy).1⟩, Prod.ext (wrap_same hx _).2 (wrap_sub hy).2⟩
  | down => exact ⟨⟨(wrap_same hx _).1, (wrap_add hy).1⟩, Prod.ext (wrap_same hx _).2 (wrap_add hy).2⟩

/-! ## The segments -/

namespace State

/-- With an index that is not cut off, every segment is where the one in front of it was. -/
theorem Held.behind_of_short {s : State} (h : s.Held) (hshort : s.nextSize ≤ 256) :
    s.behind = s.segments.take (s.nextSize - 1) := by
  have hpos := h.pos
  have hge := s.snakeSize_le_nextSize
  have hle := s.nextSize_le
  have hlen := h.length_segments
  have hmod : (s.nextSize - 1) % 256 = s.nextSize - 1 := Nat.mod_eq_of_lt (by omega)
  refine List.ext_getElem? fun i => ?_
  by_cases hi : i < s.nextSize - 1
  · rw [behind, hmod, List.getElem?_eraseIdx_of_lt hi, List.getElem?_take_of_lt hi, grown,
      List.getElem?_append_left (by omega)]
  · rw [List.getElem?_eq_none (by rw [h.length_behind]; omega), List.getElem?_take_eq_none (by omega)]

/-- With more than 256 segments, the one behind the last that is moved stays where it is. -/
theorem Held.behind_of_long {s : State} (h : s.Held) (hlong : 256 < s.nextSize) :
    (s.nextSize - 1) % 256 + 1 < s.snakeSize ∧
      s.behind[(s.nextSize - 1) % 256]? = s.segments[(s.nextSize - 1) % 256 + 1]? := by
  have hle := s.nextSize_le
  have hlt : (s.nextSize - 1) % 256 + 1 < s.snakeSize := by omega
  refine ⟨hlt, ?_⟩
  rw [behind, List.getElem?_eraseIdx_of_ge (Nat.le_refl _), grown,
    List.getElem?_append_left (by rw [h.length_segments]; exact hlt)]

/-- The new head, and behind it the segments of the block. -/
theorem segments_withHead {s : State} (h : s.Held) {blk : List SnakeBody} (hs : s.Shifted blk) (key : Key)
    (head : SnakeBody) :
    (s.withHead key blk head).segments = head :: s.behind := by
  have hpos := h.pos
  have hge := s.snakeSize_le_nextSize
  have hroom := hs.room
  obtain ⟨k, hk⟩ : ∃ k, s.nextSize = k + 1 := ⟨s.nextSize - 1, by omega⟩
  cases blk with
  | nil => exact absurd hroom (by rw [List.length_nil]; omega)
  | cons c blk =>
    rw [← hs.behind, hk]
    show ((c :: blk).set 0 head).take s.nextSize = _
    rw [hk]
    rfl

theorem Held.withHead {s : State} (h : s.Held) {blk : List SnakeBody} (hs : s.Shifted blk) (key : Key)
    (head : SnakeBody) : (s.withHead key blk head).Held := by
  have hpos := h.pos
  have hge := s.snakeSize_le_nextSize
  refine ⟨rfl, ?_, ?_⟩
  · show 0 < s.nextSize
    omega
  · show s.nextSize ≤ (blk.set 0 head).length
    rw [List.length_set]
    exact hs.room

/-- A game as it begins: one segment in the place where the snake starts. -/
structure Started (width height : Nat) (s : State) : Prop where
  held : s.Held
  alive : s.killSig = false
  direction : s.direction = .down
  hungry : s.justAteApple = false
  apple : s.AppleOn (gridSide width) (gridSide height)
  segments : s.segments = [⟨5, 5⟩]

theorem snakeReset_spec (width height : Nat) {s : State} (hblock : s.snake.length = s.snakeCapacity)
    (hlen : 0 < s.snake.length) : ∃ t, s.snakeReset width height = some t ∧ t.Started width height := by
  obtain ⟨x, y, seed, heq, happle⟩ := State.snakeReset_eq width height hlen
  refine ⟨_, heq, ⟨?_, Nat.one_pos, ?_⟩, rfl, rfl, rfl, happle, ?_⟩
  · rw [List.length_set]
    exact hblock
  · rw [hblock] at hlen
    exact hlen
  · obtain ⟨c, cs, hcons⟩ := List.exists_cons_of_ne_nil (List.ne_nil_of_length_pos hlen)
    simp only [State.segments, hcons, List.set_cons_zero, List.take_succ_cons, List.take_zero]

end State

/-! ## What is claimed of a step -/

/-- The segments are inside the grid, at different cells, and each is next to the one behind it. -/
def Proper (maxX maxY : UInt8) (s : State) : Prop :=
  Trail (Inside maxX maxY) (Adjacent maxX maxY) s.segments

/-- The snake has moved as a body from `s` to `t`. Its size is as before, or one more when an apple was
    eaten on the update before. -/
structure MovesAsBody (maxX maxY : UInt8) (s t : State) : Prop where
  size : t.segments.length = s.segments.length + if s.justAteApple then 1 else 0
  head : ∃ c c', s.segments[0]? = some c ∧ t.segments[0]? = some c' ∧
    c'.cell = neighbour maxX maxY t.direction c.cell
  body : ∀ i, 0 < i → i < t.segments.length → t.segments[i]? = s.segments[i - 1]?

/-- A step moves the snake as a body, unless it resets the game or quits, and leaves a proper snake in the
    game. -/
def KeepsBody (width height : Nat) (g : Game) (_ : Event) (o : Option UpdateEnd) (g' : Game) : Prop :=
  (o = some .moved → MovesAsBody (gridSide width) (gridSide height) g.snake g'.snake) ∧
    (g'.playing = true → Proper (gridSide width) (gridSide height) g'.snake)

/-- The update neither quits nor resets the game: no segment is at the next place of the head. -/
def Moves (width height : Nat) (key : Key) (s : State) : Prop :=
  key ≠ .escape ∧ ∀ c, s.segments[0]? = some c → s.nextHead width height key c ∉ s.behind

/-- A game that is launched is on a grid that has the place where the snake starts, and the snake that is
    moved has at most 256 segments. -/
def ShortOnGrid (width height : Nat) (g : Game) : Event → Prop
  | .launch _ fresh => fresh ≠ none → 6 ≤ gridSide width ∧ 6 ≤ gridSide height
  | .update key _ => g.playing = true → Moves width height key g.snake → g.snake.nextSize ≤ 256

/-! ## One update -/

section update

variable {width height : Nat} {s : State}

/-- What `eat` leaves alone. -/
theorem segments_eat (maxX maxY : UInt8) (head tail : SnakeBody) (s : State) :
    (s.eat maxX maxY head tail).segments = s.segments ∧
    (s.eat maxX maxY head tail).direction = s.direction ∧
    (s.eat maxX maxY head tail).killSig = s.killSig ∧ (s.Held → (s.eat maxX maxY head tail).Held) := by
  obtain ⟨x, y, seed, ate, tx, ty, heq⟩ := s.eat_eq maxX maxY head tail
  rw [heq]
  exact ⟨rfl, rfl, rfl, fun h => ⟨h.block, h.pos, h.room⟩⟩

/-- The place where the snake starts is on every grid of at least six by six cells. -/
theorem State.Started.proper {t : State} (ht : t.Started width height)
    (hgrid : 6 ≤ gridSide width ∧ 6 ≤ gridSide height) : Proper (gridSide width) (gridSide height) t := by
  obtain ⟨hx, hy⟩ := hgrid
  rw [UInt8.le_iff_toNat_le] at hx hy
  have hsix : (6 : UInt8).toNat = 6 := rfl
  unfold Proper
  rw [ht.segments]
  refine Trail.single ⟨?_, ?_⟩
  · rw [UInt8.lt_iff_toNat_lt]
    show 5 < (gridSide width).toNat
    omega
  · rw [UInt8.lt_iff_toNat_lt]
    show 5 < (gridSide height).toNat
    omega

/-- The three ways in which an update can end. -/
theorem State.Held.update_cases (h : s.Held) (width height : Nat) (key : Key) (fresh : Nat → SnakeBody) :
    (∃ t, s.snakeUpdate width height key (some fresh) = some (.quit, t) ∧ ¬ Moves width height key s ∧
      t.killSig = true ∧ t.snake.length = t.snakeCapacity) ∨
    (∃ t, s.snakeUpdate width height key (some fresh) = some (.reset, t) ∧ ¬ Moves width height key s ∧
      t.Started width height) ∨
    ∃ t c, s.snakeUpdate width height key (some fresh) = some (.moved, t) ∧ Moves width height key s ∧
      t.killSig = s.killSig ∧ t.Held ∧ t.direction = s.direction.turn key ∧ s.segments[0]? = some c ∧
      t.segments = s.nextHead width height key c :: s.behind ∧
      s.nextHead width height key c ∉ s.behind := by
  obtain ⟨blk, c, last, hshift, hfirst, hlast, hupdate⟩ := h.snakeUpdate width height key fresh
  have hheld := h.withHead hshift key (s.nextHead width height key c)
  have hhead : s.segments[0]? = some c := (State.getElem?_segments h.pos).trans hfirst
  by_cases hkey : key = .escape
  · rw [if_pos hkey] at hupdate
    exact .inl ⟨_, hupdate, fun hmoves => hmoves.1 hkey, rfl, rfl⟩
  rw [if_neg hkey] at hupdate
  by_cases hhit : s.nextHead width height key c ∈ s.behind
  · have hlen : 0 < (s.withHead key blk (s.nextHead width height key c)).snake.length := by
      rw [hheld.block]
      exact Nat.lt_of_lt_of_le hheld.pos hheld.room
    obtain ⟨t, hreset, ht⟩ :=
      State.snakeReset_spec width height hheld.block hlen
    rw [if_pos hhit, hreset] at hupdate
    exact .inr (.inl ⟨t, hupdate, fun hmoves => hmoves.2 c hhead hhit, ht⟩)
  · rw [if_neg hhit] at hupdate
    obtain ⟨hsegments, hdirection, hkill, hkeep⟩ := segments_eat (gridSide width) (gridSide height)
      (s.nextHead width height key c) last (s.withHead key blk (s.nextHead width height key c))
    have hmoves : Moves width height key s := by
      refine ⟨hkey, fun c' hc' => ?_⟩
      obtain rfl : c = c' := Option.some.inj (hhead.symm.trans hc')
      exact hhit
    refine .inr (.inr ⟨_, c, hupdate, hmoves, hkill, hkeep hheld, hdirection, hhead, ?_, hhit⟩)
    rw [hsegments]
    exact State.segments_withHead h hshift key _

end update

section moved

variable {width height : Nat} {key : Key} {s t : State} {c : SnakeBody}

/-- A snake of at most 256 segments moves as a body. -/
theorem moves_of_short (h : s.Held) (hs : Proper (gridSide width) (gridSide height) s)
    (hshort : s.nextSize ≤ 256) (hfirst : s.segments[0]? = some c)
    (hdirection : t.direction = s.direction.turn key)
    (hsegments : t.segments = s.nextHead width height key c :: s.behind)
    (hnew : s.nextHead width height key c ∉ s.behind) :
    MovesAsBody (gridSide width) (gridSide height) s t ∧ Proper (gridSide width) (gridSide height) t := by
  have hpos := h.pos
  have hge := s.snakeSize_le_nextSize
  have hlen := h.length_segments
  have hbehind := h.length_behind
  obtain ⟨hinside, hcell⟩ := wrap_advance (hs.inside c (List.mem_of_getElem? hfirst))
    (s.direction.turn key)
  refine ⟨⟨?_, ?_, ?_⟩, ?_⟩
  · rw [hsegments, List.length_cons, hbehind, hlen, State.nextSize]
    split <;> omega
  · refine ⟨c, s.nextHead width height key c, hfirst, by rw [hsegments]; rfl, ?_⟩
    rw [hdirection]
    exact hcell
  · intro i hi hit
    obtain ⟨k, rfl⟩ : ∃ k, i = k + 1 := ⟨i - 1, by omega⟩
    rw [hsegments, List.length_cons, hbehind] at hit
    rw [hsegments, List.getElem?_cons_succ, Nat.add_sub_cancel, h.behind_of_short hshort,
      List.getElem?_take_of_lt (by omega)]
  · unfold Proper
    rw [h.behind_of_short hshort] at hsegments hnew
    rw [hsegments]
    have hhead : s.segments.head? = some c := by rw [List.head?_eq_getElem?, hfirst]
    exact hs.follow hhead hinside ⟨_, hcell⟩ hnew

/-- A longer snake does not. -/
theorem not_moves_of_long (h : s.Held) (hs : Proper (gridSide width) (gridSide height) s)
    (hlong : 256 < s.nextSize) (hsegments : t.segments = s.nextHead width height key c :: s.behind) :
    ¬ MovesAsBody (gridSide width) (gridSide height) s t := by
  intro hmoves
  obtain ⟨hlt, hstays⟩ := h.behind_of_long hlong
  have hle := s.nextSize_le
  have hbody := hmoves.body ((s.nextSize - 1) % 256 + 1) (Nat.succ_pos _) (by
    rw [hsegments, List.length_cons, h.length_behind]
    omega)
  rw [hsegments, List.getElem?_cons_succ, hstays, Nat.add_sub_cancel] at hbody
  exact hs.ne (Nat.lt_succ_self _) (by rw [h.length_segments]; exact hlt) hbody.symm

end moved

end ChocoOs.Snake
