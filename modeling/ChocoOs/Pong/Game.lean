import ChocoOs.Snake.Game
import Mathlib.Tactic.Ring

/-!
# The game of pong

`pong.c`. A call of `pong_update` is one step; what `keyboard_get_key` returns in it is the input. The
paddles are 10 by 60 pixels and the ball is 8 by 8. On a screen that is large enough the paddles never
leave it, the ball leaves it by less than its own size, and points cannot be made quickly.
-/

namespace ChocoOs.Pong
open ChocoOs.Snake (Key)

/-- The variables of `pong.c` (`pong.c:16-29`). The size of the screen is that of the framebuffer. -/
structure State where
  playerY : Int
  aiY : Int
  ballX : Int
  ballY : Int
  ballDx : Int
  ballDy : Int
  screenWidth : Nat
  screenHeight : Nat
  playerScore : Int
  aiScore : Int
  killSig : Bool
  deriving DecidableEq

namespace State

/-- `pong_reset_ball` (`pong.c:31-37`) -/
def pongResetBall (s : State) : State :=
  { s with
    ballX := (s.screenWidth : Int) / 2 - 4
    ballY := (s.screenHeight : Int) / 2 - 4
    ballDx := if 0 < s.ballDx then -10 else 10
    ballDy := 8 }

/-- `pong_reset` (`pong.c:39-47`) -/
def pongReset (s : State) : State :=
  { pongResetBall { s with
      playerY := (s.screenHeight : Int) / 2 - 30
      aiY := (s.screenHeight : Int) / 2 - 30
      playerScore := 0
      aiScore := 0 } with
    killSig := false }

/-- The player (`pong.c:58-65`). -/
def movePlayer (key : Key) (s : State) : State :=
  if key = .w then { s with playerY := s.playerY - 15 }
  else if key = .s then { s with playerY := s.playerY + 15 }
  else s

/-- The opponent (`pong.c:68-75`). -/
def moveAi (s : State) : State :=
  if s.ballY < s.aiY + 30 then { s with aiY := s.aiY - 10 } else { s with aiY := s.aiY + 10 }

/-- The top of a paddle on the screen. -/
def constrain (height y : Int) : Int :=
  let y := if y < 0 then 0 else y
  if height - 60 < y then height - 60 else y

/-- The paddles are kept on the screen (`pong.c:78-81`). -/
def constrainPaddles (s : State) : State :=
  { s with playerY := constrain s.screenHeight s.playerY, aiY := constrain s.screenHeight s.aiY }

/-- The ball moves (`pong.c:84-85`). -/
def moveBall (s : State) : State := { s with ballX := s.ballX + s.ballDx, ballY := s.ballY + s.ballDy }

/-- The ball at the top or at the bottom (`pong.c:88-91`). -/
def bounce (s : State) : State :=
  if s.ballY ≤ 0 ∨ s.screenHeight - 8 ≤ s.ballY then { s with ballDy := -s.ballDy } else s

/-- The ball at the paddle of the player (`pong.c:95-99`). -/
def hitLeft (s : State) : State :=
  if s.ballX ≤ 10 ∧ s.playerY ≤ s.ballY + 8 ∧ s.ballY ≤ s.playerY + 60 then
    { s with ballDx := -s.ballDx, ballX := 10 }
  else s

/-- The ball at the paddle of the opponent (`pong.c:101-105`). -/
def hitRight (s : State) : State :=
  if s.screenWidth - 18 ≤ s.ballX ∧ s.aiY ≤ s.ballY + 8 ∧ s.ballY ≤ s.aiY + 60 then
    { s with ballDx := -s.ballDx, ballX := s.screenWidth - 18 }
  else s

/-- A point, if the ball is behind a side (`pong.c:108-117`). -/
def score (s : State) : State :=
  if s.ballX < 0 then pongResetBall { s with aiScore := s.aiScore + 1 }
  else if s.screenWidth < s.ballX then pongResetBall { s with playerScore := s.playerScore + 1 }
  else s

/-- `pong_update` (`pong.c:49-118`) -/
def pongUpdate (key : Key) (s : State) : State :=
  if key = .escape then { s with killSig := true }
  else score (hitRight (hitLeft (bounce (moveBall (constrainPaddles (moveAi (movePlayer key s)))))))

end State

/-- The game and its caller. -/
structure Game where
  pong : State
  /-- `pong_init` has been called and has not returned. -/
  playing : Bool
  /-- The calls of `pong_update` since then. -/
  rounds : Nat
  deriving DecidableEq

/-- The game when the kernel starts. -/
def boot : Game := ⟨⟨0, 0, 0, 0, 10, 8, 0, 0, 0, 0, false⟩, false, 0⟩

inductive Event where
  | launch
  | round (key : Key)

/-- `pong_init` begins, or goes through its loop (`pong.c:144-170`), on a screen of this size. -/
def step (width height : Nat) (g : Game) : Event → Game
  | .launch =>
    if g.playing = true then g
    else ⟨State.pongReset { g.pong with screenWidth := width, screenHeight := height }, true, 0⟩
  | .round key =>
    if g.playing = true then
      let s := g.pong.pongUpdate key
      ⟨s, !s.killSig, g.rounds + 1⟩
    else g

/-! ## The step -/

/-- The ball flies: it is at most 7 pixels outside, and then it comes back. -/
structure Flying (height : Nat) (y dy : Int) : Prop where
  speed : dy = 8 ∨ dy = -8
  above : -7 ≤ y
  below : y < height
  top : y ≤ 0 → dy = 8
  bottom : height - 8 ≤ y → dy = -8

theorem Flying.reset {height : Nat} (h : 60 ≤ height) : Flying height ((height : Int) / 2 - 4) 8 := by
  constructor <;> omega

/-- The ball moves and is turned round at the top and at the bottom. -/
theorem Flying.bounce {height : Nat} {y dy : Int} (h : Flying height y dy) :
    Flying height (y + dy) (if y + dy ≤ 0 ∨ (height : Int) - 8 ≤ y + dy then -dy else dy) := by
  obtain ⟨hspeed, habove, hbelow, htop, hbottom⟩ := h
  rcases hspeed with rfl | rfl
  · have hlow : ¬ (height : Int) - 8 ≤ y := fun hle => by cases hbottom hle
    split <;> constructor <;> omega
  · have hhigh : ¬ y ≤ 0 := fun hle => by cases htop hle
    split <;> constructor <;> omega

theorem constrain_mem {height : Nat} (h : 60 ≤ height) (y : Int) :
    0 ≤ State.constrain height y ∧ State.constrain height y + 60 ≤ height := by
  unfold State.constrain
  simp only
  split <;> split <;> omega

/-- What holds between two rounds. In each round the ball gains at most 18 pixels toward a side, and from
    where it is put after a point it is `width / 2 - 4` pixels to the nearer one. -/
structure Proper (width height n : Nat) (s : State) : Prop where
  wide : s.screenWidth = width
  high : s.screenHeight = height
  player : 0 ≤ s.playerY ∧ s.playerY + 60 ≤ height
  ai : 0 ≤ s.aiY ∧ s.aiY + 60 ≤ height
  flying : Flying height s.ballY s.ballDy
  dx : s.ballDx = 10 ∨ s.ballDx = -10
  x : 0 ≤ s.ballX ∧ s.ballX ≤ width
  scores : 0 ≤ s.playerScore ∧ 0 ≤ s.aiScore
  left : ((width : Int) / 2 - 4) * (s.playerScore + s.aiScore) + ((width : Int) / 2 - 4 - s.ballX) ≤ 18 * n
  right : ((width : Int) / 2 - 4) * (s.playerScore + s.aiScore) + (s.ballX - ((width : Int) / 2 - 4)) ≤
    18 * n

section steps

variable {width height n : Nat} {s : State}

theorem resetDx {dx : Int} : (if 0 < dx then (-10 : Int) else 10) = 10 ∨
    (if 0 < dx then (-10 : Int) else 10) = -10 := by
  split
  · exact .inr rfl
  · exact .inl rfl

theorem Proper.pongReset (hw : 29 ≤ width) (hh : 60 ≤ height) : Proper width height 0
    (State.pongReset { s with screenWidth := width, screenHeight := height }) where
  wide := rfl
  high := rfl
  player := by
    show 0 ≤ (height : Int) / 2 - 30 ∧ (height : Int) / 2 - 30 + 60 ≤ height
    omega
  ai := by
    show 0 ≤ (height : Int) / 2 - 30 ∧ (height : Int) / 2 - 30 + 60 ≤ height
    omega
  flying := .reset hh
  dx := resetDx
  x := by
    show 0 ≤ (width : Int) / 2 - 4 ∧ (width : Int) / 2 - 4 ≤ width
    omega
  scores := ⟨Int.le_refl 0, Int.le_refl 0⟩
  left := by
    show ((width : Int) / 2 - 4) * (0 + 0) + ((width : Int) / 2 - 4 - ((width : Int) / 2 - 4)) ≤
      18 * (0 : Nat)
    simp
  right := by
    show ((width : Int) / 2 - 4) * (0 + 0) + ((width : Int) / 2 - 4 - ((width : Int) / 2 - 4)) ≤
      18 * (0 : Nat)
    simp

/-- The paddles are moved, and are on the screen after it. -/
theorem paddles_eq (hh : 60 ≤ s.screenHeight) (key : Key) :
    ∃ p a, (s.movePlayer key).moveAi.constrainPaddles = { s with playerY := p, aiY := a } ∧
      (0 ≤ p ∧ p + 60 ≤ s.screenHeight) ∧ 0 ≤ a ∧ a + 60 ≤ s.screenHeight := by
  have hplayer : ∃ p, s.movePlayer key = { s with playerY := p } := by
    unfold State.movePlayer
    split
    · exact ⟨_, rfl⟩
    split
    · exact ⟨_, rfl⟩
    · exact ⟨s.playerY, rfl⟩
  obtain ⟨p, hp⟩ := hplayer
  have hai : ∃ a, (s.movePlayer key).moveAi = { s with playerY := p, aiY := a } := by
    rw [hp]
    unfold State.moveAi
    split
    · exact ⟨_, rfl⟩
    · exact ⟨_, rfl⟩
  obtain ⟨a, ha⟩ := hai
  rw [ha]
  exact ⟨_, _, rfl, constrain_mem hh p, constrain_mem hh a⟩

/-- The ball moves, and is turned round at the top and at the bottom. -/
theorem bounce_moveBall (s : State) : s.moveBall.bounce =
    { s with
      ballX := s.ballX + s.ballDx, ballY := s.ballY + s.ballDy
      ballDy := if s.ballY + s.ballDy ≤ 0 ∨ (s.screenHeight : Int) - 8 ≤ s.ballY + s.ballDy then
        -s.ballDy else s.ballDy } := by
  have hbounce : s.moveBall.bounce =
      if s.ballY + s.ballDy ≤ 0 ∨ (s.screenHeight : Int) - 8 ≤ s.ballY + s.ballDy then
        { s.moveBall with ballDy := -s.ballDy } else s.moveBall := rfl
  rw [hbounce]
  by_cases h : s.ballY + s.ballDy ≤ 0 ∨ (s.screenHeight : Int) - 8 ≤ s.ballY + s.ballDy
  · rw [if_pos h, if_pos h]
    rfl
  · rw [if_neg h, if_neg h]
    rfl

/-- The ball is turned round at a paddle, and put in front of it. -/
theorem hit_eq (hw : 29 ≤ s.screenWidth) : ∃ x dx,
    s.hitLeft.hitRight = { s with ballX := x, ballDx := dx } ∧ (dx = s.ballDx ∨ dx = -s.ballDx) ∧
      (x = s.ballX ∨ (s.ballX ≤ 10 ∧ x = 10) ∨
        ((s.screenWidth : Int) - 18 ≤ s.ballX ∧ x = s.screenWidth - 18)) := by
  by_cases hleft : s.ballX ≤ 10 ∧ s.playerY ≤ s.ballY + 8 ∧ s.ballY ≤ s.playerY + 60
  · -- in front of the left paddle it is not at the right one
    refine ⟨10, -s.ballDx, ?_, .inr rfl, .inr (.inl ⟨hleft.1, rfl⟩)⟩
    rw [State.hitLeft, if_pos hleft, State.hitRight, if_neg]
    rintro ⟨hright, -⟩
    have hright : (s.screenWidth : Int) - 18 ≤ 10 := hright
    omega
  rw [State.hitLeft, if_neg hleft, State.hitRight]
  by_cases hright : (s.screenWidth : Int) - 18 ≤ s.ballX ∧ s.aiY ≤ s.ballY + 8 ∧ s.ballY ≤ s.aiY + 60
  · rw [if_pos hright]
    exact ⟨_, _, rfl, .inr rfl, .inr (.inr ⟨hright.1, rfl⟩)⟩
  · rw [if_neg hright]
    exact ⟨s.ballX, s.ballDx, rfl, .inl rfl, .inl rfl⟩

/-- A ball behind a side is a point, and the next one begins in the middle. -/
theorem Proper.score {x dx : Int} (hw : 29 ≤ width) (hh : 60 ≤ height) (h : Proper width height n s)
    (hdx : dx = 10 ∨ dx = -10)
    (hleft : ((width : Int) / 2 - 4) * (s.playerScore + s.aiScore) + ((width : Int) / 2 - 4 - x) ≤ 18 * n)
    (hright : ((width : Int) / 2 - 4) * (s.playerScore + s.aiScore) + (x - ((width : Int) / 2 - 4)) ≤
      18 * n) : Proper width height n (State.score { s with ballX := x, ballDx := dx }) := by
  obtain ⟨rfl, rfl, hplayer, hai, hflying, -, -, ⟨hp, ha⟩, -, -⟩ := h
  have hmore : ((s.screenWidth : Int) / 2 - 4) * (s.playerScore + s.aiScore + 1) =
      ((s.screenWidth : Int) / 2 - 4) * (s.playerScore + s.aiScore) + ((s.screenWidth : Int) / 2 - 4) := by
    ring
  have hmiddle : 0 ≤ (s.screenWidth : Int) / 2 - 4 ∧ (s.screenWidth : Int) / 2 - 4 ≤ s.screenWidth := by
    omega
  by_cases hneg : x < 0
  · have heq : State.score { s with ballX := x, ballDx := dx } =
        State.pongResetBall { s with ballX := x, ballDx := dx, aiScore := s.aiScore + 1 } := if_pos hneg
    rw [heq]
    refine ⟨rfl, rfl, hplayer, hai, .reset hh, resetDx, hmiddle, ⟨hp, by show 0 ≤ s.aiScore + 1; omega⟩, ?_, ?_⟩
    · show _ * (s.playerScore + (s.aiScore + 1)) + (_ - ((s.screenWidth : Int) / 2 - 4)) ≤ _
      rw [← Int.add_assoc, hmore]
      omega
    · show _ * (s.playerScore + (s.aiScore + 1)) + ((s.screenWidth : Int) / 2 - 4 - _) ≤ _
      rw [← Int.add_assoc, hmore]
      omega
  by_cases hbehind : (s.screenWidth : Int) < x
  · have heq : State.score { s with ballX := x, ballDx := dx } =
        State.pongResetBall { s with ballX := x, ballDx := dx, playerScore := s.playerScore + 1 } := by
      rw [State.score, if_neg hneg]
      exact if_pos hbehind
    have hswap : s.playerScore + 1 + s.aiScore = s.playerScore + s.aiScore + 1 := by omega
    rw [heq]
    refine ⟨rfl, rfl, hplayer, hai, .reset hh, resetDx, hmiddle,
      ⟨by show 0 ≤ s.playerScore + 1; omega, ha⟩, ?_, ?_⟩
    · show _ * (s.playerScore + 1 + s.aiScore) + (_ - ((s.screenWidth : Int) / 2 - 4)) ≤ _
      rw [hswap, hmore]
      omega
    · show _ * (s.playerScore + 1 + s.aiScore) + ((s.screenWidth : Int) / 2 - 4 - _) ≤ _
      rw [hswap, hmore]
      omega
  · have heq : State.score { s with ballX := x, ballDx := dx } = { s with ballX := x, ballDx := dx } := by
      rw [State.score, if_neg hneg]
      exact if_neg hbehind
    have hinside : 0 ≤ x ∧ x ≤ s.screenWidth := ⟨by omega, by omega⟩
    rw [heq]
    exact ⟨rfl, rfl, hplayer, hai, hflying, hdx, hinside, ⟨hp, ha⟩, hleft, hright⟩

/-- A round keeps it. -/
theorem Proper.pongUpdate (hw : 29 ≤ width) (hh : 60 ≤ height) (h : Proper width height n s) (key : Key) :
    Proper width height (n + 1) (s.pongUpdate key) := by
  obtain ⟨rfl, rfl, hplayer, hai, hflying, hdx, ⟨hx, hx'⟩, hscores, hleft, hright⟩ := h
  have hround : (((n + 1 : Nat) : Int)) = n + 1 := Int.natCast_succ n
  have hleft' : ((s.screenWidth : Int) / 2 - 4) * (s.playerScore + s.aiScore) +
      ((s.screenWidth : Int) / 2 - 4 - s.ballX) ≤ 18 * (n + 1 : Nat) := by omega
  have hright' : ((s.screenWidth : Int) / 2 - 4) * (s.playerScore + s.aiScore) +
      (s.ballX - ((s.screenWidth : Int) / 2 - 4)) ≤ 18 * (n + 1 : Nat) := by omega
  unfold State.pongUpdate
  by_cases hescape : key = .escape
  · rw [if_pos hescape]
    exact ⟨rfl, rfl, hplayer, hai, hflying, hdx, ⟨hx, hx'⟩, hscores, hleft', hright'⟩
  rw [if_neg hescape]
  obtain ⟨p, a, hpaddles, hp, ha⟩ := paddles_eq hh key
  rw [hpaddles, bounce_moveBall]
  simp only
  obtain ⟨x, dx, hhit, hdx', hx''⟩ := @hit_eq { s with
      playerY := p, aiY := a, ballX := s.ballX + s.ballDx, ballY := s.ballY + s.ballDy
      ballDy := if s.ballY + s.ballDy ≤ 0 ∨ (s.screenHeight : Int) - 8 ≤ s.ballY + s.ballDy then
        -s.ballDy else s.ballDy } hw
  rw [hhit]
  simp only at hdx' hx'' ⊢
  -- the ball where it was, with the paddles and the height of this round
  have hstay : Proper s.screenWidth s.screenHeight (n + 1) { s with
      playerY := p, aiY := a, ballY := s.ballY + s.ballDy
      ballDy := if s.ballY + s.ballDy ≤ 0 ∨ (s.screenHeight : Int) - 8 ≤ s.ballY + s.ballDy then
        -s.ballDy else s.ballDy } :=
    ⟨rfl, rfl, hp, ha, hflying.bounce, hdx, ⟨hx, hx'⟩, hscores, hleft', hright'⟩
  have hspeed : dx = 10 ∨ dx = -10 := by omega
  have hnear : x - s.ballX ≤ 18 ∧ s.ballX - x ≤ 18 := by omega
  have hleft'' : ((s.screenWidth : Int) / 2 - 4) * (s.playerScore + s.aiScore) +
      ((s.screenWidth : Int) / 2 - 4 - x) ≤ 18 * (n + 1 : Nat) := by omega
  have hright'' : ((s.screenWidth : Int) / 2 - 4) * (s.playerScore + s.aiScore) +
      (x - ((s.screenWidth : Int) / 2 - 4)) ≤ 18 * (n + 1 : Nat) := by omega
  exact hstay.score hw hh hspeed hleft'' hright''

end steps

/-! ## Whole games -/

/-- What holds in every game. -/
structure Game.Inv (width height : Nat) (g : Game) : Prop where
  stopped : g.playing = false ∨ g.pong.killSig = false
  proper : g = boot ∨ Proper width height g.rounds g.pong

theorem Game.Inv.step {width height : Nat} (hw : 29 ≤ width) (hh : 60 ≤ height) {g : Game}
    (h : g.Inv width height) (e : Event) : (step width height g e).Inv width height := by
  cases e with
  | launch =>
    by_cases hplay : g.playing = true
    · rw [Pong.step, if_pos hplay]
      exact h
    · rw [Pong.step, if_neg hplay]
      exact ⟨.inr rfl, .inr (.pongReset hw hh)⟩
  | round key =>
    by_cases hplay : g.playing = true
    · rw [Pong.step, if_pos hplay]
      have hproper : Proper width height g.rounds g.pong := by
        refine h.proper.resolve_left fun hboot => ?_
        rw [hboot] at hplay
        cases hplay
      refine ⟨?_, .inr (hproper.pongUpdate hw hh key)⟩
      simp only
      cases (g.pong.pongUpdate key).killSig
      · exact .inr rfl
      · exact .inl rfl
    · rw [Pong.step, if_neg hplay]
      exact h

theorem Game.Inv.run {width height : Nat} (hw : 29 ≤ width) (hh : 60 ≤ height) (es : List Event)
    {g : Game} (h : g.Inv width height) : (es.foldl (Pong.step width height) g).Inv width height := by
  induction es generalizing g with
  | nil => exact h
  | cons e es ih => exact ih (h.step hw hh e)

end ChocoOs.Pong
