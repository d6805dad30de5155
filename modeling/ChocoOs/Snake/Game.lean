import Mathlib.Data.List.Basic

/-!
# The snake game

`snake.c`. A call of `snake_update` is one step; what `keyboard_get_key` returns in it is the input. `none`
stands for an access outside the block that holds the segments.
-/

namespace ChocoOs.Snake

/-- `Key` (`keyboard.h:8-18`) -/
inductive Key where
  | a | b | c | d | e | f | g | h | i | j | k | l | m
  | n | o | p | q | r | s | t | u | v | w | x | y | z
  | enter
  | space
  | escape
  | backspace
  | none
  deriving DecidableEq

/-- `Direction` (`snake.h:8-14`) -/
inductive Direction where
  | up
  | down
  | left
  | right
  deriving DecidableEq

/-- `SnakeBody` (`snake.h:16-21`) -/
structure SnakeBody where
  coordinatesX : UInt8
  coordinatesY : UInt8
  deriving DecidableEq

/-- The variables of `snake.c` (`snake.c:10-25`). The block `snake` has its entries as a list; the null
    pointer has none. -/
structure State where
  snake : List SnakeBody
  snakeCapacity : Nat
  direction : Direction
  snakeSize : Nat
  appleX : UInt64
  appleY : UInt64
  justAteApple : Bool
  killSig : Bool
  rngSeed : UInt32
  tailX : UInt64
  tailY : UInt64

/-- By which of its exits `snake_update` has returned. -/
inductive UpdateEnd where
  | moved
  | reset
  | quit
  deriving DecidableEq

/-- `framebuffer_get_width() / GRID_SIZE`, or the height, as an 8-bit number that is not 0
    (`snake.c:54-57`). -/
def gridSide (pixels : Nat) : UInt8 :=
  let side := UInt8.ofNat (pixels / 20)
  if side = 0 then 1 else side

/-- `snake[i] = c` -/
def setSegment (snake : List SnakeBody) (i : Nat) (c : SnakeBody) : Option (List SnakeBody) :=
  if i < snake.length then some (snake.set i c) else none

namespace State

/-- `get_random` (`snake.c:27-31`) -/
def getRandom (s : State) : UInt32 × State :=
  let seed := s.rngSeed * 1664525 + 1013904223
  (seed, { s with rngSeed := seed })

/-- The next apple (`snake.c:48-49`, `snake.c:144-145`). -/
def placeApple (maxX maxY : UInt8) (s : State) : State :=
  let (x, s) := s.getRandom
  let (y, s) := s.getRandom
  { s with appleX := (x % maxX.toUInt32).toUInt64, appleY := (y % maxY.toUInt32).toUInt64 }

/-- `snake_reset` (`snake.c:33-50`) -/
def snakeReset (width height : Nat) (s : State) : Option State := do
  let snake ← setSegment s.snake 0 ⟨5, 5⟩
  return placeApple (gridSide width) (gridSide height)
    { s with direction := .down, snakeSize := 1, killSig := false, justAteApple := false, snake }

/-- A block of `capacity` entries that begins with those of `snake`. -/
def reallocBlock (snake : List SnakeBody) (capacity : Nat) (fresh : Nat → SnakeBody) :
    List SnakeBody :=
  (List.range capacity).map fun i => snake.getD i (fresh i)

/-- There is room for one more segment, if `realloc` finds it (`snake.c:64-73`). `fresh` is what the new
    block holds. -/
def extend (fresh : Option (Nat → SnakeBody)) (s : State) : State :=
  if s.snakeCapacity ≤ s.snakeSize then
    match fresh with
    | some fresh =>
      { s with
        snakeCapacity := s.snakeCapacity * 2
        snake := reallocBlock s.snake (s.snakeCapacity * 2) fresh }
    | none => s
  else s

/-- The segment for the apple that was eaten on the update before (`snake.c:62-83`). -/
def grow (fresh : Option (Nat → SnakeBody)) (s : State) : Option State :=
  if s.justAteApple then do
    let s := s.extend fresh
    let s ← if s.snakeSize < s.snakeCapacity then do
        let snake ← setSegment s.snake s.snakeSize ⟨s.tailX.toUInt8, s.tailY.toUInt8⟩
        pure { s with snakeSize := s.snakeSize + 1, snake }
      else pure s
    return { s with justAteApple := false }
  else return s

end State

/-- The loop that moves the segments, from the index `k` down (`snake.c:85-89`). -/
def shiftSegments : Nat → List SnakeBody → Option (List SnakeBody)
  | 0, snake => some snake
  | k + 1, snake => do
    let c ← snake[k]?
    let snake ← setSegment snake (k + 1) c
    shiftSegments k snake

/-- The keys that turn the snake (`snake.c:97-104`). -/
def Direction.turn (key : Key) (d : Direction) : Direction :=
  if key = .a ∧ d ≠ .right then .left
  else if key = .d ∧ d ≠ .left then .right
  else if key = .w ∧ d ≠ .down then .up
  else if key = .s ∧ d ≠ .up then .down
  else d

/-- The head one place further, without a look at the grid (`snake.c:106-113`). -/
def SnakeBody.advance (d : Direction) (c : SnakeBody) : SnakeBody :=
  match d with
  | .left => { c with coordinatesX := c.coordinatesX - 1 }
  | .right => { c with coordinatesX := c.coordinatesX + 1 }
  | .up => { c with coordinatesY := c.coordinatesY - 1 }
  | .down => { c with coordinatesY := c.coordinatesY + 1 }

/-- The head back on the grid (`snake.c:115-129`). -/
def SnakeBody.wrap (maxX maxY : UInt8) (d : Direction) (c : SnakeBody) : SnakeBody where
  coordinatesX :=
    if maxX ≤ c.coordinatesX then (if d = .left then maxX - 1 else 0) else c.coordinatesX
  coordinatesY :=
    if maxY ≤ c.coordinatesY then (if d = .up then maxY - 1 else 0) else c.coordinatesY

/-- The search for a segment at the place of the head, for `rounds` rounds from the index `i` on
    (`snake.c:132-140`). -/
def hitsFrom (snake : List SnakeBody) (head : SnakeBody) : (rounds i : Nat) → Option Bool
  | 0, _ => some false
  | rounds + 1, i => do
    let c ← snake[i]?
    if head = c then return true
    hitsFrom snake head rounds (i + 1)

namespace State

/-- An apple is eaten; the segment for it will be where the tail was (`snake.c:142-151`). -/
def eat (maxX maxY : UInt8) (head tail : SnakeBody) (s : State) : State :=
  if head.coordinatesX.toUInt64 = s.appleX ∧ head.coordinatesY.toUInt64 = s.appleY then
    { s.placeApple maxX maxY with
      justAteApple := true
      tailX := tail.coordinatesX.toUInt64
      tailY := tail.coordinatesY.toUInt64 }
  else s

/-- `snake_update` (`snake.c:52-152`). The index of the loop that moves the segments has 8 bits. -/
def snakeUpdate (width height : Nat) (key : Key) (fresh : Option (Nat → SnakeBody)) (s : State) :
    Option (UpdateEnd × State) := do
  let maxX := gridSide width
  let maxY := gridSide height
  let tail ← s.snake[s.snakeSize - 1]?
  let s ← s.grow fresh
  let snake ← shiftSegments ((s.snakeSize - 1) % 256) s.snake
  let s := { s with snake }
  if key = .escape then return (.quit, { s with killSig := true })
  let s := { s with direction := s.direction.turn key }
  let c ← s.snake[0]?
  let head := (c.advance s.direction).wrap maxX maxY s.direction
  let snake ← setSegment s.snake 0 head
  let s := { s with snake }
  if ← hitsFrom s.snake head (s.snakeSize - 1) 1 then
    let s ← s.snakeReset width height
    return (.reset, s)
  return (.moved, s.eat maxX maxY head tail)

end State

/-- The game, and whether the loop of `snake_init` runs. -/
structure Game where
  snake : State
  playing : Bool

/-- `snake_init` up to its loop (`snake.c:168-181`); `fresh` is what `malloc` returns. -/
def Game.snakeInit (width height : Nat) (ticks : UInt64) (fresh : Option (Nat → SnakeBody)) (s : State) :
    Option Game :=
  let s :=
    if s.snake = [] then
      { s with
        snakeCapacity := 100
        snake := match fresh with
          | some fresh => (List.range 100).map fresh
          | none => [] }
    else s
  if s.snake = [] then some ⟨s, false⟩
  else do
    let s := { s with rngSeed := if ticks.toUInt32 = 0 then 12345 else ticks.toUInt32 }
    let s ← s.snakeReset width height
    return ⟨s, true⟩

/-- The program is loaded. -/
def boot : Game where
  snake := ⟨[], 100, .down, 1, 5, 5, false, false, 12345, 0, 0⟩
  playing := false

/-- What happens to the game: it is launched, or 110 ticks are over and a key is taken. `realloc` always
    succeeds in an update. -/
inductive Event where
  | launch (ticks : UInt64) (fresh : Option (Nat → SnakeBody))
  | update (key : Key) (fresh : Nat → SnakeBody)

/-- An event, and how `snake_update` has ended. There is one game at a time, and no update without one; the
    loop ends when `kill_sig` is set (`snake.c:188-201`). -/
def Game.step (width height : Nat) (g : Game) : Event → Option (Option UpdateEnd × Game)
  | .launch ticks fresh =>
    if g.playing then some (none, g)
    else (Game.snakeInit width height ticks fresh g.snake).map fun g => (none, g)
  | .update key fresh =>
    if g.playing then
      (g.snake.snakeUpdate width height key (some fresh)).map fun r => (some r.1, ⟨r.2, !r.2.killSig⟩)
    else some (none, g)

end ChocoOs.Snake
