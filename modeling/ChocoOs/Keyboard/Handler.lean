import ChocoOs.Keyboard.Queue

/-!
# The keyboard interrupt

`keyboard_handler` of `keyboard.c`, called with one byte of scan code set 2 at a time.
-/

namespace ChocoOs.Keyboard

/-- `SC_RELEASE` -/
def scRelease : UInt8 := 0xF0

/-- `SC_EXTENDED` -/
def scExtended : UInt8 := 0xE0

/-- `SC_LSHIFT` -/
def scLshift : UInt8 := 0x12

/-- `SC_RSHIFT` -/
def scRshift : UInt8 := 0x59

/-- `SC_LCTRL` -/
def scLctrl : UInt8 := 0x14

/-- `SC_LALT` -/
def scLalt : UInt8 := 0x11

/-- `SC_CAPSLOCK` -/
def scCapslock : UInt8 := 0x58

/-- `sc2_ascii` (`keyboard.c:29-41`), without the scan codes that have no character. -/
def sc2Ascii : List (UInt8 × UInt8) :=
  [(0x0D, 9), (0x0E, 96), (0x15, 113), (0x16, 49), (0x1A, 122), (0x1B, 115), (0x1C, 97),
    (0x1D, 119), (0x1E, 50), (0x21, 99), (0x22, 120), (0x23, 100), (0x24, 101), (0x25, 52),
    (0x26, 51), (0x29, 32), (0x2A, 118), (0x2B, 102), (0x2C, 116), (0x2D, 114), (0x2E, 53),
    (0x31, 110), (0x32, 98), (0x33, 104), (0x34, 103), (0x35, 121), (0x36, 54), (0x3A, 109),
    (0x3B, 106), (0x3C, 117), (0x3D, 55), (0x3E, 56), (0x41, 44), (0x42, 107), (0x43, 105),
    (0x44, 111), (0x45, 48), (0x46, 57), (0x49, 46), (0x4A, 47), (0x4B, 108), (0x4C, 59),
    (0x4D, 112), (0x4E, 45), (0x52, 39), (0x54, 91), (0x55, 61), (0x5A, 10), (0x5B, 93), (0x5D, 92),
    (0x66, 8)]

/-- `sc2_ascii_shift` (`keyboard.c:43-55`) -/
def sc2AsciiShift : List (UInt8 × UInt8) :=
  [(0x0D, 9), (0x0E, 126), (0x15, 81), (0x16, 33), (0x1A, 90), (0x1B, 83), (0x1C, 65), (0x1D, 87),
    (0x1E, 64), (0x21, 67), (0x22, 88), (0x23, 68), (0x24, 69), (0x25, 36), (0x26, 35), (0x29, 32),
    (0x2A, 86), (0x2B, 70), (0x2C, 84), (0x2D, 82), (0x2E, 37), (0x31, 78), (0x32, 66), (0x33, 72),
    (0x34, 71), (0x35, 89), (0x36, 94), (0x3A, 77), (0x3B, 74), (0x3C, 85), (0x3D, 38), (0x3E, 42),
    (0x41, 60), (0x42, 75), (0x43, 73), (0x44, 79), (0x45, 41), (0x46, 40), (0x49, 62), (0x4A, 63),
    (0x4B, 76), (0x4C, 58), (0x4D, 80), (0x4E, 95), (0x52, 34), (0x54, 123), (0x55, 43), (0x5A, 10),
    (0x5B, 125), (0x5D, 124), (0x66, 8)]

/-- An entry of a table; `0` where there is none. -/
def asciiOf (table : List (UInt8 × UInt8)) (sc : UInt8) : UInt8 := (table.lookup sc).getD 0

/-- `extended_keycode` (`keyboard.c:91-106`) -/
def extendedKeycode (sc : UInt8) : KeyCode :=
  match sc with
  | 0x75 => .keyUp
  | 0x72 => .keyDown
  | 0x6B => .keyLeft
  | 0x74 => .keyRight
  | 0x6C => .keyHome
  | 0x69 => .keyEnd
  | 0x7D => .keyPgup
  | 0x7A => .keyPgdn
  | 0x71 => .keyDelete
  | _ => .keyNone

/-- The keys without a character that need no prefix (`keyboard.c:165-172`). -/
def specialKeycode (sc : UInt8) : Option KeyCode :=
  match sc with
  | 0x76 => some .keyEscape
  | 0x05 => some .keyF1
  | 0x06 => some .keyF2
  | 0x04 => some .keyF3
  | 0x0C => some .keyF4
  | _ => none

/-- The static variables of `keyboard.c` (`keyboard.c:57-67`). -/
structure Driver where
  queue : Queue
  shiftDown : Bool
  ctrlDown : Bool
  altDown : Bool
  capsOn : Bool
  seenRelease : Bool
  seenExtended : Bool

namespace Driver

/-- The character of a scan code (`keyboard.c:174-187`), if there is one. -/
def character (k : Driver) (sc : UInt8) : Option UInt8 :=
  if 0x80 ≤ sc then none
  else
    let c := if k.shiftDown then asciiOf sc2AsciiShift sc else asciiOf sc2Ascii sc
    if c = 0 then none
    else if k.capsOn = true ∧ k.shiftDown = false ∧ 97 ≤ c ∧ c ≤ 122 then some (c - 97 + 65)
    else if k.capsOn = true ∧ k.shiftDown = true ∧ 65 ≤ c ∧ c ≤ 90 then some (c - 65 + 97)
    else some c

/-- What the press of a key that is no modifier pushes (`keyboard.c:154-188`). -/
def keyEvent (k : Driver) (ext : Bool) (sc : UInt8) : Option KeyEvent :=
  if ext then
    match extendedKeycode sc with
    | .keyNone => none
    | code => some ⟨code, 0, k.ctrlDown, k.altDown⟩
  else
    match specialKeycode sc with
    | some code => some ⟨code, 0, k.ctrlDown, k.altDown⟩
    | none => (k.character sc).map fun ch => ⟨.keyChar, ch, k.ctrlDown, k.altDown⟩

/-- `keyboard_handler` from the modifiers on (`keyboard.c:128-189`). -/
def handleKey (k : Driver) (ext release : Bool) (sc : UInt8) : Driver :=
  if ext = false ∧ (sc = scLshift ∨ sc = scRshift) then { k with shiftDown := !release }
  else if sc = scLctrl then { k with ctrlDown := !release }
  else if sc = scLalt then { k with altDown := !release }
  else if ext = false ∧ sc = scCapslock then
    if release then k else { k with capsOn := !k.capsOn }
  else if release then k
  else
    match k.keyEvent ext sc with
    | none => k
    | some ev => { k with queue := k.queue.pushEvent ev }

/-- `keyboard_handler` (`keyboard.c:108-189`) -/
def keyboardHandler (k : Driver) (sc : UInt8) : Driver :=
  if sc = scExtended then { k with seenExtended := true }
  else if sc = scRelease then { k with seenRelease := true }
  else
    { k with seenExtended := false, seenRelease := false }.handleKey k.seenExtended k.seenRelease sc

end Driver

end ChocoOs.Keyboard

/-!
## Held modifiers

Keys are pressed and released in any order, and the handler is given the bytes of each action. A
modifier has two keys but one flag, which follows the last action on either of them.
-/

namespace ChocoOs.Keyboard
open ProgLib

/-! ## Keys -/

/-- A key of scan code set 2: its code, and whether `E0` stands before it. -/
structure ScKey where
  extended : Bool
  code : UInt8
  code_ne : code ≠ scExtended ∧ code ≠ scRelease
  deriving DecidableEq

theorem ScKey.ext_iff {k k' : ScKey} : k = k' ↔ k.extended = k'.extended ∧ k.code = k'.code := by
  cases k
  cases k'
  simp

def leftShift : ScKey := ⟨false, scLshift, by decide⟩

def rightShift : ScKey := ⟨false, scRshift, by decide⟩

def leftCtrl : ScKey := ⟨false, scLctrl, by decide⟩

def rightCtrl : ScKey := ⟨true, scLctrl, by decide⟩

def leftAlt : ScKey := ⟨false, scLalt, by decide⟩

def rightAlt : ScKey := ⟨true, scLalt, by decide⟩

def capsLock : ScKey := ⟨false, scCapslock, by decide⟩

inductive KeyAction where
  | press (k : ScKey)
  | release (k : ScKey)

/-- The bytes that the keyboard sends. -/
def KeyAction.bytes : KeyAction → List UInt8
  | .press k => (if k.extended then [scExtended] else []) ++ [k.code]
  | .release k => (if k.extended then [scExtended] else []) ++ [scRelease, k.code]

/-- The driver, the keys that are down, and how often caps lock was pressed. -/
structure Board where
  driver : Driver
  down : ScKey → Bool
  capsPresses : Nat

namespace Board

/-- At the start no key is down. -/
def boot (q : Queue) : Board := ⟨⟨q, false, false, false, false, false, false⟩, fun _ => false, 0⟩

def step (b : Board) (a : KeyAction) : Board where
  driver := a.bytes.foldl Driver.keyboardHandler b.driver
  down := fun k =>
    match a with
    | .press k' => if k = k' then true else b.down k
    | .release k' => if k = k' then false else b.down k
  capsPresses :=
    match a with
    | .press k => if k = capsLock then b.capsPresses + 1 else b.capsPresses
    | .release _ => b.capsPresses

/-- A flag says whether one of two keys is down. -/
def Tracks (flag : Bool) (down : ScKey → Bool) (l r : ScKey) : Prop :=
  flag = true ↔ down l = true ∨ down r = true

structure Correct (b : Board) : Prop where
  shift : Tracks b.driver.shiftDown b.down leftShift rightShift
  ctrl : Tracks b.driver.ctrlDown b.down leftCtrl rightCtrl
  alt : Tracks b.driver.altDown b.down leftAlt rightAlt
  caps : b.driver.capsOn = true ↔ b.capsPresses % 2 = 1
  seenExtended : b.driver.seenExtended = false
  seenRelease : b.driver.seenRelease = false

/-- Of two keys, the one that is released is not needed by the other. -/
def OtherUp (down : ScKey → Bool) (k l r : ScKey) : Prop :=
  (k = l → down r = false) ∧ (k = r → down l = false)

/-- No key of a modifier is released while the other key of that modifier is down. -/
def ReleasesLast (b : Board) : KeyAction → Prop
  | .press _ => True
  | .release k => OtherUp b.down k leftShift rightShift ∧ OtherUp b.down k leftCtrl rightCtrl ∧
      OtherUp b.down k leftAlt rightAlt

/-! ## One action -/

/-- What the handler makes of the last byte of an action. -/
theorem handleKey_eq (k : Driver) (ext release : Bool) (sc : UInt8) :
    ∃ q, k.handleKey ext release sc = { k with
      queue := q
      shiftDown := if ext = false ∧ (sc = scLshift ∨ sc = scRshift) then !release else k.shiftDown
      ctrlDown := if sc = scLctrl then !release else k.ctrlDown
      altDown := if sc = scLalt then !release else k.altDown
      capsOn := if ext = false ∧ sc = scCapslock ∧ release = false then !k.capsOn else k.capsOn } := by
  rw [Driver.handleKey]
  by_cases hshift : ext = false ∧ (sc = scLshift ∨ sc = scRshift)
  · rcases hshift with ⟨rfl, rfl | rfl⟩
    · exact ⟨k.queue, rfl⟩
    · exact ⟨k.queue, rfl⟩
  rw [if_neg hshift]
  by_cases hctrl : sc = scLctrl
  · subst hctrl
    refine ⟨k.queue, ?_⟩
    rw [if_neg hshift, if_pos rfl, if_pos rfl, if_neg (show scLctrl ≠ scLalt by decide),
      if_neg fun h => absurd h.2.1 (by decide)]
  rw [if_neg hctrl]
  by_cases halt : sc = scLalt
  · subst halt
    refine ⟨k.queue, ?_⟩
    rw [if_neg hshift, if_pos rfl, if_pos rfl, if_neg hctrl, if_neg fun h => absurd h.2.1 (by decide)]
  rw [if_neg halt]
  by_cases hcaps : ext = false ∧ sc = scCapslock
  · obtain ⟨rfl, rfl⟩ := hcaps
    refine ⟨k.queue, ?_⟩
    cases release with
    | false => rfl
    | true => rfl
  have hno : ¬ (ext = false ∧ sc = scCapslock ∧ release = false) := fun h => hcaps ⟨h.1, h.2.1⟩
  rw [if_neg hcaps, if_neg hshift, if_neg hctrl, if_neg halt, if_neg hno]
  cases release with
  | true => exact ⟨k.queue, rfl⟩
  | false =>
    rw [if_neg Bool.false_ne_true]
    cases k.keyEvent ext sc with
    | none => exact ⟨k.queue, rfl⟩
    | some ev => exact ⟨k.queue.pushEvent ev, rfl⟩

/-- The prefixes are consumed with the byte that follows them. -/
theorem driver_step {b : Board} (hext : b.driver.seenExtended = false)
    (hrel : b.driver.seenRelease = false) (a : KeyAction) : (b.step a).driver =
      match a with
      | .press k => b.driver.handleKey k.extended false k.code
      | .release k => b.driver.handleKey k.extended true k.code := by
  obtain ⟨⟨q, shift, ctrl, alt, caps, seenRelease, seenExtended⟩, down, presses⟩ := b
  subst hext hrel
  have hlast : ∀ (d : Driver) (k : ScKey), d.keyboardHandler k.code =
      { d with seenExtended := false, seenRelease := false }.handleKey d.seenExtended d.seenRelease
        k.code := by
    intro d k
    rw [Driver.keyboardHandler, if_neg k.code_ne.1, if_neg k.code_ne.2]
  cases a with
  | press k =>
    cases hk : k.extended with
    | false =>
      simp only [step, KeyAction.bytes, hk, Bool.false_eq_true, if_false, List.nil_append,
        List.foldl_cons, List.foldl_nil, hlast]
    | true =>
      simp only [step, KeyAction.bytes, hk, if_true, List.singleton_append, List.foldl_cons,
        List.foldl_nil, hlast]
      rfl
  | release k =>
    cases hk : k.extended with
    | false =>
      simp only [step, KeyAction.bytes, hk, Bool.false_eq_true, if_false, List.nil_append,
        List.foldl_cons, List.foldl_nil, hlast]
      rfl
    | true =>
      simp only [step, KeyAction.bytes, hk, if_true, List.singleton_append, List.foldl_cons,
        List.foldl_nil, hlast]
      rfl

/-! ## The keys of a modifier -/

theorem shift_iff (k : ScKey) : k = leftShift ∨ k = rightShift ↔
    k.extended = false ∧ (k.code = scLshift ∨ k.code = scRshift) := by
  simp only [ScKey.ext_iff, leftShift, rightShift]
  rw [and_or_left]

theorem ctrl_iff (k : ScKey) : k = leftCtrl ∨ k = rightCtrl ↔ k.code = scLctrl := by
  simp only [ScKey.ext_iff, leftCtrl, rightCtrl, ← or_and_right]
  cases k.extended with
  | false => simp
  | true => simp

theorem alt_iff (k : ScKey) : k = leftAlt ∨ k = rightAlt ↔ k.code = scLalt := by
  simp only [ScKey.ext_iff, leftAlt, rightAlt, ← or_and_right]
  cases k.extended with
  | false => simp
  | true => simp

theorem caps_iff (k : ScKey) : k = capsLock ↔ k.extended = false ∧ k.code = scCapslock := by
  simp only [ScKey.ext_iff, capsLock]

/-- What an action of a key leaves in the flags. -/
theorem handleKey_flags (d : Driver) (k : ScKey) (release : Bool) :
    (d.handleKey k.extended release k.code).shiftDown =
      (if k = leftShift ∨ k = rightShift then !release else d.shiftDown) ∧
    (d.handleKey k.extended release k.code).ctrlDown =
      (if k = leftCtrl ∨ k = rightCtrl then !release else d.ctrlDown) ∧
    (d.handleKey k.extended release k.code).altDown =
      (if k = leftAlt ∨ k = rightAlt then !release else d.altDown) ∧
    (d.handleKey k.extended release k.code).capsOn =
      (if k = capsLock ∧ release = false then !d.capsOn else d.capsOn) ∧
    (d.handleKey k.extended release k.code).seenExtended = d.seenExtended ∧
    (d.handleKey k.extended release k.code).seenRelease = d.seenRelease := by
  obtain ⟨q, hq⟩ := handleKey_eq d k.extended release k.code
  rw [hq]
  simp only [shift_iff, ctrl_iff, alt_iff, caps_iff, and_assoc]
  trivial

/-! ## Flags and keys -/

section tracks

variable {flag : Bool} {down : ScKey → Bool} {l r : ScKey}

theorem tracks_press (h : Tracks flag down l r) (k : ScKey) :
    Tracks (if k = l ∨ k = r then true else flag) (fun x => if x = k then true else down x) l r := by
  simp only [Tracks]
  by_cases hl : k = l
  · simp [hl]
  by_cases hr : k = r
  · simp [hr]
  · rw [if_neg (not_or.mpr ⟨hl, hr⟩), if_neg (Ne.symm hl), if_neg (Ne.symm hr)]
    exact h

/-- A release leaves the flag right if and only if the other key is up. -/
theorem tracks_release_iff (h : Tracks flag down l r) (hne : l ≠ r) (k : ScKey) :
    Tracks (if k = l ∨ k = r then false else flag) (fun x => if x = k then false else down x) l r ↔
      OtherUp down k l r := by
  simp only [Tracks, OtherUp]
  by_cases hl : k = l
  · subst hl
    simp [hne, hne.symm]
  by_cases hr : k = r
  · subst hr
    simp [hne, hne.symm]
  · rw [if_neg (not_or.mpr ⟨hl, hr⟩), if_neg (Ne.symm hl), if_neg (Ne.symm hr)]
    exact ⟨fun _ => ⟨fun h => absurd h hl, fun h => absurd h hr⟩, fun _ => h⟩

end tracks

theorem Correct.press {b : Board} (h : b.Correct) (k : ScKey) : (b.step (.press k)).Correct := by
  obtain ⟨hshift, hctrl, halt, hcaps, hext, hrel⟩ := handleKey_flags b.driver k false
  have hdriver := driver_step h.seenExtended h.seenRelease (.press k)
  refine ⟨?_, ?_, ?_, ?_, ?_, ?_⟩
  · rw [hdriver, hshift]
    exact tracks_press h.shift k
  · rw [hdriver, hctrl]
    exact tracks_press h.ctrl k
  · rw [hdriver, halt]
    exact tracks_press h.alt k
  · have hold := h.caps
    rw [hdriver, hcaps]
    show _ ↔ (if k = capsLock then b.capsPresses + 1 else b.capsPresses) % 2 = 1
    by_cases hk : k = capsLock
    · rw [if_pos ⟨hk, rfl⟩, if_pos hk, Bool.not_eq_true', ← Bool.not_eq_true, hold]
      omega
    · rw [if_neg fun h => hk h.1, if_neg hk]
      exact hold
  · rw [hdriver, hext, h.seenExtended]
  · rw [hdriver, hrel, h.seenRelease]

theorem Correct.release_iff {b : Board} (h : b.Correct) (k : ScKey) :
    (b.step (.release k)).Correct ↔ b.ReleasesLast (.release k) := by
  obtain ⟨hshift, hctrl, halt, hcaps, hext, hrel⟩ := handleKey_flags b.driver k true
  have hdriver := driver_step h.seenExtended h.seenRelease (.release k)
  have hs := tracks_release_iff h.shift (show leftShift ≠ rightShift by decide) k
  have hc := tracks_release_iff h.ctrl (show leftCtrl ≠ rightCtrl by decide) k
  have ha := tracks_release_iff h.alt (show leftAlt ≠ rightAlt by decide) k
  constructor
  · intro hnew
    refine ⟨hs.mp ?_, hc.mp ?_, ha.mp ?_⟩
    · have hflag := hnew.shift
      rw [hdriver, hshift] at hflag
      exact hflag
    · have hflag := hnew.ctrl
      rw [hdriver, hctrl] at hflag
      exact hflag
    · have hflag := hnew.alt
      rw [hdriver, halt] at hflag
      exact hflag
  · intro hup
    refine ⟨?_, ?_, ?_, ?_, ?_, ?_⟩
    · rw [hdriver, hshift]
      exact hs.mpr hup.1
    · rw [hdriver, hctrl]
      exact hc.mpr hup.2.1
    · rw [hdriver, halt]
      exact ha.mpr hup.2.2
    · rw [hdriver, hcaps, if_neg fun h => absurd h.2 (by decide)]
      exact h.caps
    · rw [hdriver, hext, h.seenExtended]
    · rw [hdriver, hrel, h.seenRelease]

theorem correct_boot (q : Queue) : (boot q).Correct where
  shift := by simp [Tracks, boot]
  ctrl := by simp [Tracks, boot]
  alt := by simp [Tracks, boot]
  caps := by simp [boot]
  seenExtended := rfl
  seenRelease := rfl

/-- The flags agree with the keys all along if and only if no key of a modifier is released while the
    other one is down. -/
theorem modifiers_tracked_iff (q : Queue) (as : List KeyAction) :
    Always step Correct (boot q) as ↔ Admitted step ReleasesLast (boot q) as := by
  refine always_iff_admitted (I := Correct) ?_ (fun _ h => h) ?_ (correct_boot q)
  · intro b a h hok
    cases a with
    | press k => exact h.press k
    | release k => exact (h.release_iff k).mpr hok
  · intro b a h hnot
    cases a with
    | press k => exact absurd trivial hnot
    | release k => exact mt (h.release_iff k).mp hnot

/-- Both shift keys are pressed and the left one is released. -/
theorem not_modifiers_tracked :
    ¬ ([.press leftShift, .press rightShift, .release leftShift].foldl step
      (boot ⟨fun _ => ⟨.keyNone, 0, false, false⟩, 0, 0⟩)).Correct := by
  intro h
  exact absurd (h.shift.mpr (.inr (by decide))) (by decide)

end Board

end ChocoOs.Keyboard
