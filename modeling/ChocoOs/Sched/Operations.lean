import ChocoOs.Sched.Context
import ChocoOs.Lib.Arena
import ChocoOs.Lib.Loop
import Mathlib.Logic.Function.Basic

/-!
# The scheduler

`sched.c`: kernel threads in a ring, switched by the timer interrupt and by a yield interrupt.
Thread records lie at addresses, stacks are bytes in memory, both come from the heap. `none` as
the result of a function means that a loop never ends, that an address is freed that is not a
live block, or that a record is written through a null pointer.
-/

namespace ChocoOs.Sched
open ProgLib

/-- The 512-byte image that `fxsave` writes and `fxrstor` reads. -/
abbrev Fx := BitVec 4096

/-- `ThreadState` (`sched.c:20-26`). -/
inductive ThreadState where
  | ready
  | running
  | sleeping
  | zombie
  deriving DecidableEq, Repr

/-- `Thread` (`sched.c:28-38`). A record of zero bytes is the default one. -/
structure Thread where
  fxsave : Fx := 0
  rsp : Nat := 0
  id : BitVec 32 := 0
  name : List UInt8 := []
  state : ThreadState := .ready
  wakeTick : Nat := 0
  stackBase : Nat := 0
  next : Nat := 0
  deriving DecidableEq

/-- `sizeof(Thread)`. -/
def threadSize : Nat := 576

/-- `QUANTUM_TICKS` (`sched.c:15`). -/
def quantumTicks : Nat := 5

/-- The static variables (`sched.c:40-44`), the thread records by address, the stacks, the heap,
    the tick counter of `timer.c`, the FPU, and the address of the function `trampoline`. -/
structure Scheduler where
  thread : Nat → Thread
  mem : Mem
  heap : Arena
  current : Nat
  ring : Nat
  active : Bool
  nextId : BitVec 32
  sliceStart : Nat
  ticks : Nat
  fpu : Fx
  trampoline : Nat

/-- Write the record at `a`. -/
def Scheduler.setThread (s : Scheduler) (a : Nat) (t : Thread) : Scheduler :=
  { s with thread := Function.update s.thread a t }

/-- `t->state = v`. -/
def Scheduler.setState (s : Scheduler) (t : Nat) (v : ThreadState) : Scheduler :=
  s.setThread t { s.thread t with state := v }

/-- `free`. -/
def Scheduler.free (p : Nat) (s : Scheduler) : Option Scheduler :=
  (s.heap.free p).map fun heap => { s with heap := heap }

/-- `fxarea_init` (`sched.c:59-64`): the x87 control word at offset 0, MXCSR at offset 24. -/
def fxareaInit : Fx := 0x037F#4096 ||| (0x1F80#4096 <<< (24 * 8))

/-- `sched_init` (`sched.c:66-71`). -/
def schedInit (s : Scheduler) : Scheduler := { s with ring := 0, current := 0, active := false }

/-! ## Creating threads -/

/-- `ring_insert` (`sched.c:78-92`). -/
def ringInsert (s : Scheduler) (t : Nat) : Scheduler :=
  if s.ring = 0 then ({ s with ring := t }).setThread t { s.thread t with next := t }
  else
    let s := s.setThread t { s.thread t with next := (s.thread s.ring).next }
    s.setThread s.ring { s.thread s.ring with next := t }

/-- The record and the first context of a new thread (`sched.c:112-142`), whose blocks are at
    `t` and `stack`. -/
def initThread (s : Scheduler) (t stack : Nat) (name : List UInt8) (fn arg : Nat) : Scheduler :=
  let frame := buildFrame s.mem s.trampoline stack fn arg
  { s with mem := frame.1, nextId := s.nextId + 1 }.setThread t
    { fxsave := fxareaInit, rsp := frame.2, id := s.nextId + 1, name := name.take 23,
      state := .ready, stackBase := stack }

/-- `thread_create` (`sched.c:100-146`) up to its return: the address of the new record, or null
    if there is no memory for it or for the stack. -/
def createThread (pick : Pick) (s : Scheduler) (name : List UInt8) (fn arg : Nat) :
    Option (Scheduler × Nat) :=
  let (t, heap) := s.heap.alloc pick threadSize
  if t = 0 then some ({ s with heap := heap }, 0)
  else
    let (stack, heap) := heap.alloc pick stackSize
    let s := { s with heap := heap }
    if stack = 0 then (s.free t).map fun s => (s, 0)
    else some (ringInsert (initThread s t stack name fn arg) t, t)

/-- `thread_create` (`sched.c:100-146`): the result is the thread's number or -1. -/
def threadCreate (pick : Pick) (s : Scheduler) (name : List UInt8) (fn arg : Nat) :
    Option (Scheduler × Int) :=
  (createThread pick s name fn arg).map fun r =>
    (r.1, if r.2 = 0 then -1 else (r.1.thread r.2).id.toInt)

/-- `"idle"`. -/
def idleName : List UInt8 := [105, 100, 108, 101]

/-- `sched_start` (`sched.c:148-166`) up to its idle loop: the caller becomes the idle thread. -/
def schedStart (pick : Pick) (s : Scheduler) : Option Scheduler :=
  let (idle, heap) := s.heap.alloc pick threadSize
  if idle = 0 then none
  else
    let s := { s with heap := heap }.setThread idle
      { fxsave := fxareaInit, name := idleName, state := .running }
    let s := ringInsert s idle
    some { s with current := idle, sliceStart := s.ticks, active := true }

/-! ## Switching threads -/

/-- What waking does to a thread (`sched.c:201-202`). -/
def wake (now : Nat) (t : Thread) : Thread :=
  if t.state = .sleeping ∧ t.wakeTick ≤ now then { t with state := .ready } else t

/-- One round of the wake-up loop of `sched_preempt`. -/
def wakeRound : Scheduler × Nat → Option (LoopStep (Scheduler × Nat) Scheduler)
  | (s, t) =>
    let s := s.setThread t (wake s.ticks (s.thread t))
    let t := (s.thread t).next
    some (if t = s.current then .done s else .next (s, t))

/-- The wake-up loop of `sched_preempt` (`sched.c:197-205`). -/
def wakeSleepers (s : Scheduler) : Option Scheduler := loop wakeRound addrSpace (s, s.current)

/-- The body of the loop of `reap_zombies` (`sched.c:175-185`). -/
def reapOne (s : Scheduler) (p : Nat) : Option (Scheduler × Nat) :=
  let n := (s.thread p).next
  if (s.thread n).state = .zombie ∧ n ≠ s.current ∧ n ≠ s.ring then
    let s := s.setThread p { s.thread p with next := (s.thread n).next }
    ((s.free (s.thread n).stackBase).bind (Scheduler.free n)).map fun s => (s, p)
  else some (s, n)

def reapRound : Scheduler × Nat → Option (LoopStep (Scheduler × Nat) Scheduler)
  | (s, p) => (reapOne s p).map fun r => if r.2 = s.ring then .done r.1 else .next r

/-- `reap_zombies` (`sched.c:168-187`). -/
def reapZombies (s : Scheduler) : Option Scheduler :=
  if s.ring = 0 then some s else loop reapRound addrSpace (s, s.ring)

/-- `t->state == T_READY || t->state == T_RUNNING`. -/
def Thread.runnable (t : Thread) : Bool := t.state == .ready || t.state == .running

/-- One round of the loops that look for a thread from `current->next` on. -/
def findRound (s : Scheduler) (want : Thread → Bool) (t : Nat) : Option (LoopStep Nat Nat) :=
  some (if want (s.thread t) then .done t
    else if t = s.current then .done 0
    else .next (s.thread t).next)

/-- The two loops that look for the next thread: the first one that is wanted, behind `current`
    and with `current` the last one tried, or null. -/
def findThread (s : Scheduler) (want : Thread → Bool) : Option Nat :=
  loop (findRound s want) addrSpace (s.thread s.current).next

/-- The next thread to run (`sched.c:211-237`): a thread other than idle, else any thread. -/
def pickNext (s : Scheduler) : Option Nat := do
  let t ← findThread s fun t => t.runnable && t.id != 0
  if t ≠ 0 then return t
  findThread s Thread.runnable

/-- The context switch of `sched_preempt` (`sched.c:245-254`). -/
def switchTo (s : Scheduler) (next rsp : Nat) : Scheduler × Nat :=
  let c := s.thread s.current
  let s := s.setThread s.current
    { c with
      rsp := rsp
      state := if c.state = .running then .ready else c.state
      fxsave := s.fpu }
  let s := { s with current := next }.setState next .running
  let n := s.thread next
  ({ s with fpu := n.fxsave, sliceStart := s.ticks }, n.rsp)

/-- `sched_preempt` (`sched.c:190-255`): the new state and the stack pointer to resume with. -/
def schedPreempt (s : Scheduler) (rsp : Nat) : Option (Scheduler × Nat) :=
  if s.active = false ∨ s.current = 0 then some (s, rsp)
  else do
    let s ← wakeSleepers s
    let s ← reapZombies s
    let next ← pickNext s
    return if next = 0 ∨ next = s.current then (s, rsp) else switchTo s next rsp

/-- `sched_tick` (`sched.c:258-266`). -/
def schedTick (s : Scheduler) (rsp : Nat) : Option (Scheduler × Nat) :=
  if s.active = false then some (s, rsp)
  else if sub64 s.ticks s.sliceStart < quantumTicks ∧ s.current ≠ 0 ∧
      (s.thread s.current).state = .running then some (s, rsp)
  else schedPreempt s rsp

/-- `thread_exit` (`sched.c:275-283`) up to the return of its yield interrupt. -/
def threadExit (s : Scheduler) (rsp : Nat) : Option (Scheduler × Nat) :=
  schedPreempt (s.setState s.current .zombie) rsp

/-- `thread_sleep_ms` (`sched.c:285-297`) while the scheduler is active, up to the return of its
    yield interrupt. -/
def threadSleepMs (s : Scheduler) (ms rsp : Nat) : Option (Scheduler × Nat) :=
  let s := s.setThread s.current
    { s.thread s.current with state := .sleeping, wakeTick := add64 s.ticks ms }
  schedPreempt s rsp

end ChocoOs.Sched
