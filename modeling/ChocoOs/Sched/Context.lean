import ChocoOs.Lib.Stack

/-!
# The saved context of a thread

A thread that does not run is a stack pointer: below it lie the general registers in the order
of `pushaq` and above them the frame of `iretq` (`macros.asm`, `isr.asm`). `buildFrame` is the
part of `thread_create` that writes such a context by hand.
-/

namespace ChocoOs.Sched
open ProgLib

/-- The general registers, without the stack pointer. -/
structure Regs where
  rax : Nat := 0
  rbx : Nat := 0
  rcx : Nat := 0
  rdx : Nat := 0
  rbp : Nat := 0
  rdi : Nat := 0
  rsi : Nat := 0
  r8 : Nat := 0
  r9 : Nat := 0
  r10 : Nat := 0
  r11 : Nat := 0
  r12 : Nat := 0
  r13 : Nat := 0
  r14 : Nat := 0
  r15 : Nat := 0
  deriving DecidableEq

/-- What `popaq` and `iretq` load. -/
structure Cpu where
  regs : Regs
  rip : Nat
  cs : Nat
  rflags : Nat
  rsp : Nat
  ss : Nat
  deriving DecidableEq

/-- The registers in the order in which `pushaq` pushes them (`macros.asm:1-17`). -/
def Regs.pushOrder (r : Regs) : List Nat :=
  [r.rax, r.rbx, r.rcx, r.rdx, r.rbp, r.rdi, r.rsi, r.r8, r.r9, r.r10, r.r11, r.r12, r.r13,
    r.r14, r.r15]

/-- `pushaq` (`macros.asm:1-17`). -/
def pushaq (m : Mem) (rsp : Nat) (r : Regs) : Mem × Nat := pushAll m rsp r.pushOrder

/-- `popaq` (`macros.asm:19-35`): the registers and the new stack pointer. -/
def popaq (m : Mem) (rsp : Nat) : Regs × Nat :=
  let (r15, rsp) := pop m rsp
  let (r14, rsp) := pop m rsp
  let (r13, rsp) := pop m rsp
  let (r12, rsp) := pop m rsp
  let (r11, rsp) := pop m rsp
  let (r10, rsp) := pop m rsp
  let (r9, rsp) := pop m rsp
  let (r8, rsp) := pop m rsp
  let (rsi, rsp) := pop m rsp
  let (rdi, rsp) := pop m rsp
  let (rbp, rsp) := pop m rsp
  let (rdx, rsp) := pop m rsp
  let (rcx, rsp) := pop m rsp
  let (rbx, rsp) := pop m rsp
  let (rax, rsp) := pop m rsp
  (⟨rax, rbx, rcx, rdx, rbp, rdi, rsi, r8, r9, r10, r11, r12, r13, r14, r15⟩, rsp)

/-- `iretq` in 64-bit mode: it pops the instruction pointer, the code segment, the flags, the
    stack pointer and the stack segment. -/
def iretq (m : Mem) (rsp : Nat) (regs : Regs) : Cpu :=
  let (rip, rsp) := pop m rsp
  let (cs, rsp) := pop m rsp
  let (rflags, rsp) := pop m rsp
  let (newRsp, rsp) := pop m rsp
  let (ss, _) := pop m rsp
  ⟨regs, rip, cs, rflags, newRsp, ss⟩

/-- The end of `isr_timer` and `isr_yield` (`isr.asm:17-19`, `isr.asm:28-30`), entered with the
    stack pointer that the handler returned. -/
def resume (m : Mem) (rsp : Nat) : Cpu :=
  let (regs, rsp) := popaq m rsp
  iretq m rsp regs

/-- `STACK_SIZE` (`sched.c:14`). -/
def stackSize : Nat := 64 * 1024

/-- `top` in `thread_create` (`sched.c:121`): the end of the stack, rounded down to 16. -/
def stackTop (stackBase : Nat) : Nat := add64 stackBase stackSize / 16 * 16

/-- The context that `thread_create` builds (`sched.c:121-142`), with `trampoline` the address
    of that function: the new memory and the stack pointer. -/
def buildFrame (m : Mem) (trampoline stackBase fn arg : Nat) : Mem × Nat :=
  let top := stackTop stackBase
  pushAll m top
    -- SS, RSP, RFLAGS, CS, RIP
    [0x30, sub64 top 8, 0x202, 0x28, trampoline,
    -- rax, rbx, rcx, rdx, rbp, rdi, rsi
      0, 0, 0, 0, 0, fn, arg,
    -- r8 to r15
      0, 0, 0, 0, 0, 0, 0, 0]

/-- The pops of a resumption, on a stack that holds a context. -/
theorem resume_of_stackAt {m : Mem} {rsp rip cs rflags newRsp ss : Nat} {r : Regs}
    (vs : List Nat)
    (h : StackAt m rsp (r.pushOrder.reverse ++ rip :: cs :: rflags :: newRsp :: ss :: vs)) :
    resume m rsp = ⟨r, rip, cs, rflags, newRsp, ss⟩ := by
  simp only [Regs.pushOrder, List.reverse_cons, List.reverse_nil, List.nil_append,
    List.cons_append, StackAt] at h
  simp only [resume, popaq, iretq, pop, h]

/-- A context that an interrupt pushed is resumed unchanged. -/
theorem resume_pushaq {m : Mem} {rsp rip cs rflags newRsp ss : Nat} {r : Regs}
    (hframe : StackAt m rsp [rip, cs, rflags, newRsp, ss]) (hrsp : rsp % 8 = 0)
    (hlt : rsp < addrSpace) (hr : ∀ v ∈ r.pushOrder, v < addrSpace) :
    resume (pushaq m rsp r).1 (pushaq m rsp r).2 = ⟨r, rip, cs, rflags, newRsp, ss⟩ :=
  resume_of_stackAt _ (hframe.pushAll _ hrsp hlt hr (by
    simp only [Regs.pushOrder, List.length_cons, List.length_nil, addrSpace_eq]
    omega))

/-- The first resumption of a new thread enters `trampoline(fn, arg)` with interrupts on, on the
    thread's own stack, aligned as after a call. -/
theorem resume_buildFrame {m : Mem} {trampoline stackBase fn arg : Nat}
    (ht : trampoline < addrSpace) (hf : fn < addrSpace) (ha : arg < addrSpace) :
    resume (buildFrame m trampoline stackBase fn arg).1 (buildFrame m trampoline stackBase fn arg).2
      = ⟨⟨0, 0, 0, 0, 0, fn, arg, 0, 0, 0, 0, 0, 0, 0, 0⟩, trampoline, 0x28, 0x202,
        sub64 (stackTop stackBase) 8, 0x30⟩ := by
  have hpos := addrSpace_eq
  have htop : stackTop stackBase < addrSpace := by
    have := add64_lt stackBase stackSize
    simp only [stackTop]
    omega
  have hmod : stackTop stackBase % 8 = 0 := by simp only [stackTop]; omega
  have hstack := (show StackAt m (stackTop stackBase) [] from trivial).pushAll
    [0x30, sub64 (stackTop stackBase) 8, 0x202, 0x28, trampoline,
      0, 0, 0, 0, 0, fn, arg, 0, 0, 0, 0, 0, 0, 0, 0] hmod htop (by
        have := sub64_lt (stackTop stackBase) 8
        simp only [List.mem_cons, List.not_mem_nil, or_false, forall_eq_or_imp, forall_eq]
        omega) (by simp only [List.length_cons, List.length_nil]; omega)
  exact resume_of_stackAt (r := ⟨0, 0, 0, 0, 0, fn, arg, 0, 0, 0, 0, 0, 0, 0, 0⟩) [] hstack

/-- Where that stack pointer lies. -/
theorem stackTop_spec (stackBase : Nat) :
    sub64 (sub64 (stackTop stackBase) 8) stackBase < stackSize ∧
      sub64 (stackTop stackBase) 8 % 16 = 8 := by
  simp only [stackTop, stackSize, sub64, add64, addrSpace_eq] at *
  omega

end ChocoOs.Sched
