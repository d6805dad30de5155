import ChocoOs.Lib.Transition
import ChocoOs.Sched.Preempt

/-!
# Runs of the scheduler

`sched_init`, some threads, `sched_start`, and then interrupts and calls of the running threads in
any order. Between two events the tick counter and the FPU change arbitrarily. Beside the
scheduler a run records who called `thread_exit` and which contexts were built or saved.
-/

/-!
## New threads

`thread_create` and `sched_start` get memory from the heap and link a record into the ring.
-/

namespace ChocoOs.Sched
open ProgLib

/-- `thread_create` returns. If it gets no memory, the heap has lost nothing and the rest is
    unchanged; else the new thread is ready and in the ring, with the context that was built. -/
theorem createThread_spec {s : Scheduler} {l : List Nat} (pick : Pick) (name : List UInt8)
    (fn arg : Nat) (hr : RingOrEmpty s l) (ho : Owns s l) :
    ∃ s' t, createThread pick s name fn arg = some (s', t) ∧
      ((t = 0 ∧ Owns s' l ∧ (∃ heap, s' = { s with heap := heap }) ∧
          ∀ b ∈ s.heap.live, b ∈ s'.heap.live) ∨
        ((∃ l', Joined s l t s' l') ∧ (s'.thread t).state = .ready ∧
          (s'.thread t).stackBase ≠ 0)) := by
  rcases Arena.alloc_cases pick threadSize s.heap with hfail | ⟨t, ht, halloc⟩
  · refine ⟨s, 0, by simp [createThread, hfail], .inl ⟨rfl, ho, ⟨s.heap, rfl⟩, fun b hb => hb⟩⟩
  set heap₁ : Arena := { s.heap with live := (t, threadSize) :: s.heap.live } with hheap₁
  have hok₁ : heap₁.Ok := ho.heap_ok.alloc (by decide) ht
  have hfresh : t ∉ l := fun hm => ho.heap_ok.fresh (by decide) ht
    (List.mem_map.mpr ⟨_, ho.mem_live hm, rfl⟩)
  rcases Arena.alloc_cases pick stackSize heap₁ with hfail | ⟨stack, hstack, halloc'⟩
  · -- no memory for the stack: the record is given back
    obtain ⟨heap₂, hfree, hperm, hok₂, -, hhi, -⟩ := hok₁.free (List.Perm.refl _)
    refine ⟨{ s with heap := heap₂ }, 0, ?_, .inl ⟨rfl, ⟨hok₂, hhi ▸ ho.hi_le,
      hperm.trans ho.live⟩, ⟨heap₂, rfl⟩, fun b hb => hperm.mem_iff.mpr hb⟩⟩
    simp [createThread, halloc, ht.1, hfail, Scheduler.free, hfree]
  · set s₁ := initThread { s with heap := { heap₁ with live := (stack, stackSize) :: heap₁.live } }
      t stack name fn arg with hs₁
    obtain ⟨T, hthread, hbase, hstate⟩ : ∃ T, s₁.thread = Function.update s.thread t T ∧
        T.stackBase = stack ∧ T.state = .ready := ⟨_, rfl, rfl, rfl⟩
    have hblocks : blocksOf s₁.thread t = [(t, threadSize), (stack, stackSize)] := by
      rw [blocksOf, hthread, Function.update_self, hbase, if_neg hstack.1]
    obtain ⟨hjoin, v, hv⟩ := join_spec hr ho hfresh ht.1 hthread rfl rfl rfl rfl
      (hok₁.alloc (by decide) hstack) rfl (by rw [hblocks]; exact List.Perm.swap _ _ _)
    refine ⟨ringInsert s₁ t, t, ?_, .inr ⟨hjoin, by rw [hv]; exact hstate, by
      rw [hv]; exact hbase ▸ hstack.1⟩⟩
    simp [createThread, halloc, ht.1, halloc', hstack.1, ← hs₁]

/-- `sched_start`, if there is memory for it, makes a running idle thread out of its caller. -/
theorem schedStart_spec {pick : Pick} {s s' : Scheduler} {l : List Nat} (hr : RingOrEmpty s l)
    (ho : Owns s l) (hz : ∀ t ∈ l, (s.thread t).state ≠ .zombie)
    (h : schedStart pick s = some s') :
    ∃ l', Inv s' l' s'.current [] ∧ l'.Perm (s'.current :: l) ∧
      (s'.thread s'.current).stackBase = 0 ∧ (s'.thread s'.current).id = 0 ∧
      ∀ x ∈ l, ∃ v, s'.thread x = { s.thread x with next := v } := by
  rcases Arena.alloc_cases pick threadSize s.heap with hfail | ⟨t, ht, halloc⟩
  · simp [schedStart, hfail] at h
  have hfresh : t ∉ l := fun hm => ho.heap_ok.fresh (by decide) ht
    (List.mem_map.mpr ⟨_, ho.mem_live hm, rfl⟩)
  set s₁ := { s with heap := { s.heap with live := (t, threadSize) :: s.heap.live } }.setThread t
    { fxsave := fxareaInit, name := idleName, state := .running } with hs₁
  have hthread : s₁.thread = Function.update s.thread t _ := rfl
  have hblocks : blocksOf s₁.thread t = [(t, threadSize)] := by
    rw [blocksOf, hthread, Function.update_self, if_pos rfl]
  obtain ⟨⟨l', hj⟩, v, hv⟩ := join_spec hr ho hfresh ht.1 hthread rfl rfl rfl rfl
    (ho.heap_ok.alloc (by decide) ht) rfl (by rw [hblocks]; exact .refl _)
  have hs' : s' = { ringInsert s₁ t with
      current := t, sliceStart := (ringInsert s₁ t).ticks, active := true } := by
    rw [schedStart, halloc] at h
    simp only [if_neg ht.1] at h
    exact (Option.some.inj h).symm
  have hmem : t ∈ l' := hj.perm.mem_iff.mpr (by simp)
  have hrun : ((ringInsert s₁ t).thread t).runnable = true := by rw [hv]; rfl
  subst hs'
  refine ⟨l', ⟨⟨hj.ring, ⟨hj.owns.heap_ok, hj.owns.hi_le, hj.owns.live⟩, rfl, hmem, hmem, hrun,
    fun x hx hxz => ?_⟩, hrun⟩, hj.perm, ?_, ?_, hj.old⟩
  · rcases List.mem_cons.mp (hj.perm.mem_iff.mp hx) with rfl | hx
    · simp only [hv] at hxz; cases hxz
    · obtain ⟨w, hw⟩ := hj.old x hx
      simp only [hw] at hxz
      exact absurd hxz (hz x hx)
  · simp only [hv]
  · simp only [hv]

end ChocoOs.Sched

namespace ChocoOs.Sched
open ProgLib

/-- What is saved of a thread that does not run. -/
structure Context where
  rsp : Nat
  fx : Fx
  deriving DecidableEq

/-- The scheduler, the idle thread, the threads that have called `thread_exit`, and the contexts
    that were built or saved, the latest first. -/
structure Run where
  s : Scheduler
  idle : Nat
  exited : List Nat
  saved : List (Nat × Context)

/-- What happens to a running scheduler; `rsp` is the interrupted stack pointer. -/
inductive Event where
  | create (name : List UInt8) (fn arg : Nat)
  | tick (rsp : Nat)
  | yield (rsp : Nat)
  | exit (rsp : Nat)
  | sleep (ms rsp : Nat)

/-- The argument of the interrupt handler. -/
def Event.rsp : Event → Nat
  | .create _ _ _ => 0
  | .tick rsp | .yield rsp | .exit rsp | .sleep _ rsp => rsp

/-- The idle thread neither exits nor sleeps. -/
def Event.Ok (r : Run) : Event → Prop
  | .exit _ | .sleep _ _ => r.s.current ≠ r.idle
  | _ => True

/-- The run after `thread_create`, which made the thread `t` or, for null, none. -/
def Run.created (r : Run) (c : Scheduler × Nat) : Run :=
  if c.2 = 0 then { r with s := c.1 }
  else { r with
    s := c.1
    exited := r.exited.filter (· ≠ c.2)
    saved := (c.2, ⟨(c.1.thread c.2).rsp, (c.1.thread c.2).fxsave⟩) :: r.saved }

/-- The run after an interrupt handler that was entered with this context of the current
    thread. -/
def Run.resumed (r : Run) (entered : Context) (c : Scheduler × Nat) : Run × Nat :=
  ({ r with
    s := c.1
    saved := if c.1.current = r.s.current then r.saved
      else (r.s.current, entered) :: r.saved }, c.2)

/-- One event, when the tick counter stands at `now` and the FPU holds `fpu`: the new run and
    the stack pointer that the handler returns. -/
def exec (pick : Pick) (now : Nat) (fpu : Fx) (r : Run) (e : Event) : Option (Run × Nat) :=
  let s := { r.s with ticks := now, fpu := fpu }
  match e with
  | .create name fn arg => (createThread pick s name fn arg).map fun c => (r.created c, 0)
  | .tick rsp => (schedTick s rsp).map (r.resumed ⟨rsp, fpu⟩)
  | .yield rsp => (schedPreempt s rsp).map (r.resumed ⟨rsp, fpu⟩)
  | .exit rsp => (threadExit s rsp).map
      ({ r with exited := r.s.current :: r.exited }.resumed ⟨rsp, fpu⟩)
  | .sleep ms rsp => (threadSleepMs s ms rsp).map (r.resumed ⟨rsp, fpu⟩)

/-- `sched_init` and some calls of `thread_create`. -/
inductive Booted : Run → Prop
  | init {s : Scheduler} : s.heap.live = [] → s.heap.freed = [] → s.heap.hi ≤ addrSpace →
      Booted ⟨schedInit s, 0, [], []⟩
  | create {r : Run} {c : Scheduler × Nat} (pick : Pick) (name : List UInt8) (fn arg : Nat) :
      Booted r → createThread pick r.s name fn arg = some c → Booted (r.created c)

/-- A run right after `sched_start`. -/
def Start (r : Run) : Prop := ∃ (b : Run) (pick : Pick) (now : Nat) (fpu : Fx) (s : Scheduler),
  Booted b ∧ schedStart pick { b.s with ticks := now, fpu := fpu } = some s ∧
  r = { b with s := s, idle := s.current }

def Step (r r' : Run) : Prop := ∃ (pick : Pick) (now : Nat) (fpu : Fx) (e : Event) (ret : Nat),
  e.Ok r ∧ exec pick now fpu r e = some (r', ret)

abbrev Reachable : Run → Prop := Reach Start Step

/-! ## The invariant -/

/-- The context in the record of `t`. -/
def Scheduler.context (s : Scheduler) (t : Nat) : Context := ⟨(s.thread t).rsp, (s.thread t).fxsave⟩

structure BootInv (b : Run) (l : List Nat) : Prop where
  ring : RingOrEmpty b.s l
  owns : Owns b.s l
  ready : ∀ t ∈ l, (b.s.thread t).state = .ready
  hasStack : ∀ t ∈ l, (b.s.thread t).stackBase ≠ 0
  saved : ∀ t ∈ l, b.saved.lookup t = some (b.s.context t)
  exited : b.exited = []

structure RunInv (r : Run) (l : List Nat) : Prop where
  inv : Inv r.s l r.idle r.exited
  hasStack : ∀ t ∈ l, t ≠ r.idle → (r.s.thread t).stackBase ≠ 0
  saved : ∀ t ∈ l, t ≠ r.s.current → r.saved.lookup t = some (r.s.context t)

theorem lookup_cons_ne {t u : Nat} {c : Context} {log : List (Nat × Context)} (h : t ≠ u) :
    ((u, c) :: log).lookup t = log.lookup t := by
  rw [List.lookup_cons, beq_false_of_ne h]

theorem Joined.context_eq {s s' : Scheduler} {l l' : List Nat} {t x : Nat}
    (h : Joined s l t s' l') (hx : x ∈ l) : s'.context x = s.context x := by
  obtain ⟨v, hv⟩ := h.old x hx
  simp [Scheduler.context, hv]

/-- A new thread has its first context on record. -/
theorem Joined.saved {s s' : Scheduler} {l l' : List Nat} {t : Nat} (h : Joined s l t s' l')
    {P : Nat → Prop} (log : List (Nat × Context))
    (hlog : ∀ x ∈ l, P x → log.lookup x = some (s.context x)) :
    ∀ x ∈ l', P x → ((t, s'.context t) :: log).lookup x = some (s'.context x) := by
  intro x hx hp
  by_cases hxt : x = t
  · subst hxt; rw [List.lookup_cons_self]
  · have hxl : x ∈ l := by
      rcases List.mem_cons.mp (h.perm.mem_iff.mp hx) with he | hm
      · exact absurd he hxt
      · exact hm
    rw [lookup_cons_ne hxt, h.context_eq hxl]
    exact hlog x hxl hp

theorem Joined.hasStack {s s' : Scheduler} {l l' : List Nat} {t : Nat} (h : Joined s l t s' l')
    (ht : (s'.thread t).stackBase ≠ 0) {P : Nat → Prop}
    (hl : ∀ x ∈ l, P x → (s.thread x).stackBase ≠ 0) :
    ∀ x ∈ l', P x → (s'.thread x).stackBase ≠ 0 := by
  intro x hx hp
  rcases List.mem_cons.mp (h.perm.mem_iff.mp hx) with rfl | hm
  · exact ht
  · obtain ⟨v, hv⟩ := h.old x hm
    rw [hv]
    exact hl x hm hp

theorem booted_inv {b : Run} (h : Booted b) : ∃ l, BootInv b l := by
  induction h with
  | @init s hlive hfreed hhi =>
    refine ⟨[], .inl ⟨rfl, rfl⟩, ⟨⟨?_, ?_, ?_⟩, hhi, ?_⟩, by simp, by simp, by simp, rfl⟩
    · simp [schedInit, hlive]
    · simp [schedInit, hlive]
    · simp [schedInit, hfreed]
    · simp [schedInit, hlive]
  | @create r c pick name fn arg _ hc ih =>
    obtain ⟨l, hb⟩ := ih
    obtain ⟨s', t, heq, hcase⟩ :=
      createThread_spec pick name fn arg hb.ring hb.owns
    rw [hc] at heq
    cases heq
    rcases hcase with ⟨rfl, ho, ⟨heap, rfl⟩, -⟩ | ⟨⟨l', hj⟩, hready, hstack⟩
    · refine ⟨l, ?_⟩
      rw [Run.created, if_pos rfl]
      exact ⟨hb.ring, ho, hb.ready, hb.hasStack, hb.saved, hb.exited⟩
    · refine ⟨l', ?_⟩
      rw [Run.created, if_neg hj.ne_zero]
      refine ⟨.inr hj.ring, hj.owns, fun x hx => ?_, fun x hx => ?_, fun x hx => ?_, ?_⟩
      · rcases List.mem_cons.mp (hj.perm.mem_iff.mp hx) with rfl | hm
        · exact hready
        · obtain ⟨v, hv⟩ := hj.old x hm
          rw [show (_ : Run).s.thread x = _ from hv]
          exact hb.ready x hm
      · exact hj.hasStack hstack (P := fun _ => True) (fun x hx _ => hb.hasStack x hx) x hx trivial
      · exact hj.saved (P := fun _ => True) _ (fun x hx _ => hb.saved x hx) x hx trivial
      · simp [hb.exited]

theorem start_inv {r : Run} (h : Start r) : ∃ l, RunInv r l := by
  obtain ⟨b, pick, now, fpu, s, hb, hstart, rfl⟩ := h
  obtain ⟨l, hb⟩ := booted_inv hb
  obtain ⟨l', hinv, hperm, -, -, hold⟩ := schedStart_spec (s := { b.s with ticks := now, fpu := fpu })
    hb.ring ⟨hb.owns.heap_ok, hb.owns.hi_le, hb.owns.live⟩
    (fun t ht => by rw [show (_ : Scheduler).thread t = _ from rfl, hb.ready t ht]; simp) hstart
  refine ⟨l', hb.exited ▸ hinv, fun t ht hne => ?_, fun t ht hne => ?_⟩
  · rcases List.mem_cons.mp (hperm.mem_iff.mp ht) with he | hm
    · exact absurd he hne
    · obtain ⟨v, hv⟩ := hold t hm
      rw [hv]
      exact hb.hasStack t hm
  · rcases List.mem_cons.mp (hperm.mem_iff.mp ht) with he | hm
    · exact absurd he hne
    · obtain ⟨v, hv⟩ := hold t hm
      simp only [Scheduler.context, hv]
      exact hb.saved t hm

/-- What an event does to the ring, the memory and the contexts. -/
structure Outcome (r : Run) (l : List Nat) (e : Event) (fpu : Fx) (r' : Run) (l' : List Nat)
    (ret : Nat) : Prop where
  gone : ∀ t ∈ l, t ∉ l' → t ∈ r.exited ∧ t ≠ r.s.current
  freed : ∀ b ∈ r.s.heap.live, b ∉ r'.s.heap.live →
    ∃ t ∈ l, t ∉ l' ∧ b ∈ blocksOf r.s.thread t
  stay : r'.s.current = r.s.current → ret = e.rsp ∧ r'.s.fpu = fpu
  switch : r'.s.current ≠ r.s.current →
    r.saved.lookup r'.s.current = some ⟨ret, r'.s.fpu⟩

/-- From what the handler does to what the run does. -/
theorem resumed_spec {r : Run} {l l' : List Nat} {e : Event} {rsp now ret : Nat} {fpu : Fx}
    {s' : Scheduler} {exited : List Nat} (h : RunInv r l) (hrsp : e.rsp = rsp)
    (hinv : Inv s' l' r.idle exited)
    (hp : Preempted { r.s with ticks := now, fpu := fpu } l rsp s' l' ret) :
    RunInv ({ r with exited := exited }.resumed ⟨rsp, fpu⟩ (s', ret)).1 l' ∧
      Outcome r l e fpu ({ r with exited := exited }.resumed ⟨rsp, fpu⟩ (s', ret)).1 l' ret := by
  refine ⟨⟨hinv, fun t ht hne => ?_, fun t ht hne => ?_⟩, ⟨fun t ht hn => ?_, hp.freed,
    fun heq => hrsp ▸ hp.stay heq, fun hne => ?_⟩⟩
  · rw [show (Run.resumed _ _ (s', ret)).1.s.thread t = s'.thread t from rfl, hp.hasStack t ht]
    exact h.hasStack t (hp.subset ht) hne
  · have hne' : t ≠ s'.current := hne
    simp only [Run.resumed]
    by_cases hcur : s'.current = r.s.current
    · rw [if_pos hcur]
      obtain ⟨h1, h2⟩ := hp.others t ht (hcur ▸ hne')
      rw [show s'.context t = r.s.context t by simp [Scheduler.context, h1, h2]]
      exact h.saved t (hp.subset ht) (hcur ▸ hne')
    · rw [if_neg hcur]
      by_cases htc : t = r.s.current
      · subst htc
        obtain ⟨-, -, h3, h4⟩ := hp.switch hcur
        rw [List.lookup_cons_self]
        simp only [Scheduler.context]
        exact congrArg some (by rw [h3, h4])
      · rw [lookup_cons_ne htc]
        obtain ⟨h1, h2⟩ := hp.others t ht htc
        rw [show s'.context t = r.s.context t by simp [Scheduler.context, h1, h2]]
        exact h.saved t (hp.subset ht) htc
  · obtain ⟨hz, htc⟩ := hp.gone t ht hn
    exact ⟨h.inv.zombies t ht hz, htc⟩
  · obtain ⟨h1, h2, -, -⟩ := hp.switch hne
    have hmem : s'.current ∈ l := hp.subset hinv.current_mem
    refine (h.saved _ hmem hne).trans (congrArg some ?_)
    simp only [Scheduler.context]
    exact congrArg₂ Context.mk h1.symm h2.symm

/-- The tick counter and the FPU are not the scheduler's. -/
theorem Inv.clocked {s : Scheduler} {l : List Nat} {idle : Nat} {exited : List Nat}
    (h : Inv s l idle exited) (now : Nat) (fpu : Fx) :
    Inv { s with ticks := now, fpu := fpu } l idle exited :=
  ⟨⟨h.ring, ⟨h.owns.heap_ok, h.owns.hi_le, h.owns.live⟩, h.active, h.current_mem, h.idle_mem,
    h.idle_runnable, h.zombies⟩, h.current_runnable⟩

/-- Every event returns and keeps the invariant. -/
theorem exec_spec (pick : Pick) (now : Nat) (fpu : Fx) {r : Run} {l : List Nat} {e : Event}
    (h : RunInv r l) (he : e.Ok r) : ∃ r' ret l', exec pick now fpu r e = some (r', ret) ∧
      RunInv r' l' ∧ Outcome r l e fpu r' l' ret := by
  have hs : Inv { r.s with ticks := now, fpu := fpu } l r.idle r.exited := h.inv.clocked now fpu
  cases e with
  | create name fn arg =>
    obtain ⟨s', t, heq, hcase⟩ := createThread_spec pick name fn arg (.inr hs.ring) hs.owns
    refine ⟨r.created (s', t), 0, ?_⟩
    rcases hcase with ⟨rfl, ho, ⟨heap, rfl⟩, hlive⟩ | ⟨⟨l', hj⟩, hready, hstack⟩
    · refine ⟨l, by simp only [exec, heq, Option.map_some], ?_⟩
      rw [Run.created, if_pos rfl]
      exact ⟨⟨⟨⟨hs.ring, ho, hs.active, hs.current_mem, hs.idle_mem, hs.idle_runnable, hs.zombies⟩,
        hs.current_runnable⟩, h.hasStack, h.saved⟩, fun t ht hn => absurd ht hn,
        fun b hb hn => absurd (hlive b hb) hn, fun _ => ⟨rfl, rfl⟩, fun hne => absurd rfl hne⟩
    · refine ⟨l', by simp only [exec, heq, Option.map_some], ?_⟩
      rw [Run.created, if_neg hj.ne_zero]
      have hcur : s'.current = r.s.current := hj.current
      have hold : ∀ x ∈ l, x ∈ l' := fun x hx => hj.perm.mem_iff.mpr (by simp [hx])
      have hstate : ∀ x ∈ l, (s'.thread x).state = (r.s.thread x).state := by
        intro x hx
        obtain ⟨v, hv⟩ := hj.old x hx
        rw [hv]
      refine ⟨⟨⟨⟨hj.ring, hj.owns, hj.active.trans hs.active, hcur ▸ hold _ hs.current_mem,
        hold _ hs.idle_mem, ?_, fun x hx hz => ?_⟩, ?_⟩, ?_, ?_⟩,
        fun t ht hn => absurd (hold t ht) hn, fun b hb hn => absurd (hj.live b hb) hn,
        fun _ => ⟨rfl, hj.fpu⟩, fun hne => absurd hcur hne⟩
      · have := hs.idle_runnable
        rw [runnable_iff] at this ⊢
        rwa [hstate _ hs.idle_mem]
      · rcases List.mem_cons.mp (hj.perm.mem_iff.mp hx) with rfl | hm
        · simp only [hready] at hz; cases hz
        · rw [show (_ : Run).s.thread x = s'.thread x from rfl, hstate x hm] at hz
          have hxt : x ≠ t := fun he => hj.fresh (he ▸ hm)
          exact List.mem_filter.mpr ⟨hs.zombies x hm hz, by simpa using hxt⟩
      · have := hs.current_runnable
        rw [runnable_iff] at this ⊢
        rw [hcur]
        rwa [hstate _ hs.current_mem]
      · exact hj.hasStack hstack (P := fun x => x ≠ r.idle) h.hasStack
      · have := hj.saved (P := fun x => x ≠ s'.current) r.saved
          (fun x hx hne => h.saved x hx (hcur ▸ hne))
        exact this
  | tick rsp =>
    obtain ⟨s', ret, l', heq, hinv, hp⟩ := schedTick_spec hs rsp
    exact ⟨_, ret, l', by simp only [exec, heq, Option.map_some]; rfl,
      resumed_spec h rfl hinv hp⟩
  | yield rsp =>
    obtain ⟨s', ret, l', heq, hinv, hp⟩ := schedPreempt_spec hs.toCore rsp
    exact ⟨_, ret, l', by simp only [exec, heq, Option.map_some]; rfl,
      resumed_spec h rfl hinv hp⟩
  | exit rsp =>
    obtain ⟨s', ret, l', heq, hinv, hp⟩ := preempt_stopped (v := .zombie)
      (w := (r.s.thread r.s.current).wakeTick) hs he (List.subset_cons_self r.s.current _)
      (fun _ => List.mem_cons_self ..) rsp
    refine ⟨_, ret, l', ?_, resumed_spec h rfl hinv hp⟩
    simp only [exec, threadExit, Scheduler.setState]
    rw [show schedPreempt _ rsp = some (s', ret) from heq]
    rfl
  | sleep ms rsp =>
    obtain ⟨s', ret, l', heq, hinv, hp⟩ := preempt_stopped (v := .sleeping)
      (w := add64 now ms) hs he (List.Subset.refl _) (fun hc => by cases hc) rsp
    refine ⟨_, ret, l', ?_, resumed_spec h rfl hinv hp⟩
    simp only [exec, threadSleepMs]
    rw [show schedPreempt _ rsp = some (s', ret) from heq]
    rfl

theorem reachable_inv {r : Run} (h : Reachable r) : ∃ l, RunInv r l := by
  refine h.invariant (I := fun r => ∃ l, RunInv r l) (fun r hr => start_inv hr)
    fun r r' hr hst => ?_
  obtain ⟨l, hl⟩ := hr
  obtain ⟨pick, now, fpu, e, ret, he, hexec⟩ := hst
  obtain ⟨r'', ret', l', hexec', hinv, -⟩ := exec_spec pick now fpu hl he
  rw [hexec] at hexec'
  cases hexec'
  exact ⟨l', hinv⟩

/-! ## A boot -/

/-- An allocator that never uses an address twice. -/
def bootPick : Pick := fun a _ => a.lo + 0x20000 * (a.live.length + a.freed.length)

def bootScheduler : Scheduler :=
  ⟨fun _ => {}, fun _ => 0, ⟨0x100000, 0x1000000, [], []⟩, 0, 0, false, 0, 0, 0, 0, 0x1000⟩

theorem eq_some_getD {α : Type} {o : Option α} {d : α} (h : o.isSome = true) :
    o = some (o.getD d) := by
  cases o with
  | none => cases h
  | some _ => rfl

/-- The run after one more `thread_create` before `sched_start`. -/
def Run.create (r : Run) (fn : Nat) : Run :=
  r.created ((createThread bootPick r.s [110, 101, 116] fn 7).getD (bootScheduler, 0))

theorem Booted.get {r : Run} (h : Booted r) (fn : Nat)
    (hx : (createThread bootPick r.s [110, 101, 116] fn 7).isSome = true) :
    Booted (r.create fn) :=
  .create bootPick [110, 101, 116] fn 7 h (eq_some_getD hx)

/-- Two threads before `sched_start`. -/
def bootThreads : Run := (Run.create ⟨schedInit bootScheduler, 0, [], []⟩ 0x2000).create 0x3000

theorem booted_bootThreads : Booted bootThreads :=
  have h : Booted ⟨schedInit bootScheduler, 0, [], []⟩ :=
    .init rfl rfl (by rw [addrSpace_eq]; decide)
  (h.get 0x2000 (by decide)).get 0x3000 (by decide)

/-- The scheduler has started: the idle thread runs. -/
def bootIdle : Scheduler :=
  (schedStart bootPick { bootThreads.s with ticks := 0, fpu := 0 }).getD bootScheduler

def bootRun : Run := { bootThreads with s := bootIdle, idle := bootIdle.current }

theorem start_bootRun : Start bootRun :=
  ⟨bootThreads, bootPick, 0, 0, bootIdle, booted_bootThreads, eq_some_getD (by decide), rfl⟩

/-- One event of a run. -/
theorem Reach.exec {r : Run} (h : Reachable r) {e : Event} (pick : Pick) (now : Nat) (fpu : Fx)
    (he : e.Ok r) {d : Run × Nat} (hx : (exec pick now fpu r e).isSome = true) :
    Reachable ((Sched.exec pick now fpu r e).getD d).1 :=
  h.step ⟨pick, now, fpu, e, _, he, eq_some_getD hx⟩

/-! ## The ring -/

/-- The threads `l` are one cycle of distinct records, in blocks of the heap that are live, as
    their stacks are, and the static pointers stay on it. -/
structure WellFormed (r : Run) (l : List Nat) : Prop where
  ring : Ring (fun t => (r.s.thread t).next) l r.s.ring
  current_mem : r.s.current ∈ l
  idle_mem : r.idle ∈ l
  records : ∀ t ∈ l, (t, threadSize) ∈ r.s.heap.live
  hasStack : ∀ t ∈ l, t ≠ r.idle → ((r.s.thread t).stackBase, stackSize) ∈ r.s.heap.live
  once : (r.s.heap.live.map Prod.fst).Nodup

theorem Owns.stack_mem_live {s : Scheduler} {l : List Nat} (h : Owns s l) {t : Nat} (ht : t ∈ l)
    (hne : (s.thread t).stackBase ≠ 0) : ((s.thread t).stackBase, stackSize) ∈ s.heap.live :=
  h.live.mem_iff.mpr (List.mem_flatMap.mpr ⟨t, ht, by simp [blocksOf, hne]⟩)

theorem RunInv.wellFormed {r : Run} {l : List Nat} (h : RunInv r l) : WellFormed r l :=
  ⟨h.inv.ring, h.inv.current_mem, h.inv.idle_mem, fun _ ht => h.inv.owns.mem_live ht,
    fun t ht hne => h.inv.owns.stack_mem_live ht (h.hasStack t ht hne), h.inv.owns.heap_ok.nodup⟩

/-- In every state of a run the threads form a ring, and every further event returns: its loops
    end, it frees only what is live, the threads that leave the ring have called `thread_exit`,
    and only their blocks are given back, none of them the current thread's. -/
theorem reachable_ring_wellFormed {r : Run} (h : Reachable r) : ∃ l, WellFormed r l ∧
    ∀ (pick : Pick) (now : Nat) (fpu : Fx) (e : Event), e.Ok r →
      ∃ r' ret l', exec pick now fpu r e = some (r', ret) ∧ WellFormed r' l' ∧
        (∀ t ∈ l, t ∉ l' → t ∈ r.exited ∧ t ≠ r.s.current ∧ t ≠ r'.s.current) ∧
        (∀ b ∈ r.s.heap.live, b ∉ r'.s.heap.live →
          ∃ t ∈ l, t ∉ l' ∧ b ∈ blocksOf r.s.thread t) := by
  obtain ⟨l, hl⟩ := reachable_inv h
  refine ⟨l, hl.wellFormed, fun pick now fpu e he => ?_⟩
  obtain ⟨r', ret, l', hexec, hinv, ho⟩ := exec_spec pick now fpu hl he
  refine ⟨r', ret, l', hexec, hinv.wellFormed, fun t ht hn => ?_, ho.freed⟩
  obtain ⟨hexit, hcur⟩ := ho.gone t ht hn
  exact ⟨hexit, hcur, fun heq => hn (heq ▸ hinv.inv.current_mem)⟩

/-- The second of two threads runs, exits and is reaped: its record is at `0x140000`. -/
theorem reachable_ring_wellFormed_boot : ∃ r : Run, (0x140000 ∈ r.exited ∧
    r.s.heap.freed = [0x140000, 0x160000]) ∧ ∃ l, WellFormed r l ∧
    ∀ (pick : Pick) (now : Nat) (fpu : Fx) (e : Event), e.Ok r →
      ∃ r' ret l', exec pick now fpu r e = some (r', ret) ∧ WellFormed r' l' ∧
        (∀ t ∈ l, t ∉ l' → t ∈ r.exited ∧ t ≠ r.s.current ∧ t ≠ r'.s.current) ∧
        (∀ b ∈ r.s.heap.live, b ∉ r'.s.heap.live →
          ∃ t ∈ l, t ∉ l' ∧ b ∈ blocksOf r.s.thread t) := by
  have h₁ := Reach.exec (.init start_bootRun) (e := .yield 0x9000) (d := (bootRun, 0)) bootPick 1 5
    trivial (by decide +kernel)
  have h₂ := Reach.exec h₁ (e := .exit 0x16ff00) (d := (bootRun, 0)) bootPick 2 6
    (by rw [Event.Ok]; decide +kernel) (by decide +kernel)
  have h₃ := Reach.exec h₂ (e := .yield 0x9000) (d := (bootRun, 0)) bootPick 3 7
    trivial (by decide +kernel)
  exact ⟨_, by decide +kernel, reachable_ring_wellFormed h₃⟩

/-! ## Continuity -/

/-- What `thread_create` leaves in the record of a new thread. -/
theorem createThread_frame {pick : Pick} {s s' : Scheduler} {name : List UInt8} {fn arg t : Nat}
    (h : createThread pick s name fn arg = some (s', t)) (ht : t ≠ 0) :
    (s'.thread t).fxsave = fxareaInit ∧
      buildFrame s.mem s.trampoline (s'.thread t).stackBase fn arg
        = (s'.mem, (s'.thread t).rsp) := by
  simp only [createThread] at h
  split at h
  · cases h; exact absurd rfl ht
  split at h
  · obtain ⟨_, -, heq⟩ := Option.map_eq_some_iff.mp h
    cases heq
    exact absurd rfl ht
  · cases h
    obtain ⟨_, hv⟩ := ringInsert_thread (initThread { s with
      heap := (Arena.alloc pick stackSize (Arena.alloc pick threadSize s.heap).2).2 }
      (Arena.alloc pick threadSize s.heap).1
      (Arena.alloc pick stackSize (Arena.alloc pick threadSize s.heap).2).1 name fn arg)
      (Arena.alloc pick threadSize s.heap).1 (Arena.alloc pick threadSize s.heap).1
    rw [hv, ringInsert_mem]
    simp [initThread, Scheduler.setThread]

/-- In every run a thread that becomes current is resumed with the stack pointer and the FPU
    image that were saved when it was last switched away from, or at first built for it, and a
    thread that stays current goes on where it was. The built context enters
    `trampoline(fn, arg)` with interrupts on, on the thread's own stack. -/
theorem resumes_saved_context :
    (∀ (r : Run) (pick : Pick) (now : Nat) (fpu : Fx) (e : Event) (r' : Run) (ret : Nat),
      Reachable r → e.Ok r → exec pick now fpu r e = some (r', ret) →
      (r'.s.current ≠ r.s.current → r.saved.lookup r'.s.current = some ⟨ret, r'.s.fpu⟩) ∧
      (r'.s.current = r.s.current → ret = e.rsp ∧ r'.s.fpu = fpu)) ∧
    (∀ (pick : Pick) (s s' : Scheduler) (name : List UInt8) (fn arg t : Nat),
      createThread pick s name fn arg = some (s', t) → t ≠ 0 →
      buildFrame s.mem s.trampoline (s'.thread t).stackBase fn arg
        = (s'.mem, (s'.thread t).rsp)) ∧
    (∀ (m : Mem) (trampoline stackBase fn arg : Nat), trampoline < addrSpace → fn < addrSpace →
      arg < addrSpace →
      ∃ cpu, resume (buildFrame m trampoline stackBase fn arg).1
          (buildFrame m trampoline stackBase fn arg).2 = cpu ∧
        cpu.rip = trampoline ∧ cpu.regs = { rdi := fn, rsi := arg } ∧ cpu.rflags.testBit 9 ∧
        sub64 cpu.rsp stackBase < stackSize ∧ cpu.rsp % 16 = 8) := by
  refine ⟨fun r pick now fpu e r' ret h he hexec => ?_,
    fun pick s s' name fn arg t h ht => (createThread_frame h ht).2,
    fun m trampoline stackBase fn arg ht hf ha => ?_⟩
  · obtain ⟨l, hl⟩ := reachable_inv h
    obtain ⟨r'', ret'', l', hexec', -, ho⟩ :=
      exec_spec pick now fpu hl he
    rw [hexec] at hexec'
    cases hexec'
    exact ⟨ho.switch, ho.stay⟩
  · obtain ⟨hin, hmod⟩ := stackTop_spec stackBase
    exact ⟨_, resume_buildFrame ht hf ha, rfl, rfl,
      show Nat.testBit 0x202 9 = true by decide, hin, hmod⟩

/-- The first yield of the idle thread enters a thread whose stack is at `0x160000`. -/
theorem resumes_saved_context_boot :
    ((exec bootPick 1 5 bootRun (.yield 0x9000)).map fun c => (c.1.s.current, c.2))
      = some (0x140000, 0x16ff60) ∧
    (∀ r' ret, exec bootPick 1 5 bootRun (.yield 0x9000) = some (r', ret) →
      (r'.s.current ≠ bootRun.s.current →
        bootRun.saved.lookup r'.s.current = some ⟨ret, r'.s.fpu⟩) ∧
      (r'.s.current = bootRun.s.current → ret = 0x9000 ∧ r'.s.fpu = 5)) ∧
    ∃ cpu, resume (buildFrame (fun _ => 0) 0x1000 0x160000 0x3000 7).1
        (buildFrame (fun _ => 0) 0x1000 0x160000 0x3000 7).2 = cpu ∧
      cpu.rip = 0x1000 ∧ cpu.regs = { rdi := 0x3000, rsi := 7 } ∧ cpu.rflags.testBit 9 ∧
      sub64 cpu.rsp 0x160000 < stackSize ∧ cpu.rsp % 16 = 8 :=
  ⟨by decide +kernel,
    fun r' ret h => resumes_saved_context.1 bootRun bootPick 1 5 (.yield 0x9000) r' ret
      (.init start_bootRun) trivial h,
    resumes_saved_context.2.2 (fun _ => 0) 0x1000 0x160000 0x3000 7 (by rw [addrSpace_eq]; decide)
      (by rw [addrSpace_eq]; decide) (by rw [addrSpace_eq]; decide)⟩

end ChocoOs.Sched
