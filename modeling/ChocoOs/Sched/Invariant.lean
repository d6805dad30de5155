import ChocoOs.Sched.Operations
import ChocoOs.Lib.Linked

/-!
# The ring of threads

The records in the ring are distinct, and they and their stacks are exactly the blocks that the
scheduler holds from the heap.
-/

namespace ChocoOs.Sched
open ProgLib

/-- The heap blocks of the thread at `t`: its record and, except for the idle thread, its
    stack. -/
def blocksOf (thread : Nat → Thread) (t : Nat) : List (Nat × Nat) :=
  (t, threadSize) ::
    if (thread t).stackBase = 0 then [] else [((thread t).stackBase, stackSize)]

/-- The threads `l` own the scheduler's memory. -/
structure Owns (s : Scheduler) (l : List Nat) : Prop where
  heap_ok : s.heap.Ok
  hi_le : s.heap.hi ≤ addrSpace
  live : s.heap.live.Perm (l.flatMap (blocksOf s.thread))

/-- What holds inside an event as well, when the current thread may have stopped running. -/
structure Core (s : Scheduler) (l : List Nat) (idle : Nat) (exited : List Nat) : Prop where
  ring : Ring (fun t => (s.thread t).next) l s.ring
  owns : Owns s l
  active : s.active = true
  current_mem : s.current ∈ l
  idle_mem : idle ∈ l
  idle_runnable : (s.thread idle).runnable = true
  zombies : ∀ t ∈ l, (s.thread t).state = .zombie → t ∈ exited

theorem Owns.mem_live {s : Scheduler} {l : List Nat} (h : Owns s l) {t : Nat} (ht : t ∈ l) :
    (t, threadSize) ∈ s.heap.live :=
  h.live.mem_iff.mpr (List.mem_flatMap.mpr ⟨t, ht, by simp [blocksOf]⟩)

theorem Owns.bounds {s : Scheduler} {l : List Nat} (h : Owns s l) {t : Nat} (ht : t ∈ l) :
    0 < t ∧ t < addrSpace := by
  have := h.heap_ok.inside _ (h.mem_live ht)
  have := h.hi_le
  simp only [threadSize] at *
  omega

theorem Owns.length_lt {s : Scheduler} {l : List Nat} (h : Owns s l) (hnd : l.Nodup) :
    l.length < addrSpace :=
  length_lt_of_nodup hnd (fun _ ht => h.bounds ht) addrSpace_pos

theorem Core.ne_zero {s : Scheduler} {l : List Nat} {idle t : Nat} {exited : List Nat}
    (h : Core s l idle exited) (ht : t ∈ l) : t ≠ 0 := by
  have := h.owns.bounds ht
  omega

theorem runnable_iff {t : Thread} :
    t.runnable = true ↔ t.state = .ready ∨ t.state = .running := by
  simp [Thread.runnable]

/-- The memory stays with the threads as long as stacks do. -/
theorem Owns.congr {s s' : Scheduler} {l : List Nat} (h : Owns s l) (hheap : s'.heap = s.heap)
    (same : ∀ t ∈ l, (s'.thread t).stackBase = (s.thread t).stackBase) : Owns s' l := by
  refine ⟨hheap ▸ h.heap_ok, hheap ▸ h.hi_le, ?_⟩
  rw [hheap]
  refine h.live.trans (List.Perm.of_eq (List.flatMap_congr fun t ht => ?_))
  rw [blocksOf, blocksOf, same t ht]

/-- Changes to the contexts and states of threads keep the ring. -/
theorem Core.congr {s s' : Scheduler} {l : List Nat} {idle : Nat} {exited : List Nat}
    (h : Core s l idle exited) (hring : s'.ring = s.ring) (hheap : s'.heap = s.heap)
    (hactive : s'.active = s.active) (hcurrent : s'.current ∈ l)
    (same : ∀ t ∈ l, (s'.thread t).next = (s.thread t).next ∧
      (s'.thread t).stackBase = (s.thread t).stackBase)
    (hidle : (s'.thread idle).runnable = true)
    (hzombies : ∀ t ∈ l, (s'.thread t).state = .zombie → t ∈ exited) : Core s' l idle exited := by
  refine ⟨?_, h.owns.congr hheap fun t ht => (same t ht).2, hactive.trans h.active, hcurrent,
    h.idle_mem, hidle, hzombies⟩
  rw [hring]
  exact h.ring.congr fun t ht => (same t ht).1

/-! ## Inserting a thread -/

/-- A ring, or nothing yet. -/
def RingOrEmpty (s : Scheduler) (l : List Nat) : Prop :=
  (l = [] ∧ s.ring = 0) ∨ Ring (fun t => (s.thread t).next) l s.ring

/-- Writing a `next` pointer changes no other field of any thread. -/
theorem setNext_thread (s : Scheduler) (a v x : Nat) :
    ∃ w, (s.setThread a { s.thread a with next := v }).thread x = { s.thread x with next := w } := by
  by_cases hx : x = a
  · subst hx
    exact ⟨v, by simp [Scheduler.setThread]⟩
  · exact ⟨(s.thread x).next, by simp [Scheduler.setThread, hx]⟩

theorem ringInsert_thread (s : Scheduler) (t x : Nat) :
    ∃ w, (ringInsert s t).thread x = { s.thread x with next := w } := by
  simp only [ringInsert]
  split
  · exact setNext_thread { s with ring := t } t t x
  · obtain ⟨_, h₁⟩ := setNext_thread s t (s.thread s.ring).next x
    obtain ⟨w, h₂⟩ := setNext_thread (s.setThread t { s.thread t with next := (s.thread s.ring).next })
      s.ring t x
    exact ⟨w, h₂.trans (by rw [h₁])⟩

theorem ringInsert_mem (s : Scheduler) (t : Nat) : (ringInsert s t).mem = s.mem := by
  simp only [ringInsert]
  split <;> rfl

/-- `ring_insert` puts the thread behind the one that `ring` points to. -/
theorem ringInsert_spec {s : Scheduler} {l : List Nat} {t : Nat} (h : RingOrEmpty s l)
    (hne : ∀ x ∈ l, x ≠ 0) (ht : t ∉ l) :
    (∃ l', l'.Perm (t :: l) ∧
      Ring (fun x => ((ringInsert s t).thread x).next) l' (ringInsert s t).ring) ∧
      (ringInsert s t).heap = s.heap ∧ (ringInsert s t).current = s.current ∧
      (ringInsert s t).active = s.active ∧ (ringInsert s t).fpu = s.fpu := by
  rcases h with ⟨rfl, h0⟩ | h
  · have heq : ringInsert s t =
        { s with ring := t }.setThread t { s.thread t with next := t } := by
      rw [ringInsert, if_pos h0]
    rw [heq]
    exact ⟨⟨[t], .refl _, by simp, rfl, by simp [Scheduler.setThread], trivial⟩, rfl, rfl, rfl, rfl⟩
  · obtain ⟨xs, hxs⟩ := h.eq_cons
    obtain ⟨x, hx⟩ : ∃ x, s.ring = x := ⟨_, rfl⟩
    rw [hx] at hxs
    subst hxs
    have hx0 : s.ring ≠ 0 := hx ▸ hne x (by simp)
    have hxt : x ≠ t := fun he => ht (by simp [he])
    have heq : ringInsert s t =
        (s.setThread t { s.thread t with next := (s.thread x).next }).setThread x
          { s.thread x with next := t } := by
      rw [ringInsert, if_neg hx0]
      simp only [Scheduler.setThread, hx, Function.update_of_ne hxt]
    rw [heq]
    refine ⟨⟨x :: t :: xs, List.Perm.swap _ _ _, ?_⟩, rfl, rfl, rfl, rfl⟩
    rw [show ((s.setThread t { s.thread t with next := (s.thread x).next }).setThread x
      { s.thread x with next := t }).ring = x from hx]
    rw [hx] at h
    simp only [Scheduler.setThread]
    refine h.insert ht (by simp) (by simp [Function.update_of_ne hxt.symm]) fun z hz => ?_
    have hzx : z ≠ x := fun he => (List.nodup_cons.mp h.nodup).1 (he ▸ hz)
    have hzt : z ≠ t := fun he => ht (by simp [← he, hz])
    simp [Function.update_of_ne hzx, Function.update_of_ne hzt]

/-- What linking in a new record `t` with its stack does to the ring and the memory. -/
structure Joined (s : Scheduler) (l : List Nat) (t : Nat) (s' : Scheduler) (l' : List Nat) :
    Prop where
  fresh : t ∉ l
  ne_zero : t ≠ 0
  perm : l'.Perm (t :: l)
  ring : Ring (fun x => (s'.thread x).next) l' s'.ring
  owns : Owns s' l'
  current : s'.current = s.current
  active : s'.active = s.active
  fpu : s'.fpu = s.fpu
  old : ∀ x ∈ l, ∃ v, s'.thread x = { s.thread x with next := v }
  live : ∀ b ∈ s.heap.live, b ∈ s'.heap.live

/-- A record written at a new block and inserted into the ring. -/
theorem join_spec {s s₁ : Scheduler} {l : List Nat} {t : Nat} {T : Thread}
    (hr : RingOrEmpty s l) (ho : Owns s l) (ht : t ∉ l) (ht0 : t ≠ 0)
    (hthread : s₁.thread = Function.update s.thread t T) (hring : s₁.ring = s.ring)
    (hcurrent : s₁.current = s.current) (hactive : s₁.active = s.active)
    (hfpu : s₁.fpu = s.fpu) (hok : s₁.heap.Ok) (hhi : s₁.heap.hi = s.heap.hi)
    (hlive : s₁.heap.live.Perm (blocksOf s₁.thread t ++ s.heap.live)) :
    (∃ l', Joined s l t (ringInsert s₁ t) l') ∧
      ∃ v, (ringInsert s₁ t).thread t = { T with next := v } := by
  have hne : ∀ x ∈ l, x ≠ 0 := fun x hx => by have := ho.bounds hx; omega
  have hold : ∀ x ∈ l, s₁.thread x = s.thread x := by
    intro x hx
    have hxt : x ≠ t := fun he => ht (he ▸ hx)
    rw [hthread, Function.update_of_ne hxt]
  have hr₁ : RingOrEmpty s₁ l := by
    rcases hr with ⟨hl, h0⟩ | hr
    · exact .inl ⟨hl, hring.trans h0⟩
    · exact .inr (hring ▸ hr.congr fun x hx => by rw [hold x hx])
  obtain ⟨⟨l', hperm, hring'⟩, hheap, hcur, hact, hfp⟩ := ringInsert_spec hr₁ hne ht
  have hth := ringInsert_thread s₁ t
  have hblocks : ∀ x, blocksOf (ringInsert s₁ t).thread x = blocksOf s₁.thread x := by
    intro x
    obtain ⟨v, hv⟩ := hth x
    simp [blocksOf, hv]
  refine ⟨⟨l', ht, ht0, hperm, hring', ⟨hheap ▸ hok, ?_, ?_⟩, hcur.trans hcurrent,
    hact.trans hactive, hfp.trans hfpu, fun x hx => ?_, fun b hb => ?_⟩, ?_⟩
  · rw [hheap, hhi]; exact ho.hi_le
  · have hflat := hperm.flatMap_right (blocksOf (ringInsert s₁ t).thread)
    rw [List.flatMap_cons] at hflat
    rw [hheap]
    refine hlive.trans (List.Perm.trans ?_ hflat.symm)
    rw [hblocks t]
    refine List.Perm.append_left _ (ho.live.trans (List.Perm.of_eq (List.flatMap_congr ?_)))
    intro x hx
    rw [hblocks x, blocksOf, blocksOf, hold x hx]
  · obtain ⟨v, hv⟩ := hth x
    exact ⟨v, by rw [hv, hold x hx]⟩
  · rw [hheap]
    exact hlive.mem_iff.mpr (List.mem_append_right _ hb)
  · obtain ⟨v, hv⟩ := hth t
    exact ⟨v, by rw [hv, hthread, Function.update_self]⟩

end ChocoOs.Sched
