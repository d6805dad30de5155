import ChocoOs.Sched.Run

/-!
# Fairness

Round robin. The next thread is the first one behind `current` that is runnable and not idle, so
a ready thread is passed over by no call of `sched_preempt`: each one either takes it or takes a
thread in front of it, and what lies between the two gets shorter.
-/

namespace ChocoOs.Sched
open ProgLib

/-- The thread `n` steps along the ring from `current`. -/
def Scheduler.behind (s : Scheduler) (n : Nat) : Nat :=
  (fun t => (s.thread t).next)^[n] s.current

/-! ## The choice -/

/-- What the first of the two searches looks for. -/
def Thread.wanted (t : Thread) : Bool := t.runnable && t.id != 0

theorem wanted_iff {t : Thread} : t.wanted = true ↔ t.runnable = true ∧ t.id ≠ 0 := by
  rw [Thread.wanted, Bool.and_eq_true, bne_iff_ne]

theorem pickNext_eq {s : Scheduler} {xs : List Nat}
    (h : Ring (fun t => (s.thread t).next) (s.current :: xs) s.current)
    (hlen : (s.current :: xs).length < addrSpace) : ∃ t, t = (xs.find? fun t =>
      (s.thread t).wanted).getD (if (s.thread s.current).wanted then s.current else 0) ∧
      pickNext s = if t ≠ 0 then some t else findThread s Thread.runnable := by
  refine ⟨_, rfl, ?_⟩
  rw [pickNext, show (fun t : Thread => t.runnable && t.id != 0) = Thread.wanted from rfl,
    findThread_eq h hlen]
  simp only [Option.bind_eq_bind, Option.bind_some]
  split <;> rfl

/-- A thread with number 0 is taken only if no other is runnable. -/
theorem pickNext_idle {s : Scheduler} {xs : List Nat} {n : Nat}
    (h : Ring (fun t => (s.thread t).next) (s.current :: xs) s.current)
    (hlen : (s.current :: xs).length < addrSpace) (h0 : ∀ t ∈ s.current :: xs, t ≠ 0)
    (hpick : pickNext s = some n) (hid : (s.thread n).id = 0) :
    ∀ t ∈ s.current :: xs, (s.thread t).id ≠ 0 → (s.thread t).runnable = false := by
  intro t ht htid
  rw [Bool.eq_false_iff]
  intro hrun
  have hwant : (s.thread t).wanted = true := wanted_iff.mpr ⟨hrun, htid⟩
  -- the first search finds some thread, and its number is not 0
  obtain ⟨y, hy, heq⟩ := pickNext_eq h hlen
  have hy' : y ∈ s.current :: xs ∧ (s.thread y).wanted = true := by
    cases hfind : xs.find? fun t => (s.thread t).wanted with
    | some z =>
      rw [hfind, Option.getD_some] at hy
      subst hy
      exact ⟨List.mem_cons_of_mem _ (List.mem_of_find?_eq_some hfind),
        List.find?_some (p := fun t => (s.thread t).wanted) hfind⟩
    | none =>
      rcases List.mem_cons.mp ht with rfl | ht
      · rw [hfind, Option.getD_none, if_pos hwant] at hy
        subst hy
        exact ⟨List.mem_cons_self .., hwant⟩
      · exact absurd hwant (List.find?_eq_none.mp hfind t ht)
  rw [if_pos (h0 y hy'.1), hpick] at heq
  cases heq
  exact (wanted_iff.mp hy'.2).2 hid

/-- A thread that is wanted is taken, or one in front of it. -/
theorem pickNext_front {s : Scheduler} {pre post : List Nat} {t n : Nat}
    (h : Ring (fun t => (s.thread t).next) (s.current :: (pre ++ t :: post)) s.current)
    (hlen : (s.current :: (pre ++ t :: post)).length < addrSpace)
    (h0 : ∀ x ∈ s.current :: (pre ++ t :: post), x ≠ 0) (hrun : (s.thread t).runnable = true)
    (hid : (s.thread t).id ≠ 0) (hpick : pickNext s = some n) : n ∈ pre ∨ n = t := by
  have hwant : (s.thread t).wanted = true := wanted_iff.mpr ⟨hrun, hid⟩
  obtain ⟨y, hfind, hy⟩ : ∃ y, (pre ++ t :: post).find? (fun t => (s.thread t).wanted) = some y ∧
      (y ∈ pre ∨ y = t) := by
    rw [List.find?_append, List.find?_cons_of_pos (p := fun t => (s.thread t).wanted) hwant]
    cases hpre : pre.find? fun t => (s.thread t).wanted with
    | some y => exact ⟨y, rfl, .inl (List.mem_of_find?_eq_some hpre)⟩
    | none => exact ⟨t, rfl, .inr rfl⟩
  have hy0 : y ≠ 0 := h0 y (List.mem_cons_of_mem _ (List.mem_of_find?_eq_some hfind))
  obtain ⟨z, hz, heq⟩ := pickNext_eq h hlen
  rw [hfind, Option.getD_some] at hz
  subst hz
  rw [if_pos hy0, hpick] at heq
  cases heq
  exact hy

/-! ## One call -/

/-- The thread waits `n` steps behind `current`. -/
structure Waiting (s : Scheduler) (t n : Nat) : Prop where
  ready : (s.thread t).state = .ready
  id_ne : (s.thread t).id ≠ 0
  ne_current : t ≠ s.current
  behind : s.behind n = t

/-- The ring after zombies have left, read from `current`. -/
theorem Reaped.ring_eq {s s' : Scheduler} {l l' : List Nat} {idle : Nat} {exited : List Nat}
    (h : Core s l idle exited) (h' : Core s' l' idle exited) (hre : Reaped s l s' l') :
    ∃ xs, Ring (fun t => (s.thread t).next) (s.current :: xs) s.current ∧
      (∀ x, x ∈ s.current :: xs ↔ x ∈ l) ∧
      Ring (fun t => (s'.thread t).next) (s'.current :: xs.filter (· ∈ l')) s'.current := by
  obtain ⟨pre, post, hsplit, hrot⟩ := h.rotate
  have hmem : s.current ∈ l' := hre.current ▸ h'.current_mem
  have hl' : l' = pre.filter (· ∈ l') ++ s'.current :: post.filter (· ∈ l') := by
    have := filter_mem_of_sublist hre.sublist h.ring.nodup
    rw [hsplit, List.filter_append, List.filter_cons_of_pos (by simpa using hmem)] at this
    rw [hre.current]
    exact this.symm
  have hring := h'.ring
  rw [hl'] at hring
  refine ⟨post ++ pre, hrot, fun x => ?_, ?_⟩
  · rw [hsplit]
    simp only [List.mem_cons, List.mem_append]
    tauto
  · rw [List.filter_append]
    exact hring.rotate

/-- A call of `sched_preempt` takes the waiting thread or brings it nearer. -/
theorem Waiting.preempt {s s' : Scheduler} {l : List Nat} {idle t n rsp ret : Nat}
    {exited : List Nat} (h : Core s l idle exited) (hw : Waiting s t n)
    (hpre : schedPreempt s rsp = some (s', ret)) :
    s'.current = t ∨ ∃ m < n, Waiting s' t m := by
  obtain ⟨s₂, l₂, y, h₂, hre, hpick, hy, -, heq⟩ := schedPreempt_eq h rsp
  obtain ⟨xs, hring, hmem, hring₂⟩ := hre.ring_eq h.woken h₂
  -- the ring from `current` to the thread, before the call
  obtain ⟨pre, post, hxs, hlen⟩ : ∃ pre post, xs = pre ++ t :: post ∧ pre.length < n := by
    have hnext : ∀ x ∈ s.current :: xs, (s.thread x).next = ((woken s l).thread x).next := by
      intro x hx
      rw [woken_thread ((hmem x).mp hx), (wake_same _ _).1]
    obtain ⟨pre, post, hsplit, hle⟩ := (hring.congr hnext).split_iterate n
    have hbehind : (fun t => (s.thread t).next)^[n] (woken s l).current = t := hw.behind
    rw [hbehind] at hsplit
    cases pre with
    | nil => exact absurd (List.cons.inj hsplit).1.symm hw.ne_current
    | cons x pre => exact ⟨pre, post, (List.cons.inj hsplit).2, hle⟩
  have hcur : s₂.current = s.current := hre.current
  have ht : t ∈ l := (hmem t).mp (by simp [hxs])
  have hready : ((woken s l).thread t).state = .ready := by
    rw [woken_thread ht, wake, if_neg (by simp [hw.ready])]
    exact hw.ready
  have ht₂ : t ∈ l₂ := by
    by_contra hn
    have := (hre.gone t ht hn).1
    rw [hready] at this
    cases this
  obtain ⟨v, hv⟩ := hre.kept t ht₂
  have hstate₂ : (s₂.thread t).state = .ready := by rw [hv]; exact hready
  have hid₂ : (s₂.thread t).id ≠ 0 := by
    rw [hv, woken_thread ht]
    exact fun hz => hw.id_ne ((wake_same _ _).2.2.2.2 ▸ hz)
  rw [hxs, List.filter_append, List.filter_cons_of_pos (by simpa using ht₂)] at hring₂
  set pre₂ := pre.filter (· ∈ l₂) with hpre₂
  set post₂ := post.filter (· ∈ l₂)
  have hle₂ : pre₂.length ≤ pre.length := List.length_filter_le ..
  have hsub : ∀ x ∈ s₂.current :: (pre₂ ++ t :: post₂), x ∈ l₂ := by
    intro x hx
    simp only [List.mem_cons, List.mem_append, pre₂, post₂, List.mem_filter,
      decide_eq_true_eq] at hx
    rcases hx with rfl | hx | rfl | hx
    · exact h₂.current_mem
    · exact hx.2
    · exact ht₂
    · exact hx.2
  have hlen₂ : (s₂.current :: (pre₂ ++ t :: post₂)).length < addrSpace :=
    Nat.lt_of_le_of_lt (hring₂.nodup.subperm hsub).length_le (h₂.owns.length_lt h₂.ring.nodup)
  rcases pickNext_front hring₂ hlen₂ (fun x hx => h₂.ne_zero (hsub x hx))
    (runnable_iff.mpr (.inl hstate₂)) hid₂ hpick with hin | rfl
  · -- a thread in front of it
    obtain ⟨pre₃, mid, hsplit⟩ := List.append_of_mem hin
    rw [hsplit] at hring₂
    have hnd := hring₂.nodup
    have hyc : y ≠ s₂.current := by
      rintro rfl
      exact (List.nodup_cons.mp hnd).1 (by simp)
    have hyt : t ≠ y := by
      rintro rfl
      simp [List.nodup_append] at hnd
    have htc : t ≠ s₂.current := hcur ▸ hw.ne_current
    rw [heq, if_neg hyc] at hpre
    have hs' : s' = (switchTo s₂ y rsp).1 := congrArg Prod.fst (Option.some.inj hpre).symm
    have hthread : s'.thread t = s₂.thread t := by
      rw [hs']
      exact switchTo_thread_of_ne rsp hyt htc
    have hcur' : s'.current = y := by rw [hs']; rfl
    refine .inr ⟨mid.length + 1, ?_, by rw [hthread]; exact hstate₂, by rw [hthread]; exact hid₂,
      hcur' ▸ hyt, ?_⟩
    · rw [hsplit, List.length_append, List.length_cons] at hle₂
      omega
    · have hring₃ : Ring (fun t => (s₂.thread t).next)
          ((s₂.current :: pre₃) ++ y :: (mid ++ t :: post₂)) s₂.current := by simpa using hring₂
      have hrot := hring₃.rotate
      have hrot' : Ring (fun t => (s'.thread t).next)
          ((y :: mid) ++ t :: (post₂ ++ s₂.current :: pre₃)) y := by
        refine Ring.congr (by simpa using hrot) fun x _ => ?_
        rw [hs']
        exact (switchTo_same s₂ y rsp x).1
      rw [Scheduler.behind, hcur']
      exact hrot'.iterate_length
  · -- the thread itself
    have hyc : y ≠ s₂.current := hcur ▸ hw.ne_current
    rw [heq, if_neg hyc] at hpre
    have hs' : s' = (switchTo s₂ y rsp).1 := congrArg Prod.fst (Option.some.inj hpre).symm
    exact .inl (by rw [hs']; rfl)

/-- What the call leaves running was runnable once the sleepers were woken, and it has number 0
    only if no thread with another number was. -/
theorem schedPreempt_choice {s s' : Scheduler} {l : List Nat} {idle rsp ret : Nat}
    {exited : List Nat} (h : Core s l idle exited) (hpre : schedPreempt s rsp = some (s', ret)) :
    (wake s.ticks (s.thread s'.current)).runnable = true ∧
      ((s.thread s'.current).id = 0 →
        ∀ t ∈ l, (s.thread t).id ≠ 0 → (wake s.ticks (s.thread t)).runnable = false) := by
  obtain ⟨s₂, l₂, n, h₂, hre, hpick, hn, hrun, heq⟩ := schedPreempt_eq h rsp
  obtain ⟨xs, -, hmem, hring₂⟩ := hre.ring_eq h.woken h₂
  have hcur : s'.current = n := by
    rw [heq] at hpre
    have hs' := congrArg (fun c : Scheduler × Nat => c.1.current) (Option.some.inj hpre).symm
    refine hs'.trans ?_
    by_cases hstay : n = s₂.current
    · rw [if_pos hstay]
      exact hstay.symm
    · rw [if_neg hstay]
      rfl
  -- what is left of the ring has the states and numbers it had after waking
  have hkept : ∀ t ∈ l₂, (s₂.thread t).runnable = (wake s.ticks (s.thread t)).runnable ∧
      (s₂.thread t).id = (s.thread t).id := by
    intro t ht
    obtain ⟨v, hv⟩ := hre.kept t ht
    rw [hv, woken_thread (hre.subset ht)]
    exact ⟨rfl, (wake_same _ _).2.2.2.2⟩
  have hsub : ∀ t ∈ s₂.current :: xs.filter (· ∈ l₂), t ∈ l₂ := by
    intro t ht
    rcases List.mem_cons.mp ht with rfl | ht
    · exact h₂.current_mem
    · simpa using (List.mem_filter.mp ht).2
  rw [hcur]
  refine ⟨(hkept n hn).1 ▸ hrun, fun hid t ht htid => ?_⟩
  by_cases ht₂ : t ∈ l₂
  · have hin : t ∈ s₂.current :: xs.filter (· ∈ l₂) := by
      rcases List.mem_cons.mp ((hmem t).mpr ht) with rfl | hx
      · exact List.mem_cons.mpr (.inl hre.current.symm)
      · exact List.mem_cons_of_mem _ (List.mem_filter.mpr ⟨hx, by simpa using ht₂⟩)
    rw [← (hkept t ht₂).1]
    refine pickNext_idle hring₂ ?_ (fun x hx => h₂.ne_zero (hsub x hx)) hpick
      ((hkept n hn).2.trans hid) t hin fun hz => htid ((hkept t ht₂).2 ▸ hz)
    exact Nat.lt_of_le_of_lt (hring₂.nodup.subperm hsub).length_le
      (h₂.owns.length_lt h₂.ring.nodup)
  · -- a zombie that has been reaped
    have hz := (hre.gone t ht ht₂).1
    rw [woken_thread ht] at hz
    simp [Thread.runnable, hz]

/-- The idle thread keeps its number. -/
theorem schedPreempt_idle {s s' : Scheduler} {l : List Nat} {idle rsp ret : Nat}
    {exited : List Nat} (h : Core s l idle exited) (hpre : schedPreempt s rsp = some (s', ret)) :
    (s'.thread idle).id = (s.thread idle).id := by
  obtain ⟨s₂, l₂, n, h₂, hre, -, -, -, heq⟩ := schedPreempt_eq h rsp
  obtain ⟨v, hv⟩ := hre.kept idle h₂.idle_mem
  have hid : (s₂.thread idle).id = (s.thread idle).id := by
    rw [hv, woken_thread h.idle_mem]
    exact (wake_same _ _).2.2.2.2
  rw [heq] at hpre
  have hs' := congrArg Prod.fst (Option.some.inj hpre).symm
  simp only at hs'
  rw [hs', ← hid]
  by_cases hstay : n = s₂.current
  · rw [if_pos hstay]
  · rw [if_neg hstay]
    exact (switchTo_same s₂ n rsp idle).2.2

/-! ## Runs -/

/-- Whether the event calls `sched_preempt`: a tick does once the quantum has expired. -/
def Event.Calls (now : Nat) (r : Run) : Event → Prop
  | .create _ _ _ => False
  | .tick _ => ¬(sub64 now r.s.sliceStart < quantumTicks ∧ r.s.current ≠ 0 ∧
      (r.s.thread r.s.current).state = .running)
  | .yield _ | .exit _ | .sleep _ _ => True

/-- The scheduler that the call finds: the current thread may have exited or gone to sleep. -/
def Event.enter (now : Nat) (fpu : Fx) (r : Run) (e : Event) : Scheduler :=
  let s := { r.s with ticks := now, fpu := fpu }
  match e with
  | .exit _ => s.setState s.current .zombie
  | .sleep ms _ => s.setThread s.current
      { s.thread s.current with state := .sleeping, wakeTick := add64 now ms }
  | _ => s

/-- One call of `sched_preempt` in a run. -/
def Call (r r' : Run) : Prop := ∃ (pick : Pick) (now : Nat) (fpu : Fx) (e : Event) (ret : Nat),
  e.Ok r ∧ e.Calls now r ∧ exec pick now fpu r e = some (r', ret)

theorem Call.step {r r' : Run} (h : Call r r') : Step r r' :=
  let ⟨pick, now, fpu, e, ret, he, _, hexec⟩ := h
  ⟨pick, now, fpu, e, ret, he, hexec⟩

/-- What the event does is what the call does. -/
theorem exec_call {pick : Pick} {now : Nat} {fpu : Fx} {r r' : Run} {e : Event} {ret : Nat}
    (hc : e.Calls now r) (hactive : r.s.active = true)
    (h : exec pick now fpu r e = some (r', ret)) :
    schedPreempt (e.enter now fpu r) e.rsp = some (r'.s, ret) ∧ r'.idle = r.idle := by
  have hmap : ∀ {o : Option (Scheduler × Nat)} {q : Run} {c : Context},
      o.map (q.resumed c) = some (r', ret) → o = some (r'.s, ret) ∧ r'.idle = q.idle := by
    intro o q c ho
    obtain ⟨⟨s', ret'⟩, rfl, heq⟩ := Option.map_eq_some_iff.mp ho
    cases heq
    exact ⟨rfl, rfl⟩
  cases e with
  | create _ _ _ => exact hc.elim
  | tick rsp =>
    simp only [exec] at h
    obtain ⟨htick, hidle⟩ := hmap h
    rw [schedTick, if_neg (by simp [hactive]), if_neg hc] at htick
    exact ⟨htick, hidle⟩
  | yield rsp => exact hmap h
  | exit rsp => exact hmap (q := { r with exited := r.s.current :: r.exited }) h
  | sleep ms rsp => exact hmap h

/-- The call finds the ring of the run. -/
theorem RunInv.enter {r : Run} {l : List Nat} {e : Event} (h : RunInv r l) (he : e.Ok r)
    (now : Nat) (fpu : Fx) : ∃ exited, Core (e.enter now fpu r) l r.idle exited := by
  have hs := h.inv.clocked now fpu
  cases e with
  | exit rsp =>
    exact ⟨_, hs.setCurrent (v := .zombie) (w := (r.s.thread r.s.current).wakeTick) he
      (List.subset_cons_self r.s.current _) fun _ => List.mem_cons_self ..⟩
  | sleep ms rsp =>
    exact ⟨_, hs.setCurrent (v := .sleeping) (w := add64 now ms) he (List.Subset.refl _)
      fun hz => by cases hz⟩
  | create _ _ _ => exact ⟨_, hs.toCore⟩
  | tick rsp => exact ⟨_, hs.toCore⟩
  | yield rsp => exact ⟨_, hs.toCore⟩

/-- Before the call only the current thread is touched, and only its state. -/
theorem Event.enter_thread (e : Event) (now : Nat) (fpu : Fx) (r : Run) (t : Nat) :
    ((e.enter now fpu r).thread t).next = (r.s.thread t).next ∧
      ((e.enter now fpu r).thread t).id = (r.s.thread t).id ∧
      (t ≠ r.s.current → (e.enter now fpu r).thread t = r.s.thread t) := by
  by_cases ht : t = r.s.current
  · subst ht
    cases e <;> simp [Event.enter, Scheduler.setState, Scheduler.setThread]
  · cases e <;> simp [Event.enter, Scheduler.setState, Scheduler.setThread, ht]

theorem Event.enter_current (e : Event) (now : Nat) (fpu : Fx) (r : Run) :
    (e.enter now fpu r).current = r.s.current ∧ (e.enter now fpu r).ticks = now := by
  cases e <;> exact ⟨rfl, rfl⟩

theorem Waiting.enter {r : Run} {t n : Nat} (h : Waiting r.s t n) (e : Event) (now : Nat)
    (fpu : Fx) : Waiting (e.enter now fpu r) t n := by
  have hcur := (e.enter_current now fpu r).1
  have hthread := (e.enter_thread now fpu r t).2.2 h.ne_current
  have hnext : (fun t => ((e.enter now fpu r).thread t).next) = fun t => (r.s.thread t).next :=
    funext fun t => (e.enter_thread now fpu r t).1
  refine ⟨hthread ▸ h.ready, hthread ▸ h.id_ne, hcur ▸ h.ne_current, ?_⟩
  rw [Scheduler.behind, hnext, hcur]
  exact h.behind

/-- In a run of calls the waiting thread is reached. -/
theorem Waiting.reached {R : Nat → Run} {t n k : Nat} (h : Waiting (R 0).s t n)
    (hr : Reachable (R 0)) (hcalls : ∀ i < k, Call (R i) (R (i + 1))) (hk : n ≤ k) :
    ∃ i ≤ n, (R i).s.current = t := by
  induction n using Nat.strongRecOn generalizing R k with
  | ind n ih =>
    have hn : n ≠ 0 := by
      rintro rfl
      exact h.ne_current h.behind.symm
    obtain ⟨k, rfl⟩ : ∃ m, k = m + 1 := ⟨k - 1, by omega⟩
    obtain ⟨pick, now, fpu, e, ret, he, hc, hexec⟩ := hcalls 0 (Nat.succ_pos k)
    obtain ⟨l, hl⟩ := reachable_inv hr
    obtain ⟨exited, hcore⟩ := hl.enter he now fpu
    obtain ⟨hpre, -⟩ := exec_call hc hl.inv.active hexec
    rcases (h.enter e now fpu).preempt hcore hpre with hnow | ⟨m, hm, hw⟩
    · exact ⟨1, by omega, hnow⟩
    · obtain ⟨i, hi, hreach⟩ := ih m hm (R := fun i => R (i + 1)) hw
        (hr.step (hcalls 0 (Nat.succ_pos k)).step)
        (fun i hi => hcalls (i + 1) (Nat.succ_lt_succ hi)) (k := k) (by omega)
      exact ⟨i + 1, by omega, hreach⟩

/-- The idle thread has number 0. -/
theorem reachable_idle_id {r : Run} (h : Reachable r) : (r.s.thread r.idle).id = 0 := by
  refine (h.invariant (I := fun r => (∃ l, RunInv r l) ∧ (r.s.thread r.idle).id = 0) ?_ ?_).2
  · intro r hr
    refine ⟨start_inv hr, ?_⟩
    obtain ⟨b, pick, now, fpu, s, hb, hstart, rfl⟩ := hr
    obtain ⟨l, hb⟩ := booted_inv hb
    obtain ⟨-, -, -, -, hid, -⟩ := schedStart_spec (s := { b.s with ticks := now, fpu := fpu })
      hb.ring ⟨hb.owns.heap_ok, hb.owns.hi_le, hb.owns.live⟩
      (fun t ht => by rw [show (_ : Scheduler).thread t = _ from rfl, hb.ready t ht]; simp) hstart
    exact hid
  · intro r r' hr hst
    obtain ⟨⟨l, hl⟩, hid⟩ := hr
    obtain ⟨pick, now, fpu, e, ret, he, hexec⟩ := hst
    obtain ⟨r'', ret'', l', hexec', hinv, -⟩ := exec_spec pick now fpu hl he
    rw [hexec] at hexec'
    cases hexec'
    refine ⟨⟨l', hinv⟩, ?_⟩
    by_cases hc : e.Calls now r
    · obtain ⟨exited, hcore⟩ := hl.enter he now fpu
      obtain ⟨hpre, hidle⟩ := exec_call hc hl.inv.active hexec
      rw [hidle, schedPreempt_idle hcore hpre, (e.enter_thread now fpu r r.idle).2.1]
      exact hid
    · cases e with
      | create name fn arg =>
        have hs := hl.inv.clocked now fpu
        obtain ⟨s', t, heq, hcase⟩ := createThread_spec pick name fn arg (.inr hs.ring) hs.owns
        simp only [exec, heq, Option.map_some, Option.some.injEq, Prod.mk.injEq] at hexec
        rcases hcase with ⟨rfl, -, ⟨heap, rfl⟩, -⟩ | ⟨⟨l', hj⟩, -, -⟩
        · rw [← hexec.1, Run.created, if_pos rfl]
          exact hid
        · obtain ⟨v, hv⟩ := hj.old r.idle hl.inv.idle_mem
          rw [← hexec.1, Run.created, if_neg hj.ne_zero]
          simp only [hv]
          exact hid
      | tick rsp =>
        rw [Event.Calls, not_not] at hc
        simp only [exec] at hexec
        rw [schedTick, if_neg (by simp [hl.inv.active]), if_pos hc, Option.map_some] at hexec
        cases hexec
        exact hid
      | yield _ => exact absurd trivial hc
      | exit _ => exact absurd trivial hc
      | sleep _ _ => exact absurd trivial hc

/-- In a run no call of `sched_preempt` makes a zombie or a thread that sleeps on current, nor a
    thread with number 0, as idle has, while one with another number is ready or running; and in
    every row of calls a ready thread with such a number, `n` steps behind `current`, becomes
    current in at most `n` calls. -/
theorem schedPreempt_fair :
    (∀ (r r' : Run) (pick : Pick) (now : Nat) (fpu : Fx) (e : Event) (ret : Nat), Reachable r →
      e.Ok r → e.Calls now r → exec pick now fpu r e = some (r', ret) →
      (r.s.thread r.idle).id = 0 ∧
      (((e.enter now fpu r).thread r'.s.current).state ≠ .zombie ∧
        ¬(((e.enter now fpu r).thread r'.s.current).state = .sleeping ∧
          now < ((e.enter now fpu r).thread r'.s.current).wakeTick)) ∧
      ((r.s.thread r'.s.current).id = 0 → ∀ k, (r.s.thread (r.s.behind k)).id ≠ 0 →
        (wake now ((e.enter now fpu r).thread (r.s.behind k))).runnable = false)) ∧
    ∀ (R : Nat → Run) (k t n : Nat), Reachable (R 0) → (∀ i < k, Call (R i) (R (i + 1))) →
      ((R 0).s.thread t).state = .ready → ((R 0).s.thread t).id ≠ 0 → t ≠ (R 0).s.current →
      (R 0).s.behind n = t → n ≤ k → ∃ i ≤ n, (R i).s.current = t := by
  refine ⟨fun r r' pick now fpu e ret hr he hc hexec => ?_,
    fun R k t n hr hcalls hready hid hne hn hk =>
      Waiting.reached ⟨hready, hid, hne, hn⟩ hr hcalls hk⟩
  obtain ⟨l, hl⟩ := reachable_inv hr
  obtain ⟨exited, hcore⟩ := hl.enter he now fpu
  obtain ⟨hpre, -⟩ := exec_call hc hl.inv.active hexec
  obtain ⟨hrun, hother⟩ := schedPreempt_choice hcore hpre
  rw [(e.enter_current now fpu r).2] at hrun hother
  refine ⟨reachable_idle_id hr, ⟨fun hz => ?_, fun hsleep => ?_⟩, fun hid k hk => ?_⟩
  · rw [runnable_iff] at hrun
    have hzombie : (wake now _).state = .zombie := wake_zombie.mpr hz
    simp [hzombie] at hrun
  · rw [wake, if_neg (fun hw => absurd hw.2 (Nat.not_le.mpr hsleep.2)), runnable_iff] at hrun
    simp [hsleep.1] at hrun
  · have hmem : r.s.behind k ∈ l := by
      obtain ⟨pre, post, hsplit, hrot⟩ := hl.inv.toCore.rotate
      obtain ⟨pre', post', hsplit', -⟩ := hrot.split_iterate k
      have hin : r.s.behind k ∈ r.s.current :: post ++ pre := by
        rw [hsplit']
        exact List.mem_append_right _ (List.mem_cons_self ..)
      rw [hsplit]
      simp only [List.cons_append, List.mem_cons, List.mem_append] at hin ⊢
      tauto
    refine hother ?_ _ hmem ?_
    · rw [(e.enter_thread now fpu r _).2.1]
      exact hid
    · rw [(e.enter_thread now fpu r _).2.1]
      exact hk

/-- The idle thread yields to the second of two threads, which exits. -/
def bootYield : Run := ((exec bootPick 1 5 bootRun (.yield 0x9000)).getD (bootRun, 0)).1

def bootExit : Run := ((exec bootPick 2 6 bootYield (.exit 0x16ff00)).getD (bootRun, 0)).1

theorem exec_bootYield : exec bootPick 1 5 bootRun (.yield 0x9000) = some (bootYield, 0x16ff60) := by
  have h := eq_some_getD (d := (bootRun, 0))
    (show (exec bootPick 1 5 bootRun (.yield 0x9000)).isSome = true by decide +kernel)
  refine h.trans (congrArg some (Prod.ext rfl ?_))
  decide +kernel

theorem exec_bootExit : ∃ ret, exec bootPick 2 6 bootYield (.exit 0x16ff00) = some (bootExit, ret) :=
  ⟨_, eq_some_getD (by decide +kernel)⟩

/-- The first thread, two steps behind idle, runs after two calls, and the exited one is not what
    the second call makes current. -/
theorem schedPreempt_fair_boot :
    (∃ i ≤ 2, ([bootRun, bootYield, bootExit].getD i bootExit).s.current = 0x100000) ∧
    (((Event.exit 0x16ff00).enter 2 6 bootYield).thread bootYield.s.current).state = .zombie ∧
    (((Event.exit 0x16ff00).enter 2 6 bootYield).thread bootExit.s.current).state ≠ .zombie := by
  have hyield : Call bootRun bootYield :=
    ⟨bootPick, 1, 5, .yield 0x9000, _, trivial, trivial, exec_bootYield⟩
  have hok : (Event.exit 0x16ff00).Ok bootYield := by rw [Event.Ok]; decide +kernel
  obtain ⟨ret, hexit⟩ := exec_bootExit
  refine ⟨?_, by decide +kernel, ?_⟩
  · apply schedPreempt_fair.2 (fun i => [bootRun, bootYield, bootExit].getD i bootExit) 2
    · exact .init start_bootRun
    · intro i hi
      obtain rfl | rfl : i = 0 ∨ i = 1 := by omega
      · exact hyield
      · exact ⟨bootPick, 2, 6, .exit 0x16ff00, ret, hok, trivial, hexit⟩
    · decide
    · decide
    · decide
    · decide
    · exact Nat.le_refl 2
  · exact (schedPreempt_fair.1 bootYield bootExit bootPick 2 6 (.exit 0x16ff00) ret
      (.step (.init start_bootRun) hyield.step) hok trivial hexit).2.1.1

end ChocoOs.Sched
