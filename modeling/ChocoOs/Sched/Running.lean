import ChocoOs.Sched.Fairness

/-!
# The running thread

`current` runs and no other thread does. A call of `sched_preempt` writes the states in waking
and in switching. When it stays with `current` it writes neither, so a thread that has gone to
sleep and is woken by its own call stays `T_READY` while it runs.
-/

namespace ChocoOs.Sched
open ProgLib

/-- `current` is `T_RUNNING`, and no other thread in the ring is. -/
structure OneRuns (s : Scheduler) : Prop where
  runs : (s.thread s.current).state = .running
  only : ∀ k, s.behind k ≠ s.current → (s.thread (s.behind k)).state ≠ .running

/-- The threads in the ring are those behind `current`. -/
theorem mem_iff_behind {s : Scheduler} {l : List Nat} {x : Nat}
    (h : Ring (fun t => (s.thread t).next) l x) (hcur : s.current ∈ l) {t : Nat} :
    t ∈ l ↔ ∃ k, s.behind k = t := by
  obtain ⟨pre, post, rfl⟩ := List.append_of_mem hcur
  have hrot := h.rotate
  have hperm : (s.current :: post ++ pre).Perm (pre ++ s.current :: post) := List.perm_append_comm
  rw [← hperm.mem_iff]
  constructor
  · intro ht
    obtain ⟨front, back, hback⟩ := List.append_of_mem ht
    rw [hback] at hrot
    exact ⟨front.length, hrot.iterate_length⟩
  · rintro ⟨k, rfl⟩
    obtain ⟨front, back, hback, -⟩ := hrot.split_iterate k
    rw [hback]
    exact List.mem_append_right _ (List.mem_cons_self ..)

theorem oneRuns_iff {s : Scheduler} {l : List Nat} {x : Nat}
    (h : Ring (fun t => (s.thread t).next) l x) (hcur : s.current ∈ l) :
    OneRuns s ↔ ∀ t ∈ l, (s.thread t).state = .running ↔ t = s.current := by
  constructor
  · intro hone t ht
    obtain ⟨k, rfl⟩ := (mem_iff_behind h hcur).mp ht
    constructor
    · intro hrun
      by_contra hne
      exact hone.only k hne hrun
    · intro heq
      rw [heq]
      exact hone.runs
  · intro hall
    refine ⟨(hall _ hcur).mpr rfl, fun k hne hrun => ?_⟩
    exact hne ((hall _ ((mem_iff_behind h hcur).mpr ⟨k, rfl⟩)).mp hrun)

/-! ## One call -/

/-- The search comes back to `current`, if another thread is runnable, only for want of a thread
    other than idle. -/
theorem pickNext_current {s : Scheduler} {xs : List Nat} {other : Nat}
    (h : Ring (fun t => (s.thread t).next) (s.current :: xs) s.current)
    (hlen : (s.current :: xs).length < addrSpace) (h0 : ∀ t ∈ s.current :: xs, t ≠ 0)
    (hother : other ∈ xs) (hrun : (s.thread other).runnable = true) :
    pickNext s = some s.current ↔
      (s.thread s.current).wanted = true ∧ ∀ t ∈ xs, (s.thread t).wanted = false := by
  have hnot : s.current ∉ xs := (List.nodup_cons.mp h.nodup).1
  obtain ⟨y, hy, hpick⟩ := pickNext_eq h hlen
  cases hfind : xs.find? fun t => (s.thread t).wanted with
  | some t =>
    have ht : t ∈ xs := List.mem_of_find?_eq_some hfind
    have hwant : (s.thread t).wanted = true :=
      List.find?_some (p := fun t => (s.thread t).wanted) hfind
    rw [hfind, Option.getD_some] at hy
    subst hy
    rw [hpick, if_pos (h0 y (List.mem_cons_of_mem _ ht))]
    constructor
    · intro heq
      cases heq
      exact absurd ht hnot
    · rintro ⟨-, hall⟩
      rw [hall y ht] at hwant
      cases hwant
  | none =>
    have hall : ∀ t ∈ xs, (s.thread t).wanted = false := by
      intro t ht
      simpa using List.find?_eq_none.mp hfind t ht
    rw [hfind, Option.getD_none] at hy
    by_cases hwant : (s.thread s.current).wanted = true
    · rw [if_pos hwant] at hy
      subst hy
      rw [hpick, if_pos (h0 _ (List.mem_cons_self ..))]
      exact ⟨fun _ => ⟨hwant, hall⟩, fun _ => rfl⟩
    · -- the second search stops at the other thread at the latest
      rw [if_neg hwant] at hy
      subst hy
      rw [hpick, if_neg (not_not.mpr rfl), findThread_eq h hlen]
      refine ⟨fun heq => ?_, fun hw => absurd hw.1 hwant⟩
      obtain ⟨z, hz⟩ : ∃ z, xs.find? (fun t => (s.thread t).runnable) = some z := by
        apply Option.isSome_iff_exists.mp
        exact List.find?_isSome.mpr ⟨other, hother, hrun⟩
      rw [hz, Option.getD_some] at heq
      cases heq
      exact absurd (List.mem_of_find?_eq_some hz) hnot

/-- What a call leaves of the states: it stays with `current`, and the states are those after
    waking, or it switches, and the thread that it leaves does not run any more. -/
theorem schedPreempt_states {s s' : Scheduler} {l : List Nat} {idle rsp ret : Nat}
    {exited : List Nat} (h : Core s l idle exited) (hpre : schedPreempt s rsp = some (s', ret)) :
    ∃ l', Core s' l' idle exited ∧ l' ⊆ l ∧
      ((s'.current = s.current ∧
          ∀ t ∈ l', (s'.thread t).state = (wake s.ticks (s.thread t)).state) ∨
        (s'.current ≠ s.current ∧ (s'.thread s'.current).state = .running ∧
          (s'.thread s.current).state ≠ .running ∧
          ∀ t ∈ l', t ≠ s.current → t ≠ s'.current →
            (s'.thread t).state = (wake s.ticks (s.thread t)).state)) := by
  obtain ⟨s₂, l₂, n, h₂, hre, -, hn, -, heq⟩ := schedPreempt_eq h rsp
  have hstate : ∀ t ∈ l₂, (s₂.thread t).state = (wake s.ticks (s.thread t)).state := by
    intro t ht
    obtain ⟨v, hv⟩ := hre.kept t ht
    rw [hv, woken_thread (hre.subset ht)]
  have hcur : s₂.current = s.current := hre.current
  rw [heq] at hpre
  by_cases hstay : n = s₂.current
  · rw [if_pos hstay] at hpre
    cases hpre
    exact ⟨l₂, h₂, hre.subset, .inl ⟨hcur, hstate⟩⟩
  · rw [if_neg hstay] at hpre
    have hs' : s' = (switchTo s₂ n rsp).1 := congrArg Prod.fst (Option.some.inj hpre).symm
    have hcur' : s'.current = n := by rw [hs']; rfl
    obtain ⟨hinv, -⟩ := switchTo_spec h₂ hn hstay rsp
    refine ⟨l₂, hs' ▸ hinv.toCore, hre.subset, .inr ⟨?_, ?_, ?_, ?_⟩⟩
    · rw [hcur', ← hcur]
      exact hstay
    · rw [hcur', hs']
      simp [switchTo, Scheduler.setState, Scheduler.setThread]
    · rw [← hcur, hs']
      simp only [switchTo, Scheduler.setState, Scheduler.setThread,
        Function.update_of_ne (Ne.symm hstay), Function.update_self]
      split
      · exact fun hc => by cases hc
      · assumption
    · intro t ht htc htn
      rw [hs', switchTo_thread_of_ne rsp (hcur' ▸ htn) (hcur ▸ htc)]
      exact hstate t ht

/-- A call stays with `current`, if this is not idle, exactly when it is the only thread that can
    run. -/
theorem schedPreempt_stays {s s' : Scheduler} {l : List Nat} {idle rsp ret : Nat}
    {exited : List Nat} (h : Core s l idle exited) (hidle : s.current ≠ idle)
    (hpre : schedPreempt s rsp = some (s', ret)) :
    s'.current = s.current ↔ (wake s.ticks (s.thread s.current)).wanted = true ∧
      ∀ t ∈ l, t ≠ s.current → (wake s.ticks (s.thread t)).wanted = false := by
  obtain ⟨s₂, l₂, n, h₂, hre, hpick, hn, -, heq⟩ := schedPreempt_eq h rsp
  have hcur : s₂.current = s.current := hre.current
  have hkept : ∀ t ∈ l₂, (s₂.thread t).wanted = (wake s.ticks (s.thread t)).wanted := by
    intro t ht
    obtain ⟨v, hv⟩ := hre.kept t ht
    rw [hv, woken_thread (hre.subset ht)]
    rfl
  have hgone : ∀ t ∈ l, t ∉ l₂ → (wake s.ticks (s.thread t)).wanted = false := by
    intro t ht hn
    have hz := (hre.gone t ht hn).1
    rw [woken_thread ht] at hz
    simp [Thread.wanted, Thread.runnable, hz]
  -- the call stays when the search comes back to `current`
  have hstays : s'.current = s.current ↔ n = s₂.current := by
    rw [heq] at hpre
    have hs' := congrArg (fun c : Scheduler × Nat => c.1.current) (Option.some.inj hpre).symm
    simp only at hs'
    by_cases hstay : n = s₂.current
    · rw [hs', if_pos hstay, ← hcur]
      exact iff_of_true rfl hstay
    · rw [hs', if_neg hstay, ← hcur]
      exact iff_of_false hstay hstay
  obtain ⟨pre, post, hsplit, hrot⟩ := h₂.rotate
  have hperm : (s₂.current :: (post ++ pre)).Perm l₂ := by
    rw [hsplit]
    exact (List.perm_append_comm : (s₂.current :: post ++ pre).Perm (pre ++ s₂.current :: post))
  have hnot : s₂.current ∉ post ++ pre := (List.nodup_cons.mp hrot.nodup).1
  have hothers : ∀ t, t ∈ post ++ pre ↔ t ∈ l₂ ∧ t ≠ s.current := by
    intro t
    rw [← hperm.mem_iff, List.mem_cons, ← hcur]
    constructor
    · intro ht
      exact ⟨.inr ht, fun he => hnot (he ▸ ht)⟩
    · rintro ⟨ht, hne⟩
      exact ht.resolve_left hne
  have hreturn := pickNext_current hrot
    (hperm.length_eq ▸ h₂.owns.length_lt h₂.ring.nodup)
    (fun t ht => h₂.ne_zero (hperm.mem_iff.mp ht))
    ((hothers idle).mpr ⟨h₂.idle_mem, hidle.symm⟩) h₂.idle_runnable
  rw [hpick, Option.some.injEq] at hreturn
  rw [hstays, hreturn, hkept _ h₂.current_mem, hcur]
  refine and_congr_right fun _ => ⟨fun hall t ht hne => ?_, fun hall t ht => ?_⟩
  · by_cases ht₂ : t ∈ l₂
    · rw [← hkept t ht₂]
      exact hall t ((hothers t).mpr ⟨ht₂, hne⟩)
    · exact hgone t ht ht₂
  · obtain ⟨ht₂, hne⟩ := (hothers t).mp ht
    rw [hkept t ht₂]
    exact hall t (hre.subset ht₂) hne

/-- A call keeps that no thread but `current` runs, and `current` runs afterwards if it did
    before or if the call switches. -/
theorem schedPreempt_oneRuns {s s' : Scheduler} {l : List Nat} {idle rsp ret : Nat}
    {exited : List Nat} (h : Core s l idle exited)
    (honly : ∀ t ∈ l, (s.thread t).state = .running → t = s.current)
    (hpre : schedPreempt s rsp = some (s', ret)) :
    OneRuns s' ↔ ((s.thread s.current).state = .running ∨ s'.current ≠ s.current) := by
  obtain ⟨l', h', hsub, hcase⟩ := schedPreempt_states h hpre
  have hwake : ∀ t : Thread, (wake s.ticks t).state = .running ↔ t.state = .running := by
    intro t
    unfold wake
    split
    · next hw => simp [hw.1]
    · exact Iff.rfl
  rw [oneRuns_iff h'.ring h'.current_mem]
  rcases hcase with ⟨hstay, hstate⟩ | ⟨hswitch, hnew, hold, hstate⟩
  · have hiff : ∀ t ∈ l', (s'.thread t).state = .running ↔ (s.thread t).state = .running := by
      intro t ht
      rw [hstate t ht, hwake]
    rw [or_iff_left (not_not.mpr hstay), ← hstay]
    constructor
    · intro hall
      exact (hiff _ h'.current_mem).mp ((hall _ h'.current_mem).mpr rfl)
    · intro hrun t ht
      rw [hiff t ht]
      refine ⟨fun hr => hstay ▸ honly t (hsub ht) hr, ?_⟩
      rintro rfl
      exact hrun
  · refine iff_of_true (fun t ht => ⟨fun hr => ?_, ?_⟩) (.inr hswitch)
    · by_contra hne
      by_cases htc : t = s.current
      · exact hold (htc ▸ hr)
      · rw [hstate t ht htc hne, hwake] at hr
        exact htc (honly t (hsub ht) hr)
    · rintro rfl
      exact hnew

/-! ## Runs -/

/-- A sleep is not over at once, or there is another thread than idle to run meanwhile. -/
def Event.Leaves (now : Nat) (r : Run) : Event → Prop
  | .sleep ms _ => now < add64 now ms ∨ (r.s.thread r.s.current).id = 0 ∨
      ∃ k, r.s.behind k ≠ r.s.current ∧ (wake now (r.s.thread (r.s.behind k))).wanted = true
  | _ => True

/-- A step of a run in which no thread goes to sleep for no time while it is the only one to run. -/
def LeavesStep (r r' : Run) : Prop :=
  ∃ (pick : Pick) (now : Nat) (fpu : Fx) (e : Event) (ret : Nat),
    e.Ok r ∧ e.Leaves now r ∧ exec pick now fpu r e = some (r', ret)

theorem LeavesStep.step {r r' : Run} (h : LeavesStep r r') : Step r r' :=
  let ⟨pick, now, fpu, e, ret, he, _, hexec⟩ := h
  ⟨pick, now, fpu, e, ret, he, hexec⟩

/-- The thread that goes to sleep keeps the processor exactly when the sleep does not leave it. -/
theorem sleep_stays {r : Run} {l : List Nat} {s' : Scheduler} {ms rsp now ret : Nat} {fpu : Fx}
    (h : RunInv r l) (hidle : r.s.current ≠ r.idle)
    (hpre : schedPreempt ((Event.sleep ms rsp).enter now fpu r) rsp = some (s', ret)) :
    s'.current ≠ r.s.current ↔ (Event.sleep ms rsp).Leaves now r := by
  obtain ⟨exited, hcore⟩ := h.enter (e := .sleep ms rsp) hidle now fpu
  obtain ⟨hcur, hticks⟩ := (Event.sleep ms rsp).enter_current now fpu r
  have hthread := (Event.sleep ms rsp).enter_thread now fpu r
  have hstays := schedPreempt_stays hcore (hcur ▸ hidle) hpre
  rw [hcur, hticks] at hstays
  have hself : (wake now (((Event.sleep ms rsp).enter now fpu r).thread r.s.current)).wanted = true ↔
      add64 now ms ≤ now ∧ (r.s.thread r.s.current).id ≠ 0 := by
    rw [wanted_iff, (wake_same _ _).2.2.2.2, (hthread _).2.1]
    refine and_congr_left fun _ => ?_
    have hrecord : ((Event.sleep ms rsp).enter now fpu r).thread r.s.current =
        { r.s.thread r.s.current with state := .sleeping, wakeTick := add64 now ms } := by
      simp [Event.enter, Scheduler.setThread]
    rw [hrecord, wake, runnable_iff]
    split
    · next hw => simpa using hw
    · next hw => simpa using hw
  rw [Event.Leaves, Ne, hstays, hself]
  constructor
  · intro hnot
    by_contra hleaves
    rw [not_or, not_or, not_exists, Nat.not_lt] at hleaves
    refine hnot ⟨⟨hleaves.1, hleaves.2.1⟩, fun t ht hne => ?_⟩
    obtain ⟨k, rfl⟩ := (mem_iff_behind h.inv.ring h.inv.current_mem).mp ht
    rw [(hthread _).2.2 hne, Bool.eq_false_iff]
    exact fun hw => hleaves.2.2 k ⟨hne, hw⟩
  · rintro (hlater | hid | ⟨k, hne, hw⟩) ⟨⟨hdue, hid'⟩, hall⟩
    · exact absurd hdue (Nat.not_le.mpr hlater)
    · exact hid' hid
    · have := hall _ ((mem_iff_behind h.inv.ring h.inv.current_mem).mpr ⟨k, rfl⟩) hne
      rw [(hthread _).2.2 hne, hw] at this
      cases this

/-- A new thread is ready. -/
theorem Joined.oneRuns {s s' : Scheduler} {l l' : List Nat} {t : Nat} (h : Joined s l t s' l')
    (hcur : s.current ∈ l) (hready : (s'.thread t).state = .ready)
    (hall : ∀ x ∈ l, (s.thread x).state = .running ↔ x = s.current) : OneRuns s' := by
  have hmem : s'.current ∈ l' := h.current ▸ h.perm.mem_iff.mpr (List.mem_cons_of_mem _ hcur)
  apply (oneRuns_iff h.ring hmem).mpr
  intro x hx
  rw [h.current]
  rcases List.mem_cons.mp (h.perm.mem_iff.mp hx) with rfl | hx
  · rw [hready]
    refine iff_of_false (fun hc => by cases hc) ?_
    rintro rfl
    exact h.fresh hcur
  · obtain ⟨v, hv⟩ := h.old x hx
    rw [hv]
    exact hall x hx

/-- After an event `current` alone runs exactly when the event leaves the processor. -/
theorem exec_oneRuns {pick : Pick} {now : Nat} {fpu : Fx} {r r' : Run} {l : List Nat} {e : Event}
    {ret : Nat} (h : RunInv r l) (hone : OneRuns r.s) (he : e.Ok r)
    (hexec : exec pick now fpu r e = some (r', ret)) : OneRuns r'.s ↔ e.Leaves now r := by
  have hall := (oneRuns_iff h.inv.ring h.inv.current_mem).mp hone
  by_cases hc : e.Calls now r
  · obtain ⟨exited, hcore⟩ := h.enter he now fpu
    obtain ⟨hpre, -⟩ := exec_call hc h.inv.active hexec
    obtain ⟨hcur, hticks⟩ := e.enter_current now fpu r
    have honly : ∀ t ∈ l, ((e.enter now fpu r).thread t).state = .running →
        t = (e.enter now fpu r).current := by
      intro t ht hrun
      by_contra hne
      rw [hcur] at hne
      rw [(e.enter_thread now fpu r t).2.2 hne] at hrun
      exact hne ((hall t ht).mp hrun)
    rw [schedPreempt_oneRuns hcore honly hpre, hcur]
    cases e with
    | create _ _ _ => exact hc.elim
    | tick rsp => exact iff_of_true (.inl hone.runs) trivial
    | yield rsp => exact iff_of_true (.inl hone.runs) trivial
    | exit rsp =>
      refine iff_of_true (.inr fun hstay => ?_) trivial
      have hw := ((schedPreempt_stays hcore he hpre).mp hstay).1
      rw [wanted_iff, runnable_iff] at hw
      have hz : (wake ((Event.exit rsp).enter now fpu r).ticks
          (((Event.exit rsp).enter now fpu r).thread r.s.current)).state = .zombie := by
        rw [wake_zombie]
        simp [Event.enter, Scheduler.setState, Scheduler.setThread]
      rw [show ((Event.exit rsp).enter now fpu r).current = r.s.current from rfl, hz] at hw
      simp at hw
    | sleep ms rsp =>
      rw [sleep_stays h he hpre, or_iff_right]
      simp [Event.enter, Scheduler.setThread]
  · cases e with
    | create name fn arg =>
      refine iff_of_true ?_ trivial
      have hs := h.inv.clocked now fpu
      obtain ⟨s', t, heq, hcase⟩ := createThread_spec pick name fn arg (.inr hs.ring) hs.owns
      simp only [exec, heq, Option.map_some, Option.some.injEq, Prod.mk.injEq] at hexec
      rw [← hexec.1]
      rcases hcase with ⟨rfl, -, ⟨heap, rfl⟩, -⟩ | ⟨⟨l', hj⟩, hready, -⟩
      · rw [Run.created, if_pos rfl]
        exact ⟨hone.runs, hone.only⟩
      · rw [Run.created, if_neg hj.ne_zero]
        exact hj.oneRuns h.inv.current_mem hready hall
    | tick rsp =>
      rw [Event.Calls, not_not] at hc
      simp only [exec] at hexec
      rw [schedTick, if_neg (by simp [h.inv.active]), if_pos hc, Option.map_some] at hexec
      cases hexec
      exact iff_of_true ⟨hone.runs, hone.only⟩ trivial
    | yield _ => exact absurd trivial hc
    | exit _ => exact absurd trivial hc
    | sleep _ _ => exact absurd trivial hc

/-- The idle thread runs after `sched_start`, and the others are ready. -/
theorem start_oneRuns {r : Run} (h : Start r) : OneRuns r.s := by
  obtain ⟨l, hl⟩ := start_inv h
  obtain ⟨b, pick, now, fpu, s, hb, hstart, rfl⟩ := h
  obtain ⟨l₀, hb⟩ := booted_inv hb
  obtain ⟨l', hinv, hperm, -, -, hold⟩ := schedStart_spec (s := { b.s with ticks := now, fpu := fpu })
    hb.ring ⟨hb.owns.heap_ok, hb.owns.hi_le, hb.owns.live⟩
    (fun t ht => by rw [show (_ : Scheduler).thread t = _ from rfl, hb.ready t ht]; simp) hstart
  have hidle : (s.thread s.current).state = .running := by
    simp only [schedStart] at hstart
    split at hstart
    · cases hstart
    · cases hstart
      obtain ⟨v, hv⟩ := ringInsert_thread (Scheduler.setThread { b.s with
        ticks := now, fpu := fpu, heap := (b.s.heap.alloc pick threadSize).2 }
        (b.s.heap.alloc pick threadSize).1
        { fxsave := fxareaInit, name := idleName, state := .running })
        (b.s.heap.alloc pick threadSize).1 (b.s.heap.alloc pick threadSize).1
      simp only [hv]
      simp [Scheduler.setThread]
  apply (oneRuns_iff hinv.ring hinv.current_mem).mpr
  intro t ht
  by_cases hcur : t = s.current
  · exact iff_of_true (hcur ▸ hidle) hcur
  · refine iff_of_false (fun hrun => ?_) hcur
    have hmem := (List.mem_cons.mp (hperm.mem_iff.mp ht)).resolve_left hcur
    obtain ⟨v, hv⟩ := hold t hmem
    have hready := hb.ready t hmem
    simp only [hv] at hrun
    rw [hready] at hrun
    cases hrun

theorem leaves_inv {r : Run} (h : Reach Start LeavesStep r) : (∃ l, RunInv r l) ∧ OneRuns r.s := by
  refine h.invariant (I := fun r => (∃ l, RunInv r l) ∧ OneRuns r.s)
    (fun r hr => ⟨start_inv hr, start_oneRuns hr⟩) ?_
  rintro r r' ⟨⟨l, hl⟩, hone⟩ ⟨pick, now, fpu, e, ret, he, hleaves, hexec⟩
  obtain ⟨r'', ret'', l', hexec', hinv, -⟩ := exec_spec pick now fpu hl he
  rw [hexec] at hexec'
  cases hexec'
  exact ⟨⟨l', hinv⟩, (exec_oneRuns hl hone he hexec).mpr hleaves⟩

/-- In every run in which no thread goes to sleep for no time while it is the only one but idle
    that can run, `current` is always `T_RUNNING` and no other thread is. Such a sleep, after such
    a run, leaves `current` in another state. -/
theorem one_running {r : Run} (h : Reach Start LeavesStep r) : OneRuns r.s ∧
    ∀ (r' : Run) (pick : Pick) (now : Nat) (fpu : Fx) (e : Event) (ret : Nat), e.Ok r →
      exec pick now fpu r e = some (r', ret) → (OneRuns r'.s ↔ e.Leaves now r) := by
  obtain ⟨⟨l, hl⟩, hone⟩ := leaves_inv h
  refine ⟨hone, fun r' pick now fpu e ret he hexec => ?_⟩
  exact exec_oneRuns hl hone he hexec

/-- One of two threads has exited; the other sleeps for 10 ms. -/
theorem one_running_boot : OneRuns bootExit.s ∧ ∃ (r' : Run) (ret : Nat),
    exec bootPick 3 7 bootExit (.sleep 10 0x12ff00) = some (r', ret) ∧ OneRuns r'.s := by
  have hok : (Event.exit 0x16ff00).Ok bootYield := by rw [Event.Ok]; decide +kernel
  obtain ⟨ret, hexit⟩ := exec_bootExit
  have hstart : Reach Start LeavesStep bootRun := .init start_bootRun
  have hyield : Reach Start LeavesStep bootYield :=
    hstart.step ⟨bootPick, 1, 5, .yield 0x9000, _, trivial, trivial, exec_bootYield⟩
  have hrun : Reach Start LeavesStep bootExit :=
    hyield.step ⟨bootPick, 2, 6, .exit 0x16ff00, ret, hok, trivial, hexit⟩
  obtain ⟨hone, hnext⟩ := one_running hrun
  refine ⟨hone, ?_⟩
  have hexec := eq_some_getD (d := (bootRun, 0))
    (show (exec bootPick 3 7 bootExit (.sleep 10 0x12ff00)).isSome = true by decide +kernel)
  have hok : (Event.sleep 10 0x12ff00).Ok bootExit := by rw [Event.Ok]; decide +kernel
  refine ⟨_, _, hexec, (hnext _ bootPick 3 7 _ _ hok hexec).mpr (.inl ?_)⟩
  rw [add64, addrSpace_eq]
  decide

/-- The same thread sleeps for 0 ms: its own call wakes it and stays with it. -/
theorem not_one_running : ¬∀ (r r' : Run) (pick : Pick) (now : Nat) (fpu : Fx) (e : Event)
    (ret : Nat), Reachable r → e.Ok r → e.Calls now r → exec pick now fpu r e = some (r', ret) →
    OneRuns r'.s := by
  intro hall
  have hok : (Event.exit 0x16ff00).Ok bootYield := by rw [Event.Ok]; decide +kernel
  obtain ⟨ret, hexit⟩ := exec_bootExit
  have hyield : Reachable bootYield :=
    .step (.init start_bootRun) ⟨bootPick, 1, 5, .yield 0x9000, _, trivial, exec_bootYield⟩
  have hrun : Reachable bootExit := hyield.step ⟨bootPick, 2, 6, .exit 0x16ff00, ret, hok, hexit⟩
  have hexec := eq_some_getD (d := (bootRun, 0))
    (show (exec bootPick 3 7 bootExit (.sleep 0 0x12ff00)).isSome = true by decide +kernel)
  have hone := hall bootExit _ bootPick 3 7 (.sleep 0 0x12ff00) _ hrun
    (by rw [Event.Ok]; decide +kernel) trivial hexec
  exact absurd hone.runs (by decide +kernel)

end ChocoOs.Sched
