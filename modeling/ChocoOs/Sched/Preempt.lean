import ChocoOs.Sched.Invariant
import Mathlib.Data.List.Induction

/-!
# The context switch

The three loops of `sched_preempt` and what they leave: the sleepers are woken, zombies are taken
out of the ring and freed, and the thread that runs next is a runnable one of the ring.
-/

namespace ChocoOs.Sched
open ProgLib

/-! ## Waking -/

theorem wake_same (now : Nat) (t : Thread) : (wake now t).next = t.next ∧
    (wake now t).stackBase = t.stackBase ∧ (wake now t).rsp = t.rsp ∧
    (wake now t).fxsave = t.fxsave ∧ (wake now t).id = t.id := by
  unfold wake
  split <;> simp

theorem wake_runnable {now : Nat} {t : Thread} (h : t.runnable = true) :
    (wake now t).runnable = true := by
  unfold wake
  split
  · rfl
  · exact h

theorem wake_zombie {now : Nat} {t : Thread} :
    (wake now t).state = .zombie ↔ t.state = .zombie := by
  unfold wake
  split
  · next h => simp [h.1]
  · exact Iff.rfl

/-- The wake-up loop ends and wakes every thread of the ring that is due. -/
theorem wakeSleepers_spec {s : Scheduler} {l : List Nat} {idle : Nat} {exited : List Nat}
    (h : Core s l idle exited) : wakeSleepers s = some { s with
      thread := fun t => if t ∈ l then wake s.ticks (s.thread t) else s.thread t } := by
  obtain ⟨pre, post, hsplit⟩ := List.append_of_mem h.current_mem
  have hring := h.ring
  rw [hsplit] at hring
  have hrot := hring.rotate
  set l' := s.current :: post ++ pre with hl'
  have hperm : l'.Perm l := by rw [hsplit]; exact List.perm_append_comm
  have hlen : l'.length < addrSpace := hperm.length_eq ▸ h.owns.length_lt h.ring.nodup
  let I : Scheduler → List Nat → Prop := fun u done => u = { s with
    thread := fun t => if t ∈ done then wake s.ticks (s.thread t) else s.thread t }
  have hexists := hrot.loop_around wakeRound
    (fun u t => u.setThread t (wake u.ticks (u.thread t))) I ?_ hlen (s := s) (by simp [I])
  · obtain ⟨u, hloop, hu⟩ := hexists
    rw [wakeSleepers, hloop, hu]
    simp only [hperm.mem_iff]
  · intro u t done rest hdone hI
    have htnew : t ∉ done := by
      have hnd := hrot.nodup
      rw [hdone] at hnd
      exact fun hm => (List.nodup_append.mp hnd).2.2 t hm t (by simp) rfl
    have hut : u.thread t = s.thread t := by rw [hI]; simp [htnew]
    have hnext : ((u.setThread t (wake u.ticks (u.thread t))).thread t).next =
        (s.thread t).next := by
      simp [Scheduler.setThread, (wake_same _ _).1, hut]
    constructor
    · simp only [I, Scheduler.setThread]
      rw [hut, hI]
      simp only [Scheduler.mk.injEq, and_true]
      funext x
      by_cases hx : x = t
      · subst hx; simp
      · simp [hx]
    · have hcur : (u.setThread t (wake u.ticks (u.thread t))).current = s.current := by
        rw [hI]; rfl
      simp only [wakeRound, hnext, hcur]

/-! ## Reaping -/

/-- What reaping leads to: some zombies other than `current` have left the ring, their blocks
    have been freed, and nothing else has changed but `next` pointers. -/
structure Reaped (s : Scheduler) (l : List Nat) (s' : Scheduler) (l' : List Nat) : Prop where
  current : s'.current = s.current
  ring : s'.ring = s.ring
  active : s'.active = s.active
  ticks : s'.ticks = s.ticks
  fpu : s'.fpu = s.fpu
  sublist : l'.Sublist l
  kept : ∀ t ∈ l', ∃ v, s'.thread t = { s.thread t with next := v }
  gone : ∀ t ∈ l, t ∉ l' → (s.thread t).state = .zombie ∧ t ≠ s.current
  freed : ∀ b ∈ s.heap.live, b ∉ s'.heap.live → ∃ t ∈ l, t ∉ l' ∧ b ∈ blocksOf s.thread t

theorem Reaped.subset {s s' : Scheduler} {l l' : List Nat} (h : Reaped s l s' l') : l' ⊆ l :=
  h.sublist.subset

theorem Reaped.refl (s : Scheduler) (l : List Nat) : Reaped s l s l :=
  ⟨rfl, rfl, rfl, rfl, rfl, List.Sublist.refl l, fun _ _ => ⟨_, rfl⟩,
    fun _ h hn => absurd h hn, fun _ h hn => absurd h hn⟩

theorem Reaped.trans {s s' s'' : Scheduler} {l l' l'' : List Nat} (h : Reaped s l s' l')
    (h' : Reaped s' l' s'' l'') : Reaped s l s'' l'' := by
  have hsame : ∀ t ∈ l', (s'.thread t).state = (s.thread t).state ∧
      blocksOf s'.thread t = blocksOf s.thread t := by
    intro t ht
    obtain ⟨v, hv⟩ := h.kept t ht
    simp [blocksOf, hv]
  refine ⟨h'.current.trans h.current, h'.ring.trans h.ring, h'.active.trans h.active,
    h'.ticks.trans h.ticks, h'.fpu.trans h.fpu, h'.sublist.trans h.sublist, ?_, ?_, ?_⟩
  · intro t ht
    obtain ⟨v, hv⟩ := h.kept t (h'.subset ht)
    obtain ⟨w, hw⟩ := h'.kept t ht
    exact ⟨w, by rw [hw, hv]⟩
  · intro t ht hn
    by_cases ht' : t ∈ l'
    · obtain ⟨hz, hc⟩ := h'.gone t ht' hn
      exact ⟨(hsame t ht').1 ▸ hz, h.current ▸ hc⟩
    · exact h.gone t ht ht'
  · intro b hb hn
    by_cases hb' : b ∈ s'.heap.live
    · obtain ⟨t, ht, htn, hbt⟩ := h'.freed b hb' hn
      exact ⟨t, h.subset ht, htn, (hsame t ht).2 ▸ hbt⟩
    · obtain ⟨t, ht, htn, hbt⟩ := h.freed b hb hb'
      exact ⟨t, ht, fun hm => htn (h'.subset hm), hbt⟩

/-- The blocks of a thread go back to the heap: its stack if it has one, then its record. -/
theorem free_thread {s : Scheduler} {stackBase n : Nat} {rest : List (Nat × Nat)}
    (hok : s.heap.Ok) (hl : s.heap.live.Perm ((n, threadSize) ::
      (if stackBase = 0 then [] else [(stackBase, stackSize)]) ++ rest)) :
    ∃ heap, (s.free stackBase).bind (Scheduler.free n) = some { s with heap := heap } ∧
      heap.live.Perm rest ∧ heap.Ok ∧ heap.hi = s.heap.hi := by
  by_cases h0 : stackBase = 0
  · rw [if_pos h0] at hl
    obtain ⟨heap, hfree, hperm, hok', -, hhi, -⟩ := hok.free hl
    refine ⟨heap, ?_, hperm, hok', hhi⟩
    have hnull : s.free stackBase = some s := by simp [Scheduler.free, Arena.free, h0]
    rw [hnull, Option.bind_some, Scheduler.free, hfree]
    rfl
  · rw [if_neg h0] at hl
    obtain ⟨heap₁, hfree₁, hperm₁, hok₁, -, hhi₁, -⟩ :=
      hok.free (hl.trans (List.Perm.swap _ _ _))
    obtain ⟨heap₂, hfree₂, hperm₂, hok₂, -, hhi₂, -⟩ := hok₁.free hperm₁
    exact ⟨heap₂, by simp [Scheduler.free, hfree₁, hfree₂], hperm₂, hok₂, hhi₂.trans hhi₁⟩

/-- Removing a zombie behind `p`. -/
theorem reapOne_zombie {s : Scheduler} {pre post : List Nat} {idle p n : Nat}
    {exited : List Nat} (h : Core s (pre ++ p :: n :: post) idle exited)
    (hz : (s.thread n).state = .zombie) (hc : n ≠ s.current) (hr : n ≠ s.ring) :
    ∃ s', reapOne s p = some (s', p) ∧ Core s' (pre ++ p :: post) idle exited ∧
      Reaped s (pre ++ p :: n :: post) s' (pre ++ p :: post) := by
  have hnd := h.ring.nodup
  have hnext : (s.thread p).next = n := h.ring.next_eq
  have hnp : p ≠ n := by
    rintro rfl
    simp only [List.nodup_append, List.nodup_cons, List.mem_cons, true_or, not_true_eq_false,
      false_and, and_false] at hnd
  have hnsub : n ∉ pre ++ p :: post := by
    have hp : (pre ++ p :: n :: post).Perm (n :: (pre ++ p :: post)) := by
      rw [show pre ++ p :: n :: post = (pre ++ [p]) ++ n :: post by simp,
        show pre ++ p :: post = (pre ++ [p]) ++ post by simp]
      exact List.perm_middle
    exact (List.nodup_cons.mp (hp.nodup_iff.mp hnd)).1
  have hsub : (pre ++ p :: post).Sublist (pre ++ p :: n :: post) :=
    (List.Sublist.refl pre).append ((List.sublist_cons_self n post).cons_cons p)
  have hin : ∀ t ∈ pre ++ p :: n :: post, t ≠ n → t ∈ pre ++ p :: post := by
    intro t ht hne
    simp only [List.mem_append, List.mem_cons] at ht ⊢
    tauto
  set s₁ := s.setThread p { s.thread p with next := (s.thread n).next } with hs₁
  have hthread : ∀ t, ∃ v, s₁.thread t = { s.thread t with next := v } := by
    intro t
    by_cases htp : t = p
    · subst htp; exact ⟨(s.thread n).next, by simp [hs₁, Scheduler.setThread]⟩
    · exact ⟨(s.thread t).next, by simp [hs₁, Scheduler.setThread, htp]⟩
  have hblocks : ∀ t, blocksOf s₁.thread t = blocksOf s.thread t := by
    intro t
    obtain ⟨v, hv⟩ := hthread t
    simp [blocksOf, hv]
  have hlive : s₁.heap.live.Perm ((n, threadSize) ::
      (if (s.thread n).stackBase = 0 then [] else [((s.thread n).stackBase, stackSize)]) ++
      (pre ++ p :: post).flatMap (blocksOf s.thread)) := by
    refine h.owns.live.trans ?_
    have hp : (pre ++ p :: n :: post).Perm (n :: (pre ++ p :: post)) := by
      rw [show pre ++ p :: n :: post = (pre ++ [p]) ++ n :: post by simp,
        show pre ++ p :: post = (pre ++ [p]) ++ post by simp]
      exact List.perm_middle
    have := hp.flatMap_right (blocksOf s.thread)
    rwa [List.flatMap_cons] at this
  have hstack : (s₁.thread n).stackBase = (s.thread n).stackBase := by
    obtain ⟨v, hv⟩ := hthread n
    rw [hv]
  obtain ⟨heap, hfree, hperm, hok, hhi⟩ := free_thread (s := s₁) h.owns.heap_ok hlive
  refine ⟨{ s₁ with heap := heap }, ?_, ⟨?_, ⟨hok, hhi ▸ h.owns.hi_le, ?_⟩, h.active,
    hin _ h.current_mem hc.symm, hin _ h.idle_mem ?_, ?_, ?_⟩, ⟨rfl, rfl, rfl, rfl, rfl, hsub,
    fun t _ => hthread t, ?_, ?_⟩⟩
  · simp only [reapOne, hnext]
    rw [if_pos ⟨hz, hc, hr⟩, ← hs₁, hstack, hfree]
    rfl
  · refine h.ring.remove ?_ fun z hz => ?_
    · simp [hs₁, Scheduler.setThread]
    · have hzp : z ≠ p := by
        rintro rfl
        have := hnd
        simp only [List.nodup_append, List.nodup_cons, List.mem_cons, not_or] at this
        rcases List.mem_append.mp hz with hm | hm
        · exact this.2.2 z hm z (by simp) rfl
        · exact this.2.1.1.2 hm
      simp [hs₁, Scheduler.setThread, hzp]
  · refine hperm.trans (List.Perm.of_eq (List.flatMap_congr fun t _ => ?_))
    exact (hblocks t).symm
  · rintro rfl
    have := h.idle_runnable
    rw [runnable_iff, hz] at this
    simp at this
  · obtain ⟨v, hv⟩ := hthread idle
    change (s₁.thread idle).runnable = true
    rw [hv]
    exact h.idle_runnable
  · intro t ht hzt
    obtain ⟨v, hv⟩ := hthread t
    change (s₁.thread t).state = .zombie at hzt
    rw [hv] at hzt
    exact h.zombies t (hsub.subset ht) hzt
  · intro t ht hnot
    have htn : t = n := by
      by_contra hne
      exact hnot (hin t ht hne)
    subst htn
    exact ⟨hz, hc⟩
  · intro b hb hnot
    refine ⟨n, by simp, hnsub, ?_⟩
    have hb' := hlive.mem_iff.mp hb
    rw [List.mem_append] at hb'
    rcases hb' with hb' | hb'
    · exact hb'
    · exact absurd (hperm.mem_iff.mpr hb') hnot

/-- `reap_zombies` ends. Each round removes the thread behind the cursor or passes it. -/
theorem reapZombies_spec {s : Scheduler} {l : List Nat} {idle : Nat} {exited : List Nat}
    (h : Core s l idle exited) : ∃ s' l', reapZombies s = some s' ∧ Core s' l' idle exited ∧
      Reaped s l s' l' := by
  have hring0 : s.ring ≠ 0 := by
    have hmem : s.ring ∈ l := List.mem_of_mem_head? h.ring.head
    exact h.ne_zero hmem
  rw [reapZombies, if_neg hring0]
  -- the cursor splits the ring; what lies behind it gets shorter
  let I : Scheduler × Nat → Prop := fun c => ∃ pre post, Core c.1 (pre ++ c.2 :: post) idle exited ∧
    Reaped s l c.1 (pre ++ c.2 :: post)
  let Q : Scheduler → Prop := fun s' => ∃ l', Core s' l' idle exited ∧ Reaped s l s' l'
  let μ : Scheduler × Nat → Nat := fun c =>
    (walk (fun t => (c.1.thread t).next) s.ring addrSpace (c.1.thread c.2).next).elim 0 List.length
  have hμ : ∀ (c : Scheduler × Nat) (pre post : List Nat),
      Core c.1 (pre ++ c.2 :: post) idle exited → c.1.ring = s.ring → μ c = post.length := by
    intro c pre post hc hr
    have hnd := hc.ring.nodup
    have hhead := hc.ring.head
    have hl := hc.ring.linked
    have hlen := hc.owns.length_lt hnd
    rw [linked_append, linked_cons] at hl
    have hnot : ∀ t ∈ post, t ≠ s.ring := by
      rintro t ht rfl
      rw [hr] at hhead
      cases pre with
      | nil =>
        simp only [List.nil_append, List.head?_cons, Option.some.injEq] at hhead
        simp only [List.nil_append, hhead] at hnd
        exact (List.nodup_cons.mp hnd).1 ht
      | cons q pre =>
        simp only [List.cons_append, List.head?_cons, Option.some.injEq] at hhead
        rw [List.cons_append, hhead] at hnd
        exact (List.nodup_cons.mp hnd).1 (by simp [ht])
    have hfuel : post.length < addrSpace := by
      simp only [List.length_append, List.length_cons] at hlen; omega
    have hwalk := Linked.walk_eq (hr ▸ hl.2.2) hnot hfuel
    simp only [μ]
    rw [hl.2.1, hr, hwalk]
    rfl
  have hexists := loop_total reapRound I Q μ ?_ addrSpace (s, s.ring) ?_ ?_
  · obtain ⟨s', hloop, l', hcore, hreaped⟩ := hexists
    exact ⟨s', l', hloop, hcore, hreaped⟩
  · rintro ⟨u, p⟩ ⟨pre, post, hcore, hre⟩
    simp only at hcore hre
    have hmeasure := hμ (u, p) pre post hcore hre.ring
    have hnext : (u.thread p).next = post.headD u.ring := hcore.ring.next_eq
    have hround : reapRound (u, p) = (reapOne u p).map fun r =>
      if r.2 = u.ring then .done r.1 else .next r := rfl
    -- the round passes the thread behind the cursor
    have hpass : ∀ n rest, post = n :: rest → reapOne u p = some (u, n) →
        (∃ r, reapRound (u, p) = some (.done r) ∧ Q r) ∨
        ∃ c, reapRound (u, p) = some (.next c) ∧ I c ∧ μ c < μ (u, p) := by
      rintro n rest rfl hone
      have hcore' : Core u ((pre ++ [p]) ++ n :: rest) idle exited := by simpa using hcore
      have hre' : Reaped s l u ((pre ++ [p]) ++ n :: rest) := by simpa using hre
      rw [hround, hone, Option.map_some]
      by_cases hnr : n = u.ring
      · rw [if_pos hnr]
        exact .inl ⟨u, rfl, _, hcore, hre⟩
      · rw [if_neg hnr]
        refine .inr ⟨(u, n), rfl, ⟨_, _, hcore', hre'⟩, ?_⟩
        rw [hmeasure, hμ (u, n) _ _ hcore' hre.ring]
        simp
    cases post with
    | nil =>
      rw [List.headD_nil] at hnext
      have hone : reapOne u p = some (u, u.ring) := by
        simp [reapOne, hnext]
      rw [hround, hone, Option.map_some, if_pos rfl]
      exact .inl ⟨u, rfl, _, hcore, hre⟩
    | cons n rest =>
      rw [List.headD_cons] at hnext
      by_cases hz : (u.thread n).state = .zombie ∧ n ≠ u.current ∧ n ≠ u.ring
      · obtain ⟨u', hone, hcore', hre'⟩ := reapOne_zombie hcore hz.1 hz.2.1 hz.2.2
        have hre'' := hre.trans hre'
        rw [hround, hone, Option.map_some]
        by_cases hpr : p = u.ring
        · rw [if_pos hpr]
          exact .inl ⟨u', rfl, _, hcore', hre''⟩
        · rw [if_neg hpr]
          refine .inr ⟨(u', p), rfl, ⟨_, _, hcore', hre''⟩, ?_⟩
          rw [hmeasure, hμ (u', p) _ _ hcore' hre''.ring]
          simp
      · exact hpass n rest rfl (by simp only [reapOne, hnext]; rw [if_neg hz])
  · obtain ⟨xs, hxs⟩ := h.ring.eq_cons
    exact ⟨[], xs, by rwa [List.nil_append, ← hxs], by
      rw [List.nil_append, ← hxs]; exact Reaped.refl _ _⟩
  · obtain ⟨xs, hxs⟩ := h.ring.eq_cons
    have hlen := h.owns.length_lt h.ring.nodup
    rw [hμ (s, s.ring) [] xs (by rwa [List.nil_append, ← hxs]) rfl]
    rw [hxs, List.length_cons] at hlen
    omega

/-! ## Choosing -/

/-- The ring read from `current` on. -/
theorem Core.rotate {s : Scheduler} {l : List Nat} {idle : Nat} {exited : List Nat}
    (h : Core s l idle exited) : ∃ pre post, l = pre ++ s.current :: post ∧
      Ring (fun t => (s.thread t).next) (s.current :: post ++ pre) s.current := by
  obtain ⟨pre, post, hsplit⟩ := List.append_of_mem h.current_mem
  have hring := h.ring
  rw [hsplit] at hring
  exact ⟨pre, post, hsplit, hring.rotate⟩

/-- The search finds the first thread that is wanted among those behind `current`, then `current`
    itself, or null. -/
theorem findThread_eq {s : Scheduler} {xs : List Nat}
    (h : Ring (fun t => (s.thread t).next) (s.current :: xs) s.current)
    (hlen : (s.current :: xs).length < addrSpace) (want : Thread → Bool) :
    findThread s want = some ((xs.find? fun t => want (s.thread t)).getD
      (if want (s.thread s.current) then s.current else 0)) := by
  have hlink : Linked (fun t => (s.thread t).next) (xs.map id) s.current := by
    rw [List.map_id]; exact h.linked.2
  have hnext : (s.thread s.current).next = xs.headD s.current := h.linked.1
  have hloop := hlink.loop_find (findRound s want) (fun t => want (s.thread t)) id
    (if want (s.thread s.current) then s.current else 0)
    (by simp only [findRound]; split <;> simp) (fun t ht => ?_)
    (show xs.length < addrSpace by simp only [List.length_cons] at hlen; omega)
  · rw [List.map_id, ← hnext] at hloop
    rw [findThread, hloop, Option.map_id_fun, id]
  · have hne : t ≠ s.current := by
      rintro rfl
      exact (List.nodup_cons.mp h.nodup).1 ht
    simp only [findRound, id, if_neg hne]

/-- The search ends at a thread of the ring that is wanted, or at null if there is none. -/
theorem findThread_spec {s : Scheduler} {l : List Nat} {idle : Nat} {exited : List Nat}
    (h : Core s l idle exited) (want : Thread → Bool) : ∃ t, findThread s want = some t ∧
      ((t = 0 ∧ ∀ x ∈ l, want (s.thread x) = false) ∨ (t ∈ l ∧ want (s.thread t) = true)) := by
  obtain ⟨pre, post, hsplit, hrot⟩ := h.rotate
  have hperm : (s.current :: (post ++ pre)).Perm l := by
    rw [hsplit]
    exact (List.perm_append_comm : (s.current :: post ++ pre).Perm (pre ++ s.current :: post))
  refine ⟨_, findThread_eq hrot (hperm.length_eq ▸ h.owns.length_lt h.ring.nodup) want, ?_⟩
  cases hfind : (post ++ pre).find? fun t => want (s.thread t) with
  | some t =>
    have hmem := List.mem_of_find?_eq_some hfind
    exact .inr ⟨hperm.mem_iff.mp (List.mem_cons_of_mem _ hmem), by simpa using List.find?_some hfind⟩
  | none =>
    cases hc : want (s.thread s.current) with
    | true => exact .inr ⟨h.current_mem, by simpa using hc⟩
    | false =>
      refine .inl ⟨by simp, fun x hx => ?_⟩
      rcases List.mem_cons.mp (hperm.mem_iff.mpr hx) with rfl | hx
      · exact hc
      · simpa using List.find?_eq_none.mp hfind x hx

/-- There is always a thread to run, since idle is runnable. -/
theorem pickNext_spec {s : Scheduler} {l : List Nat} {idle : Nat} {exited : List Nat}
    (h : Core s l idle exited) :
    ∃ t, pickNext s = some t ∧ t ∈ l ∧ (s.thread t).runnable = true := by
  obtain ⟨t, hfind, ht⟩ := findThread_spec h fun t => t.runnable && t.id != 0
  by_cases h0 : t = 0
  · obtain ⟨u, hfind', hu⟩ := findThread_spec h Thread.runnable
    have hu' : u ∈ l ∧ (s.thread u).runnable = true := by
      refine hu.resolve_left fun hz => ?_
      have := hz.2 idle h.idle_mem
      rw [h.idle_runnable] at this
      cases this
    refine ⟨u, ?_, hu'⟩
    rw [pickNext, hfind]
    simp [h0, hfind']
  · obtain ⟨hmem, hw⟩ := ht.resolve_left fun hz => h0 hz.1
    simp only [Bool.and_eq_true] at hw
    refine ⟨t, ?_, hmem, hw.1⟩
    rw [pickNext, hfind]
    simp [h0]

/-! ## Switching -/

/-- What `sched_preempt`, entered with `rsp`, leaves: threads that are gone were zombies and
    not current, and their blocks were freed; a thread that is switched away has its context saved,
    the one switched to gets its saved context back, and the others keep theirs. -/
structure Preempted (s : Scheduler) (l : List Nat) (rsp : Nat) (s' : Scheduler) (l' : List Nat)
    (ret : Nat) : Prop where
  gone : ∀ t ∈ l, t ∉ l' → (s.thread t).state = .zombie ∧ t ≠ s.current
  subset : l' ⊆ l
  freed : ∀ b ∈ s.heap.live, b ∉ s'.heap.live → ∃ t ∈ l, t ∉ l' ∧ b ∈ blocksOf s.thread t
  hasStack : ∀ t ∈ l', (s'.thread t).stackBase = (s.thread t).stackBase
  stay : s'.current = s.current → ret = rsp ∧ s'.fpu = s.fpu
  switch : s'.current ≠ s.current →
    ret = (s.thread s'.current).rsp ∧ s'.fpu = (s.thread s'.current).fxsave ∧
      (s'.thread s.current).rsp = rsp ∧ (s'.thread s.current).fxsave = s.fpu
  others : ∀ t ∈ l', t ≠ s.current → (s'.thread t).rsp = (s.thread t).rsp ∧
    (s'.thread t).fxsave = (s.thread t).fxsave

/-- An event at whose end some thread runs: the invariant of a run. -/
structure Inv (s : Scheduler) (l : List Nat) (idle : Nat) (exited : List Nat) : Prop
    extends Core s l idle exited where
  current_runnable : (s.thread s.current).runnable = true

/-- The switch touches only the two threads it is between. -/
theorem switchTo_thread_of_ne {s : Scheduler} {next t : Nat} (rsp : Nat) (htn : t ≠ next)
    (htc : t ≠ s.current) : (switchTo s next rsp).1.thread t = s.thread t := by
  simp [switchTo, Scheduler.setState, Scheduler.setThread, Function.update_of_ne htn,
    Function.update_of_ne htc]

/-- The switch changes the contexts and states of threads only. -/
theorem switchTo_same (s : Scheduler) (next rsp t : Nat) :
    ((switchTo s next rsp).1.thread t).next = (s.thread t).next ∧
      ((switchTo s next rsp).1.thread t).stackBase = (s.thread t).stackBase ∧
      ((switchTo s next rsp).1.thread t).id = (s.thread t).id := by
  simp only [switchTo, Scheduler.setState, Scheduler.setThread, Function.update_apply]
  split <;> split <;> simp_all

/-- Switching to another runnable thread of the ring. -/
theorem switchTo_spec {s : Scheduler} {l : List Nat} {idle next : Nat} {exited : List Nat}
    (h : Core s l idle exited) (hnext : next ∈ l) (hne : next ≠ s.current) (rsp : Nat) :
    Inv (switchTo s next rsp).1 l idle exited ∧
      Preempted s l rsp (switchTo s next rsp).1 l (switchTo s next rsp).2 := by
  set s' := (switchTo s next rsp).1 with hs'
  have hcur : s'.thread s.current = { s.thread s.current with
      rsp := rsp
      state := if (s.thread s.current).state = .running then .ready
        else (s.thread s.current).state
      fxsave := s.fpu } := by
    simp [hs', switchTo, Scheduler.setState, Scheduler.setThread, Function.update_of_ne hne.symm]
  have hnew : s'.thread next = { s.thread next with state := .running } := by
    simp [hs', switchTo, Scheduler.setState, Scheduler.setThread, Function.update_of_ne hne]
  have hrest : ∀ t, t ≠ next → t ≠ s.current → s'.thread t = s.thread t :=
    fun t htn htc => switchTo_thread_of_ne rsp htn htc
  have hsaved : (switchTo s next rsp).2 = (s.thread next).rsp ∧
      s'.fpu = (s.thread next).fxsave := by
    constructor
    · simp [switchTo, Scheduler.setState, Scheduler.setThread, Function.update_of_ne hne]
    · simp [hs', switchTo, Scheduler.setState, Scheduler.setThread, Function.update_of_ne hne]
  have hs'cur : s'.current = next := rfl
  have hrunnable : ∀ t, (s.thread t).runnable = true → (s'.thread t).runnable = true := by
    intro t ht
    by_cases htn : t = next
    · subst htn; rw [hnew]; rfl
    · by_cases htc : t = s.current
      · subst htc
        rw [hcur, runnable_iff]
        rw [runnable_iff] at ht
        rcases ht with hr | hr <;> simp [hr]
      · rw [hrest t htn htc]; exact ht
  have hsame : ∀ t, (s'.thread t).next = (s.thread t).next ∧
      (s'.thread t).stackBase = (s.thread t).stackBase := fun t =>
    ⟨(switchTo_same s next rsp t).1, (switchTo_same s next rsp t).2.1⟩
  refine ⟨⟨h.congr rfl rfl rfl (hs'cur ▸ hnext) (fun t _ => hsame t) (hrunnable _ h.idle_runnable)
    fun t ht hz => ?_, ?_⟩, ⟨fun t ht hn => absurd ht hn, List.Subset.refl _,
    fun b hb hn => absurd hb hn, fun t _ => (hsame t).2, fun heq => absurd (hs'cur ▸ heq) hne,
    fun _ => ?_, fun t ht htc => ?_⟩⟩
  · by_cases htn : t = next
    · subst htn; rw [hnew] at hz; cases hz
    · by_cases htc : t = s.current
      · subst htc
        rw [hcur] at hz
        refine h.zombies _ ht ?_
        by_cases hr : (s.thread s.current).state = .running
        · simp [hr] at hz
        · simpa [hr] using hz
      · rw [hrest t htn htc] at hz
        exact h.zombies t ht hz
  · rw [hs'cur, hnew]; rfl
  · rw [hs'cur, hcur]
    exact ⟨hsaved.1, hsaved.2, rfl, rfl⟩
  · by_cases htn : t = next
    · subst htn; rw [hnew]; exact ⟨rfl, rfl⟩
    · rw [hrest t htn htc]; exact ⟨rfl, rfl⟩

/-- The scheduler after the sleepers among the threads `l` have been woken. -/
def woken (s : Scheduler) (l : List Nat) : Scheduler :=
  { s with thread := fun t => if t ∈ l then wake s.ticks (s.thread t) else s.thread t }

theorem woken_thread {s : Scheduler} {l : List Nat} {t : Nat} (ht : t ∈ l) :
    (woken s l).thread t = wake s.ticks (s.thread t) := if_pos ht

theorem Core.woken {s : Scheduler} {l : List Nat} {idle : Nat} {exited : List Nat}
    (h : Core s l idle exited) : Core (woken s l) l idle exited := by
  refine h.congr rfl rfl rfl h.current_mem (fun t ht => ?_) ?_ fun t ht hz => ?_
  · rw [woken_thread ht]
    exact ⟨(wake_same _ _).1, (wake_same _ _).2.1⟩
  · rw [woken_thread h.idle_mem]
    exact wake_runnable h.idle_runnable
  · rw [woken_thread ht, wake_zombie] at hz
    exact h.zombies t ht hz

/-- `sched_preempt` wakes, reaps, chooses and switches. -/
theorem schedPreempt_eq {s : Scheduler} {l : List Nat} {idle : Nat} {exited : List Nat}
    (h : Core s l idle exited) (rsp : Nat) : ∃ s₂ l₂ n, Core s₂ l₂ idle exited ∧
      Reaped (woken s l) l s₂ l₂ ∧ pickNext s₂ = some n ∧ n ∈ l₂ ∧
      (s₂.thread n).runnable = true ∧
      schedPreempt s rsp = some (if n = s₂.current then (s₂, rsp) else switchTo s₂ n rsp) := by
  have hc0 := h.ne_zero h.current_mem
  have hwake : wakeSleepers s = some (woken s l) := wakeSleepers_spec h
  obtain ⟨s₂, l₂, hreap, h₂, hre⟩ := reapZombies_spec h.woken
  obtain ⟨n, hpick, hn, hrun⟩ := pickNext_spec h₂
  refine ⟨s₂, l₂, n, h₂, hre, hpick, hn, hrun, ?_⟩
  rw [schedPreempt, if_neg (by simp [h.active, hc0]), hwake]
  simp only [Option.bind_eq_bind, Option.bind_some, hreap, hpick, h₂.ne_zero hn, false_or]
  rfl

/-- `sched_preempt` returns, and some thread runs afterwards. -/
theorem schedPreempt_spec {s : Scheduler} {l : List Nat} {idle : Nat} {exited : List Nat}
    (h : Core s l idle exited) (rsp : Nat) :
    ∃ s' ret l', schedPreempt s rsp = some (s', ret) ∧ Inv s' l' idle exited ∧
      Preempted s l rsp s' l' ret := by
  obtain ⟨s₂, l₂, n, h₂, hre, -, hn, hrun, hpre⟩ := schedPreempt_eq h rsp
  have hth₂ : ∀ t ∈ l₂, (s₂.thread t).rsp = (s.thread t).rsp ∧
      (s₂.thread t).fxsave = (s.thread t).fxsave ∧
      (s₂.thread t).stackBase = (s.thread t).stackBase := by
    intro t ht
    obtain ⟨v, hv⟩ := hre.kept t ht
    rw [hv, woken_thread (hre.subset ht)]
    exact ⟨(wake_same _ _).2.2.1, (wake_same _ _).2.2.2.1, (wake_same _ _).2.1⟩
  have hgone : ∀ t ∈ l, t ∉ l₂ → (s.thread t).state = .zombie ∧ t ≠ s.current := by
    intro t ht hn
    obtain ⟨hz, hc⟩ := hre.gone t ht hn
    rw [woken_thread ht, wake_zombie] at hz
    exact ⟨hz, hc⟩
  have hfreed : ∀ b ∈ s.heap.live, b ∉ s₂.heap.live →
      ∃ t ∈ l, t ∉ l₂ ∧ b ∈ blocksOf s.thread t := by
    intro b hb hn
    obtain ⟨t, ht, htn, hbt⟩ := hre.freed b hb hn
    refine ⟨t, ht, htn, ?_⟩
    rwa [blocksOf, woken_thread ht, (wake_same _ _).2.1] at hbt
  by_cases hstay : n = s₂.current
  · refine ⟨s₂, rsp, l₂, by rw [hpre, if_pos hstay], ⟨h₂, hstay ▸ hrun⟩, hgone,
      hre.subset, hfreed, fun t ht => (hth₂ t ht).2.2, fun _ => ⟨rfl, hre.fpu⟩,
      fun hne => absurd hre.current hne, fun t ht _ => ⟨(hth₂ t ht).1, (hth₂ t ht).2.1⟩⟩
  · obtain ⟨hinv, hsw⟩ := switchTo_spec h₂ hn hstay rsp
    have hcur : s₂.current = s.current := hre.current
    have hsw' := hsw.switch hstay
    refine ⟨_, _, l₂, by rw [hpre, if_neg hstay], hinv, hgone, hre.subset,
      hfreed, fun t ht => (hsw.hasStack t ht).trans (hth₂ t ht).2.2,
      fun heq => absurd (heq.trans hcur.symm) hstay, fun _ => ?_, fun t ht htc => ?_⟩
    · rw [hcur] at hsw'
      refine ⟨hsw'.1.trans (hth₂ n hn).1, hsw'.2.1.trans (hth₂ n hn).2.1, hsw'.2.2.1,
        hsw'.2.2.2.trans hre.fpu⟩
    · obtain ⟨h1, h2⟩ := hsw.others t ht (hcur ▸ htc)
      exact ⟨h1.trans (hth₂ t ht).1, h2.trans (hth₂ t ht).2.1⟩

/-- `sched_tick` either returns at once or preempts. -/
theorem schedTick_spec {s : Scheduler} {l : List Nat} {idle : Nat} {exited : List Nat}
    (h : Inv s l idle exited) (rsp : Nat) :
    ∃ s' ret l', schedTick s rsp = some (s', ret) ∧ Inv s' l' idle exited ∧
      Preempted s l rsp s' l' ret := by
  rw [schedTick, if_neg (by simp [h.active])]
  split
  · exact ⟨s, rsp, l, rfl, h, fun t ht hn => absurd ht hn, List.Subset.refl _,
      fun b hb hn => absurd hb hn, fun _ _ => rfl, fun _ => ⟨rfl, rfl⟩, fun hne => absurd rfl hne,
      fun t _ _ => ⟨rfl, rfl⟩⟩
  · exact schedPreempt_spec h.toCore rsp

/-- The current thread, which is not idle, gets another state. -/
theorem Inv.setCurrent {s : Scheduler} {l : List Nat} {idle : Nat} {exited exited' : List Nat}
    {v : ThreadState} {w : Nat} (h : Inv s l idle exited) (hidle : s.current ≠ idle)
    (hsub : exited ⊆ exited') (hv : v = .zombie → s.current ∈ exited') :
    Core (s.setThread s.current { s.thread s.current with state := v, wakeTick := w }) l idle
      exited' := by
  have hcore : Core s l idle exited' :=
    { h.toCore with zombies := fun t ht hz => hsub (h.zombies t ht hz) }
  refine hcore.congr rfl rfl rfl h.current_mem (fun t _ => ?_) ?_ fun t ht hz => ?_
  · by_cases htc : t = s.current
    · subst htc
      simp [Scheduler.setThread]
    · simp [Scheduler.setThread, htc]
  · simpa [Scheduler.setThread, hidle.symm] using h.idle_runnable
  · by_cases htc : t = s.current
    · subst htc
      exact hv (by simpa [Scheduler.setThread] using hz)
    · exact hsub (h.zombies t ht (by simpa [Scheduler.setThread, htc] using hz))

/-- The current thread stops running and yields: the common part of exit and sleep. -/
theorem preempt_stopped {s : Scheduler} {l : List Nat} {idle : Nat} {exited exited' : List Nat}
    {v : ThreadState} {w : Nat} (h : Inv s l idle exited) (hidle : s.current ≠ idle)
    (hsub : exited ⊆ exited') (hv : v = .zombie → s.current ∈ exited') (rsp : Nat) :
    ∃ s' ret l', schedPreempt (s.setThread s.current
        { s.thread s.current with state := v, wakeTick := w }) rsp = some (s', ret) ∧
      Inv s' l' idle exited' ∧ Preempted s l rsp s' l' ret := by
  set s₁ := s.setThread s.current { s.thread s.current with state := v, wakeTick := w } with hs₁
  have hcur : s₁.thread s.current = { s.thread s.current with state := v, wakeTick := w } := by
    simp [hs₁, Scheduler.setThread]
  have hrest : ∀ t, t ≠ s.current → s₁.thread t = s.thread t := fun t ht => by
    simp [hs₁, Scheduler.setThread, ht]
  have hsame : ∀ t, (s₁.thread t).next = (s.thread t).next ∧
      (s₁.thread t).stackBase = (s.thread t).stackBase ∧
      (s₁.thread t).rsp = (s.thread t).rsp ∧ (s₁.thread t).fxsave = (s.thread t).fxsave := by
    intro t
    by_cases htc : t = s.current
    · subst htc; rw [hcur]; exact ⟨rfl, rfl, rfl, rfl⟩
    · rw [hrest t htc]; exact ⟨rfl, rfl, rfl, rfl⟩
  have h₁ : Core s₁ l idle exited' := h.setCurrent hidle hsub hv
  obtain ⟨s', ret, l', hpre, hinv, hp⟩ := schedPreempt_spec h₁ rsp
  refine ⟨s', ret, l', hpre, hinv, fun t ht hn => ?_, hp.subset, fun b hb hn => ?_,
    fun t ht => (hp.hasStack t ht).trans (hsame t).2.1, hp.stay, fun hne => ?_, fun t ht htc => ?_⟩
  · obtain ⟨hz, htc⟩ := hp.gone t ht hn
    rw [hrest t htc] at hz
    exact ⟨hz, htc⟩
  · obtain ⟨t, ht, htn, hbt⟩ := hp.freed b hb hn
    rw [blocksOf, (hsame t).2.1] at hbt
    exact ⟨t, ht, htn, hbt⟩
  · obtain ⟨h1, h2, h3, h4⟩ := hp.switch hne
    exact ⟨h1.trans (hsame _).2.2.1, h2.trans (hsame _).2.2.2, h3, h4⟩
  · obtain ⟨h1, h2⟩ := hp.others t ht htc
    exact ⟨h1.trans (hsame t).2.2.1, h2.trans (hsame t).2.2.2⟩

end ChocoOs.Sched
