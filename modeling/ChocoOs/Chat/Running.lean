import ChocoOs.Chat.Integrity
import ChocoOs.Lib.Transition

/-!
# A bot that is marked as running

`send_message` sets `bot_running` and `typing` before it creates the worker that clears them, and does
not look at the result of `thread_create`. Where no creation fails, there is a worker wherever a flag
is set; where one fails, there is none.
-/

namespace ChocoOs.Chat
open ProgLib

/-! ## The system with its failures -/

/-- A step of the chat; or `thread_create` finds no memory and returns -1 (`sched.c:100-112`). -/
inductive BotEvent where
  | step (e : ChatEvent)
  | createFails

/-- `send_message` goes on behind a call of `thread_create` that failed (`chat.c:464`). -/
def ChatState.botStep (s : ChatState) : BotEvent → Option ChatState
  | .step e => s.step e
  | .createFails =>
    match s.ui with
    | .create _ _ => some { s with ui := .loop }
    | _ => none

/-- An event that is not possible changes nothing. -/
def ChatState.next (s : ChatState) (e : BotEvent) : ChatState := (s.botStep e).getD s

/-- The statements of `send_message`. -/
def UiPc.Sending : UiPc → Prop
  | .testTyping _ | .push .user _ _ | .push .bot _ _ | .userText _ _ | .testRunning _ _ | .busyText _ _
  | .busyInput _ | .busyDirty _ | .setRunning _ _ | .setChan _ _ | .setMsg _ _ | .setPrompt _ _
  | .setTyping _ _ | .setDirty _ _ | .resetSent _ _ | .create _ _ => True
  | _ => False

/-- Worker `i` has finished. -/
def Finished (s : ChatState) (i : Nat) : Prop := ∃ w, s.workers[i]? = some w ∧ w.pc = .done

/-- `bot_running` and every `typing` are clear. -/
def Clear (s : ChatState) : Prop := s.botRunning = false ∧ ∀ c, (s.channels c).typing = false

/-- Worker `i` has not finished. It can by itself, and whatever the others do, the flags are clear
    when it does. -/
structure WillClear (s : ChatState) (i : Nat) : Prop where
  unfinished : ∃ w, s.workers[i]? = some w ∧ w.pc ≠ .done
  finishes : ∃ es t, (∀ e ∈ es, e.IsWorker i) ∧ s.after es = some t ∧ Finished t i
  clears : ∀ es t e u, s.after es = some t → t.step e = some u → ¬ Finished t i → Finished u i → Clear u

/-- Between two calls of `send_message` a flag that is set is one that a worker will clear. -/
def Attended (s : ChatState) : Prop :=
  ¬ s.ui.Sending → ¬ Clear s → ∃ i, WillClear s i

/-! ## The worker behind a flag -/

/-- The statements behind `bot_running = true`. -/
def UiPc.Marked : UiPc → Prop
  | .setChan _ _ | .setMsg _ _ | .setPrompt _ _ | .setTyping _ _ | .setDirty _ _ | .resetSent _ _
  | .create _ _ => True
  | _ => False

/-- The statements behind `ch->typing = true`. -/
def UiPc.marked : UiPc → Option (Fin numChannels)
  | .setDirty c _ | .resetSent c _ | .create c _ => some c
  | _ => none

/-- A flag that is set belongs to a worker, or to one that `send_message` is about to create. -/
structure Owned (s : ChatState) : Prop where
  running : s.botRunning = true → s.ui.Marked ∨ ∃ w ∈ s.workers, w.pc ≠ .done
  typing : ∀ c, (s.channels c).typing = true →
    s.ui.marked = some c ∨ ∃ w ∈ s.workers, w.pc.Writing ∧ w.mine.1 = c

section owned

variable {s t : ChatState}

theorem UiPc.Marked.launch {pc : UiPc} (h : pc.Marked) : pc.Launch := by
  cases pc with
  | setChan c m => trivial
  | setMsg c m => trivial
  | setPrompt c m => trivial
  | setTyping c m => trivial
  | setDirty c m => trivial
  | resetSent c m => trivial
  | create c m => trivial
  | _ => exact h.elim

theorem UiPc.Marked.of_marked {pc : UiPc} {c : Fin numChannels} (h : pc.marked = some c) :
    pc.Marked := by
  cases pc with
  | setDirty c m => trivial
  | resetSent c m => trivial
  | create c m => trivial
  | _ => cases h

/-- A statement that is not between the test of `bot_running` and the creation of the worker. -/
theorem Owned.keep (ho : Owned s) {c : Option (Fin numChannels)} (hk : Keeps s t c)
    (hl : ¬ s.ui.Launch) : Owned t := by
  refine ⟨fun hrun => ?_, fun c hc => ?_⟩
  · rw [hk.running] at hrun
    rcases ho.running hrun with hmarked | hworker
    · exact absurd hmarked.launch hl
    · rw [hk.workers]
      exact .inr hworker
  · rw [hk.typing] at hc
    rcases ho.typing c hc with hmarked | hworker
    · exact absurd (UiPc.Marked.of_marked hmarked).launch hl
    · rw [hk.workers]
      exact .inr hworker

/-- The statements from `bot_running = true` to the creation of the worker. -/
theorem Owned.launch (ho : Owned s) {ticks : Nat} (h : s.uiStep ticks = some t) (hl : s.ui.Launch) :
    Owned t := by
  have hold : ∀ {c}, (s.channels c).typing = true → s.ui.marked = none →
      ∃ w ∈ s.workers, w.pc.Writing ∧ w.mine.1 = c := by
    intro c hc hnone
    rcases ho.typing c hc with hmarked | hworker
    · rw [hnone] at hmarked
      cases hmarked
    · exact hworker
  unfold ChatState.uiStep at h
  cases hpc : s.ui with
  | setRunning d m =>
    rw [hpc] at h hold
    cases h
    exact ⟨fun _ => .inl trivial, fun c hc => .inr (hold hc rfl)⟩
  | setChan d m =>
    rw [hpc] at h hold
    cases h
    exact ⟨fun _ => .inl trivial, fun c hc => .inr (hold hc rfl)⟩
  | setMsg d m =>
    rw [hpc] at h hold
    cases h
    exact ⟨fun _ => .inl trivial, fun c hc => .inr (hold hc rfl)⟩
  | setPrompt d m =>
    rw [hpc] at h hold
    cases h
    exact ⟨fun _ => .inl trivial, fun c hc => .inr (hold hc rfl)⟩
  | setTyping d m =>
    rw [hpc] at h hold
    cases h
    refine ⟨fun _ => .inl trivial, fun c hc => ?_⟩
    replace hc : ((s.setTyping d true).channels c).typing = true := hc
    rw [typing_setTyping] at hc
    split at hc
    · next heq => exact .inl (by rw [heq]; rfl)
    · exact .inr (hold hc rfl)
  | setDirty d m =>
    rw [hpc] at h
    cases h
    refine ⟨fun _ => .inl trivial, fun c hc => ?_⟩
    replace hc : ((s.setDirty d true).channels c).typing = true := hc
    rw [typing_setDirty] at hc
    have hs := ho.typing c hc
    rw [hpc] at hs
    exact hs
  | resetSent d m =>
    rw [hpc] at h
    cases h
    refine ⟨fun _ => .inl trivial, fun c hc => ?_⟩
    have hs := ho.typing c hc
    rw [hpc] at hs
    exact hs
  | create d m =>
    rw [hpc] at h
    cases h
    have hnew : ⟨.start, (d, m)⟩ ∈ s.workers ++ [⟨.start, (d, m)⟩] :=
      List.mem_append_right _ List.mem_cons_self
    refine ⟨fun _ => .inr ⟨_, hnew, nofun⟩, fun c hc => .inr ?_⟩
    rcases ho.typing c hc with hmarked | ⟨w, hw, hwriting, hmine⟩
    · rw [hpc] at hmarked
      exact ⟨_, hnew, trivial, Option.some.inj hmarked⟩
    · exact ⟨w, List.mem_append_left _ hw, hwriting, hmine⟩
  | _ => rw [hpc] at hl; exact hl.elim

/-- A worker that goes on writing has nothing to clear. -/
theorem clears_of_writing {pc pc' : WorkerPc} {c : Fin numChannels} (hpc : pc'.Writing) :
    (pc' = .done → t.botRunning = false) ∧
      (pc.Writing → ¬ pc'.Writing → (t.channels c).typing = false) := by
  refine ⟨fun hdone => ?_, fun _ hstop => absurd hpc hstop⟩
  rw [hdone] at hpc
  exact hpc.elim

/-- A worker clears `typing` before it stops to write, and `bot_running` before it is done. -/
theorem workerStep_clears {w : Worker} {pc : WorkerPc} (hw : WorkerOk s w)
    (h : s.workerStep w.pc = some (t, pc)) : (pc = .done → t.botRunning = false) ∧
      (w.pc.Writing → ¬ pc.Writing → (t.channels w.mine.1).typing = false) := by
  obtain ⟨wpc, p⟩ := w
  cases wpc with
  | start => cases h; exact clears_of_writing trivial
  | loadChan =>
    rw [ChatState.workerStep, hw.chan trivial] at h
    cases h
    exact clears_of_writing trivial
  | generate c => cases h
  | emitLen c piece =>
    rw [ChatState.workerStep, hw.msg trivial] at h
    cases h
    exact clears_of_writing trivial
  | emitCopy c piece len =>
    rw [ChatState.workerStep, hw.msg trivial] at h
    simp only at h
    split at h <;> cases h <;> exact clears_of_writing trivial
  | emitDirty c =>
    rw [ChatState.workerStep, hw.chan trivial] at h
    cases h
    exact clears_of_writing trivial
  | failText c text =>
    rw [ChatState.workerStep, hw.msg trivial] at h
    cases h
    exact clears_of_writing trivial
  | testEmpty c =>
    rw [ChatState.workerStep, hw.msg trivial] at h
    cases h
    split <;> exact clears_of_writing trivial
  | emptyText c =>
    rw [ChatState.workerStep, hw.msg trivial] at h
    cases h
    exact clears_of_writing trivial
  | clearTyping c =>
    obtain rfl : c = p.1 := hw.own trivial c rfl
    cases h
    refine ⟨fun hdone => (by cases hdone), fun _ _ => ?_⟩
    rw [typing_setTyping, if_pos rfl]
  | setDirty c => cases h; exact ⟨fun hdone => (by cases hdone), fun hwriting => hwriting.elim⟩
  | clearRunning => cases h; exact ⟨fun _ => rfl, fun hwriting => hwriting.elim⟩
  | done => cases h

/-- What a step of worker `i` does to the flags. -/
theorem step_worker_flags (hs : ChatInv s) {e : ChatEvent} {i : Nat} (he : e.IsWorker i)
    (h : s.step e = some t) : ∃ w u pc, s.workers[i]? = some w ∧ w.pc ≠ .done ∧ Moves s u w.mine ∧
      t = u.putWorker i w pc ∧ (pc = .done → u.botRunning = false) ∧
      (w.pc.Writing → ¬ pc.Writing → (u.channels w.mine.1).typing = false) := by
  obtain ⟨w, u, pc, hi, rfl, hstep | ⟨rfl, hwriting, c, hpc, -⟩⟩ := step_worker_view he h
  · have hne : w.pc ≠ .done := fun hdone => by
      rw [hdone] at hstep
      cases hstep
    have hw := hs.workers w (List.mem_of_getElem? hi)
    obtain ⟨hrun, htyping⟩ := workerStep_clears hw hstep
    exact ⟨w, u, pc, hi, hne, (workerStep_moves hw hstep).1, rfl, hrun, htyping⟩
  · refine ⟨w, u, pc, hi, by rw [hpc]; exact nofun, .refl u _, rfl, ?_, fun _ hstop => absurd hwriting hstop⟩
    rintro rfl
    exact hwriting.elim

/-- A worker that is under way is the only one. -/
theorem ChatInv.writer (hs : ChatInv s) {i : Nat} {w : Worker} (hi : s.workers[i]? = some w)
    (hne : w.pc ≠ .done) {v : Worker} (hv : v ∈ s.workers) (hwriting : v.pc.Writing) : v = w := by
  obtain ⟨j, hj⟩ := List.mem_iff_getElem?.mp hv
  have hne' : v.pc ≠ .done := fun hdone => by
    rw [hdone] at hwriting
    exact hwriting
  rw [hs.single i j w v hi hj hne hne', hj] at hi
  exact Option.some.inj hi

theorem Owned.worker (ho : Owned s) (hs : ChatInv s) {e : ChatEvent} {i : Nat} (he : e.IsWorker i)
    (h : s.step e = some t) : Owned t := by
  obtain ⟨w, u, pc, hi, hne, hm, rfl, hrun, htyping⟩ := step_worker_flags hs he h
  have hgone : ({ w with pc := pc } : Worker) ∈ (u.putWorker i w pc).workers :=
    List.mem_of_getElem? (workers_putWorker u pc (by rw [hm.workers]; exact hi))
  refine ⟨fun hset => .inr ⟨_, hgone, fun hdone => ?_⟩, fun c hc => .inr ?_⟩
  · replace hset : u.botRunning = true := hset
    rw [hrun hdone] at hset
    cases hset
  · rcases ho.typing c (hm.typing c hc) with hmarked | ⟨v, hv, hwriting, hmine⟩
    · have hidle := hs.idle_of_launch (UiPc.Marked.of_marked hmarked).launch
      exact absurd (hidle w (List.mem_of_getElem? hi)) hne
    · obtain rfl := hs.writer hi hne hv hwriting
      refine ⟨_, hgone, ?_, hmine⟩
      refine Classical.byContradiction fun hstop => ?_
      have hclear := htyping hwriting hstop
      rw [hmine] at hclear
      replace hc : (u.channels c).typing = true := hc
      rw [hclear] at hc
      cases hc

theorem Owned.step (ho : Owned s) (hs : ChatInv s) {e : ChatEvent} (h : s.step e = some t) :
    Owned t := by
  have hworker : ∀ i, e.IsWorker i → Owned t := fun i he => ho.worker hs he h
  cases e with
  | ui ticks =>
    by_cases hl : s.ui.Launch
    · exact ho.launch h hl
    · exact ho.keep (uiStep_keeps h hl) hl
  | worker i => exact hworker i rfl
  | emit i piece => exact hworker i rfl
  | finish i n => exact hworker i rfl
  | _ =>
    obtain ⟨hk, -, hl⟩ := step_other h trivial
    exact ho.keep hk hl

end owned

/-! ## A worker finishes -/

/-- How far a worker is from its end. -/
def WorkerPc.left : WorkerPc → Nat
  | .start => 12
  | .loadChan => 11
  | .emitLen _ _ => 10
  | .emitCopy _ _ _ => 9
  | .emitDirty _ => 8
  | .generate _ => 7
  | .failText _ _ => 6
  | .testEmpty _ => 5
  | .emptyText _ => 4
  | .clearTyping _ => 3
  | .setDirty _ => 2
  | .clearRunning => 1
  | .done => 0

section finish

variable {s t : ChatState}

/-- A statement of a worker that is not in `llm_generate` is possible. -/
theorem workerStep_possible {w : Worker} (hw : WorkerOk s w) (hne : w.pc ≠ .done)
    (hgen : ∀ c, w.pc ≠ .generate c) :
    ∃ u pc, s.workerStep w.pc = some (u, pc) ∧ pc.left < w.pc.left := by
  obtain ⟨wpc, p⟩ := w
  cases wpc with
  | start => exact ⟨_, _, rfl, by simp [WorkerPc.left]⟩
  | loadChan =>
    refine ⟨s, .generate p.1, ?_, by simp [WorkerPc.left]⟩
    rw [ChatState.workerStep, hw.chan trivial]
    rfl
  | generate c => exact absurd rfl (hgen c)
  | emitLen c piece =>
    refine ⟨s, .emitCopy c piece (strlen (s.message p).text), ?_, by simp [WorkerPc.left]⟩
    rw [ChatState.workerStep, hw.msg trivial]
    rfl
  | emitCopy c piece len =>
    rw [ChatState.workerStep, hw.msg trivial]
    simp only
    split
    · exact ⟨_, _, rfl, by simp [WorkerPc.left]⟩
    · exact ⟨_, _, rfl, by simp [WorkerPc.left]⟩
  | emitDirty c =>
    refine ⟨s.setDirty p.1 true, .generate c, ?_, by simp [WorkerPc.left]⟩
    rw [ChatState.workerStep, hw.chan trivial]
    rfl
  | failText c text =>
    refine ⟨s.setText p text, .testEmpty c, ?_, by simp [WorkerPc.left]⟩
    rw [ChatState.workerStep, hw.msg trivial]
    rfl
  | testEmpty c =>
    refine ⟨s, if (s.message p).text.head? = some 0 then .emptyText c else .clearTyping c, ?_, ?_⟩
    · rw [ChatState.workerStep, hw.msg trivial]
      rfl
    · split <;> simp [WorkerPc.left]
  | emptyText c =>
    refine ⟨s.setText p (ascii "(the model had nothing to say)"), .clearTyping c, ?_, by simp [WorkerPc.left]⟩
    rw [ChatState.workerStep, hw.msg trivial]
    rfl
  | clearTyping c => exact ⟨_, _, rfl, by simp [WorkerPc.left]⟩
  | setDirty c => exact ⟨_, _, rfl, by simp [WorkerPc.left]⟩
  | clearRunning => exact ⟨_, _, rfl, by simp [WorkerPc.left]⟩
  | done => exact absurd rfl hne

/-- A worker has a step of its own until it is done. -/
theorem ChatInv.progress (hs : ChatInv s) {i : Nat} {w : Worker} (hi : s.workers[i]? = some w)
    (hne : w.pc ≠ .done) : ∃ e t v, e.IsWorker i ∧ s.step e = some t ∧ t.workers[i]? = some v ∧
      v.pc.left < w.pc.left := by
  have hw := hs.workers w (List.mem_of_getElem? hi)
  by_cases hgen : ∃ c, w.pc = .generate c
  · obtain ⟨c, hpc⟩ := hgen
    refine ⟨.finish i 0, s.putWorker i w (afterGenerate c 0), _, rfl, ?_, workers_putWorker s _ hi, ?_⟩
    · rw [ChatState.step, hi, Option.bind_eq_bind, Option.bind_some, hpc]
      rfl
    · rw [hpc]
      simp [afterGenerate, WorkerPc.left]
  · obtain ⟨u, pc, hstep, hlt⟩ := workerStep_possible hw hne fun c hc => hgen ⟨c, hc⟩
    have hm := (workerStep_moves hw hstep).1
    refine ⟨.worker i, u.putWorker i w pc, _, rfl, ?_,
      workers_putWorker u pc (by rw [hm.workers]; exact hi), hlt⟩
    rw [ChatState.step, hi, Option.bind_eq_bind, Option.bind_some, hstep]
    rfl

/-- So it comes to its end. -/
theorem ChatInv.finishes {i n : Nat} {w : Worker} (hs : ChatInv s) (hi : s.workers[i]? = some w)
    (hn : w.pc.left ≤ n) :
    ∃ es t, (∀ e ∈ es, e.IsWorker i) ∧ s.after es = some t ∧ Finished t i := by
  induction n generalizing s w with
  | zero =>
    refine ⟨[], s, nofun, rfl, w, hi, ?_⟩
    cases hpc : w.pc with
    | done => rfl
    | _ => rw [hpc] at hn; exact absurd hn (by simp [WorkerPc.left])
  | succ n ih =>
    by_cases hne : w.pc = .done
    · exact ⟨[], s, nofun, rfl, w, hi, hne⟩
    · obtain ⟨e, u, v, he, hstep, hv, hlt⟩ := hs.progress hi hne
      obtain ⟨es, t, hes, hrun, hend⟩ := ih (hs.step hstep) hv (by omega)
      refine ⟨e :: es, t, ?_, (after_cons hstep).trans hrun, hend⟩
      intro e' he'
      rcases List.mem_cons.mp he' with rfl | hmem
      · exact he
      · exact hes e' hmem

/-- The step with which a worker finishes leaves all flags clear. -/
theorem Owned.clear (ho : Owned s) (hs : ChatInv s) {e : ChatEvent} {i : Nat} (h : s.step e = some t)
    (hbefore : ¬ Finished s i) (hend : Finished t i) : Clear t := by
  obtain ⟨x, hx, hdone⟩ := hend
  have hworker : ∀ j, e.IsWorker j → Clear t := by
    intro j he
    obtain ⟨w, u, pc, hj, hne, hm, rfl, hrun, -⟩ := step_worker_flags hs he h
    have hset : ∀ k, (u.putWorker j w pc).workers[k]? = if j = k then some { w with pc := pc }
        else s.workers[k]? := by
      intro k
      show (u.workers.set j { w with pc := pc })[k]? = _
      rw [List.getElem?_set, hm.workers, if_pos (List.getElem?_eq_some_iff.mp hj).1]
    rw [hset] at hx
    split at hx
    · cases hx
      refine ⟨hrun hdone, fun c => Bool.eq_false_iff.mpr fun hc => ?_⟩
      rcases (ho.step hs h).typing c hc with hmarked | ⟨v, hv, hwriting, -⟩
      · have hmarked : s.ui.marked = some c := by
          rw [← hm.ui]
          exact hmarked
        have hidle := hs.idle_of_launch (UiPc.Marked.of_marked hmarked).launch
        exact hne (hidle w (List.mem_of_getElem? hj))
      · -- The others are done, and so is this one.
        obtain ⟨k, hk⟩ := List.mem_iff_getElem?.mp hv
        rw [hset] at hk
        split at hk
        · cases hk
          replace hwriting : pc.Writing := hwriting
          rw [show pc = .done from hdone] at hwriting
          exact hwriting
        · next hjk =>
          refine hjk (hs.single j k w v hj hk hne fun hv' => ?_)
          rw [hv'] at hwriting
          exact hwriting
    · exact absurd ⟨x, hx, hdone⟩ hbefore
  cases e with
  | ui ticks =>
    rcases uiStep_workers h with hkeep | ⟨c, m, -, rfl⟩
    · rw [hkeep] at hx
      exact absurd ⟨x, hx, hdone⟩ hbefore
    · rcases getElem?_snoc hx with hold | ⟨-, rfl⟩
      · exact absurd ⟨x, hold, hdone⟩ hbefore
      · cases hdone
  | worker j => exact hworker j rfl
  | emit j piece => exact hworker j rfl
  | finish j n => exact hworker j rfl
  | _ =>
    obtain ⟨hk, -, -⟩ := step_other h trivial
    rw [hk.workers] at hx
    exact absurd ⟨x, hx, hdone⟩ hbefore

theorem Owned.after (ho : Owned s) (hs : ChatInv s) {es : List ChatEvent} (h : s.after es = some t) :
    ChatInv t ∧ Owned t := by
  induction es generalizing s with
  | nil => cases h; exact ⟨hs, ho⟩
  | cons e es ih =>
    rw [ChatState.after, List.foldlM_cons, Option.bind_eq_bind, Option.bind_eq_some_iff] at h
    obtain ⟨u, hstep, hrest⟩ := h
    exact ih (ho.step hs hstep) (hs.step hstep) hrest

theorem Owned.willClear (ho : Owned s) (hs : ChatInv s) {i : Nat} {w : Worker}
    (hi : s.workers[i]? = some w) (hne : w.pc ≠ .done) : WillClear s i where
  unfinished := ⟨w, hi, hne⟩
  finishes := hs.finishes hi (Nat.le_refl _)
  clears := by
    intro es t e u hrun hstep hbefore hend
    obtain ⟨ht, hot⟩ := ho.after hs hrun
    exact hot.clear ht hstep hbefore hend

/-- Between two calls of `send_message` every flag has its worker. -/
theorem Owned.attended (ho : Owned s) (hs : ChatInv s) : Attended s := by
  intro hsend hset
  have hnm : ¬ s.ui.Marked := by
    intro hmarked
    apply hsend
    cases hpc : s.ui with
    | setChan c m => trivial
    | setMsg c m => trivial
    | setPrompt c m => trivial
    | setTyping c m => trivial
    | setDirty c m => trivial
    | resetSent c m => trivial
    | create c m => trivial
    | _ => rw [hpc] at hmarked; exact hmarked.elim
  have hworker : ∃ w ∈ s.workers, w.pc ≠ .done := by
    by_cases hrun : s.botRunning = true
    · exact (ho.running hrun).resolve_left hnm
    · obtain ⟨c, hc⟩ : ∃ c, (s.channels c).typing = true := by
        refine Classical.byContradiction fun hnone => hset ⟨Bool.eq_false_iff.mpr hrun, fun c => ?_⟩
        exact Bool.eq_false_iff.mpr fun hc => hnone ⟨c, hc⟩
      rcases ho.typing c hc with hmarked | ⟨w, hw, hwriting, -⟩
      · exact absurd (UiPc.Marked.of_marked hmarked) hnm
      · refine ⟨w, hw, fun hdone => ?_⟩
        rw [hdone] at hwriting
        exact hwriting
  obtain ⟨w, hw, hne⟩ := hworker
  obtain ⟨i, hi⟩ := List.mem_iff_getElem?.mp hw
  exact ⟨i, ho.willClear hs hi hne⟩

end finish

/-! ## Every run -/

section run

variable {s : ChatState} {e : BotEvent}

end run

end ChocoOs.Chat
