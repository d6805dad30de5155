import ChocoOs.Chat.Operations

/-!
# The job of the bot

Two flags guard the shared `job` and the message it points to: `typing` keeps new messages out of the
worker's channel, `bot_running` keeps `send_message` away from `job`. The invariant says what each
statement of either thread may rely on.
-/

namespace ChocoOs.Chat
open ProgLib

/-! ## What a write leaves alone -/

section frame

variable (s : ChatState) (c d : Fin numChannels) (p q : MsgPtr) (f : Message → Message) (b : Bool)
  (src : List UInt8)

theorem channels_modify (g : Channel → Channel) :
    (s.modify c g).channels d = if d = c then g (s.channels c) else s.channels d := by
  rw [ChatState.modify]
  by_cases h : d = c
  · subst h
    rw [if_pos rfl]
    exact Function.update_self ..
  · rw [if_neg h]
    exact Function.update_of_ne h ..

@[simp] theorem typing_modifyMsg :
    ((s.modifyMsg p f).channels d).typing = (s.channels d).typing := by
  rw [ChatState.modifyMsg, channels_modify]
  split
  · next h => rw [h]
  · rfl

@[simp] theorem msgCount_modifyMsg :
    ((s.modifyMsg p f).channels d).msgCount = (s.channels d).msgCount := by
  rw [ChatState.modifyMsg, channels_modify]
  split
  · next h => rw [h]
  · rfl

theorem message_modifyMsg (h : q ≠ p) : (s.modifyMsg p f).message q = s.message q := by
  rw [ChatState.message, ChatState.modifyMsg, channels_modify]
  split
  · next hc =>
    have hne : q.2 ≠ p.2 := fun h2 => h (Prod.ext hc h2)
    rw [ChatState.message, hc]
    exact Function.update_of_ne hne ..
  · rfl

@[simp] theorem typing_setTyping :
    ((s.setTyping c b).channels d).typing = if d = c then b else (s.channels d).typing := by
  rw [ChatState.setTyping, channels_modify]
  split <;> rfl

@[simp] theorem msgCount_setTyping :
    ((s.setTyping c b).channels d).msgCount = (s.channels d).msgCount := by
  rw [ChatState.setTyping, channels_modify]
  split
  · next h => rw [h]
  · rfl

@[simp] theorem message_setTyping : (s.setTyping c b).message q = s.message q := by
  rw [ChatState.message, ChatState.setTyping, channels_modify]
  split
  · next h => rw [ChatState.message, h]
  · rfl

@[simp] theorem typing_setDirty :
    ((s.setDirty c b).channels d).typing = (s.channels d).typing := by
  rw [ChatState.setDirty, channels_modify]
  split
  · next h => rw [h]
  · rfl

@[simp] theorem msgCount_setDirty :
    ((s.setDirty c b).channels d).msgCount = (s.channels d).msgCount := by
  rw [ChatState.setDirty, channels_modify]
  split
  · next h => rw [h]
  · rfl

@[simp] theorem message_setDirty : (s.setDirty c b).message q = s.message q := by
  rw [ChatState.message, ChatState.setDirty, channels_modify]
  split
  · next h => rw [ChatState.message, h]
  · rfl

@[simp] theorem typing_countUp : ((s.countUp c).channels d).typing = (s.channels d).typing := by
  rw [ChatState.countUp, channels_modify]
  split
  · next h => rw [h]
  · rfl

theorem msgCount_countUp : ((s.countUp c).channels d).msgCount =
    if d = c then (s.channels d).msgCount + 1 else (s.channels d).msgCount := by
  rw [ChatState.countUp, channels_modify]
  split
  · next h => rw [h]
  · rfl

@[simp] theorem message_countUp : (s.countUp c).message q = s.message q := by
  rw [ChatState.message, ChatState.countUp, channels_modify]
  split
  · next h => rw [ChatState.message, h]
  · rfl

end frame

/-! ## The invariant -/

/-- A worker that has not yet written `ch->typing = false`. -/
def WorkerPc.Writing : WorkerPc → Prop
  | .setDirty _ | .clearRunning | .done => False
  | _ => True

/-- The variable `ch` of a worker. -/
def WorkerPc.chan : WorkerPc → Option (Fin numChannels)
  | .generate c | .emitLen c _ | .emitCopy c _ _ | .emitDirty c | .failText c _ | .testEmpty c
  | .emptyText c | .clearTyping c | .setDirty c => some c
  | .start | .loadChan | .clearRunning | .done => none

/-- What a worker relies on. -/
structure WorkerOk (s : ChatState) (w : Worker) : Prop where
  running : w.pc ≠ .done → s.botRunning = true
  chan : w.pc.Writing → s.job.chan = some w.mine.1
  msg : w.pc.Writing → s.job.msg = some w.mine
  typing : w.pc.Writing → (s.channels w.mine.1).typing = true
  own : w.pc.Writing → ∀ c, w.pc.chan = some c → c = w.mine.1

def AllDone (s : ChatState) : Prop := ∀ w ∈ s.workers, w.pc = .done

/-- What `send_message` knows between the test of `bot_running` and the creation of a worker. -/
structure Launching (s : ChatState) (c : Fin numChannels) : Prop where
  idle : AllDone s
  sent : (s.channels c).msgCount ≠ 0

/-- What the thread of `chat_run` knows before its next statement. -/
def UiOk (s : ChatState) : UiPc → Prop
  | .outside | .resetInput | .testGreet | .loop | .testTyping _ | .busyInput _ | .busyDirty _
  | .leave => True
  | .push k c _ => (s.channels c).typing = false ∧ (k = .greet → c = 0)
  | .greetText _ => (s.channels 0).typing = false
  | .userText c _ => (s.channels c).typing = false
  | .testRunning c _ | .busyText c _ => (s.channels c).typing = false ∧ (s.channels c).msgCount ≠ 0
  | .setRunning c _ => Launching s c
  | .setChan c _ => Launching s c ∧ s.botRunning = true
  | .setMsg c _ => Launching s c ∧ s.botRunning = true ∧ s.job.chan = some c
  | .setPrompt c m | .setTyping c m =>
    Launching s c ∧ s.botRunning = true ∧ s.job.chan = some c ∧ s.job.msg = some (c, m)
  | .setDirty c m | .resetSent c m | .create c m =>
    Launching s c ∧ s.botRunning = true ∧ s.job.chan = some c ∧ s.job.msg = some (c, m) ∧
      (s.channels c).typing = true

structure ChatInv (s : ChatState) : Prop where
  ui : UiOk s s.ui
  workers : ∀ w ∈ s.workers, WorkerOk s w
  single : ∀ (i j : Nat) (v w : Worker), s.workers[i]? = some v → s.workers[j]? = some w → v.pc ≠ .done → w.pc ≠ .done →
    i = j
  counted : ∀ c, (s.channels c).typing = true → (s.channels c).msgCount ≠ 0

/-! ## The thread of `chat_run` -/

/-- The statements between the test of `bot_running` and the return. -/
def UiPc.Launch : UiPc → Prop
  | .setRunning _ _ | .setChan _ _ | .setMsg _ _ | .setPrompt _ _ | .setTyping _ _ | .setDirty _ _
  | .resetSent _ _ | .create _ _ => True
  | _ => False

/-- The channel whose messages a statement may change. -/
def UiPc.writes : UiPc → Option (Fin numChannels)
  | .push _ c _ | .userText c _ | .busyText c _ => some c
  | .greetText _ => some 0
  | _ => none

/-- A step that leaves the job, the flags and the workers alone, and the messages of other
    channels. -/
structure Keeps (s t : ChatState) (c : Option (Fin numChannels)) : Prop where
  job : t.job = s.job
  running : t.botRunning = s.botRunning
  workers : t.workers = s.workers
  typing : ∀ d, (t.channels d).typing = (s.channels d).typing
  count : ∀ d, (s.channels d).msgCount ≤ (t.channels d).msgCount
  msg : ∀ q : MsgPtr, c ≠ some q.1 → t.message q = s.message q

section keeps

variable {s t : ChatState} {c : Option (Fin numChannels)}

theorem Keeps.same (hc : t.channels = s.channels) (hj : t.job = s.job)
    (hr : t.botRunning = s.botRunning) (hw : t.workers = s.workers) : Keeps s t c where
  job := hj
  running := hr
  workers := hw
  typing := fun d => by rw [hc]
  count := fun d => Nat.le_of_eq (by rw [hc])
  msg := fun q _ => by rw [ChatState.message, hc, ChatState.message]

theorem keeps_modifyMsg (s : ChatState) (p : MsgPtr) (f : Message → Message) (pc : UiPc) :
    Keeps s { s.modifyMsg p f with ui := pc } (some p.1) where
  job := rfl
  running := rfl
  workers := rfl
  typing := fun d => typing_modifyMsg ..
  count := fun d => Nat.le_of_eq (msgCount_modifyMsg ..).symm
  msg := fun q hq => message_modifyMsg s p q f fun h => hq (by rw [h])

theorem keeps_setDirty (s : ChatState) (d : Fin numChannels) (b : Bool) (pc : UiPc) :
    Keeps s { s.setDirty d b with ui := pc } c where
  job := rfl
  running := rfl
  workers := rfl
  typing := fun _ => typing_setDirty ..
  count := fun _ => Nat.le_of_eq (msgCount_setDirty ..).symm
  msg := fun _ _ => message_setDirty ..

theorem pushStep_keeps {ticks : Nat} {k : Purpose} {d : Fin numChannels} {pc : PushPc}
    (h : s.pushStep ticks k d pc = some t) : Keeps s t (some d) := by
  cases pc with
  | slot => cases h; exact .same rfl rfl rfl rfl
  | author m => cases h; exact keeps_modifyMsg s (d, m) _ _
  | color m => cases h; exact keeps_modifyMsg s (d, m) _ _
  | clear m => cases h; exact keeps_modifyMsg s (d, m) _ _
  | minutes m => cases h; exact keeps_modifyMsg s (d, m) _ _
  | count m =>
    rw [ChatState.pushStep] at h
    split at h
    · cases h
    · cases h
      exact ⟨rfl, rfl, rfl, fun _ => typing_countUp .., fun e => by
        rw [show (({ s.countUp d with ui := k.next d m } : ChatState).channels e).msgCount = _ from
          msgCount_countUp s d e]
        split <;> omega, fun _ _ => message_countUp ..⟩

theorem uiStep_keeps {ticks : Nat} (h : s.uiStep ticks = some t) (hl : ¬ s.ui.Launch) :
    Keeps s t s.ui.writes := by
  unfold ChatState.uiStep at h
  cases hui : s.ui with
  | push k d pc =>
    rw [hui] at h
    exact pushStep_keeps h
  | greetText m => rw [hui] at h; cases h; exact keeps_modifyMsg s (0, m) _ _
  | userText d m => rw [hui] at h; cases h; exact keeps_modifyMsg s (d, m) _ _
  | busyText d m => rw [hui] at h; cases h; exact keeps_modifyMsg s (d, m) _ _
  | busyDirty d => rw [hui] at h; cases h; exact keeps_setDirty ..
  | leave => rw [hui] at h; cases h; exact keeps_setDirty ..
  | outside => rw [hui] at h; cases h
  | loop => rw [hui] at h; cases h
  | resetInput => rw [hui] at h; cases h; exact .same rfl rfl rfl rfl
  | testGreet => rw [hui] at h; cases h; exact .same rfl rfl rfl rfl
  | testTyping d => rw [hui] at h; cases h; exact .same rfl rfl rfl rfl
  | testRunning d m => rw [hui] at h; cases h; exact .same rfl rfl rfl rfl
  | busyInput d => rw [hui] at h; cases h; exact .same rfl rfl rfl rfl
  | _ => rw [hui] at hl; exact absurd trivial hl

/-- A worker does not notice a step that keeps the job and the flags. -/
theorem WorkerOk.keep {w : Worker} (hw : WorkerOk s w) (hk : Keeps s t c) : WorkerOk t w where
  running := fun h => hk.running.trans (hw.running h)
  chan := fun h => by rw [hk.job]; exact hw.chan h
  msg := fun h => by rw [hk.job]; exact hw.msg h
  typing := fun h => (hk.typing _).trans (hw.typing h)
  own := hw.own

theorem Launching.keep {d : Fin numChannels} (hl : Launching s d) (hw : t.workers = s.workers)
    (hc : (s.channels d).msgCount ≤ (t.channels d).msgCount) : Launching t d where
  idle := fun w h => hl.idle w (hw ▸ h)
  sent := fun h => hl.sent (by omega)

theorem ChatInv.keep (hs : ChatInv s) (hk : Keeps s t c) (hui : UiOk t t.ui) : ChatInv t where
  ui := hui
  workers := fun w h => (hs.workers w (hk.workers ▸ h)).keep hk
  single := by rw [hk.workers]; exact hs.single
  counted := fun d h => by
    have := hs.counted d ((hk.typing d).symm.trans h)
    have := hk.count d
    omega

theorem WorkerOk.of_done {w : Worker} (h : w.pc = .done) : WorkerOk t w where
  running := fun hne => absurd h hne
  chan := fun hw => by rw [h] at hw; exact hw.elim
  msg := fun hw => by rw [h] at hw; exact hw.elim
  typing := fun hw => by rw [h] at hw; exact hw.elim
  own := fun hw => by rw [h] at hw; exact hw.elim

/-- While no worker is under way every flag and the job may be written. -/
theorem ChatInv.idle (hdone : AllDone s) (hw : t.workers = s.workers) (hui : UiOk t t.ui)
    (hcount : ∀ d, (t.channels d).typing = true → (t.channels d).msgCount ≠ 0) : ChatInv t where
  ui := hui
  workers := fun w h => .of_done (hdone w (hw ▸ h))
  single := fun i _ v _ hv _ hne _ => by
    rw [hw] at hv
    exact absurd (hdone v (List.mem_of_getElem? hv)) hne
  counted := hcount

/-- An entry of a longer list is an old one or the new one. -/
theorem getElem?_snoc {α : Type} {l : List α} {a x : α} {k : Nat} (h : (l ++ [a])[k]? = some x) :
    l[k]? = some x ∨ k = l.length ∧ x = a := by
  rcases Nat.lt_trichotomy k l.length with hlt | heq | hgt
  · rw [List.getElem?_append_left hlt] at h
    exact .inl h
  · rw [heq, List.getElem?_concat_length] at h
    exact .inr ⟨heq, (Option.some.inj h).symm⟩
  · rw [List.getElem?_eq_none (by rw [List.length_append, List.length_singleton]; omega)] at h
    cases h

/-- The new worker finds what `send_message` has prepared. -/
theorem ChatInv.create (hs : ChatInv s) {d : Fin numChannels} {m : Fin msgsPerChannel}
    (h : UiOk s (.create d m)) :
    ChatInv { s with workers := s.workers ++ [⟨.start, (d, m)⟩], ui := .loop } where
  ui := trivial
  workers := fun w hw => by
    obtain ⟨hl, hrun, hchan, hmsg, htyping⟩ := h
    rcases List.mem_append.mp hw with hold | hnew
    · exact .of_done (hl.idle w hold)
    · rw [List.mem_singleton.mp hnew]
      exact ⟨fun _ => hrun, fun _ => hchan, fun _ => hmsg, fun _ => htyping, fun _ => nofun⟩
  single := fun i j v w hv hw hv' hw' => by
    obtain ⟨hl, -⟩ := h
    -- Only the last worker is under way.
    have hlast : ∀ {k : Nat} {x : Worker}, (s.workers ++ [⟨.start, (d, m)⟩])[k]? = some x →
        x.pc ≠ .done → k = s.workers.length := by
      intro k x hx hne
      rcases getElem?_snoc hx with hold | ⟨hk, -⟩
      · exact absurd (hl.idle x (List.mem_of_getElem? hold)) hne
      · exact hk
    exact (hlast hv hv').trans (hlast hw hw').symm
  counted := hs.counted

theorem UiOk.pushStep {ticks : Nat} {k : Purpose} {d : Fin numChannels} {pc : PushPc}
    (h : s.pushStep ticks k d pc = some t) (hui : UiOk s (.push k d pc)) : UiOk t t.ui := by
  obtain ⟨htyping, hgreet⟩ := hui
  have hk := pushStep_keeps h
  have htyping' : (t.channels d).typing = false := (hk.typing d).trans htyping
  cases pc with
  | count m =>
    rw [ChatState.pushStep] at h
    split at h
    · cases h
    · cases h
      cases k with
      | greet =>
        obtain rfl := hgreet rfl
        exact htyping'
      | user => exact htyping'
      | bot =>
        refine ⟨htyping', ?_⟩
        show ((s.countUp d).channels d).msgCount ≠ 0
        rw [msgCount_countUp, if_pos rfl]
        exact Nat.succ_ne_zero _
  | _ => cases h; exact ⟨htyping', hgreet⟩

theorem ChatInv.uiStep (hs : ChatInv s) {ticks : Nat} (h : s.uiStep ticks = some t) : ChatInv t := by
  have hui := hs.ui
  by_cases hl : s.ui.Launch
  · unfold ChatState.uiStep at h
    cases hpc : s.ui with
    | setRunning d m =>
      rw [hpc] at h hui
      cases h
      exact .idle hui.idle rfl ⟨⟨hui.idle, hui.sent⟩, rfl⟩ hs.counted
    | setChan d m =>
      rw [hpc] at h hui
      cases h
      obtain ⟨hlaunch, hrun⟩ := hui
      exact .idle hlaunch.idle rfl ⟨⟨hlaunch.idle, hlaunch.sent⟩, hrun, rfl⟩ hs.counted
    | setMsg d m =>
      rw [hpc] at h hui
      cases h
      obtain ⟨hlaunch, hrun, hchan⟩ := hui
      exact .idle hlaunch.idle rfl ⟨⟨hlaunch.idle, hlaunch.sent⟩, hrun, hchan, rfl⟩ hs.counted
    | setPrompt d m =>
      rw [hpc] at h hui
      cases h
      obtain ⟨hlaunch, hrun, hjob⟩ := hui
      exact .idle hlaunch.idle rfl ⟨⟨hlaunch.idle, hlaunch.sent⟩, hrun, hjob⟩ hs.counted
    | setTyping d m =>
      rw [hpc] at h hui
      cases h
      obtain ⟨hlaunch, hrun, hchan, hmsg⟩ := hui
      have hcount : ∀ e, ((s.setTyping d true).channels e).msgCount = (s.channels e).msgCount :=
        fun e => msgCount_setTyping ..
      refine .idle hlaunch.idle rfl ⟨⟨hlaunch.idle, ?_⟩, hrun, hchan, hmsg, ?_⟩ fun e he => ?_
      · exact (hcount d).trans_ne hlaunch.sent
      · exact (typing_setTyping s d d true).trans (if_pos rfl)
      · refine (hcount e).trans_ne ?_
        have he : ((s.setTyping d true).channels e).typing = true := he
        rw [typing_setTyping] at he
        split at he
        · next heq =>
          rw [heq]
          exact hlaunch.sent
        · exact hs.counted e he
    | setDirty d m =>
      rw [hpc] at h hui
      cases h
      obtain ⟨hlaunch, hrun, hchan, hmsg, htyping⟩ := hui
      have hk := keeps_setDirty (c := none) s d true (.resetSent d m)
      exact hs.keep hk ⟨hlaunch.keep hk.workers (hk.count d), hrun, hchan, hmsg, (hk.typing d).trans htyping⟩
    | resetSent d m =>
      rw [hpc] at h hui
      cases h
      obtain ⟨hlaunch, hrest⟩ := hui
      exact .idle hlaunch.idle rfl ⟨⟨hlaunch.idle, hlaunch.sent⟩, hrest⟩ hs.counted
    | create d m =>
      rw [hpc] at h hui
      cases h
      exact hs.create hui
    | _ => rw [hpc] at hl; exact hl.elim
  · have hk := uiStep_keeps h hl
    refine hs.keep hk ?_
    unfold ChatState.uiStep at h
    cases hpc : s.ui with
    | push k d pc =>
      rw [hpc] at h hui
      exact UiOk.pushStep h hui
    | testGreet =>
      rw [hpc] at h
      cases h
      show UiOk _ (if _ then _ else _)
      split
      · next hzero =>
        have hquiet : (s.channels 0).typing = false :=
          Bool.eq_false_iff.mpr fun htyping => hs.counted 0 htyping hzero
        exact ⟨hquiet, fun _ => rfl⟩
      · trivial
    | testTyping d =>
      rw [hpc] at h
      cases h
      show UiOk _ (if _ then _ else _)
      split
      · trivial
      · next hgo => exact ⟨Bool.eq_false_iff.mpr fun htyping => hgo (.inr htyping), nofun⟩
    | userText d m =>
      rw [hpc] at h hui
      cases h
      exact ⟨(hk.typing d).trans hui, nofun⟩
    | testRunning d m =>
      rw [hpc] at h hui
      cases h
      show UiOk _ (if _ then _ else _)
      split
      · exact hui
      · next hstop =>
        refine ⟨fun w hw => ?_, hui.2⟩
        exact Classical.byContradiction fun hne => hstop ((hs.workers w hw).running hne)
    | outside => rw [hpc] at h; cases h
    | loop => rw [hpc] at h; cases h
    | setRunning d m => rw [hpc] at hl; exact absurd trivial hl
    | setChan d m => rw [hpc] at hl; exact absurd trivial hl
    | setMsg d m => rw [hpc] at hl; exact absurd trivial hl
    | setPrompt d m => rw [hpc] at hl; exact absurd trivial hl
    | setTyping d m => rw [hpc] at hl; exact absurd trivial hl
    | setDirty d m => rw [hpc] at hl; exact absurd trivial hl
    | resetSent d m => rw [hpc] at hl; exact absurd trivial hl
    | create d m => rw [hpc] at hl; exact absurd trivial hl
    | _ => rw [hpc] at h; cases h; trivial

/-- Only `thread_create` makes a worker. -/
theorem uiStep_workers {ticks : Nat} (h : s.uiStep ticks = some t) :
    t.workers = s.workers ∨ ∃ c m, s.ui = .create c m ∧
      t = { s with workers := s.workers ++ [⟨.start, (c, m)⟩], ui := .loop } := by
  by_cases hl : s.ui.Launch
  · unfold ChatState.uiStep at h
    cases hpc : s.ui with
    | create c m =>
      rw [hpc] at h
      cases h
      exact .inr ⟨c, m, rfl, rfl⟩
    | setRunning c m => rw [hpc] at h; cases h; exact .inl rfl
    | setChan c m => rw [hpc] at h; cases h; exact .inl rfl
    | setMsg c m => rw [hpc] at h; cases h; exact .inl rfl
    | setPrompt c m => rw [hpc] at h; cases h; exact .inl rfl
    | setTyping c m => rw [hpc] at h; cases h; exact .inl rfl
    | setDirty c m => rw [hpc] at h; cases h; exact .inl rfl
    | resetSent c m => rw [hpc] at h; cases h; exact .inl rfl
    | _ => rw [hpc] at hl; exact hl.elim
  · exact .inl (uiStep_keeps h hl).workers

/-- While `send_message` sets the flags, no worker is under way. -/
theorem ChatInv.idle_of_launch (hs : ChatInv s) (hl : s.ui.Launch) : AllDone s := by
  have hui := hs.ui
  cases hpc : s.ui with
  | setRunning d m => rw [hpc] at hui; exact hui.idle
  | setChan d m => rw [hpc] at hui; exact hui.1.idle
  | setMsg d m => rw [hpc] at hui; exact hui.1.idle
  | setPrompt d m => rw [hpc] at hui; exact hui.1.idle
  | setTyping d m => rw [hpc] at hui; exact hui.1.idle
  | setDirty d m => rw [hpc] at hui; exact hui.1.idle
  | resetSent d m => rw [hpc] at hui; exact hui.1.idle
  | create d m => rw [hpc] at hui; exact hui.1.idle
  | _ => rw [hpc] at hl; exact hl.elim

end keeps

/-! ## The workers -/

/-- A step of a worker: the job stays as it is, and of the messages only `p` may change. -/
structure Moves (s t : ChatState) (p : MsgPtr) : Prop where
  job : t.job = s.job
  ui : t.ui = s.ui
  workers : t.workers = s.workers
  typing : ∀ d, (t.channels d).typing = true → (s.channels d).typing = true
  count : ∀ d, (t.channels d).msgCount = (s.channels d).msgCount
  msg : ∀ q, q ≠ p → t.message q = s.message q

section worker

variable {s t : ChatState} {p : MsgPtr} {w : Worker}

theorem Moves.refl (s : ChatState) (p : MsgPtr) : Moves s s p :=
  ⟨rfl, rfl, rfl, fun _ h => h, fun _ => rfl, fun _ _ => rfl⟩

theorem moves_modifyMsg (s : ChatState) (p : MsgPtr) (f : Message → Message) :
    Moves s (s.modifyMsg p f) p where
  job := rfl
  ui := rfl
  workers := rfl
  typing := fun _ h => by rwa [typing_modifyMsg] at h
  count := fun _ => msgCount_modifyMsg ..
  msg := fun q hq => message_modifyMsg s p q f hq

theorem moves_setDirty (s : ChatState) (p : MsgPtr) (d : Fin numChannels) (b : Bool) :
    Moves s (s.setDirty d b) p where
  job := rfl
  ui := rfl
  workers := rfl
  typing := fun _ h => by rwa [typing_setDirty] at h
  count := fun _ => msgCount_setDirty ..
  msg := fun _ _ => message_setDirty ..

theorem moves_clearTyping (s : ChatState) (p : MsgPtr) (d : Fin numChannels) :
    Moves s (s.setTyping d false) p where
  job := rfl
  ui := rfl
  workers := rfl
  typing := fun e h => by
    rw [typing_setTyping] at h
    split at h
    · cases h
    · exact h
  count := fun _ => msgCount_setTyping ..
  msg := fun _ _ => message_setTyping ..

/-- A worker that goes on writing relies on the same facts. -/
theorem WorkerOk.goOn (hw : WorkerOk s w) (hpc : w.pc.Writing) (hjob : t.job = s.job)
    (hrun : t.botRunning = s.botRunning) (htyping : ∀ d, (t.channels d).typing = (s.channels d).typing)
    {pc : WorkerPc} (hown : ∀ c, pc.chan = some c → c = w.mine.1) :
    WorkerOk t { w with pc := pc } where
  running := fun _ => hrun.trans (hw.running fun h => by rw [h] at hpc; exact hpc.elim)
  chan := fun _ => by rw [hjob]; exact hw.chan hpc
  msg := fun _ => by rw [hjob]; exact hw.msg hpc
  typing := fun _ => (htyping _).trans (hw.typing hpc)
  own := fun _ => hown

/-- A worker that has written `typing` only relies on `bot_running`. -/
theorem WorkerOk.after (hrun : t.botRunning = true) {pc : WorkerPc} (hpc : ¬ pc.Writing) :
    WorkerOk t { w with pc := pc } where
  running := fun _ => hrun
  chan := fun h => absurd h hpc
  msg := fun h => absurd h hpc
  typing := fun h => absurd h hpc
  own := fun h => absurd h hpc

/-- What one statement of a worker does. -/
theorem workerStep_moves (hw : WorkerOk s w) {pc : WorkerPc}
    (h : s.workerStep w.pc = some (t, pc)) :
    Moves s t w.mine ∧ WorkerOk t { w with pc := pc } := by
  obtain ⟨wpc, p⟩ := w
  cases wpc with
  | start =>
    cases h
    exact ⟨.refl s p, hw.goOn trivial rfl rfl (fun _ => rfl) nofun⟩
  | loadChan =>
    rw [ChatState.workerStep, hw.chan trivial] at h
    cases h
    exact ⟨.refl s p, hw.goOn trivial rfl rfl (fun _ => rfl) fun c hc => by cases hc; rfl⟩
  | generate c => cases h
  | emitLen c piece =>
    rw [ChatState.workerStep, hw.msg trivial] at h
    cases h
    exact ⟨.refl s p, hw.goOn trivial rfl rfl (fun _ => rfl) (hw.own trivial)⟩
  | emitCopy c piece len =>
    rw [ChatState.workerStep, hw.msg trivial] at h
    simp only at h
    split at h
    · cases h
      exact ⟨moves_modifyMsg .., hw.goOn (t := s.modifyMsg p _) trivial rfl rfl
        (fun _ => typing_modifyMsg ..) (hw.own trivial)⟩
    · cases h
      exact ⟨.refl s p, hw.goOn trivial rfl rfl (fun _ => rfl) (hw.own trivial)⟩
  | emitDirty c =>
    rw [ChatState.workerStep, hw.chan trivial] at h
    cases h
    exact ⟨moves_setDirty .., hw.goOn (t := s.setDirty _ true) trivial rfl rfl
      (fun _ => typing_setDirty ..) (hw.own trivial)⟩
  | failText c text =>
    rw [ChatState.workerStep, hw.msg trivial] at h
    cases h
    exact ⟨moves_modifyMsg .., hw.goOn (t := s.modifyMsg p _) trivial rfl rfl
        (fun _ => typing_modifyMsg ..) (hw.own trivial)⟩
  | testEmpty c =>
    rw [ChatState.workerStep, hw.msg trivial] at h
    cases h
    refine ⟨.refl s p, hw.goOn trivial rfl rfl (fun _ => rfl) ?_⟩
    split <;> exact hw.own trivial
  | emptyText c =>
    rw [ChatState.workerStep, hw.msg trivial] at h
    cases h
    exact ⟨moves_modifyMsg .., hw.goOn (t := s.modifyMsg p _) trivial rfl rfl
        (fun _ => typing_modifyMsg ..) (hw.own trivial)⟩
  | clearTyping c =>
    cases h
    exact ⟨moves_clearTyping .., .after (t := s.setTyping c false) (hw.running nofun) id⟩
  | setDirty c =>
    cases h
    exact ⟨moves_setDirty .., .after (t := s.setDirty c true) (hw.running nofun) id⟩
  | clearRunning =>
    cases h
    exact ⟨⟨rfl, rfl, rfl, fun _ h => h, fun _ => rfl, fun _ _ => rfl⟩, .of_done rfl⟩
  | done => cases h

/-- The thread of `chat_run` does not notice a step of a worker. -/
theorem UiOk.moves (hui : UiOk s s.ui) (hne : ¬ AllDone s)
    (htyping : ∀ d, (t.channels d).typing = true → (s.channels d).typing = true)
    (hcount : ∀ d, (t.channels d).msgCount = (s.channels d).msgCount) : UiOk t s.ui := by
  have hquiet : ∀ d, (s.channels d).typing = false → (t.channels d).typing = false := fun d h =>
    Bool.eq_false_iff.mpr fun ht => by
      rw [htyping d ht] at h
      cases h
  cases hpc : s.ui with
  | push k d pc => rw [hpc] at hui; exact ⟨hquiet d hui.1, hui.2⟩
  | greetText m => rw [hpc] at hui; exact hquiet 0 hui
  | userText d m => rw [hpc] at hui; exact hquiet d hui
  | testRunning d m => rw [hpc] at hui; exact ⟨hquiet d hui.1, by rw [hcount]; exact hui.2⟩
  | busyText d m => rw [hpc] at hui; exact ⟨hquiet d hui.1, by rw [hcount]; exact hui.2⟩
  | setRunning d m => rw [hpc] at hui; exact absurd hui.idle hne
  | setChan d m => rw [hpc] at hui; exact absurd hui.1.idle hne
  | setMsg d m => rw [hpc] at hui; exact absurd hui.1.idle hne
  | setPrompt d m => rw [hpc] at hui; exact absurd hui.1.idle hne
  | setTyping d m => rw [hpc] at hui; exact absurd hui.1.idle hne
  | setDirty d m => rw [hpc] at hui; exact absurd hui.1.idle hne
  | resetSent d m => rw [hpc] at hui; exact absurd hui.1.idle hne
  | create d m => rw [hpc] at hui; exact absurd hui.1.idle hne
  | _ => trivial

theorem workers_putWorker (u : ChatState) {i : Nat} {w : Worker} (pc : WorkerPc) (h : u.workers[i]? = some w) :
    (u.putWorker i w pc).workers[i]? = some { w with pc := pc } := by
  show (u.workers.set i { w with pc := pc })[i]? = _
  rw [List.getElem?_set, if_pos rfl, if_pos (List.getElem?_eq_some_iff.mp h).1]

theorem ChatInv.moves (hs : ChatInv s) {i : Nat} (hi : s.workers[i]? = some w) (hne : w.pc ≠ .done)
    (hm : Moves s t p) {pc : WorkerPc} (hw : WorkerOk t { w with pc := pc }) :
    ChatInv (t.putWorker i w pc) := by
  have hbusy : ¬ AllDone s := fun h => hne (h w (List.mem_of_getElem? hi))
  -- The other workers are done.
  have hother : ∀ {j : Nat} {v : Worker}, (t.putWorker i w pc).workers[j]? = some v →
      j = i ∧ v = { w with pc := pc } ∨ v.pc = .done := by
    intro j v hv
    rw [ChatState.putWorker, List.getElem?_set, hm.workers] at hv
    split at hv
    · next hji =>
      split at hv
      · cases hv
        exact .inl ⟨hji.symm, rfl⟩
      · cases hv
    · next hji =>
      exact .inr (Classical.byContradiction fun hv' => hji (hs.single i j w v hi hv hne hv'))
  refine ⟨?_, fun v hv => ?_, fun j k u v hu hv hu' hv' => ?_, fun d hd => ?_⟩
  · show UiOk _ t.ui
    rw [hm.ui]
    exact hs.ui.moves hbusy hm.typing hm.count
  · obtain ⟨j, hj⟩ := List.mem_iff_getElem?.mp hv
    rcases hother hj with ⟨-, rfl⟩ | hdone
    · exact ⟨hw.running, hw.chan, hw.msg, hw.typing, hw.own⟩
    · exact .of_done hdone
  · rcases hother hu with ⟨hj, -⟩ | hdone
    · rcases hother hv with ⟨hk, -⟩ | hdone
      · rw [hj, hk]
      · exact absurd hdone hv'
    · exact absurd hdone hu'
  · have hd' : (t.channels d).typing = true := hd
    show (t.channels d).msgCount ≠ 0
    rw [hm.count]
    exact hs.counted d (hm.typing d hd')

end worker

/-! ## Every interleaving -/

/-- Before the first call of `chat_run`; the table of channels is as the program has it. -/
def ChatState.Initial (s : ChatState) : Prop :=
  (∀ c, (s.channels c).msgCount = 0 ∧ (s.channels c).typing = false) ∧ s.input = [] ∧
    s.currentChan = 0 ∧ s.job.chan = none ∧ s.job.msg = none ∧ s.botRunning = false ∧
    s.ui = .outside ∧ s.workers = []

/-- The states of every interleaving. -/
def Reachable : ChatState → Prop := Reach ChatState.Initial fun s t => ∃ e, s.step e = some t

theorem chatInv_initial {s : ChatState} (h : s.Initial) : ChatInv s := by
  obtain ⟨hchan, -, -, -, -, -, hui, hworkers⟩ := h
  refine ⟨by rw [hui]; trivial, fun w hw => ?_, fun i j v w hv => ?_, fun c hc => ?_⟩
  · rw [hworkers] at hw
    cases hw
  · rw [hworkers] at hv
    cases hv
  · rw [(hchan c).2] at hc
    cases hc

/-- A statement of the thread of `chat_run`. -/
def ChatEvent.IsUi : ChatEvent → Prop
  | .run | .key _ | .redraw | .ui _ => True
  | _ => False

/-- A statement of worker `i`. -/
def ChatEvent.IsWorker (i : Nat) : ChatEvent → Prop
  | .worker j | .emit j _ | .finish j _ => j = i
  | _ => False

section step

variable {s t : ChatState}

/-- A key, the start of `chat_run` or a redraw. -/
theorem step_other {e : ChatEvent} (h : s.step e = some t)
    (he : match e with | .run | .key _ | .redraw => True | _ => False) :
    Keeps s t none ∧ UiOk t t.ui ∧ ¬ s.ui.Launch := by
  cases e with
  | run =>
    rw [ChatState.step] at h
    split at h
    · next hui =>
      cases h
      exact ⟨.same rfl rfl rfl rfl, trivial, by rw [hui]; exact id⟩
    · cases h
  | key k =>
    rw [ChatState.step] at h
    split at h
    · next hui =>
      have hnl : ¬ s.ui.Launch := by rw [hui]; exact id
      have hloop : UiOk s s.ui := by rw [hui]; trivial
      cases h
      cases k with
      | char b =>
        rw [ChatState.keyStep]
        split
        · exact ⟨.same rfl rfl rfl rfl, by show UiOk _ s.ui; rw [hui]; trivial, hnl⟩
        · exact ⟨.same rfl rfl rfl rfl, hloop, hnl⟩
      | escape => exact ⟨.same rfl rfl rfl rfl, trivial, hnl⟩
      | enter => exact ⟨.same rfl rfl rfl rfl, trivial, hnl⟩
      | tab => exact ⟨.same rfl rfl rfl rfl, by show UiOk _ s.ui; rw [hui]; trivial, hnl⟩
      | backspace => exact ⟨.same rfl rfl rfl rfl, by show UiOk _ s.ui; rw [hui]; trivial, hnl⟩
    · cases h
  | redraw =>
    rw [ChatState.step] at h
    split at h
    · next hui =>
      cases h
      exact ⟨keeps_setDirty s s.currentChan false s.ui, by show UiOk _ s.ui; rw [hui]; trivial,
        by rw [hui]; exact id⟩
    · cases h
  | _ => exact he.elim

/-- In `llm_generate` a worker waits for the model. -/
theorem WorkerOk.answer {w : Worker} (hw : WorkerOk s w) {c : Fin numChannels}
    (hpc : w.pc = .generate c) {pc : WorkerPc} (hchan : pc.chan = some c) :
    WorkerOk s { w with pc := pc } :=
  hw.goOn (t := s) (by rw [hpc]; trivial) rfl rfl (fun _ => rfl) fun d hd => by
    rw [hchan] at hd
    exact hw.own (by rw [hpc]; trivial) d (by rw [hpc]; exact hd)

/-- A step of worker `i` is a statement of it, or what `llm_generate` does for it. -/
theorem step_worker_view {e : ChatEvent} {i : Nat} (he : e.IsWorker i) (h : s.step e = some t) :
    ∃ w u pc, s.workers[i]? = some w ∧ t = u.putWorker i w pc ∧
      (s.workerStep w.pc = some (u, pc) ∨
        u = s ∧ pc.Writing ∧ ∃ c, w.pc = .generate c ∧ pc.chan = some c) := by
  cases e with
  | worker j =>
    obtain rfl : j = i := he
    rw [ChatState.step] at h
    simp only [Option.bind_eq_bind, Option.bind_eq_some_iff, Option.pure_def, Option.some.injEq] at h
    obtain ⟨w, hi, ⟨u, pc⟩, hstep, rfl⟩ := h
    exact ⟨w, u, pc, hi, rfl, .inl hstep⟩
  | emit j piece =>
    obtain rfl : j = i := he
    rw [ChatState.step] at h
    simp only [Option.bind_eq_bind, Option.bind_eq_some_iff] at h
    obtain ⟨w, hi, hstep⟩ := h
    split at hstep
    · next c hpc =>
      cases hstep
      exact ⟨w, s, _, hi, rfl, .inr ⟨rfl, trivial, c, hpc, rfl⟩⟩
    · cases hstep
  | finish j n =>
    obtain rfl : j = i := he
    rw [ChatState.step] at h
    simp only [Option.bind_eq_bind, Option.bind_eq_some_iff] at h
    obtain ⟨w, hi, hstep⟩ := h
    split at hstep
    · next c hpc =>
      cases hstep
      have hend : (afterGenerate c n).Writing ∧ (afterGenerate c n).chan = some c := by
        unfold afterGenerate
        split <;> exact ⟨trivial, rfl⟩
      exact ⟨w, s, _, hi, rfl, .inr ⟨rfl, hend.1, c, hpc, hend.2⟩⟩
    · cases hstep
  | _ => exact he.elim

/-- What a step of worker `i` does. -/
theorem step_worker (hs : ChatInv s) {e : ChatEvent} {i : Nat} (he : e.IsWorker i)
    (h : s.step e = some t) : ∃ w u pc, s.workers[i]? = some w ∧ w.pc ≠ .done ∧ Moves s u w.mine ∧
      WorkerOk u { w with pc := pc } ∧ t = u.putWorker i w pc := by
  obtain ⟨w, u, pc, hi, rfl, hstep | ⟨rfl, -, c, hpc, hchan⟩⟩ := step_worker_view he h
  · have hne : w.pc ≠ .done := fun hdone => by
      rw [hdone] at hstep
      cases hstep
    obtain ⟨hm, hw⟩ := workerStep_moves (hs.workers w (List.mem_of_getElem? hi)) hstep
    exact ⟨w, u, pc, hi, hne, hm, hw, rfl⟩
  · exact ⟨w, u, pc, hi, by rw [hpc]; exact nofun, .refl u _,
      (hs.workers w (List.mem_of_getElem? hi)).answer hpc hchan, rfl⟩

/-- Every step keeps the invariant. -/
theorem ChatInv.step (hs : ChatInv s) {e : ChatEvent} (h : s.step e = some t) : ChatInv t := by
  have hworker : ∀ i, e.IsWorker i → ChatInv t := fun i he => by
    obtain ⟨w, u, pc, hi, hne, hm, hw, rfl⟩ := step_worker hs he h
    exact hs.moves hi hne hm hw
  cases e with
  | ui ticks => exact hs.uiStep h
  | worker i => exact hworker i rfl
  | emit i piece => exact hworker i rfl
  | finish i n => exact hworker i rfl
  | _ =>
    obtain ⟨hk, hui, -⟩ := step_other h trivial
    exact hs.keep hk hui

end step

theorem chatInv_reachable {s : ChatState} (h : Reachable s) : ChatInv s :=
  h.invariant (fun _ => chatInv_initial) fun _ _ hs ⟨_, hstep⟩ => hs.step hstep

/-- While a worker writes, the thread of `chat_run` neither changes the job nor the worker's
    message. -/
theorem ChatInv.ui_aside {s t : ChatState} (hs : ChatInv s) {w : Worker} (hw : w ∈ s.workers)
    (hpc : w.pc.Writing) {e : ChatEvent} (he : e.IsUi) (h : s.step e = some t) :
    t.job = s.job ∧ t.message w.mine = s.message w.mine := by
  have hok := hs.workers w hw
  have hne : w.pc ≠ .done := fun hdone => by
    rw [hdone] at hpc
    exact hpc
  cases e with
  | ui ticks =>
    have hui := hs.ui
    have hbusy : ¬ s.ui.Launch := fun hl => hne (hs.idle_of_launch hl w hw)
    have hk := uiStep_keeps h hbusy
    refine ⟨hk.job, hk.msg w.mine fun hwrites => ?_⟩
    -- A channel that is written to is not one in which a bot is typing.
    have hquiet : (s.channels w.mine.1).typing = false := by
      cases hpc' : s.ui with
      | push k d pc => rw [hpc'] at hwrites hui; cases hwrites; exact hui.1
      | greetText m =>
        rw [hpc'] at hwrites hui
        rw [← Option.some.inj hwrites]
        exact hui
      | userText d m => rw [hpc'] at hwrites hui; cases hwrites; exact hui
      | busyText d m => rw [hpc'] at hwrites hui; cases hwrites; exact hui.1
      | _ => rw [hpc'] at hwrites; cases hwrites
    rw [hok.typing hpc] at hquiet
    cases hquiet
  | worker i => exact he.elim
  | emit i piece => exact he.elim
  | finish i n => exact he.elim
  | _ =>
    obtain ⟨hk, -, -⟩ := step_other h trivial
    exact ⟨hk.job, hk.msg _ nofun⟩

/-- In every reachable state at most one worker is writing; the job is the one it was created with,
    and stays so; no other thread changes its message, and it changes no other message. -/
theorem job_integrity (s : ChatState) (h : Reachable s) :
    (∀ (i j : Nat) (v w : Worker), s.workers[i]? = some v → s.workers[j]? = some w → v.pc.Writing →
      w.pc.Writing → i = j) ∧
    ∀ (i : Nat) (w : Worker), s.workers[i]? = some w → w.pc.Writing →
      s.job.chan = some w.mine.1 ∧ s.job.msg = some w.mine ∧
      (∀ c, w.pc.chan = some c → c = w.mine.1) ∧
      (∀ e t, s.step e = some t → e.IsUi → t.job = s.job ∧ t.message w.mine = s.message w.mine) ∧
      ∀ e t, s.step e = some t → e.IsWorker i → t.job = s.job ∧
        ∀ q, q ≠ w.mine → t.message q = s.message q := by
  have hs := chatInv_reachable h
  have hne : ∀ {w : Worker}, w.pc.Writing → w.pc ≠ .done := fun hpc hdone => by
    rw [hdone] at hpc
    exact hpc
  refine ⟨fun i j v w hv hw hv' hw' => hs.single i j v w hv hw (hne hv') (hne hw'),
    fun i w hi hpc => ?_⟩
  have hmem := List.mem_of_getElem? hi
  have hw := hs.workers w hmem
  refine ⟨hw.chan hpc, hw.msg hpc, hw.own hpc, fun e t hstep he => hs.ui_aside hmem hpc he hstep,
    fun e t hstep he => ?_⟩
  obtain ⟨w', u, pc, hi', -, hm, -, rfl⟩ := step_worker hs he hstep
  rw [hi] at hi'
  cases hi'
  exact ⟨hm.job, hm.msg⟩

/-- The state behind a list of events. -/
def ChatState.after (s : ChatState) (es : List ChatEvent) : Option ChatState := es.foldlM ChatState.step s

theorem after_cons {s t : ChatState} {e : ChatEvent} {es : List ChatEvent} (h : s.step e = some t) :
    s.after (e :: es) = t.after es := by
  rw [ChatState.after, List.foldlM_cons, h]
  rfl

theorem after_append {s t : ChatState} {es es' : List ChatEvent} (h : s.after es = some t) :
    s.after (es ++ es') = t.after es' := by
  rw [ChatState.after, List.foldlM_append]
  show (s.after es).bind _ = _
  rw [h]
  rfl

theorem reachable_after {s t : ChatState} {es : List ChatEvent} (hs : Reachable s)
    (h : s.after es = some t) : Reachable t :=
  Reach.foldlM hs h

/-- Four empty channels. -/
def sampleStart : ChatState where
  channels := fun _ => ⟨[], 0, fun _ => ⟨[], 0, [], 0⟩, 0, false, false⟩
  currentChan := 0
  input := []
  job := ⟨none, none, []⟩
  botRunning := false
  ui := .outside
  workers := []

/-- The chat is opened, one letter is sent, and the worker runs its first statement. -/
def sampleEvents : List ChatEvent :=
  .run :: List.replicate 9 (.ui 0) ++ [.key (.char 97), .key .enter] ++ List.replicate 23 (.ui 0) ++
    [.worker 0]

theorem job_integrity_sample : ∃ s, sampleStart.after sampleEvents = some s ∧
    s.workers = [⟨.loadChan, (0, 2)⟩] ∧
    (∀ (i j : Nat) (v w : Worker), s.workers[i]? = some v → s.workers[j]? = some w → v.pc.Writing →
      w.pc.Writing → i = j) ∧
    ∀ (i : Nat) (w : Worker), s.workers[i]? = some w → w.pc.Writing →
      s.job.chan = some w.mine.1 ∧ s.job.msg = some w.mine ∧
      (∀ c, w.pc.chan = some c → c = w.mine.1) ∧
      (∀ e t, s.step e = some t → e.IsUi → t.job = s.job ∧ t.message w.mine = s.message w.mine) ∧
      ∀ e t, s.step e = some t → e.IsWorker i → t.job = s.job ∧
        ∀ q, q ≠ w.mine → t.message q = s.message q := by
  have hworkers : (sampleStart.after sampleEvents).map ChatState.workers =
      some [⟨.loadChan, (0, 2)⟩] := rfl
  obtain ⟨s, hs, hw⟩ := Option.map_eq_some_iff.mp hworkers
  have hstart : Reachable sampleStart :=
    .init ⟨fun _ => ⟨rfl, rfl⟩, rfl, rfl, rfl, rfl, rfl, rfl, rfl⟩
  exact ⟨s, hs, hw, job_integrity s (reachable_after hstart hs)⟩

end ChocoOs.Chat
