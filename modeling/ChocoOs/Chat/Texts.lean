import ChocoOs.Chat.Integrity
import Mathlib.Data.List.TakeWhile

/-!
# The texts of the messages

The table of channels is static: its texts are zeros before the first message. Every statement that
writes to a text leaves a terminator in its buffer.
-/

namespace ChocoOs.Chat
open ProgLib

/-! ## The string in a buffer -/

/-- The bytes before the first NUL. -/
def str (b : List UInt8) : List UInt8 := b.takeWhile (· ≠ 0)

theorem zero_not_mem_str (b : List UInt8) : 0 ∉ str b := fun h =>
  absurd (List.mem_takeWhile_imp h) (by decide)

theorem length_str (b : List UInt8) : (str b).length = strlen b := rfl

theorem strlen_le (b : List UInt8) : strlen b ≤ b.length := (List.takeWhile_prefix _).length_le

theorem take_strlen (b : List UInt8) : b.take (strlen b) = str b :=
  (List.prefix_iff_eq_take.mp (List.takeWhile_prefix _)).symm

theorem str_terminated {r : List UInt8} (h : 0 ∉ r) (junk : List UInt8) : str (r ++ 0 :: junk) = r := by
  have hpos : ∀ b ∈ r, decide (b ≠ 0) = true := by
    intro b hb
    exact decide_eq_true fun heq => h (heq ▸ hb)
  rw [str, List.takeWhile_append_of_pos hpos, List.takeWhile_cons_of_neg (by decide), List.append_nil]

/-- A buffer with a NUL in it is its string, the NUL and what is behind. -/
theorem exists_terminated {b : List UInt8} (h : 0 ∈ b) : ∃ junk, b = str b ++ 0 :: junk := by
  have happ := List.takeWhile_append_dropWhile (p := fun b : UInt8 => decide (b ≠ 0)) (l := b)
  cases hrest : b.dropWhile fun b => decide (b ≠ 0) with
  | nil =>
    rw [hrest, List.append_nil] at happ
    rw [← happ] at h
    exact absurd h (zero_not_mem_str b)
  | cons c junk =>
    have hc : c = 0 := by
      have hhead := List.head?_dropWhile_not (fun b : UInt8 => decide (b ≠ 0)) b
      rw [hrest] at hhead
      simpa using hhead
    rw [hrest, hc] at happ
    exact ⟨junk, happ.symm⟩

/-- A buffer of `MSG_TEXT_MAX` bytes with a terminator in it. -/
def TextOk (text : List UInt8) : Prop := text.length = msgTextMax ∧ 0 ∈ text

theorem TextOk.length_str_lt {text : List UInt8} (h : TextOk text) : (str text).length < msgTextMax := by
  obtain ⟨hlen, hnul⟩ := h
  obtain ⟨junk, hjunk⟩ := exists_terminated hnul
  rw [hjunk, List.length_append, List.length_cons] at hlen
  omega

/-! ## What a statement writes -/

/-- What a statement may do to a text. -/
inductive Written (text : List UInt8) : List UInt8 → Prop
  | same : Written text text
  | clear : Written text (0 :: text.drop 1)
  | copy (src : List UInt8) : Written text (strlcpy text src msgTextMax)
  | append (len : Nat) (piece : List UInt8) : len + strlen piece < msgTextMax - 1 →
    Written text (text.take len ++ piece.take (strlen piece) ++ 0 :: text.drop (len + strlen piece + 1))

theorem TextOk.written {text text' : List UInt8} (h : TextOk text) (hw : Written text text') :
    TextOk text' := by
  obtain ⟨hlen, hnul⟩ := h
  cases hw with
  | same => exact ⟨hlen, hnul⟩
  | clear =>
    refine ⟨?_, List.mem_cons_self⟩
    rw [List.length_cons, List.length_drop, hlen]
    rfl
  | copy src =>
    have hsrc := strlen_le src
    refine ⟨?_, List.mem_append_right _ List.mem_cons_self⟩
    rw [strlcpy, List.length_append, List.length_take, List.length_cons, List.length_drop, hlen]
    split <;> rw [msgTextMax] at * <;> omega
  | append len piece hfits =>
    have hpiece := strlen_le piece
    refine ⟨?_, List.mem_append_right _ List.mem_cons_self⟩
    rw [List.length_append, List.length_append, List.length_take, List.length_take,
      List.length_cons, List.length_drop, hlen]
    rw [msgTextMax] at *
    omega

section step

variable {s t : ChatState}

theorem message_modifyMsg_self (s : ChatState) (p : MsgPtr) (f : Message → Message) :
    (s.modifyMsg p f).message p = f (s.message p) := by
  rw [ChatState.message, ChatState.modifyMsg, channels_modify, if_pos rfl]
  exact Function.update_self ..

theorem written_modifyMsg (s : ChatState) (p : MsgPtr) (f : Message → Message) (pc : UiPc)
    (hf : ∀ m, Written m.text (f m).text) (q : MsgPtr) :
    Written (s.message q).text (({ s.modifyMsg p f with ui := pc } : ChatState).message q).text := by
  show Written _ ((s.modifyMsg p f).message q).text
  by_cases hq : q = p
  · rw [hq, message_modifyMsg_self]
    exact hf _
  · rw [message_modifyMsg s p q f hq]
    exact .same

theorem written_of_eq {text text' : List UInt8} (h : text' = text) : Written text text' :=
  h ▸ .same

theorem pushStep_written {ticks : Nat} {k : Purpose} {c : Fin numChannels} {pc : PushPc}
    (h : s.pushStep ticks k c pc = some t) (q : MsgPtr) :
    Written (s.message q).text (t.message q).text := by
  cases pc with
  | slot => cases h; exact .same
  | author m =>
    cases h
    apply written_modifyMsg
    exact fun _ => .same
  | color m =>
    cases h
    apply written_modifyMsg
    exact fun _ => .same
  | clear m =>
    cases h
    apply written_modifyMsg
    exact fun _ => .clear
  | minutes m =>
    cases h
    apply written_modifyMsg
    exact fun _ => .same
  | count m =>
    rw [ChatState.pushStep] at h
    split at h
    · cases h
    · cases h
      exact written_of_eq (congrArg Message.text (message_countUp ..))

theorem written_setText (s : ChatState) (p : MsgPtr) (src : List UInt8) (q : MsgPtr) :
    Written (s.message q).text ((s.setText p src).message q).text :=
  written_modifyMsg s p (fun m => { m with text := strlcpy m.text src msgTextMax }) s.ui
    (fun _ => .copy src) q

theorem uiStep_written {ticks : Nat} (h : s.uiStep ticks = some t) (q : MsgPtr) :
    Written (s.message q).text (t.message q).text := by
  unfold ChatState.uiStep at h
  cases hpc : s.ui with
  | outside => rw [hpc] at h; cases h
  | loop => rw [hpc] at h; cases h
  | push k c pc => rw [hpc] at h; exact pushStep_written h q
  | greetText m => rw [hpc] at h; cases h; exact written_setText ..
  | userText c m => rw [hpc] at h; cases h; exact written_setText ..
  | busyText c m => rw [hpc] at h; cases h; exact written_setText ..
  | setTyping c m =>
    rw [hpc] at h
    cases h
    exact written_of_eq (congrArg Message.text (message_setTyping ..))
  | busyDirty c =>
    rw [hpc] at h
    cases h
    exact written_of_eq (congrArg Message.text (message_setDirty ..))
  | setDirty c m =>
    rw [hpc] at h
    cases h
    exact written_of_eq (congrArg Message.text (message_setDirty ..))
  | leave =>
    rw [hpc] at h
    cases h
    exact written_of_eq (congrArg Message.text (message_setDirty ..))
  | _ => rw [hpc] at h; cases h; exact .same

theorem workerStep_written {pc pc' : WorkerPc} (h : s.workerStep pc = some (t, pc')) (q : MsgPtr) :
    Written (s.message q).text (t.message q).text := by
  cases pc with
  | start => cases h; exact .same
  | loadChan =>
    rw [ChatState.workerStep] at h
    simp only [Option.bind_eq_bind, Option.bind_eq_some_iff] at h
    obtain ⟨c, -, hc⟩ := h
    cases hc
    exact .same
  | generate c => cases h
  | emitLen c piece =>
    rw [ChatState.workerStep] at h
    simp only [Option.bind_eq_bind, Option.bind_eq_some_iff] at h
    obtain ⟨p, -, hp⟩ := h
    cases hp
    exact .same
  | emitCopy c piece len =>
    rw [ChatState.workerStep] at h
    simp only [Option.bind_eq_bind] at h
    split at h
    · next hfits =>
      rw [Option.bind_eq_some_iff] at h
      obtain ⟨p, -, hp⟩ := h
      cases hp
      exact written_modifyMsg s p (fun m => { m with
        text := m.text.take len ++ piece.take (strlen piece) ++
          0 :: m.text.drop (len + strlen piece + 1) }) s.ui (fun _ => .append len piece hfits) q
    · cases h
      exact .same
  | emitDirty c =>
    rw [ChatState.workerStep] at h
    simp only [Option.bind_eq_bind, Option.bind_eq_some_iff] at h
    obtain ⟨c', -, hc⟩ := h
    cases hc
    exact written_of_eq (congrArg Message.text (message_setDirty ..))
  | failText c text =>
    rw [ChatState.workerStep] at h
    simp only [Option.bind_eq_bind, Option.bind_eq_some_iff] at h
    obtain ⟨p, -, hp⟩ := h
    cases hp
    exact written_setText ..
  | testEmpty c =>
    rw [ChatState.workerStep] at h
    simp only [Option.bind_eq_bind, Option.bind_eq_some_iff] at h
    obtain ⟨p, -, hp⟩ := h
    cases hp
    exact .same
  | emptyText c =>
    rw [ChatState.workerStep] at h
    simp only [Option.bind_eq_bind, Option.bind_eq_some_iff] at h
    obtain ⟨p, -, hp⟩ := h
    cases hp
    exact written_setText ..
  | clearTyping c =>
    cases h
    exact written_of_eq (congrArg Message.text (message_setTyping ..))
  | setDirty c =>
    cases h
    exact written_of_eq (congrArg Message.text (message_setDirty ..))
  | clearRunning => cases h; exact .same
  | done => cases h

/-- What a step of the system does to a text. -/
theorem step_written {e : ChatEvent} (h : s.step e = some t) (q : MsgPtr) :
    Written (s.message q).text (t.message q).text := by
  have hworker : ∀ i, e.IsWorker i → Written (s.message q).text (t.message q).text := by
    intro i he
    obtain ⟨w, u, pc, -, rfl, hstep | ⟨rfl, -, -⟩⟩ := step_worker_view he h
    · exact workerStep_written hstep q
    · exact .same
  cases e with
  | ui ticks => exact uiStep_written h q
  | worker i => exact hworker i rfl
  | emit i piece => exact hworker i rfl
  | finish i n => exact hworker i rfl
  | _ =>
    obtain ⟨hk, -, -⟩ := step_other h trivial
    exact written_of_eq (congrArg Message.text (hk.msg q nofun))

end step

/-! ## Every run -/

/-- Before the first call of `chat_run`, with the texts as the program is loaded. -/
def ChatState.Loaded (s : ChatState) : Prop :=
  s.Initial ∧ ∀ p, (s.message p).text = List.replicate msgTextMax 0

/-- The states of every interleaving. -/
def RunsTo : ChatState → Prop := Reach ChatState.Loaded fun s t => ∃ e, s.step e = some t

theorem RunsTo.reachable {s : ChatState} (h : RunsTo s) : Reachable s := by
  induction h with
  | init h0 => exact .init h0.1
  | step _ hstep ih => exact .step ih hstep

/-- Every text fits into its buffer, with its terminator. -/
theorem RunsTo.textOk {s : ChatState} (h : RunsTo s) (p : MsgPtr) : TextOk (s.message p).text := by
  refine Reach.invariant (I := fun s => ∀ p, TextOk (s.message p).text) ?_ ?_ h p
  · intro s h0 p
    rw [h0.2 p]
    exact ⟨List.length_replicate, List.mem_replicate.mpr ⟨by decide, rfl⟩⟩
  · rintro s t hs ⟨e, hstep⟩ p
    exact (hs p).written (step_written hstep p)

theorem RunsTo.after {s t : ChatState} {es : List ChatEvent} (hs : RunsTo s)
    (h : s.after es = some t) : RunsTo t :=
  Reach.foldlM hs h

end ChocoOs.Chat
