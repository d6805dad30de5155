import ChocoOs.Lib.Transition
import Mathlib.Data.Fintype.Basic

/-!
# The registry of models

Threads call `llm_generate` and `llm_describe`; the scheduler picks the one that makes the next access
to `llm_busy` or to the slots. `llm_generate` tests the flag and sets it in two steps, and
`llm_describe` loads a model without it.
-/

namespace ChocoOs.Llama
open ProgLib

/-- A name of a model. -/
abbrev ModelName := List UInt8

/-- `is_qwen` (`llm.c:498-501`) -/
def isQwen (m : ModelName) : Bool := m = [113, 119, 101, 110, 51]

/-- `ModelSlot` (`llm.c:425-432`), as far as other threads read it. -/
structure ModelSlot where
  name : ModelName
  loaded : Bool
  deriving DecidableEq

/-- Who waits for `load_model`. -/
inductive Caller where
  | generate
  | describe
  deriving DecidableEq

/-- The next access of `load_model` (`llm.c:444-496`). -/
inductive LoadPc where
  | findLoaded (i : Fin 2)
  | findName (i : Fin 2)
  | free (i : Fin 2)
  | modules (i : Fin 2)
  | config (i : Fin 2)
  | weights (i : Fin 2)
  | runState (i : Fin 2)
  | tokenizer (i : Fin 2)
  | describe (i : Fin 2)
  | name (i : Fin 2)
  | loaded (i : Fin 2)
  deriving DecidableEq

/-- Where a thread is: outside, before the test or the setting of the flag, in `qwen_run`, in
    `load_model`, in the rest of `llama_generate`, or before the flag is cleared. -/
inductive Pc where
  | idle
  | test (m : ModelName)
  | set (m : ModelName)
  | qwen
  | load (c : Caller) (m : ModelName) (pc : LoadPc)
  | run (i : Fin 2)
  | clear
  deriving DecidableEq

structure Registry (n : Nat) where
  busy : Bool
  slots : Fin 2 → ModelSlot
  thread : Fin n → Pc

/-- A call of a function by an idle thread, or the next access of a thread. `ok` is the outcome of
    what may fail in the step; a generation goes on until it is `true`. -/
inductive RegEvent (n : Nat) where
  | generate (t : Fin n) (m : ModelName)
  | describe (t : Fin n) (m : ModelName)
  | step (t : Fin n) (ok : Bool)

/-- `load_model` has returned. -/
def Caller.next (c : Caller) (slot : Option (Fin 2)) : Pc :=
  match c, slot with
  | .describe, _ => .idle
  | .generate, some i => .run i
  | .generate, none => .clear

/-- What follows when slot `i` does not hold the model, or is not free. -/
def LoadPc.skip (c : Caller) (m : ModelName) : LoadPc → Pc
  | .findLoaded i | .findName i =>
    if i = 0 then .load c m (.findLoaded 1) else .load c m (.free 0)
  | .free i => if i = 0 then .load c m (.free 1) else c.next none
  | pc => .load c m pc

/-- An access of `load_model` to the slots: what they hold afterwards, and where the thread is. -/
def loadStep (slots : Fin 2 → ModelSlot) (c : Caller) (m : ModelName) (ok : Bool) (pc : LoadPc) :
    (Fin 2 → ModelSlot) × Pc :=
  match pc with
  | .findLoaded i =>
    (slots, if (slots i).loaded = true then .load c m (.findName i) else pc.skip c m)
  | .findName i => (slots, if (slots i).name = m then c.next (some i) else pc.skip c m)
  | .free i => (slots, if (slots i).loaded = false then .load c m (.modules i) else pc.skip c m)
  | .modules i => (slots, if ok = true then .load c m (.config i) else c.next none)
  | .config i => (slots, .load c m (.weights i))
  | .weights i => (slots, .load c m (.runState i))
  | .runState i => (slots, if ok = true then .load c m (.tokenizer i) else c.next none)
  | .tokenizer i => (slots, if ok = true then .load c m (.describe i) else c.next none)
  | .describe i => (slots, .load c m (.name i))
  | .name i => (Function.update slots i { slots i with name := m.take 31 }, .load c m (.loaded i))
  | .loaded i => (Function.update slots i { slots i with loaded := true }, c.next (some i))

variable {n : Nat}

/-- Thread `t` goes on. -/
def Registry.put (s : Registry n) (t : Fin n) (pc : Pc) : Registry n :=
  { s with thread := Function.update s.thread t pc }

/-- The next access of thread `t` (`llm.c:503-521`, `llm.c:592-610`). -/
def Registry.access (s : Registry n) (t : Fin n) (ok : Bool) : Registry n :=
  match s.thread t with
  | .idle => s
  | .test m => s.put t (if s.busy = true then .idle else .set m)
  | .set m => { s with busy := true }.put t
      (if isQwen m = true then .qwen else .load .generate m (.findLoaded 0))
  | .qwen => s.put t (if ok = true then .clear else .qwen)
  | .load c m pc =>
    let (slots, next) := loadStep s.slots c m ok pc
    { s with slots := slots }.put t next
  | .run i => s.put t (if ok = true then .clear else .run i)
  | .clear => { s with busy := false }.put t .idle

/-- One step of the system. `llm_describe` of the other engine's model does not touch the slots. -/
def Registry.step (s : Registry n) : RegEvent n → Registry n
  | .generate t m => if s.thread t = .idle then s.put t (.test m) else s
  | .describe t m =>
    if s.thread t = .idle ∧ isQwen m = false then s.put t (.load .describe m (.findLoaded 0)) else s
  | .step t ok => s.access t ok

/-- Before the first call. -/
def Registry.start (n : Nat) : Registry n := ⟨false, fun _ => ⟨[], false⟩, fun _ => .idle⟩

/-! ## Exclusion -/

/-- In `load_model`, or in a generation that uses a slot. -/
def Pc.inside : Pc → Bool
  | .load _ _ _ | .run _ => true
  | _ => false

/-- The slot that a thread is initialising. -/
def Pc.fills : Pc → Option (Fin 2)
  | .load _ _ (.config i) | .load _ _ (.weights i) | .load _ _ (.runState i)
  | .load _ _ (.tokenizer i) | .load _ _ (.describe i) | .load _ _ (.name i)
  | .load _ _ (.loaded i) => some i
  | _ => none

/-- The slot that a thread is initialising or generating on. -/
def Pc.uses : Pc → Option (Fin 2)
  | .run i => some i
  | pc => pc.fills

/-- At most one thread is inside, and no slot is used by two. -/
structure Registry.Exclusive (s : Registry n) : Prop where
  inside : ∀ t u, (s.thread t).inside = true → (s.thread u).inside = true → t = u
  slot : ∀ t u i, (s.thread t).fills = some i → (s.thread u).uses = some i → t = u

/-- Between the test and the setting of the flag. -/
def Pc.tested : Pc → Bool
  | .set _ => true
  | _ => false

/-- In `load_model` for `llm_describe`. -/
def Pc.describing : Pc → Bool
  | .load .describe _ _ => true
  | _ => false

/-- Between the test of the flag and the end of a generation that uses a slot. -/
def Pc.generating : Pc → Bool
  | .set m => !isQwen m
  | .load .generate _ _ | .run _ => true
  | _ => false

/-- The model of a thread that is about to test the flag. -/
def Pc.testing : Pc → Option ModelName
  | .test m => some m
  | _ => none

/-- A thread that finds the flag clear is alone: no other thread has just found it so, and if it wants
    a slot, none describes a model. A thread that describes a model of the slots finds no other one
    that does, and no generation for a slot. -/
def RegOk (s : Registry n) : RegEvent n → Prop
  | .generate _ _ => True
  | .describe t m => s.thread t = .idle → isQwen m = false →
      ∀ u, (s.thread u).describing = false ∧ (s.thread u).generating = false
  | .step t _ => ∀ m ∈ (s.thread t).testing, s.busy = false → ∀ u, (s.thread u).tested = false ∧
      (isQwen m = false → (s.thread u).describing = false)

instance (s : Registry n) : ∀ e : RegEvent n, Decidable (RegOk s e)
  | .generate _ _ => .isTrue trivial
  | .describe t m => inferInstanceAs (Decidable (s.thread t = .idle → isQwen m = false →
      ∀ u, (s.thread u).describing = false ∧ (s.thread u).generating = false))
  | .step t _ => inferInstanceAs (Decidable (∀ m ∈ (s.thread t).testing, s.busy = false →
      ∀ u, (s.thread u).tested = false ∧ (isQwen m = false → (s.thread u).describing = false)))

/-- In `llm_generate`, behind the setting of the flag. -/
def Pc.locked : Pc → Bool
  | .qwen | .load .generate _ _ | .run _ | .clear => true
  | _ => false

/-- In `llm_generate`, behind the test of the flag. -/
def Pc.active (pc : Pc) : Bool := pc.tested || pc.locked

structure RegInv (s : Registry n) : Prop where
  one : ∀ t u, (s.thread t).active = true → (s.thread u).active = true → t = u
  lock : ∀ t, (s.thread t).locked = true → s.busy = true
  single : ∀ t u, (s.thread t).describing = true → (s.thread u).describing = true → t = u
  apart : ∀ t u, (s.thread t).describing = true → (s.thread u).generating = false

theorem regInv_start : RegInv (Registry.start n) where
  one := nofun
  lock := nofun
  single := nofun
  apart := nofun

theorem Pc.locked_active {pc : Pc} (h : pc.locked = true) : pc.active = true := by
  rw [Pc.active, h, Bool.or_true]

theorem Pc.generating_active {pc : Pc} (h : pc.generating = true) : pc.active = true := by
  cases pc with
  | load c m pc => cases c <;> first | rfl | cases h
  | set m => rfl
  | run i => rfl
  | _ => cases h

/-- A thread that is inside describes or generates. -/
theorem Pc.inside_cases {pc : Pc} (h : pc.inside = true) :
    pc.describing = true ∨ pc.generating = true := by
  cases pc with
  | load c m pc => cases c <;> first | exact .inl rfl | exact .inr rfl
  | run i => exact .inr rfl
  | _ => cases h

theorem Pc.fills_inside {pc : Pc} {i : Fin 2} (h : pc.fills = some i) : pc.inside = true := by
  cases pc with
  | load c m pc => rfl
  | _ => cases h

theorem Pc.uses_inside {pc : Pc} {i : Fin 2} (h : pc.uses = some i) : pc.inside = true := by
  cases pc with
  | load c m pc => rfl
  | run j => rfl
  | _ => cases h

theorem RegInv.exclusive {s : Registry n} (hs : RegInv s) : s.Exclusive := by
  have hinside : ∀ t u, (s.thread t).inside = true → (s.thread u).inside = true → t = u := by
    intro t u ht hu
    rcases Pc.inside_cases ht with hd | hg
    · rcases Pc.inside_cases hu with hd' | hg'
      · exact hs.single t u hd hd'
      · rw [hs.apart t u hd] at hg'
        cases hg'
    · rcases Pc.inside_cases hu with hd' | hg'
      · rw [hs.apart u t hd'] at hg
        cases hg
      · exact hs.one t u (Pc.generating_active hg) (Pc.generating_active hg')
  exact ⟨hinside, fun t u i ht hu => hinside t u (Pc.fills_inside ht) (Pc.uses_inside hu)⟩

/-! ## One step -/

section put

variable {s : Registry n} {t : Fin n} {pc : Pc}

theorem thread_put (s : Registry n) (t u : Fin n) (pc : Pc) :
    (s.put t pc).thread u = if u = t then pc else s.thread u := by
  rw [Registry.put]
  by_cases h : u = t
  · subst h
    rw [if_pos rfl]
    exact Function.update_self ..
  · rw [if_neg h]
    exact Function.update_of_ne h ..

/-- A thread that takes part in no more than before. -/
structure Pc.Le (pc pc' : Pc) : Prop where
  active : pc.active = true → pc'.active = true
  describing : pc.describing = true → pc'.describing = true
  generating : pc.generating = true → pc'.generating = true

theorem Pc.Le.refl (pc : Pc) : pc.Le pc := ⟨id, id, id⟩

theorem Pc.idle_le (pc : Pc) : Pc.idle.Le pc := ⟨nofun, nofun, nofun⟩

theorem RegInv.of_le {s s' : Registry n} (hs : RegInv s) (hle : ∀ u, (s'.thread u).Le (s.thread u))
    (hlock : ∀ u, (s'.thread u).locked = true → s'.busy = true) : RegInv s' where
  one := fun t u ht hu => hs.one t u ((hle t).active ht) ((hle u).active hu)
  lock := hlock
  single := fun t u ht hu => hs.single t u ((hle t).describing ht) ((hle u).describing hu)
  apart := fun t u ht => Bool.eq_false_iff.mpr fun hu => by
    have := hs.apart t u ((hle t).describing ht)
    rw [(hle u).generating hu] at this
    cases this

theorem le_put (hle : pc.Le (s.thread t)) (u : Fin n) : ((s.put t pc).thread u).Le (s.thread u) := by
  rw [thread_put]
  split
  · next h => rw [h]; exact hle
  · exact .refl _

/-- A step that leaves the flag alone. -/
theorem RegInv.put (hs : RegInv s) (slots : Fin 2 → ModelSlot) (hle : pc.Le (s.thread t))
    (hlock : pc.locked = true → (s.thread t).locked = true) :
    RegInv ({ s with slots := slots }.put t pc) :=
  hs.of_le (fun u => le_put (s := { s with slots := slots }) hle u) fun u hu => by
    rw [thread_put] at hu
    split at hu
    · exact hs.lock t (hlock hu)
    · exact hs.lock u hu

/-- A thread that has found the flag clear is the only one that generates. -/
theorem RegInv.enter (hs : RegInv s) {m : ModelName} (hbusy : s.busy = false) (hok : ∀ u, (s.thread u).tested = false ∧
      (isQwen m = false → (s.thread u).describing = false)) : RegInv (s.put t (.set m)) := by
  have hfree : ∀ u, (s.thread u).active = false := fun u => by
    rw [Pc.active, (hok u).1, Bool.false_or]
    exact Bool.eq_false_iff.mpr fun hu => by
      rw [hs.lock u hu] at hbusy
      cases hbusy
  have hactive : ∀ u, ((s.put t (.set m)).thread u).active = true → u = t := fun u hu => by
    rw [thread_put] at hu
    split at hu
    · assumption
    · rw [hfree u] at hu
      cases hu
  have hdescribing : ∀ u, ((s.put t (.set m)).thread u).describing = true →
      (s.thread u).describing = true := fun u hu => by
    rw [thread_put] at hu
    split at hu
    · cases hu
    · exact hu
  refine ⟨fun u v hu hv => (hactive u hu).trans (hactive v hv).symm, fun u hu => ?_,
    fun u v hu hv => hs.single u v (hdescribing u hu) (hdescribing v hv), fun u v hu => ?_⟩
  · rw [hactive u (Pc.locked_active hu), thread_put, if_pos rfl] at hu
    cases hu
  · refine Bool.eq_false_iff.mpr fun hv => ?_
    rw [hactive v (Pc.generating_active hv), thread_put, if_pos rfl] at hv
    have hq : isQwen m = false := by
      rw [Pc.generating, Bool.not_eq_true'] at hv
      exact hv
    have := (hok u).2 hq
    rw [hdescribing u hu] at this
    cases this

/-- A thread that begins to describe a model finds nobody inside. -/
theorem RegInv.describe (hs : RegInv s) {m : ModelName} {pc : LoadPc}
    (hok : ∀ u, (s.thread u).describing = false ∧ (s.thread u).generating = false) :
    RegInv (s.put t (.load .describe m pc)) := by
  have hdescribing : ∀ u, ((s.put t (.load .describe m pc)).thread u).describing = true → u = t :=
    fun u hu => by
      rw [thread_put] at hu
      split at hu
      · assumption
      · rw [(hok u).1] at hu
        cases hu
  have hactive : ∀ u, ((s.put t (.load .describe m pc)).thread u).active = true →
      (s.thread u).active = true := fun u hu => by
    rw [thread_put] at hu
    split at hu
    · cases hu
    · exact hu
  refine ⟨fun u v hu hv => hs.one u v (hactive u hu) (hactive v hv), fun u hu => ?_,
    fun u v hu hv => (hdescribing u hu).trans (hdescribing v hv).symm, fun u v _ => ?_⟩
  · rw [thread_put] at hu
    split at hu
    · cases hu
    · exact hs.lock u hu
  · rw [thread_put]
    split
    · rfl
    · exact (hok v).2

/-- The flag is cleared by the only thread that has set it. -/
theorem RegInv.clear (hs : RegInv s) (ht : s.thread t = .clear) :
    RegInv ({ s with busy := false }.put t .idle) :=
  hs.of_le (fun u => le_put (s := { s with busy := false }) (Pc.idle_le _) u) fun u hu => by
    rw [thread_put] at hu
    split at hu
    · cases hu
    · next hne => exact absurd (hs.one u t (Pc.locked_active hu) (by rw [ht]; rfl)) hne

/-- The flag is set. -/
theorem RegInv.set (hs : RegInv s) {m : ModelName} (ht : s.thread t = .set m) :
    RegInv ({ s with busy := true }.put t
      (if isQwen m = true then .qwen else .load .generate m (.findLoaded 0))) :=
  hs.of_le (fun u => le_put (s := { s with busy := true }) (by
    show Pc.Le _ (s.thread t)
    rw [ht]
    split
    · exact ⟨fun _ => rfl, nofun, nofun⟩
    · next hq => exact ⟨fun _ => rfl, nofun, fun _ => by
        rw [Pc.generating, Bool.eq_false_iff.mpr hq]
        rfl⟩) u) fun _ _ => rfl

/-- `load_model` goes on or returns. -/
theorem loadStep_cases (slots : Fin 2 → ModelSlot) (c : Caller) (m : ModelName) (ok : Bool)
    (pc : LoadPc) : (∃ pc', (loadStep slots c m ok pc).2 = .load c m pc') ∨
      ∃ slot, (loadStep slots c m ok pc).2 = c.next slot := by
  have hskip : ∀ pc : LoadPc, (∃ pc', pc.skip c m = .load c m pc') ∨ ∃ slot, pc.skip c m = c.next slot := by
    intro pc
    unfold LoadPc.skip
    split
    · split <;> exact .inl ⟨_, rfl⟩
    · split <;> exact .inl ⟨_, rfl⟩
    · split
      · exact .inl ⟨_, rfl⟩
      · exact .inr ⟨_, rfl⟩
    · exact .inl ⟨_, rfl⟩
  unfold loadStep
  cases pc with
  | findLoaded i => dsimp only; split <;> first | exact .inl ⟨_, rfl⟩ | exact hskip _
  | findName i => dsimp only; split <;> first | exact .inr ⟨_, rfl⟩ | exact hskip _
  | free i => dsimp only; split <;> first | exact .inl ⟨_, rfl⟩ | exact hskip _
  | modules i => dsimp only; split <;> first | exact .inl ⟨_, rfl⟩ | exact .inr ⟨_, rfl⟩
  | runState i => dsimp only; split <;> first | exact .inl ⟨_, rfl⟩ | exact .inr ⟨_, rfl⟩
  | tokenizer i => dsimp only; split <;> first | exact .inl ⟨_, rfl⟩ | exact .inr ⟨_, rfl⟩
  | loaded i => exact .inr ⟨_, rfl⟩
  | _ => exact .inl ⟨_, rfl⟩

/-- In `load_model` a thread takes part in no more than before. -/
theorem loadStep_le (slots : Fin 2 → ModelSlot) (c : Caller) (m : ModelName) (ok : Bool) (pc : LoadPc) :
    (loadStep slots c m ok pc).2.Le (.load c m pc) ∧
      ((loadStep slots c m ok pc).2.locked = true → (Pc.load c m pc).locked = true) := by
  rcases loadStep_cases slots c m ok pc with ⟨pc', h⟩ | ⟨slot, h⟩
  · rw [h]
    cases c <;> exact ⟨⟨id, id, id⟩, id⟩
  · rw [h]
    cases c with
    | describe => exact ⟨Pc.idle_le _, nofun⟩
    | generate =>
      cases slot with
      | none => exact ⟨⟨fun _ => rfl, nofun, nofun⟩, fun _ => rfl⟩
      | some i => exact ⟨⟨fun _ => rfl, nofun, fun _ => rfl⟩, fun _ => rfl⟩

end put

/-- Every step that meets the condition keeps the invariant. -/
theorem RegInv.step {s : Registry n} (hs : RegInv s) (e : RegEvent n) (hok : RegOk s e) :
    RegInv (s.step e) := by
  cases e with
  | generate t m =>
    rw [Registry.step]
    split
    · exact hs.put s.slots ⟨nofun, nofun, nofun⟩ nofun
    · exact hs
  | describe t m =>
    rw [Registry.step]
    split
    · next h => exact hs.describe (hok h.1 h.2)
    · exact hs
  | step t ok =>
    rw [Registry.step, Registry.access]
    split
    · exact hs
    · next m ht =>
      split
      · exact hs.put s.slots (Pc.idle_le _) nofun
      · next hbusy =>
        have hclear := Bool.eq_false_iff.mpr hbusy
        exact hs.enter hclear (hok m (by rw [ht]; rfl) hclear)
    · next m ht => exact hs.set ht
    · next ht => 
      refine hs.put s.slots ?_ ?_
      · rw [ht]
        split
        · exact ⟨fun _ => rfl, nofun, nofun⟩
        · exact .refl _
      · rw [ht]
        exact fun _ => rfl
    · next c m pc ht =>
      have hle := loadStep_le s.slots c m ok pc
      rw [← ht] at hle
      exact hs.put _ hle.1 hle.2
    · next i ht =>
      refine hs.put s.slots ?_ ?_
      · rw [ht]
        split
        · exact ⟨fun _ => rfl, nofun, nofun⟩
        · exact .refl _
      · rw [ht]
        exact fun _ => rfl
    · next ht => exact hs.clear ht

/-- In every run whose steps meet the condition at most one thread is inside. -/
theorem registry_exclusive (n : Nat) (es : List (RegEvent n))
    (h : Admitted Registry.step RegOk (Registry.start n) es) :
    Always Registry.step Registry.Exclusive (Registry.start n) es :=
  always_of_admitted (fun _ e hs hok => hs.step e hok) (fun _ hs => hs.exclusive) regInv_start h

/-- One thread generates a story, then another one describes the model. -/
theorem registry_exclusive_turns : Always Registry.step Registry.Exclusive (Registry.start 2)
    (.generate 0 [115] :: List.replicate 15 (.step 0 true) ++ .describe 1 [115] ::
      List.replicate 3 (.step 1 true)) :=
  registry_exclusive 2 _ (by decide)

/-- Two threads find the flag clear before either sets it. -/
def raceEvents : List (RegEvent 2) :=
  [.generate 0 [115], .generate 1 [115], .step 0 true, .step 1 true] ++
    List.replicate 5 (.step 0 true) ++ List.replicate 5 (.step 1 true)

/-- A thread describes a model while another one loads it. -/
def describeEvents : List (RegEvent 2) :=
  [.generate 0 [115]] ++ List.replicate 6 (.step 0 true) ++ .describe 1 [115] ::
    List.replicate 4 (.step 1 true)

/-- Either way two threads initialise the first slot. -/
theorem registry_shared :
    ¬ Always Registry.step Registry.Exclusive (Registry.start 2) raceEvents ∧
    ¬ Always Registry.step Registry.Exclusive (Registry.start 2) describeEvents := by
  refine ⟨fun h => ?_, fun h => ?_⟩
  · exact absurd (h.last.slot 0 1 0 (by decide) (by decide)) (by decide)
  · exact absurd (h.last.slot 0 1 0 (by decide) (by decide)) (by decide)

end ChocoOs.Llama
