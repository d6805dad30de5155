import ChocoOs.Vmm.Descend
import ChocoOs.Lib.Transition

/-!
# Page tables as a map

Whatever is mapped and unmapped in whatever order, the tables stay a tree, and `vmm_get_phys`
sees one entry of a map change with every call.
-/

namespace ChocoOs.Vmm
open ProgLib

variable {σ : Type}

/-- The addresses lie on the same page of the 48-bit address space. -/
def SamePage (v w : Word) : Prop := ∀ k, 12 ≤ k → k < 48 → w.getLsbD k = v.getLsbD k

theorem index_eq_iff {v w : Word} {shift : Nat} :
    index w shift = index v shift ↔ ∀ k < 9, w.getLsbD (shift + k) = v.getLsbD (shift + k) := by
  have hmask : ∀ k : Fin 64, (0x1ff : Word).getLsbD k = decide (k.val < 9) := by decide
  have hbit : ∀ (x : Word) {k : Nat}, k < 64 →
      ((x >>> shift) &&& 0x1ff).getLsbD k = (x.getLsbD (shift + k) && decide (k < 9)) := by
    intro x k hk
    rw [BitVec.getLsbD_and, BitVec.getLsbD_ushiftRight, hmask ⟨k, hk⟩]
  rw [index, index, Fin.mk.injEq]
  constructor
  · intro h k hk
    have hbits : ((w >>> shift) &&& 0x1ff).getLsbD k = ((v >>> shift) &&& 0x1ff).getLsbD k :=
      congrArg (BitVec.getLsbD · k) (BitVec.eq_of_toNat_eq h)
    rwa [hbit w (by omega), hbit v (by omega), decide_eq_true hk, Bool.and_true,
      Bool.and_true] at hbits
  · intro h
    congr 1
    refine BitVec.eq_of_getLsbD_eq fun k hk => ?_
    rw [hbit w hk, hbit v hk]
    by_cases hk9 : k < 9
    · rw [h k hk9]
    · simp [hk9]

/-- The indices are the bits 12 to 47. -/
theorem samePage_iff {v w : Word} :
    SamePage v w ↔ tablePath w = tablePath v ∧ ptIndex w = ptIndex v := by
  simp only [tablePath, ptIndex, List.cons.injEq, index_eq_iff, and_true]
  constructor
  · intro h
    exact ⟨⟨fun k hk => h _ (by omega) (by omega), fun k hk => h _ (by omega) (by omega),
      fun k hk => h _ (by omega) (by omega)⟩, fun k hk => h _ (by omega) (by omega)⟩
  · rintro ⟨⟨h₃, h₂, h₁⟩, h₀⟩ k hlo hhi
    rcases (by omega : k < 21 ∨ (21 ≤ k ∧ k < 30) ∨ (30 ≤ k ∧ k < 39) ∨ 39 ≤ k) with
      hk | ⟨hlo', hk⟩ | ⟨hlo', hk⟩ | hk
    · simpa [Nat.add_sub_cancel' hlo] using h₀ (k - 12) (by omega)
    · simpa [Nat.add_sub_cancel' hlo'] using h₁ (k - 21) (by omega)
    · simpa [Nat.add_sub_cancel' hlo'] using h₂ (k - 30) (by omega)
    · simpa [Nat.add_sub_cancel' hk] using h₃ (k - 39) (by omega)

/-! ## What the operations do -/

variable {allocPage : AllocPage σ} {root : Word} {s : State σ} {v w : Word}

/-- The address that a page table entry gives to `v`. -/
def physOf (pte v : Word) : Word :=
  if pte &&& ptePresent = 0 then 0 else (pte &&& pteAddrMask) + (v &&& 0xfff)

theorem physOf_zero (v : Word) : physOf 0 v = 0 := if_pos BitVec.zero_and

/-- `vmm_get_phys` reads the entry of the address. -/
theorem vmmGetPhys_eq (hs : Shape s.hhdm root s.mem) (v : Word) :
    vmmGetPhys allocPage s (root + s.hhdm) v
      = physOf (pteAt s.mem s.hhdm root (tablePath v) (ptIndex v)) v := by
  have hdown := descend_lookup allocPage (p := []) (a := root) hs rfl (tablePath v)
    (by simp [tablePath])
  rw [List.nil_append] at hdown
  simp only [vmmGetPhys, hdown, pteAt]
  cases hpt : tableAt s.mem s.hhdm root (tablePath v) with
  | none => rw [pointer, if_pos rfl, physOf_zero]
  | some pt =>
    rw [pointer, if_neg (hs.not_null _ pt (by simp [tablePath]) hpt)]
    rfl

/-- What `vmm_get_phys` tells after the entry for the page of `v` was set. -/
theorem getPhys_update {s' : State σ} {pte : Word} (hs : Shape s.hhdm root s.mem)
    (hhdm : s'.hhdm = s.hhdm) (hs' : Shape s.hhdm root s'.mem)
    (hptes : ∀ q j, q.length = 3 → pteAt s'.mem s.hhdm root q j
      = if q = tablePath v ∧ j = ptIndex v then pte else pteAt s.mem s.hhdm root q j) (w : Word) :
    (SamePage v w → vmmGetPhys allocPage s' (root + s.hhdm) w = physOf pte w) ∧
      (¬ SamePage v w → vmmGetPhys allocPage s' (root + s.hhdm) w
        = vmmGetPhys allocPage s (root + s.hhdm) w) := by
  rw [vmmGetPhys_eq hs, samePage_iff]
  rw [← hhdm] at hs' ⊢
  rw [vmmGetPhys_eq hs', hhdm, hptes _ _ rfl]
  exact ⟨fun h => by rw [if_pos h], fun h => by rw [if_neg h]⟩

/-- A mapping installs tables, and then sets the entry if they are all there. -/
theorem vmmMapPage_spec (paddr flags : Word) (hs : Shape s.hhdm root s.mem)
    (hok : AnswersOk allocPage root s (root + s.hhdm) (tablePath v)) :
    ∃ s', vmmMapPage allocPage s (root + s.hhdm) v paddr flags = s' ∧ s'.hhdm = s.hhdm ∧
      Shape s.hhdm root s'.mem ∧
      (Granted allocPage s (root + s.hhdm) (tablePath v) → ∀ q j, q.length = 3 →
        pteAt s'.mem s.hhdm root q j = if q = tablePath v ∧ j = ptIndex v
          then (paddr &&& pteAddrMask) ||| flags ||| ptePresent
          else pteAt s.mem s.hhdm root q j) ∧
      (¬ Granted allocPage s (root + s.hhdm) (tablePath v) → ∀ q j, q.length = 3 →
        pteAt s'.mem s.hhdm root q j = pteAt s.mem s.hhdm root q j) := by
  obtain ⟨s₁, b, hdown, hgrown, hb⟩ := descend_allocate (p := []) hs rfl
    (by simp [tablePath]) hok
  refine ⟨_, rfl, ?_⟩
  simp only [vmmMapPage, hdown]
  rcases hb with ⟨rfl, hnot⟩ | ⟨hb, hgranted, pt, hpt, rfl⟩
  · rw [if_pos rfl]
    exact ⟨hgrown.hhdm_eq, hgrown.shape, fun h => absurd h hnot,
      fun _ q j hq => hgrown.ptes q j hq⟩
  · rw [if_neg hb]
    rw [List.nil_append] at hpt
    refine ⟨hgrown.hhdm_eq, leaf_shape hgrown.shape rfl hpt, fun _ q j hq => ?_,
      fun h => absurd hgranted h⟩
    rw [← hgrown.ptes q j hq]
    exact leaf_pteAt_eq hgrown.shape rfl hpt hq j

/-- Unmapping clears the entry if it is there. -/
theorem vmmUnmapPage_spec (allocPage : AllocPage σ) (v : Word) (hs : Shape s.hhdm root s.mem) :
    ∃ s', vmmUnmapPage allocPage s (root + s.hhdm) v = s' ∧ s'.hhdm = s.hhdm ∧
      Shape s.hhdm root s'.mem ∧ ∀ q j, q.length = 3 → pteAt s'.mem s.hhdm root q j
        = if q = tablePath v ∧ j = ptIndex v then 0 else pteAt s.mem s.hhdm root q j := by
  have hdown := descend_lookup allocPage (p := []) (a := root) hs rfl (tablePath v)
    (by simp [tablePath])
  rw [List.nil_append] at hdown
  refine ⟨_, rfl, ?_⟩
  simp only [vmmUnmapPage, hdown]
  cases hpt : tableAt s.mem s.hhdm root (tablePath v) with
  | none =>
    rw [pointer, if_pos rfl]
    refine ⟨rfl, hs, fun q j hq => ?_⟩
    split
    · next h => rw [h.1, pteAt, hpt]
    · rfl
  | some pt =>
    rw [pointer, if_neg (hs.not_null _ pt (by simp [tablePath]) hpt)]
    exact ⟨rfl, leaf_shape hs rfl hpt, fun q j hq => leaf_pteAt_eq hs rfl hpt hq j⟩

theorem physOf_mapped {paddr flags : Word} (hflags : flags &&& pteAddrMask = 0) (w : Word) :
    physOf ((paddr &&& pteAddrMask) ||| flags ||| ptePresent) w
      = (paddr &&& pteAddrMask) + (w &&& 0xfff) := by
  have hpresent : ((paddr &&& pteAddrMask) ||| flags ||| ptePresent) &&& ptePresent ≠ 0 := by
    intro h
    have hbit := congrArg (BitVec.getLsbD · 0) h
    simp [ptePresent] at hbit
  rw [physOf, if_neg hpresent, or_and_addrMask hflags,
    show ptePresent &&& pteAddrMask = 0 by decide]
  rw [show (paddr &&& pteAddrMask ||| 0) = paddr &&& pteAddrMask from BitVec.or_zero]

/-! ## Runs -/

inductive Op where
  | map (vaddr paddr flags : Word)
  | unmap (vaddr : Word)

/-- Flags keep clear of the address, and the page allocator answers well. -/
def Op.Ok (allocPage : AllocPage σ) (root : Word) (s : State σ) : Op → Prop
  | .map vaddr _ flags => flags &&& pteAddrMask = 0 ∧
      AnswersOk allocPage root s (root + s.hhdm) (tablePath vaddr)
  | .unmap _ => True

def exec (allocPage : AllocPage σ) (root : Word) (s : State σ) : Op → State σ
  | .map vaddr paddr flags => vmmMapPage allocPage s (root + s.hhdm) vaddr paddr flags
  | .unmap vaddr => vmmUnmapPage allocPage s (root + s.hhdm) vaddr

def Step (allocPage : AllocPage σ) (root : Word) (s s' : State σ) : Prop :=
  ∃ op : Op, op.Ok allocPage root s ∧ exec allocPage root s op = s'

theorem exec_shape {op : Op} (hs : Shape s.hhdm root s.mem) (hop : op.Ok allocPage root s) :
    Shape (exec allocPage root s op).hhdm root (exec allocPage root s op).mem := by
  cases op with
  | map vaddr paddr flags =>
    obtain ⟨s', hs', hhdm, hshape, -⟩ := vmmMapPage_spec paddr flags hs hop.2
    rw [exec, hs', hhdm]
    exact hshape
  | unmap vaddr =>
    obtain ⟨s', hs', hhdm, hshape, -⟩ := vmmUnmapPage_spec allocPage vaddr hs
    rw [exec, hs', hhdm]
    exact hshape

/-- From any tree of tables on, every mapping and every removal keeps the tree and changes what
    `vmm_get_phys` says of the one page, and a mapping for which there is no memory changes
    nothing. -/
theorem tables_refine_map {s₀ : State σ} (h₀ : Shape s₀.hhdm root s₀.mem)
    (h : Reach (· = s₀) (Step allocPage root) s) :
    Shape s.hhdm root s.mem ∧
    (∀ v paddr flags : Word, (Op.map v paddr flags).Ok allocPage root s →
      ∃ s', vmmMapPage allocPage s (root + s.hhdm) v paddr flags = s' ∧
        Shape s'.hhdm root s'.mem ∧
        (Granted allocPage s (root + s.hhdm) (tablePath v) → ∀ w, SamePage v w →
          vmmGetPhys allocPage s' (root + s.hhdm) w = (paddr &&& pteAddrMask) + (w &&& 0xfff)) ∧
        (¬ Granted allocPage s (root + s.hhdm) (tablePath v) → ∀ w,
          vmmGetPhys allocPage s' (root + s.hhdm) w = vmmGetPhys allocPage s (root + s.hhdm) w) ∧
        ∀ w, ¬ SamePage v w →
          vmmGetPhys allocPage s' (root + s.hhdm) w = vmmGetPhys allocPage s (root + s.hhdm) w) ∧
    (∀ v : Word, ∃ s', vmmUnmapPage allocPage s (root + s.hhdm) v = s' ∧
      Shape s'.hhdm root s'.mem ∧
      (∀ w, SamePage v w → vmmGetPhys allocPage s' (root + s.hhdm) w = 0) ∧
      ∀ w, ¬ SamePage v w →
        vmmGetPhys allocPage s' (root + s.hhdm) w = vmmGetPhys allocPage s (root + s.hhdm) w) := by
  have hs : Shape s.hhdm root s.mem := by
    refine h.invariant (I := fun s => Shape s.hhdm root s.mem) ?_ ?_
    · rintro _ rfl
      exact h₀
    · rintro s t hs ⟨op, hop, rfl⟩
      exact exec_shape hs hop
  refine ⟨hs, fun v paddr flags hop => ?_, fun v => ?_⟩
  · obtain ⟨s', hs', hhdm, hshape, hgranted, hfailed⟩ :=
      vmmMapPage_spec paddr flags hs hop.2
    have hunchanged : ¬ Granted allocPage s (root + s.hhdm) (tablePath v) → ∀ w,
        vmmGetPhys allocPage s' (root + s.hhdm) w = vmmGetPhys allocPage s (root + s.hhdm) w := by
      intro hn w
      rw [vmmGetPhys_eq hs, ← hfailed hn _ _ rfl, ← hhdm, vmmGetPhys_eq (hhdm.symm ▸ hshape)]
    refine ⟨s', hs', hhdm.symm ▸ hshape, fun hg w hw => ?_, hunchanged, fun w hw => ?_⟩
    · rw [← physOf_mapped hop.1 w]
      exact (getPhys_update hs hhdm hshape (hgranted hg) w).1 hw
    · by_cases hg : Granted allocPage s (root + s.hhdm) (tablePath v)
      · exact (getPhys_update hs hhdm hshape (hgranted hg) w).2 hw
      · exact hunchanged hg w
  · obtain ⟨s', hs', hhdm, hshape, hptes⟩ :=
      vmmUnmapPage_spec allocPage v hs
    refine ⟨s', hs', hhdm.symm ▸ hshape, fun w hw => ?_, fun w hw => ?_⟩
    · rw [← physOf_zero w]
      exact (getPhys_update hs hhdm hshape hptes w).1 hw
    · exact (getPhys_update hs hhdm hshape hptes w).2 hw

/-! ## An empty structure and an allocator that hands out page after page -/

def bumpPage : AllocPage Nat := fun n m => (BitVec.ofNat 64 (4096 * n), m, n + 1)

def bootState : State Nat := ⟨fun _ => 0, 0xffff800000000000, 2⟩

/-- There is only the top-level table. -/
theorem tableAt_bootState {hhdm root a : Word} {p : List Index}
    (h : tableAt bootState.mem hhdm root p = some a) : p = [] ∧ root = a := by
  cases p with
  | nil => exact ⟨rfl, Option.some.inj h⟩
  | cons i p =>
    have hnone : next bootState.mem hhdm root i = none := next_of_not_present BitVec.zero_and
    rw [tableAt, follow, hnone] at h
    cases h

theorem shape_bootState : Shape bootState.hhdm 0x1000 bootState.mem := by
  refine ⟨by rw [IsPage]; decide, fun p q a _ _ hp hq => ?_, fun p a _ hp => ?_,
    fun p a i _ _ hpresent => absurd BitVec.zero_and hpresent⟩
  · rw [(tableAt_bootState hp).1, (tableAt_bootState hq).1]
  · rw [← (tableAt_bootState hp).2]
    decide

/-- The pages from number `n` on are free: zero and above all tables. -/
structure Bumped (root : Word) (s : State Nat) : Prop where
  shape : Shape s.hhdm root s.mem
  hhdm_eq : s.hhdm = 0xffff800000000000
  pos : 0 < s.pmm
  below : ∀ p a, p.length ≤ 3 → tableAt s.mem s.hhdm root p = some a → a.toNat < 4096 * s.pmm
  zero : ∀ k i, s.pmm ≤ k → k < 2 ^ 32 → s.mem (slot s.hhdm (BitVec.ofNat 64 (4096 * k)) i) = 0

theorem bumped_bootState : Bumped 0x1000 bootState := by
  refine ⟨shape_bootState, rfl, by decide, fun p a _ hp => ?_, fun _ _ _ _ => rfl⟩
  rw [← (tableAt_bootState hp).2]
  decide

theorem toNat_bumpPage {n : Nat} (hn : n < 2 ^ 32) : (BitVec.ofNat 64 (4096 * n)).toNat = 4096 * n := by
  rw [BitVec.toNat_ofNat]
  omega

theorem isPage_bumpPage {n : Nat} (hn : n < 2 ^ 32) : IsPage (BitVec.ofNat 64 (4096 * n)) := by
  rw [IsPage, toNat_bumpPage hn]
  omega

theorem Bumped.answerOk {root : Word} {s : State Nat} (h : Bumped root s) (hn : s.pmm < 2 ^ 32) :
    AnswerOk bumpPage root s ∧ s.newPage bumpPage ≠ 0 := by
  have hnat := toNat_bumpPage hn
  have hpos := h.pos
  refine ⟨⟨fun _ _ _ _ _ => rfl, fun _ => isPage_bumpPage hn, fun _ he => ?_,
    fun _ p hp ha => ?_, fun _ i => h.zero s.pmm i (Nat.le_refl _) hn⟩, fun he => ?_⟩
  · have := congrArg BitVec.toNat he
    rw [h.hhdm_eq, BitVec.toNat_add, State.newPage, bumpPage, hnat] at this
    simp at this
    omega
  · have := h.below p _ hp ha
    rw [State.newPage, bumpPage, hnat] at this
    omega
  · have := congrArg BitVec.toNat he
    rw [State.newPage, bumpPage, hnat] at this
    simp at this
    omega

theorem Bumped.installed {root : Word} {s : State Nat} (h : Bumped root s) (hn : s.pmm < 2 ^ 32)
    {p : List Index} {a : Word} {i : Index} (hp : p.length < 3)
    (ha : tableAt s.mem s.hhdm root p = some a)
    (habsent : s.mem (slot s.hhdm a i) &&& ptePresent = 0) :
    Bumped root ((s.allocated bumpPage).setEntry (a + s.hhdm) i
      (tableEntry (s.newPage bumpPage))) := by
  obtain ⟨hgood, hpage⟩ := h.answerOk hn
  have hinst : Installed s.hhdm root s.mem p a i (s.newPage bumpPage) (s.allocated bumpPage).mem :=
    ⟨ha, hp, habsent, hpage, hgood⟩
  refine ⟨hinst.shape h.shape, h.hhdm_eq, Nat.succ_pos _, fun q x hq hx => ?_, fun k j hk hlt => ?_⟩
  · replace hx := (hinst.tableAt_eq h.shape hq).symm.trans hx
    have hnat := toNat_bumpPage hn
    show x.toNat < 4096 * (s.pmm + 1)
    split at hx
    · cases hx
      rw [State.newPage, bumpPage, hnat]
      omega
    · have := h.below q x hq hx
      omega
  · have hk' : s.pmm + 1 ≤ k := hk
    refine (Function.update_of_ne (fun he => ?_) _ _).trans (h.zero k j (by omega) hlt)
    obtain ⟨hka, -⟩ := slot_inj (isPage_bumpPage hlt) (h.shape.isPage ha) he
    have := h.below p a (by omega) ha
    rw [← hka, toNat_bumpPage hlt] at this
    omega

/-- Such an allocator answers well, and grants everything. -/
theorem Bumped.answersOk {root : Word} (is : List Index) : ∀ {s : State Nat} {p : List Index}
    {a : Word}, Bumped root s → s.pmm + is.length < 2 ^ 32 → p.length + is.length ≤ 3 →
    tableAt s.mem s.hhdm root p = some a →
    AnswersOk bumpPage root s (a + s.hhdm) is ∧ Granted bumpPage s (a + s.hhdm) is := by
  induction is with
  | nil => intro _ _ _ _ _ _ _; exact ⟨trivial, trivial⟩
  | cons i is ih =>
    intro s p a h hn hp ha
    rw [List.length_cons] at hn hp
    have hanswer := h.answerOk (by omega)
    obtain ⟨s', b, hstep, hgrown, hb⟩ := getNextLevel_allocate bumpPage (i := i)
      h.shape (by omega) ha fun _ => hanswer.1
    have hnext : Bumped root s' ∧ s'.pmm ≤ s.pmm + 1 := by
      by_cases habsent : s.mem (slot s.hhdm a i) &&& ptePresent = 0
      · have heq : getNextLevel bumpPage s (a + s.hhdm) i true =
            ((s.allocated bumpPage).setEntry (a + s.hhdm) i (tableEntry (s.newPage bumpPage)),
              s.newPage bumpPage + s.hhdm) := by
          simp only [getNextLevel, entry_eq, habsent, ne_eq, not_true, if_false, hanswer.2,
            Bool.true_eq_false]
          rfl
        rw [hstep] at heq
        cases heq
        exact ⟨h.installed (by omega) (by omega) ha habsent, Nat.le_refl _⟩
      · simp only [getNextLevel, entry_eq, ne_eq, habsent, not_false_eq_true, if_true] at hstep
        cases hstep
        exact ⟨h, Nat.le_succ _⟩
    simp only [AnswersOk, Granted, hstep]
    rcases hb with ⟨rfl, -, hpage⟩ | ⟨-, -, c, hc, rfl⟩
    · exact absurd hpage hanswer.2
    · have hrest := ih (s := s') (p := p ++ [i]) (a := c) hnext.1 (by omega)
        (by rw [List.length_append, List.length_singleton]; omega) (hgrown.hhdm_eq ▸ hc)
      rw [hgrown.hhdm_eq] at hrest
      exact ⟨⟨fun _ => hanswer.1, fun _ => hrest.1⟩, fun _ => hanswer.2, hrest.2⟩

/-- Mapping a page into an empty structure. -/
theorem tables_refine_map_boot : ∃ s' : State Nat,
    vmmMapPage bumpPage bootState (0x1000 + bootState.hhdm) 0xdeadb000 0x5000 2 = s' ∧
    vmmGetPhys bumpPage s' (0x1000 + bootState.hhdm) 0xdeadbeef = 0x5eef ∧
    vmmGetPhys bumpPage s' (0x1000 + bootState.hhdm) 0xdeadceef
      = vmmGetPhys bumpPage bootState (0x1000 + bootState.hhdm) 0xdeadceef := by
  obtain ⟨-, hmap, -⟩ := @tables_refine_map Nat bumpPage 0x1000 bootState bootState
    shape_bootState (.init rfl)
  obtain ⟨hanswers, hgranted⟩ := Bumped.answersOk (tablePath 0xdeadb000) (p := [])
    bumped_bootState (by decide) (by decide) rfl
  obtain ⟨s', hs', -, hmapped, -, hothers⟩ := hmap 0xdeadb000 0x5000 2 ⟨by decide, hanswers⟩
  refine ⟨s', hs', ?_, hothers _ fun h => absurd (h 12 (by decide) (by decide)) (by decide)⟩
  rw [hmapped hgranted 0xdeadbeef (samePage_iff.mpr (by decide))]
  decide

end ChocoOs.Vmm
