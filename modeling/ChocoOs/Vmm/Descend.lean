import ChocoOs.Vmm.Map

/-!
# Descending through the tables

`get_next_level` follows a present entry or installs a table; a chain of calls reaches the table
at the end of the path, or stops where the allocator has no page.
-/

namespace ChocoOs.Vmm
open ProgLib

variable {σ : Type}

/-- The pointer to a table, null if there is none. -/
def pointer (hhdm : Word) : Option Word → Word
  | some a => a + hhdm
  | none => 0

/-- What an operation may do before its last write: no table and no translation changes. -/
structure Grown (root : Word) (s s' : State σ) : Prop where
  hhdm_eq : s'.hhdm = s.hhdm
  shape : Shape s.hhdm root s'.mem
  tables : ∀ p a, p.length ≤ 3 → tableAt s.mem s.hhdm root p = some a →
    tableAt s'.mem s.hhdm root p = some a
  ptes : ∀ p j, p.length = 3 → pteAt s'.mem s.hhdm root p j = pteAt s.mem s.hhdm root p j

theorem Grown.refl {root : Word} {s : State σ} (h : Shape s.hhdm root s.mem) : Grown root s s :=
  ⟨rfl, h, fun _ _ _ ha => ha, fun _ _ _ => rfl⟩

theorem Grown.trans {root : Word} {s₁ s₂ s₃ : State σ} (h₁ : Grown root s₁ s₂)
    (h₂ : Grown root s₂ s₃) : Grown root s₁ s₃ := by
  obtain ⟨he, hs, ht, hp⟩ := h₂
  rw [h₁.hhdm_eq] at he hs ht hp
  exact ⟨he, hs, fun p a hp' ha => ht p a hp' (h₁.tables p a hp' ha),
    fun p j hp' => (hp p j hp').trans (h₁.ptes p j hp')⟩

/-- The allocator's answer to a request made in state `s` is good. -/
def AnswerOk (allocPage : AllocPage σ) (root : Word) (s : State σ) : Prop :=
  GoodAnswer s.hhdm root s.mem (s.newPage allocPage) (s.allocated allocPage).mem

variable {allocPage : AllocPage σ} {root : Word} {s : State σ} {p : List Index} {a : Word}
  {i : Index}

/-- The entry that `get_next_level` reads is one of the tree. -/
theorem entry_eq (s : State σ) (a : Word) (i : Index) :
    s.entry (a + s.hhdm) i = s.mem (slot s.hhdm a i) := rfl

/-- Without allocation `get_next_level` goes to the next table or returns null. -/
theorem getNextLevel_lookup (allocPage : AllocPage σ) (s : State σ) (a : Word) (i : Index) :
    getNextLevel allocPage s (a + s.hhdm) i false
      = (s, pointer s.hhdm (next s.mem s.hhdm a i)) := by
  simp only [getNextLevel, next, entry_eq]
  split
  · rfl
  · rfl

/-- With allocation it goes to the next table, or installs it, or the allocator has no page. -/
theorem getNextLevel_allocate (allocPage : AllocPage σ) (hs : Shape s.hhdm root s.mem) (hp : p.length < 3)
    (ha : tableAt s.mem s.hhdm root p = some a)
    (hok : s.mem (slot s.hhdm a i) &&& ptePresent = 0 → AnswerOk allocPage root s) :
    ∃ s' b, getNextLevel allocPage s (a + s.hhdm) i true = (s', b) ∧ Grown root s s' ∧
      (b = 0 ∧ s.mem (slot s.hhdm a i) &&& ptePresent = 0 ∧ s.newPage allocPage = 0 ∨
        b ≠ 0 ∧ (s.mem (slot s.hhdm a i) &&& ptePresent = 0 → s.newPage allocPage ≠ 0) ∧
        ∃ c, tableAt s'.mem s.hhdm root (p ++ [i]) = some c ∧ b = c + s.hhdm) := by
  by_cases hpresent : s.mem (slot s.hhdm a i) &&& ptePresent = 0
  · have hgood := hok hpresent
    by_cases hpage : s.newPage allocPage = 0
    · refine ⟨s.allocated allocPage, 0, ?_, ⟨rfl, hs.congr hgood.same, fun q x hq hx => ?_,
        fun q j hq => hgood.same.pteAt_eq (by omega) j⟩, .inl ⟨rfl, hpresent, hpage⟩⟩
      · simp only [getNextLevel, entry_eq, hpresent, ne_eq, not_true, if_false, hpage, if_true,
          Bool.true_eq_false]
      · exact (hgood.same.tableAt_eq hq).trans hx
    · have hinst : Installed s.hhdm root s.mem p a i (s.newPage allocPage)
          (s.allocated allocPage).mem := ⟨ha, hp, hpresent, hpage, hgood⟩
      refine ⟨(s.allocated allocPage).setEntry (a + s.hhdm) i (tableEntry (s.newPage allocPage)),
        s.newPage allocPage + s.hhdm, ?_, ⟨rfl, hinst.shape hs, fun q x hq hx => ?_,
        fun q j hq => hinst.pteAt_eq hs hq j⟩, .inr ⟨hgood.not_null hpage, fun _ => hpage,
        s.newPage allocPage, ?_, rfl⟩⟩
      · simp only [getNextLevel, entry_eq, hpresent, ne_eq, not_true, if_false, hpage,
          Bool.true_eq_false]
        rfl
      · refine (hinst.tableAt_eq hs hq).trans ?_
        rw [if_neg]
        · exact hx
        · rintro rfl
          have hnone : tableAt s.mem s.hhdm root (p ++ [i]) = none := by
            have hpa : follow (next s.mem s.hhdm) root p = some a := ha
            rw [tableAt, follow_snoc, hpa, Option.bind_some, next_of_not_present hpresent]
          rw [hnone] at hx
          cases hx
      · exact (hinst.tableAt_eq hs (by rw [List.length_append, List.length_singleton]; omega)).trans
          (if_pos rfl)
  · have hchild : tableAt s.mem s.hhdm root (p ++ [i])
        = some (s.mem (slot s.hhdm a i) &&& pteAddrMask) := by
      have hpa : follow (next s.mem s.hhdm) root p = some a := ha
      rw [tableAt, follow_snoc, hpa, Option.bind_some, next_of_present hpresent]
    refine ⟨s, (s.mem (slot s.hhdm a i) &&& pteAddrMask) + s.hhdm, ?_, .refl hs,
      .inr ⟨?_, fun h => absurd h hpresent, _, hchild, rfl⟩⟩
    · simp only [getNextLevel, entry_eq, ne_eq, hpresent, not_false_eq_true, if_true]
    · exact hs.not_null _ _ (by rw [List.length_append, List.length_singleton]; omega) hchild

/-! ## Chains -/

theorem descend_lookup (allocPage : AllocPage σ) (hs : Shape s.hhdm root s.mem)
    (ha : tableAt s.mem s.hhdm root p = some a) (is : List Index) (hlen : p.length + is.length ≤ 3) :
    descend allocPage false s (a + s.hhdm) is
      = (s, pointer s.hhdm (tableAt s.mem s.hhdm root (p ++ is))) := by
  induction is generalizing p a with
  | nil => rw [List.append_nil, ha]; rfl
  | cons i is ih =>
    rw [List.length_cons] at hlen
    have hpi : tableAt s.mem s.hhdm root (p ++ [i]) = next s.mem s.hhdm a i := by
      have hpa : follow (next s.mem s.hhdm) root p = some a := ha
      rw [tableAt, follow_snoc, hpa, Option.bind_some]
    simp only [descend, getNextLevel_lookup]
    rw [List.append_cons]
    cases hnext : next s.mem s.hhdm a i with
    | none =>
      rw [tableAt, follow_append, show follow (next s.mem s.hhdm) root (p ++ [i]) = none from
        hpi.trans hnext]
      rfl
    | some b =>
      have hb : tableAt s.mem s.hhdm root (p ++ [i]) = some b := hpi.trans hnext
      have hlen' : (p ++ [i]).length + is.length ≤ 3 := by
        rw [List.length_append, List.length_singleton]
        omega
      rw [pointer, if_neg (hs.not_null _ b (by omega) hb)]
      exact ih hb hlen'

/-- Every request that is made on the way down gets a good answer. -/
def AnswersOk (allocPage : AllocPage σ) (root : Word) : State σ → Word → List Index → Prop
  | _, _, [] => True
  | s, table, i :: is =>
    (s.entry table i &&& ptePresent = 0 → AnswerOk allocPage root s) ∧
      ((getNextLevel allocPage s table i true).2 ≠ 0 →
        AnswersOk allocPage root (getNextLevel allocPage s table i true).1
          (getNextLevel allocPage s table i true).2 is)

/-- Every request that is made on the way down is granted. -/
def Granted (allocPage : AllocPage σ) : State σ → Word → List Index → Prop
  | _, _, [] => True
  | s, table, i :: is =>
    (s.entry table i &&& ptePresent = 0 → s.newPage allocPage ≠ 0) ∧
      Granted allocPage (getNextLevel allocPage s table i true).1
        (getNextLevel allocPage s table i true).2 is

/-- The whole way down: to the table at the end of the path, or to null if a request is not
    granted. -/
theorem descend_allocate {is : List Index} :
    ∀ {s : State σ} {p : List Index} {a : Word}, Shape s.hhdm root s.mem →
      tableAt s.mem s.hhdm root p = some a → p.length + is.length ≤ 3 →
      AnswersOk allocPage root s (a + s.hhdm) is →
      ∃ s' b, descend allocPage true s (a + s.hhdm) is = (s', b) ∧ Grown root s s' ∧
        (b = 0 ∧ ¬ Granted allocPage s (a + s.hhdm) is ∨
          b ≠ 0 ∧ Granted allocPage s (a + s.hhdm) is ∧
          ∃ c, tableAt s'.mem s.hhdm root (p ++ is) = some c ∧ b = c + s.hhdm) := by
  induction is with
  | nil =>
    intro s p a hs ha hlen _
    rw [List.length_nil] at hlen
    exact ⟨s, a + s.hhdm, rfl, .refl hs, .inr ⟨hs.not_null p a hlen ha, trivial, a,
      by rw [List.append_nil, ha], rfl⟩⟩
  | cons i is ih =>
    intro s p a hs ha hlen hok
    rw [List.length_cons] at hlen
    obtain ⟨hanswer, hrest⟩ := hok
    obtain ⟨s', b, hstep, hgrown, hb⟩ := getNextLevel_allocate allocPage hs (by omega) ha hanswer
    simp only [descend, Granted, hstep] at hrest ⊢
    rcases hb with ⟨rfl, habsent, hpage⟩ | ⟨hb, hgrant, c, hc, rfl⟩
    · exact ⟨s', 0, if_pos rfl, hgrown, .inl ⟨rfl, fun h => h.1 habsent hpage⟩⟩
    · rw [if_neg hb]
      have hlen' : (p ++ [i]).length + is.length ≤ 3 := by
        rw [List.length_append, List.length_singleton]
        omega
      have hbelow := ih (s := s') (p := p ++ [i]) (a := c)
      rw [hgrown.hhdm_eq] at hbelow
      obtain ⟨s'', d, hdown, hgrown', hd⟩ := hbelow hgrown.shape hc hlen' (hrest hb)
      refine ⟨s'', d, hdown, hgrown.trans hgrown', ?_⟩
      rcases hd with ⟨rfl, hnot⟩ | ⟨hd, hgranted, e, he, rfl⟩
      · exact .inl ⟨rfl, fun h => hnot h.2⟩
      · exact .inr ⟨hd, ⟨hgrant, hgranted⟩, e, by rw [List.append_cons]; exact he, rfl⟩

end ChocoOs.Vmm
