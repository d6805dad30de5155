import ChocoOs.Vmm.Operations
import ChocoOs.Vmm.Tables

/-!
# The page walk of the processor

The tables that the bootloader built contain pages of 2 MiB and 1 GiB, whose entries name no
table. The walk of the processor ends there; `vmm_get_phys` goes on and reads the words of the
mapped page as entries.
-/

namespace ChocoOs.Vmm
open ProgLib

/-- The words that the translation of `v` looks at, each in the page that the one before names. -/
def pml4Entry (m : Memory) (hhdm root v : Word) : Word := m (slot hhdm root (index v 39))

def pdpEntry (m : Memory) (hhdm root v : Word) : Word :=
  m (slot hhdm (pml4Entry m hhdm root v &&& pteAddrMask) (index v 30))

def pdEntry (m : Memory) (hhdm root v : Word) : Word :=
  m (slot hhdm (pdpEntry m hhdm root v &&& pteAddrMask) (index v 21))

def ptEntry (m : Memory) (hhdm root v : Word) : Word :=
  m (slot hhdm (pdEntry m hhdm root v &&& pteAddrMask) (index v 12))

/-- The bits of an entry of the page directory pointer table that place a page of 1 GiB. -/
def addrMask1G : Word := 0x000fffffc0000000

/-- The bits of an entry of the page directory that place a page of 2 MiB. -/
def addrMask2M : Word := 0x000fffffffe00000

/-- The page walk of an x86-64 processor: the physical address of `v`, or none if an entry is not
    present. -/
def pageWalk (m : Memory) (hhdm root v : Word) : Option Word :=
  if pml4Entry m hhdm root v &&& ptePresent = 0 then none
  else if pdpEntry m hhdm root v &&& ptePresent = 0 then none
  else if pdpEntry m hhdm root v &&& pteHuge ≠ 0 then
    some ((pdpEntry m hhdm root v &&& addrMask1G) + (v &&& 0x3fffffff))
  else if pdEntry m hhdm root v &&& ptePresent = 0 then none
  else if pdEntry m hhdm root v &&& pteHuge ≠ 0 then
    some ((pdEntry m hhdm root v &&& addrMask2M) + (v &&& 0x1fffff))
  else if ptEntry m hhdm root v &&& ptePresent = 0 then none
  else some ((ptEntry m hhdm root v &&& pteAddrMask) + (v &&& 0xfff))

/-- The walk of `v` ends at a page of 1 GiB. -/
def Meets1G (m : Memory) (hhdm root v : Word) : Prop :=
  pml4Entry m hhdm root v &&& ptePresent ≠ 0 ∧ pdpEntry m hhdm root v &&& ptePresent ≠ 0 ∧
    pdpEntry m hhdm root v &&& pteHuge ≠ 0

/-- The walk of `v` ends at a page of 2 MiB. -/
def Meets2M (m : Memory) (hhdm root v : Word) : Prop :=
  pml4Entry m hhdm root v &&& ptePresent ≠ 0 ∧ pdpEntry m hhdm root v &&& ptePresent ≠ 0 ∧
    pdpEntry m hhdm root v &&& pteHuge = 0 ∧ pdEntry m hhdm root v &&& ptePresent ≠ 0 ∧
    pdEntry m hhdm root v &&& pteHuge ≠ 0

/-- What the present entries of the walk name is not at the null pointer in the direct map. -/
structure NotNull (m : Memory) (hhdm root v : Word) : Prop where
  pdp : pml4Entry m hhdm root v &&& ptePresent ≠ 0 →
    (pml4Entry m hhdm root v &&& pteAddrMask) + hhdm ≠ 0
  pd : pml4Entry m hhdm root v &&& ptePresent ≠ 0 → pdpEntry m hhdm root v &&& ptePresent ≠ 0 →
    (pdpEntry m hhdm root v &&& pteAddrMask) + hhdm ≠ 0
  pt : pml4Entry m hhdm root v &&& ptePresent ≠ 0 → pdpEntry m hhdm root v &&& ptePresent ≠ 0 →
    pdpEntry m hhdm root v &&& pteHuge = 0 → pdEntry m hhdm root v &&& ptePresent ≠ 0 →
    (pdEntry m hhdm root v &&& pteAddrMask) + hhdm ≠ 0

/-- The word in a page of 2 MiB that is taken for an entry happens to name the part of the page
    that `v` is in, or is not present and `v` has the address 0. -/
def Word2MAgrees (m : Memory) (hhdm root v : Word) : Prop :=
  if ptEntry m hhdm root v &&& ptePresent ≠ 0 then
    ptEntry m hhdm root v &&& pteAddrMask = (pdEntry m hhdm root v &&& addrMask2M) + (v &&& 0x1ff000)
  else (pdEntry m hhdm root v &&& addrMask2M) + (v &&& 0x1fffff) = 0

/-- The same for the two words that a page of 1 GiB leads to. -/
def Words1GAgree (m : Memory) (hhdm root v : Word) : Prop :=
  if pdEntry m hhdm root v &&& ptePresent ≠ 0 ∧
      (pdEntry m hhdm root v &&& pteAddrMask) + hhdm ≠ 0 ∧
      ptEntry m hhdm root v &&& ptePresent ≠ 0 then
    ptEntry m hhdm root v &&& pteAddrMask
      = (pdpEntry m hhdm root v &&& addrMask1G) + (v &&& 0x3ffff000)
  else (pdpEntry m hhdm root v &&& addrMask1G) + (v &&& 0x3fffffff) = 0

variable {σ : Type} {allocPage : AllocPage σ} {s : State σ} {m : Memory} {hhdm root v : Word}

theorem descend_lookup_cons (allocPage : AllocPage σ) (s : State σ) (a : Word) (i : Index)
    (is : List Index) : descend allocPage false s (a + s.hhdm) (i :: is) =
      if s.mem (slot s.hhdm a i) &&& ptePresent = 0 then (s, 0)
      else if (s.mem (slot s.hhdm a i) &&& pteAddrMask) + s.hhdm = 0 then (s, 0)
      else descend allocPage false s ((s.mem (slot s.hhdm a i) &&& pteAddrMask) + s.hhdm) is := by
  have hentry : s.entry (a + s.hhdm) i = s.mem (slot s.hhdm a i) := rfl
  by_cases hp : s.mem (slot s.hhdm a i) &&& ptePresent = 0
  · simp only [descend, getNextLevel, hentry, hp, ne_eq, not_true, if_false, if_true]
  · simp only [descend, getNextLevel, hentry, hp, ne_eq, not_false_eq_true, if_false, if_true]

/-- `vmm_get_phys` in terms of the words that it reads. -/
theorem vmmGetPhys_words (allocPage : AllocPage σ) (s : State σ) (root v : Word) :
    vmmGetPhys allocPage s (root + s.hhdm) v =
      if pml4Entry s.mem s.hhdm root v &&& ptePresent = 0 then 0
      else if (pml4Entry s.mem s.hhdm root v &&& pteAddrMask) + s.hhdm = 0 then 0
      else if pdpEntry s.mem s.hhdm root v &&& ptePresent = 0 then 0
      else if (pdpEntry s.mem s.hhdm root v &&& pteAddrMask) + s.hhdm = 0 then 0
      else if pdEntry s.mem s.hhdm root v &&& ptePresent = 0 then 0
      else if (pdEntry s.mem s.hhdm root v &&& pteAddrMask) + s.hhdm = 0 then 0
      else if ptEntry s.mem s.hhdm root v &&& ptePresent = 0 then 0
      else (ptEntry s.mem s.hhdm root v &&& pteAddrMask) + (v &&& 0xfff) := by
  rw [vmmGetPhys, tablePath, descend_lookup_cons,
    show s.mem (slot s.hhdm root (index v 39))
      = pml4Entry s.mem s.hhdm root v from rfl]
  by_cases h₄ : pml4Entry s.mem s.hhdm root v &&& ptePresent = 0
  · rw [if_pos h₄, if_pos h₄]; exact if_pos rfl
  rw [if_neg h₄, if_neg h₄]
  by_cases hpdp : (pml4Entry s.mem s.hhdm root v &&& pteAddrMask) + s.hhdm = 0
  · rw [if_pos hpdp, if_pos hpdp]; exact if_pos rfl
  rw [if_neg hpdp, if_neg hpdp, descend_lookup_cons,
    show s.mem (slot s.hhdm (pml4Entry s.mem s.hhdm root v &&& pteAddrMask) (index v 30))
      = pdpEntry s.mem s.hhdm root v from rfl]
  by_cases h₃ : pdpEntry s.mem s.hhdm root v &&& ptePresent = 0
  · rw [if_pos h₃, if_pos h₃]; exact if_pos rfl
  rw [if_neg h₃, if_neg h₃]
  by_cases hpd : (pdpEntry s.mem s.hhdm root v &&& pteAddrMask) + s.hhdm = 0
  · rw [if_pos hpd, if_pos hpd]; exact if_pos rfl
  rw [if_neg hpd, if_neg hpd, descend_lookup_cons,
    show s.mem (slot s.hhdm (pdpEntry s.mem s.hhdm root v &&& pteAddrMask) (index v 21))
      = pdEntry s.mem s.hhdm root v from rfl]
  by_cases h₂ : pdEntry s.mem s.hhdm root v &&& ptePresent = 0
  · rw [if_pos h₂, if_pos h₂]; exact if_pos rfl
  rw [if_neg h₂, if_neg h₂]
  by_cases hpt : (pdEntry s.mem s.hhdm root v &&& pteAddrMask) + s.hhdm = 0
  · rw [if_pos hpt, if_pos hpt]; exact if_pos rfl
  rw [if_neg hpt, if_neg hpt]
  exact if_neg hpt

/-! ## When the two agree -/

/-- Address bits in two parts. -/
theorem and_eq_add {v a b : Word} (h : a &&& b = 0) : v &&& (a ||| b) = (v &&& a) + (v &&& b) := by
  have hdisjoint : (v &&& a) &&& (v &&& b) = 0 := by
    rw [BitVec.and_assoc, BitVec.and_comm a, BitVec.and_assoc, BitVec.and_comm b, h]
    simp
  rw [BitVec.and_or_distrib_left, BitVec.add_eq_or_of_and_eq_zero _ _ hdisjoint]

theorem add_offset_eq_iff {frame base part offset : Word} :
    frame + offset = base + (part + offset) ↔ frame = base + part := by
  rw [← BitVec.add_assoc, BitVec.add_left_inj]

/-- On the addresses of a page of 2 MiB `vmm_get_phys` is right only by chance. -/
theorem getPhys_2M_iff (hm : Meets2M s.mem s.hhdm root v) (hn : NotNull s.mem s.hhdm root v) :
    vmmGetPhys allocPage s (root + s.hhdm) v = (pageWalk s.mem s.hhdm root v).getD 0 ↔
      Word2MAgrees s.mem s.hhdm root v := by
  obtain ⟨h₄, h₃, hsmall, h₂, hhuge⟩ := hm
  rw [vmmGetPhys_words, pageWalk, if_neg h₄, if_neg (hn.pdp h₄), if_neg h₃, if_neg (hn.pd h₄ h₃),
    if_neg h₂, if_neg (hn.pt h₄ h₃ hsmall h₂), if_neg h₄, if_neg h₃, if_neg (not_not.mpr hsmall),
    if_neg h₂, if_pos hhuge, Option.getD_some, Word2MAgrees]
  by_cases h₁ : ptEntry s.mem s.hhdm root v &&& ptePresent = 0
  · rw [if_pos h₁, if_neg (not_not.mpr h₁)]
    exact eq_comm
  · rw [if_neg h₁, if_pos h₁, show (0x1fffff : Word) = 0x1ff000 ||| 0xfff by decide,
      and_eq_add (by decide), add_offset_eq_iff]

/-- And so it is on those of a page of 1 GiB. -/
theorem getPhys_1G_iff (hm : Meets1G s.mem s.hhdm root v) (hn : NotNull s.mem s.hhdm root v) :
    vmmGetPhys allocPage s (root + s.hhdm) v = (pageWalk s.mem s.hhdm root v).getD 0 ↔
      Words1GAgree s.mem s.hhdm root v := by
  obtain ⟨h₄, h₃, hhuge⟩ := hm
  rw [vmmGetPhys_words, pageWalk, if_neg h₄, if_neg (hn.pdp h₄), if_neg h₃, if_neg (hn.pd h₄ h₃),
    if_neg h₄, if_neg h₃, if_pos hhuge, Option.getD_some, Words1GAgree]
  by_cases hdata : pdEntry s.mem s.hhdm root v &&& ptePresent ≠ 0 ∧
      (pdEntry s.mem s.hhdm root v &&& pteAddrMask) + s.hhdm ≠ 0 ∧
      ptEntry s.mem s.hhdm root v &&& ptePresent ≠ 0
  · obtain ⟨h₂, hpt, h₁⟩ := hdata
    rw [if_neg h₂, if_neg hpt, if_neg h₁, if_pos ⟨h₂, hpt, h₁⟩,
      show (0x3fffffff : Word) = 0x3ffff000 ||| 0xfff by decide, and_eq_add (by decide),
      add_offset_eq_iff]
  · rw [if_neg hdata]
    have hzero : (if pdEntry s.mem s.hhdm root v &&& ptePresent = 0 then (0 : Word)
        else if (pdEntry s.mem s.hhdm root v &&& pteAddrMask) + s.hhdm = 0 then 0
        else if ptEntry s.mem s.hhdm root v &&& ptePresent = 0 then 0
        else (ptEntry s.mem s.hhdm root v &&& pteAddrMask) + (v &&& 0xfff)) = 0 := by
      split
      · rfl
      split
      · rfl
      split
      · rfl
      · next h₂ hpt h₁ => exact absurd ⟨h₂, hpt, h₁⟩ hdata
    rw [hzero]
    exact eq_comm

/-- Away from large pages it always is. -/
theorem getPhys_small (h1G : ¬ Meets1G s.mem s.hhdm root v) (h2M : ¬ Meets2M s.mem s.hhdm root v)
    (hn : NotNull s.mem s.hhdm root v) :
    vmmGetPhys allocPage s (root + s.hhdm) v = (pageWalk s.mem s.hhdm root v).getD 0 := by
  rw [vmmGetPhys_words, pageWalk]
  by_cases h₄ : pml4Entry s.mem s.hhdm root v &&& ptePresent = 0
  · rw [if_pos h₄, if_pos h₄]; rfl
  rw [if_neg h₄, if_neg h₄, if_neg (hn.pdp h₄)]
  by_cases h₃ : pdpEntry s.mem s.hhdm root v &&& ptePresent = 0
  · rw [if_pos h₃, if_pos h₃]; rfl
  have hsmall : pdpEntry s.mem s.hhdm root v &&& pteHuge = 0 :=
    not_not.mp fun h => h1G ⟨h₄, h₃, h⟩
  rw [if_neg h₃, if_neg h₃, if_neg (hn.pd h₄ h₃), if_neg (not_not.mpr hsmall)]
  by_cases h₂ : pdEntry s.mem s.hhdm root v &&& ptePresent = 0
  · rw [if_pos h₂, if_pos h₂]; rfl
  have hsmall' : pdEntry s.mem s.hhdm root v &&& pteHuge = 0 :=
    not_not.mp fun h => h2M ⟨h₄, h₃, hsmall, h₂, h⟩
  rw [if_neg h₂, if_neg h₂, if_neg (hn.pt h₄ h₃ hsmall h₂), if_neg (not_not.mpr hsmall')]
  split <;> rfl

/-- `vmm_get_phys` agrees with the processor exactly if the walk meets no large page, or the words
    of the page that it takes for entries happen to give the same address. -/
theorem getPhys_eq_pageWalk_iff (hn : NotNull s.mem s.hhdm root v) :
    vmmGetPhys allocPage s (root + s.hhdm) v = (pageWalk s.mem s.hhdm root v).getD 0 ↔
      (Meets1G s.mem s.hhdm root v → Words1GAgree s.mem s.hhdm root v) ∧
        (Meets2M s.mem s.hhdm root v → Word2MAgrees s.mem s.hhdm root v) := by
  by_cases h1G : Meets1G s.mem s.hhdm root v
  · have h2M : ¬ Meets2M s.mem s.hhdm root v := fun h => h1G.2.2 h.2.2.1
    rw [getPhys_1G_iff h1G hn]
    exact ⟨fun h => ⟨fun _ => h, fun h' => absurd h' h2M⟩, fun h => h.1 h1G⟩
  · by_cases h2M : Meets2M s.mem s.hhdm root v
    · rw [getPhys_2M_iff h2M hn]
      exact ⟨fun h => ⟨fun h' => absurd h' h1G, fun _ => h⟩, fun h => h.2 h2M⟩
    · exact ⟨fun _ => ⟨fun h => absurd h h1G, fun h => absurd h h2M⟩,
        fun _ => getPhys_small h1G h2M hn⟩

/-- The first 2 MiB of memory at virtual address 0 as one page, with its data all zero. -/
def bootTables : Memory := fun a =>
  if a = 0xffff800000001000 then 0x2003
  else if a = 0xffff800000002000 then 0x3003
  else if a = 0xffff800000003000 then 0x200083
  else 0

def bootTablesState : State Nat := ⟨bootTables, 0xffff800000000000, 0⟩

theorem getPhys_eq_pageWalk_iff_boot :
    vmmGetPhys (fun n m => (0, m, n)) bootTablesState (0x1000 + bootTablesState.hhdm) 0x1234
        = (pageWalk bootTables 0xffff800000000000 0x1000 0x1234).getD 0 ↔
      (Meets1G bootTables 0xffff800000000000 0x1000 0x1234 →
        Words1GAgree bootTables 0xffff800000000000 0x1000 0x1234) ∧
      (Meets2M bootTables 0xffff800000000000 0x1000 0x1234 →
        Word2MAgrees bootTables 0xffff800000000000 0x1000 0x1234) :=
  getPhys_eq_pageWalk_iff (s := bootTablesState)
    ⟨by decide, by decide, by decide⟩

/-- The processor finds `0x201234` for `0x1234`, and `vmm_get_phys` finds nothing. -/
theorem getPhys_ne_pageWalk :
    pageWalk bootTables 0xffff800000000000 0x1000 0x1234 = some 0x201234 ∧
    ¬ ∀ (s : State Nat) (root v : Word), NotNull s.mem s.hhdm root v →
      vmmGetPhys (fun n m => (0, m, n)) s (root + s.hhdm) v
        = (pageWalk s.mem s.hhdm root v).getD 0 := by
  refine ⟨by decide, fun h => ?_⟩
  have hwrong := h bootTablesState 0x1000 0x1234
    ⟨by decide, by decide, by decide⟩
  exact absurd hwrong (by decide)

end ChocoOs.Vmm
