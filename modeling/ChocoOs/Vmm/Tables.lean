import ChocoOs.Vmm.Operations
import ChocoOs.Lib.PathTree
import Mathlib.Algebra.Group.Nat.Defs

/-!
# The tree of page tables

The tables are the nodes of a tree whose edges are the present entries. A node is named by its
physical address; the code sees it at that address plus the direct map's offset.
-/

namespace ChocoOs.Vmm
open ProgLib

/-- The physical address of a page. -/
def IsPage (a : Word) : Prop := a.toNat % 4096 = 0 ∧ a.toNat < 2 ^ 52

/-- The address of entry `i` of the table on page `a`. -/
def slot (hhdm a : Word) (i : Index) : Word := entryAddr (a + hhdm) i

/-- The page that a present entry names. -/
def next (m : Memory) (hhdm : Word) (a : Word) (i : Index) : Option Word :=
  if m (slot hhdm a i) &&& ptePresent ≠ 0 then some (m (slot hhdm a i) &&& pteAddrMask) else none

/-- The table at the end of a path from `root`. -/
abbrev tableAt (m : Memory) (hhdm root : Word) (path : List Index) : Option Word :=
  follow (next m hhdm) root path

/-- The entry for page `j` of the table at the end of a path, 0 if there is none. -/
def pteAt (m : Memory) (hhdm root : Word) (path : List Index) (j : Index) : Word :=
  match tableAt m hhdm root path with
  | some pt => m (slot hhdm pt j)
  | none => 0

/-! ## Bits -/

theorem pteAddrMask_getLsbD {k : Nat} (hk : k < 64) :
    pteAddrMask.getLsbD k = decide (12 ≤ k ∧ k < 52) := by
  have h : ∀ k : Fin 64, pteAddrMask.getLsbD k = decide (12 ≤ k.val ∧ k.val < 52) := by decide
  exact h ⟨k, hk⟩

theorem toNat_and_addrMask (e : Word) :
    (e &&& pteAddrMask).toNat = e.toNat / 4096 % 2 ^ 40 * 4096 := by
  have h : e &&& pteAddrMask = ((e >>> 12).setWidth 40).setWidth 64 <<< 12 := by
    refine BitVec.eq_of_getLsbD_eq fun k hk => ?_
    rw [BitVec.getLsbD_and, pteAddrMask_getLsbD hk]
    simp only [BitVec.getLsbD_shiftLeft, BitVec.getLsbD_setWidth, BitVec.getLsbD_ushiftRight]
    by_cases h12 : k < 12
    · have hout : ¬ (12 ≤ k ∧ k < 52) := by omega
      simp [h12, hout]
    · have hsub : 12 + (k - 12) = k := by omega
      have hin : (12 ≤ k ∧ k < 52) ↔ k - 12 < 40 := by omega
      have h64 : k - 12 < 64 := by omega
      simp only [h12, hk, hsub, hin, h64, decide_true, decide_false, Bool.not_false, Bool.true_and]
      exact Bool.and_comm _ _
  rw [h, BitVec.toNat_shiftLeft, BitVec.toNat_setWidth, BitVec.toNat_setWidth,
    BitVec.toNat_ushiftRight, Nat.shiftRight_eq_div_pow, Nat.shiftLeft_eq]
  omega

theorem isPage_and_addrMask (e : Word) : IsPage (e &&& pteAddrMask) := by
  rw [IsPage, toNat_and_addrMask]
  omega

theorem IsPage.and_addrMask {a : Word} (h : IsPage a) : a &&& pteAddrMask = a := by
  obtain ⟨h₁, h₂⟩ := h
  apply BitVec.eq_of_toNat_eq
  rw [toNat_and_addrMask]
  omega

/-- Flags beside an address do not change it. -/
theorem or_and_addrMask {a b flags : Word} (hflags : flags &&& pteAddrMask = 0) :
    ((a &&& pteAddrMask) ||| flags ||| b) &&& pteAddrMask
      = (a &&& pteAddrMask) ||| (b &&& pteAddrMask) := by
  refine BitVec.eq_of_getLsbD_eq fun k hk => ?_
  have hk' : (flags.getLsbD k && pteAddrMask.getLsbD k) = false := by
    rw [← BitVec.getLsbD_and, hflags]
    simp
  simp only [BitVec.getLsbD_and, BitVec.getLsbD_or]
  cases hmask : pteAddrMask.getLsbD k with
  | false => simp
  | true =>
    rw [hmask, Bool.and_true] at hk'
    simp [hk']

/-- Different entries are different words. -/
theorem slot_inj {hhdm a b : Word} {i j : Index} (ha : IsPage a) (hb : IsPage b)
    (h : slot hhdm a i = slot hhdm b j) : a = b ∧ i = j := by
  obtain ⟨ha₁, ha₂⟩ := ha
  obtain ⟨hb₁, hb₂⟩ := hb
  have hi := i.isLt
  have hj := j.isLt
  have heq : a + BitVec.ofNat 64 (8 * i.val) = b + BitVec.ofNat 64 (8 * j.val) := by
    simp only [slot, entryAddr] at h
    rw [BitVec.add_assoc, BitVec.add_assoc, BitVec.add_comm hhdm, BitVec.add_comm hhdm,
      ← BitVec.add_assoc, ← BitVec.add_assoc] at h
    exact (BitVec.add_left_inj hhdm).mp h
  have hnat := congrArg BitVec.toNat heq
  simp only [BitVec.toNat_add, BitVec.toNat_ofNat] at hnat
  refine ⟨BitVec.eq_of_toNat_eq (by omega), Fin.ext (by omega)⟩

/-! ## The shape of the tree -/

/-- A structure of four levels: no table is reached by two paths, none lies at the null pointer,
    and no entry that `get_next_level` descends through maps a large page. -/
structure Shape (hhdm root : Word) (m : Memory) : Prop where
  root_page : IsPage root
  distinct : Distinct (next m hhdm) root 3
  not_null : ∀ p a, p.length ≤ 3 → tableAt m hhdm root p = some a → a + hhdm ≠ 0
  not_huge : ∀ p a i, p.length < 3 → tableAt m hhdm root p = some a →
    m (slot hhdm a i) &&& ptePresent ≠ 0 → m (slot hhdm a i) &&& pteHuge = 0

theorem Shape.isPage {hhdm root : Word} {m : Memory} (h : Shape hhdm root m) {p : List Index}
    {a : Word} (hp : tableAt m hhdm root p = some a) : IsPage a := by
  induction p using List.reverseRecOn with
  | nil => cases hp; exact h.root_page
  | append_singleton p i _ =>
    rw [tableAt, follow_snoc] at hp
    obtain ⟨b, -, hb⟩ := Option.bind_eq_some_iff.mp hp
    simp only [next] at hb
    split at hb
    · cases hb; exact isPage_and_addrMask _
    · cases hb

/-- The two memories agree on all tables of `m`. -/
def SameTables (hhdm root : Word) (m m' : Memory) : Prop :=
  ∀ p a, p.length ≤ 3 → tableAt m hhdm root p = some a → ∀ i, m' (slot hhdm a i) = m (slot hhdm a i)

theorem SameTables.tableAt_eq {hhdm root : Word} {m m' : Memory}
    (h : SameTables hhdm root m m') {p : List Index} (hp : p.length ≤ 3) :
    tableAt m' hhdm root p = tableAt m hhdm root p :=
  follow_congr (fun q n hq hn i => by rw [next, next, h q n (by omega) hn i]) p hp

theorem SameTables.pteAt_eq {hhdm root : Word} {m m' : Memory}
    (h : SameTables hhdm root m m') {p : List Index} (hp : p.length ≤ 3) (j : Index) :
    pteAt m' hhdm root p j = pteAt m hhdm root p j := by
  rw [pteAt, pteAt, h.tableAt_eq hp]
  cases ht : tableAt m hhdm root p with
  | none => rfl
  | some a => exact h p a hp ht j

theorem Shape.congr {hhdm root : Word} {m m' : Memory} (h : Shape hhdm root m)
    (same : SameTables hhdm root m m') : Shape hhdm root m' := by
  refine ⟨h.root_page, h.distinct.congr fun p hp => same.tableAt_eq hp, fun p a hp ha => ?_,
    fun p a i hp ha => ?_⟩
  · rw [same.tableAt_eq hp] at ha
    exact h.not_null p a hp ha
  · rw [same.tableAt_eq (by omega)] at ha
    rw [same p a (by omega) ha i]
    exact h.not_huge p a i hp ha

end ChocoOs.Vmm
