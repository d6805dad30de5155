import ChocoOs.Vmm.Tables

/-!
# What the operations do to the tree

Descending installs empty tables, which changes no translation, and the last write changes the
entry of one page.
-/

namespace ChocoOs.Vmm
open ProgLib

variable {σ : Type} {hhdm root : Word} {m m' : Memory}

/-! ## A new table -/

/-- What a page allocator may answer when the tables are those of `m`: it leaves them alone, and a
    page that it hands out is zeroed, none of the tables and not at the null pointer. -/
structure GoodAnswer (hhdm root : Word) (m : Memory) (page : Word) (m' : Memory) : Prop where
  same : SameTables hhdm root m m'
  isPage : page ≠ 0 → IsPage page
  not_null : page ≠ 0 → page + hhdm ≠ 0
  fresh : page ≠ 0 → ∀ p, p.length ≤ 3 → tableAt m hhdm root p ≠ some page
  zeroed : page ≠ 0 → ∀ i, m' (slot hhdm page i) = 0

/-- The entry that `get_next_level` writes for a new table. -/
abbrev tableEntry (page : Word) : Word := page ||| ptePresent ||| pteWritable ||| pteUser

theorem tableEntry_present (page : Word) : tableEntry page &&& ptePresent ≠ 0 := by
  intro h
  have hbit := congrArg (BitVec.getLsbD · 0) h
  simp [tableEntry, ptePresent] at hbit

theorem tableEntry_and (page mask : Word)
    (h : (ptePresent ||| (pteWritable ||| pteUser)) &&& mask = 0) :
    tableEntry page &&& mask = page &&& mask := by
  rw [tableEntry, BitVec.or_assoc, BitVec.or_assoc, BitVec.and_or_distrib_right, h]
  exact BitVec.or_zero

theorem tableEntry_addr {page : Word} (h : IsPage page) : tableEntry page &&& pteAddrMask = page := by
  rw [tableEntry_and page _ (by decide), h.and_addrMask]

theorem tableEntry_not_huge {page : Word} (h : IsPage page) : tableEntry page &&& pteHuge = 0 := by
  have hbits : pteAddrMask &&& pteHuge = 0 := by decide
  rw [tableEntry_and page _ (by decide), ← h.and_addrMask, BitVec.and_assoc, hbits]
  exact BitVec.and_zero

/-- An entry that is not present has no table. -/
theorem next_of_not_present {a : Word} {i : Index} (h : m (slot hhdm a i) &&& ptePresent = 0) :
    next m hhdm a i = none := by
  rw [next, if_neg (not_not.mpr h)]

theorem next_of_present {a : Word} {i : Index} (h : m (slot hhdm a i) &&& ptePresent ≠ 0) :
    next m hhdm a i = some (m (slot hhdm a i) &&& pteAddrMask) := by
  rw [next, if_pos h]

/-- A new table at an entry that was not present, and nothing else changes. -/
structure Installed (hhdm root : Word) (m : Memory) (p : List Index) (a : Word) (i : Index)
    (page : Word) (m' : Memory) : Prop where
  parent : tableAt m hhdm root p = some a
  depth : p.length < 3
  absent : m (slot hhdm a i) &&& ptePresent = 0
  page_ne : page ≠ 0
  good : GoodAnswer hhdm root m page m'

variable {p : List Index} {a page : Word} {i : Index}

/-- The words of the tables after the installation. -/
theorem Installed.entry (hs : Shape hhdm root m) (h : Installed hhdm root m p a i page m')
    {q : List Index} {x : Word} (hq : q.length ≤ 3) (hx : tableAt m hhdm root q = some x)
    {j : Index} (hne : x ≠ a ∨ j ≠ i) :
    Function.update m' (slot hhdm a i) (tableEntry page) (slot hhdm x j) = m (slot hhdm x j) := by
  have hslot : slot hhdm x j ≠ slot hhdm a i := by
    intro he
    obtain ⟨hxa, hji⟩ := slot_inj (hs.isPage hx) (hs.isPage h.parent) he
    exact hne.elim (· hxa) (· hji)
  rw [Function.update_of_ne hslot, h.good.same q x hq hx j]

theorem Installed.new_entry (hs : Shape hhdm root m) (h : Installed hhdm root m p a i page m')
    (j : Index) :
    Function.update m' (slot hhdm a i) (tableEntry page) (slot hhdm page j) = 0 := by
  have hslot : slot hhdm page j ≠ slot hhdm a i := by
    intro he
    obtain ⟨hpa, -⟩ := slot_inj (h.good.isPage h.page_ne) (hs.isPage h.parent) he
    exact h.good.fresh h.page_ne p (by have := h.depth; omega) (hpa ▸ h.parent)
  rw [Function.update_of_ne hslot, h.good.zeroed h.page_ne]

theorem Installed.tableAt_eq (hs : Shape hhdm root m) (h : Installed hhdm root m p a i page m')
    {q : List Index} (hq : q.length ≤ 3) :
    tableAt (Function.update m' (slot hhdm a i) (tableEntry page)) hhdm root q
      = if q = p ++ [i] then some page else tableAt m hhdm root q := by
  refine follow_addChild hs.distinct h.depth h.parent (next_of_not_present h.absent) ?_
    (fun j => next_of_not_present (by rw [h.new_entry hs]; exact BitVec.zero_and))
    (fun q x j hq hx hne => by
      rw [next, next, h.entry hs (by omega) hx hne]) q hq
  have hword : Function.update m' (slot hhdm a i) (tableEntry page) (slot hhdm a i)
      = tableEntry page := Function.update_self ..
  rw [next_of_present (by rw [hword]; exact tableEntry_present page), hword,
    tableEntry_addr (h.good.isPage h.page_ne)]

theorem Installed.shape (hs : Shape hhdm root m) (h : Installed hhdm root m p a i page m') :
    Shape hhdm root (Function.update m' (slot hhdm a i) (tableEntry page)) := by
  refine ⟨hs.root_page, hs.distinct.addChild (h.good.fresh h.page_ne) fun q hq => h.tableAt_eq hs hq,
    fun q x hq hx => ?_, fun q x j hq hx hpresent => ?_⟩
  · rw [h.tableAt_eq hs hq] at hx
    split at hx
    · cases hx; exact h.good.not_null h.page_ne
    · exact hs.not_null q x hq hx
  · rw [h.tableAt_eq hs (by omega)] at hx
    split at hx
    · cases hx
      rw [h.new_entry hs] at hpresent
      exact absurd BitVec.zero_and hpresent
    · by_cases hxj : x = a ∧ j = i
      · obtain ⟨rfl, rfl⟩ := hxj
        rw [Function.update_self]
        exact tableEntry_not_huge (h.good.isPage h.page_ne)
      · have hne : x ≠ a ∨ j ≠ i := by
          by_cases hxa : x = a
          · exact .inr fun hji => hxj ⟨hxa, hji⟩
          · exact .inl hxa
        rw [h.entry hs (by omega) hx hne] at hpresent ⊢
        exact hs.not_huge q x j hq hx hpresent

/-- An empty table translates nothing, as the missing one did. -/
theorem Installed.pteAt_eq (hs : Shape hhdm root m) (h : Installed hhdm root m p a i page m')
    {q : List Index} (hq : q.length = 3) (j : Index) :
    pteAt (Function.update m' (slot hhdm a i) (tableEntry page)) hhdm root q j
      = pteAt m hhdm root q j := by
  rw [pteAt, pteAt, h.tableAt_eq hs (by omega)]
  by_cases hqp : q = p ++ [i]
  · have hnone : tableAt m hhdm root q = none := by
      have hp : follow (next m hhdm) root p = some a := h.parent
      rw [hqp, tableAt, follow_snoc, hp, Option.bind_some, next_of_not_present h.absent]
    rw [if_pos hqp, hnone]
    exact h.new_entry hs j
  · rw [if_neg hqp]
    cases hx : tableAt m hhdm root q with
    | none => rfl
    | some x =>
      refine h.entry hs (by omega) hx (.inl fun hxa => ?_)
      have hpq := hs.distinct q p x (by omega) (by have := h.depth; omega) hx (hxa ▸ h.parent)
      have := h.depth
      rw [← hpq] at this
      omega

/-! ## An entry of a last-level table -/

section leaf
variable {pt w : Word} {path : List Index} {i : Index}

theorem leaf_tableAt_eq (hs : Shape hhdm root m) (hpath : path.length = 3)
    (hpt : tableAt m hhdm root path = some pt) {q : List Index} (hq : q.length ≤ 3) :
    tableAt (Function.update m (slot hhdm pt i) w) hhdm root q = tableAt m hhdm root q := by
  refine follow_congr (fun q x hq hx j => ?_) q hq
  have hslot : slot hhdm x j ≠ slot hhdm pt i := by
    intro he
    obtain ⟨rfl, -⟩ := slot_inj (hs.isPage hx) (hs.isPage hpt) he
    have := hs.distinct q path x (by omega) (by omega) hx hpt
    rw [this] at hq
    omega
  rw [next, next, Function.update_of_ne hslot]

theorem leaf_shape (hs : Shape hhdm root m) (hpath : path.length = 3)
    (hpt : tableAt m hhdm root path = some pt) :
    Shape hhdm root (Function.update m (slot hhdm pt i) w) := by
  refine ⟨hs.root_page, hs.distinct.congr fun q hq => leaf_tableAt_eq hs hpath hpt hq,
    fun q x hq hx => ?_, fun q x j hq hx => ?_⟩
  · rw [leaf_tableAt_eq hs hpath hpt hq] at hx
    exact hs.not_null q x hq hx
  · rw [leaf_tableAt_eq hs hpath hpt (by omega)] at hx
    have hslot : slot hhdm x j ≠ slot hhdm pt i := by
      intro he
      obtain ⟨rfl, -⟩ := slot_inj (hs.isPage hx) (hs.isPage hpt) he
      have := hs.distinct q path x (by omega) (by omega) hx hpt
      rw [this] at hq
      omega
    rw [Function.update_of_ne hslot]
    exact hs.not_huge q x j hq hx

theorem leaf_pteAt_eq (hs : Shape hhdm root m) (hpath : path.length = 3)
    (hpt : tableAt m hhdm root path = some pt) {q : List Index} (hq : q.length = 3) (j : Index) :
    pteAt (Function.update m (slot hhdm pt i) w) hhdm root q j
      = if q = path ∧ j = i then w else pteAt m hhdm root q j := by
  rw [pteAt, pteAt, leaf_tableAt_eq hs hpath hpt (by omega)]
  by_cases hqp : q = path ∧ j = i
  · obtain ⟨rfl, rfl⟩ := hqp
    rw [if_pos ⟨rfl, rfl⟩, hpt]
    exact Function.update_self ..
  · rw [if_neg hqp]
    cases hx : tableAt m hhdm root q with
    | none => rfl
    | some x =>
      refine Function.update_of_ne (fun he => hqp ?_) _ _
      obtain ⟨rfl, hji⟩ := slot_inj (hs.isPage hx) (hs.isPage hpt) he
      exact ⟨hs.distinct q path x (by omega) (by omega) hx hpt, hji⟩

end leaf

end ChocoOs.Vmm
