import Mathlib.Data.List.Basic
import Mathlib.Data.List.Nodup

/-!
# An allocator seen by its clients

A client of `malloc` and `free` knows neither where the next block lies nor whether there will
be one. `Arena` keeps the client's own live blocks; a choice function stands for the allocator,
and the only thing known about it is what every allocator promises: a block it hands out is in
the heap region, 16-aligned and disjoint from the live ones. Any other choice counts as failure.
Giving back an address that is not live has no meaning and gets none.
-/

namespace ProgLib

/-- A client's share of the heap region `[lo, hi)`: its live blocks (address and length), and
    every address that it has given to `free`. -/
structure Arena where
  lo : Nat
  hi : Nat
  live : List (Nat × Nat)
  freed : List Nat

/-- The allocator's choice of an address for a request. -/
abbrev Pick := Arena → Nat → Nat

namespace Arena

/-- `len` bytes at `p` can be handed out. -/
def Fits (a : Arena) (p len : Nat) : Prop :=
  p ≠ 0 ∧ p % 16 = 0 ∧ a.lo ≤ p ∧ p + len ≤ a.hi ∧
    ∀ b ∈ a.live, p + len ≤ b.1 ∨ b.1 + b.2 ≤ p

instance (a : Arena) (p len : Nat) : Decidable (a.Fits p len) := by
  unfold Fits
  infer_instance

/-- A request for `len` bytes; the address is 0 when it fails. -/
def alloc (pick : Pick) (len : Nat) (a : Arena) : Nat × Arena :=
  if a.Fits (pick a len) len then (pick a len, { a with live := (pick a len, len) :: a.live })
  else (0, a)

/-- `p` is given back. The null pointer is ignored. -/
def free (p : Nat) (a : Arena) : Option Arena :=
  if p = 0 then some a
  else if p ∈ a.live.map Prod.fst then
    some { a with live := a.live.filter fun b => b.1 ≠ p, freed := p :: a.freed }
  else none

/-- `len` bytes at `p` may be accessed: they lie in one live block. -/
def Covers (a : Arena) (p len : Nat) : Prop :=
  len = 0 ∨ ∃ b ∈ a.live, b.1 ≤ p ∧ p + len ≤ b.1 + b.2

instance (a : Arena) (p len : Nat) : Decidable (a.Covers p len) := by
  unfold Covers
  infer_instance

/-- The live blocks are disjoint ranges of the heap region, which all freed addresses are in. -/
structure Ok (a : Arena) : Prop where
  apart : a.live.Pairwise fun b c => b.1 + b.2 ≤ c.1 ∨ c.1 + c.2 ≤ b.1
  inside : ∀ b ∈ a.live, b.1 ≠ 0 ∧ b.1 % 16 = 0 ∧ a.lo ≤ b.1 ∧ b.1 + b.2 ≤ a.hi ∧ 0 < b.2
  freed_inside : ∀ p ∈ a.freed, a.lo ≤ p ∧ p < a.hi

/-- The two outcomes of a request. -/
theorem alloc_cases (pick : Pick) (len : Nat) (a : Arena) :
    alloc pick len a = (0, a) ∨ ∃ p, a.Fits p len ∧
      alloc pick len a = (p, { a with live := (p, len) :: a.live }) := by
  by_cases h : a.Fits (pick a len) len
  · exact .inr ⟨_, h, if_pos h⟩
  · exact .inl (if_neg h)

theorem alloc_ne_zero {pick : Pick} {len : Nat} {a : Arena} (h : a.Fits (pick a len) len) :
    (alloc pick len a).1 ≠ 0 := by
  rw [alloc, if_pos h]
  exact h.1

theorem alloc_eq_zero_iff {pick : Pick} {len : Nat} {a : Arena} :
    (alloc pick len a).1 = 0 ↔ ¬ a.Fits (pick a len) len := by
  constructor
  · intro h0 hfits
    exact alloc_ne_zero hfits h0
  · intro hno
    rw [alloc, if_neg hno]

theorem fits_of_alloc {pick : Pick} {len : Nat} {a : Arena} (h : (alloc pick len a).1 ≠ 0) :
    a.Fits (pick a len) len := by
  by_contra hno
  exact h (alloc_eq_zero_iff.mpr hno)

/-- A request never takes a block away. -/
theorem alloc_suffix (pick : Pick) (len : Nat) (a : Arena) : a.live <:+ (alloc pick len a).2.live := by
  rcases alloc_cases pick len a with h | ⟨p, -, h⟩
  · simp only [h, List.suffix_rfl]
  · simp only [h, List.suffix_cons]

/-- A request leaves the heap region as it is. -/
theorem alloc_region (pick : Pick) (len : Nat) (a : Arena) :
    (alloc pick len a).2.lo = a.lo ∧ (alloc pick len a).2.hi = a.hi := by
  rcases alloc_cases pick len a with h | ⟨p, -, h⟩ <;> rw [h] <;> exact ⟨rfl, rfl⟩

/-- A block that the heap granted lies in the heap region. -/
theorem length_le_of_alloc {pick : Pick} {heap : Arena} {len : Nat}
    (h : (heap.alloc pick len).1 ≠ 0) : len ≤ heap.hi - heap.lo ∧
      ∃ heap', (heap.alloc pick len).2.free (heap.alloc pick len).1 = some heap' := by
  rcases alloc_cases pick len heap with ha | ⟨p, hfits, ha⟩
  · rw [ha] at h
    exact absurd rfl h
  · obtain ⟨hp0, -, hlo, hhi, -⟩ := hfits
    rw [ha]
    refine ⟨by omega, _, (if_neg hp0).trans (if_pos ?_)⟩
    exact List.mem_map.mpr ⟨_, List.mem_cons_self .., rfl⟩

theorem Ok.alloc {a : Arena} {p len : Nat} (h : a.Ok) (hlen : 0 < len) (hp : a.Fits p len) :
    Ok { a with live := (p, len) :: a.live } := by
  obtain ⟨hp0, hal, hlo, hhi, hap⟩ := hp
  refine ⟨List.pairwise_cons.mpr ⟨hap, h.apart⟩, ?_, h.freed_inside⟩
  intro b hb
  rcases List.mem_cons.mp hb with rfl | hb
  · exact ⟨hp0, hal, hlo, hhi, hlen⟩
  · exact h.inside b hb

/-- A new block is at a new address. -/
theorem Ok.fresh {a : Arena} {p len : Nat} (h : a.Ok) (hlen : 0 < len) (hp : a.Fits p len) :
    p ∉ a.live.map Prod.fst := by
  intro hmem
  obtain ⟨b, hb, rfl⟩ := List.mem_map.mp hmem
  have := hp.2.2.2.2 b hb
  have := h.inside b hb
  omega

/-- No two live blocks have the same address. -/
theorem Ok.nodup {a : Arena} (h : a.Ok) : (a.live.map Prod.fst).Nodup := by
  refine List.pairwise_map.mpr (h.apart.imp_of_mem fun {b c} hb hc hbc heq => ?_)
  have := h.inside b hb
  have := h.inside c hc
  omega

/-- Giving back a live block succeeds and leaves the others. -/
theorem Ok.free {a : Arena} {p n : Nat} {rest : List (Nat × Nat)} (h : a.Ok)
    (hl : a.live.Perm ((p, n) :: rest)) : ∃ a', a.free p = some a' ∧ a'.live.Perm rest ∧ a'.Ok ∧
      a'.lo = a.lo ∧ a'.hi = a.hi ∧ a'.freed = p :: a.freed := by
  have hmem : (p, n) ∈ a.live := hl.mem_iff.mpr (by simp)
  have hp : p ∈ a.live.map Prod.fst := List.mem_map.mpr ⟨_, hmem, rfl⟩
  obtain ⟨hp0, -, hlo, hhi, hpos⟩ := h.inside _ hmem
  -- the block found by its address is the one meant
  have hothers : ∀ b ∈ rest, b.1 ≠ p := by
    intro b hb he
    have hnd := (hl.map Prod.fst).nodup_iff.mp h.nodup
    exact (List.nodup_cons.mp hnd).1 (List.mem_map.mpr ⟨b, hb, he⟩)
  refine ⟨_, (if_neg hp0).trans (if_pos hp), ?_, ⟨?_, ?_, ?_⟩, rfl, rfl, rfl⟩
  · have hfilter := hl.filter fun b => decide (b.1 ≠ p)
    have hself : rest.filter (fun b => decide (b.1 ≠ p)) = rest :=
      List.filter_eq_self.mpr fun b hb => decide_eq_true (hothers b hb)
    rwa [List.filter_cons_of_neg (by simp), hself] at hfilter
  · exact h.apart.sublist List.filter_sublist
  · exact fun b hb => h.inside b (List.mem_of_mem_filter hb)
  · intro q hq
    rcases List.mem_cons.mp hq with rfl | hq
    · exact ⟨hlo, by simp only at hhi hpos ⊢; omega⟩
    · exact h.freed_inside q hq

/-! ## Requests one after another -/

/-- The arena after these requests. -/
def allocAll (pick : Pick) (lens : List Nat) (a : Arena) : Arena :=
  lens.foldl (fun a len => (a.alloc pick len).2) a

/-- The allocator grants each of these requests when they are made one after another. -/
def Grants (pick : Pick) : List Nat → Arena → Prop
  | [], _ => True
  | len :: lens, a => a.Fits (pick a len) len ∧ Grants pick lens (a.alloc pick len).2

instance decidableGrants (pick : Pick) : ∀ lens a, Decidable (Grants pick lens a)
  | [], _ => .isTrue trivial
  | _ :: lens, _ => @instDecidableAnd _ _ _ (decidableGrants pick lens _)

theorem allocAll_append (pick : Pick) (ms ns : List Nat) (a : Arena) :
    allocAll pick (ms ++ ns) a = allocAll pick ns (allocAll pick ms a) := List.foldl_append

theorem grants_append {pick : Pick} {ms ns : List Nat} {a : Arena} :
    Grants pick (ms ++ ns) a ↔ Grants pick ms a ∧ Grants pick ns (allocAll pick ms a) := by
  induction ms generalizing a with
  | nil => exact ⟨fun h => ⟨trivial, h⟩, And.right⟩
  | cons m ms ih => exact (and_congr_right fun _ => ih).trans and_assoc.symm

/-- Of granted requests the first ones are granted. -/
theorem Grants.of_prefix {pick : Pick} {ms ns : List Nat} {a : Arena} (h : Grants pick ns a)
    (hpre : ms <+: ns) : Grants pick ms a := by
  obtain ⟨rest, rfl⟩ := hpre
  exact (grants_append.mp h).1

end Arena

end ProgLib
