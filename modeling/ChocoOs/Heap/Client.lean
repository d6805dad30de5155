import ChocoOs.Heap.Malloc
import ChocoOs.Lib.Arena
import ChocoOs.Lib.Mapped

/-!
# What a client gets from the kernel heap

`malloc` and `calloc` of `heap.c` for a client with an arena. `malloc` grants nothing for no bytes, and
rounds up in 64 bits; `calloc` clears what it asked for, and `none` means that the block has less.
-/

namespace ChocoOs.Heap.Client
open ProgLib

/-- `malloc` (`heap.c:79-114`) -/
def malloc (pick : Pick) (size : Nat) (a : Arena) : Nat × Arena :=
  if size = 0 then (0, a) else a.alloc pick (roundUp size)

/-- The bytes that `calloc` asks `malloc` for: none if there would be too many (`heap.c:152-154`). -/
def callocTotal (num size : Nat) : Nat :=
  if num ≠ 0 ∧ size > (addrSpace - 1) / num then 0 else mul64 num size

/-- `calloc` (`heap.c:150-159`) -/
def calloc (pick : Pick) (num size : Nat) (a : Arena) : Option (Nat × Arena) :=
  let total := callocTotal num size
  let p := malloc pick total a
  if p.1 ≠ 0 ∧ roundUp total < total then none else some p

/-- One `malloc` after another; whether all were granted. -/
def mallocs (pick : Pick) : List Nat → Arena → Arena × Bool
  | [], a => (a, true)
  | size :: sizes, a =>
    let p := malloc pick size a
    let r := mallocs pick sizes p.2
    (r.1, decide (p.1 ≠ 0) && r.2)

/-- One `calloc` after another; whether all were granted. -/
def callocs (pick : Pick) : List (Nat × Nat) → Arena → Option (Arena × Bool)
  | [], a => some (a, true)
  | (num, size) :: rest, a =>
    (calloc pick num size a).bind fun p =>
      (callocs pick rest p.2).map fun r => (r.1, decide (p.1 ≠ 0) && r.2)

/-- Each of the requests is granted when they are made one after another. -/
def Granted (pick : Pick) : List Nat → Arena → Prop
  | [], _ => True
  | size :: sizes, a => (malloc pick size a).1 ≠ 0 ∧ Granted pick sizes (malloc pick size a).2

/-- No block that is granted is shorter than its request. -/
def Whole (pick : Pick) : List Nat → Arena → Prop
  | [], _ => True
  | size :: sizes, a =>
    ((malloc pick size a).1 ≠ 0 → size ≤ roundUp size) ∧ Whole pick sizes (malloc pick size a).2

/-- The heap as it is refuses each of the requests. -/
def Refused (pick : Pick) (sizes : List Nat) (a : Arena) : Prop :=
  ∀ size ∈ sizes, (malloc pick size a).1 = 0

instance decidableGranted (pick : Pick) : ∀ sizes a, Decidable (Granted pick sizes a)
  | [], _ => .isTrue trivial
  | _ :: sizes, _ => @instDecidableAnd _ _ _ (decidableGranted pick sizes _)

instance decidableWhole (pick : Pick) : ∀ sizes a, Decidable (Whole pick sizes a)
  | [], _ => .isTrue trivial
  | _ :: sizes, _ => @instDecidableAnd _ _ _ (decidableWhole pick sizes _)

instance (pick : Pick) (sizes : List Nat) (a : Arena) : Decidable (Refused pick sizes a) := by
  unfold Refused
  infer_instance

variable {pick : Pick}

/-- A request is granted, and there is one block more, or nothing has changed. -/
theorem malloc_cases (pick : Pick) (size : Nat) (a : Arena) :
    ((malloc pick size a).1 = 0 ∧ (malloc pick size a).2 = a) ∨
      ((malloc pick size a).1 ≠ 0 ∧ 0 < size ∧
        (malloc pick size a).2.live = ((malloc pick size a).1, roundUp size) :: a.live) := by
  unfold malloc
  by_cases h0 : size = 0
  · rw [if_pos h0]
    exact .inl ⟨rfl, rfl⟩
  rw [if_neg h0]
  rcases a.alloc_cases pick (roundUp size) with h | ⟨p, hfits, h⟩
  · rw [h]
    exact .inl ⟨rfl, rfl⟩
  · rw [h]
    exact .inr ⟨hfits.1, Nat.pos_of_ne_zero h0, rfl⟩

theorem malloc_region (pick : Pick) (size : Nat) (a : Arena) :
    (malloc pick size a).2.lo = a.lo ∧ (malloc pick size a).2.hi = a.hi := by
  unfold malloc
  split
  · exact ⟨rfl, rfl⟩
  · exact a.alloc_region pick _

theorem mallocs_region (pick : Pick) (sizes : List Nat) (a : Arena) :
    (mallocs pick sizes a).1.lo = a.lo ∧ (mallocs pick sizes a).1.hi = a.hi := by
  induction sizes generalizing a with
  | nil => exact ⟨rfl, rfl⟩
  | cons size sizes ih =>
    obtain ⟨hlo, hhi⟩ := malloc_region pick size a
    exact ⟨(ih _).1.trans hlo, (ih _).2.trans hhi⟩

theorem mallocs_granted {sizes : List Nat} {a : Arena} :
    (mallocs pick sizes a).2 = true ↔ Granted pick sizes a := by
  induction sizes generalizing a with
  | nil => exact ⟨fun _ => trivial, fun _ => rfl⟩
  | cons size sizes ih => rw [mallocs, Granted, Bool.and_eq_true, decide_eq_true_iff, ih]

/-- As long as `calloc` clears no more than it has, it is `malloc`. -/
theorem callocs_eq {requests : List (Nat × Nat)} {a : Arena} {r : Arena × Bool} :
    callocs pick requests a = some r ↔
      Whole pick (requests.map fun q => callocTotal q.1 q.2) a ∧
        mallocs pick (requests.map fun q => callocTotal q.1 q.2) a = r := by
  induction requests generalizing a r with
  | nil => exact ⟨fun h => ⟨trivial, Option.some.inj h⟩, fun h => congrArg some h.2⟩
  | cons q requests ih =>
    obtain ⟨num, size⟩ := q
    simp only [callocs, List.map_cons, Whole, mallocs]
    by_cases hshort : (malloc pick (callocTotal num size) a).1 ≠ 0 ∧
        roundUp (callocTotal num size) < callocTotal num size
    · rw [calloc, if_pos hshort]
      refine iff_of_false nofun ?_
      rintro ⟨⟨hwhole, -⟩, -⟩
      exact absurd (hwhole hshort.1) (Nat.not_le.mpr hshort.2)
    · rw [calloc, if_neg hshort, Option.bind_some, Option.map_eq_some_iff]
      have hwhole : (malloc pick (callocTotal num size) a).1 ≠ 0 →
          callocTotal num size ≤ roundUp (callocTotal num size) :=
        fun hp => Nat.not_lt.mp fun hlt => hshort ⟨hp, hlt⟩
      constructor
      · rintro ⟨r', hr', rfl⟩
        obtain ⟨hrest, rfl⟩ := ih.mp hr'
        exact ⟨⟨hwhole, hrest⟩, rfl⟩
      · rintro ⟨⟨-, hrest⟩, rfl⟩
        exact ⟨_, ih.mpr ⟨hrest, rfl⟩, rfl⟩

/-- `calloc` grants floats for a number only if it is positive. A negative number is a huge one. -/
theorem pos_of_callocTotal {z : Int} (hz : -2 ^ 31 ≤ z ∧ z ≤ 2 ^ 31) (h : 0 < callocTotal (u64 z) 4) :
    0 < z := by
  by_contra hneg
  rw [callocTotal] at h
  rcases Int.lt_or_eq_of_le (Int.not_lt.mp hneg) with hlt | rfl
  · have hu : u64 z = addrSpace + z := by
      rw [u64_cast, ← Int.add_emod_left, Int.emod_eq_of_lt (by rw [addrSpace_eq]; omega) (by omega)]
    rw [addrSpace_eq] at h hu
    have hdiv : (18446744073709551616 - 1) / u64 z < 4 := Nat.div_lt_of_lt_mul (by omega)
    rw [if_pos ⟨by omega, hdiv⟩] at h
    exact absurd h (Nat.lt_irrefl 0)
  · have h0 : u64 0 = 0 := rfl
    rw [h0, if_neg (fun hno => hno.1 rfl), mul64, Nat.zero_mul, Nat.zero_mod] at h
    cases h

/-- What is granted lies in the heap. -/
theorem malloc_le {size : Nat} {a : Arena} (h : (malloc pick size a).1 ≠ 0) :
    roundUp size ≤ a.hi - a.lo := by
  unfold malloc at h
  split at h
  · exact absurd rfl h
  rcases a.alloc_cases pick (roundUp size) with h0 | ⟨p, ⟨-, -, hlo, hhi, -⟩, -⟩
  · rw [h0] at h
    exact absurd rfl h
  · omega

theorem calloc_le {num size : Nat} {a : Arena} {p : Nat × Arena} (h : calloc pick num size a = some p)
    (hp : p.1 ≠ 0) : 0 < num * size ∧ num * size ≤ a.hi - a.lo := by
  unfold calloc at h
  extract_lets total q at h
  split at h
  · cases h
  next hwhole =>
  obtain rfl : q = p := Option.some.inj h
  have hle : total ≤ roundUp total := Nat.not_lt.mp fun hlt => hwhole ⟨hp, hlt⟩
  have hin := malloc_le hp
  have hpos : 0 < total := by
    rcases malloc_cases pick total a with ⟨h0, -⟩ | ⟨-, hpos, -⟩
    · exact absurd h0 hp
    · exact hpos
  have htotal : total = num * size := by
    have hdef : total = callocTotal num size := rfl
    unfold callocTotal at hdef
    split at hdef
    · omega
    next hsmall =>
    rw [hdef]
    apply mul64_of_lt
    have haddr := addrSpace_pos
    rcases Nat.eq_zero_or_pos num with h0 | hnum
    · rw [h0, Nat.zero_mul]
      exact haddr
    have hdiv : size ≤ (addrSpace - 1) / num := Nat.not_lt.mp fun hlt => hsmall ⟨by omega, hlt⟩
    have hmul := (Nat.le_div_iff_mul_le hnum).mp hdiv
    rw [Nat.mul_comm] at hmul
    omega
  rw [← htotal]
  exact ⟨hpos, Nat.le_trans hle hin⟩

/-- When all requests are granted, each of them is for some bytes, and for no more than the heap has. -/
theorem callocs_le {requests : List (Nat × Nat)} {a a' : Arena}
    (h : callocs pick requests a = some (a', true)) :
    ∀ q ∈ requests, 0 < q.1 * q.2 ∧ q.1 * q.2 ≤ a.hi - a.lo := by
  induction requests generalizing a with
  | nil => nofun
  | cons q requests ih =>
    obtain ⟨p, hp, h⟩ := Option.bind_eq_some_iff.mp h
    obtain ⟨r, hr, h⟩ := Option.map_eq_some_iff.mp h
    obtain ⟨rfl, hall⟩ := Prod.mk.inj h
    rw [Bool.and_eq_true, decide_eq_true_iff] at hall
    have hregion : p.2.lo = a.lo ∧ p.2.hi = a.hi := by
      unfold calloc at hp
      extract_lets total p' at hp
      split at hp
      · cases hp
      · obtain rfl : p' = p := Option.some.inj hp
        exact malloc_region pick total a
    refine List.forall_mem_cons.mpr ⟨calloc_le hp hall.1, fun q' hq' => ?_⟩
    rw [← hregion.1, ← hregion.2]
    exact ih (hall.2 ▸ hr) q' hq'

/-! ## What becomes of the blocks -/

/-- Requests never take a block away. -/
theorem mallocs_suffix (pick : Pick) (sizes : List Nat) (a : Arena) :
    a.live <:+ (mallocs pick sizes a).1.live := by
  induction sizes generalizing a with
  | nil => exact List.suffix_rfl
  | cons size sizes ih =>
    refine List.IsSuffix.trans ?_ (ih (malloc pick size a).2)
    rcases malloc_cases pick size a with ⟨-, h⟩ | ⟨-, -, h⟩
    · rw [h]
    · rw [h]
      exact List.suffix_cons _ _

/-- The blocks are the same exactly if none of the requests is granted. -/
theorem mallocs_live_iff {sizes : List Nat} {a : Arena} :
    (mallocs pick sizes a).1.live = a.live ↔ Refused pick sizes a := by
  induction sizes generalizing a with
  | nil => exact ⟨fun _ => nofun, fun _ => rfl⟩
  | cons size sizes ih =>
    rcases malloc_cases pick size a with ⟨h0, h⟩ | ⟨hp, -, h⟩
    · rw [mallocs, h]
      refine (ih (a := a)).trans ⟨fun hall => List.forall_mem_cons.mpr ⟨h0, hall⟩, fun hall => ?_⟩
      exact (List.forall_mem_cons.mp hall).2
    · refine iff_of_false (fun heq => ?_) fun hall => hp (hall size (List.mem_cons_self ..))
      have hlen := (mallocs_suffix pick sizes (malloc pick size a).2).length_le
      rw [h, List.length_cons] at hlen
      rw [mallocs] at heq
      rw [heq] at hlen
      omega

/-- Requests that are all refused change nothing. -/
theorem mallocs_of_refused {sizes : List Nat} {a : Arena} (h : Refused pick sizes a) :
    (mallocs pick sizes a).1 = a := by
  induction sizes with
  | nil => rfl
  | cons size sizes ih =>
    obtain ⟨h0, hrest⟩ := List.forall_mem_cons.mp h
    rcases malloc_cases pick size a with ⟨-, ha⟩ | ⟨hp, -⟩
    · rw [mallocs, ha]
      exact ih hrest
    · exact absurd h0 hp

theorem Granted.not_refused {size : Nat} {sizes : List Nat} {a : Arena}
    (h : Granted pick (size :: sizes) a) : ¬ Refused pick (size :: sizes) a :=
  fun hno => h.1 (hno size (List.mem_cons_self ..))

/-- Only requests for some bytes are granted. -/
theorem Granted.pos {sizes : List Nat} {a : Arena} (h : Granted pick sizes a) :
    ∀ size ∈ sizes, 0 < size := by
  induction sizes generalizing a with
  | nil => nofun
  | cons size sizes ih =>
    obtain ⟨hp, hrest⟩ := h
    refine List.forall_mem_cons.mpr ⟨?_, ih hrest⟩
    rcases malloc_cases pick size a with ⟨h0, -⟩ | ⟨-, hpos, -⟩
    · exact absurd h0 hp
    · exact hpos

end ChocoOs.Heap.Client
