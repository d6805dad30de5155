import Mathlib.Data.List.TakeWhile

/-!
# C strings

A C string is the list of the bytes before its terminator, none of which is NUL. `strcmp` compares
bytes as unsigned numbers; its sign is a linear order on C strings.
-/

namespace ProgLib

/-- The bytes before the terminating NUL. -/
abbrev CString := { s : List UInt8 // (0 : UInt8) ∉ s }

/-- `strcmp`. -/
def strcmp : List UInt8 → List UInt8 → Int
  | [], [] => 0
  | [], b :: _ => -(b.toNat : Int)
  | a :: _, [] => a.toNat
  | a :: as, b :: bs => if a = b then strcmp as bs else (a.toNat : Int) - b.toNat

namespace CString

def nil : CString := ⟨[], List.not_mem_nil⟩

def append (s t : CString) : CString :=
  ⟨s.1 ++ t.1, fun h => (List.mem_append.mp h).elim s.2 t.2⟩

def length (s : CString) : Nat := s.1.length

/-- The C string that a buffer holds. -/
def ofBytes (bs : List UInt8) : CString :=
  ⟨bs.takeWhile (· != 0), fun h => by simpa using List.mem_takeWhile_imp h⟩

def take (n : Nat) (s : CString) : CString := ⟨s.1.take n, fun h => s.2 (List.mem_of_mem_take h)⟩

/-- The string that begins `n` bytes further on. -/
def drop (n : Nat) (s : CString) : CString := ⟨s.1.drop n, fun h => s.2 (List.mem_of_mem_drop h)⟩

theorem length_append (s t : CString) : (s.append t).length = s.length + t.length :=
  List.length_append

theorem take_of_length_le {n : Nat} {s : CString} (h : s.length ≤ n) : s.take n = s :=
  Subtype.ext (List.take_of_length_le h)

theorem ofBytes_eq {bs : List UInt8} (h : 0 ∉ bs) : ofBytes bs = ⟨bs, h⟩ := by
  refine Subtype.ext (List.takeWhile_eq_self_iff.mpr fun x hx => ?_)
  simpa using fun he : x = 0 => h (he ▸ hx)

end CString

theorem toNat_pos {a : UInt8} (h : a ≠ 0) : 0 < a.toNat := by
  refine Nat.pos_of_ne_zero fun h0 => h ?_
  exact UInt8.toNat_inj.mp h0

theorem strcmp_self (s : List UInt8) : strcmp s s = 0 := by
  induction s with
  | nil => rfl
  | cons a s ih => rw [strcmp, if_pos rfl, ih]

/-- Exchanging the strings changes the sign. -/
theorem strcmp_neg (s t : List UInt8) : strcmp t s = -strcmp s t := by
  induction s generalizing t with
  | nil =>
    cases t with
    | nil => rfl
    | cons b t => simp [strcmp]
  | cons a s ih =>
    cases t with
    | nil => simp [strcmp]
    | cons b t =>
      rw [strcmp, strcmp]
      by_cases h : a = b
      · rw [if_pos h, if_pos h.symm, ih]
      · rw [if_neg h, if_neg (Ne.symm h), Int.neg_sub]

theorem strcmp_eq_zero {s t : CString} : strcmp s.1 t.1 = 0 ↔ s = t := by
  obtain ⟨s, hs⟩ := s
  obtain ⟨t, ht⟩ := t
  rw [Subtype.mk.injEq]
  refine ⟨fun h => ?_, fun h => h ▸ strcmp_self s⟩
  simp only at h
  induction s generalizing t with
  | nil =>
    cases t with
    | nil => rfl
    | cons b t =>
      have := toNat_pos (a := b) fun hb => ht (by simp [hb])
      rw [strcmp] at h
      omega
  | cons a s ih =>
    have ha := toNat_pos (a := a) fun ha => hs (by simp [ha])
    cases t with
    | nil =>
      rw [strcmp] at h
      omega
    | cons b t =>
      rw [strcmp] at h
      by_cases hab : a = b
      · rw [if_pos hab] at h
        rw [hab, ih (fun h0 => hs (by simp [h0])) t (fun h0 => ht (by simp [h0])) h]
      · rw [if_neg hab] at h
        exact absurd (UInt8.toNat_inj.mp (by omega)) hab

/-- Comparing with as many bytes as there are at the end finds a suffix. -/
theorem strcmp_drop_eq_zero {s t : CString} :
    t.length ≤ s.length ∧ strcmp (s.drop (s.length - t.length)).1 t.1 = 0 ↔ t.1 <:+ s.1 := by
  rw [strcmp_eq_zero, Subtype.ext_iff]
  constructor
  · rintro ⟨-, heq⟩
    rw [← heq]
    exact List.drop_suffix _ _
  · intro h
    exact ⟨h.length_le, (List.suffix_iff_eq_drop.mp h).symm⟩

theorem strcmp_trans {s t u : CString} (h₁ : strcmp s.1 t.1 ≤ 0) (h₂ : strcmp t.1 u.1 ≤ 0) :
    strcmp s.1 u.1 ≤ 0 := by
  obtain ⟨s, hs⟩ := s
  obtain ⟨t, ht⟩ := t
  obtain ⟨u, hu⟩ := u
  simp only at h₁ h₂ ⊢
  induction s generalizing t u with
  | nil => cases u <;> simp [strcmp]
  | cons a s ih =>
    have ha := toNat_pos (a := a) fun ha => hs (by simp [ha])
    cases t with
    | nil =>
      rw [strcmp] at h₁
      omega
    | cons b t =>
      have hb := toNat_pos (a := b) fun hb => ht (by simp [hb])
      cases u with
      | nil =>
        rw [strcmp] at h₂
        omega
      | cons c u =>
        rw [strcmp] at h₁ h₂ ⊢
        by_cases hab : a = b
        · subst hab
          rw [if_pos rfl] at h₁
          by_cases hac : a = c
          · subst hac
            rw [if_pos rfl] at h₂ ⊢
            exact ih (fun h0 => hs (by simp [h0])) t (fun h0 => ht (by simp [h0])) h₁ u
              (fun h0 => hu (by simp [h0])) h₂
          · rwa [if_neg hac] at h₂ ⊢
        · rw [if_neg hab] at h₁
          by_cases hbc : b = c
          · subst hbc
            rw [if_neg hab]
            exact h₁
          · rw [if_neg hbc] at h₂
            have hac : a ≠ c := fun hac => hab (UInt8.toNat_inj.mp (by
              rw [hac] at h₁ ⊢
              omega))
            rw [if_neg hac]
            omega

end ProgLib
