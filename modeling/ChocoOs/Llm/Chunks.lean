import ChocoOs.Llm.Sanitize

/-!
# A text in pieces

Each piece is sanitized on its own. Of the whole text a mark is lost when a cut lies in it, and the
end of a piece that is too long for the buffer.
-/

namespace ChocoOs.Llm
open ProgLib

/-- A mark begins in the first text and ends in the second one. -/
def Straddles (a b : List UInt8) : Prop :=
  ∃ x y, x ≠ [] ∧ y ≠ [] ∧ x ++ y ∈ marks.map Prod.fst ∧ x <:+ a ∧ y <+: b

/-- No cut lies in a mark. -/
def Uncut : List (List UInt8) → Prop
  | [] => True
  | w :: ws => ¬ Straddles w ws.flatten ∧ Uncut ws

/-- All that comes before the last character or mark of the text leaves room in the buffer. -/
def Fits (w : List UInt8) : Prop := (items w).dropLast.flatten.length < 76

/-! ## Room -/

theorem takeItems_prefix (room : Nat) (is : List (List UInt8)) : takeItems room is <+: is.flatten := by
  induction is generalizing room with
  | nil => exact List.prefix_rfl
  | cons i is ih =>
    rw [takeItems, List.flatten_cons]
    split
    · exact List.nil_prefix
    · exact (List.prefix_append_right_inj i).mpr (ih _)

/-- All items are taken if there is room before the last one. -/
theorem takeItems_eq_iff {room : Nat} {is : List (List UInt8)} (hne : ∀ i ∈ is, i ≠ [])
    (hroom : 0 < room) : takeItems room is = is.flatten ↔ is.dropLast.flatten.length < room := by
  induction is generalizing room with
  | nil => exact ⟨fun _ => hroom, fun _ => rfl⟩
  | cons i is ih =>
    obtain ⟨hi, his⟩ := List.forall_mem_cons.mp hne
    rw [takeItems, if_neg (by omega), List.flatten_cons, List.append_cancel_left_eq]
    cases is with
    | nil => exact ⟨fun _ => hroom, fun _ => rfl⟩
    | cons j is =>
      have hlen : (i :: j :: is).dropLast.flatten.length =
          i.length + (j :: is).dropLast.flatten.length := by
        rw [List.dropLast_cons_cons, List.flatten_cons, List.length_append]
      rw [hlen]
      by_cases hfull : room - i.length = 0
      · rw [hfull, takeItems_zero, List.flatten_cons]
        obtain ⟨hj, -⟩ := List.forall_mem_cons.mp his
        constructor
        · intro h
          exact absurd (List.append_eq_nil_iff.mp h.symm).1 hj
        · intro h
          omega
      · rw [ih his (Nat.pos_of_ne_zero hfull)]
        omega

theorem items_ne_nil (w : List UInt8) : ∀ i ∈ items w, i ≠ [] := by
  intro i hi
  exact of_decide_eq_true (List.mem_filter.mp hi).2

theorem emitted_prefix_reference (w : List UInt8) : emitted w <+: reference w := by
  rw [emitted_eq]
  exact takeItems_prefix 76 (items w)

theorem emitted_eq_iff (w : List UInt8) : emitted w = reference w ↔ Fits w := by
  rw [emitted_eq]
  exact takeItems_eq_iff (items_ne_nil w) (by decide)

/-! ## Cuts -/

theorem length_of_mark {key : List UInt8} (h : key ∈ marks.map Prod.fst) : key.length = 3 := by
  obtain ⟨⟨key, r⟩, hm, rfl⟩ := List.mem_map.mp h
  obtain ⟨-, -, b, hkey, -⟩ := mem_marks hm
  rw [hkey]
  rfl

theorem replacement_append {w : List UInt8} (h : 3 ≤ w.length) (b : List UInt8) :
    replacement (w ++ b) = replacement w := by
  rw [replacement, List.take_append_of_le_length h, replacement]

/-- A mark begins here if and only if its bytes follow. -/
theorem replacement_ne_nil_iff {w : List UInt8} :
    replacement w ≠ [] ↔ w.take 3 ∈ marks.map Prod.fst := by
  constructor
  · intro h
    have hmem := (replacement_cases w).resolve_left h
    exact List.mem_map.mpr ⟨_, hmem, rfl⟩
  · intro h
    obtain ⟨m, hm, heq⟩ := List.mem_map.mp h
    have hall : ∀ m ∈ marks, (marks.lookup m.1).getD [] ≠ [] := by decide
    rw [replacement, ← heq]
    exact hall m hm

/-- The first byte stands for the same before more text, unless it begins a mark that goes on there. -/
theorem output_append (c : UInt8) (p b : List UInt8) :
    (output (c :: (p ++ b)) = output (c :: p) ∧
      ¬ ∃ y, y ≠ [] ∧ c :: p ++ y ∈ marks.map Prod.fst ∧ y <+: b) ∨
    (output (c :: p) = [] ∧ output (c :: (p ++ b)) ≠ [] ∧
      ∃ y, y ≠ [] ∧ c :: p ++ y ∈ marks.map Prod.fst ∧ y <+: b) := by
  have happend : c :: (p ++ b) = (c :: p) ++ b := rfl
  rw [happend]
  have hmark : ∀ {y}, c :: p ++ y ∈ marks.map Prod.fst → ¬ Kept c := by
    intro y hy
    obtain ⟨⟨key, r⟩, hm, hkey⟩ := List.mem_map.mp hy
    obtain ⟨-, -, d, hkey', -⟩ := mem_marks hm
    rw [hkey'] at hkey
    have hc : (0xE2 : UInt8) = c := (List.cons.inj hkey).1
    rw [← hc]
    decide
  have hout : ∀ w, output (c :: w) = if Kept c then [c] else replacement (c :: w) := fun w => rfl
  by_cases hlong : 3 ≤ (c :: p).length
  · left
    constructor
    · rw [List.cons_append, hout, hout, ← List.cons_append, replacement_append hlong]
    · rintro ⟨y, hy, hkey, -⟩
      have hlen := length_of_mark hkey
      have hpos := List.length_pos_of_ne_nil hy
      rw [List.length_append] at hlen
      omega
  have hshort : (c :: p).length < 3 := Nat.not_le.mp hlong
  by_cases hbegin : ∃ y, y ≠ [] ∧ c :: p ++ y ∈ marks.map Prod.fst ∧ y <+: b
  · right
    obtain ⟨y, hy, hkey, rest, rfl⟩ := hbegin
    have hkept := hmark hkey
    refine ⟨?_, ?_, y, hy, hkey, List.prefix_append _ _⟩
    · rw [hout, if_neg hkept, replacement_short hshort]
    · have htake : (c :: p ++ (y ++ rest)).take 3 = c :: p ++ y := by
        rw [← List.append_assoc]
        exact List.take_left' (length_of_mark hkey)
      rw [List.cons_append, hout, if_neg hkept, ← List.cons_append, replacement_ne_nil_iff, htake]
      exact hkey
  · left
    refine ⟨?_, hbegin⟩
    rw [List.cons_append, hout, hout, ← List.cons_append]
    by_cases hkept : Kept c
    · rw [if_pos hkept, if_pos hkept]
    · rw [if_neg hkept, if_neg hkept, replacement_short hshort]
      by_contra hne
      rw [← ne_eq, replacement_ne_nil_iff, List.take_append, List.take_of_length_le (by omega)] at hne
      refine hbegin ⟨b.take (3 - (c :: p).length), ?_, hne, List.take_prefix _ _⟩
      intro hnil
      have hlen := length_of_mark hne
      rw [hnil, List.append_nil] at hlen
      omega

/-- Where a text is cut: nothing is lost if the cut is not in a mark, and a mark is lost if it is. -/
theorem reference_append (a b : List UInt8) :
    (¬ Straddles a b → reference (a ++ b) = reference a ++ reference b) ∧
    (Straddles a b →
      (reference a).length + (reference b).length < (reference (a ++ b)).length) := by
  induction a with
  | nil =>
    refine ⟨fun _ => rfl, ?_⟩
    rintro ⟨x, y, hx, -, -, hsuffix, -⟩
    exact absurd (List.suffix_nil.mp hsuffix) hx
  | cons c p ih =>
    have hcons : Straddles (c :: p) b ↔
        (∃ y, y ≠ [] ∧ c :: p ++ y ∈ marks.map Prod.fst ∧ y <+: b) ∨ Straddles p b := by
      constructor
      · rintro ⟨x, y, hx, hy, hkey, hsuffix, hprefix⟩
        rcases List.suffix_cons_iff.mp hsuffix with rfl | hsuffix
        · exact .inl ⟨y, hy, hkey, hprefix⟩
        · exact .inr ⟨x, y, hx, hy, hkey, hsuffix, hprefix⟩
      · rintro (⟨y, hy, hkey, hprefix⟩ | ⟨x, y, hx, hy, hkey, hsuffix, hprefix⟩)
        · exact ⟨c :: p, y, List.cons_ne_nil _ _, hy, hkey, List.suffix_rfl, hprefix⟩
        · exact ⟨x, y, hx, hy, hkey, hsuffix.trans (List.suffix_cons c p), hprefix⟩
    have hle : (reference p).length + (reference b).length ≤ (reference (p ++ b)).length := by
      by_cases hp : Straddles p b
      · exact Nat.le_of_lt (ih.2 hp)
      · rw [ih.1 hp, List.length_append]
    rw [List.cons_append, reference_cons, reference_cons, hcons]
    rcases output_append c p b with ⟨hsame, hno⟩ | ⟨hnone, hsome, hbegin⟩
    · rw [hsame]
      constructor
      · intro h
        rw [ih.1 fun hp => h (.inr hp), List.append_assoc]
      · intro h
        have hlt := ih.2 (h.resolve_left hno)
        rw [List.length_append, List.length_append]
        omega
    · rw [hnone]
      refine ⟨fun h => absurd (.inl hbegin) h, fun _ => ?_⟩
      have hpos := List.length_pos_of_ne_nil hsome
      rw [List.nil_append, List.length_append]
      omega

/-! ## All pieces -/

/-- Both conditions, and nothing else, make the pieces say what the text says. -/
theorem chunks_cases (ws : List (List UInt8)) :
    ((∀ w ∈ ws, Fits w) ∧ Uncut ws → ws.flatMap emitted = reference ws.flatten) ∧
    (¬ ((∀ w ∈ ws, Fits w) ∧ Uncut ws) →
      (ws.flatMap emitted).length < (reference ws.flatten).length) := by
  induction ws with
  | nil => exact ⟨fun _ => rfl, fun h => absurd ⟨nofun, trivial⟩ h⟩
  | cons w ws ih =>
    have hlew := (emitted_prefix_reference w).length_le
    have hlews : (ws.flatMap emitted).length ≤ (reference ws.flatten).length := by
      by_cases hws : (∀ w ∈ ws, Fits w) ∧ Uncut ws
      · rw [ih.1 hws]
      · exact Nat.le_of_lt (ih.2 hws)
    have hcut := reference_append w ws.flatten
    rw [List.flatMap_cons, List.flatten_cons]
    constructor
    · rintro ⟨hfits, huncut, hrest⟩
      obtain ⟨hw, hws⟩ := List.forall_mem_cons.mp hfits
      rw [hcut.1 huncut, (emitted_eq_iff w).mpr hw, ih.1 ⟨hws, hrest⟩]
    · intro h
      rw [List.length_append]
      by_cases hstraddle : Straddles w ws.flatten
      · have hlt := hcut.2 hstraddle
        omega
      rw [hcut.1 hstraddle, List.length_append]
      by_cases hw : Fits w
      · have hws : ¬ ((∀ w ∈ ws, Fits w) ∧ Uncut ws) := fun hws =>
          h ⟨List.forall_mem_cons.mpr ⟨hw, hws.1⟩, hstraddle, hws.2⟩
        have hlt := ih.2 hws
        omega
      · have hlt : (emitted w).length < (reference w).length := by
          apply Nat.lt_of_le_of_ne hlew
          intro heq
          exact hw ((emitted_eq_iff w).mp ((emitted_prefix_reference w).eq_of_length heq))
        omega

/-- Sanitizing in pieces gives the sanitized text if and only if every piece fits and no cut lies in a
    mark. -/
theorem chunks_eq_iff (ws : List CString) :
    (ws.flatMap fun w => emitted w.1) = reference (ws.map Subtype.val).flatten ↔
      (∀ w ∈ ws, Fits w.1) ∧ Uncut (ws.map Subtype.val) := by
  have hcases := chunks_cases (ws.map Subtype.val)
  rw [List.flatMap_map, List.forall_mem_map] at hcases
  constructor
  · intro h
    by_contra hno
    have hlt := hcases.2 hno
    rw [h] at hlt
    exact absurd hlt (Nat.lt_irrefl _)
  · exact hcases.1

/-- A closing quote in two tokens is lost. -/
theorem not_chunks_eq : ¬ ∀ ws : List CString,
    (ws.flatMap fun w => emitted w.1) = reference (ws.map Subtype.val).flatten := by
  intro h
  have hquote := h [⟨[0xE2], by decide⟩, ⟨[0x80, 0x99], by decide⟩]
  exact absurd hquote (by decide)

end ChocoOs.Llm
