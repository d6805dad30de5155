import ChocoOs.Llm.Generate
import Mathlib.Data.List.Infix

/-!
# What is emitted of a text

`reference` says what a text becomes on an ASCII terminal. `emit_sanitized` gives that as far as there
is room in its buffer, for each piece on its own.
-/

namespace ChocoOs.Llm

/-! ## The reference -/

/-- The marks that are replaced: quotes, dashes and the ellipsis. -/
def marks : List (List UInt8 × List UInt8) :=
  [(0x2018, [39]), (0x2019, [39]), (0x201C, [34]), (0x201D, [34]), (0x2013, [45]), (0x2014, [45]),
    (0x2026, [46, 46, 46])].map fun m => (String.utf8EncodeChar (Char.ofNat m.1), m.2)

/-- Newline, tab and printable ASCII. -/
def Kept (c : UInt8) : Prop := c = 10 ∨ c = 9 ∨ (32 ≤ c ∧ c < 127)

instance (c : UInt8) : Decidable (Kept c) := by
  unfold Kept
  infer_instance

/-- What stands for the mark at the beginning, if there is one. -/
def replacement (w : List UInt8) : List UInt8 := (marks.lookup (w.take 3)).getD []

/-- What stands for the first byte. A mark is replaced where it begins, and its other bytes are dropped
    as all that is not printable. -/
def output : List UInt8 → List UInt8
  | [] => []
  | c :: p => if Kept c then [c] else replacement (c :: p)

/-- What a text becomes, byte by byte. -/
def items (w : List UInt8) : List (List UInt8) := (w.tails.map output).filter (· ≠ [])

/-- What a text becomes. -/
def reference (w : List UInt8) : List UInt8 := (items w).flatten

theorem marks_eq : marks = [([0xE2, 0x80, 0x98], [39]), ([0xE2, 0x80, 0x99], [39]),
    ([0xE2, 0x80, 0x9C], [34]), ([0xE2, 0x80, 0x9D], [34]), ([0xE2, 0x80, 0x93], [45]),
    ([0xE2, 0x80, 0x94], [45]), ([0xE2, 0x80, 0xA6], [46, 46, 46])] := by decide

/-- A mark has three bytes, of which none is kept. -/
theorem mem_marks {key r : List UInt8} (h : (key, r) ∈ marks) :
    r ≠ [] ∧ (∀ c ∈ r, Kept c) ∧ ∃ b, key = [0xE2, 0x80, b] ∧ b &&& 0xC0 = 0x80 := by
  rw [marks_eq] at h
  simp only [List.mem_cons, List.not_mem_nil, or_false, Prod.mk.injEq] at h
  rcases h with ⟨rfl, rfl⟩ | ⟨rfl, rfl⟩ | ⟨rfl, rfl⟩ | ⟨rfl, rfl⟩ | ⟨rfl, rfl⟩ | ⟨rfl, rfl⟩ |
    ⟨rfl, rfl⟩ <;>
      exact ⟨by decide, by simp [Kept], _, rfl, by decide⟩

theorem mem_of_lookup {ms : List (List UInt8 × List UInt8)} {key r : List UInt8}
    (h : ms.lookup key = some r) : (key, r) ∈ ms := by
  induction ms with
  | nil => cases h
  | cons m ms ih =>
    rw [List.lookup_cons] at h
    split at h
    · next heq =>
      cases h
      rw [eq_of_beq heq]
      exact List.mem_cons_self ..
    · exact List.mem_cons_of_mem _ (ih h)

/-- Where a mark begins. -/
theorem replacement_cases (w : List UInt8) : replacement w = [] ∨ (w.take 3, replacement w) ∈ marks := by
  unfold replacement
  cases h : marks.lookup (w.take 3) with
  | none => exact .inl rfl
  | some r => exact .inr (mem_of_lookup h)

/-- Only the first byte of a mark has a replacement. -/
theorem replacement_eq_nil {c : UInt8} (h : c ≠ 0xE2) (p : List UInt8) : replacement (c :: p) = [] := by
  rcases replacement_cases (c :: p) with hnil | hmem
  · exact hnil
  · obtain ⟨-, -, b, hkey, -⟩ := mem_marks hmem
    rw [List.take_succ_cons] at hkey
    exact absurd (List.cons.inj hkey).1 h

theorem replacement_short {w : List UInt8} (h : w.length < 3) : replacement w = [] := by
  rcases replacement_cases w with hnil | hmem
  · exact hnil
  · obtain ⟨-, -, b, hkey, -⟩ := mem_marks hmem
    have hlen := congrArg List.length hkey
    rw [List.length_take] at hlen
    simp only [List.length_cons, List.length_nil] at hlen
    omega

theorem items_nil : items [] = [] := rfl

theorem items_cons (c : UInt8) (p : List UInt8) :
    items (c :: p) = (if output (c :: p) = [] then [] else [output (c :: p)]) ++ items p := by
  unfold items
  rw [List.tails_cons, List.map_cons, List.filter_cons]
  by_cases h : output (c :: p) = []
  · rw [if_pos h, if_neg (by simp [h]), List.nil_append]
  · rw [if_neg h, if_pos (by simp [h]), List.singleton_append]

theorem reference_cons (c : UInt8) (p : List UInt8) :
    reference (c :: p) = output (c :: p) ++ reference p := by
  unfold reference
  rw [items_cons, List.flatten_append]
  by_cases h : output (c :: p) = []
  · rw [if_pos h, h]
    rfl
  · rw [if_neg h, List.flatten_singleton]

/-- A byte that is neither kept nor begins a mark leaves no trace. -/
theorem items_dropped {c : UInt8} (hkept : ¬ Kept c) (p : List UInt8)
    (hmark : replacement (c :: p) = []) : items (c :: p) = items p := by
  rw [items_cons, output, if_neg hkept, hmark, if_pos rfl, List.nil_append]

/-- A byte behind the first one of a UTF-8 sequence lies above ASCII, and begins no mark. -/
theorem continuation_bounds {c : UInt8} (h : c &&& 0xC0 = 0x80) : 128 ≤ c ∧ c ≠ 0xE2 := by
  refine ⟨?_, ?_⟩
  · have hle : (c &&& 0xC0).toNat ≤ c.toNat := by
      rw [UInt8.toNat_and]
      exact Nat.and_le_left
    rw [h] at hle
    exact UInt8.le_iff_toNat_le.mpr hle
  · rintro rfl
    exact absurd h (by decide)

theorem not_kept_of_le {c : UInt8} (h : 128 ≤ c) : ¬ Kept c := by
  rintro (rfl | rfl | ⟨-, hlt⟩)
  · exact absurd h (by decide)
  · exact absurd h (by decide)
  · have hn := UInt8.le_iff_toNat_le.mp h
    have hn' := UInt8.lt_iff_toNat_lt.mp hlt
    exact absurd (Nat.lt_of_le_of_lt hn hn') (by decide)

theorem items_continuation {c : UInt8} (h : c &&& 0xC0 = 0x80) (p : List UInt8) :
    items (c :: p) = items p := by
  obtain ⟨hle, hne⟩ := continuation_bounds h
  exact items_dropped (not_kept_of_le hle) p (replacement_eq_nil hne p)

/-! ## The loop -/

theorem forall_byte {P : UInt8 → Prop} (h : ∀ n : Fin 256, P (UInt8.ofNat n)) (c : UInt8) : P c := by
  have hc := h ⟨c.toNat, c.toNat_lt⟩
  rwa [UInt8.ofNat_toNat] at hc

/-- The code point of a sequence of three bytes has the replacement of the bytes. -/
theorem replacement_three {c b d : UInt8} (hc : c &&& 0xF0 = 0xE0) (hb : b &&& 0xC0 = 0x80)
    (hd : d &&& 0xC0 = 0x80) (p : List UInt8) : replacement (c :: b :: d :: p) =
      punctuation (c.toNat % 16 * 4096 + b.toNat % 64 * 64 + d.toNat % 64) := by
  have htake : replacement (c :: b :: d :: p) = replacement [c, b, d] := rfl
  rw [htake]
  have hcn := @forall_byte (fun c => c &&& 0xF0 = 0xE0 → (c.toNat % 16 = 2 ↔ c = 0xE2))
    (by decide +kernel) c hc
  have hbn := @forall_byte (fun b => b &&& 0xC0 = 0x80 → (b.toNat % 64 = 0 ↔ b = 0x80))
    (by decide +kernel) b hb
  by_cases hlead : c = 0xE2 ∧ b = 0x80
  · obtain ⟨rfl, rfl⟩ := hlead
    exact @forall_byte (fun d => d &&& 0xC0 = 0x80 → replacement [0xE2, 0x80, d] =
      punctuation ((0xE2 : UInt8).toNat % 16 * 4096 + (0x80 : UInt8).toNat % 64 * 64 + d.toNat % 64))
      (by decide +kernel) d hd
  · have hother : ¬ (c.toNat % 16 = 2 ∧ b.toNat % 64 = 0) := fun h => hlead ⟨hcn.mp h.1, hbn.mp h.2⟩
    have hnil : replacement [c, b, d] = [] := by
      rcases replacement_cases [c, b, d] with hnil | hmem
      · exact hnil
      · obtain ⟨-, -, d', hkey, -⟩ := mem_marks hmem
        cases hkey
        exact absurd ⟨rfl, rfl⟩ hlead
    have hd64 : d.toNat % 64 < 64 := Nat.mod_lt _ (by decide)
    have hb64 : b.toNat % 64 < 64 := Nat.mod_lt _ (by decide)
    rw [hnil, punctuation, if_neg (by omega), if_neg (by omega), if_neg (by omega), if_neg (by omega)]

/-- No sequence of two bytes has a replacement. -/
theorem punctuation_two (c b : UInt8) : punctuation (c.toNat % 32 * 64 + b.toNat % 64) = [] := by
  have hc := Nat.mod_lt c.toNat (show 0 < 32 by decide)
  have hb := Nat.mod_lt b.toNat (show 0 < 64 by decide)
  rw [punctuation, if_neg (by omega), if_neg (by omega), if_neg (by omega), if_neg (by omega)]

/-- The first of these items, as long as there is room. -/
def takeItems : Nat → List (List UInt8) → List UInt8
  | _, [] => []
  | room, i :: is => if room = 0 then [] else i ++ takeItems (room - i.length) is

theorem takeItems_zero (is : List (List UInt8)) : takeItems 0 is = [] := by
  cases is with
  | nil => rfl
  | cons i is => rw [takeItems, if_pos rfl]

/-- What one round of the loop has put behind `out`. -/
theorem takeItems_step {out o : List UInt8} {is : List (List UInt8)} (hroom : out.length < 76) :
    (out ++ o) ++ takeItems (76 - (out ++ o).length) is =
      out ++ takeItems (76 - out.length) ((if o = [] then [] else [o]) ++ is) := by
  by_cases h : o = []
  · rw [if_pos h, h, List.append_nil, List.nil_append]
  · have hne : ¬ 76 - out.length = 0 := by omega
    rw [if_neg h, List.singleton_append, takeItems, if_neg hne, List.length_append, ← Nat.sub_sub,
      List.append_assoc]

/-- The loop gives the items of the text until its buffer is full. -/
theorem sanitizeFrom_eq {n : Nat} {w out : List UInt8} (hn : w.length ≤ n) :
    sanitizeFrom n w out = out ++ takeItems (76 - out.length) (items w) := by
  induction n generalizing w out with
  | zero =>
    rw [List.length_eq_zero_iff.mp (Nat.le_zero.mp hn), items_nil, takeItems, List.append_nil]
    rfl
  | succ n ih =>
    cases w with
    | nil =>
      rw [items_nil, takeItems, List.append_nil]
      rfl
    | cons c p =>
      rw [List.length_cons] at hn
      rw [sanitizeFrom]
      by_cases hfull : 76 ≤ out.length
      · rw [if_pos hfull, Nat.sub_eq_zero_of_le hfull, takeItems_zero, List.append_nil]
      rw [if_neg hfull]
      have hroom : out.length < 76 := Nat.not_le.mp hfull
      by_cases hkept : c = 10 ∨ c = 9 ∨ (32 ≤ c ∧ c < 127)
      · have hout : output (c :: p) = [c] := if_pos hkept
        rw [if_pos hkept, ih (by omega), takeItems_step hroom, items_cons, hout]
      rw [if_neg hkept]
      have hreplace : output (c :: p) = replacement (c :: p) := if_neg hkept
      by_cases htwo : c &&& 0xE0 = 0xC0 ∧ p.headD 0 &&& 0xC0 = 0x80
      · rw [if_pos htwo, punctuation_two, List.append_nil]
        cases p with
        | nil => exact absurd htwo.2 (by decide)
        | cons b p =>
          have hlead : c ≠ 0xE2 := by
            rintro rfl
            exact absurd htwo.1 (by decide)
          rw [List.length_cons] at hn
          have hb : b &&& 0xC0 = 0x80 := htwo.2
          rw [items_dropped hkept _ (replacement_eq_nil hlead _), items_continuation hb]
          exact ih (show p.length ≤ n by omega)
      rw [if_neg htwo]
      by_cases hthree : c &&& 0xF0 = 0xE0 ∧ p.headD 0 &&& 0xC0 = 0x80 ∧ p.getD 1 0 &&& 0xC0 = 0x80
      · rw [if_pos hthree]
        match p, hthree, hn, hreplace with
        | [], hthree, _, _ => exact absurd hthree.2.1 (by decide)
        | [b], hthree, _, _ =>
          have hd : (0 : UInt8) &&& 0xC0 = 0x80 := hthree.2.2
          exact absurd hd (by decide)
        | b :: d :: p, hthree, hn, hreplace =>
          simp only [List.length_cons] at hn
          obtain ⟨hc, hb, hd⟩ : c &&& 0xF0 = 0xE0 ∧ b &&& 0xC0 = 0x80 ∧ d &&& 0xC0 = 0x80 := hthree
          rw [items_cons, hreplace, replacement_three hc hb hd, items_continuation hb,
            items_continuation hd, ← takeItems_step hroom]
          exact ih (show p.length ≤ n by omega)
      · rw [if_neg hthree]
        have hmark : replacement (c :: p) = [] := by
          rcases replacement_cases (c :: p) with hnil | hmem
          · exact hnil
          · obtain ⟨-, -, d, hkey, hd⟩ := mem_marks hmem
            match p, hkey, hthree with
            | [], hkey, _ => cases hkey
            | [b], hkey, _ => cases hkey
            | b :: d' :: p, hkey, hthree =>
              cases hkey
              exact absurd ⟨by decide, show (0x80 : UInt8) &&& 0xC0 = 0x80 by decide, hd⟩ hthree
        rw [items_dropped hkept p hmark]
        exact ih (by omega)

/-- What a piece emits. -/
def emitted (piece : List UInt8) : List UInt8 := (emitSanitized piece).getD []

theorem emitted_eq (piece : List UInt8) : emitted piece = takeItems 76 (items piece) := by
  have heq := @sanitizeFrom_eq piece.length piece [] (Nat.le_refl _)
  rw [List.nil_append] at heq
  unfold emitted emitSanitized
  simp only [heq, List.length_nil, Nat.sub_zero]
  split
  · next h => exact h.symm
  · rfl

end ChocoOs.Llm
