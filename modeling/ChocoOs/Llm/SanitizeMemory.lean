import ChocoOs.Lib.Cells
import ChocoOs.Llm.Chunks

/-!
# The sanitizer in memory

`emit_sanitized` as a program over the bytes of the piece and its buffer `out[80]`. It reads no byte
behind the NUL of the piece, and `emit` finds a NUL in the buffer.
-/

namespace ChocoOs.Llm
open ProgLib

/-- A byte of the piece, or of the buffer. -/
inductive PieceCell where
  | piece (i : Nat)
  | out (i : Nat)
  deriving DecidableEq

/-- What may be accessed: a piece of `len` bytes with its NUL, and `out[80]`. -/
def inPiece (len : Nat) : PieceCell → Bool
  | .piece i => decide (i ≤ len)
  | .out i => decide (i < 80)

/-- The bytes that replace a mark are written at `out + o`; the end of them. -/
def putBytes : Nat → List UInt8 → Cmd PieceCell UInt8 Nat
  | o, [] => .done o
  | o, b :: bs => .write (.out o) b (putBytes (o + 1) bs)

/-- The code point of two bytes at `p`, if the second one continues the first (`llm_common.c:226-230`). -/
def twoBytes (p : Nat) (c : UInt8) : Cmd PieceCell UInt8 (Option Nat) :=
  if c &&& 0xE0 = 0xC0 then
    (Cmd.get (.piece (p + 1))).bind fun b =>
      .done (if b &&& 0xC0 = 0x80 then some (c.toNat % 32 * 64 + b.toNat % 64) else none)
  else .done none

/-- The code point of three bytes (`llm_common.c:231-236`). -/
def threeBytes (p : Nat) (c : UInt8) : Cmd PieceCell UInt8 (Option Nat) :=
  if c &&& 0xF0 = 0xE0 then
    (Cmd.get (.piece (p + 1))).bind fun b =>
      if b &&& 0xC0 = 0x80 then
        (Cmd.get (.piece (p + 2))).bind fun d =>
          .done (if d &&& 0xC0 = 0x80 then
            some (c.toNat % 16 * 4096 + b.toNat % 64 * 64 + d.toNat % 64) else none)
      else .done none
  else .done none

/-- The loop (`llm_common.c:215-265`), from `p` on with `o` bytes written. It ends with their number. -/
def sanitizeLoop : Nat → Nat → Nat → Cmd PieceCell UInt8 Nat
  | 0, _, _ => .stuck
  | rounds + 1, p, o =>
    .read (.piece p) fun c =>
      if c = 0 ∨ 76 ≤ o then .done o
      else if c = 10 ∨ c = 9 ∨ (32 ≤ c ∧ c < 127) then
        .write (.out o) c (sanitizeLoop rounds (p + 1) (o + 1))
      else (twoBytes p c).bind fun two =>
        match two with
        | some cp => (putBytes o (punctuation cp)).bind (sanitizeLoop rounds (p + 2))
        | none => (threeBytes p c).bind fun three =>
          match three with
          | some cp => (putBytes o (punctuation cp)).bind (sanitizeLoop rounds (p + 3))
          | none => sanitizeLoop rounds (p + 1) o

/-- What `emit` reads at `out + i`, up to a NUL. -/
def readOut : Nat → Nat → Cmd PieceCell UInt8 (List UInt8)
  | 0, _ => .stuck
  | fuel + 1, i =>
    .read (.out i) fun c => if c = 0 then .done [] else (readOut fuel (i + 1)).bind fun s => .done (c :: s)

/-- `emit_sanitized` (`llm_common.c:209-272`): what is passed to `emit`, if it is called. -/
def emitSanitizedIn (rounds : Nat) : Cmd PieceCell UInt8 (Option (List UInt8)) :=
  (sanitizeLoop rounds 0 0).bind fun o =>
    if 0 < o then
      (Cmd.set (.out o) 0).bind fun _ => (readOut 80 0).bind fun s => .done (some s)
    else .done none

/-! ## Runs -/

/-- The piece is in memory with its NUL. -/
def HasPiece (s : List UInt8) (m : PieceCell → Option UInt8) : Prop :=
  ∀ i ≤ s.length, m (.piece i) = some (s.getD i 0)

/-- These bytes are at `out`. -/
def HasOut (out : List UInt8) (m : PieceCell → Option UInt8) : Prop :=
  ∀ i c, out[i]? = some c → m (.out i) = some c

section run

variable {s out : List UInt8} {m : PieceCell → Option UInt8}

theorem HasPiece.store (h : HasPiece s m) (o : Nat) (c : UInt8) :
    HasPiece s (Cmd.store m (.out o) c) := by
  intro i hi
  rw [Cmd.store, if_neg (fun heq => by cases heq)]
  exact h i hi

/-- A byte is written behind the others. -/
theorem HasOut.store (h : HasOut out m) (c : UInt8) :
    HasOut (out ++ [c]) (Cmd.store m (.out out.length) c) := by
  intro i c' hi
  rw [Cmd.store]
  by_cases heq : i = out.length
  · rw [if_pos (by rw [heq])]
    rw [heq, List.getElem?_concat_length] at hi
    exact hi
  · rw [if_neg fun he => heq (PieceCell.out.inj he)]
    have hlt : i < (out ++ [c]).length := (List.getElem?_eq_some_iff.mp hi).1
    rw [List.length_append, List.length_singleton] at hlt
    rw [List.getElem?_append_left (by omega)] at hi
    exact h i c' hi

theorem putBytes_run (hpiece : HasPiece s m) (hout : HasOut out m) (bs : List UInt8)
    (hroom : out.length + bs.length ≤ 80) :
    ∃ m', (putBytes out.length bs).run (inPiece s.length) m = .done (out ++ bs).length m' ∧
      HasPiece s m' ∧ HasOut (out ++ bs) m' := by
  induction bs generalizing out m with
  | nil =>
    rw [List.append_nil]
    exact ⟨m, rfl, hpiece, hout⟩
  | cons b bs ih =>
    rw [List.length_cons] at hroom
    have hin : inPiece s.length (.out out.length) = true := decide_eq_true (by omega)
    have hlen : (out ++ [b]).length = out.length + 1 := List.length_append
    obtain ⟨m', hrun, hpiece', hout'⟩ := ih (hpiece.store out.length b) (hout.store b) (by omega)
    rw [hlen, List.append_assoc] at hrun
    rw [List.append_assoc] at hout'
    refine ⟨m', ?_, hpiece', hout'⟩
    rw [putBytes, Cmd.run, if_pos hin]
    exact hrun

/-- A byte of the piece is read. -/
theorem piece_run {α : Type} (hpiece : HasPiece s m) {i : Nat} (hi : i ≤ s.length)
    (k : UInt8 → Cmd PieceCell UInt8 α) :
    (Cmd.read (.piece i) k).run (inPiece s.length) m = (k (s.getD i 0)).run (inPiece s.length) m := by
  have hin : inPiece s.length (.piece i) = true := decide_eq_true hi
  rw [Cmd.run, if_pos hin, hpiece i hi]

/-- Not the NUL at the end of the piece. -/
theorem lt_of_continuation {i : Nat} (hi : i ≤ s.length) (h : s.getD i 0 &&& 0xC0 = 0x80) :
    i < s.length := by
  apply Nat.lt_of_le_of_ne hi
  intro heq
  rw [heq, List.getD_eq_getElem?_getD, List.getElem?_eq_none (Nat.le_refl _)] at h
  exact absurd h (by decide)

theorem twoBytes_run (hpiece : HasPiece s m) {p : Nat} (hp : p < s.length) (c : UInt8) :
    (twoBytes p c).run (inPiece s.length) m =
      .done (if c &&& 0xE0 = 0xC0 ∧ s.getD (p + 1) 0 &&& 0xC0 = 0x80 then
        some (c.toNat % 32 * 64 + (s.getD (p + 1) 0).toNat % 64) else none) m := by
  unfold twoBytes
  by_cases hc : c &&& 0xE0 = 0xC0
  · rw [if_pos hc, Cmd.get, Cmd.bind, piece_run hpiece hp]
    simp only [Cmd.bind, Cmd.run, hc, true_and]
  · rw [if_neg hc, if_neg fun h => hc h.1]
    rfl

/-- The third byte is only read if the second one is not the NUL. -/
theorem threeBytes_run (hpiece : HasPiece s m) {p : Nat} (hp : p < s.length) (c : UInt8) :
    (threeBytes p c).run (inPiece s.length) m =
      .done (if c &&& 0xF0 = 0xE0 ∧ s.getD (p + 1) 0 &&& 0xC0 = 0x80 ∧
          s.getD (p + 2) 0 &&& 0xC0 = 0x80 then
        some (c.toNat % 16 * 4096 + (s.getD (p + 1) 0).toNat % 64 * 64 +
          (s.getD (p + 2) 0).toNat % 64) else none) m := by
  unfold threeBytes
  by_cases hc : c &&& 0xF0 = 0xE0
  · rw [if_pos hc, Cmd.get, Cmd.bind, piece_run hpiece hp]
    simp only [Cmd.bind]
    by_cases hb : s.getD (p + 1) 0 &&& 0xC0 = 0x80
    · have hnext := lt_of_continuation hp hb
      rw [if_pos hb, Cmd.get, Cmd.bind, piece_run hpiece (by omega)]
      simp only [Cmd.bind, Cmd.run, hc, hb, true_and]
    · rw [if_neg hb, if_neg fun h => hb h.2.1]
      rfl
  · rw [if_neg hc, if_neg fun h => hc h.1]
    rfl

theorem punctuation_length_le (cp : Nat) : (punctuation cp).length ≤ 3 := by
  unfold punctuation
  repeat' split
  all_goals decide

/-- The loop in memory does what the loop on lists does. -/
theorem sanitizeLoop_run (h0 : 0 ∉ s) {rounds n p : Nat} (hpiece : HasPiece s m) (hout : HasOut out m)
    (hp : p ≤ s.length) (hrounds : s.length - p < rounds) (hn : s.length - p ≤ n)
    (hlen : out.length ≤ 78) :
    ∃ m', (sanitizeLoop rounds p out.length).run (inPiece s.length) m =
        .done (sanitizeFrom n (s.drop p) out).length m' ∧
      HasOut (sanitizeFrom n (s.drop p) out) m' ∧ (sanitizeFrom n (s.drop p) out).length ≤ 78 := by
  induction rounds generalizing n p out m with
  | zero => cases hrounds
  | succ rounds ih =>
    rw [sanitizeLoop, piece_run hpiece hp]
    by_cases hend : p = s.length
    · have hnul : s.getD p 0 = 0 := by
        rw [hend, List.getD_eq_getElem?_getD, List.getElem?_eq_none (Nat.le_refl _)]
        rfl
      have hnil : sanitizeFrom n (s.drop p) out = out := by
        rw [hend, List.drop_length]
        cases n <;> rfl
      rw [hnul, if_pos (.inl rfl), hnil]
      exact ⟨m, rfl, hout, hlen⟩
    have hlt : p < s.length := Nat.lt_of_le_of_ne hp hend
    obtain ⟨n, rfl⟩ : ∃ n', n = n' + 1 := ⟨n - 1, by omega⟩
    have hget : s.getD p 0 = s[p] := by
      rw [List.getD_eq_getElem?_getD, List.getElem?_eq_getElem hlt]
      rfl
    have hne : s[p] ≠ 0 := fun heq => h0 (heq ▸ List.getElem_mem hlt)
    have hhead : (s.drop (p + 1)).headD 0 = s.getD (p + 1) 0 := by
      rw [List.headD_eq_head?_getD, List.head?_drop, List.getD_eq_getElem?_getD]
    have hsecond : (s.drop (p + 1)).getD 1 0 = s.getD (p + 2) 0 := by
      rw [List.getD_eq_getElem?_getD, List.getElem?_drop, List.getD_eq_getElem?_getD]
    rw [hget, List.drop_eq_getElem_cons hlt, sanitizeFrom, hhead, hsecond, List.drop_drop,
      List.drop_drop]
    generalize s[p] = c at hne
    by_cases hfull : 76 ≤ out.length
    · rw [if_pos (.inr hfull), if_pos hfull]
      exact ⟨m, rfl, hout, hlen⟩
    rw [if_neg fun h => h.elim hne hfull, if_neg hfull]
    by_cases hkept : c = 10 ∨ c = 9 ∨ (32 ≤ c ∧ c < 127)
    · have hin : inPiece s.length (.out out.length) = true := decide_eq_true (by omega)
      have hnext : (out ++ [c]).length = out.length + 1 := List.length_append
      rw [if_pos hkept, if_pos hkept, Cmd.run, if_pos hin, ← hnext]
      apply ih (hpiece.store out.length c) (hout.store c) <;> omega
    rw [if_neg hkept, if_neg hkept, Cmd.run_bind, twoBytes_run hpiece hlt]
    by_cases htwo : c &&& 0xE0 = 0xC0 ∧ s.getD (p + 1) 0 &&& 0xC0 = 0x80
    · have hnext := lt_of_continuation hlt htwo.2
      have hshort := punctuation_length_le (c.toNat % 32 * 64 + (s.getD (p + 1) 0).toNat % 64)
      rw [if_pos htwo, if_pos htwo]
      simp only
      obtain ⟨m', hrun, hpiece', hout'⟩ := putBytes_run hpiece hout
        (punctuation (c.toNat % 32 * 64 + (s.getD (p + 1) 0).toNat % 64)) (by omega)
      rw [Cmd.run_bind, hrun]
      apply ih hpiece' hout' (by omega) (by omega) (by omega)
      rw [List.length_append]
      omega
    rw [if_neg htwo, if_neg htwo]
    simp only
    rw [Cmd.run_bind, threeBytes_run hpiece hlt]
    by_cases hthree : c &&& 0xF0 = 0xE0 ∧ s.getD (p + 1) 0 &&& 0xC0 = 0x80 ∧
        s.getD (p + 2) 0 &&& 0xC0 = 0x80
    · have hnext := lt_of_continuation hlt hthree.2.1
      have hnext' := lt_of_continuation hnext hthree.2.2
      have hshort := punctuation_length_le (c.toNat % 16 * 4096 +
        (s.getD (p + 1) 0).toNat % 64 * 64 + (s.getD (p + 2) 0).toNat % 64)
      rw [if_pos hthree, if_pos hthree]
      simp only
      obtain ⟨m', hrun, hpiece', hout'⟩ := putBytes_run hpiece hout
        (punctuation (c.toNat % 16 * 4096 + (s.getD (p + 1) 0).toNat % 64 * 64 +
          (s.getD (p + 2) 0).toNat % 64)) (by omega)
      rw [Cmd.run_bind, hrun]
      apply ih hpiece' hout' (by omega) (by omega) (by omega)
      rw [List.length_append]
      omega
    · rw [if_neg hthree, if_neg hthree]
      apply ih hpiece hout <;> omega

/-- `emit` reads what was written before the NUL. -/
theorem readOut_run (h0 : 0 ∉ out) (hlen : out.length < 80) (hout : HasOut (out ++ [0]) m)
    {fuel i : Nat} (hi : i ≤ out.length) (hfuel : out.length - i < fuel) :
    (readOut fuel i).run (inPiece s.length) m = .done (out.drop i) m := by
  induction fuel generalizing i with
  | zero => cases hfuel
  | succ fuel ih =>
    have hin : inPiece s.length (.out i) = true := decide_eq_true (by omega)
    rw [readOut, Cmd.run, if_pos hin]
    by_cases hend : i = out.length
    · have hnul : m (.out i) = some 0 := by
        apply hout
        rw [hend, List.getElem?_concat_length]
      rw [hnul, hend, List.drop_length]
      rfl
    · have hlt : i < out.length := Nat.lt_of_le_of_ne hi hend
      have hc : m (.out i) = some out[i] := by
        apply hout
        rw [List.getElem?_append_left hlt, List.getElem?_eq_getElem hlt]
      have hne : out[i] ≠ 0 := fun heq => h0 (heq ▸ List.getElem_mem hlt)
      rw [hc]
      simp only
      rw [if_neg hne, Cmd.run_bind, ih hlt (by omega), List.drop_eq_getElem_cons hlt]
      rfl

end run

/-! ## What is passed to `emit` -/

theorem kept_of_mem_output {w : List UInt8} {c : UInt8} (h : c ∈ output w) : Kept c := by
  cases w with
  | nil => cases h
  | cons b p =>
    rw [output] at h
    split at h
    · next hb =>
      rw [List.mem_singleton.mp h]
      exact hb
    · rcases replacement_cases (b :: p) with hnil | hmem
      · rw [hnil] at h
        cases h
      · exact (mem_marks hmem).2.1 c h

theorem kept_of_mem_reference {w : List UInt8} {c : UInt8} (h : c ∈ reference w) : Kept c := by
  induction w with
  | nil => cases h
  | cons b p ih =>
    rw [reference_cons] at h
    exact (List.mem_append.mp h).elim kept_of_mem_output ih

/-- A piece with at most 76 characters of output is emitted as a whole. -/
theorem fits_of_length_le {w : List UInt8} (h : (reference w).length ≤ 76) : Fits w := by
  unfold Fits
  unfold reference at h
  have hne := items_ne_nil w
  generalize items w = is at h hne
  rcases List.eq_nil_or_concat is with rfl | ⟨is, i, rfl⟩
  · decide
  · have hi := List.length_pos_of_ne_nil (hne i (by simp))
    rw [List.concat_eq_append, List.flatten_append, List.flatten_singleton, List.length_append] at h
    rw [List.concat_eq_append, List.dropLast_concat]
    omega

theorem emitSanitized_eq (w : List UInt8) :
    emitSanitized w = if emitted w = [] then none else some (emitted w) := by
  unfold emitted
  cases h : emitSanitized w with
  | none => rfl
  | some out =>
    have hne : out ≠ [] := by
      intro hnil
      unfold emitSanitized at h
      extract_lets out' at h
      split at h
      · cases h
      · next hout => exact hout ((Option.some.inj h).trans hnil)
    rw [Option.getD_some, if_neg hne]

/-- `emit_sanitized` keeps to the piece and to its buffer, and calls `emit` at most once, with a string
    for the terminal. If there are at most 76 characters, it is the sanitized piece. -/
theorem emitSanitized_safe (s : CString) {rounds : Nat} (hrounds : s.1.length < rounds)
    {m : PieceCell → Option UInt8} (hpiece : HasPiece s.1 m) :
    ∃ m', (emitSanitizedIn rounds).run (inPiece s.1.length) m = .done (emitSanitized s.1) m' ∧
      (∀ out, emitSanitized s.1 = some out →
        out ≠ [] ∧ (∀ c ∈ out, c = 10 ∨ c = 9 ∨ (32 ≤ c ∧ c < 127)) ∧ HasOut (out ++ [0]) m') ∧
      ((reference s.1).length ≤ 76 → emitSanitized s.1 =
        if reference s.1 = [] then none else some (reference s.1)) := by
  have hnil : HasOut [] m := fun i c h => by cases h
  obtain ⟨m₁, hloop, hout, hlen⟩ := @sanitizeLoop_run s.1 [] m s.2 rounds s.1.length 0 hpiece hnil
    (Nat.zero_le _) hrounds (Nat.le_refl _) (Nat.zero_le _)
  have hemitted : sanitizeFrom s.1.length (s.1.drop 0) [] = emitted s.1 := by
    rw [List.drop_zero, sanitizeFrom_eq (Nat.le_refl _), emitted_eq]
    rfl
  rw [hemitted] at hloop hout hlen
  have hkept : ∀ c ∈ emitted s.1, Kept c := fun c hc =>
    kept_of_mem_reference ((emitted_prefix_reference s.1).subset hc)
  have hnul : 0 ∉ emitted s.1 := fun hmem => absurd (hkept 0 hmem) (by decide)
  have hshort : (reference s.1).length ≤ 76 → emitSanitized s.1 =
      if reference s.1 = [] then none else some (reference s.1) := by
    intro h
    rw [emitSanitized_eq, (emitted_eq_iff s.1).mpr (fits_of_length_le h)]
  have hzero : (sanitizeLoop rounds 0 0).run (inPiece s.1.length) m =
      .done (emitted s.1).length m₁ := hloop
  rw [emitSanitizedIn, Cmd.run_bind, hzero]
  simp only
  rw [emitSanitized_eq] at hshort ⊢
  by_cases hempty : emitted s.1 = []
  · rw [if_pos hempty] at hshort ⊢
    rw [hempty]
    exact ⟨m₁, rfl, nofun, hshort⟩
  · rw [if_neg hempty] at hshort ⊢
    have hpos := List.length_pos_of_ne_nil hempty
    have hin : inPiece s.1.length (.out (emitted s.1).length) = true := decide_eq_true (by omega)
    have hterminated := hout.store 0
    rw [if_pos hpos, Cmd.run_bind, Cmd.set, Cmd.run, if_pos hin]
    simp only [Cmd.run]
    rw [Cmd.run_bind, readOut_run hnul (by omega) hterminated (Nat.zero_le _) (by omega)]
    refine ⟨_, rfl, fun out h => ?_, hshort⟩
    cases h
    exact ⟨hempty, hkept, hterminated⟩

/-- An ellipsis, and a quote that is cut. -/
def cutPiece : CString := ⟨[0xE2, 0x80, 0xA6, 97, 0xE2, 0x80], by decide⟩

theorem emitSanitized_safe_boot :
    ∃ m', (emitSanitizedIn 7).run (inPiece 6) (fun
        | .piece i => some (cutPiece.1.getD i 0)
        | .out _ => none) = .done (some [46, 46, 46, 97]) m' ∧
      HasOut [46, 46, 46, 97, 0] m' := by
  obtain ⟨m', hrun, hstring, -⟩ := @emitSanitized_safe cutPiece 7 (by decide) (fun
    | .piece i => some (cutPiece.1.getD i 0)
    | .out _ => none) fun i _ => rfl
  have hout : emitSanitized cutPiece.1 = some [46, 46, 46, 97] := by decide
  rw [hout] at hrun
  exact ⟨m', hrun, (hstring _ hout).2.2⟩

end ChocoOs.Llm
