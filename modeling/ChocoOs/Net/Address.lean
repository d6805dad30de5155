import ChocoOs.Kprintf.Number
import ChocoOs.Net.Resolve

/-!
# Addresses in dotted form

`str_to_ip` takes four numerals of a byte with points between them, and nothing else; what
`ip_to_str` prints is read back.
-/

namespace ChocoOs.Net
open ProgLib ChocoOs.Kprintf

/-- `%d.%d.%d.%d` -/
def quadFormat : List UInt8 := [37, 100, 46, 37, 100, 46, 37, 100, 46, 37, 100]

/-- `ip_to_str` (`net.c:683-687`): what it leaves in `buf`, and the length of the text. -/
def ipToStr (ip : Nat) (buf : List UInt8) : Option (List UInt8 × Nat) :=
  snprintf buf 16 quadFormat ((leBytes 4 ip).map fun b => .word (UInt64.ofNat b.toNat))

/-- A run of digits whose value fits in a byte. -/
def IsPart (d : List UInt8) : Prop := d ≠ [] ∧ (∀ c ∈ d, isDigit c = true) ∧ decimal d ≤ 255

/-- Four such runs with single points between them. -/
def DottedQuad (s : List UInt8) (parts : List (List UInt8)) : Prop :=
  parts.length = 4 ∧ (∀ d ∈ parts, IsPart d) ∧ s = [46].intercalate parts

/-- The bytes of an address, in the order of the parts. -/
def partBytes (parts : List (List UInt8)) : List UInt8 := parts.map fun d => UInt8.ofNat (decimal d)

/-- The values that `v` takes in the loop over the digits of a part (`net.c:698-704`). -/
def partValues : Nat → List UInt8 → List Nat
  | _, [] => []
  | v, c :: s =>
    if isDigit c then
      let v := v * 10 + (c.toNat - 48)
      v :: if 255 < v then [] else partValues v s
    else []

/-! ## Parsing -/

/-- The value never gets far beyond a byte, however long the run of digits is. -/
theorem partValues_le (s : List UInt8) : ∀ v ≤ 255, ∀ x ∈ partValues v s, x ≤ 2559 := by
  induction s with
  | nil => exact fun _ _ _ h => absurd h List.not_mem_nil
  | cons c s ih =>
    intro v hv x hx
    rw [partValues] at hx
    split at hx
    · next hc =>
      have h57 : c.toNat ≤ 57 := UInt8.le_iff_toNat_le.mp (of_decide_eq_true hc).2
      rcases List.mem_cons.mp hx with rfl | hx
      · omega
      · split at hx
        · exact absurd hx List.not_mem_nil
        · exact ih _ (by omega) x hx
    · exact absurd hx List.not_mem_nil

/-- The value of a part that is read is the last of them. -/
theorem readNumber_last (s : List UInt8) : ∀ {v w : Nat} {rest : List UInt8},
    readNumber v s = some (w, rest) → w = (partValues v s).getLastD v := by
  induction s with
  | nil =>
    intro v w rest h
    cases h
    rfl
  | cons c s ih =>
    intro v w rest h
    rw [readNumber] at h
    rw [partValues]
    by_cases hc : 48 ≤ c ∧ c ≤ 57
    · have hdigit : isDigit c = true := decide_eq_true hc
      rw [if_pos hc] at h
      rw [if_pos hdigit]
      by_cases hbig : 255 < v * 10 + (c.toNat - 48)
      · simp only [if_pos hbig] at h
        cases h
      · simp only [if_neg hbig] at h ⊢
        rw [ih h, List.getLastD_cons]
    · have hdigit : ¬ isDigit c = true := fun h => hc (of_decide_eq_true h)
      rw [if_neg hc] at h
      rw [if_neg hdigit]
      cases h
      rfl

/-- A part is read up to the first character that is no digit. -/
theorem readNumber_eq (s : List UInt8) : ∀ v ≤ 255, readNumber v s =
    if decimalFrom v (s.takeWhile isDigit) ≤ 255 then
      some (decimalFrom v (s.takeWhile isDigit),
        s.dropWhile isDigit)
    else none := by
  induction s with
  | nil =>
    intro v hv
    exact (if_pos hv).symm
  | cons c s ih =>
    intro v hv
    by_cases hc : isDigit c = true
    · rw [List.takeWhile_cons_of_pos hc, List.dropWhile_cons_of_pos hc, decimalFrom_cons, readNumber,
        if_pos (of_decide_eq_true hc)]
      by_cases hbig : 255 < v * 10 + (c.toNat - 48)
      · have hle := le_decimalFrom (s.takeWhile isDigit) (v * 10 + (c.toNat - 48))
        have hno : ¬ decimalFrom (v * 10 + (c.toNat - 48)) (s.takeWhile isDigit) ≤ 255 :=
          fun h => absurd (Nat.lt_of_lt_of_le hbig (Nat.le_trans hle h)) (Nat.lt_irrefl _)
        exact (if_pos hbig).trans (if_neg hno).symm
      · rw [← ih _ (Nat.le_of_not_lt hbig)]
        exact if_neg hbig
    · rw [List.takeWhile_cons_of_neg hc, List.dropWhile_cons_of_neg hc, readNumber,
        if_neg fun h => hc (decide_eq_true h)]
      exact (if_pos hv).symm

/-- A part in front of something else. -/
theorem readNumber_part {d rest : List UInt8} (hd : IsPart d) (hrest : ∀ c ∈ rest.head?, ¬ isDigit c = true) :
    readNumber 0 (d ++ rest) = some (decimal d, rest) := by
  obtain ⟨-, hdigits, hmax⟩ := hd
  have htake := takeWhile_digits hdigits hrest
  have hdrop : (d ++ rest).dropWhile isDigit = rest := by
    have h := List.takeWhile_append_dropWhile (p := isDigit) (l := d ++ rest)
    rw [htake] at h
    exact List.append_cancel_left h
  rw [readNumber_eq _ 0 (Nat.zero_le _), htake, hdrop]
  exact if_pos hmax

/-- What a part that has been read looks like. -/
theorem readNumber_some {s rest : List UInt8} {c : UInt8} {v : Nat} (hc : s.head? = some c)
    (hdigit : isDigit c = true) (h : readNumber 0 s = some (v, rest)) :
    ∃ d, IsPart d ∧ s = d ++ rest ∧ v = decimal d ∧ ∀ c ∈ rest.head?, ¬ isDigit c = true := by
  rw [readNumber_eq _ 0 (Nat.zero_le _)] at h
  split at h
  · next hmax =>
    cases h
    refine ⟨_, ⟨?_, fun c hc => ?_, hmax⟩, List.takeWhile_append_dropWhile.symm, rfl, ?_⟩
    · obtain ⟨s, rfl⟩ := List.head?_eq_some_iff.mp hc
      rw [List.takeWhile_cons_of_pos hdigit]
      exact List.cons_ne_nil _ _
    · exact List.mem_takeWhile_imp hc
    · intro c' hc'
      have hnot := List.head?_dropWhile_not isDigit s
      rw [Option.mem_def.mp hc'] at hnot
      simpa using hnot
  · cases h

/-- Reading what begins with a part. -/
theorem readParts_part {d rest : List UInt8} (hd : IsPart d) (hrest : ∀ c ∈ rest.head?, ¬ isDigit c = true)
    (n : Nat) : readParts (n + 1) (d ++ rest) =
      if n = 0 then some ([UInt8.ofNat (decimal d)], rest)
      else if rest.head? = some 46 then
        (readParts n rest.tail).map fun (bytes, rest) => (UInt8.ofNat (decimal d) :: bytes, rest)
      else none := by
  obtain ⟨c, d', hcons⟩ := List.exists_cons_of_ne_nil hd.1
  have hc := of_decide_eq_true (hd.2.1 c (by rw [hcons]; exact List.mem_cons_self ..))
  have hhead : (d ++ rest).head? = some c := by
    rw [hcons]
    rfl
  have hdigit : ¬ (c < 48 ∨ 57 < c) := by
    rintro (h | h)
    · exact UInt8.not_lt.mpr hc.1 h
    · exact UInt8.not_lt.mpr hc.2 h
  rw [readParts, hhead, Option.bind_eq_bind, Option.bind_some, if_neg hdigit, readNumber_part hd hrest]
  simp only [Option.bind_eq_bind, Option.bind_some, Option.pure_def]
  cases readParts n rest.tail <;> rfl

/-- What is read begins with a part. -/
theorem readParts_some {n : Nat} {s : List UInt8} {r : List UInt8 × List UInt8}
    (h : readParts (n + 1) s = some r) :
    ∃ d rest, IsPart d ∧ s = d ++ rest ∧ ∀ c ∈ rest.head?, ¬ isDigit c = true := by
  obtain ⟨c, hc, h⟩ := Option.bind_eq_some_iff.mp h
  split at h
  · cases h
  · next hdigit =>
    obtain ⟨⟨v, rest⟩, hread, -⟩ := Option.bind_eq_some_iff.mp h
    have hd : isDigit c = true := decide_eq_true
      ⟨UInt8.not_lt.mp fun h => hdigit (.inl h), UInt8.not_lt.mp fun h => hdigit (.inr h)⟩
    obtain ⟨d, hpart, hs, -, hrest⟩ := readNumber_some hc hd hread
    exact ⟨d, rest, hpart, hs, hrest⟩

/-- The parts that are read, and what is left. -/
theorem readParts_iff (n : Nat) : ∀ {s rest bytes : List UInt8},
    readParts (n + 1) s = some (bytes, rest) ↔ ∃ parts : List (List UInt8), parts.length = n + 1 ∧
      (∀ d ∈ parts, IsPart d) ∧ s = [46].intercalate parts ++ rest ∧ bytes = partBytes parts ∧
      ∀ c ∈ rest.head?, ¬ isDigit c = true := by
  induction n with
  | zero =>
    intro s rest bytes
    constructor
    · intro h
      obtain ⟨d, rest', hd, rfl, hrest⟩ := readParts_some h
      rw [readParts_part hd hrest, if_pos rfl] at h
      cases h
      exact ⟨[d], rfl, List.forall_mem_singleton.mpr hd, by rw [List.intercalate_singleton], rfl, hrest⟩
    · rintro ⟨parts, hlen, hparts, rfl, rfl, hrest⟩
      obtain ⟨d, rfl⟩ := List.length_eq_one_iff.mp hlen
      rw [List.intercalate_singleton, readParts_part (hparts d (List.mem_singleton_self d)) hrest,
        if_pos rfl]
      rfl
  | succ n ih =>
    intro s rest bytes
    constructor
    · intro h
      obtain ⟨d, rest', hd, rfl, hrest⟩ := readParts_some h
      rw [readParts_part hd hrest, if_neg (Nat.succ_ne_zero n)] at h
      split at h
      · next hpoint =>
        obtain ⟨after, rfl⟩ := List.head?_eq_some_iff.mp hpoint
        obtain ⟨⟨bytes', rest''⟩, hread, heq⟩ := Option.map_eq_some_iff.mp h
        cases heq
        obtain ⟨parts, hlen, hparts, hs, rfl, hlast⟩ := ih.mp hread
        have hne : parts ≠ [] := by
          rintro rfl
          cases hlen
        refine ⟨d :: parts, by rw [List.length_cons, hlen], List.forall_mem_cons.mpr ⟨hd, hparts⟩, ?_,
          rfl, hlast⟩
        rw [List.tail_cons] at hs
        rw [List.intercalate_cons_of_ne_nil hne, hs]
        simp only [List.append_assoc, List.cons_append, List.nil_append]
      · cases h
    · rintro ⟨parts, hlen, hparts, rfl, rfl, hrest⟩
      obtain ⟨d, parts, rfl⟩ : ∃ d parts', parts = d :: parts' := by
        cases parts with
        | nil => cases hlen
        | cons d parts => exact ⟨d, parts, rfl⟩
      have hlen : parts.length = n + 1 := Nat.succ.inj hlen
      have hne : parts ≠ [] := by
        rintro rfl
        cases hlen
      obtain ⟨hd, hparts⟩ := List.forall_mem_cons.mp hparts
      have hs : [46].intercalate (d :: parts) ++ rest = d ++ 46 :: ([46].intercalate parts ++ rest) := by
        rw [List.intercalate_cons_of_ne_nil hne]
        simp only [List.append_assoc, List.cons_append, List.nil_append]
      have hpoint : ∀ c ∈ (46 :: ([46].intercalate parts ++ rest)).head?, ¬ isDigit c = true := by
        intro c hc
        cases hc
        decide
      rw [hs, readParts_part hd hpoint, if_neg (Nat.succ_ne_zero n), List.head?_cons, if_pos rfl,
        List.tail_cons, ih.mpr ⟨parts, hlen, hparts, rfl, rfl, hrest⟩]
      rfl

/-- `str_to_ip` accepts the strings of four parts. -/
theorem strToIp_iff (s : List UInt8) (a : Nat) :
    strToIp s = some a ↔ ∃ parts, DottedQuad s parts ∧ a = leNat (partBytes parts) := by
  constructor
  · intro h
    obtain ⟨⟨bytes, rest⟩, hread, h⟩ := Option.bind_eq_some_iff.mp h
    obtain ⟨parts, hlen, hparts, hs, rfl, -⟩ := (readParts_iff 3).mp hread
    have h : (if rest = [] then some (leNat (partBytes parts)) else none) = some a := h
    by_cases hrest : rest = []
    · rw [if_pos hrest] at h
      rw [hrest, List.append_nil] at hs
      exact ⟨parts, ⟨hlen, hparts, hs⟩, (Option.some.inj h).symm⟩
    · rw [if_neg hrest] at h
      cases h
  · rintro ⟨parts, ⟨hlen, hparts, hs⟩, rfl⟩
    have hread : readParts 4 s = some (partBytes parts, []) :=
      (readParts_iff 3).mpr ⟨parts, hlen, hparts, by rw [List.append_nil, hs], rfl, fun _ h => by cases h⟩
    rw [strToIp, hread]
    rfl

/-! ## Printing -/

/-- The text of an address. -/
def quadText (b0 b1 b2 b3 : UInt8) : List UInt8 :=
  [46].intercalate [numeral b0.toNat, numeral b1.toNat, numeral b2.toNat, numeral b3.toNat]

theorem isPart_numeral (b : UInt8) : IsPart (numeral b.toNat) := by
  refine ⟨numeral_ne_nil _, isDigit_numeral _, ?_⟩
  rw [decimal_numeral]
  exact Nat.le_of_lt_succ b.toNat_lt

theorem strToIp_quadText (b0 b1 b2 b3 : UInt8) :
    strToIp (quadText b0 b1 b2 b3) = some (leNat [b0, b1, b2, b3]) := by
  rw [strToIp_iff]
  refine ⟨_, ⟨rfl, ?_, rfl⟩, ?_⟩
  · intro d hd
    simp only [List.mem_cons, List.not_mem_nil, or_false] at hd
    rcases hd with rfl | rfl | rfl | rfl <;> exact isPart_numeral _
  · simp only [partBytes, List.map_cons, List.map_nil, decimal_numeral, UInt8.ofNat_toNat]

theorem length_numeral_byte (b : UInt8) : (numeral b.toNat).length ≤ 3 :=
  length_numeral (by decide) (Nat.lt_of_lt_of_le b.toNat_lt (by decide))

theorem quadText_eq (b0 b1 b2 b3 : UInt8) : quadText b0 b1 b2 b3 = numeral b0.toNat ++ [46] ++
    numeral b1.toNat ++ [46] ++ numeral b2.toNat ++ [46] ++ numeral b3.toNat := by
  simp only [quadText, List.intercalate_cons_cons, List.intercalate_singleton, List.append_assoc]

theorem length_quadText (b0 b1 b2 b3 : UInt8) : (quadText b0 b1 b2 b3).length ≤ 15 := by
  have h0 := length_numeral_byte b0
  have h1 := length_numeral_byte b1
  have h2 := length_numeral_byte b2
  have h3 := length_numeral_byte b3
  rw [quadText_eq]
  simp only [List.length_append, List.length_singleton]
  omega

theorem zero_notMem_quadText (b0 b1 b2 b3 : UInt8) : 0 ∉ quadText b0 b1 b2 b3 := by
  have hnum : ∀ v, (0 : UInt8) ∉ numeral v := fun v h => absurd (isDigit_numeral v 0 h) (by decide)
  rw [quadText_eq]
  simp only [List.mem_append, List.mem_singleton, hnum, or_false, false_or]
  decide

/-- A round for a character that stands for itself. -/
theorem fmtRound_char {c : UInt8} (hc : c ≠ 37) (fmt : List UInt8) (args : List Arg) (o : OutBuf) :
    fmtRound (c :: fmt, args, o) = (outString o [c]).map fun o => .next (fmt, args, o) := by
  rw [fmtRound, if_pos hc, outString, List.foldlM_cons]
  cases outChar o c <;> rfl

/-- A round for `%d`. -/
theorem fmtRound_decimal (fmt : List UInt8) (b : UInt8) (args : List Arg) (o : OutBuf) :
    fmtRound (37 :: 100 :: fmt, .word (UInt64.ofNat b.toNat) :: args, o) =
      (outString o (numeral b.toNat)).map fun o => .next (fmt, args, o) := by
  have hround : fmtRound (37 :: 100 :: fmt, .word (UInt64.ofNat b.toNat) :: args, o) =
      (conversion o (.word (UInt64.ofNat b.toNat) :: args) false false 0 0 100).map
        fun r => .next (fmt, r.2, r.1) := rfl
  rw [hround, conversion_decimal o args (Nat.lt_of_lt_of_le b.toNat_lt (by decide)), Option.map_map]
  rfl

/-- What the loop over the format writes. -/
theorem loop_quadFormat (b0 b1 b2 b3 : UInt8) (o : OutBuf) :
    loop fmtRound (quadFormat.length + 1)
      (quadFormat, [b0, b1, b2, b3].map (fun b => .word (UInt64.ofNat b.toNat)), o) =
      outString o (quadText b0 b1 b2 b3) := by
  have hstep : ∀ (t : List UInt8) (s s' : OutBuf → List UInt8 × List Arg × OutBuf) (fuel : Nat),
      (∀ o, fmtRound (s o) = (outString o t).map fun o => .next (s' o)) → ∀ o,
      loop fmtRound (fuel + 1) (s o) = (outString o t).bind fun o => loop fmtRound fuel (s' o) := by
    intro t s s' fuel hround o
    rw [loop, hround]
    cases outString o t <;> rfl
  have hchar := fun (fmt : List UInt8) (args : List Arg) (fuel : Nat) => hstep [46]
    (fun o => (46 :: fmt, args, o)) (fun o => (fmt, args, o)) fuel (fmtRound_char (by decide) fmt args)
  have hnum := fun (fmt : List UInt8) (b : UInt8) (args : List Arg) (fuel : Nat) =>
    hstep (numeral b.toNat) (fun o => (37 :: 100 :: fmt, .word (UInt64.ofNat b.toNat) :: args, o))
      (fun o => (fmt, args, o)) fuel (fmtRound_decimal fmt b args)
  have hend : ∀ (fuel : Nat) (o : OutBuf), loop fmtRound (fuel + 1) ([], [], o) = some o :=
    fun fuel o => loop_of_done rfl
  rw [quadText_eq]
  simp only [outString_append, Option.bind_assoc]
  simp only [quadFormat, List.map_cons, List.map_nil, List.length_cons, hchar, hnum, hend,
    Option.bind_fun_some]

/-- What `ip_to_str` leaves in its buffer. -/
theorem ipToStr_eq {a : Nat} {buf : List UInt8} (hbuf : buf.length = 16) :
    ∃ text rest, ipToStr a buf = some (text ++ 0 :: rest, text.length) ∧
      text.length + 1 + rest.length = 16 ∧ 0 ∉ text ∧ strToIp text = some (leNat (leBytes 4 a)) := by
  obtain ⟨b0, b1, b2, b3, hbytes⟩ : ∃ b0 b1 b2 b3, leBytes 4 a = [b0, b1, b2, b3] := ⟨_, _, _, _, rfl⟩
  have hlen := length_quadText b0 b1 b2 b3
  have hfits : outString ⟨buf, 16, 0⟩ (quadText b0 b1 b2 b3) =
      some (OutBuf.write ⟨buf, 16, 0⟩ (quadText b0 b1 b2 b3)) := by
    apply outString_fits
    · exact Nat.le_of_eq hbuf.symm
    · show 0 + (quadText b0 b1 b2 b3).length < 16
      omega
  refine ⟨quadText b0 b1 b2 b3, buf.drop ((quadText b0 b1 b2 b3).length + 1), ?_, ?_,
    zero_notMem_quadText _ _ _ _, ?_⟩
  · have hset : (quadText b0 b1 b2 b3 ++ buf.drop (quadText b0 b1 b2 b3).length).set
        (quadText b0 b1 b2 b3).length 0 =
        quadText b0 b1 b2 b3 ++ 0 :: buf.drop ((quadText b0 b1 b2 b3).length + 1) := by
      rw [List.set_append_right _ _ (Nat.le_refl _), Nat.sub_self,
        List.drop_eq_getElem_cons (i := (quadText b0 b1 b2 b3).length) (by omega), List.set_cons_zero]
    have hi : (if (quadText b0 b1 b2 b3).length < 16 - 1 then (quadText b0 b1 b2 b3).length
        else 16 - 1) = (quadText b0 b1 b2 b3).length := by
      split <;> omega
    have hin : (quadText b0 b1 b2 b3).length <
        (quadText b0 b1 b2 b3 ++ buf.drop (quadText b0 b1 b2 b3).length).length := by
      rw [List.length_append, List.length_drop]
      omega
    have hloop := loop_quadFormat b0 b1 b2 b3 ⟨buf, 16, 0⟩
    rw [hfits] at hloop
    rw [ipToStr, snprintf, vsnprintf, hbytes, hloop]
    simp only [OutBuf.write, List.take_zero, List.nil_append, Nat.zero_add, Option.bind_eq_bind,
      Option.bind_some, Option.pure_def]
    rw [if_neg (by decide), hi, if_pos hin, hset]
  · rw [List.length_drop]
    omega
  · rw [hbytes, strToIp_quadText]

/-- `str_to_ip` takes exactly the dotted quads, the value of a part stays far below the bound of an
    `int`, and what `ip_to_str` prints fits and is read back. -/
theorem dotted_quad :
    (∀ s a, strToIp s = some a ↔ ∃ parts, DottedQuad s parts ∧ a = leNat (partBytes parts)) ∧
    (∀ s, ∀ v ∈ partValues 0 s, v < 2 ^ 31) ∧
    ∀ a buf, a < 2 ^ 32 → buf.length = 16 → ∃ text rest,
      ipToStr a buf = some (text ++ 0 :: rest, text.length) ∧ text.length + 1 + rest.length = 16 ∧
      0 ∉ text ∧ strToIp text = some a := by
  refine ⟨strToIp_iff, ?_, ?_⟩
  · intro s v hv
    exact Nat.lt_of_le_of_lt (partValues_le s 0 (Nat.zero_le _) v hv) (by decide)
  · intro a buf ha hbuf
    obtain ⟨text, rest, hprint, hroom, hzero, hread⟩ := ipToStr_eq (a := a) hbuf
    rw [leNat_leBytes ha] at hread
    exact ⟨text, rest, hprint, hroom, hzero, hread⟩

end ChocoOs.Net
