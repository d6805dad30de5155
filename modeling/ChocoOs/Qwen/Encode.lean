import ChocoOs.Tok.Merge

/-!
# Byte-level encoding

`encode` of `qwen.c`. The text is the list of its bytes; `none` means that a byte outside the
scratch buffer or a token outside the caller's array is written, or what it means for the
vocabulary. If the heap refuses the scratch buffer there are no tokens; otherwise the tokens spell
the text, and no two neighbours could be merged.
-/

namespace ChocoOs.Qwen
open ProgLib ChocoOs.Tok

section encode

variable {S : Type} (t : Tokenizer S) (gt : S → S → Bool) (floor : S) (cap max : Nat)

/-- `end_pos`: the first `>` within 64 bytes (`qwen.c:514-520`). -/
def endPos (c : List UInt8) : Option Nat :=
  (((c.drop 1).take 63).findIdx? (· == 62)).map (· + 1)

/-- The special token at `c`, and its `end_pos` (`qwen.c:512-528`). -/
def special (c : List UInt8) : Option (Option (Nat × Nat)) :=
  if c.head? = some 60 then
    match endPos c with
    | none => some none
    | some k => do
      let str ← putBuffer cap (c.take (k + 1))
      let id ← tokLookup str t.sorted t.vocab.length
      return id.map fun id => (id, k)
  else some none

/-- One round of the loop over the text (`qwen.c:507-539`). -/
def textRound : List UInt8 × List Nat → Option (LoopStep (List UInt8 × List Nat) (List Nat))
  | ([], toks) => some (.done toks)
  | (b :: rest, toks) => do
    match ← special t cap (b :: rest) with
    | some (id, k) => do
      let toks ← push max toks id
      return .next (rest.drop k, toks)
    | none => do
      let str ← putBuffer cap [b]
      match ← tokLookup str t.sorted t.vocab.length with
      | some id => do
        let toks ← push max toks id
        return .next (rest, toks)
      | none => return .next (rest, toks)

def readText (text : List UInt8) : Option (List Nat) :=
  loop (textRound t cap max) (text.length + 1) (text, [])

/-- `encode` (`qwen.c:500-572`) with a `tokens` array of `max` entries. -/
def encode (pick : Pick) (heap : Arena) (text : List UInt8) : Option (Arena × List Nat) :=
  let r := heap.alloc pick (t.maxTokenLength * 2 + 3)
  if r.1 = 0 then some (r.2, [])
  else do
    let toks ← readText t (t.maxTokenLength * 2 + 3) max text
    let toks ← mergeAll t gt floor (t.maxTokenLength * 2 + 3) toks
    let heap ← r.2.free r.1
    return (heap, toks)

/-- The text that tokens stand for. -/
def spell (toks : List Nat) : List UInt8 := toks.flatMap fun x => (t.str x).1

variable {t cap max}

theorem spell_append (as bs : List Nat) : spell t (as ++ bs) = spell t as ++ spell t bs :=
  List.flatMap_append

theorem endPos_lt {c : List UInt8} {k : Nat} (h : endPos c = some k) : k < 64 ∧ k < c.length := by
  obtain ⟨i, hi, rfl⟩ := Option.map_eq_some_iff.mp h
  obtain ⟨hlt, -⟩ := List.findIdx?_eq_some_iff_getElem.mp hi
  rw [List.length_take, List.length_drop] at hlt
  omega

/-- A special token is found only where its string stands in the text, which begins with `<`. -/
theorem special_eq (h : t.Built) (hcap : 65 ≤ cap) {c : List UInt8} (hc : 0 ∉ c) :
    ∃ r, special t cap c = some r ∧ ∀ id k, r = some (id, k) →
      id < t.vocab.length ∧ k < c.length ∧ (t.str id).1 = c.take (k + 1) ∧ c.head? = some 60 := by
  unfold special
  by_cases hlt : c.head? = some 60
  · rw [if_pos hlt]
    cases hend : endPos c with
    | none => exact ⟨none, rfl, fun _ _ he => by cases he⟩
    | some k =>
      obtain ⟨hk, hkc⟩ := endPos_lt hend
      have h0 : 0 ∉ c.take (k + 1) := fun hm => hc (List.mem_of_mem_take hm)
      have hput : putBuffer cap (c.take (k + 1)) = some ⟨_, h0⟩ :=
        putBuffer_eq (by rw [List.length_take]; omega) h0
      refine ⟨(t.find ⟨c.take (k + 1), h0⟩).map fun id => (id, k), ?_, fun id k' he => ?_⟩
      · simp only [Option.bind_eq_bind, hput, Option.bind_some, h.tokLookup_eq]
        rfl
      · obtain ⟨id', hid, hp⟩ := Option.map_eq_some_iff.mp he
        cases hp
        obtain ⟨hlen, hstr⟩ := h.find_some hid
        exact ⟨hlen, hkc, by rw [hstr], hlt⟩
  · exact ⟨none, if_neg hlt, fun _ _ he => by cases he⟩

/-- The loop over the text ends with tokens that spell the text, one for each byte at most. If the
    text has no `<` then there is one for each byte. -/
theorem readText_eq (h : t.Built) (hbytes : ∀ b, b ≠ 0 → ∃ s ∈ t.vocab, s.1 = [b])
    (hcap : 65 ≤ cap) {text : List UInt8} (h0 : 0 ∉ text) :
    ∃ toks, readText t cap text.length text = some toks ∧ t.Valid toks ∧ spell t toks = text ∧
      toks.length ≤ text.length ∧
      (60 ∉ text → toks.map (fun x => (t.str x).1) = text.map fun b => [b]) := by
  refine loop_total (textRound t cap text.length)
    (fun x => 0 ∉ x.1 ∧ t.Valid x.2 ∧ spell t x.2 ++ x.1 = text ∧
      x.2.length + x.1.length ≤ text.length ∧ (60 ∉ text →
        x.2.map (fun x => (t.str x).1) ++ x.1.map (fun b => [b]) = text.map fun b => [b]))
    (fun toks => t.Valid toks ∧ spell t toks = text ∧ toks.length ≤ text.length ∧
      (60 ∉ text → toks.map (fun x => (t.str x).1) = text.map fun b => [b]))
    (fun x => x.1.length) ?_ _ (text, []) ⟨h0, nofun, rfl, by simp, fun _ => rfl⟩
    (Nat.lt_succ_self _)
  rintro ⟨c, toks⟩ ⟨hc, hv, hspell, hlen, hplain⟩
  simp only at hc hv hspell hlen hplain
  cases c with
  | nil => exact .inl ⟨toks, rfl, hv, by rw [← hspell, List.append_nil], by simpa using hlen,
      fun hlt => by rw [← hplain hlt, List.map_nil, List.append_nil]⟩
  | cons b rest =>
    rw [List.length_cons] at hlen
    have hpush : ∀ id, push text.length toks id = some (toks ++ [id]) := fun id =>
      if_pos (by omega)
    have hnew : ∀ id, id < t.vocab.length → t.Valid (toks ++ [id]) := fun id hid x hx =>
      (List.mem_append.mp hx).elim (hv x) fun hx => List.mem_singleton.mp hx ▸ hid
    have hone : ∀ id, spell t (toks ++ [id]) = spell t toks ++ (t.str id).1 := fun id => by
      rw [spell_append, spell, spell, List.flatMap_singleton]
    obtain ⟨r, hr, hspecial⟩ := special_eq h hcap hc
    rw [textRound]
    simp only [hr, Option.bind_eq_bind, Option.bind_some]
    cases r with
    | some p =>
      obtain ⟨id, k⟩ := p
      obtain ⟨hid, hk, hstr, hhead⟩ := hspecial id k rfl
      have hlt : 60 ∈ text := by
        obtain rfl : b = 60 := Option.some.inj hhead
        rw [← hspell]
        simp
      simp only [hpush, Option.bind_some]
      refine .inr ⟨(rest.drop k, toks ++ [id]), rfl, ⟨fun hm => hc (by
        simp [List.mem_of_mem_drop hm]), hnew id hid, ?_, ?_, fun hno => absurd hlt hno⟩, ?_⟩
      · have hsplit : (b :: rest).take (k + 1) ++ rest.drop k = b :: rest :=
          List.take_append_drop (k + 1) (b :: rest)
        rw [hone, hstr, List.append_assoc, hsplit, hspell]
      all_goals
        simp only [List.length_append, List.length_drop, List.length_cons, List.length_nil]
        omega
    | none =>
      have hb : b ≠ 0 := fun hb => hc (by simp [hb])
      have hb0 : (0 : UInt8) ∉ [b] := by simpa using Ne.symm hb
      have hput : putBuffer cap [b] = some ⟨[b], hb0⟩ := putBuffer_eq (by simp; omega) hb0
      obtain ⟨s, hs, hsb⟩ := hbytes b hb
      have hmem : (⟨[b], hb0⟩ : CString) ∈ t.vocab := by
        rwa [show (⟨[b], hb0⟩ : CString) = s from Subtype.ext hsb.symm]
      simp only [hput, Option.bind_some, h.tokLookup_eq]
      cases hfind : t.find ⟨[b], hb0⟩ with
      | none => exact absurd hmem (h.find_eq_none.mp hfind)
      | some id =>
        obtain ⟨hid, hstr⟩ := h.find_some hfind
        simp only [hpush, Option.bind_some]
        refine .inr ⟨(rest, toks ++ [id]), rfl, ⟨fun hm => hc (by simp [hm]), hnew id hid, ?_,
          ?_, fun hno => ?_⟩, ?_⟩
        · rw [hone, hstr, List.append_assoc, List.singleton_append, hspell]
        rotate_left
        · rw [← hplain hno, List.map_append, List.map_singleton, hstr, List.append_assoc,
            List.map_cons, List.singleton_append]
        all_goals
          simp only [List.length_append, List.length_cons, List.length_nil]
          omega

end encode

/-! ## A vocabulary of single bytes -/

@[irreducible] def byteVocab : List CString := (List.range 255).map fun i => .ofBytes [UInt8.ofNat (i + 1)]

/-- The tokenizer with a token for every byte and no merges. -/
def byteTokenizer : Tokenizer Nat := .build byteVocab (List.replicate byteVocab.length 1) 31

end ChocoOs.Qwen
