import ChocoOs.Tok.Merge

/-!
# Encoding with a byte fallback

`encode` and `decode` of `llm.c`. The text is read codepoint by codepoint; what the vocabulary
does not have becomes byte tokens. `none` means that a byte outside the scratch buffer (which the
null pointer has none of), a token outside the caller's array or a byte behind a terminator is
accessed.
-/

namespace ChocoOs.Llama
open ProgLib ChocoOs.Tok

/-- `byte & 0xC0 == 0x80`. -/
def isContinuation (b : UInt8) : Bool := b &&& 0xC0 == 0x80

/-- A `char`, which is signed. -/
def charVal (c : UInt8) : Int := if c.toNat < 128 then c.toNat else c.toNat - 256

/-- The value of a hexadecimal digit (`llm.c:334-335`). -/
def hexVal (c : UInt8) : Int := if 65 ≤ charVal c then charVal c - 65 + 10 else charVal c - 48

/-- The C string at `byte_pieces + byte_val * 2` (`llm.c:281-285`). -/
def bytePiece (v : Int) : Option (List UInt8) :=
  if 0 ≤ v ∧ v < 256 then some (CString.ofBytes [UInt8.ofNat v.toNat, 0]).1 else none

/-- Raw byte tokens look like `<0x0A>` (`llm.c:331-339`). -/
def rawByte (piece : List UInt8) : Option (List UInt8) :=
  if piece.take 3 = [60, 48, 120] then do
    let last ← (piece ++ [0])[5]?
    if last = 62 then do
      let hi ← piece[3]?
      let lo ← piece[4]?
      bytePiece (hexVal hi * 16 + hexVal lo)
    else some piece
  else some piece

section encode

variable {S : Type} (t : Tokenizer S) (gt : S → S → Bool) (floor : S) (cap max : Nat)

/-- `decode` (`llm.c:325-340`). -/
def decode (prevToken token : Nat) : Option (List UInt8) := do
  let piece ← t.vocab[token]?
  if prevToken = 1 ∧ piece.1.head? = some 32 then rawByte piece.1.tail else rawByte piece.1

/-- What is printed of the tokens after `prevToken` (`llm.c:545-585`). -/
def decodeAll : Nat → List Nat → Option (List UInt8)
  | _, [] => some []
  | prevToken, token :: rest => do
    let piece ← decode t prevToken token
    let text ← decodeAll token rest
    return piece ++ text

/-- One round of the loop over the text; `str` is what `str_buffer` holds (`llm.c:361-385`). -/
def textRound : List UInt8 × List UInt8 × List Nat →
    Option (LoopStep (List UInt8 × List UInt8 × List Nat) (List Nat))
  | ([], _, toks) => some (.done toks)
  | (b :: rest, str, toks) => do
    let str := (if isContinuation b then str else []) ++ [b]
    let buf ← putBuffer cap str
    if isContinuation (rest.headD 0) ∧ str.length < 4 then return .next (rest, str, toks)
    else
      match ← tokLookup buf t.sorted t.vocab.length with
      | some id => do
        let toks ← push max toks id
        return .next (rest, [], toks)
      | none => do
        let toks ← str.foldlM (fun toks b => push max toks (b.toNat + 3)) toks
        return .next (rest, [], toks)

def readText (text : List UInt8) (toks : List Nat) : Option (List Nat) :=
  loop (textRound t cap max) (text.length + 1) (text, [], toks)

/-- The dummy prefix of a non-empty text (`llm.c:353-358`). -/
def dummyPrefix (text : List UInt8) (toks : List Nat) : Option (List Nat) :=
  if text = [] then some toks
  else do
    match ← tokLookup ⟨[32], by decide⟩ t.sorted t.vocab.length with
    | some id => push max toks id
    | none => some toks

/-- `encode` (`llm.c:343-421`) with a `tokens` array of `max` entries. -/
def encode (pick : Pick) (heap : Arena) (text : List UInt8) (bos eos : Bool) :
    Option (Arena × List Nat) := do
  let r := heap.alloc pick t.printSize
  let cap := if r.1 = 0 then 0 else t.printSize
  let toks ← if bos then push max [] 1 else some []
  let toks ← dummyPrefix t max text toks
  let toks ← readText t cap max text toks
  let toks ← mergeAll t gt floor cap toks
  let toks ← if eos then push max toks 2 else some toks
  let heap ← r.2.free r.1
  return (heap, toks)

variable {t cap max}

/-! ## The vocabulary -/

/-- A hexadecimal digit as `%X` prints it. -/
def hexDigit (d : Nat) : UInt8 := UInt8.ofNat (if d < 10 then 48 + d else 55 + d)

/-- The string of the byte token of `b`. -/
def byteToken (b : UInt8) : List UInt8 :=
  [60, 48, 120, hexDigit (b.toNat / 16), hexDigit (b.toNat % 16), 62]

/-- A vocabulary with a token for every byte, from 3 on. No other string contains `<0x`; the byte
    tokens and the string of BOS are no concatenations. -/
structure ByteFallback (t : Tokenizer S) : Prop where
  bytes : ∀ b : UInt8, b.toNat + 3 < t.vocab.length ∧ (t.str (b.toNat + 3)).1 = byteToken b
  space : ∃ s ∈ t.vocab, s.1 = [32]
  nonempty : ∀ s ∈ t.vocab, s.1 ≠ []
  length_le : ∀ s ∈ t.vocab, s.length ≤ t.maxTokenLength
  six_le : 6 ≤ t.maxTokenLength
  marker : ∀ s ∈ t.vocab, [60, 48, 120] <:+: s.1 → ∃ b, s.1 = byteToken b
  bos_length : 5 ≤ (t.str 1).length
  bos_alone : ∀ s ∈ t.vocab, (t.str 1).1 <:+: s.1 → s = t.str 1
  bos_whole : ∀ a ∈ t.vocab, ∀ b ∈ t.vocab, a.append b ≠ t.str 1
  byte_whole : ∀ a ∈ t.vocab, ∀ b ∈ t.vocab, ∀ c, (a.append b).1 ≠ byteToken c

/-- The byte tokens. -/
def IsByte (x : Nat) : Prop := 3 ≤ x ∧ x < 259

instance (x : Nat) : Decidable (IsByte x) := inferInstanceAs (Decidable (_ ∧ _))

/-- The tokens that stand for their string. -/
structure Clean (t : Tokenizer S) (x : Nat) : Prop where
  valid : x < t.vocab.length
  not_bos : x ≠ 1
  not_byte : ¬ IsByte x
  unmarked : ¬ [60, 48, 120] <:+: (t.str x).1

/-- The text that a token stands for. -/
def spellOf (t : Tokenizer S) (x : Nat) : List UInt8 :=
  if IsByte x then [UInt8.ofNat (x - 3)] else (t.str x).1

/-- `toks` stands for the text after BOS: a string that begins with a space, and no BOS. -/
structure Spells (t : Tokenizer S) (text : List UInt8) (toks : List Nat) : Prop where
  tokens : ∀ x ∈ toks, Clean t x ∨ IsByte x
  head : ∃ x xs, toks = x :: xs ∧ Clean t x
  spell : toks.flatMap (spellOf t) = 32 :: text

theorem ByteFallback.isByte_lt (h : ByteFallback t) {x : Nat} (hx : IsByte x) :
    x < t.vocab.length ∧ (t.str x).1 = byteToken (UInt8.ofNat (x - 3)) := by
  obtain ⟨hlo, hhi⟩ := hx
  have hb := h.bytes (UInt8.ofNat (x - 3))
  rw [UInt8.toNat_ofNat', Nat.mod_eq_of_lt (by omega), Nat.sub_add_cancel hlo] at hb
  exact hb

theorem ByteFallback.mem_str (_ : ByteFallback t) {x : Nat} (hx : x < t.vocab.length) :
    t.str x ∈ t.vocab :=
  List.mem_of_getElem? (Tokenizer.vocab_getElem? hx)

theorem marker_byteToken (b : UInt8) : [60, 48, 120] <:+: byteToken b :=
  ⟨[], [hexDigit (b.toNat / 16), hexDigit (b.toNat % 16), 62], rfl⟩

/-- A token found for a string that is neither a byte token nor that of BOS. -/
theorem ByteFallback.clean (h : ByteFallback t) (ht : t.Built) {s : CString} {id : Nat}
    (hfind : t.find s = some id) (hbyte : ∀ c, s.1 ≠ byteToken c) (hbos : s ≠ t.str 1) :
    Clean t id ∧ t.str id = s := by
  obtain ⟨hid, hstr⟩ := ht.find_some hfind
  refine ⟨⟨hid, fun he => hbos (by rw [← hstr, he]), fun hb => ?_, fun hm => ?_⟩, hstr⟩
  · exact hbyte _ (by rw [← hstr, (h.isByte_lt hb).2])
  · obtain ⟨c, hc⟩ := h.marker _ (h.mem_str hid) hm
    exact hbyte c (by rw [← hstr, hc])

theorem ByteFallback.valid (h : ByteFallback t) {x : Nat} (hx : Clean t x ∨ IsByte x) :
    x < t.vocab.length :=
  hx.elim Clean.valid fun hb => (h.isByte_lt hb).1

/-- Only tokens that stand for their strings merge, and the result is another one. -/
theorem ByteFallback.merge (h : ByteFallback t) (ht : t.Built) {x y id : Nat}
    (hx : Clean t x ∨ IsByte x) (hy : Clean t y ∨ IsByte y)
    (hfind : t.find ((t.str x).append (t.str y)) = some id) :
    Clean t x ∧ Clean t y ∧ Clean t id ∧ t.str id = (t.str x).append (t.str y) := by
  have hxm := h.mem_str (h.valid hx)
  have hym := h.mem_str (h.valid hy)
  have hbyte := h.byte_whole _ hxm _ hym
  obtain ⟨hclean, hstr⟩ := h.clean ht hfind hbyte (h.bos_whole _ hxm _ hym)
  have hmark : ¬ [60, 48, 120] <:+: (t.str x).1 ++ (t.str y).1 := by
    have := hclean.unmarked
    rwa [hstr] at this
  refine ⟨hx.resolve_right fun hb => hmark ?_, hy.resolve_right fun hb => hmark ?_, hclean, hstr⟩
  · rw [(h.isByte_lt hb).2]
    exact (marker_byteToken _).trans (List.prefix_append _ _).isInfix
  · rw [(h.isByte_lt hb).2]
    exact (marker_byteToken _).trans (List.suffix_append _ _).isInfix

/-- BOS merges with nothing. -/
theorem ByteFallback.bos_find (h : ByteFallback t) (ht : t.Built) {y id : Nat}
    (hn : 1 < t.vocab.length) (hy : y < t.vocab.length) :
    t.find ((t.str 1).append (t.str y)) ≠ some id := by
  intro hfind
  obtain ⟨hid, hstr⟩ := ht.find_some hfind
  refine h.bos_whole _ (h.mem_str hn) _ (h.mem_str hy) ?_
  rw [← hstr]
  refine h.bos_alone _ (h.mem_str hid) ?_
  rw [hstr]
  exact (List.prefix_append _ _).isInfix

/-- A merge keeps the text. -/
theorem Spells.merge {text : List UInt8} {pre post : List Nat} {x y id : Nat}
    (h : ByteFallback t) (ht : t.Built) (hs : Spells t text (pre ++ x :: y :: post))
    (hfind : t.find ((t.str x).append (t.str y)) = some id) :
    Spells t text (pre ++ id :: post) := by
  obtain ⟨hx, hy, hid, hstr⟩ :=
    h.merge ht (hs.tokens x (by simp)) (hs.tokens y (by simp)) hfind
  refine ⟨fun z hz => ?_, ?_, ?_⟩
  · rcases List.mem_append.mp hz with hz | hz
    · exact hs.tokens z (by simp [hz])
    · rcases List.mem_cons.mp hz with rfl | hz
      · exact .inl hid
      · exact hs.tokens z (by simp [hz])
  · cases pre with
    | nil => exact ⟨id, post, rfl, hid⟩
    | cons a pre =>
      obtain ⟨b, bs, he, hb⟩ := hs.head
      cases he
      exact ⟨_, _, rfl, hb⟩
  · rw [← hs.spell]
    simp only [List.flatMap_append, List.flatMap_cons, spellOf, if_neg hx.not_byte,
      if_neg hy.not_byte, if_neg hid.not_byte, hstr, CString.append, List.append_assoc]

/-! ## Decoding -/

theorem rawByte_byteToken (b : UInt8) (hb : b ≠ 0) : rawByte (byteToken b) = some [b] := by
  have hall : ∀ n < 256, n ≠ 0 →
      rawByte (byteToken (UInt8.ofNat n)) = some [UInt8.ofNat n] := by decide +kernel
  have h := hall b.toNat b.toNat_lt fun h0 => hb (UInt8.toNat_inj.mp h0)
  rwa [UInt8.ofNat_toNat] at h

theorem rawByte_of_unmarked {piece : List UInt8} (h : ¬ [60, 48, 120] <:+: piece) :
    rawByte piece = some piece := by
  refine if_neg fun he => h ?_
  rw [← he]
  exact (List.take_prefix 3 piece).isInfix

theorem decode_clean {prevToken x : Nat} (hx : Clean t x) (hprev : prevToken ≠ 1) :
    decode t prevToken x = some (t.str x).1 := by
  unfold decode
  rw [Tokenizer.vocab_getElem? hx.valid]
  simp only [Option.bind_eq_bind, Option.bind_some, hprev, false_and, if_false]
  exact rawByte_of_unmarked hx.unmarked

/-- After BOS the leading space is stripped. -/
theorem decode_bos {x : Nat} {text : List UInt8} (hx : Clean t x) (hstr : (t.str x).1 = 32 :: text) :
    decode t 1 x = some text := by
  have hmark : ¬ [60, 48, 120] <:+: text := fun hm => hx.unmarked (by
    rw [hstr]
    exact hm.trans (List.suffix_cons 32 text).isInfix)
  unfold decode
  rw [Tokenizer.vocab_getElem? hx.valid]
  simp only [Option.bind_eq_bind, Option.bind_some, hstr, List.head?_cons, and_self, if_true,
    List.tail_cons]
  exact rawByte_of_unmarked hmark

theorem ByteFallback.decode_byte (h : ByteFallback t) {prevToken x : Nat} (hx : IsByte x)
    (h0 : UInt8.ofNat (x - 3) ≠ 0) : decode t prevToken x = some [UInt8.ofNat (x - 3)] := by
  obtain ⟨hlt, hstr⟩ := h.isByte_lt hx
  unfold decode
  rw [Tokenizer.vocab_getElem? hlt]
  simp only [Option.bind_eq_bind, Option.bind_some, hstr]
  rw [if_neg fun hp => absurd hp.2 (by simp [byteToken])]
  exact rawByte_byteToken _ h0

/-- Decoding gives back what the tokens stand for. -/
theorem decodeAll_eq (h : ByteFallback t) {toks : List Nat} {prevToken : Nat}
    (hprev : prevToken ≠ 1) (htoks : ∀ x ∈ toks, Clean t x ∨ IsByte x)
    (h0 : 0 ∉ toks.flatMap (spellOf t)) :
    decodeAll t prevToken toks = some (toks.flatMap (spellOf t)) := by
  induction toks generalizing prevToken with
  | nil => rfl
  | cons x toks ih =>
    rw [List.flatMap_cons, List.mem_append, not_or] at h0
    have hx1 : x ≠ 1 := by
      rcases htoks x (by simp) with hx | hx
      · exact hx.not_bos
      · obtain ⟨hlo, -⟩ := hx
        omega
    have hone : decode t prevToken x = some (spellOf t x) := by
      by_cases hb : IsByte x
      · rw [spellOf, if_pos hb] at h0 ⊢
        exact h.decode_byte hb fun he => h0.1 (by simp [he])
      · rw [spellOf, if_neg hb]
        exact decode_clean ((htoks x (by simp)).resolve_right hb) hprev
    have hrest := ih hx1 (fun y hy => htoks y (List.mem_cons_of_mem _ hy)) h0.2
    rw [decodeAll]
    simp only [hone, hrest, Option.bind_eq_bind, Option.bind_some, List.flatMap_cons]
    rfl

/-- The tokens after BOS decode to the text. -/
theorem Spells.decodeAll {text : List UInt8} {toks : List Nat} (h : ByteFallback t)
    (hs : Spells t text toks) (h0 : 0 ∉ text) : decodeAll t 1 toks = some text := by
  obtain ⟨x, xs, rfl, hx⟩ := hs.head
  have hspell := hs.spell
  rw [List.flatMap_cons, spellOf, if_neg hx.not_byte] at hspell
  cases hstr : (t.str x).1 with
  | nil => exact absurd hstr (h.nonempty _ (h.mem_str hx.valid))
  | cons a rest =>
    rw [hstr, List.cons_append, List.cons.injEq] at hspell
    obtain ⟨rfl, hrest⟩ := hspell
    have hdec := decodeAll_eq h hx.not_bos (fun y hy => hs.tokens y (List.mem_cons_of_mem _ hy))
      fun hm => h0 (by rw [← hrest]; exact List.mem_append_right _ hm)
    rw [Llama.decodeAll]
    simp only [decode_bos hx hstr, hdec, Option.bind_eq_bind, Option.bind_some, ← hrest]
    rfl

/-! ## Encoding -/

theorem Spells.append {text : List UInt8} {toks new : List Nat} (hs : Spells t text toks)
    (hnew : ∀ x ∈ new, Clean t x ∨ IsByte x) :
    Spells t (text ++ new.flatMap (spellOf t)) (toks ++ new) := by
  refine ⟨fun x hx => (List.mem_append.mp hx).elim (hs.tokens x) (hnew x), ?_, ?_⟩
  · obtain ⟨x, xs, rfl, hx⟩ := hs.head
    exact ⟨x, xs ++ new, rfl, hx⟩
  · rw [List.flatMap_append, hs.spell, List.cons_append]

theorem push_eq {toks : List Nat} (id : Nat) (h : toks.length < max) :
    push max toks id = some (toks ++ [id]) := if_pos h

theorem foldlM_push {str : List UInt8} {toks : List Nat} (h : toks.length + str.length ≤ max) :
    str.foldlM (fun toks b => push max toks (b.toNat + 3)) toks =
      some (toks ++ str.map fun b => b.toNat + 3) := by
  induction str generalizing toks with
  | nil => simp
  | cons b str ih =>
    rw [List.length_cons] at h
    rw [List.foldlM_cons, push_eq _ (by omega)]
    refine (ih (by rw [List.length_append, List.length_singleton]; omega)).trans ?_
    rw [List.append_assoc, List.map_cons, List.singleton_append]

/-- The byte tokens of a string stand for it. -/
theorem spell_bytes (str : List UInt8) :
    (str.map fun b => b.toNat + 3).flatMap (spellOf t) = str := by
  induction str with
  | nil => rfl
  | cons b str ih =>
    have hlt := b.toNat_lt
    rw [List.map_cons, List.flatMap_cons, ih, spellOf, if_pos ⟨by omega, by omega⟩,
      Nat.add_sub_cancel, UInt8.ofNat_toNat, List.singleton_append]

/-- A codepoint becomes one token, or a token for each byte. -/
theorem ByteFallback.codepoint (h : ByteFallback t) (ht : t.Built) {text str : List UInt8}
    {toks : List Nat} (hs : Spells t text toks) (h0 : 0 ∉ str) (hpos : 0 < str.length)
    (hlen : str.length ≤ 4) (hmax : toks.length + 1 + str.length ≤ max) :
    ∃ new, (do
      match ← tokLookup ⟨str, h0⟩ t.sorted t.vocab.length with
      | some id => push max (1 :: toks) id
      | none => str.foldlM (fun toks b => push max toks (b.toNat + 3)) (1 :: toks)) =
        some (1 :: (toks ++ new)) ∧ new.length ≤ str.length ∧
      Spells t (text ++ str) (toks ++ new) := by
  simp only [ht.tokLookup_eq, Option.bind_eq_bind, Option.bind_some]
  cases hfind : t.find ⟨str, h0⟩ with
  | some id =>
    have hbyte : ∀ c, str ≠ byteToken c := fun c he => by
      rw [he] at hlen
      exact absurd hlen (by simp [byteToken])
    have hbos : (⟨str, h0⟩ : CString) ≠ t.str 1 := fun he => by
      have := h.bos_length
      rw [← he] at this
      exact absurd (Nat.le_trans this hlen) (by decide)
    obtain ⟨hid, hstr⟩ := h.clean ht hfind hbyte hbos
    refine ⟨[id], push_eq id (by rw [List.length_cons]; omega), hpos, ?_⟩
    have hnew : ∀ x ∈ [id], Clean t x ∨ IsByte x := fun x hx => .inl (List.mem_singleton.mp hx ▸ hid)
    have hspell := hs.append hnew
    rwa [List.flatMap_singleton, spellOf, if_neg hid.not_byte, hstr] at hspell
  | none =>
    refine ⟨str.map fun b => b.toNat + 3, foldlM_push (by rw [List.length_cons]; omega),
      (List.length_map _).le, ?_⟩
    have hnew : ∀ x ∈ str.map fun b => b.toNat + 3, Clean t x ∨ IsByte x := fun x hx => by
      obtain ⟨b, -, rfl⟩ := List.mem_map.mp hx
      have hlt := b.toNat_lt
      exact .inr ⟨by omega, by omega⟩
    have hspell := hs.append hnew
    rwa [spell_bytes] at hspell

/-- What holds between two rounds: `str` is the beginning of a codepoint that goes on. -/
structure Reading (t : Tokenizer S) (text : List UInt8)
    (x : List UInt8 × List UInt8 × List Nat) : Prop where
  no_nul : 0 ∉ x.2.1 ++ x.1
  short : x.2.1.length < 4
  goes_on : x.2.1 ≠ [] → isContinuation (x.1.headD 0) = true
  toks : ∃ read toks, x.2.2 = 1 :: toks ∧ Spells t read toks ∧ read ++ (x.2.1 ++ x.1) = text ∧
    toks.length + (x.2.1.length + x.1.length) ≤ text.length + 1

/-- The loop over the text ends with tokens that stand for the text. -/
theorem ByteFallback.readText (h : ByteFallback t) (ht : t.Built) (hcap : 5 ≤ cap)
    {text : List UInt8} (h0 : 0 ∉ text) {space : Nat} (hspace : Spells t [] [space]) :
    ∃ toks, readText t cap (text.length + 2) text [1, space] = some (1 :: toks) ∧
      Spells t text toks ∧ toks.length ≤ text.length + 1 := by
  have hmain := loop_total (textRound t cap (text.length + 2)) (Reading t text)
    (fun ts => ∃ toks, ts = 1 :: toks ∧ Spells t text toks ∧ toks.length ≤ text.length + 1)
    (fun x => x.1.length) ?_ (text.length + 1) (text, [], [1, space])
    ⟨h0, Nat.succ_pos 3, fun hne => absurd rfl hne, [], [space], rfl, hspace, rfl, by
      simp only [List.length_cons, List.length_nil]; omega⟩ (Nat.lt_succ_self _)
  · obtain ⟨ts, hrun, toks, rfl, hs, hlen⟩ := hmain
    exact ⟨toks, hrun, hs, hlen⟩
  rintro ⟨rest, str, ts⟩ ⟨hnul, hshort, hgoes, read, toks, rfl, hs, htext, hlen⟩
  simp only at hnul hshort hgoes htext hlen
  cases rest with
  | nil =>
    obtain rfl : str = [] := Decidable.byContradiction fun hne => absurd (hgoes hne) (by decide)
    rw [List.append_nil, List.append_nil] at htext
    exact .inl ⟨_, rfl, toks, rfl, htext ▸ hs, by simpa using hlen⟩
  | cons b rest =>
    -- a byte that begins a codepoint finds the buffer empty
    have hstr : (if isContinuation b then str else []) = str := by
      by_cases hb : isContinuation b = true
      · rw [if_pos hb]
      · rw [if_neg hb]
        exact (Decidable.byContradiction fun hne => hb (hgoes (Ne.symm hne)))
    have hnul' : 0 ∉ str ++ [b] := fun hm => hnul (by
      rcases List.mem_append.mp hm with hm | hm <;> simp_all)
    have hslen : (str ++ [b]).length = str.length + 1 := by
      rw [List.length_append, List.length_singleton]
    have hput : putBuffer cap (str ++ [b]) = some ⟨str ++ [b], hnul'⟩ :=
      putBuffer_eq (by omega) hnul'
    have hsplit : str ++ b :: rest = (str ++ [b]) ++ rest := by
      rw [List.append_assoc, List.singleton_append]
    rw [hsplit] at hnul htext
    rw [List.length_cons] at hlen
    rw [textRound]
    simp only [hstr, hput, Option.bind_eq_bind, Option.bind_some]
    by_cases hmore : isContinuation (rest.headD 0) = true ∧ (str ++ [b]).length < 4
    · rw [if_pos hmore]
      exact .inr ⟨_, rfl, ⟨hnul, hmore.2, fun _ => hmore.1, read, toks, rfl, hs, htext,
        by simp only [hslen]; omega⟩, Nat.lt_succ_self _⟩
    · rw [if_neg hmore]
      have hroom : toks.length + 1 + (str ++ [b]).length ≤ text.length + 2 := by omega
      obtain ⟨new, hnew, hnewlen, hs'⟩ := h.codepoint ht hs hnul' (by omega) (by omega) hroom
      refine .inr ⟨(rest, [], 1 :: (toks ++ new)), ?_, ⟨?_, Nat.succ_pos 3,
        fun hne => absurd rfl hne, read ++ (str ++ [b]), toks ++ new, rfl, hs', ?_, ?_⟩, Nat.lt_succ_self _⟩
      · simp only [ht.tokLookup_eq, Option.bind_eq_bind, Option.bind_some] at hnew ⊢
        split at hnew <;> simp only [hnew, Option.bind_some] <;> rfl
      · exact fun hm => hnul (List.mem_append_right _ hm)
      · rw [List.nil_append, List.append_assoc, htext]
      · simp only [List.length_append, List.length_nil]
        omega

theorem ByteFallback.one_lt (h : ByteFallback t) : 1 < t.vocab.length :=
  Nat.lt_of_le_of_lt (by omega) (h.bytes 0).1

/-- The merge loop keeps the text. -/
theorem ByteFallback.mergeAll (h : ByteFallback t) (ht : t.Built) (hfit : t.PairsFit)
    {text : List UInt8} {toks : List Nat} (hs : Spells t text toks) :
    ∃ toks', mergeAll t gt floor t.printSize (1 :: toks) = some (1 :: toks') ∧
      Spells t text toks' := by
  have hv : t.Valid (1 :: toks) := fun x hx => (List.mem_cons.mp hx).elim
    (fun he => he ▸ h.one_lt) fun hx => h.valid (hs.tokens x hx)
  have hstep : ∀ pre x y post id, t.Valid (pre ++ x :: y :: post) →
      (∃ toks, pre ++ x :: y :: post = 1 :: toks ∧ Spells t text toks) →
      t.bestPair gt floor (pre ++ x :: y :: post) = some (pre.length, id) →
      t.find (((t.str x).append (t.str y)).take (t.printSize - 1)) = some id →
      ∃ toks, pre ++ id :: post = 1 :: toks ∧ Spells t text toks := by
    rintro pre x y post id hvt ⟨ts, he, hts⟩ - hfind
    rw [pair_take hfit (hvt x (by simp)) (hvt y (by simp))] at hfind
    cases pre with
    | nil =>
      cases he
      exact absurd hfind (h.bos_find ht h.one_lt (hvt y (by simp)))
    | cons a pre =>
      cases he
      exact ⟨_, rfl, hts.merge h ht hfind⟩
  obtain ⟨ts, hrun, ⟨toks', rfl, hs'⟩, -⟩ :=
    mergeAll_spec gt floor t.printSize ht (Nat.le_refl _)
      (P := fun ts => ∃ toks, ts = 1 :: toks ∧ Spells t text toks) hstep hv ⟨toks, rfl, hs⟩
  exact ⟨toks', hrun, hs'⟩

/-- The dummy prefix stands for the empty text. -/
theorem ByteFallback.dummyPrefix (h : ByteFallback t) (ht : t.Built) {text : List UInt8}
    (htext : text ≠ []) :
    ∃ space, dummyPrefix t (text.length + 2) text [1] = some [1, space] ∧
      Spells t [] [space] := by
  obtain ⟨s, hs, hspace⟩ := h.space
  have hmem : (⟨[32], by decide⟩ : CString) ∈ t.vocab := by
    rwa [show (⟨[32], by decide⟩ : CString) = s from Subtype.ext hspace.symm]
  obtain ⟨id, hfind⟩ := Option.ne_none_iff_exists'.mp (mt ht.find_eq_none.mp (not_not.mpr hmem))
  have hbos : (⟨[32], by decide⟩ : CString) ≠ t.str 1 := fun he => by
    have := h.bos_length
    rw [← he] at this
    exact absurd this (by decide)
  obtain ⟨hid, hstr⟩ := h.clean ht hfind (fun c hc => by simp [byteToken] at hc) hbos
  refine ⟨id, ?_, fun x hx => .inl (List.mem_singleton.mp hx ▸ hid), ⟨id, [], rfl, hid⟩, ?_⟩
  · rw [Llama.dummyPrefix, if_neg htext, ht.tokLookup_eq]
    simp only [Option.bind_eq_bind, Option.bind_some, hfind]
    exact push_eq id (by rw [List.length_singleton]; omega)
  · rw [List.flatMap_singleton, spellOf, if_neg hid.not_byte, hstr]

/-- `encode` stores BOS and at most `strlen(text) + 1` other tokens, which decode to the text. -/
def Lossless (t : Tokenizer S) (gt : S → S → Bool) (floor : S) (pick : Pick) (heap : Arena)
    (text : List UInt8) : Prop :=
  ∃ heap' toks, encode t gt floor (text.length + 2) pick heap text true false =
    some (heap', 1 :: toks) ∧ decodeAll t 1 toks = some text

theorem ByteFallback.lossless (h : ByteFallback t) (ht : t.Built) (hfit : t.PairsFit)
    {pick : Pick} {heap : Arena} {text : List UInt8} (h0 : 0 ∉ text) (htext : text ≠ [])
    (hp : (heap.alloc pick t.printSize).1 ≠ 0) : Lossless t gt floor pick heap text := by
  obtain ⟨-, heap', hfree⟩ := Arena.length_le_of_alloc hp
  obtain ⟨space, hdummy, hspace⟩ := h.dummyPrefix ht htext
  have hcap : 5 ≤ t.printSize := by
    have hmem := h.mem_str (h.bytes 0).1
    have hlen := hfit _ hmem _ hmem
    rw [CString.length, (h.bytes 0).2] at hlen
    exact Nat.le_of_lt (Nat.lt_trans (by simp [byteToken]) hlen)
  obtain ⟨toks, hread, hs, -⟩ := h.readText ht hcap h0 hspace
  obtain ⟨toks', hmerge, hs'⟩ := h.mergeAll gt floor ht hfit hs
  refine ⟨heap', toks', ?_, hs'.decodeAll h h0⟩
  unfold encode
  simp only [if_neg hp, if_true, push_eq, List.length_nil, Nat.succ_pos, List.nil_append, hdummy,
    hread, hmerge, hfree, Option.bind_eq_bind, Option.bind_some, Bool.false_eq_true, if_false]
  rfl

/-- Without a text there is BOS alone, whether the heap grants the buffer or not. -/
theorem lossless_nil (pick : Pick) (heap : Arena) : Lossless t gt floor pick heap [] := by
  obtain ⟨heap', hfree⟩ : ∃ heap', (heap.alloc pick t.printSize).2.free
      (heap.alloc pick t.printSize).1 = some heap' := by
    by_cases hp : (heap.alloc pick t.printSize).1 = 0
    · exact ⟨_, if_pos hp⟩
    · exact (Arena.length_le_of_alloc hp).2
  refine ⟨heap', [], ?_, rfl⟩
  unfold encode
  simp only [hfree, Option.bind_eq_bind]
  rfl

/-- The null pointer is written to. -/
theorem encode_refuse (pick : Pick) {heap : Arena} {text : List UInt8} (bos eos : Bool)
    (htext : text ≠ []) (hp : (heap.alloc pick t.printSize).1 = 0) :
    encode t gt floor max pick heap text bos eos = none := by
  obtain ⟨b, rest, rfl⟩ := List.exists_cons_of_ne_nil htext
  have hround : ∀ toks, Llama.readText t 0 max (b :: rest) toks = none := fun toks => by
    have hput : putBuffer 0 ((if isContinuation b then [] else []) ++ [b]) = none :=
      if_neg (by simp)
    rw [Llama.readText, loop, textRound]
    simp only [hput, Option.bind_eq_bind, Option.bind_none]
  unfold encode
  simp only [if_pos hp, hround, Option.bind_eq_bind, Option.bind_none, Option.bind_fun_none,
    ite_self]

/-- `encode` is lossless if the heap grants the buffer and no pair of strings is cut, and for the
    empty text. If the heap refuses the buffer then no other text survives. -/
theorem encode_lossless_iff_granted (h : ByteFallback t) (ht : t.Built) (pick : Pick) (heap : Arena)
    {text : List UInt8} (h0 : 0 ∉ text) :
    (text = [] ∨ ((heap.alloc pick t.printSize).1 ≠ 0 ∧ t.PairsFit) →
      Lossless t gt floor pick heap text) ∧
    (Lossless t gt floor pick heap text →
      text = [] ∨ (heap.alloc pick t.printSize).1 ≠ 0) := by
  refine ⟨fun hcond => ?_, fun ⟨_, _, hrun, _⟩ => ?_⟩
  · rcases hcond with rfl | ⟨hp, hfit⟩
    · exact lossless_nil gt floor pick heap
    · by_cases htext : text = []
      · subst htext
        exact lossless_nil gt floor pick heap
      · exact h.lossless gt floor ht hfit h0 htext hp
  · refine or_iff_not_imp_left.mpr fun htext hp => ?_
    rw [encode_refuse gt floor pick true false htext hp] at hrun
    cases hrun

end encode

/-! ## A vocabulary of byte tokens -/

/-- `<unk>`, `<bos>`, `<eos>` and a space. -/
def names : List (List UInt8) :=
  [[60, 117, 110, 107, 62], [60, 98, 111, 115, 62], [60, 101, 111, 115, 62], [32]]

/-- The names, and the byte tokens from 3 on. -/
@[irreducible] def fallbackVocab : List CString :=
  (names.take 3).map .ofBytes ++
    (List.range 256).map (fun n => .ofBytes (byteToken (UInt8.ofNat n))) ++ [.ofBytes [32]]

def fallbackTokenizer : Tokenizer Nat :=
  .build fallbackVocab (List.replicate fallbackVocab.length 1) 6

theorem fallbackVocab_length : fallbackVocab.length = 260 := by
  unfold fallbackVocab
  simp only [List.length_append, List.length_map, List.length_range]
  rfl

theorem built_fallbackTokenizer : fallbackTokenizer.Built := by
  unfold fallbackTokenizer
  refine Tokenizer.built_build ?_ (by rw [List.length_replicate]) (by decide)
  rw [fallbackVocab_length]
  decide

theorem byteToken_chars (b : UInt8) : 0 ∉ byteToken b ∧ 32 ∉ byteToken b ∧ 111 ∉ byteToken b := by
  have hall : ∀ n < 256, 0 ∉ byteToken (UInt8.ofNat n) ∧ 32 ∉ byteToken (UInt8.ofNat n) ∧
      111 ∉ byteToken (UInt8.ofNat n) := by decide +kernel
  have h := hall b.toNat b.toNat_lt
  rwa [UInt8.ofNat_toNat] at h

theorem mem_fallbackVocab {s : CString} (hs : s ∈ fallbackVocab) :
    s.1 ∈ names ∨ ∃ b, s.1 = byteToken b := by
  unfold fallbackVocab at hs
  rcases List.mem_append.mp hs with hs | hs
  · rcases List.mem_append.mp hs with hs | hs
    · obtain ⟨l, hl, rfl⟩ := List.mem_map.mp hs
      have hl := List.mem_of_mem_take hl
      have hnul : ∀ l ∈ names, 0 ∉ l := by decide
      exact .inl (by rwa [CString.ofBytes_eq (hnul l hl)])
    · obtain ⟨n, -, rfl⟩ := List.mem_map.mp hs
      exact .inr ⟨UInt8.ofNat n, by rw [CString.ofBytes_eq (byteToken_chars _).1]⟩
  · rw [List.mem_singleton.mp hs]
    exact .inl (by decide)

theorem fallbackTokenizer_str {x : Nat} {s : CString} (h : fallbackVocab[x]? = some s) :
    x < fallbackTokenizer.vocab.length ∧ fallbackTokenizer.str x = s := by
  obtain ⟨hlt, -⟩ := List.getElem?_eq_some_iff.mp h
  refine ⟨hlt, Option.some.inj ?_⟩
  rw [← Tokenizer.vocab_getElem? hlt]
  exact h

theorem fallbackTokenizer_bos : (fallbackTokenizer.str 1).1 = [60, 98, 111, 115, 62] := by
  rw [(fallbackTokenizer_str (x := 1) (s := .ofBytes [60, 98, 111, 115, 62]) ?_).2]
  · decide
  · unfold fallbackVocab
    rfl

/-- A space, or at least five bytes. -/
theorem length_fallbackVocab {s : CString} (hs : s ∈ fallbackVocab) :
    s.1 = [32] ∨ 5 ≤ s.1.length := by
  rcases mem_fallbackVocab hs with hs | ⟨b, hb⟩
  · have hall : ∀ l ∈ names, l = [32] ∨ 5 ≤ l.length := by decide
    exact hall _ hs
  · exact .inr (by rw [hb]; simp [byteToken])

/-- A concatenation has a space or is long. -/
theorem append_fallbackVocab {a b : CString} (ha : a ∈ fallbackVocab) (hb : b ∈ fallbackVocab) :
    32 ∈ (a.append b).1 ∨ 10 ≤ (a.append b).1.length := by
  rw [CString.append, List.length_append]
  rcases length_fallbackVocab ha with ha | ha
  · exact .inl (List.mem_append_left _ (by simp [ha]))
  rcases length_fallbackVocab hb with hb | hb
  · exact .inl (List.mem_append_right _ (by simp [hb]))
  · exact .inr (Nat.add_le_add ha hb)

theorem byteFallback_fallbackTokenizer : ByteFallback fallbackTokenizer where
  bytes b := by
    have hget : fallbackVocab[b.toNat + 3]? = some (.ofBytes (byteToken b)) := by
      have hlt := b.toNat_lt
      have hthree : ((names.take 3).map CString.ofBytes).length = 3 := rfl
      unfold fallbackVocab
      rw [List.append_assoc, List.getElem?_append_right (by omega), hthree, Nat.add_sub_cancel,
        List.getElem?_append_left (by simp; omega), List.getElem?_map,
        List.getElem?_range (by omega), Option.map_some, UInt8.ofNat_toNat]
    obtain ⟨hlt, hstr⟩ := fallbackTokenizer_str hget
    exact ⟨hlt, by rw [hstr, CString.ofBytes_eq (byteToken_chars b).1]⟩
  space := by
    refine ⟨.ofBytes [32], ?_, by decide⟩
    show _ ∈ fallbackVocab
    unfold fallbackVocab
    exact List.mem_append_right _ (List.mem_singleton_self _)
  nonempty s hs he := by
    rcases length_fallbackVocab hs with hs | hs <;> simp [he] at hs
  length_le s hs := by
    show s.1.length ≤ 6
    rcases mem_fallbackVocab hs with hs | ⟨b, hb⟩
    · have hall : ∀ l ∈ names, l.length ≤ 6 := by decide
      exact hall _ hs
    · rw [hb]
      simp [byteToken]
  six_le := Nat.le_refl 6
  marker s hs hm := by
    refine (mem_fallbackVocab hs).resolve_left fun hs => ?_
    have hall : ∀ l ∈ names, ¬ [60, 48, 120] <:+: l := by decide
    exact hall _ hs hm
  bos_length := by
    rw [CString.length, fallbackTokenizer_bos]
    decide
  bos_alone s hs hm := by
    rw [fallbackTokenizer_bos] at hm
    refine Subtype.ext ?_
    rw [fallbackTokenizer_bos]
    rcases mem_fallbackVocab hs with hs | ⟨b, hb⟩
    · have hall : ∀ l ∈ names, [60, 98, 111, 115, 62] <:+: l → l = [60, 98, 111, 115, 62] := by decide
      exact hall _ hs hm
    · rw [hb] at hm
      exact absurd (hm.mem (by decide)) (byteToken_chars b).2.2
  bos_whole a ha b hb he := by
    have hcases := append_fallbackVocab ha hb
    rw [he, fallbackTokenizer_bos] at hcases
    exact absurd hcases (by decide)
  byte_whole a ha b hb c he := by
    have hcases := append_fallbackVocab ha hb
    rw [he] at hcases
    rcases hcases with hmem | hlen
    · exact (byteToken_chars c).2.1 hmem
    · simp [byteToken] at hlen

theorem encode_lossless_fallback : Lossless fallbackTokenizer (fun a b => decide (b < a)) 0
    (fun a _ => a.lo) ⟨0x10000, 0x20000, [], []⟩ [104, 105] := by
  have hnul : (0 : UInt8) ∉ [(104 : UInt8), 105] := by decide
  refine (encode_lossless_iff_granted _ 0 byteFallback_fallbackTokenizer built_fallbackTokenizer
    (fun a _ => a.lo) ⟨0x10000, 0x20000, [], []⟩ hnul).1 (.inr ⟨?_, ?_⟩)
  · show ¬ (Arena.alloc (fun a _ => a.lo) 15 ⟨0x10000, 0x20000, [], []⟩).1 = 0
    decide
  · exact Tokenizer.pairsFit byteFallback_fallbackTokenizer.length_le (by decide)

/-- The heap refuses the scratch buffer. -/
theorem encode_refused_fallback : fallbackTokenizer.Built ∧ ByteFallback fallbackTokenizer ∧
    ¬ Lossless fallbackTokenizer (fun a b => decide (b < a)) 0 (fun _ _ => 0)
      ⟨0x10000, 0x20000, [], []⟩ [104, 105] := by
  refine ⟨built_fallbackTokenizer, byteFallback_fallbackTokenizer, fun ⟨_, _, hrun, _⟩ => ?_⟩
  have hp : (Arena.alloc (fun _ _ => 0) fallbackTokenizer.printSize
      ⟨0x10000, 0x20000, [], []⟩).1 = 0 := by decide
  rw [encode_refuse _ 0 _ true false (List.cons_ne_nil 104 [105]) hp] at hrun
  cases hrun

end ChocoOs.Llama
