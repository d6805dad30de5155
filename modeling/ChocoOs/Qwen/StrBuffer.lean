import ChocoOs.Qwen.Encode
import ChocoOs.Qwen.TokenizerFile
import ChocoOs.Tok.StrBuffer

/-!
# The scratch buffer of `qwen.c`

`encode` of `qwen.c` copies a possible special token to the buffer, up to the next `>` within 64
bytes. The size of the buffer comes from the header of the tokenizer file.
-/

namespace ChocoOs.Qwen
open ProgLib ChocoOs.Tok

variable {S : Type}

/-- `t->max_token_length * 2 + 3` in 64 bits. -/
def bufferSize (t : Tokenizer S) : Nat := t.maxTokenLength * 2 + 3

/-- A round of the loop over the text writes the bytes from `<` to `>`, if there is a special token to
    look up, and the single byte if there is none. A NUL follows. -/
def TextWrite (t : Tokenizer S) (cap : Nat) (p : List UInt8 × List Nat) (n : Nat) : Prop :=
  ∃ b rest, p.1 = b :: rest ∧
    ((b = 60 ∧ ∃ k, endPos (b :: rest) = some k ∧ n = k + 2) ∨
      (special t cap (b :: rest) = some none ∧ n = 2))

/-- All that `encode` writes through `str_buffer` lies in the block that it got. Without one it
    returns at once. -/
def EncodeInBuffer (t : Tokenizer S) (gt : S → S → Bool) (floor : S) (max : Nat) (pick : Pick)
    (heap : Arena) (text : List UInt8) : Prop :=
  (heap.alloc pick (bufferSize t)).1 ≠ 0 →
    InBuffer t gt floor (bufferSize t) (textRound t (bufferSize t) max) (text, [])
      (TextWrite t (bufferSize t))

/-- Between a `<` of the text and the next `>`, no more than 63 bytes behind it, there are so many
    bytes that `cap` bytes do not hold them. -/
def LongSpecial (text : List UInt8) (cap : Nat) : Prop :=
  ∃ pre rest k, text = pre ++ 60 :: rest ∧ endPos (60 :: rest) = some k ∧ cap < k + 2

theorem endPos_spec {bytes : List UInt8} {k : Nat} (h : endPos bytes = some k) :
    1 ≤ k ∧ k < 64 ∧ bytes[k]? = some 62 := by
  obtain ⟨i, hi, rfl⟩ := Option.map_eq_some_iff.mp h
  obtain ⟨hlt, hget, -⟩ := List.findIdx?_eq_some_iff_getElem.mp hi
  have hlen := hlt
  rw [List.length_take, List.length_drop] at hlen
  refine ⟨Nat.le_add_left 1 i, by omega, ?_⟩
  rw [List.getElem_take, List.getElem_drop] at hget
  have hbyte : bytes[1 + i]? = some bytes[1 + i] := List.getElem?_eq_getElem (by omega)
  rw [Nat.add_comm i 1, hbyte]
  simpa using hget

/-- `end_pos` is the first place. -/
theorem endPos_le {bytes : List UInt8} {j k : Nat} (h : endPos bytes = some k) (hj : 1 ≤ j) (hlt : j < 64)
    (hget : bytes[j]? = some 62) : k ≤ j := by
  obtain ⟨i, hi, rfl⟩ := Option.map_eq_some_iff.mp h
  obtain ⟨hlti, hgeti, hfirst⟩ := List.findIdx?_eq_some_iff_getElem.mp hi
  obtain ⟨hjc, hbyte⟩ := List.getElem?_eq_some_iff.mp hget
  by_contra hlater
  have hno := hfirst (j - 1) (by omega)
  rw [List.getElem_take, List.getElem_drop] at hno
  have hidx : 1 + (j - 1) = j := by omega
  simp only [hidx, hbyte] at hno
  exact hno rfl

section rounds

variable {t : Tokenizer S} {cap max : Nat}

theorem special_total (h : t.Built) {b : UInt8} {rest : List UInt8}
    (hfit : ∀ k, b = 60 → endPos (b :: rest) = some k → k + 2 ≤ cap) :
    ∃ r, special t cap (b :: rest) = some r ∧
      ∀ id k, r = some (id, k) → b = 60 ∧ endPos (b :: rest) = some k := by
  unfold special
  by_cases hb : b = 60
  · rw [if_pos (by rw [hb]; rfl)]
    cases hend : endPos (b :: rest) with
    | none => exact ⟨none, rfl, nofun⟩
    | some k =>
      have hk := endPos_lt hend
      have hput : putBuffer cap ((b :: rest).take (k + 1)) =
          some (.ofBytes ((b :: rest).take (k + 1))) := by
        refine if_pos ?_
        have := hfit k hb hend
        rw [List.length_take]
        omega
      refine ⟨(t.find (.ofBytes ((b :: rest).take (k + 1)))).map fun id => (id, k), ?_, ?_⟩
      · simp only [hput, Option.bind_eq_bind, Option.bind_some, h.tokLookup_eq]
        rfl
      · intro id k' he
        obtain ⟨id', -, hp⟩ := Option.map_eq_some_iff.mp he
        cases hp
        exact ⟨hb, rfl⟩
  · rw [if_neg (show ¬ (b :: rest).head? = some 60 from fun hhead => hb (Option.some.inj hhead))]
    exact ⟨none, rfl, nofun⟩

/-- A round whose writes fit takes one byte, or a special token. -/
theorem textRound_next (h : t.Built) {b : UInt8} {rest : List UInt8} {toks : List Nat}
    {r : Option (Nat × Nat)} (hcap : 2 ≤ cap) (hmax : toks.length < max)
    (hr : special t cap (b :: rest) = some r) : ∃ toks', GoesOn (textRound t cap max)
      (b :: rest, toks) (match r with | none => rest | some (_, k) => rest.drop k, toks') := by
  have hpush : ∀ id, Tok.push max toks id = some (toks ++ [id]) := fun id => if_pos hmax
  have hput : putBuffer cap [b] = some (.ofBytes [b]) := if_pos hcap
  rcases r with - | ⟨id, k⟩
  · cases hfind : t.find (.ofBytes [b]) with
    | none =>
      refine ⟨toks, ?_⟩
      simp only [GoesOn, textRound, hr, hput, Option.bind_eq_bind, Option.bind_some, h.tokLookup_eq,
        hfind]
      rfl
    | some id =>
      refine ⟨toks ++ [id], ?_⟩
      simp only [GoesOn, textRound, hr, hput, Option.bind_eq_bind, Option.bind_some, h.tokLookup_eq,
        hfind, hpush]
      rfl
  · refine ⟨toks ++ [id], ?_⟩
    simp only [GoesOn, textRound, hr, Option.bind_eq_bind, Option.bind_some, hpush]
    rfl

/-- What a round leaves of the text, and how many tokens it makes. -/
theorem goesOn_cases {p q : List UInt8 × List Nat} (h : GoesOn (textRound t cap max) p q) :
    q.2.length ≤ p.2.length + 1 ∧ ∃ b rest, p.1 = b :: rest ∧ q.1 <:+ rest := by
  obtain ⟨text, toks⟩ := p
  cases text with
  | nil => cases h
  | cons b rest =>
    have hpush : ∀ {id toks'}, Tok.push max toks id = some toks' → toks'.length = toks.length + 1 := by
      intro id toks' hp
      unfold Tok.push at hp
      split at hp
      · obtain rfl : toks ++ [id] = toks' := by simpa using hp
        rw [List.length_append, List.length_singleton]
      · cases hp
    obtain ⟨found, -, h⟩ := Option.bind_eq_some_iff.mp h
    rcases found with - | ⟨id, k⟩
    · obtain ⟨str, -, h⟩ := Option.bind_eq_some_iff.mp h
      obtain ⟨look, -, h⟩ := Option.bind_eq_some_iff.mp h
      cases look with
      | none =>
        cases h
        exact ⟨Nat.le_succ _, b, rest, rfl, List.suffix_rfl⟩
      | some id =>
        obtain ⟨toks', hp, h⟩ := Option.bind_eq_some_iff.mp h
        cases h
        exact ⟨Nat.le_of_eq (hpush hp), b, rest, rfl, List.suffix_rfl⟩
    · obtain ⟨toks', hp, h⟩ := Option.bind_eq_some_iff.mp h
      cases h
      exact ⟨Nat.le_of_eq (hpush hp), b, rest, rfl, List.drop_suffix _ _⟩

/-- The loop only comes to ends of the text, with a token for each byte before at most. -/
theorem suffix_of_reach {text : List UInt8} {p : List UInt8 × List Nat}
    (hreach : Relation.ReflTransGen (GoesOn (textRound t cap max)) (text, []) p) :
    p.1 <:+ text ∧ p.2.length + p.1.length ≤ text.length := by
  induction hreach with
  | refl => exact ⟨List.suffix_rfl, by simp⟩
  | tail _ hgo ih =>
    obtain ⟨hlen, b, rest, hbytes, hsuffix⟩ := goesOn_cases hgo
    rw [hbytes, List.length_cons] at ih
    have := hsuffix.length_le
    exact ⟨(hsuffix.trans (List.suffix_cons b rest)).trans ih.1, by omega⟩

/-- The point before `rest` is reached, or it lies inside a special token whose end is at `k`. -/
def Passes (t : Tokenizer S) (cap max : Nat) (text rest : List UInt8) : Prop :=
  (∃ toks, Relation.ReflTransGen (GoesOn (textRound t cap max)) (text, []) (rest, toks)) ∨
    ∃ inner k toks toks', inner ≠ [] ∧ inner.length ≤ k ∧ endPos (inner ++ rest) = some k ∧
      k + 2 ≤ cap ∧
      Relation.ReflTransGen (GoesOn (textRound t cap max)) (text, []) (inner ++ rest, toks) ∧
      GoesOn (textRound t cap max) (inner ++ rest, toks) ((inner ++ rest).drop (k + 1), toks')

/-- As long as all writes fit, the loop passes every point of the text. -/
theorem passes_of_fits (h : t.Built) {pre rest : List UInt8} (hcap : 2 ≤ cap)
    (hmax : (pre ++ rest).length ≤ max)
    (hfits : ∀ p, Relation.ReflTransGen (GoesOn (textRound t cap max)) (pre ++ rest, []) p →
      ∀ n, TextWrite t cap p n → n ≤ cap) : Passes t cap max (pre ++ rest) rest := by
  induction pre using List.reverseRecOn generalizing rest with
  | nil => exact .inl ⟨[], .refl⟩
  | append_singleton pre b ih =>
    rw [List.append_assoc, List.singleton_append] at hmax hfits ⊢
    rcases ih hmax hfits with ⟨toks, hreach⟩ | ⟨inner, k, toks, toks', hne, hle, hend, hk, hreach, hgo⟩
    · have hfit : ∀ k, b = 60 → endPos (b :: rest) = some k → k + 2 ≤ cap := fun k hb hend =>
        hfits _ hreach _ ⟨b, rest, rfl, .inl ⟨hb, k, hend, rfl⟩⟩
      obtain ⟨r, hr, hspec⟩ := special_total h hfit
      have hroom := (suffix_of_reach hreach).2
      simp only [List.length_cons] at hroom
      have hpush : toks.length < max := by omega
      obtain ⟨toks', hgo⟩ := textRound_next h hcap hpush hr
      rcases r with - | ⟨id, k⟩
      · exact .inl ⟨toks', hreach.tail hgo⟩
      · obtain ⟨hb, hend⟩ := hspec id k rfl
        have hpos := endPos_spec hend
        exact .inr ⟨[b], k, toks, toks', List.cons_ne_nil _ _, hpos.1, hend, hfit k hb hend, hreach, hgo⟩
    · by_cases hlast : inner.length = k
      · -- the special token ends here
        refine .inl ⟨toks', ?_⟩
        have hdrop : (inner ++ b :: rest).drop (k + 1) = rest := by
          rw [← hlast, List.drop_append]
          simp
        rw [hdrop] at hgo
        exact hreach.tail hgo
      · refine .inr ⟨inner ++ [b], k, toks, toks', by simp, ?_, ?_, hk, ?_, ?_⟩
        · rw [List.length_append, List.length_singleton]
          omega
        all_goals
          rw [List.append_assoc, List.singleton_append]
          assumption

end rounds

/-- In `qwen.c` everything lies in the buffer exactly if there is none, or it holds the bytes from
    every `<` of the text to its `>`. -/
theorem encodeInBuffer_iff {t : Tokenizer S} (h : t.Built) (gt : S → S → Bool) (floor : S)
    (pick : Pick) (heap : Arena) {max : Nat} {text : List UInt8} (hmax : text.length ≤ max) :
    EncodeInBuffer t gt floor max pick heap text ↔
      ((heap.alloc pick (bufferSize t)).1 ≠ 0 → ¬ LongSpecial text (bufferSize t)) := by
  have hcap : 2 ≤ bufferSize t := by
    unfold bufferSize
    omega
  have hprint : t.printSize ≤ bufferSize t := Nat.mod_le _ _
  refine forall_congr' fun hgrant => ?_
  rw [inBuffer_iff hprint]
  constructor
  · rintro hfits ⟨pre, rest, k, rfl, hend, hlong⟩
    rcases passes_of_fits h hcap hmax hfits with ⟨toks, hreach⟩ |
      ⟨inner, k', toks, toks', hne, hle, hend', hk', hreach, -⟩
    · have := hfits _ hreach _ ⟨60, rest, rfl, .inl ⟨rfl, k, hend, rfl⟩⟩
      omega
    · -- inside a special token the next `>` is the end of it
      obtain ⟨-, hlt, hget⟩ := endPos_spec hend'
      rw [List.getElem?_append_right hle] at hget
      have hinner : inner.length ≠ k' := by
        intro heq
        rw [heq, Nat.sub_self] at hget
        cases hget
      have hk := endPos_le hend (show 1 ≤ k' - inner.length by omega) (by omega) hget
      omega
  · rintro hshort ⟨text', toks⟩ hreach n ⟨b, rest, rfl, ⟨rfl, k, hend, rfl⟩ | ⟨-, rfl⟩⟩
    · by_contra hlong
      obtain ⟨pre, hpre⟩ := (suffix_of_reach hreach).1
      exact hshort ⟨pre, rest, k, hpre.symm, hend, Nat.lt_of_not_le hlong⟩
    · exact hcap

end ChocoOs.Qwen
