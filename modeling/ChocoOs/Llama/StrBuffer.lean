import ChocoOs.Llama.Encode
import ChocoOs.Llama.TokenizerFile
import ChocoOs.Tok.StrBuffer

/-!
# The scratch buffer of `llm.c`

`encode` of `llm.c` collects the bytes of a codepoint, up to four of them, in a buffer whose size
comes from the header of the tokenizer file. Without the buffer it writes to the null pointer.
-/

namespace ChocoOs.Llama
open ProgLib ChocoOs.Tok

variable {S : Type}

/-- A round of the loop over the text writes the codepoint so far and a NUL. -/
def TextWrite (p : List UInt8 × List UInt8 × List Nat) (n : Nat) : Prop :=
  ∃ b rest, p.1 = b :: rest ∧ n = ((if isContinuation b then p.2.1 else []) ++ [b]).length + 1

/-- The bytes that `str_buffer` has: none if the heap refuses it. -/
def bufferSize (t : Tokenizer S) (pick : Pick) (heap : Arena) : Nat :=
  if (heap.alloc pick t.printSize).1 = 0 then 0 else t.printSize

/-- The tokens before the text (`llm.c:350-358`). -/
def startTokens (t : Tokenizer S) (max : Nat) (text : List UInt8) (bos : Bool) :
    Option (List Nat) :=
  (if bos then push max [] 1 else some []).bind (dummyPrefix t max text)

/-- All that `encode` writes through `str_buffer` lies in the block that it got. -/
def EncodeInBuffer (t : Tokenizer S) (gt : S → S → Bool) (floor : S) (max : Nat) (pick : Pick)
    (heap : Arena) (text : List UInt8) (bos : Bool) : Prop :=
  ∀ toks, startTokens t max text bos = some toks →
    InBuffer t gt floor (bufferSize t pick heap) (textRound t (bufferSize t pick heap) max)
      (text, [], toks) TextWrite

/-- Two bytes in a row continue a codepoint, behind another byte. -/
def LongCodepoint (text : List UInt8) : Prop :=
  ∃ pre x c d post, text = pre ++ x :: c :: d :: post ∧ isContinuation c = true ∧
    isContinuation d = true

section rounds

variable {t : Tokenizer S} {cap max : Nat}

/-- The bytes of the codepoint that `b` belongs to, up to `b`. -/
def codepoint (str : List UInt8) (b : UInt8) : List UInt8 :=
  (if isContinuation b then str else []) ++ [b]

theorem codepoint_pos (str : List UInt8) (b : UInt8) : 0 < (codepoint str b).length := by
  simp [codepoint]

theorem length_codepoint_le (str : List UInt8) (b : UInt8) :
    (codepoint str b).length ≤ str.length + 1 := by
  unfold codepoint
  split <;> simp

/-- The codepoint goes on with the next byte. -/
def Pending (str rest : List UInt8) : Prop := isContinuation (rest.headD 0) = true ∧ str.length < 4

instance (str rest : List UInt8) : Decidable (Pending str rest) := by
  unfold Pending
  infer_instance

theorem textRound_cons (b : UInt8) (rest str : List UInt8) (toks : List Nat) :
    textRound t cap max (b :: rest, str, toks) = (putBuffer cap (codepoint str b)).bind fun buf =>
      if Pending (codepoint str b) rest then some (.next (rest, codepoint str b, toks))
      else (tokLookup buf t.sorted t.vocab.length).bind fun
        | some id => (push max toks id).bind fun toks => some (.next (rest, [], toks))
        | none => ((codepoint str b).foldlM (fun toks b => push max toks (b.toNat + 3)) toks).bind
            fun toks => some (.next (rest, [], toks)) := rfl

/-- A round whose write fits takes one byte. -/
theorem textRound_next (h : t.Built) {b : UInt8} {str : List UInt8} (rest : List UInt8) (toks : List Nat)
    (hcap : (codepoint str b).length + 1 ≤ cap)
    (hmax : toks.length + (codepoint str b).length ≤ max) :
    ∃ toks', GoesOn (textRound t cap max) (b :: rest, str, toks)
        (rest, if Pending (codepoint str b) rest then codepoint str b else [], toks') ∧
      toks'.length + (if Pending (codepoint str b) rest then codepoint str b else []).length ≤
        toks.length + (codepoint str b).length := by
  have hput : putBuffer cap (codepoint str b) = some (.ofBytes (codepoint str b)) := if_pos hcap
  have hpos := codepoint_pos str b
  simp only [GoesOn, textRound_cons, hput, Option.bind_some]
  by_cases hpend : Pending (codepoint str b) rest
  · rw [if_pos hpend, if_pos hpend]
    exact ⟨toks, rfl, Nat.le_refl _⟩
  simp only [if_neg hpend, h.tokLookup_eq, Option.bind_some]
  cases t.find (CString.ofBytes (codepoint str b)) with
  | some id =>
    refine ⟨toks ++ [id], ?_, ?_⟩
    · have hpush : push max toks id = some (toks ++ [id]) := push_eq id (by omega)
      simp only [hpush]
      rfl
    · simp only [List.length_append, List.length_cons, List.length_nil]
      omega
  | none =>
    refine ⟨toks ++ (codepoint str b).map fun b => b.toNat + 3, ?_, ?_⟩
    · simp only [foldlM_push hmax]
      rfl
    · simp only [List.length_append, List.length_map, List.length_nil]
      omega

/-- Only the first byte of a codepoint may be no continuation. -/
theorem codepoint_tail {str : List UInt8} {b : UInt8}
    (h : ∀ c ∈ str.tail, isContinuation c = true) :
    ∀ c ∈ (codepoint str b).tail, isContinuation c = true := by
  unfold codepoint
  split
  · next hb =>
    intro c hc
    cases str with
    | nil => cases hc
    | cons x str =>
      rcases List.mem_append.mp hc with hc | hc
      · exact h c hc
      · rwa [List.mem_singleton.mp hc]
  · nofun

/-- The state of the loop at a point of the text. -/
structure AtText (max : Nat) (text : List UInt8) (p : List UInt8 × List UInt8 × List Nat) :
    Prop where
  split : ∃ pre, text = pre ++ p.2.1 ++ p.1
  room : p.2.2.length + p.2.1.length + p.1.length ≤ max
  pending : p.2.1 ≠ [] → Pending p.2.1 p.1
  tail : ∀ c ∈ p.2.1.tail, isContinuation c = true

theorem AtText.next (h : t.Built) {text : List UInt8} {b : UInt8} {rest str : List UInt8}
    {toks : List Nat} (hp : AtText max text (b :: rest, str, toks))
    (hcap : (codepoint str b).length + 1 ≤ cap) :
    ∃ toks', GoesOn (textRound t cap max) (b :: rest, str, toks)
        (rest, if Pending (codepoint str b) rest then codepoint str b else [], toks') ∧
      AtText max text
        (rest, if Pending (codepoint str b) rest then codepoint str b else [], toks') := by
  have hroom := hp.room
  simp only [List.length_cons] at hroom
  have hlen := length_codepoint_le str b
  obtain ⟨toks', hgo, hle⟩ := textRound_next h rest toks hcap
    (show toks.length + (codepoint str b).length ≤ max by omega)
  obtain ⟨pre, hpre⟩ := hp.split
  refine ⟨toks', hgo, ?_, ?_, ?_, ?_⟩
  · by_cases hpend : Pending (codepoint str b) rest
    · simp only [if_pos hpend]
      unfold codepoint
      split
      · exact ⟨pre, by simpa using hpre⟩
      · exact ⟨pre ++ str, by simpa using hpre⟩
    · simp only [if_neg hpend]
      exact ⟨pre ++ str ++ [b], by simpa using hpre⟩
  · simp only
    omega
  · by_cases hpend : Pending (codepoint str b) rest
    · simp only [if_pos hpend]
      exact fun _ => hpend
    · simp only [if_neg hpend]
      exact fun hno => absurd rfl hno
  · by_cases hpend : Pending (codepoint str b) rest
    · simp only [if_pos hpend]
      exact codepoint_tail hp.tail
    · simp only [if_neg hpend]
      exact nofun

theorem atText_start {text : List UInt8} {toks : List Nat}
    (hmax : toks.length + text.length ≤ max) : AtText max text (text, [], toks) := by
  refine ⟨⟨[], rfl⟩, ?_, fun hno => absurd rfl hno, nofun⟩
  simp only [List.length_nil]
  omega

/-- Every state that the loop comes to is at a point of the text. -/
theorem atText_of_reach (h : t.Built) {text : List UInt8} {toks : List Nat}
    (hmax : toks.length + text.length ≤ max) {p : List UInt8 × List UInt8 × List Nat}
    (hreach : Relation.ReflTransGen (GoesOn (textRound t cap max)) (text, [], toks) p) :
    AtText max text p := by
  induction hreach with
  | refl => exact atText_start hmax
  | @tail p q _ hgo ih =>
    obtain ⟨bytes, str, toks'⟩ := p
    cases bytes with
    | nil => cases hgo
    | cons b rest =>
      have hcap : (codepoint str b).length + 1 ≤ cap := by
        by_contra hfull
        have hput : putBuffer cap (codepoint str b) = none := if_neg hfull
        have hnone : textRound t cap max (b :: rest, str, toks') = none := by
          change (putBuffer cap (codepoint str b)).bind _ = none
          rw [hput, Option.bind_none]
        rw [GoesOn, hnone] at hgo
        cases hgo
      obtain ⟨toks'', hgo', hnext⟩ := ih.next h hcap
      have heq : LoopStep.next q = LoopStep.next _ := Option.some.inj (hgo.symm.trans hgo')
      rw [LoopStep.next.inj heq]
      exact hnext

/-- As long as all writes fit, the loop comes to every point of the text. -/
theorem reach_of_fits (h : t.Built) {toks : List Nat} {pre rest : List UInt8}
    (hmax : toks.length + (pre ++ rest).length ≤ max)
    (hfits : ∀ p, Relation.ReflTransGen (GoesOn (textRound t cap max)) (pre ++ rest, [], toks) p →
      ∀ n, TextWrite p n → n ≤ cap) :
    ∃ str toks', Relation.ReflTransGen (GoesOn (textRound t cap max)) (pre ++ rest, [], toks)
      (rest, str, toks') := by
  induction pre using List.reverseRecOn generalizing rest with
  | nil => exact ⟨[], toks, .refl⟩
  | append_singleton pre b ih =>
    rw [List.append_assoc, List.singleton_append] at hmax hfits ⊢
    obtain ⟨str, toks', hreach⟩ := ih hmax hfits
    have hcap : (codepoint str b).length + 1 ≤ cap := hfits _ hreach _ ⟨b, rest, rfl, rfl⟩
    obtain ⟨toks'', hgo, -⟩ := (atText_of_reach h hmax hreach).next h hcap
    exact ⟨_, toks'', hreach.tail hgo⟩

end rounds

/-! ## When it fits -/

section fits

variable {t : Tokenizer S} {cap max : Nat} {text : List UInt8} {toks : List Nat}

/-- Five bytes are enough for every codepoint. -/
theorem fits_of_five (h : t.Built) (hmax : toks.length + text.length ≤ max) (hcap : 5 ≤ cap)
    {p : List UInt8 × List UInt8 × List Nat}
    (hreach : Relation.ReflTransGen (GoesOn (textRound t cap max)) (text, [], toks) p) {n : Nat}
    (hn : TextWrite p n) : n ≤ cap := by
  obtain ⟨b, rest, -, rfl⟩ := hn
  have hlen := length_codepoint_le p.2.1 b
  have hpend := (atText_of_reach h hmax hreach).pending
  have hshort : p.2.1.length < 4 := by
    by_cases hnil : p.2.1 = []
    · rw [hnil]
      decide
    · exact (hpend hnil).2
  change (codepoint p.2.1 b).length + 1 ≤ cap
  omega

/-- Three bytes are enough as long as no codepoint has three. -/
theorem fits_of_three (h : t.Built) (hmax : toks.length + text.length ≤ max) (hcap : 3 ≤ cap)
    (hshort : ¬ LongCodepoint text) {p : List UInt8 × List UInt8 × List Nat}
    (hreach : Relation.ReflTransGen (GoesOn (textRound t cap max)) (text, [], toks) p) {n : Nat}
    (hn : TextWrite p n) : n ≤ cap := by
  obtain ⟨b, rest, hbytes, rfl⟩ := hn
  have hat := atText_of_reach h hmax hreach
  change (codepoint p.2.1 b).length + 1 ≤ cap
  by_contra hfull
  apply hshort
  obtain ⟨pre, hpre⟩ := hat.split
  have hb : isContinuation b = true := by
    by_contra hb
    rw [codepoint, if_neg hb] at hfull
    simp only [List.nil_append, List.length_singleton] at hfull
    omega
  rw [codepoint, if_pos hb, List.length_append, List.length_singleton] at hfull
  -- the last two bytes of the codepoint so far
  obtain ⟨front, c, hstr⟩ := (List.eq_nil_or_concat' p.2.1).resolve_left fun hnil => by
    rw [hnil, List.length_nil] at hfull
    omega
  obtain ⟨front', x, hfront⟩ := (List.eq_nil_or_concat' front).resolve_left fun hnil => by
    rw [hstr, hnil] at hfull
    simp only [List.nil_append, List.length_singleton] at hfull
    omega
  have hc : isContinuation c = true := by
    apply hat.tail
    rw [hstr, hfront]
    cases front' <;> simp
  refine ⟨pre ++ front', x, c, b, rest, ?_, hc, hb⟩
  rw [hpre, hbytes, hstr, hfront]
  simp

/-- Three bytes are not enough for a codepoint of three. -/
theorem not_fits_of_long (h : t.Built) (hmax : toks.length + text.length ≤ max) (hcap : cap < 4)
    (hlong : LongCodepoint text) : ¬ ∀ p,
      Relation.ReflTransGen (GoesOn (textRound t cap max)) (text, [], toks) p →
        ∀ n, TextWrite p n → n ≤ cap := by
  intro hfits
  obtain ⟨pre, x, c, d, post, rfl, hc, hd⟩ := hlong
  have hstep : ∀ {b : UInt8} {rest str : List UInt8} {toks' : List Nat},
      Relation.ReflTransGen (GoesOn (textRound t cap max)) (pre ++ x :: c :: d :: post, [], toks)
        (b :: rest, str, toks') → isContinuation (rest.headD 0) = true →
      ∃ toks'', Relation.ReflTransGen (GoesOn (textRound t cap max))
        (pre ++ x :: c :: d :: post, [], toks) (rest, codepoint str b, toks'') := by
    intro b rest str toks' hreach hnext
    have hfit : (codepoint str b).length + 1 ≤ cap := hfits _ hreach _ ⟨b, rest, rfl, rfl⟩
    obtain ⟨toks'', hgo, -⟩ := (atText_of_reach h hmax hreach).next h hfit
    rw [if_pos ⟨hnext, by omega⟩] at hgo
    exact ⟨toks'', hreach.tail hgo⟩
  obtain ⟨str, toks', hreach⟩ := reach_of_fits h hmax hfits
  obtain ⟨toks₁, hreach₁⟩ := hstep hreach hc
  obtain ⟨toks₂, hreach₂⟩ := hstep hreach₁ hd
  have hfit := hfits _ hreach₂ _ ⟨d, post, rfl, rfl⟩
  have hpos := codepoint_pos str x
  simp only [codepoint, if_pos hd, if_pos hc, List.length_append, List.length_singleton] at hfit hpos
  omega

end fits

theorem startTokens_spec {t : Tokenizer S} (h : t.Built) {max : Nat} {text : List UInt8} (bos : Bool)
    (hmax : text.length + 2 ≤ max) : ∃ toks, startTokens t max text bos = some toks ∧
      toks.length ≤ 2 ∧ (text = [] → toks.length ≤ 1) := by
  obtain ⟨toks, htoks, hlen⟩ : ∃ toks, (if bos then push max [] 1 else some []) = some toks ∧
      toks.length ≤ 1 := by
    cases bos
    · exact ⟨[], rfl, Nat.zero_le _⟩
    · exact ⟨[1], push_eq 1 (by simp only [List.length_nil]; omega), Nat.le_refl _⟩
  rw [startTokens, htoks, Option.bind_some, dummyPrefix]
  by_cases htext : text = []
  · exact ⟨toks, if_pos htext, by omega, fun _ => hlen⟩
  rw [if_neg htext]
  simp only [h.tokLookup_eq, Option.bind_eq_bind, Option.bind_some]
  cases t.find ⟨[32], by decide⟩ with
  | none => exact ⟨toks, rfl, by omega, fun hno => absurd hno htext⟩
  | some id =>
    refine ⟨toks ++ [id], push_eq id (by omega), ?_, fun hno => absurd hno htext⟩
    rw [List.length_append, List.length_singleton]
    omega

/-- In `llm.c` everything lies in the buffer exactly if there is no text, or there is a buffer and
    it has five bytes, or three and no codepoint of the text has as many. -/
theorem encodeInBuffer_iff {t : Tokenizer S} (h : t.Built) (gt : S → S → Bool) (floor : S)
    (pick : Pick) (heap : Arena) {max : Nat} {text : List UInt8} (bos : Bool)
    (hmax : text.length + 2 ≤ max) : EncodeInBuffer t gt floor max pick heap text bos ↔
      text = [] ∨ ((heap.alloc pick t.printSize).1 ≠ 0 ∧
        (5 ≤ t.printSize ∨ (t.printSize = 3 ∧ ¬ LongCodepoint text))) := by
  obtain ⟨toks, htoks, hlen, hone⟩ := startTokens_spec h bos hmax
  have hroom : toks.length + text.length ≤ max := by omega
  have honly : EncodeInBuffer t gt floor max pick heap text bos ↔
      InBuffer t gt floor (bufferSize t pick heap) (textRound t (bufferSize t pick heap) max)
        (text, [], toks) TextWrite := by
    refine ⟨fun hall => hall toks htoks, fun hin toks' htoks' => ?_⟩
    rw [htoks] at htoks'
    rwa [← Option.some.inj htoks']
  rw [honly]
  by_cases htext : text = []
  · -- nothing is looked up, and there is at most one token
    subst htext
    have hstart : ∀ p, Relation.ReflTransGen
        (GoesOn (textRound t (bufferSize t pick heap) max)) ([], [], toks) p → p = ([], [], toks) := by
      intro p hreach
      rcases hreach.cases_head with heq | ⟨q, hgo, -⟩
      · exact heq.symm
      · cases hgo
    refine iff_of_true ⟨?_, ?_⟩ (.inl rfl)
    · intro p hreach n hn
      obtain ⟨b, rest, hbytes, -⟩ := hn
      rw [hstart p hreach] at hbytes
      cases hbytes
    · intro p toks₁ hreach hdone toks₂ hmerges n hn
      rw [hstart p hreach] at hdone
      have heq : LoopStep.done toks = LoopStep.done toks₁ := Option.some.inj hdone
      have hle := length_le_of_merges hmerges
      rw [← LoopStep.done.inj heq] at hle
      have := hn.two_le
      have := hone rfl
      omega
  obtain ⟨b, rest, rfl⟩ := List.exists_cons_of_ne_nil htext
  have hfirst : ∃ n, 2 ≤ n ∧ TextWrite (b :: rest, [], toks) n := by
    have hpos := codepoint_pos [] b
    exact ⟨(codepoint [] b).length + 1, by omega, b, rest, rfl, rfl⟩
  obtain ⟨n, hn, hwrite⟩ := hfirst
  by_cases hgrant : (heap.alloc pick t.printSize).1 = 0
  · -- the first byte goes to the null pointer
    rw [bufferSize, if_pos hgrant]
    refine iff_of_false (fun hin => ?_) ?_
    · have := hin.text _ .refl n hwrite
      omega
    · rintro (hno | ⟨hno, -⟩)
      · exact htext hno
      · exact hno hgrant
  rw [bufferSize, if_neg hgrant, inBuffer_iff (Nat.le_refl _)]
  have hodd : t.printSize = 1 ∨ t.printSize = 3 ∨ 5 ≤ t.printSize := by
    unfold Tokenizer.printSize
    omega
  constructor
  · intro hfits
    have hle := hfits _ .refl n hwrite
    rcases hodd with hsize | hsize | hsize
    · omega
    · refine .inr ⟨hgrant, .inr ⟨hsize, fun hlong => ?_⟩⟩
      exact not_fits_of_long h hroom (by omega) hlong hfits
    · exact .inr ⟨hgrant, .inl hsize⟩
  · rintro (hno | ⟨-, hsize | ⟨hsize, hshort⟩⟩)
    · exact absurd hno htext
    · exact fun p hreach m hm => fits_of_five h hroom hsize hreach hm
    · exact fun p hreach m hm => fits_of_three h hroom (Nat.le_of_eq hsize.symm) hshort hreach hm

end ChocoOs.Llama
