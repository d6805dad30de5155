import ChocoOs.Heap.Malloc
import ChocoOs.Lib.Arena
import ChocoOs.Tok.Index

/-!
# Merging tokens

Both engines end `encode` with the same loop: as long as two neighbours make up a vocabulary
string, the pair with the best score becomes one token. Scores are 32-bit floats; all that is used
of them is the comparison `gt`, which may be any relation.
-/

namespace ChocoOs.Tok
open ProgLib

/-- What `encode` reads of a `Tokenizer` (`llm.c:262-270`, `qwen.c:93-102`). The number of strings
    is `vocab_size`. -/
structure Tokenizer (S : Type) where
  vocab : List CString
  scores : List S
  sorted : Nat → TokenIndex
  maxTokenLength : Nat

/-- What `build_tokenizer` leaves behind: the sorted index, for which the heap had 16 bytes an
    entry, and a `max_token_length` that is an `unsigned int`. -/
structure Tokenizer.Built {S : Type} (t : Tokenizer S) : Prop where
  index : IsIndex t.vocab t.sorted
  index_size : t.vocab.length * 16 ≤ Heap.heapMax
  scores_length : t.scores.length = t.vocab.length
  max_lt : t.maxTokenLength < 2 ^ 32

/-- The tokenizer of a vocabulary, with the index that `tok_sort` makes (`llm.c:316-322`,
    `qwen.c:285-291`). -/
def Tokenizer.build {S : Type} (vocab : List CString) (scores : List S) (max : Nat) :
    Tokenizer S where
  vocab := vocab
  scores := scores
  sorted := (tokSort vocab.length (vocabIndex vocab)).getD (vocabIndex vocab)
  maxTokenLength := max

theorem Tokenizer.built_build {S : Type} {vocab : List CString} {scores : List S} {max : Nat}
    (hsize : vocab.length * 16 ≤ Heap.heapMax) (hscores : scores.length = vocab.length)
    (hmax : max < 2 ^ 32) : (Tokenizer.build vocab scores max).Built := by
  refine ⟨?_, hsize, hscores, hmax⟩
  have hmaxv : Heap.heapMax = 805306368 := by decide
  obtain ⟨g, hg, -⟩ := tokSort_eq (vocabIndex vocab) (n := vocab.length) (by omega)
  unfold IsIndex Tokenizer.build
  simp only [hg, Option.getD_some]

/-- The bytes and a NUL are written to a buffer of `cap` bytes, which holds a C string then. -/
def putBuffer (cap : Nat) (bs : List UInt8) : Option CString :=
  if bs.length + 1 ≤ cap then some (.ofBytes bs) else none

/-- `tokens[(*n_tokens)++] = id` in an array of `max` entries. -/
def push (max : Nat) (toks : List Nat) (id : Nat) : Option (List Nat) :=
  if toks.length < max then some (toks ++ [id]) else none

theorem putBuffer_eq {cap : Nat} {bs : List UInt8} (hcap : bs.length + 1 ≤ cap) (h : 0 ∉ bs) :
    putBuffer cap bs = some ⟨bs, h⟩ := by
  rw [putBuffer, if_pos hcap, CString.ofBytes_eq h]

section merge

variable {S : Type} (t : Tokenizer S) (gt : S → S → Bool) (floor : S) (cap : Nat)

/-- `t->max_token_length * 2 + 3` as an `unsigned int`. It is odd, so not 0. -/
def Tokenizer.printSize : Nat := (t.maxTokenLength * 2 + 3) % 2 ^ 32

/-- `snprintf(str_buffer, t->max_token_length * 2 + 3, "%s%s", …)` into a buffer of `cap` bytes. -/
def printPair (a b : CString) : Option CString :=
  let s := (a.append b).take (t.printSize - 1)
  if s.length + 1 ≤ cap then some s else none

/-- The loop that looks for the best pair, from the pair `i` on (`llm.c:393-404`,
    `qwen.c:548-559`). -/
def scan : Nat → S → Option (Nat × Nat) → List Nat → Option (Option (Nat × Nat))
  | i, score, best, x :: y :: rest => do
    let a ← t.vocab[x]?
    let b ← t.vocab[y]?
    let str ← printPair t cap a b
    match ← tokLookup str t.sorted t.vocab.length with
    | none => scan (i + 1) score best (y :: rest)
    | some id => do
      let sc ← t.scores[id]?
      if gt sc score then scan (i + 1) sc (some (i, id)) (y :: rest)
      else scan (i + 1) score best (y :: rest)
  | _, _, best, _ => some best

/-- One round of the merge loop (`llm.c:387-413`, `qwen.c:542-568`). -/
def mergeRound (toks : List Nat) : Option (LoopStep (List Nat) (List Nat)) :=
  (scan t gt cap 0 floor none toks).map fun
    | none => .done toks
    | some (idx, id) => .next ((toks.set idx id).eraseIdx (idx + 1))

def mergeAll (toks : List Nat) : Option (List Nat) :=
  loop (mergeRound t gt floor cap) (toks.length + 1) toks

/-! ## What the loop chooses -/

/-- The string of a token. -/
def Tokenizer.str (x : Nat) : CString := t.vocab.getD x CString.nil

/-- The id that `tok_lookup` finds. -/
def Tokenizer.find (s : CString) : Option Nat :=
  (tokLookup s t.sorted t.vocab.length).getD none

/-- What a pair can become, with its score. -/
def Tokenizer.candidate (x y : Nat) : Option (Nat × S) :=
  (t.find (((t.str x).append (t.str y)).take (t.printSize - 1))).bind fun id =>
    t.scores[id]?.map fun sc => (id, sc)

/-- The candidates of the neighbours. -/
def Tokenizer.candidates : List Nat → List (Option (Nat × S))
  | x :: y :: rest => t.candidate x y :: Tokenizer.candidates (y :: rest)
  | _ => []

/-- The first candidate with the best score above `score`, if there is one. -/
def bestOf : Nat → S → Option (Nat × Nat) → List (Option (Nat × S)) → Option (Nat × Nat)
  | _, _, best, [] => best
  | i, score, best, none :: cs => bestOf (i + 1) score best cs
  | i, score, best, some (id, sc) :: cs =>
    if gt sc score then bestOf (i + 1) sc (some (i, id)) cs else bestOf (i + 1) score best cs

def Tokenizer.bestPair (toks : List Nat) : Option (Nat × Nat) :=
  bestOf gt 0 floor none (t.candidates toks)

variable {t}

theorem Tokenizer.Built.length_le (h : t.Built) : t.vocab.length ≤ 2 ^ 30 := by
  have := h.index_size
  have hmax : Heap.heapMax = 805306368 := by decide
  omega

theorem Tokenizer.Built.tokLookup_eq (h : t.Built) (s : CString) :
    tokLookup s t.sorted t.vocab.length = some (t.find s) := by
  obtain ⟨r, hr, -⟩ := h.index.lookup h.length_le s
  rw [Tokenizer.find, hr]
  rfl

/-- A found id is an id of the string. -/
theorem Tokenizer.Built.find_some (h : t.Built) {s : CString} {id : Nat} (hs : t.find s = some id) :
    id < t.vocab.length ∧ t.str id = s := by
  obtain ⟨r, hr, hcases⟩ := h.index.lookup h.length_le s
  rw [h.tokLookup_eq, hs] at hr
  rcases hcases with ⟨hnone, -⟩ | ⟨id', hsome, hget⟩
  · rw [hnone] at hr
    cases hr
  · rw [hsome] at hr
    cases hr
    obtain ⟨hlt, hstr⟩ := List.getElem?_eq_some_iff.mp hget
    refine ⟨hlt, ?_⟩
    rw [Tokenizer.str, List.getD_eq_getElem?_getD, hget]
    rfl

theorem Tokenizer.Built.find_eq_none (h : t.Built) {s : CString} :
    t.find s = none ↔ s ∉ t.vocab := by
  obtain ⟨r, hr, hcases⟩ := h.index.lookup h.length_le s
  rw [h.tokLookup_eq] at hr
  cases hr
  rcases hcases with ⟨hnone, hmem⟩ | ⟨id, hsome, hget⟩
  · exact iff_of_true hnone hmem
  · rw [hsome]
    exact iff_of_false (by simp) fun hmem => hmem (List.mem_of_getElem? hget)

/-- Every token is an id of the vocabulary. -/
def Tokenizer.Valid (t : Tokenizer S) (toks : List Nat) : Prop := ∀ x ∈ toks, x < t.vocab.length

theorem Tokenizer.vocab_getElem? {x : Nat} (hx : x < t.vocab.length) :
    t.vocab[x]? = some (t.str x) := by
  rw [Tokenizer.str, List.getD_eq_getElem?_getD, List.getElem?_eq_getElem hx]
  rfl

/-- `snprintf` cuts no pair of vocabulary strings. -/
def Tokenizer.PairsFit (t : Tokenizer S) : Prop :=
  ∀ a ∈ t.vocab, ∀ b ∈ t.vocab, a.length + b.length < t.printSize

/-- As long as the size of the buffer does not wrap, no pair is cut. -/
theorem Tokenizer.pairsFit (hlen : ∀ s ∈ t.vocab, s.length ≤ t.maxTokenLength)
    (hsize : t.maxTokenLength * 2 + 3 < 2 ^ 32) : t.PairsFit := by
  intro a ha b hb
  have ham := hlen a ha
  have hbm := hlen b hb
  rw [Tokenizer.printSize, Nat.mod_eq_of_lt hsize]
  omega

theorem pair_take (hfit : t.PairsFit) {x y : Nat} (hx : x < t.vocab.length)
    (hy : y < t.vocab.length) : ((t.str x).append (t.str y)).take (t.printSize - 1) =
      (t.str x).append (t.str y) := by
  have hsum := hfit _ (List.mem_of_getElem? (Tokenizer.vocab_getElem? hx)) _
    (List.mem_of_getElem? (Tokenizer.vocab_getElem? hy))
  refine CString.take_of_length_le ?_
  rw [CString.length_append]
  omega

/-- With room for the text of a pair the scan chooses by the candidates. -/
theorem scan_eq (h : t.Built) (hcap : t.printSize ≤ cap) {toks : List Nat} (hv : t.Valid toks) :
    ∀ (i : Nat) (score : S) (best : Option (Nat × Nat)),
      scan t gt cap i score best toks = some (bestOf gt i score best (t.candidates toks)) := by
  induction toks with
  | nil => intro i score best; rfl
  | cons x toks ih =>
    cases toks with
    | nil => intro i score best; rfl
    | cons y rest =>
      intro i score best
      have ih := ih fun z hz => hv z (List.mem_cons_of_mem _ hz)
      have hprint : printPair t cap (t.str x) (t.str y) =
          some (((t.str x).append (t.str y)).take (t.printSize - 1)) := by
        refine if_pos ?_
        have hlen : (((t.str x).append (t.str y)).take (t.printSize - 1)).length ≤
            t.printSize - 1 := by
          rw [CString.length, CString.take, List.length_take]
          exact Nat.min_le_left ..
        have hodd : 0 < t.printSize := by
          unfold Tokenizer.printSize
          omega
        omega
      rw [scan, Tokenizer.vocab_getElem? (hv x (by simp)), Tokenizer.vocab_getElem? (hv y (by simp))]
      simp only [Option.bind_eq_bind, Option.bind_some, hprint, h.tokLookup_eq,
        Tokenizer.candidates, Tokenizer.candidate]
      cases hfind : t.find (((t.str x).append (t.str y)).take (t.printSize - 1)) with
      | none => exact ih (i + 1) score best
      | some id =>
        have hid := (h.find_some hfind).1
        rw [← h.scores_length] at hid
        simp only [List.getElem?_eq_getElem hid, Option.bind_some, Option.map_some, bestOf]
        split
        · exact ih _ _ _
        · exact ih _ _ _

theorem mergeRound_eq (h : t.Built) (hcap : t.printSize ≤ cap) {toks : List Nat}
    (hv : t.Valid toks) : mergeRound t gt floor cap toks = some (match t.bestPair gt floor toks with
      | none => .done toks
      | some (idx, id) => .next ((toks.set idx id).eraseIdx (idx + 1))) := by
  rw [mergeRound, scan_eq gt cap h hcap hv, Option.map_some, Tokenizer.bestPair]

theorem bestOf_eq_some {gt : S → S → Bool} {cs : List (Option (Nat × S))} {k id : Nat} :
    ∀ {i : Nat} {score : S} {best : Option (Nat × Nat)},
      bestOf gt i score best cs = some (k, id) →
      best = some (k, id) ∨ ∃ j sc, k = i + j ∧ cs[j]? = some (some (id, sc)) := by
  induction cs with
  | nil => intro i score best h; exact .inl h
  | cons c cs ih =>
    intro i score best h
    have hlater : ∀ {score best}, bestOf gt (i + 1) score best cs = some (k, id) →
        best = some (k, id) ∨ ∃ j sc, k = i + j ∧ (c :: cs)[j]? = some (some (id, sc)) := by
      intro score best h
      rcases ih h with h | ⟨j, sc, hk, hj⟩
      · exact .inl h
      · exact .inr ⟨j + 1, sc, by omega, hj⟩
    cases c with
    | none => exact hlater h
    | some p =>
      obtain ⟨id', sc⟩ := p
      rw [bestOf] at h
      split at h
      · rcases hlater h with h | h
        · cases h
          exact .inr ⟨0, sc, rfl, rfl⟩
        · exact .inr h
      · exact hlater h

theorem bestOf_ne_none {gt : S → S → Bool} {cs : List (Option (Nat × S))} :
    ∀ {i : Nat} {score : S} {b : Nat × Nat}, bestOf gt i score (some b) cs ≠ none := by
  induction cs with
  | nil => intro i score b h; cases h
  | cons c cs ih =>
    intro i score b
    cases c with
    | none => exact ih
    | some p =>
      rw [bestOf]
      split <;> exact ih

/-- If no pair is chosen then no candidate has a score above the floor. -/
theorem bestOf_eq_none {gt : S → S → Bool} {cs : List (Option (Nat × S))} :
    ∀ {i : Nat} {score : S}, bestOf gt i score none cs = none →
      ∀ id sc, some (id, sc) ∈ cs → gt sc score = false := by
  induction cs with
  | nil => intro i score _ id sc hmem; cases hmem
  | cons c cs ih =>
    intro i score h id sc hmem
    cases c with
    | none =>
      rcases List.mem_cons.mp hmem with he | hmem
      · cases he
      · exact ih h id sc hmem
    | some p =>
      obtain ⟨id', sc'⟩ := p
      rw [bestOf] at h
      by_cases hgt : gt sc' score = true
      · rw [if_pos hgt] at h
        exact absurd h bestOf_ne_none
      · rw [if_neg hgt] at h
        rcases List.mem_cons.mp hmem with he | hmem
        · cases he
          exact (Bool.not_eq_true _).mp hgt
        · exact ih h id sc hmem

/-- The `j`-th candidate `id` is the best one, where a smaller `m` is better, and none before it is
    as good. -/
def Leads (m : Nat → Nat) (cs : List (Option (Nat × S))) (j id : Nat) : Prop :=
  ∀ (j' id' : Nat) (sc' : S), cs[j']? = some (some (id', sc')) →
    m id < m id' ∨ (m id = m id' ∧ j ≤ j')

theorem Leads.cons {m : Nat → Nat} {cs : List (Option (Nat × S))} {c : Option (Nat × S)}
    {j id : Nat} (h : Leads m cs j id) (hc : ∀ id' sc', c = some (id', sc') → m id < m id') :
    Leads m (c :: cs) (j + 1) id := by
  intro j' id' sc' hj'
  cases j' with
  | zero => exact .inl (hc id' sc' (Option.some.inj hj'))
  | succ j' => exact (h j' id' sc' hj').imp_right fun ⟨he, hle⟩ => ⟨he, Nat.succ_le_succ hle⟩

theorem Leads.head {m : Nat → Nat} {cs : List (Option (Nat × S))} {id : Nat} {sc : S}
    (h : ∀ id' sc', some (id', sc') ∈ cs → m id ≤ m id') : Leads m (some (id, sc) :: cs) 0 id := by
  intro j' id' sc' hj'
  cases j' with
  | zero =>
    cases hj'
    exact .inr ⟨rfl, Nat.le_refl _⟩
  | succ j' =>
    have hle := h id' sc' (List.mem_of_getElem? hj')
    omega

/-- `gt` orders the scores of the candidates as `m` orders their ids. -/
def Ordered (gt : S → S → Bool) (m : Nat → Nat) (cs : List (Option (Nat × S))) : Prop :=
  ∀ id sc, some (id, sc) ∈ cs → ∀ id' sc', some (id', sc') ∈ cs → (gt sc sc' = true ↔ m id < m id')

/-- The scan keeps the best pair, or finds the first of those that are better. -/
theorem bestOf_improve {gt : S → S → Bool} {m : Nat → Nat} {cs : List (Option (Nat × S))}
    {k id i k₀ id₀ : Nat} {score : S} (hord : Ordered gt m (some (id₀, score) :: cs))
    (h : bestOf gt i score (some (k₀, id₀)) cs = some (k, id)) :
    (k₀ = k ∧ id₀ = id ∧ ∀ id' sc', some (id', sc') ∈ cs → m id₀ ≤ m id') ∨
      ∃ j sc, k = i + j ∧ cs[j]? = some (some (id, sc)) ∧ m id < m id₀ ∧ Leads m cs j id := by
  induction cs generalizing i score k₀ id₀ with
  | nil =>
    cases h
    exact .inl ⟨rfl, rfl, fun id' sc' hmem => by cases hmem⟩
  | cons c cs ih =>
    -- the scan passes over `c`
    have hskip : (∀ id' sc', c = some (id', sc') → m id₀ ≤ m id') →
        bestOf gt (i + 1) score (some (k₀, id₀)) cs = some (k, id) →
        (k₀ = k ∧ id₀ = id ∧ ∀ id' sc', some (id', sc') ∈ c :: cs → m id₀ ≤ m id') ∨
          ∃ j sc, k = i + j ∧ (c :: cs)[j]? = some (some (id, sc)) ∧ m id < m id₀ ∧
            Leads m (c :: cs) j id := by
      intro hc hrun
      have hlater : Ordered gt m (some (id₀, score) :: cs) := fun id sc hmem id' sc' hmem' =>
        hord id sc (by simp at hmem ⊢; tauto) id' sc' (by simp at hmem' ⊢; tauto)
      rcases ih hlater hrun with ⟨hk, hid, hall⟩ | ⟨j, sc, hk, hj, hlt, hlead⟩
      · refine .inl ⟨hk, hid, fun id' sc' hmem => ?_⟩
        rcases List.mem_cons.mp hmem with he | hmem
        · exact hc id' sc' he.symm
        · exact hall id' sc' hmem
      · exact .inr ⟨j + 1, sc, by omega, hj, hlt,
          hlead.cons fun id' sc' he => Nat.lt_of_lt_of_le hlt (hc id' sc' he)⟩
    cases c with
    | none => exact hskip nofun h
    | some p =>
      obtain ⟨id₁, sc₁⟩ := p
      have hgt := hord id₁ sc₁ (by simp) id₀ score (by simp)
      rw [bestOf] at h
      by_cases hbetter : gt sc₁ score = true
      · rw [if_pos hbetter] at h
        have hlt := hgt.mp hbetter
        have hlater : Ordered gt m (some (id₁, sc₁) :: cs) := fun id sc hmem id' sc' hmem' =>
          hord id sc (List.mem_cons_of_mem _ hmem) id' sc' (List.mem_cons_of_mem _ hmem')
        rcases ih hlater h with ⟨hk, hid, hall⟩ | ⟨j, sc, hk, hj, hlt', hlead⟩
        · subst hid
          exact .inr ⟨0, sc₁, hk.symm, rfl, hlt, .head hall⟩
        · exact .inr ⟨j + 1, sc, by omega, hj, Nat.lt_trans hlt' hlt,
            hlead.cons fun id' sc' he => by cases he; exact hlt'⟩
      · rw [if_neg hbetter] at h
        refine hskip (fun id' sc' he => ?_) h
        cases he
        exact Nat.le_of_not_lt fun hlt => hbetter (hgt.mpr hlt)

/-- The first of the best candidates is chosen. -/
theorem bestOf_first {gt : S → S → Bool} {m : Nat → Nat} {cs : List (Option (Nat × S))}
    {k id i : Nat} {floor : S} (hfloor : ∀ id sc, some (id, sc) ∈ cs → gt sc floor = true)
    (hord : Ordered gt m cs) (h : bestOf gt i floor none cs = some (k, id)) :
    ∃ j sc, k = i + j ∧ cs[j]? = some (some (id, sc)) ∧ Leads m cs j id := by
  induction cs generalizing i with
  | nil => cases h
  | cons c cs ih =>
    cases c with
    | none =>
      obtain ⟨j, sc, hk, hj, hlead⟩ := ih
        (fun id sc hmem => hfloor id sc (List.mem_cons_of_mem _ hmem))
        (fun id sc hmem id' sc' hmem' =>
          hord id sc (List.mem_cons_of_mem _ hmem) id' sc' (List.mem_cons_of_mem _ hmem')) h
      exact ⟨j + 1, sc, by omega, hj, hlead.cons nofun⟩
    | some p =>
      obtain ⟨id₁, sc₁⟩ := p
      rw [bestOf, if_pos (hfloor id₁ sc₁ (List.mem_cons_self ..))] at h
      rcases bestOf_improve hord h with ⟨hk, hid, hall⟩ | ⟨j, sc, hk, hj, hlt, hlead⟩
      · subst hid
        exact ⟨0, sc₁, hk.symm, rfl, .head hall⟩
      · exact ⟨j + 1, sc, by omega, hj, hlead.cons fun id' sc' he => by cases he; exact hlt⟩

/-- A candidate belongs to two neighbours. -/
theorem candidates_getElem? {toks : List Nat} : ∀ {j : Nat} {c : Option (Nat × S)},
    (t.candidates toks)[j]? = some c →
      ∃ pre x y post, toks = pre ++ x :: y :: post ∧ pre.length = j ∧ c = t.candidate x y := by
  induction toks with
  | nil => intro j c h; cases h
  | cons x toks ih =>
    cases toks with
    | nil => intro j c h; cases h
    | cons y rest =>
      intro j c h
      cases j with
      | zero => exact ⟨[], x, y, rest, rfl, rfl, (Option.some.inj h).symm⟩
      | succ j =>
        obtain ⟨pre, a, b, post, he, hlen, hc⟩ := ih h
        exact ⟨x :: pre, a, b, post, by rw [he]; rfl, by rw [List.length_cons, hlen], hc⟩

theorem candidates_append (pre : List Nat) (x y : Nat) (post : List Nat) :
    (t.candidates (pre ++ x :: y :: post))[pre.length]? = some (t.candidate x y) := by
  induction pre with
  | nil => rfl
  | cons a pre ih =>
    cases pre with
    | nil => exact ih
    | cons b pre => exact ih

theorem candidate_mem (pre : List Nat) (x y : Nat) (post : List Nat) :
    t.candidate x y ∈ t.candidates (pre ++ x :: y :: post) :=
  List.mem_of_getElem? (candidates_append pre x y post)

/-- A candidate has the score of its id. -/
theorem score_of_mem {toks : List Nat} {id : Nat} {sc : S}
    (h : some (id, sc) ∈ t.candidates toks) : t.scores[id]? = some sc := by
  obtain ⟨j, hj⟩ := List.mem_iff_getElem?.mp h
  obtain ⟨-, x, y, -, -, -, hc⟩ := candidates_getElem? hj
  obtain ⟨id', -, hsc⟩ := Option.bind_eq_some_iff.mp hc.symm
  obtain ⟨sc', hget, hp⟩ := Option.map_eq_some_iff.mp hsc
  cases hp
  exact hget

/-- The chosen pair. -/
theorem bestPair_eq_some {gt : S → S → Bool} {floor : S} {toks : List Nat} {idx id : Nat}
    (h : t.bestPair gt floor toks = some (idx, id)) :
    ∃ pre x y post, toks = pre ++ x :: y :: post ∧ pre.length = idx ∧
      t.find (((t.str x).append (t.str y)).take (t.printSize - 1)) = some id := by
  rcases bestOf_eq_some h with h | ⟨j, sc, hk, hj⟩
  · cases h
  · obtain ⟨pre, x, y, post, he, hlen, hc⟩ := candidates_getElem? hj
    refine ⟨pre, x, y, post, he, by omega, ?_⟩
    obtain ⟨id', hfind, hsc⟩ := Option.bind_eq_some_iff.mp hc.symm
    obtain ⟨sc', -, hp⟩ := Option.map_eq_some_iff.mp hsc
    cases hp
    exact hfind

/-- A smaller `m` is a better score, and all scores are above the floor. -/
structure Tokenizer.RankedBy (t : Tokenizer S) (gt : S → S → Bool) (floor : S) (m : Nat → Nat) :
    Prop where
  floor : ∀ sc ∈ t.scores, gt sc floor = true
  gt_iff : ∀ id id' sc sc', t.scores[id]? = some sc → t.scores[id']? = some sc' →
    (gt sc sc' = true ↔ m id < m id')

/-- The leftmost pair with the best score is chosen. -/
theorem bestPair_first {gt : S → S → Bool} {floor : S} {m : Nat → Nat} (hm : t.RankedBy gt floor m)
    {pre : List Nat} {x y : Nat} {post : List Nat} {id : Nat}
    (h : t.bestPair gt floor (pre ++ x :: y :: post) = some (pre.length, id)) :
    (∃ sc, t.candidate x y = some (id, sc)) ∧ ∀ pre' x' y' post' id' sc',
      pre ++ x :: y :: post = pre' ++ x' :: y' :: post' → t.candidate x' y' = some (id', sc') →
        m id < m id' ∨ (m id = m id' ∧ pre.length ≤ pre'.length) := by
  obtain ⟨j, sc, hk, hj, hlead⟩ := bestOf_first
    (fun _ sc hmem => hm.floor sc (List.mem_of_getElem? (score_of_mem hmem)))
    (fun id sc hmem id' sc' hmem' =>
      hm.gt_iff id id' sc sc' (score_of_mem hmem) (score_of_mem hmem')) h
  rw [Nat.zero_add] at hk
  subst hk
  rw [candidates_append] at hj
  refine ⟨⟨sc, Option.some.inj hj⟩, fun pre' x' y' post' id' sc' he hc => ?_⟩
  have hat := candidates_append (t := t) pre' x' y' post'
  rw [← he, hc] at hat
  exact hlead pre'.length id' sc' hat

/-- Two neighbours become one token. -/
theorem set_eraseIdx (pre : List Nat) (x y : Nat) (post : List Nat) (id : Nat) :
    ((pre ++ x :: y :: post).set pre.length id).eraseIdx (pre.length + 1) = pre ++ id :: post := by
  rw [List.set_append_right _ _ (Nat.le_refl _), Nat.sub_self, List.set_cons_zero,
    List.eraseIdx_append_of_length_le (Nat.le_succ _), Nat.succ_sub (Nat.le_refl _), Nat.sub_self]
  rfl

/-- The merge loop ends. What every merge keeps holds of its result, and no pair is left. -/
theorem mergeAll_spec (h : t.Built) (hcap : t.printSize ≤ cap) {P : List Nat → Prop}
    (hstep : ∀ pre x y post id, t.Valid (pre ++ x :: y :: post) → P (pre ++ x :: y :: post) →
      t.bestPair gt floor (pre ++ x :: y :: post) = some (pre.length, id) →
      t.find (((t.str x).append (t.str y)).take (t.printSize - 1)) = some id → P (pre ++ id :: post))
    {toks : List Nat} (hv : t.Valid toks) (hP : P toks) :
    ∃ toks', mergeAll t gt floor cap toks = some toks' ∧ P toks' ∧ t.Valid toks' ∧
      toks'.length ≤ toks.length ∧ t.bestPair gt floor toks' = none := by
  refine loop_total (mergeRound t gt floor cap)
    (fun ts => t.Valid ts ∧ P ts ∧ ts.length ≤ toks.length)
    (fun ts => P ts ∧ t.Valid ts ∧ ts.length ≤ toks.length ∧ t.bestPair gt floor ts = none)
    List.length ?_ (toks.length + 1) toks ⟨hv, hP, Nat.le_refl _⟩ (Nat.lt_succ_self _)
  rintro ts ⟨hvt, hPt, hlen⟩
  rw [mergeRound_eq gt floor cap h hcap hvt]
  cases hbest : t.bestPair gt floor ts with
  | none => exact .inl ⟨ts, rfl, hPt, hvt, hlen, hbest⟩
  | some r =>
    obtain ⟨idx, id⟩ := r
    obtain ⟨pre, x, y, post, rfl, rfl, hfind⟩ := bestPair_eq_some hbest
    have hvnew : t.Valid (pre ++ id :: post) := by
      intro z hz
      rcases List.mem_append.mp hz with hz | hz
      · exact hvt z (by simp [hz])
      · rcases List.mem_cons.mp hz with rfl | hz
        · exact (h.find_some hfind).1
        · exact hvt z (by simp [hz])
    simp only [List.length_append, List.length_cons] at hlen
    refine .inr ⟨pre ++ id :: post,
      congrArg (fun ts => some (LoopStep.next ts)) (set_eraseIdx pre x y post id),
      ⟨hvnew, hstep pre x y post id hvt hPt hbest hfind, ?_⟩, ?_⟩
    all_goals
      simp only [List.length_append, List.length_cons]
      omega

/-! ## What every run keeps -/

/-- The scan only proposes ids of the vocabulary, whatever the buffer is. -/
theorem scan_valid (h : t.Built) {toks : List Nat} {i : Nat} {score : S} {best : Option (Nat × Nat)}
    (hbest : ∀ k id, best = some (k, id) → id < t.vocab.length) {k id : Nat}
    (hscan : scan t gt cap i score best toks = some (some (k, id))) : id < t.vocab.length := by
  induction toks generalizing i score best with
  | nil => exact hbest k id (Option.some.inj hscan)
  | cons x toks ih =>
    cases toks with
    | nil => exact hbest k id (Option.some.inj hscan)
    | cons y rest =>
      obtain ⟨a, -, hscan⟩ := Option.bind_eq_some_iff.mp hscan
      obtain ⟨b, -, hscan⟩ := Option.bind_eq_some_iff.mp hscan
      obtain ⟨str, -, hscan⟩ := Option.bind_eq_some_iff.mp hscan
      obtain ⟨found, hfound, hscan⟩ := Option.bind_eq_some_iff.mp hscan
      rw [h.tokLookup_eq] at hfound
      cases found with
      | none => exact ih hbest hscan
      | some new =>
        have hnew := (h.find_some (Option.some.inj hfound)).1
        obtain ⟨sc, -, hscan⟩ := Option.bind_eq_some_iff.mp hscan
        split at hscan
        · refine ih (fun k' id' heq => ?_) hscan
          obtain ⟨-, rfl⟩ := Prod.mk.inj (Option.some.inj heq)
          exact hnew
        · exact ih hbest hscan

/-- A round stops with its tokens, or goes on with the pair replaced that the scan has found. -/
theorem mergeRound_cases {toks : List Nat} {step : LoopStep (List Nat) (List Nat)}
    (h : mergeRound t gt floor cap toks = some step) : step = .done toks ∨
      ∃ k id, scan t gt cap 0 floor none toks = some (some (k, id)) ∧
        step = .next ((toks.set k id).eraseIdx (k + 1)) := by
  obtain ⟨best, hscan, rfl⟩ := Option.map_eq_some_iff.mp h
  cases best with
  | none => exact .inl rfl
  | some p => exact .inr ⟨p.1, p.2, hscan, rfl⟩

/-- Merging never makes tokens. -/
theorem length_mergeRound {toks toks' : List Nat} (h : GoesOn (mergeRound t gt floor cap) toks toks') :
    toks'.length ≤ toks.length := by
  rcases mergeRound_cases gt floor cap h with hstep | ⟨k, id, -, hstep⟩
  · cases hstep
  · cases hstep
    exact (List.length_eraseIdx_le ..).trans List.length_set.le

theorem mergeAll_valid (h : t.Built) {toks toks' : List Nat} (hv : t.Valid toks)
    (hmerge : mergeAll t gt floor cap toks = some toks') : t.Valid toks' := by
  refine @loop_preserves _ _ (mergeRound t gt floor cap) t.Valid t.Valid ?_ ?_ _ toks toks' hv hmerge
  · intro ts r hts hdone
    rcases mergeRound_cases gt floor cap hdone with hstep | ⟨k, id, -, hstep⟩
    · cases hstep
      exact hts
    · cases hstep
  · intro ts ts' hts hnext
    rcases mergeRound_cases gt floor cap hnext with hstep | ⟨k, id, hscan, hstep⟩
    · cases hstep
    · cases hstep
      have hnone : ∀ k id, (none : Option (Nat × Nat)) = some (k, id) → id < t.vocab.length := nofun
      have hid := scan_valid gt cap h hnone hscan
      intro x hx
      rcases List.mem_or_eq_of_mem_set (List.mem_of_mem_eraseIdx hx) with hx | rfl
      · exact hts x hx
      · exact hid

theorem push_valid {max id : Nat} {toks toks' : List Nat} (hv : t.Valid toks)
    (hid : id < t.vocab.length) (h : push max toks id = some toks') : t.Valid toks' := by
  unfold push at h
  split at h
  · cases h
    intro x hx
    rcases List.mem_append.mp hx with hx | hx
    · exact hv x hx
    · rw [List.mem_singleton.mp hx]
      exact hid
  · cases h

end merge

/-! ## Looking up a string -/

/-- In a vocabulary whose index of 16 bytes an entry fits in the heap, `tok_sort` makes an index in
    which `tok_lookup` finds exactly the strings of the vocabulary, each with an id of its own. -/
theorem tokLookup_exact {vocab : List CString} (h : vocab.length * 16 ≤ Heap.heapMax) :
    ∃ sorted, tokSort vocab.length (vocabIndex vocab) = some sorted ∧
      ∀ s : CString, ∃ r, tokLookup s sorted vocab.length = some r ∧ (r = none ↔ s ∉ vocab) ∧
        ∀ id, r = some id → vocab[id]? = some s := by
  have hmax : Heap.heapMax = 805306368 := by decide
  have hn : vocab.length ≤ 2 ^ 30 := by omega
  obtain ⟨sorted, hsorted, -⟩ := tokSort_eq (vocabIndex vocab) hn
  refine ⟨sorted, hsorted, fun s => ?_⟩
  have hindex : IsIndex vocab sorted := hsorted
  obtain ⟨r, hr, hcases⟩ := hindex.lookup hn s
  refine ⟨r, hr, ?_, ?_⟩
  · rcases hcases with ⟨hnone, hmem⟩ | ⟨id, hsome, hid⟩
    · exact iff_of_true hnone hmem
    · rw [hsome]
      exact iff_of_false nofun fun hmem => hmem (List.mem_of_getElem? hid)
  · intro id hid
    rcases hcases with ⟨hnone, -⟩ | ⟨id', hsome, hget⟩
    · rw [hnone] at hid
      cases hid
    · rw [hsome] at hid
      cases hid
      exact hget

/-- A vocabulary with a string twice and an empty one. -/
theorem tokLookup_exact_boot : ∃ sorted, tokSort 3 (vocabIndex [⟨[98], by decide⟩, CString.nil,
      ⟨[98], by decide⟩]) = some sorted ∧
    ∀ s : CString, ∃ r, tokLookup s sorted 3 = some r ∧
      (r = none ↔ s ∉ [⟨[98], by decide⟩, CString.nil, ⟨[98], by decide⟩]) ∧
      ∀ id, r = some id → [(⟨[98], by decide⟩ : CString), CString.nil, ⟨[98], by decide⟩][id]? =
        some s :=
  @tokLookup_exact [⟨[98], by decide⟩, CString.nil, ⟨[98], by decide⟩] (by decide)

end ChocoOs.Tok
