import Mathlib.Logic.Function.Basic

/-!
# Causal decoders and their caches

A decoder maps a sequence of tokens through layers. In each layer every position has an entry, which is
made from its own value alone; the next value of a position is made from its value and from the entries
of the positions up to it. `stream` evaluates all positions from the tokens. `pass` evaluates one
position from a cache of the entries of the earlier ones and extends the cache. If the tokens are fed one
after another, then each pass yields what `stream` does (`Cached.pass`).
-/

namespace ProgLib

/-- A decoder of tokens `T` with values `X` and entries `E`. -/
structure Decoder (T X E : Type) where
  layers : Nat
  embed : T → X
  /-- The entry of a position in a layer. -/
  entry : Nat → Nat → X → E
  /-- The next value of a position. -/
  mix : Nat → Nat → X → (Nat → E) → X
  causal : ∀ l p x e e', (∀ t ≤ p, e t = e' t) → mix l p x e = mix l p x e'

namespace Decoder

variable {T X E : Type} (D : Decoder T X E)

/-- The value of a position before a layer. -/
def stream (toks : Nat → T) : Nat → Nat → X
  | 0, p => D.embed (toks p)
  | l + 1, p => D.mix l p (stream toks l p) fun t => D.entry l t (stream toks l t)

/-- The entries of a layer. -/
def entries (toks : Nat → T) (l t : Nat) : E := D.entry l t (D.stream toks l t)

/-- A position does not depend on the tokens behind it. -/
theorem stream_congr {toks toks' : Nat → T} {p : Nat} (h : ∀ t ≤ p, toks t = toks' t) (l : Nat) :
    ∀ t ≤ p, D.stream toks l t = D.stream toks' l t := by
  induction l with
  | zero => exact fun t ht => congrArg D.embed (h t ht)
  | succ l ih =>
    intro t ht
    rw [stream, stream, ih t ht]
    apply D.causal
    intro u hu
    rw [ih u (Nat.le_trans hu ht)]

/-- The entry of a layer and a position is put into a cache. -/
def put (C : Nat → Nat → E) (l p : Nat) (e : E) : Nat → Nat → E :=
  Function.update C l (Function.update (C l) p e)

/-- The first `l` layers of a pass at position `p`: the value that they yield, and the cache. -/
def pass (p : Nat) (tok : T) (C : Nat → Nat → E) : Nat → X × (Nat → Nat → E)
  | 0 => (D.embed tok, C)
  | l + 1 =>
    let (x, C) := pass p tok C l
    let C := put C l p (D.entry l p x)
    (D.mix l p x (C l), C)

/-- The cache holds the entries of the positions before `p`, and in the layers before `l` that of `p`. -/
def Cached (toks : Nat → T) (p l : Nat) (C : Nat → Nat → E) : Prop :=
  ∀ k < D.layers, ∀ t, t < p ∨ (t = p ∧ k < l) → C k t = D.entries toks k t

variable {D} {toks : Nat → T} {p : Nat} {C : Nat → Nat → E}

theorem put_same (C : Nat → Nat → E) (l p : Nat) (e : E) : put C l p e l p = e := by
  rw [put, Function.update_self, Function.update_self]

theorem put_of_ne (C : Nat → Nat → E) {l p k t : Nat} (e : E) (h : k ≠ l ∨ t ≠ p) :
    put C l p e k t = C k t := by
  rw [put]
  by_cases hk : k = l
  · subst hk
    rw [Function.update_self, Function.update_of_ne (h.resolve_left fun h => h rfl)]
  · rw [Function.update_of_ne hk]

/-- A layer of a pass extends the cache. -/
theorem Cached.put {l : Nat} (h : D.Cached toks p l C) :
    D.Cached toks p (l + 1) (put C l p (D.entries toks l p)) := by
  intro k hk t ht
  by_cases hkt : k = l ∧ t = p
  · obtain ⟨rfl, rfl⟩ := hkt
    exact put_same C _ _ _
  · rw [put_of_ne C _ (by omega)]
    apply h k hk
    rcases ht with hlt | ⟨rfl, hlt⟩
    · exact .inl hlt
    · exact .inr ⟨rfl, by omega⟩

/-- The layers of a pass yield what the evaluation of all positions does. -/
theorem Cached.pass (h : D.Cached toks p 0 C) {l : Nat} (hl : l ≤ D.layers) :
    (D.pass p (toks p) C l).1 = D.stream toks l p ∧
      D.Cached toks p l (D.pass p (toks p) C l).2 := by
  induction l with
  | zero => exact ⟨rfl, h⟩
  | succ l ih =>
    obtain ⟨hx, hC⟩ := ih (Nat.le_of_succ_le hl)
    rw [Decoder.pass]
    simp only
    rw [hx]
    have hput := hC.put
    refine ⟨?_, hput⟩
    rw [stream]
    apply D.causal
    intro t ht
    apply hput l hl t
    rcases Nat.lt_or_eq_of_le ht with hlt | heq
    · exact .inl hlt
    · exact .inr ⟨heq, Nat.lt_succ_self l⟩

/-- After all layers the cache is ready for the next position. -/
theorem Cached.next (h : D.Cached toks p D.layers C) : D.Cached toks (p + 1) 0 C := by
  intro k hk t ht
  apply h k hk
  omega

theorem Cached.start (toks : Nat → T) (C : Nat → Nat → E) : D.Cached toks 0 0 C := by
  intro k _ t ht
  omega

end Decoder

end ProgLib
