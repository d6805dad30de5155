import ChocoOs.Lib.Word
import ChocoOs.Lib.CString
import Mathlib.Data.List.TakeDrop

/-!
# Blocks of bytes

A block is an array of bytes. `none` is an access outside of it.
-/

namespace ProgLib

abbrev Block := List UInt8

namespace Block

/-- A new block. Its bytes are what `left` was at its addresses. -/
def fresh (left : Nat → UInt8) (p len : Nat) : Block := (List.range len).map fun i => left (p + i)

/-- `memcpy` of four bytes into a number. -/
def loadWord (data : Block) (i : Nat) : Option Nat := do
  let b₀ ← data[i]?
  let b₁ ← data[i + 1]?
  let b₂ ← data[i + 2]?
  let b₃ ← data[i + 3]?
  return leNat [b₀, b₁, b₂, b₃]

/-- `block[i] = b`. -/
def store (block : Block) (i : Nat) (b : UInt8) : Option Block :=
  if i < block.length then some (block.set i b) else none

/-- `memcpy(block + dst, data + src, n)`. -/
def copyFrom (data : Block) (src : Nat) (block : Block) (dst : Nat) : Nat → Option Block
  | 0 => some block
  | n + 1 => do
    let block ← copyFrom data src block dst n
    let b ← data[src + n]?
    block.store (dst + n) b

/-- The same with a NUL behind it. -/
def putText (data : Block) (src : Nat) (block : Block) (dst n : Nat) : Option Block := do
  let block ← copyFrom data src block dst n
  block.store (dst + n) 0

/-- The string at `block + i`, if there is a NUL in the block that ends it. -/
def textAt (block : Block) (i : Nat) : Option CString :=
  if 0 ∈ block.drop i then some (.ofBytes (block.drop i)) else none

theorem length_fresh (left : Nat → UInt8) (p len : Nat) : (fresh left p len).length = len :=
  (List.length_map _).trans List.length_range

theorem loadWord_eq {data : Block} {i : Nat} (h : i + 4 ≤ data.length) :
    loadWord data i = some (leNat ((data.drop i).take 4)) := by
  have hget : ∀ k, data[i + k]? = (data.drop i)[k]? := fun k => List.getElem?_drop.symm
  have hlen : 4 ≤ (data.drop i).length := by
    rw [List.length_drop]
    omega
  have hfirst : data[i]? = (data.drop i)[0]? := hget 0
  rw [loadWord, hfirst, hget 1, hget 2, hget 3]
  generalize data.drop i = rest at hlen
  match rest, hlen with
  | _ :: _ :: _ :: _ :: _, _ => rfl

/-- Bytes are copied over those of the block. -/
theorem copyFrom_eq {data block : Block} {src dst n : Nat} (hsrc : src + n ≤ data.length)
    (hdst : dst + n ≤ block.length) : copyFrom data src block dst n =
      some (block.take dst ++ (data.drop src).take n ++ block.drop (dst + n)) := by
  induction n with
  | zero =>
    rw [copyFrom, List.take_zero, List.append_nil, Nat.add_zero, List.take_append_drop]
  | succ n ih =>
    have hin : src + n < data.length := by omega
    have hout : dst + n < block.length := by omega
    have hlen : (block.take dst ++ (data.drop src).take n).length = dst + n := by
      rw [List.length_append, List.length_take, List.length_take, List.length_drop]
      omega
    have hnext : (data.drop src).take (n + 1) = (data.drop src).take n ++ [data[src + n]] := by
      rw [List.take_add_one, List.getElem?_drop, List.getElem?_eq_getElem hin]
      rfl
    rw [copyFrom, ih (by omega) (by omega), Option.bind_eq_bind, Option.bind_some,
      List.getElem?_eq_getElem hin, Option.bind_eq_bind, Option.bind_some, store, if_pos]
    · rw [List.set_append_right _ _ (by omega), hlen, Nat.sub_self, List.drop_eq_getElem_cons hout,
        List.set_cons_zero, hnext, List.append_assoc, List.append_assoc, List.append_assoc]
      rfl
    · rw [List.length_append, hlen, List.length_drop]
      omega

theorem putText_eq {data block : Block} {src dst n : Nat} (hsrc : src + n ≤ data.length)
    (hdst : dst + n < block.length) : putText data src block dst n =
      some (block.take dst ++ ((data.drop src).take n ++ 0 :: block.drop (dst + n + 1))) := by
  have hlen : (block.take dst ++ (data.drop src).take n).length = dst + n := by
    rw [List.length_append, List.length_take, List.length_take, List.length_drop]
    omega
  rw [putText, copyFrom_eq hsrc (Nat.le_of_lt hdst), Option.bind_eq_bind, Option.bind_some, store,
    if_pos]
  · rw [List.set_append_right _ _ (by omega), hlen, Nat.sub_self, List.drop_eq_getElem_cons hdst,
      List.set_cons_zero, List.append_assoc]
  · rw [List.length_append, hlen, List.length_drop]
    omega

/-- A NUL ends a string. -/
theorem ofBytes_append_nul (text rest : List UInt8) :
    CString.ofBytes (text ++ 0 :: rest) = CString.ofBytes text := by
  apply Subtype.ext
  show (text ++ 0 :: rest).takeWhile (· != 0) = text.takeWhile (· != 0)
  induction text with
  | nil => rfl
  | cons b text ih =>
    rw [List.cons_append, List.takeWhile_cons, List.takeWhile_cons, ih]

theorem textAt_eq {block before text rest : List UInt8} (h : block = before ++ (text ++ 0 :: rest)) :
    textAt block before.length = some (CString.ofBytes text) := by
  have hdrop : block.drop before.length = text ++ 0 :: rest := by
    rw [h]
    exact List.drop_left' rfl
  rw [textAt, hdrop, if_pos, ofBytes_append_nul]
  apply List.mem_append_right
  exact List.mem_cons_self ..

/-- A text is written in a block, and stays as long as nothing before its end is written again. -/
theorem exists_putText {data block : Block} {src dst n : Nat} (hsrc : src + n ≤ data.length)
    (hdst : dst + n < block.length) :
    ∃ block₁, putText data src block dst n = some block₁ ∧ block₁.length = block.length ∧
      ∀ block' : Block, block'.take (dst + n + 1) = block₁.take (dst + n + 1) →
        block'.take dst = block.take dst ∧
          textAt block' dst = some (.ofBytes ((data.drop src).take n)) := by
  have hbefore : (block.take dst).length = dst := by
    rw [List.length_take]
    omega
  have htext : ((data.drop src).take n).length = n := by
    rw [List.length_take, List.length_drop]
    omega
  refine ⟨_, putText_eq hsrc hdst, ?_, fun block' hkeep => ?_⟩
  · rw [List.length_append, List.length_append, List.length_cons, hbefore, htext, List.length_drop]
    omega
  have hfront : (block.take dst ++ ((data.drop src).take n ++ 0 :: block.drop (dst + n + 1))).take
      (dst + n + 1) = block.take dst ++ ((data.drop src).take n ++ [0]) := by
    have hcut : block.take dst ++ ((data.drop src).take n ++ 0 :: block.drop (dst + n + 1)) =
        (block.take dst ++ ((data.drop src).take n ++ [0])) ++ block.drop (dst + n + 1) := by
      rw [List.append_assoc, List.append_assoc]
      rfl
    rw [hcut]
    apply List.take_left'
    rw [List.length_append, List.length_append, hbefore, htext]
    rfl
  have hbegin : block' = block.take dst ++ ((data.drop src).take n ++
      0 :: block'.drop (dst + n + 1)) := by
    calc block' = block'.take (dst + n + 1) ++ block'.drop (dst + n + 1) :=
          (List.take_append_drop ..).symm
      _ = _ := by
        rw [hkeep, hfront, List.append_assoc, List.append_assoc]
        rfl
  constructor
  · rw [hbegin]
    exact List.take_left' hbefore
  · have hat := textAt_eq hbegin
    rwa [hbefore] at hat

end Block

end ProgLib
