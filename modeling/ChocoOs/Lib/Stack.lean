import ChocoOs.Lib.ByteMem
import ChocoOs.Lib.Word

/-!
# A stack of 64-bit words in memory

`push` and `pop` as the machine executes them, the stack pointer wrapping at the end of the
address space. `StackAt m rsp vs` says that the words `vs` lie at the stack pointer, the top of
the stack first.
-/

namespace ProgLib

/-- `push v`: the new memory and stack pointer. -/
def push (m : Mem) (rsp v : Nat) : Mem × Nat := (store64 m (sub64 rsp 8) v, sub64 rsp 8)

/-- Push the words of a list one after the other. -/
def pushAll : Mem → Nat → List Nat → Mem × Nat
  | m, rsp, [] => (m, rsp)
  | m, rsp, v :: vs => pushAll (push m rsp v).1 (push m rsp v).2 vs

/-- `pop`: the word at the stack pointer and the new stack pointer. -/
def pop (m : Mem) (rsp : Nat) : Nat × Nat := (load64 m rsp, add64 rsp 8)

/-- The words `vs` lie at `rsp` and upwards. -/
def StackAt (m : Mem) : Nat → List Nat → Prop
  | _, [] => True
  | rsp, v :: vs => load64 m rsp = v ∧ StackAt m (add64 rsp 8) vs

theorem add64_sub64_8 {rsp : Nat} (h : rsp < addrSpace) : add64 (sub64 rsp 8) 8 = rsp := by
  simp only [add64, sub64, addrSpace_eq] at *
  omega

theorem sub64_8_mod {rsp : Nat} (h : rsp % 8 = 0) : sub64 rsp 8 % 8 = 0 := by
  simp only [sub64, addrSpace_eq]
  omega

theorem add64_8_mod {rsp : Nat} (h : rsp % 8 = 0) : add64 rsp 8 % 8 = 0 := by
  simp only [add64, addrSpace_eq]
  omega

/-- A word that is written elsewhere leaves the stack alone. -/
theorem StackAt.store {m : Mem} {rsp a v : Nat} {vs : List Nat} (h : StackAt m rsp vs)
    (hrsp : rsp % 8 = 0) (ha : a % 8 = 0) (hne : ∀ i, i < vs.length → (rsp + 8 * i) % addrSpace ≠ a)
    (hlt : rsp < addrSpace) : StackAt (store64 m a v) rsp vs := by
  induction vs generalizing rsp with
  | nil => trivial
  | cons w vs ih =>
    obtain ⟨hw, hvs⟩ := h
    have hra : rsp ≠ a := by
      have := hne 0 (by simp)
      rwa [Nat.mul_zero, Nat.add_zero, Nat.mod_eq_of_lt hlt] at this
    refine ⟨((sameOutside_storeLE m a 8 v).loadLE_eq (by omega)).trans hw,
      ih hvs (add64_8_mod hrsp) (fun i hi => ?_) (add64_lt _ _)⟩
    have := hne (i + 1) (by simpa using hi)
    rw [add64, Nat.mod_add_mod]
    rwa [Nat.mul_add, Nat.mul_one, Nat.add_comm (8 * i) 8, ← Nat.add_assoc] at this

/-- Pushing puts a word on top. -/
theorem StackAt.push {m : Mem} {rsp v : Nat} {vs : List Nat} (h : StackAt m rsp vs)
    (hrsp : rsp % 8 = 0) (hlt : rsp < addrSpace) (hv : v < addrSpace)
    (hlen : 8 * vs.length < addrSpace) :
    StackAt (push m rsp v).1 (push m rsp v).2 (v :: vs) := by
  have hv' : v < 256 ^ 8 := by rw [pow_256_8]; exact hv
  simp only [ProgLib.push]
  refine ⟨loadLE_storeLE_same hv', ?_⟩
  rw [add64_sub64_8 hlt]
  refine h.store hrsp (sub64_8_mod hrsp) (fun i hi => ?_) hlt
  simp only [sub64, addrSpace_eq] at *
  omega

/-- Pushing a list leaves its last word on top. -/
theorem StackAt.pushAll {m : Mem} {rsp : Nat} {vs : List Nat} (h : StackAt m rsp vs)
    (ws : List Nat) (hrsp : rsp % 8 = 0) (hlt : rsp < addrSpace) (hws : ∀ w ∈ ws, w < addrSpace)
    (hlen : 8 * (ws.length + vs.length) ≤ addrSpace) :
    StackAt (pushAll m rsp ws).1 (pushAll m rsp ws).2 (ws.reverse ++ vs) := by
  induction ws generalizing m rsp vs with
  | nil => simpa [ProgLib.pushAll] using h
  | cons w ws ih =>
    simp only [List.length_cons] at hlen
    have hpush := h.push hrsp hlt (hws w (by simp)) (by omega)
    have hrest := ih hpush (sub64_8_mod hrsp) (sub64_lt _ _) (fun x hx => hws x (by simp [hx]))
      (by simp only [List.length_cons]; omega)
    simpa [ProgLib.pushAll] using hrest

end ProgLib
