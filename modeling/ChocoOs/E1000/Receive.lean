import ChocoOs.Lib.Ring
import ChocoOs.Lib.Transition

/-!
# The receive ring

`e1000_recv` and the network card share a ring of 32 descriptors, each with a buffer of its own.
The driver hands a descriptor back by moving the tail register onto it.
-/

namespace ChocoOs.E1000
open ProgLib

/-- `RX_DESC_COUNT` -/
def rxDescCount : Nat := 32

/-- `RX_BUF_SIZE` -/
def rxBufSize : Nat := 2048

/-- A receive descriptor (`e1000.c:53-61`). -/
structure RxDesc where
  length : Nat
  status : Nat

/-- The driver's side (`e1000.c:74-87`) and the two registers. -/
structure Rx where
  up : Bool
  rxRing : Nat → RxDesc
  rxBufs : Nat → Nat → UInt8
  rxTail : Nat
  rdh : Nat
  rdt : Nat

/-- The receive part of `e1000_init` (`e1000.c:178-193`); `ring` and `bufs` are what the pages held
    before. -/
def e1000InitRx (ring : Nat → RxDesc) (bufs : Nat → Nat → UInt8) : Rx where
  up := true
  rxRing := fun i => if i < rxDescCount then { ring i with status := 0 } else ring i
  rxBufs := bufs
  rxTail := 0
  rdh := 0
  rdt := rxDescCount - 1

/-- What the call copies to the caller. -/
def Rx.read (s : Rx) (i n : Nat) : List UInt8 := (List.range n).map (s.rxBufs i)

/-- `e1000_recv` (`e1000.c:252-270`): the bytes that it has copied, or `none` where it returns 0
    without taking a descriptor. -/
def e1000Recv (s : Rx) (cap : Nat) : Rx × Option (List UInt8) :=
  if s.up = false then (s, none)
  else
    let d := s.rxRing s.rxTail
    if d.status.testBit 0 = false then (s, none)
    else
      let len := if d.length > cap then cap else d.length
      ({ s with
          rxRing := fun i => if i = s.rxTail then { d with status := 0 } else s.rxRing i
          rdt := s.rxTail
          rxTail := (s.rxTail + 1) % rxDescCount }, some (s.read s.rxTail len))

/-- The card writes a frame to the descriptor at its head, unless the head is at the tail. It
    takes no frame that is longer than a buffer. -/
def Rx.deliver (s : Rx) (frame : List UInt8) : Option Rx :=
  if s.rdh = s.rdt ∨ rxBufSize < frame.length then none
  else
    let d := s.rxRing s.rdh
    some { s with
      rxRing := fun i => if i = s.rdh then ⟨frame.length, d.status ||| 1⟩ else s.rxRing i
      rxBufs := fun i => if i = s.rdh
        then fun k => if k < frame.length then frame.getD k 0 else s.rxBufs i k
        else s.rxBufs i
      rdh := (s.rdh + 1) % rxDescCount }

/-- The ring, the frames that the card delivered and what `e1000_recv` returned, each with the
    caller's capacity. -/
structure RxSys where
  rx : Rx
  delivered : List (List UInt8)
  returned : List (Nat × List UInt8)

inductive RxEvent where
  | recv (cap : Nat)
  | nic (frame : List UInt8)

def RxSys.step (s : RxSys) : RxEvent → RxSys
  | .recv cap =>
    let r := e1000Recv s.rx cap
    { s with rx := r.1, returned := match r.2 with
        | none => s.returned
        | some data => s.returned ++ [(cap, data)] }
  | .nic frame =>
    match s.rx.deliver frame with
    | none => s
    | some rx => { s with rx := rx, delivered := s.delivered ++ [frame] }

def RxSys.start (ring : Nat → RxDesc) (bufs : Nat → Nat → UInt8) : RxSys :=
  ⟨e1000InitRx ring bufs, [], []⟩

/-- The frame in the buffer of a descriptor. -/
def Rx.frameAt (s : Rx) (i : Nat) : List UInt8 := s.read i (s.rxRing i).length

/-- The descriptors whose done bit is set, from the driver's tail on. -/
def Rx.full (s : Rx) : List Nat :=
  ((List.range rxDescCount).map fun k => (s.rxTail + k) % rxDescCount).filter fun i =>
    (s.rxRing i).status.testBit 0

/-- What was returned is what was delivered first, each frame cut to the caller's capacity; the
    remaining frames are, in order, those in the descriptors with the done bit; and a descriptor
    that the card may write holds no frame. -/
structure RxSys.Fifo (s : RxSys) : Prop where
  returned : ∀ (k cap : Nat) (data : List UInt8), s.returned[k]? = some (cap, data) →
    ∃ frame : List UInt8, s.delivered[k]? = some frame ∧ data = frame.take cap
  taken : s.returned.length ≤ s.delivered.length
  remaining : s.rx.full.map s.rx.frameAt = s.delivered.drop s.returned.length
  owned : s.rx.rdh ≠ s.rx.rdt → (s.rx.rxRing s.rx.rdh).status.testBit 0 = false

/-! ## The invariant -/

/-- The frames between the driver's tail and the card's head are delivered and not returned; the
    tail register is one behind the driver's tail. -/
structure RxInv (s : RxSys) : Prop where
  up : s.rx.up = true
  tail : s.rx.rxTail = s.returned.length % rxDescCount
  rdh : s.rx.rdh = s.delivered.length % rxDescCount
  rdt : s.rx.rdt = (s.returned.length + (rxDescCount - 1)) % rxDescCount
  taken : s.returned.length ≤ s.delivered.length
  room : s.delivered.length < s.returned.length + rxDescCount
  returned : ∀ (k cap : Nat) (data : List UInt8), s.returned[k]? = some (cap, data) →
    ∃ frame : List UInt8, s.delivered[k]? = some frame ∧ data = frame.take cap
  pending : ∀ k (_ : s.returned.length ≤ k) (hk : k < s.delivered.length),
    (s.rx.rxRing (k % rxDescCount)).status.testBit 0 = true ∧
    (s.rx.rxRing (k % rxDescCount)).length = s.delivered[k].length ∧
    s.rx.frameAt (k % rxDescCount) = s.delivered[k]
  free : ∀ k, s.delivered.length ≤ k → k < s.returned.length + rxDescCount →
    (s.rx.rxRing (k % rxDescCount)).status.testBit 0 = false

theorem rxInv_start (ring : Nat → RxDesc) (bufs : Nat → Nat → UInt8) :
    RxInv (RxSys.start ring bufs) where
  up := rfl
  tail := rfl
  rdh := rfl
  rdt := rfl
  taken := Nat.le_refl _
  room := Nat.zero_lt_succ _
  returned := nofun
  pending := nofun
  free := fun k _ hk => by
    have hlt : k % rxDescCount < rxDescCount := Nat.mod_lt _ (by decide)
    simp only [RxSys.start, e1000InitRx, if_pos hlt, Nat.zero_testBit]

/-- The card stops one short of a full ring. -/
theorem RxInv.full_iff {s : RxSys} (h : RxInv s) :
    s.rx.rdh = s.rx.rdt ↔ s.delivered.length + 1 = s.returned.length + rxDescCount := by
  have htaken := h.taken
  have hroom := h.room
  have hcount : rxDescCount = 32 := rfl
  rw [h.rdh, h.rdt]
  constructor
  · intro he
    have := ring_slot_inj ⟨htaken, hroom⟩ ⟨Nat.le_add_right _ _, by omega⟩ he
    omega
  · intro he
    rw [show s.delivered.length = s.returned.length + (rxDescCount - 1) by omega]

/-- The descriptors with the done bit. -/
theorem RxInv.full_eq {s : RxSys} (h : RxInv s) : s.rx.full =
    (List.range (s.delivered.length - s.returned.length)).map fun k =>
      (s.returned.length + k) % rxDescCount := by
  have htaken := h.taken
  have hroom := h.room
  obtain ⟨n, hn⟩ : ∃ n, n = s.delivered.length - s.returned.length := ⟨_, rfl⟩
  have hsplit : List.range rxDescCount = List.range n ++
      (List.range (rxDescCount - n)).map (n + ·) := by
    rw [← List.range_add]
    congr 1
    omega
  have hslot : ∀ k, (s.rx.rxTail + k) % rxDescCount = (s.returned.length + k) % rxDescCount := by
    intro k
    rw [h.tail, Nat.mod_add_mod]
  simp only [Rx.full, hslot, ← hn]
  rw [hsplit, List.map_append, List.filter_append, List.filter_eq_self.mpr, List.filter_eq_nil_iff.mpr,
    List.append_nil]
  · intro i hi
    simp only [List.map_map, List.mem_map, List.mem_range, Function.comp_apply] at hi
    obtain ⟨k, hk, rfl⟩ := hi
    rw [h.free _ (by omega) (by omega)]
    exact Bool.noConfusion
  · intro i hi
    obtain ⟨k, hk, rfl⟩ := List.mem_map.mp hi
    rw [List.mem_range] at hk
    exact (h.pending _ (by omega) (by omega)).1

theorem RxInv.fifo {s : RxSys} (h : RxInv s) : s.Fifo := by
  have htaken := h.taken
  have hroom := h.room
  refine ⟨h.returned, htaken, ?_, fun hne => ?_⟩
  · rw [h.full_eq, List.map_map]
    refine List.ext_getElem (by simp) fun k hk _ => ?_
    simp only [List.length_map, List.length_range] at hk
    simp only [List.getElem_map, List.getElem_range, List.getElem_drop, Function.comp_apply]
    exact (h.pending _ (by omega) (by omega)).2.2
  · rw [h.rdh]
    exact h.free _ (Nat.le_refl _) hroom

/-! ## The steps -/

/-- A call that finds no done bit returns nothing. -/
theorem RxInv.recv_empty {s : RxSys} (h : RxInv s) (cap : Nat)
    (he : s.returned.length = s.delivered.length) : s.step (.recv cap) = s := by
  have hfree := h.free s.returned.length (by omega) (by simp only [rxDescCount]; omega)
  rw [← h.tail] at hfree
  rw [RxSys.step, e1000Recv, h.up, if_neg Bool.noConfusion, if_pos hfree]

/-- Otherwise it returns the oldest frame. -/
theorem RxInv.recv {s : RxSys} (h : RxInv s) (cap : Nat) : RxInv (s.step (.recv cap)) := by
  have htaken := h.taken
  have hroom := h.room
  by_cases he : s.returned.length = s.delivered.length
  · rw [h.recv_empty cap he]
    exact h
  have hlt : s.returned.length < s.delivered.length := by omega
  obtain ⟨hdone, hlen, hframe⟩ := h.pending s.returned.length (Nat.le_refl _) hlt
  rw [← h.tail] at hdone hlen hframe
  have hdata : s.rx.read s.rx.rxTail
      (if (s.rx.rxRing s.rx.rxTail).length > cap then cap else (s.rx.rxRing s.rx.rxTail).length) =
      s.delivered[s.returned.length].take cap := by
    rw [← hframe]
    simp only [Rx.frameAt, Rx.read, ← List.map_take, List.take_range]
    congr 2
    split <;> omega
  have hset : ¬ (s.rx.rxRing s.rx.rxTail).status.testBit 0 = false := by
    rw [hdone]
    exact Bool.noConfusion
  rw [RxSys.step, e1000Recv, h.up, if_neg Bool.noConfusion]
  simp only [if_neg hset, hdata]
  refine ⟨rfl, ?_, h.rdh, ?_, ?_, ?_, ?_, fun k hlo hk => ?_, fun k hlo hhi => ?_⟩
  · simp only [List.length_append, List.length_singleton, h.tail, ring_succ]
  · simp only [List.length_append, List.length_singleton, h.tail]
    rw [show s.returned.length + 1 + (rxDescCount - 1) = s.returned.length + rxDescCount from rfl,
      Nat.add_mod_right]
  · simp only [List.length_append, List.length_singleton]
    omega
  · simp only [List.length_append, List.length_singleton]
    omega
  · intro k c data hk
    rcases Nat.lt_or_ge k s.returned.length with hlast | hlast
    · rw [List.getElem?_append_left hlast] at hk
      exact h.returned k c data hk
    · rw [List.getElem?_append_right hlast] at hk
      obtain ⟨hk', heq⟩ := List.getElem?_eq_some_iff.mp hk
      have hk' : k = s.returned.length := by
        simp only [List.length_singleton] at hk'
        omega
      subst hk'
      simp only [Nat.sub_self, List.getElem_cons_zero] at heq
      cases heq
      exact ⟨_, List.getElem?_eq_getElem hlt, rfl⟩
  · simp only [List.length_append, List.length_singleton] at hlo
    have hk : k < s.delivered.length := hk
    have hne : k % rxDescCount ≠ s.rx.rxTail := fun hk' => by
      rw [h.tail] at hk'
      have := ring_slot_inj ⟨by omega, by omega⟩ ⟨Nat.le_refl s.returned.length, by omega⟩ hk'
      omega
    have := h.pending k (by omega) hk
    simpa only [Rx.frameAt, Rx.read, if_neg hne] using this
  · by_cases hslot : k % rxDescCount = s.rx.rxTail
    · simp only [if_pos hslot, Nat.zero_testBit]
    · simp only [if_neg hslot]
      refine h.free k hlo ?_
      simp only [List.length_append, List.length_singleton] at hhi
      rcases Nat.lt_succ_iff_lt_or_eq.mp (show k < s.returned.length + rxDescCount + 1 by omega) with
        hk | rfl
      · exact hk
      · rw [Nat.add_mod_right, ← h.tail] at hslot
        exact absurd rfl hslot

/-- The card writes to a free descriptor. -/
theorem RxInv.nic {s : RxSys} (h : RxInv s) (frame : List UInt8) : RxInv (s.step (.nic frame)) := by
  have htaken := h.taken
  have hroom := h.room
  by_cases he : s.rx.rdh = s.rx.rdt ∨ rxBufSize < frame.length
  · rw [RxSys.step, Rx.deliver, if_pos he]
    exact h
  have hnext := mt h.full_iff.mpr (not_or.mp he).1
  rw [RxSys.step, Rx.deliver, if_neg he]
  refine ⟨h.up, h.tail, ?_, h.rdt, ?_, ?_, ?_, fun k hlo hk => ?_, fun k hlo hhi => ?_⟩
  · simp only [List.length_append, List.length_singleton, h.rdh, ring_succ]
  · simp only [List.length_append, List.length_singleton]
    omega
  · simp only [List.length_append, List.length_singleton]
    omega
  · intro k cap data hk
    obtain ⟨f, hf, hdata⟩ := h.returned k cap data hk
    have hlt := (List.getElem?_eq_some_iff.mp hf).1
    exact ⟨f, (List.getElem?_append_left hlt).trans hf, hdata⟩
  · have hlo : s.returned.length ≤ k := hlo
    by_cases hlast : k < s.delivered.length
    · have hne : k % rxDescCount ≠ s.rx.rdh := fun hk' => by
        rw [h.rdh] at hk'
        have := ring_slot_inj ⟨hlo, by omega⟩ ⟨htaken, hroom⟩ hk'
        omega
      have := h.pending k hlo hlast
      simpa only [Rx.frameAt, Rx.read, if_neg hne, List.getElem_append_left hlast] using this
    · have hk' : k = s.delivered.length := by
        simp only [List.length_append, List.length_singleton] at hk
        omega
      subst hk'
      simp only [← h.rdh, if_true, Rx.frameAt, Rx.read, List.getElem_concat_length, Nat.testBit_or]
      refine ⟨Bool.or_true _, trivial, List.ext_getElem (by simp) fun k _ hk => ?_⟩
      simp only [List.getElem_map, List.getElem_range, if_pos hk, List.getD_eq_getElem?_getD,
        List.getElem?_eq_getElem hk, Option.getD_some]
  · simp only [List.length_append, List.length_singleton] at hlo
    have hne : k % rxDescCount ≠ s.rx.rdh := fun hk' => by
      rw [h.rdh] at hk'
      have := ring_slot_inj (show s.returned.length ≤ k ∧ _ from ⟨by omega, hhi⟩) ⟨htaken, hroom⟩ hk'
      omega
    simp only [if_neg hne]
    exact h.free k (by omega) hhi

/-- In every run of calls and deliveries the ring is a lossless queue. -/
theorem receive_fifo (ring : Nat → RxDesc) (bufs : Nat → Nat → UInt8) (events : List RxEvent) :
    Always RxSys.step RxSys.Fifo (RxSys.start ring bufs) events := by
  refine always_of_invariant (I := RxInv) (P := RxSys.Fifo) (fun s e hs => ?_) (fun _ hs => hs.fifo)
    (rxInv_start ring bufs) events
  cases e with
  | recv cap => exact hs.recv cap
  | nic frame => exact hs.nic frame

end ChocoOs.E1000
