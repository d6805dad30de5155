import ChocoOs.Lib.ByteMem
import ChocoOs.Lib.Ring
import ChocoOs.Lib.Transition

/-!
# The transmit ring

`e1000_send` and the network card share a ring of 16 descriptors. The driver looks at the done bit
of a descriptor, the card at its head and tail registers.
-/

namespace ChocoOs.E1000
open ProgLib

/-- `TX_DESC_COUNT` -/
def txDescCount : Nat := 16

/-- A transmit descriptor (`e1000.c:63-72`). -/
structure TxDesc where
  addr : Nat
  length : Nat
  cmd : Nat
  status : Nat

/-- `status & 1`, the DD bit. -/
def isDone (status : Nat) : Bool := status.testBit 0

/-- The driver's side (`e1000.c:74-87`), the memory and the two registers. -/
structure Tx where
  up : Bool
  txRing : Nat → TxDesc
  txBufPhys : Nat
  mem : Mem
  txTail : Nat
  tdh : Nat
  tdt : Nat

/-- The transmit part of `e1000_init` (`e1000.c:195-208`). -/
def e1000Init (mem : Mem) (txBufPhys : Nat) : Tx where
  up := true
  txRing := fun _ => ⟨0, 0, 0, 1⟩
  txBufPhys := txBufPhys
  mem := mem
  txTail := 0
  tdh := 0
  tdt := 0

/-- `e1000_send` (`e1000.c:227-250`). It waits for the DD bit, but in one atomic call nothing else
    runs that could set it. -/
def e1000Send (s : Tx) (frame : List UInt8) : Tx × Int :=
  if s.up = false ∨ 1518 < frame.length then (s, -1)
  else if isDone (s.txRing s.txTail).status = false then (s, -1)
  else
    let slot := s.txBufPhys + s.txTail * 2048
    let d : TxDesc := ⟨slot, frame.length, 1 ||| 2 ||| 8, 0⟩
    let tail := (s.txTail + 1) % txDescCount
    ({ s with
        mem := put s.mem slot (fun i => frame.getD i 0) frame.length
        txRing := fun i => if i = s.txTail then d else s.txRing i
        txTail := tail
        tdt := tail }, frame.length)

/-! ## The card -/

/-- The `n` bytes from `a` on. -/
def readBytes (m : Mem) (a n : Nat) : List UInt8 := (List.range n).map fun i => m (a + i)

/-- The frame of descriptor `i`. -/
def Tx.frameAt (s : Tx) (i : Nat) : List UInt8 :=
  readBytes s.mem (s.txRing i).addr (s.txRing i).length

/-- The card transmits the descriptor at its head, unless the ring is empty. -/
def Tx.transmit (s : Tx) : Option (Tx × List UInt8) :=
  if s.tdh = s.tdt then none
  else
    let d := s.txRing s.tdh
    some ({ s with
      txRing := fun i => if i = s.tdh then { d with status := d.status ||| 1 } else s.txRing i
      tdh := (s.tdh + 1) % txDescCount }, s.frameAt s.tdh)

/-- The frames in the descriptors that the card owns, in their order. -/
def Tx.owned (s : Tx) : List (List UInt8) :=
  (List.range ((s.tdt + txDescCount - s.tdh) % txDescCount)).map fun k =>
    s.frameAt ((s.tdh + k) % txDescCount)

/-- The ring, the frames that `e1000_send` took and those that were transmitted. -/
structure TxSys where
  tx : Tx
  accepted : List (List UInt8)
  wire : List (List UInt8)

inductive TxEvent where
  | send (frame : List UInt8)
  | nic

def TxSys.step (s : TxSys) : TxEvent → TxSys
  | .send frame =>
    let r := e1000Send s.tx frame
    { s with tx := r.1, accepted := if 0 ≤ r.2 then s.accepted ++ [frame] else s.accepted }
  | .nic =>
    match s.tx.transmit with
    | none => s
    | some (tx, frame) => { s with tx := tx, wire := s.wire ++ [frame] }

def TxSys.start (mem : Mem) (txBufPhys : Nat) : TxSys := ⟨e1000Init mem txBufPhys, [], []⟩

/-- Every accepted frame is transmitted or in a descriptor of the card, unmodified and in order;
    and the ring is empty only when no descriptor is pending. -/
def TxSys.Sound (s : TxSys) : Prop :=
  s.wire ++ s.tx.owned = s.accepted ∧
    (s.tx.tdh = s.tx.tdt → ∀ i < txDescCount, isDone (s.tx.txRing i).status = true)

/-- A frame that fits is sent only while the card's head is not in the slot after the tail. -/
def TxSys.Room (s : TxSys) : TxEvent → Prop
  | .send frame => frame.length ≤ 1518 → (s.tx.txTail + 1) % txDescCount ≠ s.tx.tdh
  | .nic => True

instance (s : TxSys) : ∀ e, Decidable (s.Room e)
  | .send _ => inferInstanceAs (Decidable (_ → _))
  | .nic => .isTrue trivial

/-! ## The invariant -/

/-- At most 15 frames are pending. Their descriptors hold them, all others are done. -/
structure TxInv (s : TxSys) : Prop where
  up : s.tx.up = true
  tail : s.tx.txTail = s.accepted.length % txDescCount
  tdt : s.tx.tdt = s.tx.txTail
  tdh : s.tx.tdh = s.wire.length % txDescCount
  sent : s.wire.length ≤ s.accepted.length
  room : s.accepted.length < s.wire.length + txDescCount
  order : s.wire = s.accepted.take s.wire.length
  short : ∀ f ∈ s.accepted, f.length ≤ 1518
  pending : ∀ k (_ : s.wire.length ≤ k) (hk : k < s.accepted.length),
    (s.tx.txRing (k % txDescCount)).addr = s.tx.txBufPhys + k % txDescCount * 2048 ∧
    isDone (s.tx.txRing (k % txDescCount)).status = false ∧
    s.tx.frameAt (k % txDescCount) = s.accepted[k]
  free : ∀ k, s.accepted.length ≤ k → k < s.wire.length + txDescCount →
    isDone (s.tx.txRing (k % txDescCount)).status = true

theorem txInv_start (mem : Mem) (txBufPhys : Nat) : TxInv (TxSys.start mem txBufPhys) where
  up := rfl
  tail := rfl
  tdt := rfl
  tdh := rfl
  sent := Nat.le_refl _
  room := Nat.zero_lt_succ _
  order := rfl
  short := nofun
  pending := nofun
  free := fun _ _ _ => Nat.testBit_one_zero

theorem TxInv.empty_iff {s : TxSys} (h : TxInv s) :
    s.tx.tdh = s.tx.tdt ↔ s.wire.length = s.accepted.length := by
  rw [h.tdt, h.tail, h.tdh]
  have hsent := h.sent
  have hroom := h.room
  constructor
  · intro he
    exact ring_slot_inj ⟨Nat.le_refl _, by simp only [txDescCount]; omega⟩ ⟨hsent, hroom⟩ he
  · intro he
    rw [he]

theorem TxInv.length_owned {s : TxSys} (h : TxInv s) :
    s.tx.owned.length = s.accepted.length - s.wire.length := by
  rw [Tx.owned, List.length_map, List.length_range, h.tdt, h.tail, h.tdh]
  exact ring_distance h.sent h.room

theorem TxInv.sound {s : TxSys} (h : TxInv s) : s.Sound := by
  have hsent := h.sent
  refine ⟨?_, fun he i hi => ?_⟩
  · have howned : s.tx.owned = s.accepted.drop s.wire.length := by
      refine List.ext_getElem (by rw [h.length_owned, List.length_drop]) fun k hk _ => ?_
      rw [h.length_owned] at hk
      have hslot : (s.tx.tdh + k) % txDescCount = (s.wire.length + k) % txDescCount := by
        rw [h.tdh, Nat.mod_add_mod]
      have hframe := (h.pending (s.wire.length + k) (by omega) (by omega)).2.2
      simp only [Tx.owned, List.getElem_map, List.getElem_range, List.getElem_drop, hslot, hframe]
    rw [howned]
    have := List.take_append_drop s.wire.length s.accepted
    rwa [← h.order] at this
  · have hlen := h.empty_iff.mp he
    -- every slot is one of the next 16
    have hfree := h.free (s.accepted.length + (i + txDescCount - s.tx.txTail) % txDescCount)
      (Nat.le_add_right _ _) (by
        have := Nat.mod_lt (i + txDescCount - s.tx.txTail) (show 0 < txDescCount by decide)
        omega)
    have hslot : (s.accepted.length + (i + txDescCount - s.tx.txTail) % txDescCount) % txDescCount
        = i := by
      rw [h.tail]
      simp only [txDescCount] at hi ⊢
      omega
    rwa [hslot] at hfree

/-! ## The steps -/

/-- The slot that the driver fills is free; with a frame that fits the call succeeds. -/
theorem TxInv.e1000Send_eq {s : TxSys} (h : TxInv s) {frame : List UInt8}
    (hlen : frame.length ≤ 1518) : e1000Send s.tx frame = ({ s.tx with
      mem := put s.tx.mem (s.tx.txBufPhys + s.tx.txTail * 2048) (fun i => frame.getD i 0) frame.length
      txRing := fun i => if i = s.tx.txTail
        then ⟨s.tx.txBufPhys + s.tx.txTail * 2048, frame.length, 1 ||| 2 ||| 8, 0⟩ else s.tx.txRing i
      txTail := (s.tx.txTail + 1) % txDescCount
      tdt := (s.tx.txTail + 1) % txDescCount }, (frame.length : Int)) := by
  have hdone : isDone (s.tx.txRing s.tx.txTail).status = true := by
    rw [h.tail]
    exact h.free _ (Nat.le_refl _) h.room
  have hup : ¬ (s.tx.up = false ∨ 1518 < frame.length) := by
    rw [h.up]
    rintro (hdown | hlong)
    · exact Bool.noConfusion hdown
    · omega
  rw [e1000Send, if_neg hup, hdone, if_neg Bool.noConfusion]

theorem e1000Send_long {s : Tx} {frame : List UInt8} (hlen : 1518 < frame.length) :
    e1000Send s frame = (s, -1) := if_pos (.inr hlen)

/-- A frame longer than the card takes changes nothing. -/
theorem TxSys.step_long {s : TxSys} {frame : List UInt8} (hlen : 1518 < frame.length) :
    s.step (.send frame) = s := by
  rw [TxSys.step, e1000Send_long hlen]
  rfl

/-- A frame in a slot of the buffer. -/
theorem readBytes_put {m : Mem} {a : Nat} (frame : List UInt8) :
    readBytes (put m a (fun i => frame.getD i 0) frame.length) a frame.length = frame := by
  refine List.ext_getElem (by simp [readBytes]) fun k _ hk => ?_
  have hin : a ≤ a + k ∧ a + k < a + frame.length := by omega
  simp only [readBytes, List.getElem_map, List.getElem_range, put, if_pos hin,
    Nat.add_sub_cancel_left]
  rw [List.getD_eq_getElem?_getD, List.getElem?_eq_getElem hk, Option.getD_some]

theorem readBytes_put_of_disjoint {m : Mem} {a b n l : Nat} {src : Nat → UInt8}
    (h : a + n ≤ b ∨ b + l ≤ a) : readBytes (put m b src l) a n = readBytes m a n := by
  refine List.map_congr_left fun k hk => ?_
  rw [List.mem_range] at hk
  exact if_neg (by omega)

/-- With room in the ring an accepted frame goes to the free slot at the tail. -/
theorem TxInv.send {s : TxSys} (h : TxInv s) {frame : List UInt8} (hroom : s.Room (.send frame)) :
    TxInv (s.step (.send frame)) := by
  by_cases hlen : 1518 < frame.length
  · rw [TxSys.step_long hlen]
    exact h
  have hlen : frame.length ≤ 1518 := by omega
  have hroom := hroom hlen
  have hsent := h.sent
  have hlt := h.room
  rw [TxSys.step, h.e1000Send_eq hlen]
  simp only [Int.natCast_nonneg, if_true]
  -- a pending descriptor is in another slot
  have hother : ∀ k, s.wire.length ≤ k → k < s.accepted.length →
      k % txDescCount ≠ s.tx.txTail := fun k hlo hhi he => by
    rw [h.tail] at he
    have := ring_slot_inj ⟨hlo, by omega⟩ ⟨hsent, hlt⟩ he
    omega
  have htail : s.accepted.length % txDescCount = s.tx.txTail := h.tail.symm
  refine ⟨h.up, ?_, rfl, h.tdh, ?_, ?_, ?_, ?_, fun k hlo hk => ?_, fun k hlo hhi => ?_⟩
  · simp only [List.length_append, List.length_singleton, h.tail, ring_succ]
  · simp only [List.length_append, List.length_singleton]
    omega
  · simp only [List.length_append, List.length_singleton]
    rw [h.tail, h.tdh, ring_succ] at hroom
    have hne : s.accepted.length + 1 ≠ s.wire.length + txDescCount := fun he => by
      rw [he, Nat.add_mod_right] at hroom
      exact hroom rfl
    omega
  · rw [List.take_append_of_le_length hsent]
    exact h.order
  · intro f hf
    rcases List.mem_append.mp hf with hf | hf
    · exact h.short f hf
    · rw [List.mem_singleton.mp hf]
      exact hlen
  · by_cases hlast : k < s.accepted.length
    · obtain ⟨haddr, hdone, hframe⟩ := h.pending k hlo hlast
      have hne := hother k hlo hlast
      simp only [if_neg hne]
      refine ⟨haddr, hdone, ?_⟩
      rw [List.getElem_append_left hlast, ← hframe]
      have hshort := h.short _ (List.getElem_mem hlast)
      rw [← hframe, Tx.frameAt, readBytes, List.length_map, List.length_range] at hshort
      simp only [Tx.frameAt, if_neg hne]
      refine readBytes_put_of_disjoint ?_
      rw [haddr]
      omega
    · have hk' : k = s.accepted.length := by
        simp only [List.length_append, List.length_singleton] at hk
        omega
      subst hk'
      simp only [htail, if_true, Tx.frameAt, List.getElem_concat_length, readBytes_put, and_true]
      exact ⟨trivial, Nat.zero_testBit 0⟩
  · simp only [List.length_append, List.length_singleton] at hlo
    have hne : k % txDescCount ≠ s.tx.txTail := fun he => by
      rw [← htail] at he
      have := ring_slot_inj (show s.wire.length ≤ k ∧ _ from ⟨by omega, hhi⟩) ⟨hsent, hlt⟩ he
      omega
    simp only [if_neg hne]
    exact h.free k (by omega) hhi

/-- The card takes the oldest pending frame. -/
theorem TxInv.nic {s : TxSys} (h : TxInv s) : TxInv (s.step .nic) := by
  have hsent := h.sent
  have hlt := h.room
  by_cases he : s.tx.tdh = s.tx.tdt
  · rw [TxSys.step, Tx.transmit, if_pos he]
    exact h
  have hlen : s.wire.length < s.accepted.length := by
    have := mt h.empty_iff.mpr he
    omega
  rw [TxSys.step, Tx.transmit, if_neg he]
  obtain ⟨-, -, hframe⟩ := h.pending s.wire.length (Nat.le_refl _) hlen
  rw [← h.tdh] at hframe
  refine ⟨h.up, h.tail, h.tdt, ?_, ?_, ?_, ?_, h.short, fun k hlo hk => ?_, fun k hlo hhi => ?_⟩
  · simp only [List.length_append, List.length_singleton, h.tdh, ring_succ]
  · simp only [List.length_append, List.length_singleton]
    omega
  · simp only [List.length_append, List.length_singleton]
    omega
  · simp only [List.length_append, List.length_singleton, hframe]
    rw [List.take_succ_eq_append_getElem hlen, ← h.order]
  · simp only [List.length_append, List.length_singleton] at hlo
    have hne : k % txDescCount ≠ s.tx.tdh := fun hk' => by
      rw [h.tdh] at hk'
      have hk : k < s.accepted.length := hk
      have := ring_slot_inj ⟨by omega, by omega⟩ ⟨Nat.le_refl s.wire.length, by omega⟩ hk'
      omega
    have hk : k < s.accepted.length := hk
    have := h.pending k (by omega) hk
    simpa only [Tx.frameAt, if_neg hne] using this
  · by_cases hslot : k % txDescCount = s.tx.tdh
    · simp only [if_pos hslot, isDone, Nat.testBit_or]
      exact Bool.or_true _
    · simp only [if_neg hslot]
      refine h.free k hlo ?_
      simp only [List.length_append, List.length_singleton] at hhi
      rcases Nat.lt_succ_iff_lt_or_eq.mp (show k < s.wire.length + txDescCount + 1 by omega) with
        hk | rfl
      · exact hk
      · rw [Nat.add_mod_right, ← h.tdh] at hslot
        exact absurd rfl hslot

theorem TxInv.step {s : TxSys} (h : TxInv s) (e : TxEvent) (hroom : s.Room e) : TxInv (s.step e) := by
  cases e with
  | send frame => exact h.send hroom
  | nic => exact h.nic

/-- Without room the head and the tail meet while the frame is pending. -/
theorem TxInv.full {s : TxSys} (h : TxInv s) {e : TxEvent} (hfull : ¬ s.Room e) :
    ¬ (s.step e).Sound := by
  cases e with
  | nic => exact absurd trivial hfull
  | send frame =>
    simp only [TxSys.Room, Classical.not_imp, Classical.not_not] at hfull
    obtain ⟨hlen, hmeet⟩ := hfull
    rintro ⟨-, hempty⟩
    rw [TxSys.step, h.e1000Send_eq hlen] at hempty
    have hlt : s.tx.txTail < txDescCount := by
      rw [h.tail]
      exact Nat.mod_lt _ (by decide)
    have := hempty hmeet.symm s.tx.txTail hlt
    simp only [if_true] at this
    exact Bool.noConfusion this

/-- In a run of sends and steps of the card no accepted frame is lost or changed, and none stalls,
    if and only if each frame that fits is sent while at most 14 others are pending. -/
theorem transmit_sound_iff (mem : Mem) (txBufPhys : Nat) (events : List TxEvent) :
    Always TxSys.step TxSys.Sound (TxSys.start mem txBufPhys) events ↔
      Admitted TxSys.step TxSys.Room (TxSys.start mem txBufPhys) events :=
  always_iff_admitted (fun _ e hs hok => hs.step e hok) (fun _ hs => hs.sound)
    (fun _ _ hs hfull => hs.full hfull) (txInv_start mem txBufPhys)

/-- Sixteen frames while the card does nothing: the ring looks empty. -/
theorem transmit_stalls : ¬ Always TxSys.step TxSys.Sound (TxSys.start (fun _ => 0) 0x100000)
    (List.replicate 16 (.send [1])) := by
  intro h
  have hroom := (always_iff_admitted (I := TxInv) (P := TxSys.Sound) (fun _ e hs hok => hs.step e hok)
    (fun _ hs => hs.sound) (fun _ _ hs hfull => hs.full hfull) (txInv_start _ _)).mp h
  revert hroom
  decide

end ChocoOs.E1000
