import ChocoOs.Lib.Transition
import ChocoOs.Lib.Word
import ChocoOs.Net.Traffic

/-!
# Echo replies and the call that waits

`net_ping` calls one after another, with any frames handled before, between and during them. A step
is the handling of one frame or one round of the calling thread. The frames that were handled after
the request of the last call had been sent are recorded beside the state.
-/

namespace ChocoOs.Net
open ProgLib

/-- The id of every request, `0xC0C0`. -/
def pingId : Nat := 0xC0C0

/-- The echo request (`net.c:553-561`). -/
def pingPkt (seq : Nat) : List UInt8 :=
  let rest := net16 pingId ++ net16 seq ++ (List.range 32).map fun i => UInt8.ofNat (97 + i % 23)
  [8, 0] ++ leBytes 2 (checksum16 ([8, 0, 0, 0] ++ rest) 0) ++ rest

/-- Where a call is: in the waiting loop of `resolve_mac`, in its own, or back with a result. -/
inductive PingPhase where
  | idle
  | resolve (ip : Nat) (seq : UInt16) (t0 : Nat)
  | wait (ip : Nat) (seq : UInt16) (t0 : Nat)
  | done (ip : Nat) (seq : UInt16) (ret : Int)
  deriving DecidableEq

/-- The state of `net.c` and of the call. `heard` is empty until the request is sent. -/
structure Ping where
  host : Host
  phase : PingPhase
  sent : Bool
  heard : List (List UInt8)
  deriving DecidableEq

/-- `now` is what `timer_get_ticks` returns. -/
inductive PingEvent where
  | frame (rounds : Nat) (bytes : List UInt8)
  | call (ip : Nat) (seq : UInt16) (now : Nat)
  | arpPoll
  | arpGiveUp
  | look (now : Nat)
  | giveUp

/-- The request goes out to an address that is known. -/
def Ping.send (s : Ping) (ip : Nat) (seq : UInt16) (t0 : Nat) : Option Ping :=
  (ipSend s.host [] ip ipProtoIcmp (pingPkt seq.toNat)).map fun host =>
    { s with host := host, phase := .wait ip seq t0, sent := true, heard := [] }

/-- `net_ping` up to its waiting loop (`net.c:547-571`). An unknown address is asked for first. -/
def Ping.call (s : Ping) (ip : Nat) (seq : UInt16) (now : Nat) : Option Ping :=
  if s.host.configured = false then some { s with phase := .done ip seq (-1), sent := false, heard := [] }
  else
    let s := { s with
      host := { s.host with icmp := ⟨true, htons16 pingId, htons16 seq.toNat, false⟩ }
      sent := false
      heard := [] }
    if (knownMac s.host ip).isSome then s.send ip seq now
    else (arpRequest s.host (hopOf s.host ip)).map fun host =>
      { s with host := host, phase := .resolve ip seq now }

/-- `icmp_state.waiting = false; return ret;` -/
def Ping.finish (s : Ping) (ip : Nat) (seq : UInt16) (ret : Int) : Ping :=
  { s with
    host := { s.host with icmp := { s.host.icmp with waiting := false } }
    phase := .done ip seq ret }

/-- One step. An event that the state does not allow changes nothing. -/
def Ping.step (s : Ping) (e : PingEvent) : Option Ping :=
  match e, s.phase with
  | .frame rounds bytes, _ => (handleFrame s.host rounds bytes).map fun host =>
    { s with host := host, heard := if s.sent then s.heard ++ [bytes] else s.heard }
  | .call ip seq now, .idle | .call ip seq now, .done _ _ _ => s.call ip seq now
  | .arpPoll, .resolve ip seq t0 =>
    if (arpCacheGet s.host.arpCache (hopOf s.host ip)).isSome then s.send ip seq t0 else some s
  -- The deadline of `resolve_mac`: `ip_send` returns without sending.
  | .arpGiveUp, .resolve ip seq t0 => some { s with phase := .wait ip seq t0 }
  | .look now, .wait ip seq t0 =>
    if s.host.icmp.got then some (s.finish ip seq (BitVec.ofNat 32 (sub64 now t0)).toInt) else some s
  | .giveUp, .wait ip seq _ => some (s.finish ip seq (-1))
  | _, _ => some s

/-- Before the first call. -/
def PingStart (s : Ping) : Prop :=
  s.host.Ok ∧ s.host.icmp.Ok ∧ s.phase = .idle ∧ s.sent = false ∧ s.heard = []

/-- The frame is the reply of the host `ip` to a request with this sequence number. -/
def ReplyOf (s : Host) (ip : Nat) (seq : UInt16) (frame : List UInt8) : Prop :=
  EchoReplyIn s frame pingId seq.toNat ∧ addrAt frame 26 = ip

instance (s : Host) (ip : Nat) (seq : UInt16) (frame : List UInt8) :
    Decidable (ReplyOf s ip seq frame) := inferInstanceAs (Decidable (_ ∧ _))

/-- A call that has succeeded has been answered since its request was sent. -/
def Ping.Sound (s : Ping) : Prop :=
  match s.phase with
  | .done ip seq ret => 0 ≤ ret → ∃ frame ∈ s.heard, ReplyOf s.host ip seq frame
  | _ => True

/-- The address and number that a call is waiting for. -/
def PingPhase.awaits : PingPhase → Option (Nat × UInt16)
  | .resolve ip seq _ | .wait ip seq _ => some (ip, seq)
  | _ => none

/-- The condition is about echo replies with the id and the number of the request: they come from
    the host that is pinged, and after the request. -/
def PingOk (s : Ping) : PingEvent → Prop
  | .frame _ bytes => ∀ q ∈ s.phase.awaits, EchoReplyIn s.host bytes pingId q.2.toNat →
      s.sent = true ∧ addrAt bytes 26 = q.1
  | _ => True

instance (s : Ping) : ∀ e : PingEvent, Decidable (PingOk s e)
  | .frame _ bytes => inferInstanceAs (Decidable (∀ q ∈ s.phase.awaits,
      EchoReplyIn s.host bytes pingId q.2.toNat → s.sent = true ∧ addrAt bytes 26 = q.1))
  | .call _ _ _ | .arpPoll | .arpGiveUp | .look _ | .giveUp => .isTrue trivial

def PingStep (s t : Ping) : Prop := ∃ e, s.step e = some t

def PingStepOk (s t : Ping) : Prop := ∃ e, PingOk s e ∧ s.step e = some t

/-! ## The invariant -/

/-- The echo state asks for this reply. -/
structure Listens (c : IcmpState) (seq : UInt16) : Prop where
  waiting : c.waiting = true
  id : c.id = htons16 pingId
  seq : c.seq = htons16 seq.toNat

/-- What `got` means in each phase. -/
def PingPhase.Means (p : PingPhase) (s : Ping) : Prop :=
  match p with
  | .idle => True
  | .resolve _ seq _ => Listens s.host.icmp seq ∧ s.host.icmp.got = false ∧ s.sent = false
  | .wait ip seq _ => Listens s.host.icmp seq ∧
      (s.host.icmp.got = true → ∃ frame ∈ s.heard, ReplyOf s.host ip seq frame)
  | .done ip seq ret => 0 ≤ ret → ∃ frame ∈ s.heard, ReplyOf s.host ip seq frame

structure PingInv (s : Ping) : Prop where
  mac : s.host.ourMac.length = 6
  icmp : s.host.icmp.Ok
  means : s.phase.Means s

/-- The echo state takes note of exactly the replies that are waited for. -/
theorem Listens.after {s : Host} {seq : UInt16} (h : Listens s.icmp seq) (frame : List UInt8) :
    icmpAfter s frame =
      if EchoReplyIn s frame pingId seq.toNat then { s.icmp with got := true } else s.icmp := by
  have hseq : htons16 s.icmp.seq = seq.toNat := by
    rw [h.seq, htons16_htons16, Nat.mod_eq_of_lt seq.toNat_lt]
  have hid : htons16 s.icmp.id = pingId := by rw [h.id]; rfl
  rw [icmpAfter, hseq, hid]
  exact if_congr ⟨fun hc => hc.2, fun hc => ⟨h.waiting, hc⟩⟩ rfl rfl

theorem Listens.ok {c : IcmpState} {seq : UInt16} (h : Listens c seq) : c.Ok :=
  ⟨h.id ▸ htons16_lt _, h.seq ▸ htons16_lt _⟩

theorem icmpAfter_same (s : Host) (frame : List UInt8) :
    (icmpAfter s frame).id = s.icmp.id ∧ (icmpAfter s frame).seq = s.icmp.seq ∧
      (icmpAfter s frame).waiting = s.icmp.waiting := by
  simp only [icmpAfter]
  split <;> exact ⟨rfl, rfl, rfl⟩

/-- A frame that meets the condition. -/
theorem PingInv.frame {s t : Ping} (hs : PingInv s) {rounds : Nat} {bytes : List UInt8}
    (hok : PingOk s (.frame rounds bytes)) (h : s.step (.frame rounds bytes) = some t) :
    PingInv t := by
  obtain ⟨host, hhost, rfl⟩ := Option.map_eq_some_iff.mp h
  obtain ⟨cache, id, sent, rfl⟩ := (handleFrame_handled hs.mac hs.icmp hhost).same
  obtain ⟨hid, hseq, hwaiting⟩ := icmpAfter_same s.host bytes
  refine ⟨hs.mac, ⟨hid ▸ hs.icmp.1, hseq ▸ hs.icmp.2⟩, ?_⟩
  -- the frames heard so far are still there
  have hheard : ∀ {ip : Nat} {seq : UInt16}, (∃ f ∈ s.heard, ReplyOf s.host ip seq f) →
      ∃ f ∈ (if s.sent then s.heard ++ [bytes] else s.heard), ReplyOf s.host ip seq f := by
    rintro ip seq ⟨f, hf, hrep⟩
    refine ⟨f, ?_, hrep⟩
    split
    · exact List.mem_append_left _ hf
    · exact hf
  have hmeans := hs.means
  cases hphase : s.phase with
  | idle => trivial
  | resolve ip seq t0 =>
    rw [hphase] at hmeans
    obtain ⟨hl, hgot, hsent⟩ := hmeans
    have hno : ¬ EchoReplyIn s.host bytes pingId seq.toNat := fun hrep => by
      have := (hok (ip, seq) (by rw [hphase]; rfl) hrep).1
      rw [hsent] at this
      cases this
    have hafter := hl.after bytes
    rw [if_neg hno] at hafter
    simp only [PingPhase.Means, hafter]
    exact ⟨hl, hgot, hsent⟩
  | wait ip seq t0 =>
    rw [hphase] at hmeans
    obtain ⟨hl, hgot⟩ := hmeans
    refine ⟨⟨hwaiting.trans hl.waiting, hid.trans hl.id, hseq.trans hl.seq⟩, fun hnow => ?_⟩
    by_cases hrep : EchoReplyIn s.host bytes pingId seq.toNat
    · obtain ⟨hsent, hsrc⟩ := hok (ip, seq) (by rw [hphase]; rfl) hrep
      refine ⟨bytes, ?_, hrep, hsrc⟩
      simp [hsent]
    · have hafter := hl.after bytes
      rw [if_neg hrep] at hafter
      simp only [hafter] at hnow
      exact hheard (hgot hnow)
  | done ip seq ret =>
    rw [hphase] at hmeans
    exact fun hret => hheard (hmeans hret)

/-- Sending the request. -/
theorem PingInv.send {s t : Ping} {ip : Nat} {seq : UInt16} {t0 : Nat}
    (hmac : s.host.ourMac.length = 6) (hl : Listens s.host.icmp seq)
    (hgot : s.host.icmp.got = false) (h : s.send ip seq t0 = some t) : PingInv t := by
  obtain ⟨host, hhost, rfl⟩ := Option.map_eq_some_iff.mp h
  obtain ⟨cache, id, sent, rfl⟩ := ipSend_same hmac hhost
  refine ⟨hmac, hl.ok, hl, fun hnow => ?_⟩
  simp only [hgot] at hnow
  cases hnow

theorem PingInv.call {s t : Ping} (hs : PingInv s) {ip : Nat} {seq : UInt16} {now : Nat}
    (h : s.call ip seq now = some t) : PingInv t := by
  unfold Ping.call at h
  split at h
  · cases h
    exact ⟨hs.mac, hs.icmp, fun hret => absurd hret (by decide)⟩
  · have hl : Listens ⟨true, htons16 pingId, htons16 seq.toNat, false⟩ seq := ⟨rfl, rfl, rfl⟩
    simp only at h
    split at h
    · exact PingInv.send (by exact hs.mac) hl rfl h
    · obtain ⟨host, hhost, rfl⟩ := Option.map_eq_some_iff.mp h
      obtain ⟨sent, rfl⟩ := ethSend_same hhost
      exact ⟨hs.mac, hl.ok, hl, rfl, rfl⟩

theorem PingInv.finish {s : Ping} (hs : PingInv s) {ip : Nat} {seq : UInt16} {ret : Int}
    (h : 0 ≤ ret → ∃ frame ∈ s.heard, ReplyOf s.host ip seq frame) :
    PingInv (s.finish ip seq ret) := ⟨hs.mac, hs.icmp, h⟩

/-- Every step that meets the condition keeps the invariant. -/
theorem PingInv.step {s t : Ping} {e : PingEvent} (hs : PingInv s) (hok : PingOk s e)
    (h : s.step e = some t) : PingInv t := by
  have hmeans := hs.means
  unfold Ping.step at h
  split at h
  · exact hs.frame hok h
  · exact hs.call h
  · exact hs.call h
  · next ip seq t0 hphase =>
    rw [hphase] at hmeans
    split at h
    · exact PingInv.send hs.mac hmeans.1 hmeans.2.1 h
    · cases h
      exact hs
  · next ip seq t0 hphase =>
    rw [hphase] at hmeans
    cases h
    refine ⟨hs.mac, hs.icmp, hmeans.1, fun hnow => ?_⟩
    simp only [hmeans.2.1] at hnow
    cases hnow
  · next now ip seq t0 hphase =>
    rw [hphase] at hmeans
    split at h
    · next hgot =>
      cases h
      exact hs.finish fun _ => hmeans.2 hgot
    · cases h
      exact hs
  · next ip seq t0 hphase =>
    cases h
    exact hs.finish fun hret => absurd hret (by decide)
  · cases h
    exact hs

theorem PingInv.sound {s : Ping} (hs : PingInv s) : s.Sound := by
  have hmeans := hs.means
  unfold Ping.Sound
  split
  · next ip seq ret hphase =>
    rw [hphase] at hmeans
    exact hmeans
  · trivial

/-- In every run in which the only echo replies with the id and the number of an outstanding request
    come from the host that is pinged and after the request, every call that succeeds has been
    answered by that host since it sent its request. -/
theorem netPing_sound (s : Ping) (h : Reach PingStart PingStepOk s) : s.Sound := by
  refine (h.invariant (I := PingInv) (fun s hs => ?_) fun s t hs hst => ?_).sound
  · obtain ⟨hok, hicmp, hphase, -, -⟩ := hs
    refine ⟨hok.mac, hicmp, ?_⟩
    rw [hphase]
    trivial
  · obtain ⟨e, hok, hstep⟩ := hst
    exact hs.step hok hstep

/-! ## Two hosts answer -/

def demoPinger : Ping := ⟨demoHost, .idle, false, []⟩

theorem pingStart_demoPinger : PingStart demoPinger :=
  ⟨ok_demoHost, ⟨by decide, by decide⟩, rfl, rfl, rfl⟩

/-- An echo reply of this host to the first request. -/
def demoReply (src : List UInt8) : List UInt8 :=
  demoHost.ourMac ++ [0x52, 0x55, 10, 0, 2, 2] ++ net16 ethIp ++ [0x45, 0] ++ net16 28 ++
    [0, 1, 0, 0, 64, ipProtoIcmp, 0, 0] ++ src ++ [10, 0, 2, 15] ++
    [0, 0, 0, 0, 0xC0, 0xC0, 0, 1]

/-- The gateway 10.0.2.2 is pinged. -/
def demoCalled : Ping := (demoPinger.step (.call (leNat [10, 0, 2, 2]) 1 100)).getD demoPinger

/-- This host replies. -/
def demoReplied (src : List UInt8) : Ping :=
  (demoCalled.step (.frame 0 (demoReply src))).getD demoPinger

/-- The call looks. -/
def demoLooked (src : List UInt8) : Ping := ((demoReplied src).step (.look 103)).getD demoPinger

theorem step_demoCalled :
    demoPinger.step (.call (leNat [10, 0, 2, 2]) 1 100) = some demoCalled := by
  decide +kernel

/-- The gateway's reply is waited for. -/
theorem netPing_sound_gateway : (demoLooked [10, 0, 2, 2]).phase = .done (leNat [10, 0, 2, 2]) 1 3 ∧
    (demoLooked [10, 0, 2, 2]).Sound := by
  refine ⟨by decide +kernel, netPing_sound _ ?_⟩
  have hcall : Reach PingStart PingStepOk demoCalled :=
    (Reach.init pingStart_demoPinger).step
      ⟨.call (leNat [10, 0, 2, 2]) 1 100, trivial, step_demoCalled⟩
  have hframe : Reach PingStart PingStepOk (demoReplied [10, 0, 2, 2]) := by
    apply hcall.step
    exact ⟨.frame 0 (demoReply [10, 0, 2, 2]), by decide +kernel, by decide +kernel⟩
  apply hframe.step
  exact ⟨.look 103, trivial, by decide +kernel⟩

/-- The same reply of another host makes the call succeed. -/
theorem netPing_takes_foreign : Reach PingStart PingStep (demoLooked [10, 0, 2, 66]) ∧
    ¬ (demoLooked [10, 0, 2, 66]).Sound := by
  refine ⟨?_, fun hsound => ?_⟩
  · have hcall : Reach PingStart PingStep demoCalled :=
      (Reach.init pingStart_demoPinger).step ⟨_, step_demoCalled⟩
    have hframe : Reach PingStart PingStep (demoReplied [10, 0, 2, 66]) := by
      apply hcall.step
      exact ⟨.frame 0 (demoReply [10, 0, 2, 66]), by decide +kernel⟩
    apply hframe.step
    exact ⟨.look 103, by decide +kernel⟩
  · have hphase : (demoLooked [10, 0, 2, 66]).phase = .done (leNat [10, 0, 2, 2]) 1 3 := by
      decide +kernel
    rw [Ping.Sound, hphase] at hsound
    obtain ⟨frame, hmem, hrep⟩ := hsound (by decide)
    have hnone : ∀ frame ∈ (demoLooked [10, 0, 2, 66]).heard,
        ¬ ReplyOf (demoLooked [10, 0, 2, 66]).host (leNat [10, 0, 2, 2]) 1 frame := by
      decide
    exact hnone frame hmem hrep

end ChocoOs.Net
