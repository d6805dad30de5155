import ChocoOs.Net.Mailbox

/-!
# What a frame does

The receive thread hands a frame to at most one handler. Beside the address cache and the frames
that are sent, a frame changes the mailbox, when it is a datagram that the mailbox takes, and the
echo state, when it is an echo reply that is waited for.
-/

namespace ChocoOs.Net
open ProgLib

instance (s : Host) (frame : List UInt8) : Decidable (Accepted s frame) :=
  inferInstanceAs (Decidable (_ ∧ _))

/-- Where the data of the IP datagram begin. -/
def dataOff (frame : List UInt8) : Nat := 14 + (byteAt frame 14).toNat % 16 * 4

/-- The frame is a datagram of this protocol with at least 8 bytes of data. -/
def Delivers (s : Host) (proto : UInt8) (frame : List UInt8) : Prop :=
  Accepted s frame ∧ byteAt frame 23 = proto ∧ 8 ≤ dataLen frame

instance (s : Host) (proto : UInt8) (frame : List UInt8) : Decidable (Delivers s proto frame) :=
  inferInstanceAs (Decidable (_ ∧ _))

/-- The datagram that `handle_udp` gets. -/
def udpIn (s : Host) (frame : List UInt8) : Option Dgram :=
  if Delivers s ipProtoUdp frame then
    some (dgramOf (frame.drop 14) (frame.drop (dataOff frame)) (dataLen frame))
  else none

/-- The mailbox after a frame. -/
def udpAfter (s : Host) (frame : List UInt8) : UdpSock :=
  match udpIn s frame with
  | some d => offered s.udp d
  | none => s.udp

/-- An echo reply with this id and sequence number. -/
def EchoReplyIn (s : Host) (frame : List UInt8) (id seq : Nat) : Prop :=
  Delivers s ipProtoIcmp frame ∧ byteAt frame (dataOff frame) = 0 ∧
    shortAt frame (dataOff frame + 4) = id ∧ shortAt frame (dataOff frame + 6) = seq

instance (s : Host) (frame : List UInt8) (id seq : Nat) : Decidable (EchoReplyIn s frame id seq) :=
  inferInstanceAs (Decidable (_ ∧ _))

/-- The echo state after a frame. -/
def icmpAfter (s : Host) (frame : List UInt8) : IcmpState :=
  if s.icmp.waiting = true ∧
      EchoReplyIn s frame (htons16 s.icmp.id) (htons16 s.icmp.seq) then { s.icmp with got := true }
  else s.icmp

/-- A frame is handled to the effect that the two definitions say. -/
structure Handled (s : Host) (frame : List UInt8) (s' : Host) : Prop where
  same : ∃ cache id sent, s' = { s with
    arpCache := cache, ipId := id, sent := sent, udp := udpAfter s frame, icmp := icmpAfter s frame }

/-! ## The handlers -/

theorem ethSend_same {s s' : Host} {mac payload : List UInt8} {ethertype : Nat}
    (h : ethSend s mac ethertype payload = some s') : ∃ sent, s' = { s with sent := sent } := by
  unfold ethSend at h
  obtain ⟨frame, -, heq⟩ := Option.bind_eq_some_iff.mp h
  cases heq
  exact ⟨_, rfl⟩

theorem ipSend_same {s s' : Host} (hs : s.ourMac.length = 6) {polls : List (List ArpEntry)}
    {dst : Nat} {proto : UInt8} {payload : List UInt8}
    (h : ipSend s polls dst proto payload = some s') :
    ∃ cache id sent, s' = { s with arpCache := cache, ipId := id, sent := sent } := by
  unfold ipSend at h
  obtain ⟨⟨t, mac⟩, hres, h⟩ := Option.bind_eq_some_iff.mp h
  obtain ⟨cache, new, rfl, -⟩ := resolveMac_same hs hres
  cases mac with
  | none =>
    cases h
    exact ⟨_, _, _, rfl⟩
  | some mac =>
    obtain ⟨pkt, -, h⟩ := Option.bind_eq_some_iff.mp h
    obtain ⟨sent, rfl⟩ := ethSend_same h
    exact ⟨_, _, _, rfl⟩

theorem handleArp_same {s s' : Host} {payload : List UInt8} {len : Int}
    (h : handleArp s payload len = some s') :
    ∃ cache sent, s' = { s with arpCache := cache, sent := sent } := by
  unfold handleArp at h
  split at h
  · cases h
    exact ⟨_, _, rfl⟩
  · simp only [Option.bind_eq_bind] at h
    obtain ⟨spa, -, h⟩ := Option.bind_eq_some_iff.mp h
    obtain ⟨sha, -, h⟩ := Option.bind_eq_some_iff.mp h
    obtain ⟨op, -, h⟩ := Option.bind_eq_some_iff.mp h
    obtain ⟨tpa, -, h⟩ := Option.bind_eq_some_iff.mp h
    split at h
    · obtain ⟨sent, rfl⟩ := ethSend_same h
      exact ⟨_, _, rfl⟩
    · cases h
      exact ⟨_, _, rfl⟩

/-- A 16-bit field in memory order and its value. -/
theorem leNat_eq_iff {b : List UInt8} {i v : Nat} (hv : v < 65536) :
    leNat ((b.drop i).take 2) = v ↔ shortAt b i = htons16 v := by
  have hlt : leNat ((b.drop i).take 2) < 65536 := by
    refine Nat.lt_of_lt_of_le (leNat_lt _) ?_
    exact (Nat.pow_le_pow_right (by decide) (List.length_take_le 2 _)).trans (Nat.le_of_eq rfl)
  constructor
  · rintro rfl
    rfl
  · intro h
    have := congrArg htons16 h
    rw [shortAt, htons16_htons16, htons16_htons16, Nat.mod_eq_of_lt hlt, Nat.mod_eq_of_lt hv] at this
    exact this

/-- What `handle_icmp` does: it answers a request, or takes note of a reply. -/
theorem handleIcmp_same {s s' : Host} (hs : s.ourMac.length = 6) {rounds : Nat}
    {ip payload : List UInt8} {len : Int} (hlen : 8 ≤ len → len ≤ payload.length)
    (hid : s.icmp.id < 65536) (hseq : s.icmp.seq < 65536)
    (h : handleIcmp s rounds ip payload len = some s') :
    ∃ cache id sent, s' = { s with
      arpCache := cache, ipId := id, sent := sent
      icmp := if s.icmp.waiting = true ∧ 8 ≤ len ∧ byteAt payload 0 = 0 ∧
          shortAt payload 4 = htons16 s.icmp.id ∧ shortAt payload 6 = htons16 s.icmp.seq
        then { s.icmp with got := true } else s.icmp } := by
  unfold handleIcmp at h
  split at h
  · next hshort =>
    cases h
    refine ⟨s.arpCache, s.ipId, s.sent, ?_⟩
    rw [if_neg fun hc => by omega]
  · next hlong =>
    have hpay := hlen (by omega)
    rw [getElem?_byteAt (by omega), Option.bind_eq_bind, Option.bind_some] at h
    split at h
    · next h8 =>
      simp only [Option.bind_eq_bind] at h
      obtain ⟨data, -, h⟩ := Option.bind_eq_some_iff.mp h
      obtain ⟨pkt, -, h⟩ := Option.bind_eq_some_iff.mp h
      obtain ⟨src, -, h⟩ := Option.bind_eq_some_iff.mp h
      obtain ⟨cache, id, sent, rfl⟩ := ipSend_same hs h
      refine ⟨cache, id, sent, ?_⟩
      rw [if_neg fun hc => absurd (h8.symm.trans hc.2.2.1) (by decide)]
    · rw [get16_eq (by omega), get16_eq (by omega)] at h
      simp only [Option.bind_eq_bind, Option.bind_some, leNat_eq_iff hid, leNat_eq_iff hseq] at h
      split at h
      · next hrep =>
        cases h
        refine ⟨s.arpCache, s.ipId, s.sent, ?_⟩
        rw [if_pos ⟨hrep.2.1, by omega, hrep.1, hrep.2.2⟩]
      · next hno =>
        cases h
        refine ⟨s.arpCache, s.ipId, s.sent, ?_⟩
        rw [if_neg fun hc => hno ⟨hc.2.2.1, hc.1, hc.2.2.2⟩]

/-! ## The frame -/

theorem dataLen_le {frame : List UInt8} (h : 8 ≤ dataLen frame) :
    dataLen frame ≤ (frame.drop (dataOff frame)).length := by
  rw [List.length_drop, dataOff]
  unfold dataLen at h ⊢
  simp only at h ⊢
  split at h
  · next hc =>
    rw [if_pos hc]
    omega
  · next hc =>
    rw [if_neg hc]
    omega

theorem udpAfter_of_not {s : Host} {frame : List UInt8} (h : ¬ Delivers s ipProtoUdp frame) :
    udpAfter s frame = s.udp := by
  rw [udpAfter, udpIn, if_neg h]

theorem icmpAfter_of_not {s : Host} {frame : List UInt8} (h : ¬ Delivers s ipProtoIcmp frame) :
    icmpAfter s frame = s.icmp := if_neg fun hc => h hc.2.1

/-- A frame that is no accepted datagram changes neither. -/
theorem handled_other {s s' : Host} {rounds : Nat} {frame : List UInt8} (hacc : ¬ Accepted s frame)
    (h : handleFrame s rounds frame = some s') : Handled s frame s' := by
  refine ⟨?_⟩
  rw [udpAfter_of_not fun hd => hacc hd.1, icmpAfter_of_not fun hd => hacc hd.1]
  unfold handleFrame at h
  split at h
  · cases h
    exact ⟨_, _, _, rfl⟩
  · next hlen =>
    rw [get16_eq (by omega), Option.bind_eq_bind, Option.bind_some, htons16_leNat] at h
    simp only at h
    split at h
    · obtain ⟨cache, sent, rfl⟩ := handleArp_same h
      exact ⟨_, _, _, rfl⟩
    · split at h
      · cases h
        exact ⟨_, _, _, rfl⟩
      · next hip =>
        have hpay : (frame.drop 14).length = frame.length - 14 := List.length_drop
        rw [getElem?_byteAt (by omega), get16_eq (by omega), get32_eq (by omega)] at h
        simp only [Option.bind_eq_bind, Option.bind_some, addrAt_drop, Nat.reduceAdd] at h
        split at h
        · cases h
          exact ⟨_, _, _, rfl⟩
        · next hdst =>
          refine absurd ⟨by omega, Classical.not_not.mp fun hne => hip (.inl hne), ?_⟩ hacc
          by_contra hno
          rw [not_or, not_or] at hno
          exact hdst hno

/-- What the bounds of the types say about the echo state. -/
def IcmpState.Ok (c : IcmpState) : Prop := c.id < 65536 ∧ c.seq < 65536

/-- Every frame that is handled within the buffers. -/
theorem handleFrame_handled {s s' : Host} {rounds : Nat} {frame : List UInt8}
    (hs : s.ourMac.length = 6) (hicmp : s.icmp.Ok) (h : handleFrame s rounds frame = some s') :
    Handled s frame s' := by
  by_cases hacc : Accepted s frame
  · have hlen := hacc.1
    have hpay : (frame.drop 14).length = frame.length - 14 := List.length_drop
    rw [handleFrame_accepted hacc] at h
    simp only at h
    split at h
    · next hproto =>
      have hudp : ¬ Delivers s ipProtoUdp frame := fun hd =>
        absurd (hproto.symm.trans hd.2.1) (by decide)
      obtain ⟨cache, id, sent, rfl⟩ := handleIcmp_same hs dataLen_le hicmp.1 hicmp.2 h
      refine ⟨cache, id, sent, ?_⟩
      rw [udpAfter_of_not hudp, icmpAfter]
      simp only [byteAt_drop, shortAt_drop]
      refine congrArg (fun c => { s with arpCache := cache, ipId := id, sent := sent, icmp := c }) ?_
      refine if_congr ⟨fun hc => ?_, fun hc => ?_⟩ rfl rfl
      · exact ⟨hc.1, ⟨hacc, hproto, hc.2.1⟩, hc.2.2.1, hc.2.2.2⟩
      · exact ⟨hc.1, hc.2.1.2.2, hc.2.2.1, hc.2.2.2⟩
    · next hproto =>
      have hicmp : ¬ Delivers s ipProtoIcmp frame := fun hd => hproto hd.2.1
      refine ⟨?_⟩
      rw [icmpAfter_of_not hicmp]
      split at h
      · next hudp =>
        by_cases hshort : dataLen frame < 8
        · rw [handleUdp, if_pos hshort] at h
          cases h
          rw [udpAfter_of_not fun hd => by have := hd.2.2; omega]
          exact ⟨_, _, _, rfl⟩
        · have hfloor : 8 ≤ dataLen frame := by omega
          have hle := dataLen_le hfloor
          obtain ⟨n, hn⟩ := Int.eq_ofNat_of_zero_le (show 0 ≤ dataLen frame by omega)
          have hd : Delivers s ipProtoUdp frame := ⟨hacc, hudp, by omega⟩
          rw [hn, show 14 + (byteAt frame 14).toNat % 16 * 4 = dataOff frame from rfl,
            handleUdp_eq (by omega) (by omega) (by omega)] at h
          cases h
          rw [udpAfter, udpIn, if_pos hd, hn]
          exact ⟨_, _, _, rfl⟩
      · next hudp =>
        cases h
        rw [udpAfter_of_not fun hd => hudp hd.2.1]
        exact ⟨_, _, _, rfl⟩
  · exact handled_other hacc h

end ChocoOs.Net
