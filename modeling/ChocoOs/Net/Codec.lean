import ChocoOs.Net.Receive

/-!
# The transmit and the receive side

The fields of a frame that `ip_send` has built, as `handle_frame` reads them.
-/

namespace ChocoOs.Net
open ProgLib

/-! ## The fields of a built datagram -/

section fields

variable {len id csum src dst : Nat} {proto : UInt8} {rest : List UInt8}

theorem ipHdr_version : byteAt (ipHdr len id proto csum src dst ++ rest) 0 = 0x45 := rfl

theorem ipHdr_proto : byteAt (ipHdr len id proto csum src dst ++ rest) 9 = proto := rfl

theorem ipHdr_total (h : 20 + len < 65536) :
    shortAt (ipHdr len id proto csum src dst ++ rest) 2 = 20 + len :=
  (leNat_net16 (20 + len)).trans (Nat.mod_eq_of_lt h)

theorem ipHdr_src (h : src < 2 ^ 32) : addrAt (ipHdr len id proto csum src dst ++ rest) 12 = src :=
  leNat_leBytes (n := 4) h

theorem ipHdr_dst (h : dst < 2 ^ 32) : addrAt (ipHdr len id proto csum src dst ++ rest) 16 = dst :=
  leNat_leBytes (n := 4) h

end fields

/-- The padding behind a payload. -/
def padding (len : Nat) : List UInt8 := List.replicate (60 - (14 + len)) 0

/-- A frame is its header and what it carries. -/
theorem ethFrame_drop {mac src payload : List UInt8} {ethertype : Nat} (hmac : mac.length = 6)
    (hsrc : src.length = 6) :
    (ethFrame mac src ethertype payload).drop 14 = payload ++ padding payload.length := by
  have hhdr : (mac ++ src ++ net16 ethertype).length = 14 := by
    simp only [List.length_append, net16_length, hmac, hsrc]
  rw [ethFrame, List.append_assoc, ← padding]
  exact List.drop_left' hhdr

theorem ethFrame_type {mac src payload : List UInt8} {ethertype : Nat} (hmac : mac.length = 6)
    (hsrc : src.length = 6) (h : ethertype < 65536) :
    shortAt (ethFrame mac src ethertype payload) 12 = ethertype := by
  have hhdr : (mac ++ src).length = 12 := by
    rw [List.length_append, hmac, hsrc]
  rw [shortAt, ethFrame, List.append_assoc, List.append_assoc, List.drop_left' hhdr]
  exact (leNat_net16 ethertype).trans (Nat.mod_eq_of_lt h)

theorem ethFrame_length {mac src payload : List UInt8} {ethertype : Nat} (hmac : mac.length = 6)
    (hsrc : src.length = 6) : (ethFrame mac src ethertype payload).length =
      14 + payload.length + (60 - (14 + payload.length)) := by
  simp only [ethFrame, List.length_append, net16_length, hmac, hsrc, List.length_replicate]

/-- A datagram as it lies in a frame. -/
structure Carries (frame : List UInt8) (proto : UInt8) (src dst : Nat) (payload : List UInt8) :
    Prop where
  length : 34 + payload.length ≤ frame.length
  type : shortAt frame 12 = ethIp
  version : byteAt frame 14 = 0x45
  total : shortAt frame 16 = 20 + payload.length
  proto : byteAt frame 23 = proto
  src : addrAt frame 26 = src
  dst : addrAt frame 30 = dst
  payload : ∃ rest, frame.drop 34 = payload ++ rest
  checksum : ChecksumOk ((frame.drop 14).take 20)

/-- The header sums up. -/
theorem checksumOk_ipHdr (len id : Nat) (proto : UInt8) (src dst : Nat) : ChecksumOk
    (ipHdr len id proto (checksum16 (ipHdr len id proto 0 src dst) 0) src dst) := by
  have hsplit : ∀ csum, ipHdr len id proto csum src dst =
      ([0x45, 0] ++ net16 (20 + len) ++ net16 id ++ net16 0x4000 ++ [64, proto]) ++ leBytes 2 csum ++
        (leBytes 4 src ++ leBytes 4 dst) := fun csum => by
    rw [ipHdr, List.append_assoc]
  rw [hsplit, hsplit 0]
  exact checksumOk_fill (by simp only [List.length_append, net16_length, List.length_cons,
    List.length_nil])

/-- What `ip_send` and `eth_send` build carries the payload. -/
theorem carries_ethFrame {mac src payload : List UInt8} {id srcIp dst : Nat} {proto : UInt8}
    (hmac : mac.length = 6) (hsrc : src.length = 6) (hip : srcIp < 2 ^ 32) (hdst : dst < 2 ^ 32)
    (hlen : 20 + payload.length < 65536) :
    Carries (ethFrame mac src ethIp (ipPkt id proto srcIp dst payload)) proto srcIp dst payload := by
  have hhdr := ipHdr_length payload.length id proto
    (checksum16 (ipHdr payload.length id proto 0 srcIp dst) 0) srcIp dst
  have hpkt : (ipPkt id proto srcIp dst payload).length = 20 + payload.length := by
    rw [ipPkt, List.length_append, hhdr]
  have hdrop : (ethFrame mac src ethIp (ipPkt id proto srcIp dst payload)).drop 14 = _ :=
    ethFrame_drop hmac hsrc
  rw [ipPkt, List.append_assoc] at hdrop
  obtain ⟨frame, hframe⟩ : ∃ frame, frame = ethFrame mac src ethIp (ipPkt id proto srcIp dst payload) :=
    ⟨_, rfl⟩
  rw [← ipPkt, ← hframe] at hdrop
  rw [← hframe]
  refine ⟨?_, ?_, ?_, ?_, ?_, ?_, ?_, ?_, ?_⟩
  · rw [hframe, ethFrame_length hmac hsrc, hpkt]
    omega
  · rw [hframe]
    exact ethFrame_type hmac hsrc (by decide)
  · rw [← byteAt_drop frame 14 0, hdrop]
    exact ipHdr_version
  · rw [← shortAt_drop frame 14 2, hdrop]
    exact ipHdr_total hlen
  · rw [← byteAt_drop frame 14 9, hdrop]
    exact ipHdr_proto
  · rw [← addrAt_drop frame 14 12, hdrop]
    exact ipHdr_src hip
  · rw [← addrAt_drop frame 14 16, hdrop]
    exact ipHdr_dst hdst
  · have hsplit : frame.drop 34 = (frame.drop 14).drop 20 := by rw [List.drop_drop]
    rw [hsplit, hdrop, List.drop_left' hhdr]
    exact ⟨_, rfl⟩
  · rw [hdrop, List.take_left' hhdr]
    exact checksumOk_ipHdr payload.length id proto srcIp dst

/-- The receiver takes the length from the header, so that no padding is left. -/
theorem Carries.dataLen {frame payload : List UInt8} {proto : UInt8} {src dst : Nat}
    (h : Carries frame proto src dst payload) : dataLen frame = payload.length := by
  have hlen := h.length
  unfold Net.dataLen
  rw [h.version, h.total, show (0x45 : UInt8).toNat % 16 * 4 = 20 from rfl]
  simp only
  rw [if_neg (by omega)]
  omega

theorem Carries.accepted {s : Host} {frame payload : List UInt8} {proto : UInt8} {src dst : Nat}
    (h : Carries frame proto src dst payload) (hdst : dst = s.ourIp) : Accepted s frame :=
  ⟨Nat.le_trans (Nat.le_add_right _ _) h.length, h.type, .inr (.inl (h.dst.trans hdst))⟩

/-! ## UDP -/

/-- The UDP header and payload that `udp_send` builds. -/
def udpPkt (sport dport : Nat) (payload : List UInt8) : List UInt8 :=
  net16 sport ++ net16 dport ++ net16 (8 + payload.length) ++ leBytes 2 0 ++ payload

theorem udpPkt_length (sport dport : Nat) (payload : List UInt8) :
    (udpPkt sport dport payload).length = 8 + payload.length := by
  simp only [udpPkt, List.length_append, net16_length, leBytes_length]

/-- `udp_send` to a resolved address. -/
theorem udpSend_resolved {s t : Host} {polls : List (List ArpEntry)} {dst sport dport : Nat}
    {payload mac : List UInt8} (hsrc : t.ourMac.length = 6) (hmac : mac.length = 6)
    (h : resolveMac s polls dst = some (t, some mac)) (hlen : 42 + payload.length ≤ frameMax) :
    udpSend s polls dst sport dport payload = some { t with
      ipId := (t.ipId + 1) % 65536
      sent := t.sent ++ [ethFrame mac t.ourMac ethIp
        (ipPkt t.ipId ipProtoUdp t.ourIp dst (udpPkt sport dport payload))] } := by
  have hhdr : (net16 sport ++ net16 dport ++ net16 (8 + payload.length) ++ leBytes 2 0).length = 8 := by
    simp only [List.length_append, net16_length, leBytes_length]
  rw [udpSend, store_append hhdr (by omega), Option.bind_eq_bind, Option.bind_some, ← udpPkt]
  refine ipSend_resolved hsrc hmac h ?_
  rw [udpPkt_length]
  omega

/-- A datagram for the open mailbox is stored. -/
theorem handleUdp_store {s : Host} {ip rest payload : List UInt8} {sport dport : Nat}
    (hip : 20 ≤ ip.length) (hport : s.udp.port = dport) (hdport : 0 < dport ∧ dport < 65536)
    (hempty : s.udp.len = 0) (hpos : 0 < payload.length) (hlen : payload.length ≤ udpBufSize) :
    handleUdp s ip (udpPkt sport dport payload ++ rest) ((8 + payload.length : Nat) : Int) =
      some { s with udp := { s.udp with
        data := payload ++ s.udp.data.drop payload.length
        srcIp := addrAt ip 12
        len := payload.length } } := by
  have hbuf : udpBufSize = 1024 := rfl
  have hwhole : (udpPkt sport dport payload ++ rest).length = 8 + payload.length + rest.length := by
    rw [List.length_append, udpPkt_length]
  have hdp : shortAt (udpPkt sport dport payload ++ rest) 2 = dport :=
    (leNat_net16 dport).trans (Nat.mod_eq_of_lt hdport.2)
  have hul : shortAt (udpPkt sport dport payload ++ rest) 4 = 8 + payload.length :=
    (leNat_net16 (8 + payload.length)).trans (Nat.mod_eq_of_lt (by omega))
  have hbytes : ((udpPkt sport dport payload ++ rest).drop 8).take payload.length = payload := by
    have hhdr : (net16 sport ++ net16 dport ++ net16 (8 + payload.length) ++ leBytes 2 0).length = 8 := by
      simp only [List.length_append, net16_length, leBytes_length]
    rw [udpPkt, List.append_assoc, List.drop_left' hhdr, List.take_left]
  have hmatch : s.udp.port ≠ 0 ∧ dport = s.udp.port ∧ s.udp.len = 0 :=
    ⟨by omega, hport.symm, hempty⟩
  have hd : ((8 + payload.length : Nat) : Int) - 8 = payload.length := by omega
  rw [handleUdp, if_neg (by omega), get16_eq (by omega), Option.bind_eq_bind, Option.bind_some,
    htons16_leNat, hdp, if_pos hmatch, get16_eq (by omega), Option.bind_eq_bind, Option.bind_some,
    htons16_leNat, hul]
  simp only [hd, Int.toNat_natCast]
  rw [if_pos (by omega), field_eq (by omega), hbytes, get32_eq (by omega)]
  simp only [Option.bind_some]
  rw [store_le (by omega)]
  simp only [Option.bind_some, List.take_zero, List.nil_append, Nat.zero_add, Option.pure_def]

/-- A payload of 1 to 1024 bytes that one host sends to the open and empty mailbox of another
    arrives there with its length and the sender's address. -/
theorem udp_round_trip (a b t : Host) (ha : a.Ok) (hb : b.Ok) (polls : List (List ArpEntry))
    (hpolls : ∀ cache ∈ polls, ∀ e ∈ cache, e.mac.length = 6) (rounds sport dport : Nat)
    (payload mac : List UInt8) (hres : resolveMac a polls b.ourIp = some (t, some mac))
    (hpos : 1 ≤ payload.length) (hlen : payload.length ≤ 1024)
    (hport : b.udp.port = dport) (hdport : dport ≠ 0) (hempty : b.udp.len = 0) :
    ∃ a' frame b', udpSend a polls b.ourIp sport dport payload = some a' ∧
      a'.sent = t.sent ++ [frame] ∧ handleFrame b rounds frame = some b' ∧
      b'.udp.data.take payload.length = payload ∧ b'.udp.len = payload.length ∧
      b'.udp.srcIp = a.ourIp := by
  have hmac := resolveMac_length ha hpolls hres
  obtain ⟨hmac', hip⟩ : t.ourMac = a.ourMac ∧ t.ourIp = a.ourIp := by
    obtain ⟨cache, new, rfl, -⟩ := resolveMac_same ha.mac hres
    exact ⟨rfl, rfl⟩
  have hmac6 : t.ourMac.length = 6 := by rw [hmac', ha.mac]
  have hmax : frameMax = 1600 := rfl
  have hpkt := udpPkt_length sport dport payload
  have hcar : Carries (ethFrame mac t.ourMac ethIp (ipPkt t.ipId ipProtoUdp t.ourIp b.ourIp
      (udpPkt sport dport payload))) ipProtoUdp t.ourIp b.ourIp (udpPkt sport dport payload) :=
    carries_ethFrame hmac hmac6 (hip ▸ ha.ip) hb.ip (by omega)
  obtain ⟨rest, hrest⟩ := hcar.payload
  have hframe : handleFrame b rounds _ = _ := handleFrame_accepted (hcar.accepted rfl)
  rw [hcar.version, hcar.proto, hcar.dataLen, hpkt, show (0x45 : UInt8).toNat % 16 * 4 = 20 from rfl]
    at hframe
  simp only at hframe
  rw [if_neg (by decide), if_pos trivial, hrest, handleUdp_store ?_ hport ⟨by omega, hport ▸ hb.port⟩
    hempty hpos hlen, addrAt_drop, hcar.src] at hframe
  · exact ⟨_, _, _, udpSend_resolved hmac6 hmac hres (by omega), rfl, hframe, List.take_left, rfl, hip⟩
  · rw [List.length_drop]
    have := hcar.length
    omega

/-- A host on the same network that waits for a datagram. -/
def demoPeer : Host :=
  { demoHost with ourIp := leNat [10, 0, 2, 2], udp := { demoHost.udp with port := 49152 } }

theorem ok_demoPeer : demoPeer.Ok :=
  { ok_demoHost with ip := by decide, port := by decide }

/-- One byte, which leaves more padding than payload. -/
theorem udp_round_trip_byte : ∃ a' frame b', udpSend demoHost [] demoPeer.ourIp 53 49152 [7] = some a' ∧
    a'.sent = demoHost.sent ++ [frame] ∧ handleFrame demoPeer 0 frame = some b' ∧
    b'.udp.data.take 1 = [7] ∧ b'.udp.len = 1 ∧ b'.udp.srcIp = demoHost.ourIp :=
  udp_round_trip demoHost demoPeer demoHost ok_demoHost ok_demoPeer [] nofun 0 53 49152 [7]
    [0x52, 0x55, 10, 0, 2, 2] (resolveMac_known (by decide)) (by decide) (by decide) rfl (by decide) rfl

end ChocoOs.Net
