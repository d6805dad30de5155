import ChocoOs.Net.Codec

/-!
# The echo service

An echo request is answered on the receive thread, which nobody else can replace while it waits for
an address.
-/

namespace ChocoOs.Net
open ProgLib

/-- A well-formed echo request to this host from a host of its subnet. -/
structure EchoRequest (s : Host) (frame : List UInt8) : Prop where
  length : frame.length ≤ 1514
  type : shortAt frame 12 = ethIp
  version : byteAt frame 14 = 0x45
  total : 28 ≤ shortAt frame 16 ∧ 14 + shortAt frame 16 ≤ frame.length
  proto : byteAt frame 23 = ipProtoIcmp
  dst : s.ourIp ≠ 0 ∧ addrAt frame 30 = s.ourIp
  subnet : s.ourMask = 0 ∨ addrAt frame 26 &&& s.ourMask = s.ourIp &&& s.ourMask
  unicast : addrAt frame 26 ≠ 0 ∧ addrAt frame 26 ≠ 0xFFFFFFFF
  echo : byteAt frame 34 = 8

/-- `reply` answers the request with its id, sequence number and data, to the requester, and both
    its checksums are right. -/
structure EchoReply (s : Host) (frame reply : List UInt8) : Prop where
  type : shortAt reply 12 = ethIp
  version : byteAt reply 14 = 0x45
  total : shortAt reply 16 = shortAt frame 16
  proto : byteAt reply 23 = ipProtoIcmp
  src : addrAt reply 26 = s.ourIp
  dst : addrAt reply 30 = addrAt frame 26
  echo : byteAt reply 34 = 0
  code : byteAt reply 35 = byteAt frame 35
  data : (reply.drop 38).take (shortAt frame 16 - 24) = (frame.drop 38).take (shortAt frame 16 - 24)
  ipChecksum : ChecksumOk ((reply.drop 14).take 20)
  icmpChecksum : ChecksumOk ((reply.drop 34).take (shortAt frame 16 - 20))

/-- Handling the request transmits exactly one frame, an echo reply. -/
def Answers (s : Host) (rounds : Nat) (frame : List UInt8) : Prop :=
  ∃ s' reply, handleFrame s rounds frame = some s' ∧ s'.sent = s.sent ++ [reply] ∧
    EchoReply s frame reply

/-- The reply to a request `type code csum data`. -/
theorem echoReply_eq (t code c1 c2 : UInt8) (data : List UInt8) :
    echoReply (t :: code :: c1 :: c2 :: data) =
      [0, code] ++ leBytes 2 (checksum16 ([0, code] ++ [0, 0] ++ data) 0) ++ data := rfl

/-- An echo request on the subnet goes back to the requester itself. -/
theorem EchoRequest.knownMac {s : Host} {frame : List UInt8} (h : EchoRequest s frame) :
    knownMac s (addrAt frame 26) = arpCacheGet s.arpCache (addrAt frame 26) := by
  have hhop : hopOf s (addrAt frame 26) = addrAt frame 26 := by
    refine if_neg fun hoff => ?_
    rcases h.subnet with hm | hm
    · exact hoff.1 hm
    · exact hoff.2 hm
  have hb : ¬ (addrAt frame 26 = 0xFFFFFFFF ∨ addrAt frame 26 = 0) := by
    rintro (hb | hb)
    · exact h.unicast.2 hb
    · exact h.unicast.1 hb
  rw [Net.knownMac, hhop, if_neg hb]

theorem EchoRequest.handleFrame {s : Host} {rounds : Nat} {frame : List UInt8}
    (h : EchoRequest s frame) : handleFrame s rounds frame =
      ipSend s (List.replicate rounds s.arpCache) (addrAt frame 26) ipProtoIcmp
        (echoReply ((frame.drop 34).take (shortAt frame 16 - 20))) := by
  have hlen := h.length
  obtain ⟨hmin, hmax⟩ := h.total
  have hframe : frameMax = 1600 := rfl
  have hacc : Accepted s frame := ⟨by omega, h.type, .inr (.inl h.dst.2)⟩
  have hdata : dataLen frame = ((shortAt frame 16 - 20 : Nat) : Int) := by
    unfold dataLen
    rw [h.version, show (0x45 : UInt8).toNat % 16 * 4 = 20 from rfl]
    simp only
    rw [if_neg (by omega)]
    omega
  rw [handleFrame_accepted hacc, h.version, show (0x45 : UInt8).toNat % 16 * 4 = 20 from rfl]
  simp only
  rw [if_pos h.proto, hdata, handleIcmp_echo ?_ (by omega) ?_ (by omega) ?_, addrAt_drop]
  · rw [List.length_drop]
    omega
  · rw [List.length_drop]
    omega
  · rw [byteAt_drop]
    exact h.echo

/-- The reply that goes out. -/
theorem EchoRequest.reply {s : Host} {frame mac : List UInt8} (hs : s.Ok) (h : EchoRequest s frame)
    (hmac6 : mac.length = 6) (id : Nat) :
    EchoReply s frame (ethFrame mac s.ourMac ethIp (ipPkt id ipProtoIcmp s.ourIp (addrAt frame 26)
      (echoReply ((frame.drop 34).take (shortAt frame 16 - 20))))) := by
  have hlen := h.length
  obtain ⟨hmin, hmax⟩ := h.total
  obtain ⟨req, hreq⟩ : ∃ req, req = (frame.drop 34).take (shortAt frame 16 - 20) := ⟨_, rfl⟩
  have hreqlen : req.length = shortAt frame 16 - 20 := by
    rw [hreq, List.length_take, List.length_drop]
    omega
  obtain ⟨t, code, c1, c2, data, hcons⟩ : ∃ t code c1 c2 data, req = t :: code :: c1 :: c2 :: data := by
    match req, hreqlen with
    | t :: code :: c1 :: c2 :: data, _ => exact ⟨t, code, c1, c2, data, rfl⟩
    | [], h | [_], h | [_, _], h | [_, _, _], h =>
      simp only [List.length_cons, List.length_nil] at h
      omega
  have hrest : data = (frame.drop 38).take (shortAt frame 16 - 24) := by
    have hdrop : req.drop 4 = data := by rw [hcons]; rfl
    rw [← hdrop, hreq, List.drop_take, List.drop_drop]
    congr 1
  have hdatalen : data.length = shortAt frame 16 - 24 := by
    rw [hcons] at hreqlen
    simp only [List.length_cons] at hreqlen
    omega
  have hcode : byteAt frame 35 = code := by
    have htake : byteAt req 1 = byteAt (frame.drop 34) 1 := by
      rw [hreq, byteAt, byteAt, List.getD_eq_getElem?_getD, List.getD_eq_getElem?_getD,
        List.getElem?_take_of_lt (by omega)]
    rw [byteAt_drop] at htake
    rw [← htake, hcons]
    rfl
  have hreply := echoReply_eq t code c1 c2 data
  rw [← hcons] at hreply
  have hreplylen : (echoReply req).length = shortAt frame 16 - 20 := by
    rw [echoReply_length (by omega), hreqlen]
  have hsrc : addrAt frame 26 < 2 ^ 32 := by
    refine Nat.lt_of_lt_of_le (leNat_lt _) ?_
    refine (Nat.pow_le_pow_right (by decide) (List.length_take_le 4 _)).trans (Nat.le_of_eq rfl)
  have hcar : Carries (ethFrame mac s.ourMac ethIp (ipPkt id ipProtoIcmp s.ourIp (addrAt frame 26)
      (echoReply req))) ipProtoIcmp s.ourIp (addrAt frame 26) (echoReply req) :=
    carries_ethFrame hmac6 hs.mac hs.ip hsrc (by omega)
  rw [← hreq]
  obtain ⟨reply, hframe⟩ : ∃ reply, reply = ethFrame mac s.ourMac ethIp
      (ipPkt id ipProtoIcmp s.ourIp (addrAt frame 26) (echoReply req)) := ⟨_, rfl⟩
  rw [← hframe] at hcar ⊢
  obtain ⟨pad, hpad⟩ := hcar.payload
  refine ⟨hcar.type, hcar.version, ?_, hcar.proto, hcar.src, hcar.dst, ?_, ?_, ?_, hcar.checksum, ?_⟩
  · rw [hcar.total, hreplylen]
    omega
  · rw [← byteAt_drop reply 34 0, hpad, hreply]
    rfl
  · rw [← byteAt_drop reply 34 1, hpad, hreply, hcode]
    rfl
  · have hdrop : reply.drop 38 = data ++ pad := by
      rw [← List.drop_drop (i := 4) (j := 34), hpad, hreply]
      rfl
    rw [hdrop, ← hrest, List.take_left' hdatalen]
  · rw [hpad, List.take_left' hreplylen, hreply]
    exact checksumOk_fill (a := [0, code]) (Nat.mod_self 2)

/-- Where the cache does not have the requester, the only frame is the request for the address. -/
theorem EchoRequest.unanswered {s : Host} {rounds : Nat} {frame : List UInt8} (hs : s.Ok)
    (h : EchoRequest s frame) (hnone : arpCacheGet s.arpCache (addrAt frame 26) = none) :
    ¬ Answers s rounds frame := by
  rintro ⟨s', reply, hs', hsent, hreply⟩
  rw [h.handleFrame, ipSend_unknown hs (h.knownMac.trans hnone)] at hs'
  cases hs'
  have hlast := (List.append_inj' hsent rfl).2
  have hbcast : bcastMac.length = 6 := List.length_replicate ..
  have htype := hreply.type
  rw [← List.singleton_inj.mp hlast, 
    ethFrame_type hbcast hs.mac (show ethArp < 65536 by decide)] at htype
  exact absurd htype (by decide)

/-- A request is answered with one echo reply if and only if the cache has the requester's address
    when it arrives: the receive thread would have to process the answer to its own ARP request. -/
theorem echo_answered_iff (s : Host) (hs : s.Ok) (rounds : Nat) (frame : List UInt8)
    (h : EchoRequest s frame) :
    Answers s rounds frame ↔ arpCacheGet s.arpCache (addrAt frame 26) ≠ none := by
  have hlen := h.length
  obtain ⟨hmin, hmax⟩ := h.total
  have hframe : frameMax = 1600 := rfl
  have hreq : ((frame.drop 34).take (shortAt frame 16 - 20)).length = shortAt frame 16 - 20 := by
    rw [List.length_take, List.length_drop]
    omega
  constructor
  · exact fun hans hnone => h.unanswered hs hnone hans
  · intro hne
    obtain ⟨mac, hmac⟩ := Option.ne_none_iff_exists'.mp hne
    have hmac6 := arpCacheGet_length hs.cacheMac hmac
    have hfit : 34 + (echoReply ((frame.drop 34).take (shortAt frame 16 - 20))).length ≤ frameMax := by
      rw [echoReply_length (by omega), hreq]
      omega
    exact ⟨_, _, h.handleFrame.trans (ipSend_known hs.mac hmac6 (h.knownMac.trans hmac) hfit), rfl,
      h.reply hs hmac6 s.ipId⟩

/-- A request of the gateway. -/
def demoPing : List UInt8 := echoHeaders 0x45 28 1 ++ [8, 0, 0xf7, 0xfd, 0, 1, 0, 1]

theorem echoRequest_demoPing : EchoRequest demoHost demoPing where
  length := by decide
  type := by decide
  version := by decide
  total := by decide
  proto := by decide
  dst := by decide
  subnet := by decide
  unicast := by decide
  echo := by decide

theorem echo_answered_gateway : Answers demoHost 0 demoPing :=
  (echo_answered_iff demoHost ok_demoHost 0 demoPing echoRequest_demoPing).mpr (by decide)

/-- The same host before it has heard of the gateway. -/
def demoHostCold : Host :=
  { demoHost with arpCache := List.replicate 8 ⟨0, List.replicate 6 0, false⟩ }

/-- The same request is not answered, however long the receive thread waits. -/
theorem echo_unanswered_cold : demoHostCold.Ok ∧ EchoRequest demoHostCold demoPing ∧
    ∀ rounds, ¬ Answers demoHostCold rounds demoPing := by
  have hok : demoHostCold.Ok := { ok_demoHost with cache := rfl, cacheMac := by decide }
  have hreq : EchoRequest demoHostCold demoPing := { echoRequest_demoPing with }
  exact ⟨hok, hreq, fun rounds => hreq.unanswered hok (by decide)⟩

end ChocoOs.Net
