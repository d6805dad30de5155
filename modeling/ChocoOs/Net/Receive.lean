import ChocoOs.Net.Send

/-!
# Receiving

The handlers of the receive thread, over the bytes of one frame. `none` means that a byte behind
the frame is read, or one outside a buffer written.
-/

namespace ChocoOs.Net
open ProgLib

/-- `handle_arp` (`net.c:249-271`) -/
def handleArp (s : Host) (payload : List UInt8) (len : Int) : Option Host :=
  if len < 28 then some s
  else do
    let spa ← get32 payload 14
    let sha ← field payload 8 6
    let s := { s with arpCache := arpCachePut s.arpCache spa sha }
    let op ← get16 payload 6
    let tpa ← get32 payload 24
    if htons16 op = 1 ∧ s.ourIp ≠ 0 ∧ tpa = s.ourIp then
      ethSend s sha ethArp (arpPkt 2 s.ourMac s.ourIp sha spa)
    else return s

/-- Overwrite bytes of a buffer. -/
def setBytes (b : List UInt8) (off : Nat) (src : List UInt8) : List UInt8 :=
  b.take off ++ src ++ b.drop (off + src.length)

/-- The echo reply (`net.c:281-286`): the type and the checksum of the request are replaced. -/
def echoReply (pkt : List UInt8) : List UInt8 :=
  let r := setBytes (setBytes pkt 0 [0]) 2 [0, 0]
  setBytes r 2 (leBytes 2 (checksum16 r 0))

/-- `handle_icmp` (`net.c:273-296`) -/
def handleIcmp (s : Host) (rounds : Nat) (ip payload : List UInt8) (len : Int) : Option Host :=
  if len < 8 then some s
  else do
    let type ← payload[0]?
    if type = 8 then
      let data ← field payload 0 len.toNat
      let pkt ← store frameMax [] 0 data
      let src ← get32 ip 12
      ipSend s (List.replicate rounds s.arpCache) src ipProtoIcmp (echoReply pkt)
    else
      let id ← get16 payload 4
      let seq ← get16 payload 6
      if type = 0 ∧ s.icmp.waiting = true ∧ id = s.icmp.id ∧ seq = s.icmp.seq then
        return { s with icmp := { s.icmp with got := true } }
      else return s

/-- `handle_udp` (`net.c:298-315`) -/
def handleUdp (s : Host) (ip payload : List UInt8) (len : Int) : Option Host :=
  if len < 8 then some s
  else do
    let dport ← get16 payload 2
    if s.udp.port ≠ 0 ∧ htons16 dport = s.udp.port ∧ s.udp.len = 0 then
      let ulen ← get16 payload 4
      let dlen : Int := htons16 ulen - 8
      if 0 < dlen ∧ dlen ≤ udpBufSize ∧ dlen ≤ len - 8 then
        let bytes ← field payload 8 dlen.toNat
        let data ← store udpBufSize s.udp.data 0 bytes
        let src ← get32 ip 12
        return { s with udp := { s.udp with data := data, srcIp := src, len := dlen } }
      else return s
    else return s

/-- `handle_frame` (`net.c:317-347`) for the bytes that `e1000_recv` has returned. The receive thread
    may wait for `rounds` polls. -/
def handleFrame (s : Host) (rounds : Nat) (frame : List UInt8) : Option Host :=
  if frame.length < 14 then some s
  else do
    let type := htons16 (← get16 frame 12)
    let payload := frame.drop 14
    let plen : Int := frame.length - 14
    if type = ethArp then handleArp s payload plen
    else if type ≠ ethIp ∨ plen < 20 then return s
    else
      let verIhl ← payload[0]?
      let ihl : Nat := verIhl.toNat % 16 * 4
      let totalLen ← get16 payload 2
      let dlen : Int := (htons16 totalLen : Int) - ihl
      let dlen := if dlen < 0 ∨ plen - ihl < dlen then plen - ihl else dlen
      let dst ← get32 payload 16
      if s.ourIp ≠ 0 ∧ dst ≠ s.ourIp ∧ dst ≠ 0xFFFFFFFF then return s
      else
        let proto ← payload[9]?
        if proto = ipProtoIcmp then handleIcmp s rounds payload (payload.drop ihl) dlen
        else if proto = ipProtoUdp then handleUdp s payload (payload.drop ihl) dlen
        else return s

/-! ## Fields of a frame -/

/-- The byte at a place of a frame. -/
def byteAt (b : List UInt8) (i : Nat) : UInt8 := b.getD i 0

/-- The number in a 16-bit field in network order. -/
def shortAt (b : List UInt8) (i : Nat) : Nat := htons16 (leNat ((b.drop i).take 2))

/-- The address in a field. -/
def addrAt (b : List UInt8) (i : Nat) : Nat := leNat ((b.drop i).take 4)

theorem getElem?_byteAt {b : List UInt8} {i : Nat} (h : i < b.length) : b[i]? = some (byteAt b i) := by
  rw [byteAt, List.getD_eq_getElem?_getD, List.getElem?_eq_getElem h, Option.getD_some]

theorem field_eq {b : List UInt8} {off n : Nat} (h : off + n ≤ b.length) :
    field b off n = some ((b.drop off).take n) := if_pos h

theorem get16_eq {b : List UInt8} {i : Nat} (h : i + 2 ≤ b.length) :
    get16 b i = some (leNat ((b.drop i).take 2)) := by
  rw [get16, field_eq h, Option.map_some]

@[simp] theorem htons16_leNat (b : List UInt8) (i : Nat) :
    htons16 (leNat ((b.drop i).take 2)) = shortAt b i := rfl

theorem get32_eq {b : List UInt8} {i : Nat} (h : i + 4 ≤ b.length) :
    get32 b i = some (addrAt b i) := by
  rw [get32, field_eq h, Option.map_some, addrAt]

theorem byteAt_drop (b : List UInt8) (k i : Nat) : byteAt (b.drop k) i = byteAt b (k + i) := by
  simp only [byteAt, List.getD_eq_getElem?_getD, List.getElem?_drop]

theorem shortAt_drop (b : List UInt8) (k i : Nat) : shortAt (b.drop k) i = shortAt b (k + i) := by
  simp only [shortAt, List.drop_drop]

theorem addrAt_drop (b : List UInt8) (k i : Nat) : addrAt (b.drop k) i = addrAt b (k + i) := by
  simp only [addrAt, List.drop_drop]

theorem byteAt_append_left {a b : List UInt8} {i : Nat} (h : i < a.length) :
    byteAt (a ++ b) i = byteAt a i := by
  simp only [byteAt, List.getD_eq_getElem?_getD, List.getElem?_append_left h]

theorem shortAt_append_left {a b : List UInt8} {i : Nat} (h : i + 2 ≤ a.length) :
    shortAt (a ++ b) i = shortAt a i := by
  rw [shortAt, shortAt, List.drop_append_of_le_length (by omega), List.take_append_of_le_length]
  rw [List.length_drop]
  omega

theorem addrAt_append_left {a b : List UInt8} {i : Nat} (h : i + 4 ≤ a.length) :
    addrAt (a ++ b) i = addrAt a i := by
  rw [addrAt, addrAt, List.drop_append_of_le_length (by omega), List.take_append_of_le_length]
  rw [List.length_drop]
  omega

/-! ## Which frames are handled within the buffers -/

theorem arpCachePut_length (cache : List ArpEntry) (ip : Nat) (mac : List UInt8) :
    (arpCachePut cache ip mac).length = cache.length := by
  unfold arpCachePut setEntry
  split
  · exact List.length_modify ..
  · split <;> exact List.length_modify ..

theorem handleArp_isSome {s : Host} (hs : s.Ok) {payload : List UInt8} {len : Int}
    (hlen : len ≤ payload.length) : handleArp s payload len ≠ none := by
  unfold handleArp
  by_cases hshort : len < 28
  · rw [if_pos hshort]
    exact Option.some_ne_none _
  rw [if_neg hshort, get32_eq (by omega), field_eq (by omega), get16_eq (by omega),
    get32_eq (by omega)]
  simp only [Option.bind_eq_bind, Option.bind_some]
  have hsha : ((payload.drop 8).take 6).length = 6 := by
    rw [List.length_take, List.length_drop]
    omega
  split
  · exact Option.ne_none_iff_exists'.mpr ⟨_, ethSend_arp hs.mac hsha hs.mac hsha⟩
  · exact Option.some_ne_none _

theorem store_le {cap : Nat} {buf src : List UInt8} {off : Nat} (h : off + src.length ≤ cap) :
    store cap buf off src = some (buf.take off ++ src ++ buf.drop (off + src.length)) := if_pos h

theorem handleUdp_isSome {s : Host} {ip payload : List UInt8} {len : Int}
    (hip : 20 ≤ ip.length) (hlen : len ≤ payload.length) : handleUdp s ip payload len ≠ none := by
  unfold handleUdp
  by_cases hshort : len < 8
  · rw [if_pos hshort]
    exact Option.some_ne_none _
  rw [if_neg hshort, get16_eq (by omega), get16_eq (by omega), get32_eq (by omega)]
  simp only [Option.bind_eq_bind, Option.bind_some]
  split
  · split
    · next hd =>
      obtain ⟨hpos, hbuf, hrest⟩ := hd
      rw [field_eq (by omega), Option.bind_some, store_le, Option.bind_some]
      · exact Option.some_ne_none _
      · rw [List.length_take, List.length_drop]
        omega
    · exact Option.some_ne_none _
  · exact Option.some_ne_none _

theorem setBytes_length {b src : List UInt8} {off : Nat} (h : off + src.length ≤ b.length) :
    (setBytes b off src).length = b.length := by
  simp only [setBytes, List.length_append, List.length_take, List.length_drop]
  omega

theorem echoReply_length {pkt : List UInt8} (h : 4 ≤ pkt.length) :
    (echoReply pkt).length = pkt.length := by
  have h1 : (setBytes pkt 0 [0]).length = pkt.length := setBytes_length (by simp; omega)
  have h2 : (setBytes (setBytes pkt 0 [0]) 2 [0, 0]).length = pkt.length :=
    (setBytes_length (by simp; omega)).trans h1
  rw [echoReply, setBytes_length, h2]
  rw [leBytes_length, h2]
  omega

/-- What an echo request makes of the state, where the reply has `len` bytes. -/
theorem handleIcmp_echo {s : Host} {rounds : Nat} {ip payload : List UInt8} {len : Nat}
    (hip : 20 ≤ ip.length) (hlen : 8 ≤ len) (hpay : len ≤ payload.length) (hmax : len ≤ frameMax)
    (h8 : byteAt payload 0 = 8) : handleIcmp s rounds ip payload len =
      ipSend s (List.replicate rounds s.arpCache) (addrAt ip 12) ipProtoIcmp
        (echoReply (payload.take len)) := by
  have hnat : (len : Int).toNat = len := rfl
  have hfit : 0 + ((payload.drop 0).take len).length ≤ frameMax := by
    rw [List.length_take]
    omega
  rw [handleIcmp, if_neg (by omega), getElem?_byteAt (by omega), h8, hnat, field_eq (by omega),
    get32_eq (by omega)]
  simp only [Option.bind_eq_bind, Option.bind_some, if_true]
  rw [store_le hfit]
  simp only [Option.bind_some, List.take_nil, List.nil_append, List.drop_nil, List.append_nil,
    List.drop_zero]

/-- A reply fits the frame up to 1566 bytes; to an unknown address none is sent. -/
theorem handleIcmp_isSome_iff {s : Host} (hs : s.Ok) {rounds : Nat} {ip payload : List UInt8}
    {len : Int} (hip : 20 ≤ ip.length) (hlen : len ≤ payload.length) (hmax : len ≤ frameMax) :
    handleIcmp s rounds ip payload len ≠ none ↔
      ¬ (1566 < len ∧ byteAt payload 0 = 8 ∧ (knownMac s (addrAt ip 12)).isSome = true) := by
  have hframe : frameMax = 1600 := rfl
  by_cases hshort : len < 8
  · rw [handleIcmp, if_pos hshort]
    exact iff_of_true (Option.some_ne_none _) fun h => by omega
  by_cases h8 : byteAt payload 0 = 8
  · obtain ⟨n, rfl⟩ := Int.eq_ofNat_of_zero_le (show 0 ≤ len by omega)
    have hreply : (echoReply (payload.take n)).length = n := by
      have htake : (payload.take n).length = n := by
        rw [List.length_take]
        omega
      rw [echoReply_length, htake]
      omega
    rw [handleIcmp_echo hip (by omega) (by omega) (by omega) h8]
    cases hmac : knownMac s (addrAt ip 12) with
    | none =>
      rw [ipSend_unknown hs hmac]
      exact iff_of_true (Option.some_ne_none _) fun h => Bool.noConfusion h.2.2
    | some mac =>
      by_cases hlong : 1566 < (n : Int)
      · rw [ipSend_long hmac (by omega)]
        exact iff_of_false (fun h => h rfl) fun h => h ⟨hlong, h8, rfl⟩
      · rw [ipSend_known hs.mac (knownMac_length hs.cacheMac hmac) hmac (by omega)]
        exact iff_of_true (Option.some_ne_none _) fun h => hlong h.1
  · refine iff_of_true ?_ fun h => h8 h.2.1
    rw [handleIcmp, if_neg hshort, getElem?_byteAt (by omega)]
    simp only [Option.bind_eq_bind, Option.bind_some, if_neg h8]
    rw [get16_eq (by omega), get16_eq (by omega)]
    simp only [Option.bind_some]
    split <;> exact Option.some_ne_none _

/-- The length that `handle_frame` passes on (`net.c:334-336`). -/
def dataLen (frame : List UInt8) : Int :=
  let ihl : Nat := (byteAt frame 14).toNat % 16 * 4
  let dlen : Int := (shortAt frame 16 : Int) - ihl
  if dlen < 0 ∨ (frame.length - 14 : Int) - ihl < dlen then (frame.length - 14 : Int) - ihl else dlen

/-- The frame is a datagram that `handle_frame` does not drop. -/
def Accepted (s : Host) (frame : List UInt8) : Prop :=
  34 ≤ frame.length ∧ shortAt frame 12 = ethIp ∧
    (s.ourIp = 0 ∨ addrAt frame 30 = s.ourIp ∨ addrAt frame 30 = 0xFFFFFFFF)

/-- What `handle_frame` does with an accepted datagram. -/
theorem handleFrame_accepted {s : Host} {rounds : Nat} {frame : List UInt8} (h : Accepted s frame) :
    handleFrame s rounds frame =
      let ihl := (byteAt frame 14).toNat % 16 * 4
      if byteAt frame 23 = ipProtoIcmp then
        handleIcmp s rounds (frame.drop 14) (frame.drop (14 + ihl)) (dataLen frame)
      else if byteAt frame 23 = ipProtoUdp then
        handleUdp s (frame.drop 14) (frame.drop (14 + ihl)) (dataLen frame)
      else some s := by
  obtain ⟨hlen, htype, hdst⟩ := h
  have hpay : (frame.drop 14).length = frame.length - 14 := List.length_drop
  have hcast : ¬ ((frame.length : Int) - 14 < 20) := by omega
  have harp : ethIp ≠ ethArp := by decide
  have hto : ¬ (s.ourIp ≠ 0 ∧ addrAt frame 30 ≠ s.ourIp ∧ addrAt frame 30 ≠ 0xFFFFFFFF) := by
    rintro ⟨h0, hne, hb⟩
    rcases hdst with hd | hd | hd
    · exact h0 hd
    · exact hne hd
    · exact hb hd
  rw [handleFrame, if_neg (by omega), get16_eq (by omega), Option.bind_eq_bind, Option.bind_some,
    htons16_leNat, htype]
  simp only [if_neg harp, ne_eq, not_true_eq_false, false_or, if_neg hcast]
  rw [getElem?_byteAt (by omega), get16_eq (by omega), get32_eq (by omega),
    getElem?_byteAt (i := 9) (by omega)]
  simp only [Option.bind_eq_bind, Option.bind_some, byteAt_drop, addrAt_drop, List.drop_drop,
    Nat.reduceAdd, if_neg hto, dataLen,
    htons16_leNat, Option.pure_def]
  rfl

/-- Everything else is dropped or is ARP. -/
theorem handleFrame_other {s : Host} (hs : s.Ok) {rounds : Nat} {frame : List UInt8}
    (h : ¬ Accepted s frame) : handleFrame s rounds frame ≠ none := by
  unfold handleFrame
  by_cases hshort : frame.length < 14
  · rw [if_pos hshort]
    exact Option.some_ne_none _
  have hpay : (frame.drop 14).length = frame.length - 14 := List.length_drop
  rw [if_neg hshort, get16_eq (by omega), Option.bind_eq_bind, Option.bind_some,
    htons16_leNat]
  simp only
  by_cases harp : shortAt frame 12 = ethArp
  · rw [if_pos harp]
    exact handleArp_isSome hs (by omega)
  rw [if_neg harp]
  by_cases hip : shortAt frame 12 ≠ ethIp ∨ (frame.length : Int) - 14 < 20
  · rw [if_pos hip]
    exact Option.some_ne_none _
  rw [if_neg hip, getElem?_byteAt (by omega), get16_eq (by omega), get32_eq (by omega)]
  simp only [Option.bind_eq_bind, Option.bind_some, addrAt_drop, Nat.reduceAdd]
  have hdst : s.ourIp ≠ 0 ∧ addrAt frame 30 ≠ s.ourIp ∧ addrAt frame 30 ≠ 0xFFFFFFFF := by
    refine ⟨fun h0 => h ?_, fun he => h ?_, fun he => h ?_⟩
    · exact ⟨by omega, Classical.not_not.mp fun hne => hip (.inl hne), .inl h0⟩
    · exact ⟨by omega, Classical.not_not.mp fun hne => hip (.inl hne), .inr (.inl he)⟩
    · exact ⟨by omega, Classical.not_not.mp fun hne => hip (.inl hne), .inr (.inr he)⟩
  rw [if_pos hdst]
  exact Option.some_ne_none _

/-- An echo request whose reply is sent and is longer than a frame: the header length is below that
    of an IP header, and the total length, which would cut the reply, lies outside. -/
def LongEcho (s : Host) (frame : List UInt8) : Prop :=
  let ihl := (byteAt frame 14).toNat % 16 * 4
  Accepted s frame ∧ byteAt frame 23 = ipProtoIcmp ∧ byteAt frame (14 + ihl) = 8 ∧
    (knownMac s (addrAt frame 26)).isSome = true ∧ 1580 + ihl < frame.length ∧
    (shortAt frame 16 < ihl ∨ 1566 + ihl < shortAt frame 16)

/-- A frame is handled within all buffers if and only if it is no such echo request. -/
theorem handleFrame_safe_iff (s : Host) (hs : s.Ok) (rounds : Nat) (frame : List UInt8)
    (hmax : frame.length ≤ frameMax) :
    handleFrame s rounds frame ≠ none ↔ ¬ LongEcho s frame := by
  by_cases hacc : Accepted s frame
  · have hframe : frameMax = 1600 := rfl
    have hlen := hacc.1
    rw [handleFrame_accepted hacc]
    have hpay : ∀ k, (frame.drop k).length = frame.length - k := fun k => List.length_drop
    have hdata : dataLen frame ≤ (frame.drop (14 + (byteAt frame 14).toNat % 16 * 4)).length ∧
        (1566 < dataLen frame ↔ 1580 + (byteAt frame 14).toNat % 16 * 4 < frame.length ∧
          (shortAt frame 16 < (byteAt frame 14).toNat % 16 * 4 ∨
            1566 + (byteAt frame 14).toNat % 16 * 4 < shortAt frame 16)) := by
      rw [hpay]
      unfold dataLen
      simp only
      split <;> constructor <;> omega
    have hshort : dataLen frame ≤ frameMax := by
      have := hdata.1
      rw [hpay] at this
      omega
    simp only
    by_cases hicmp : byteAt frame 23 = ipProtoIcmp
    · rw [if_pos hicmp, handleIcmp_isSome_iff hs (by rw [hpay]; omega) hdata.1 hshort,
        hdata.2, byteAt_drop, addrAt_drop]
      refine not_congr ⟨fun h => ?_, fun h => ?_⟩
      · exact ⟨hacc, hicmp, h.2.1, h.2.2, h.1⟩
      · exact ⟨h.2.2.2.2, h.2.2.1, h.2.2.2.1⟩
    · rw [if_neg hicmp]
      refine iff_of_true ?_ fun h => hicmp h.2.1
      split
      · exact handleUdp_isSome (by rw [hpay]; omega) hdata.1
      · exact Option.some_ne_none _
  · exact iff_of_true (handleFrame_other hs hacc) fun h => hacc h.1

/-- 10.0.2.15/24, with the gateway 10.0.2.2 in the cache. -/
def demoHost : Host where
  nicUp := true
  configured := true
  ourMac := [0x52, 0x54, 0, 0x12, 0x34, 0x56]
  ourIp := leNat [10, 0, 2, 15]
  ourMask := leNat [255, 255, 255, 0]
  ourGw := leNat [10, 0, 2, 2]
  ourDns := leNat [10, 0, 2, 3]
  arpCache := ⟨leNat [10, 0, 2, 2], [0x52, 0x55, 10, 0, 2, 2], true⟩ ::
    List.replicate 7 ⟨0, List.replicate 6 0, false⟩
  ipId := 1
  icmp := ⟨false, 0, 0, false⟩
  udp := ⟨0, List.replicate udpBufSize 0, 0, 0⟩
  eport := 49152
  sent := []

theorem ok_demoHost : demoHost.Ok where
  mac := rfl
  ip := by decide
  mask := by decide
  gw := by decide
  cache := rfl
  cacheMac := by decide
  port := by decide
  data := List.length_replicate ..

/-- An echo request of the gateway with this first byte of the IP header, total length and id. -/
def echoHeaders (verIhl : UInt8) (total id : Nat) : List UInt8 :=
  demoHost.ourMac ++ [0x52, 0x55, 10, 0, 2, 2] ++ net16 ethIp ++ [verIhl, 0] ++ net16 total ++
    net16 id ++ [0, 0, 64, ipProtoIcmp, 0, 0] ++ [10, 0, 2, 2] ++ [10, 0, 2, 15]

theorem echoHeaders_length (verIhl : UInt8) (total id : Nat) :
    (echoHeaders verIhl total id).length = 34 := rfl

/-- An ordinary echo request is handled within the buffers. -/
theorem handleFrame_safe_ping : handleFrame demoHost 0
    (echoHeaders 0x45 28 1 ++ [8, 0, 0xf7, 0xfd, 0, 1, 0, 1]) ≠ none :=
  (handleFrame_safe_iff demoHost ok_demoHost 0 _ (by decide)).mpr
    fun h => absurd h.2.2.2.2.1 (by decide)

/-- A frame of 1600 bytes with a header length of 4: the reply overruns the frame of `eth_send`. -/
theorem handleFrame_overruns : demoHost.Ok ∧ ∃ frame : List UInt8, frame.length = frameMax ∧
    handleFrame demoHost 0 frame = none := by
  obtain ⟨rest, hrest⟩ : ∃ rest, rest = List.replicate 1566 (0 : UInt8) := ⟨_, rfl⟩
  have hlen : (echoHeaders 0x41 0xFFFF 0x800 ++ rest).length = 1600 := by
    rw [List.length_append, echoHeaders_length, hrest, List.length_replicate]
  refine ⟨ok_demoHost, echoHeaders 0x41 0xFFFF 0x800 ++ rest, hlen, ?_⟩
  have hacc : Accepted demoHost (echoHeaders 0x41 0xFFFF 0x800 ++ rest) := by
    refine ⟨by omega, ?_, .inr (.inl ?_)⟩
    · rw [shortAt_append_left (by decide)]
      decide
    · rw [addrAt_append_left (by decide)]
      decide
  have hihl : (byteAt (echoHeaders 0x41 0xFFFF 0x800 ++ rest) 14).toNat % 16 * 4 = 4 := by
    rw [byteAt_append_left (by decide)]
    decide
  have hdata : dataLen (echoHeaders 0x41 0xFFFF 0x800 ++ rest) = 1582 := by
    unfold dataLen
    rw [hihl, hlen, shortAt_append_left (by decide)]
    decide
  rw [handleFrame_accepted hacc]
  simp only [hihl]
  have hproto : byteAt (echoHeaders 0x41 0xFFFF 0x800 ++ rest) 23 = ipProtoIcmp := by
    rw [byteAt_append_left (by decide)]
    decide
  rw [if_pos hproto, hdata]
  by_contra hne
  refine (handleIcmp_isSome_iff ok_demoHost ?_ ?_ (by decide)).mp hne ⟨by decide, ?_, ?_⟩
  · rw [List.length_drop, hlen]
    decide
  · rw [List.length_drop, hlen]
    decide
  · rw [byteAt_drop, byteAt_append_left (by decide)]
    decide
  · rw [addrAt_drop, addrAt_append_left (by decide)]
    decide

end ChocoOs.Net
