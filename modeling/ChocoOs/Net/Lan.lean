import ChocoOs.Lib.Transition
import ChocoOs.Net.ArpCache
import ChocoOs.Net.Codec
import ChocoOs.Net.Echo
import ChocoOs.Net.Ping
import Mathlib.Logic.Function.Basic

/-!
# Hosts on one wire

Any number of hosts that all run `net.c`. A frame that was sent may be lost, come late or more than once,
and reach hosts that it is not for. A call that waits for an address is two calls of `ip_send` here: the
first asks for the address, the second is what is left when it has been found.
-/

namespace ChocoOs.Net
open ProgLib

/-- Host `i` calls `ip_send`, its callers change the echo state and the mailbox, or its receive thread
    handles frame `k` of host `j`. -/
inductive LanEvent (ι : Type) where
  | send (i : ι) (dst : Nat) (proto : UInt8) (payload : List UInt8)
  | change (i : ι) (icmp : IcmpState) (udp : UdpSock) (eport : Nat)
  | deliver (i j : ι) (k rounds : Nat)

section model

variable {ι : Type} [DecidableEq ι]

/-- One step. `none` means that a byte outside a buffer is read or written. -/
def lanStep (hosts : ι → Host) : LanEvent ι → Option (ι → Host)
  | .send i dst proto payload =>
    (ipSend (hosts i) [] dst proto payload).map (Function.update hosts i)
  | .change i icmp udp eport =>
    some (Function.update hosts i { hosts i with icmp := icmp, udp := udp, eport := eport })
  | .deliver i j k rounds =>
    match (hosts j).sent[k]? with
    | some frame => (handleFrame (hosts i) rounds frame).map (Function.update hosts i)
    | none => some hosts

/-- A datagram fits a frame, and the mailbox is what its type says. -/
def LanOk : LanEvent ι → Prop
  | .send _ dst _ payload => dst < 2 ^ 32 ∧ 34 + payload.length ≤ frameMax
  | .change _ _ udp _ => udp.port < 65536 ∧ udp.data.length = udpBufSize
  | .deliver _ _ _ _ => True

/-- One step after another. -/
def LanRun (hosts t : ι → Host) : Prop :=
  Reach (fun s => s = hosts) (fun s s' => ∃ e, LanOk e ∧ lanStep s e = some s') t

end model

/-- The hosts have their addresses, and have not yet sent or heard anything. -/
def LanStart {ι : Type} (net : ι → Host) : Prop :=
  ∀ i, (net i).Ok ∧ ArpEmpty (net i).arpCache ∧ (net i).sent = []

/-! ## The frames of a host -/

/-- The MAC address is that of the next hop. -/
def HopMac {ι : Type} (net : ι → Host) (i : ι) (dst : Nat) (mac : List UInt8) : Prop :=
  ((hopOf (net i) dst = 0xFFFFFFFF ∨ hopOf (net i) dst = 0) ∧ mac = bcastMac) ∨
    ∃ j, hopOf (net i) dst = (net j).ourIp ∧ mac = (net j).ourMac

/-- An ARP packet that says who sends it. -/
structure ArpFrame (s : Host) (frame : List UInt8) (dst : List UInt8) (op : Nat) (tha : List UInt8)
    (tpa : Nat) : Prop where
  eq : frame = ethFrame dst s.ourMac ethArp (arpPkt op s.ourMac s.ourIp tha tpa)
  length : dst.length = 6
  op_lt : op < 65536
  tha_length : tha.length = 6
  tpa_lt : tpa < 2 ^ 32

/-- A datagram that goes to its next hop. -/
structure IpFrame {ι : Type} (net : ι → Host) (i : ι) (frame mac : List UInt8) (id : Nat) (proto : UInt8)
    (dst : Nat) (payload : List UInt8) : Prop where
  eq : frame = ethFrame mac (net i).ourMac ethIp (ipPkt id proto (net i).ourIp dst payload)
  length : mac.length = 6
  hop : HopMac net i dst mac
  dst_lt : dst < 2 ^ 32
  fits : 34 + payload.length ≤ frameMax

/-- What host `i` sends. -/
def LanFrame {ι : Type} (net : ι → Host) (i : ι) (frame : List UInt8) : Prop :=
  (∃ dst op tha tpa, ArpFrame (net i) frame dst op tha tpa) ∨
    ∃ mac id proto dst payload, IpFrame net i frame mac id proto dst payload

/-- What holds of host `i` in every state. -/
structure LanHost {ι : Type} (net : ι → Host) (i : ι) (s : Host) : Prop where
  ok : s.Ok
  mac : s.ourMac = (net i).ourMac
  ip : s.ourIp = (net i).ourIp
  hop : ∀ dst, hopOf s dst = hopOf (net i) dst
  unique : ArpUnique s.arpCache
  knows : ∀ e ∈ s.arpCache, e.valid = true → ∃ j, e.ip = (net j).ourIp ∧ e.mac = (net j).ourMac
  frames : ∀ frame ∈ s.sent, LanFrame net i frame

/-- A host goes on from `s`: it sends what it has sent before, and perhaps more. -/
def LanNext {ι : Type} (net : ι → Host) (i : ι) (s s' : Host) : Prop :=
  LanHost net i s' ∧ s.sent <+: s'.sent

section host

variable {ι : Type} {net : ι → Host} {i j : ι} {s : Host}

theorem LanHost.next (h : LanHost net i s) : LanNext net i s s := ⟨h, List.prefix_refl _⟩

/-- One more frame goes out. -/
theorem LanHost.sends (h : LanHost net i s) {frame : List UInt8} (hframe : LanFrame net i frame)
    (id : Nat) : LanNext net i s { s with ipId := id, sent := s.sent ++ [frame] } := by
  refine ⟨⟨⟨h.ok.mac, h.ok.ip, h.ok.mask, h.ok.gw, h.ok.cache, h.ok.cacheMac, h.ok.port, h.ok.data⟩,
    h.mac, h.ip, h.hop, h.unique, h.knows, ?_⟩, List.prefix_append _ _⟩
  intro frame' hmem
  rcases List.mem_append.mp hmem with hmem | hmem
  · exact h.frames frame' hmem
  · rw [List.mem_singleton.mp hmem]
    exact hframe

/-- A frame that has been sent stays on the wire. -/
theorem getElem?_of_prefix {old new : List (List UInt8)} {frame : List UInt8} (h : old ++ [frame] <+: new) :
    new[old.length]? = some frame := by
  obtain ⟨rest, rfl⟩ := h
  rw [List.append_assoc, List.getElem?_append_right (Nat.le_refl _), Nat.sub_self]
  rfl

theorem LanHost.get (h : LanHost net i s) {a : Nat} {mac : List UInt8}
    (hget : arpCacheGet s.arpCache a = some mac) : ∃ j, a = (net j).ourIp ∧ mac = (net j).ourMac :=
  h.knows ⟨a, mac, true⟩ (mem_of_arpCacheGet hget) rfl

/-- Where a datagram goes without waiting, that is to the next hop. -/
theorem LanHost.knownMac (h : LanHost net i s) {dst : Nat} {mac : List UInt8}
    (hmac : knownMac s dst = some mac) : HopMac net i dst mac := by
  unfold Net.knownMac at hmac
  rw [h.hop] at hmac
  by_cases hb : hopOf (net i) dst = 0xFFFFFFFF ∨ hopOf (net i) dst = 0
  · rw [if_pos hb] at hmac
    cases hmac
    exact .inl ⟨hb, rfl⟩
  · rw [if_neg hb] at hmac
    exact .inr (h.get hmac)

theorem LanHost.arpFrame (h : LanHost net i s) {dst tha : List UInt8} {op tpa : Nat}
    (hdst : dst.length = 6) (hop : op < 65536) (htha : tha.length = 6) (htpa : tpa < 2 ^ 32) :
    ArpFrame (net i) (ethFrame dst s.ourMac ethArp (arpPkt op s.ourMac s.ourIp tha tpa)) dst op tha tpa :=
  ⟨by rw [h.mac, h.ip], hdst, hop, htha, htpa⟩

theorem hopOf_lt (hs : s.Ok) {dst : Nat} (hdst : dst < 2 ^ 32) : hopOf s dst < 2 ^ 32 := by
  unfold hopOf
  split
  · exact hs.gw
  · exact hdst

/-- A datagram goes out, or a question for the address. -/
theorem LanHost.ipSend (h : LanHost net i s) (rounds : Nat) {dst : Nat} (proto : UInt8)
    {payload : List UInt8} (hdst : dst < 2 ^ 32) (hlen : 34 + payload.length ≤ frameMax) :
    ∃ s', ipSend s (List.replicate rounds s.arpCache) dst proto payload = some s' ∧
      LanNext net i s s' := by
  cases hmac : Net.knownMac s dst with
  | none =>
    have hreq : ArpFrame (net i) _ bcastMac 1 (List.replicate 6 0) (hopOf s dst) :=
      h.arpFrame (List.length_replicate ..) (by decide) (List.length_replicate ..) (hopOf_lt h.ok hdst)
    exact ⟨_, ipSend_unknown h.ok hmac, h.sends (.inl ⟨_, _, _, _, hreq⟩) s.ipId⟩
  | some mac =>
    have hmac6 := knownMac_length h.ok.cacheMac hmac
    refine ⟨_, ipSend_known h.ok.mac hmac6 hmac hlen, h.sends (.inr ?_) _⟩
    exact ⟨mac, s.ipId, proto, dst, payload, by rw [h.mac, h.ip], hmac6, h.knownMac hmac, hdst, hlen⟩

/-- The cache gets the address of a host of the wire. -/
theorem LanHost.put (h : LanHost net i s) (hj : (net j).Ok) : LanHost net i
    { s with arpCache := arpCachePut s.arpCache (net j).ourIp (net j).ourMac } := by
  have hpos : 0 < s.arpCache.length := by
    rw [h.ok.cache]
    decide
  obtain ⟨k, -, hput, -⟩ := arpCachePut_cases h.unique hpos (net j).ourIp (net j).ourMac
  have hmem : ∀ e ∈ arpCachePut s.arpCache (net j).ourIp (net j).ourMac,
      e ∈ s.arpCache ∨ e = ⟨(net j).ourIp, (net j).ourMac, true⟩ := by
    intro e he
    rw [hput] at he
    exact List.mem_or_eq_of_mem_set he
  refine ⟨⟨h.ok.mac, h.ok.ip, h.ok.mask, h.ok.gw, ?_, ?_, h.ok.port, h.ok.data⟩, h.mac, h.ip, h.hop,
    arpUnique_put h.unique hpos _ _, ?_, h.frames⟩
  · rw [arpCachePut_length]
    exact h.ok.cache
  · intro e he
    rcases hmem e he with he | rfl
    · exact h.ok.cacheMac e he
    · exact hj.mac
  · intro e he hvalid
    rcases hmem e he with he | rfl
    · exact h.knows e he hvalid
    · exact ⟨j, rfl, rfl⟩

/-! ## What a host does with a frame of another -/

theorem addrAt_lt (b : List UInt8) (k : Nat) : addrAt b k < 2 ^ 32 := by
  refine Nat.lt_of_lt_of_le (leNat_lt _) ?_
  exact (Nat.pow_le_pow_right (by decide) (List.length_take_le 4 _)).trans (Nat.le_of_eq rfl)

/-- The fields of an ARP packet, as the receiver reads them. -/
theorem arpPkt_fields {op spa tpa : Nat} {sha tha : List UInt8} (rest : List UInt8) (hop : op < 65536)
    (hsha : sha.length = 6) (hspa : spa < 2 ^ 32) (htha : tha.length = 6) (htpa : tpa < 2 ^ 32) :
    shortAt (arpPkt op sha spa tha tpa ++ rest) 6 = op ∧
      ((arpPkt op sha spa tha tpa ++ rest).drop 8).take 6 = sha ∧
      addrAt (arpPkt op sha spa tha tpa ++ rest) 14 = spa ∧
      addrAt (arpPkt op sha spa tha tpa ++ rest) 24 = tpa := by
  match sha, tha, hsha, htha with
  | [_, _, _, _, _, _], [_, _, _, _, _, _], _, _ =>
    exact ⟨(leNat_net16 op).trans (Nat.mod_eq_of_lt hop), rfl, leNat_leBytes (n := 4) hspa,
      leNat_leBytes (n := 4) htpa⟩

/-- `handle_arp` on a packet that is whole. -/
theorem handleArp_eq {payload : List UInt8} (hs : s.Ok) (hlen : 28 ≤ payload.length) {len : Int}
    (hlen' : 28 ≤ len) : handleArp s payload len =
      let sha := (payload.drop 8).take 6
      let t := { s with arpCache := arpCachePut s.arpCache (addrAt payload 14) sha }
      if shortAt payload 6 = 1 ∧ s.ourIp ≠ 0 ∧ addrAt payload 24 = s.ourIp then
        some { t with sent := t.sent ++ [ethFrame sha s.ourMac ethArp
          (arpPkt 2 s.ourMac s.ourIp sha (addrAt payload 14))] }
      else some t := by
  have hsha : ((payload.drop 8).take 6).length = 6 := by
    rw [List.length_take, List.length_drop]
    omega
  rw [handleArp, if_neg (by omega), get32_eq (by omega), field_eq (by omega), get16_eq (by omega),
    get32_eq (by omega)]
  simp only [Option.bind_eq_bind, Option.bind_some, htons16_leNat, Option.pure_def]
  by_cases hask : shortAt payload 6 = 1 ∧ s.ourIp ≠ 0 ∧ addrAt payload 24 = s.ourIp
  · rw [if_pos hask]
    exact (if_pos hask).trans (ethSend_arp hs.mac hsha hs.mac hsha)
  · rw [if_neg hask]
    exact if_neg hask

/-- An ARP frame is handled by its packet. -/
theorem handleFrame_arp {rounds : Nat} {frame : List UInt8} (hlen : 14 ≤ frame.length)
    (htype : shortAt frame 12 = ethArp) :
    handleFrame s rounds frame = handleArp s (frame.drop 14) (frame.length - 14) := by
  rw [handleFrame, if_neg (by omega), get16_eq (by omega), Option.bind_eq_bind, Option.bind_some,
    htons16_leNat, htype]
  exact if_pos rfl

/-- The sender goes into the cache, and is answered when it asks for this host. -/
theorem LanHost.handleArp (h : LanHost net i s) (hj : (net j).Ok) {frame dst tha : List UInt8}
    {op tpa : Nat} (hframe : ArpFrame (net j) frame dst op tha tpa) (rounds : Nat) :
    ∃ s', handleFrame s rounds frame = some s' ∧ LanNext net i s s' ∧
      arpCacheGet s'.arpCache (net j).ourIp = some (net j).ourMac ∧
      (op = 1 → (net i).ourIp ≠ 0 → tpa = (net i).ourIp → s'.sent = s.sent ++
        [ethFrame (net j).ourMac (net i).ourMac ethArp
          (arpPkt 2 (net i).ourMac (net i).ourIp (net j).ourMac (net j).ourIp)]) := by
  obtain ⟨rfl, hdst, hop, htha, htpa⟩ := hframe
  obtain ⟨hopAt, hshaAt, hspaAt, htpaAt⟩ := arpPkt_fields
    (padding (arpPkt op (net j).ourMac (net j).ourIp tha tpa).length) hop hj.mac hj.ip htha htpa
  have hpkt : (arpPkt op (net j).ourMac (net j).ourIp tha tpa).length = 28 := arpPkt_length hj.mac htha
  have hdrop : (ethFrame dst (net j).ourMac ethArp
      (arpPkt op (net j).ourMac (net j).ourIp tha tpa)).drop 14 = _ := ethFrame_drop hdst hj.mac
  have hlen : (ethFrame dst (net j).ourMac ethArp
      (arpPkt op (net j).ourMac (net j).ourIp tha tpa)).length = _ := ethFrame_length hdst hj.mac
  have hwhole : 28 ≤ (arpPkt op (net j).ourMac (net j).ourIp tha tpa ++
      padding (arpPkt op (net j).ourMac (net j).ourIp tha tpa).length).length := by
    rw [List.length_append]
    omega
  have hput := h.put hj
  have hcache : 0 < s.arpCache.length := by
    rw [h.ok.cache]
    decide
  have hget : arpCacheGet (arpCachePut s.arpCache (net j).ourIp (net j).ourMac) (net j).ourIp =
      some (net j).ourMac := arpCacheGet_put h.unique hcache _ _
  rw [handleFrame_arp (by omega) (ethFrame_type hdst hj.mac (by decide)), hdrop,
    handleArp_eq h.ok hwhole (by omega), hopAt, hshaAt, hspaAt, htpaAt]
  simp only
  by_cases hask : op = 1 ∧ s.ourIp ≠ 0 ∧ tpa = s.ourIp
  · have hreply : ArpFrame (net i) (ethFrame (net j).ourMac s.ourMac ethArp
        (arpPkt 2 s.ourMac s.ourIp (net j).ourMac (net j).ourIp)) (net j).ourMac 2 (net j).ourMac
        (net j).ourIp := h.arpFrame hj.mac (by decide) hj.mac hj.ip
    rw [if_pos hask]
    refine ⟨_, rfl, hput.sends (.inl ⟨_, _, _, _, hreply⟩) s.ipId, hget, fun _ _ _ => ?_⟩
    rw [h.mac, h.ip]
  · rw [if_neg hask]
    refine ⟨_, rfl, ⟨hput, List.prefix_refl _⟩, hget, fun hop hne htpa => ?_⟩
    exact absurd ⟨hop, by rwa [h.ip], by rwa [h.ip]⟩ hask

/-- A datagram for somebody else. -/
theorem handleFrame_dropped {rounds : Nat} {frame : List UInt8} (hlen : 34 ≤ frame.length)
    (htype : shortAt frame 12 = ethIp) (hacc : ¬ Accepted s frame) :
    handleFrame s rounds frame = some s := by
  have hpay : (frame.drop 14).length = frame.length - 14 := List.length_drop
  have hto : s.ourIp ≠ 0 ∧ addrAt frame 30 ≠ s.ourIp ∧ addrAt frame 30 ≠ 0xFFFFFFFF :=
    ⟨fun h0 => hacc ⟨hlen, htype, .inl h0⟩, fun he => hacc ⟨hlen, htype, .inr (.inl he)⟩,
      fun he => hacc ⟨hlen, htype, .inr (.inr he)⟩⟩
  have harp : ethIp ≠ ethArp := by decide
  have hcast : ¬ ((frame.length : Int) - 14 < 20) := by omega
  rw [handleFrame, if_neg (by omega), get16_eq (by omega), Option.bind_eq_bind, Option.bind_some,
    htons16_leNat, htype]
  simp only [if_neg harp, ne_eq, not_true_eq_false, false_or, if_neg hcast]
  rw [getElem?_byteAt (by omega), get16_eq (by omega), get32_eq (by omega)]
  simp only [Option.bind_eq_bind, Option.bind_some, addrAt_drop, Nat.reduceAdd]
  exact if_pos hto

/-- The states of the echo and of the mailbox are no matter of the wire. -/
theorem LanHost.change (h : LanHost net i s) (icmp : IcmpState) {udp : UdpSock}
    (hport : udp.port < 65536) (hdata : udp.data.length = udpBufSize) (eport : Nat) :
    LanNext net i s { s with icmp := icmp, udp := udp, eport := eport } :=
  ⟨⟨⟨h.ok.mac, h.ok.ip, h.ok.mask, h.ok.gw, h.ok.cache, h.ok.cacheMac, hport, hdata⟩, h.mac, h.ip, h.hop,
    h.unique, h.knows, h.frames⟩, List.prefix_refl _⟩

/-- The mailbox keeps its port and its size. -/
theorem offered_bounds {u : UdpSock} (hport : u.port < 65536) (hdata : u.data.length = udpBufSize)
    (d : Dgram) : (offered u d).port < 65536 ∧ (offered u d).data.length = udpBufSize := by
  unfold offered
  by_cases hacc : Accepts u d
  · rw [if_pos hacc]
    refine ⟨hport, ?_⟩
    obtain ⟨-, hbuf, -⟩ := hacc.2.2.2
    have hlen := hacc.2.2.2.length
    simp only
    rw [List.length_append, List.length_drop, hdata]
    omega
  · rw [if_neg hacc]
    exact ⟨hport, hdata⟩

/-- An echo request is answered, a reply is taken note of. -/
theorem LanHost.handleIcmp (h : LanHost net i s) (rounds : Nat) {ip payload : List UInt8} {len : Nat}
    (hip : 20 ≤ ip.length) (hpay : len ≤ payload.length) (hlen : 34 + len ≤ frameMax) :
    ∃ s', handleIcmp s rounds ip payload len = some s' ∧ LanNext net i s s' := by
  have hframe : frameMax = 1600 := rfl
  by_cases hshort : len < 8
  · rw [Net.handleIcmp, if_pos (by omega)]
    exact ⟨s, rfl, h.next⟩
  by_cases h8 : byteAt payload 0 = 8
  · have htake : (payload.take len).length = len := by
      rw [List.length_take]
      omega
    rw [handleIcmp_echo hip (by omega) hpay (by omega) h8]
    apply h.ipSend rounds ipProtoIcmp (addrAt_lt ip 12)
    rw [echoReply_length (by omega), htake]
    exact hlen
  · rw [Net.handleIcmp, if_neg (by omega), getElem?_byteAt (by omega)]
    simp only [Option.bind_eq_bind, Option.bind_some, if_neg h8]
    rw [get16_eq (by omega), get16_eq (by omega)]
    simp only [Option.bind_some]
    split
    · exact ⟨_, rfl, h.change _ h.ok.port h.ok.data s.eport⟩
    · exact ⟨s, rfl, h.next⟩

theorem LanHost.handleUdp (h : LanHost net i s) {ip payload : List UInt8} {len : Nat}
    (hip : 20 ≤ ip.length) (hpay : len ≤ payload.length) :
    ∃ s', handleUdp s ip payload len = some s' ∧ LanNext net i s s' := by
  by_cases hshort : len < 8
  · rw [Net.handleUdp, if_pos (by omega)]
    exact ⟨s, rfl, h.next⟩
  · obtain ⟨hport, hdata⟩ := offered_bounds h.ok.port h.ok.data (dgramOf ip payload len)
    exact ⟨_, handleUdp_eq (by omega) (by omega) hpay, h.change s.icmp hport hdata s.eport⟩

/-- A datagram of another host is handled within the buffers. -/
theorem LanHost.handleIp (h : LanHost net i s) (hj : (net j).Ok) {frame mac payload : List UInt8}
    {id dst : Nat} {proto : UInt8} (hframe : IpFrame net j frame mac id proto dst payload)
    (rounds : Nat) : ∃ s', handleFrame s rounds frame = some s' ∧ LanNext net i s s' := by
  obtain ⟨heq, hmac, -, hdst, hfits⟩ := hframe
  have hmax : frameMax = 1600 := rfl
  have hcar : Carries frame proto (net j).ourIp dst payload := by
    rw [heq]
    exact carries_ethFrame hmac hj.mac hj.ip hdst (by omega)
  have hlen := hcar.length
  by_cases hacc : Accepted s frame
  · have hip : 20 ≤ (frame.drop 14).length := by
      rw [List.length_drop]
      omega
    have hpay : payload.length ≤ (frame.drop 34).length := by
      rw [List.length_drop]
      omega
    rw [handleFrame_accepted hacc, hcar.version, hcar.dataLen,
      show (0x45 : UInt8).toNat % 16 * 4 = 20 from rfl]
    simp only
    split
    · exact h.handleIcmp rounds hip hpay hfits
    · split
      · exact h.handleUdp hip hpay
      · exact ⟨s, rfl, h.next⟩
  · exact ⟨s, handleFrame_dropped (by omega) hcar.type hacc, h.next⟩

/-- Every frame of the wire is handled within the buffers. -/
theorem LanHost.handleFrame (h : LanHost net i s) (hj : (net j).Ok) {frame : List UInt8}
    (hframe : LanFrame net j frame) (rounds : Nat) :
    ∃ s', handleFrame s rounds frame = some s' ∧ LanNext net i s s' := by
  rcases hframe with ⟨dst, op, tha, tpa, harp⟩ | ⟨mac, id, proto, dst, payload, hip⟩
  · obtain ⟨s', hrun, hnext, -⟩ := h.handleArp hj harp rounds
    exact ⟨s', hrun, hnext⟩
  · exact h.handleIp hj hip rounds

/-- The reply to a request of `net_ping`. -/
theorem echoReply_pingPkt (seq : UInt16) :
    (echoReply (pingPkt seq.toNat)).length = 40 ∧ byteAt (echoReply (pingPkt seq.toNat)) 0 = 0 ∧
      shortAt (echoReply (pingPkt seq.toNat)) 4 = pingId ∧
      shortAt (echoReply (pingPkt seq.toNat)) 6 = seq.toNat := by
  refine ⟨rfl, rfl, ?_, ?_⟩
  · exact (leNat_net16 pingId).trans (by decide)
  · exact (leNat_net16 seq.toNat).trans (Nat.mod_eq_of_lt seq.toNat_lt)

/-- An echo request of another host is answered, if its address is known. -/
theorem LanHost.answers (h : LanHost net j s) (hi : (net i).Ok) {frame mac mac' : List UInt8}
    {id : Nat} {payload : List UInt8}
    (hframe : IpFrame net i frame mac id ipProtoIcmp (net j).ourIp payload) (hlen : 8 ≤ payload.length)
    (h8 : byteAt payload 0 = 8) (hmac : Net.knownMac s (net i).ourIp = some mac') (rounds : Nat) :
    Net.handleFrame s rounds frame = some { s with
      ipId := (s.ipId + 1) % 65536
      sent := s.sent ++ [ethFrame mac' (net j).ourMac ethIp
        (ipPkt s.ipId ipProtoIcmp (net j).ourIp (net i).ourIp (echoReply payload))] } := by
  obtain ⟨heq, hmac6, -, hdst, hfits⟩ := hframe
  have hmax : frameMax = 1600 := rfl
  have hcar : Carries frame ipProtoIcmp (net i).ourIp (net j).ourIp payload := by
    rw [heq]
    exact carries_ethFrame hmac6 hi.mac hi.ip hdst (by omega)
  have hframeLen := hcar.length
  obtain ⟨rest, hrest⟩ := hcar.payload
  have h8' : byteAt (payload ++ rest) 0 = 8 := by
    rw [byteAt_append_left (by omega)]
    exact h8
  have hreply : (echoReply payload).length = payload.length := echoReply_length (by omega)
  have hip : 20 ≤ (frame.drop 14).length := by
    rw [List.length_drop]
    omega
  rw [handleFrame_accepted (hcar.accepted h.ip.symm), hcar.version, hcar.proto, hcar.dataLen,
    show (0x45 : UInt8).toNat % 16 * 4 = 20 from rfl]
  simp only
  rw [if_pos trivial, hrest, handleIcmp_echo hip hlen (by rw [List.length_append]; omega) (by omega) h8',
    addrAt_drop, hcar.src, List.take_left,
    @ipSend_known s (List.replicate rounds s.arpCache) (net i).ourIp ipProtoIcmp (echoReply payload) mac'
      h.ok.mac (knownMac_length h.ok.cacheMac hmac) hmac (by omega), h.mac, h.ip]

/-- The reply that is waited for is taken note of. -/
theorem LanHost.hears (h : LanHost net i s) (hj : (net j).Ok) {frame mac : List UInt8}
    {id : Nat} {payload : List UInt8} {seq : UInt16}
    (hframe : IpFrame net j frame mac id ipProtoIcmp (net i).ourIp payload) (hlen : 8 ≤ payload.length)
    (h0 : byteAt payload 0 = 0) (hid : shortAt payload 4 = pingId) (hseq : shortAt payload 6 = seq.toNat)
    (hlistens : Listens s.icmp seq) (rounds : Nat) :
    ∃ s', Net.handleFrame s rounds frame = some s' ∧ s'.icmp.got = true := by
  obtain ⟨s', hrun, -⟩ := h.handleIp hj hframe rounds
  obtain ⟨heq, hmac6, -, hdst, hfits⟩ := hframe
  have hmax : frameMax = 1600 := rfl
  have hcar : Carries frame ipProtoIcmp (net j).ourIp (net i).ourIp payload := by
    rw [heq]
    exact carries_ethFrame hmac6 hj.mac hj.ip hdst (by omega)
  obtain ⟨rest, hrest⟩ := hcar.payload
  have hoff : dataOff frame = 34 := by
    rw [dataOff, hcar.version]
    rfl
  have hin : EchoReplyIn s frame pingId seq.toNat := by
    refine ⟨⟨hcar.accepted h.ip.symm, hcar.proto, ?_⟩, ?_, ?_, ?_⟩
    · rw [hcar.dataLen]
      omega
    · rw [hoff, ← byteAt_drop frame 34 0, hrest, byteAt_append_left (by omega)]
      exact h0
    · rw [hoff, ← shortAt_drop, hrest, shortAt_append_left (by omega)]
      exact hid
    · rw [hoff, ← shortAt_drop, hrest, shortAt_append_left (by omega)]
      exact hseq
  obtain ⟨cache, id', sent, rfl⟩ := (handleFrame_handled h.ok.mac hlistens.ok hrun).same
  refine ⟨_, hrun, ?_⟩
  simp only
  rw [hlistens.after, if_pos hin]

/-- A datagram for the open and empty mailbox is stored, with its sender. -/
theorem LanHost.stores (h : LanHost net j s) (hi : (net i).Ok) {frame mac payload : List UInt8}
    {id sport dport : Nat}
    (hframe : IpFrame net i frame mac id ipProtoUdp (net j).ourIp (udpPkt sport dport payload))
    (hpos : 0 < payload.length) (hlen : payload.length ≤ udpBufSize) (hport : s.udp.port = dport)
    (hne : dport ≠ 0) (hempty : s.udp.len = 0) (rounds : Nat) :
    ∃ s', Net.handleFrame s rounds frame = some s' ∧ s'.udp.data.take payload.length = payload ∧
      s'.udp.len = payload.length ∧ s'.udp.srcIp = (net i).ourIp := by
  obtain ⟨heq, hmac6, -, hdst, hfits⟩ := hframe
  have hmax : frameMax = 1600 := rfl
  have hdport := h.ok.port
  have hcar : Carries frame ipProtoUdp (net i).ourIp (net j).ourIp (udpPkt sport dport payload) := by
    rw [heq]
    exact carries_ethFrame hmac6 hi.mac hi.ip hdst (by omega)
  have hframeLen := hcar.length
  obtain ⟨rest, hrest⟩ := hcar.payload
  have hip : 20 ≤ (frame.drop 14).length := by
    rw [List.length_drop]
    omega
  have hstore := @handleUdp_store s (frame.drop 14) rest payload sport dport hip hport ⟨by omega, by omega⟩ hempty hpos
    hlen
  rw [handleFrame_accepted (hcar.accepted h.ip.symm), hcar.version, hcar.proto, hcar.dataLen, udpPkt_length,
    show (0x45 : UInt8).toNat % 16 * 4 = 20 from rfl]
  simp only
  rw [if_neg (by decide), if_pos trivial, hrest, hstore, addrAt_drop, hcar.src]
  exact ⟨_, rfl, List.take_left, rfl, rfl⟩

theorem lanHost_start (hnet : LanStart net) : ∀ k, LanHost net k (net k) := by
  intro k
  obtain ⟨hok, ⟨-, hempty⟩, hsent⟩ := hnet k
  refine ⟨hok, rfl, rfl, fun _ => rfl, ?_, ?_, ?_⟩
  · intro a b e e' ha _ hvalid
    rw [hempty e (List.mem_of_getElem? ha)] at hvalid
    cases hvalid
  · intro e he hvalid
    rw [hempty e he] at hvalid
    cases hvalid
  · intro frame hframe
    rw [hsent] at hframe
    cases hframe

end host

/-- 10.0.2.15 and 10.0.2.2, which have not heard of each other. -/
def demoLan (peer : Bool) : Host :=
  { demoHost with
    ourMac := if peer then [0x52, 0x55, 10, 0, 2, 2] else demoHost.ourMac
    ourIp := if peer then leNat [10, 0, 2, 2] else demoHost.ourIp
    arpCache := List.replicate 8 ⟨0, List.replicate 6 0, false⟩ }

theorem lanStart_demoLan : LanStart demoLan := by
  intro peer
  refine ⟨{ ok_demoHost with
    mac := by cases peer <;> rfl
    ip := by cases peer <;> decide
    cache := rfl
    cacheMac := fun e he => by
      rw [List.eq_of_mem_replicate he]
      rfl }, ⟨rfl, fun e he => by rw [List.eq_of_mem_replicate he]⟩, rfl⟩

section run

variable {ι : Type} [DecidableEq ι] {net hosts t u : ι → Host} {i j : ι}

theorem next_update (h : ∀ k, LanHost net k (hosts k)) {s : Host} (hs : LanNext net i (hosts i) s) :
    ∀ k, LanNext net k (hosts k) (Function.update hosts i s k) := by
  intro k
  by_cases hk : k = i
  · subst hk
    rw [Function.update_self]
    exact hs
  · rw [Function.update_of_ne hk]
    exact (h k).next

theorem lanStep_deliver {k : Nat} {frame : List UInt8} (hframe : (hosts j).sent[k]? = some frame)
    (rounds : Nat) : lanStep hosts (.deliver i j k rounds) =
      (handleFrame (hosts i) rounds frame).map (Function.update hosts i) := by
  rw [lanStep, hframe]

/-- Every step is possible, and keeps what holds of every host. -/
theorem lanStep_next (hnet : ∀ i, (net i).Ok) (h : ∀ k, LanHost net k (hosts k)) {e : LanEvent ι}
    (hok : LanOk e) : ∃ t, lanStep hosts e = some t ∧ ∀ k, LanNext net k (hosts k) (t k) := by
  cases e with
  | send i dst proto payload =>
    obtain ⟨s', hrun, hnext⟩ := (h i).ipSend 0 proto hok.1 hok.2
    refine ⟨_, ?_, next_update h hnext⟩
    rw [lanStep]
    exact congrArg _ hrun
  | change i icmp udp eport =>
    exact ⟨_, rfl, next_update h ((h i).change icmp hok.1 hok.2 eport)⟩
  | deliver i j k rounds =>
    cases hframe : (hosts j).sent[k]? with
    | none =>
      refine ⟨hosts, ?_, fun k => (h k).next⟩
      rw [lanStep, hframe]
    | some frame =>
      have hmem := (h j).frames frame (List.mem_of_getElem? hframe)
      obtain ⟨s', hrun, hnext⟩ := (h i).handleFrame (hnet j) hmem rounds
      refine ⟨_, ?_, next_update h hnext⟩
      rw [lanStep_deliver hframe, hrun]
      rfl

/-- What a run keeps. -/
theorem LanRun.next (hnet : ∀ i, (net i).Ok) (h : ∀ k, LanHost net k (hosts k)) (hrun : LanRun hosts t) :
    ∀ k, LanNext net k (hosts k) (t k) := by
  refine Reach.invariant (I := fun t => ∀ k, LanNext net k (hosts k) (t k)) ?_ ?_ hrun
  · rintro t rfl
    exact fun k => (h k).next
  · rintro t u ht ⟨e, hok, hstep⟩ k
    obtain ⟨u', hstep', hnext⟩ := lanStep_next hnet (fun k => (ht k).1) hok
    rw [hstep] at hstep'
    cases hstep'
    exact ⟨(hnext k).1, (ht k).2.trans (hnext k).2⟩

/-- The answer to an ARP frame, and what the host learns from it. -/
theorem lanStep_arp (hnet : ∀ i, (net i).Ok) (h : ∀ k, LanHost net k (hosts k)) {k : Nat}
    {frame dst tha : List UInt8} {op tpa : Nat} (hframe : ArpFrame (net j) frame dst op tha tpa)
    (hsent : (hosts j).sent[k]? = some frame) (rounds : Nat) :
    ∃ t, lanStep hosts (.deliver i j k rounds) = some t ∧ (∀ k, LanHost net k (t k)) ∧
      arpCacheGet (t i).arpCache (net j).ourIp = some (net j).ourMac ∧
      (op = 1 → (net i).ourIp ≠ 0 → tpa = (net i).ourIp → (t i).sent = (hosts i).sent ++
        [ethFrame (net j).ourMac (net i).ourMac ethArp
          (arpPkt 2 (net i).ourMac (net i).ourIp (net j).ourMac (net j).ourIp)]) := by
  obtain ⟨s', hrun, hnext, hget, hreply⟩ := (h i).handleArp (hnet j) hframe rounds
  refine ⟨Function.update hosts i s', ?_, fun k => (next_update h hnext k).1, ?_, ?_⟩
  · rw [lanStep_deliver hsent, hrun]
    rfl
  · rw [Function.update_self]
    exact hget
  · rw [Function.update_self]
    exact hreply

/-- The datagram that waits for the address, once that is known. -/
def SendsTo (net hosts : ι → Host) (i : ι) (dst : Nat) (proto : UInt8) (payload mac : List UInt8) : Prop :=
  ∃ t, lanStep hosts (.send i dst proto payload) = some t ∧ (t i).sent = (hosts i).sent ++
    [ethFrame mac (net i).ourMac ethIp (ipPkt (hosts i).ipId proto (net i).ourIp dst payload)]

theorem LanHost.sendsTo (h : LanHost net i (hosts i)) {dst : Nat} {proto : UInt8}
    {payload mac : List UInt8} (hmac : Net.knownMac (hosts i) dst = some mac)
    (hlen : 34 + payload.length ≤ frameMax) : SendsTo net hosts i dst proto payload mac := by
  have hrun := @ipSend_known (hosts i) [] dst proto payload mac h.ok.mac
    (knownMac_length h.ok.cacheMac hmac) hmac hlen
  refine ⟨_, by rw [lanStep, hrun]; rfl, ?_⟩
  rw [Function.update_self, h.mac, h.ip]

/-- A host that does not know its next hop asks for it. If the question reaches the next hop and the answer
    comes back, however late and whatever else goes on, then each of the two knows the other, and the
    datagram goes to the next hop. -/
theorem lan_resolves (hnet : LanStart net) (hrun : LanRun net hosts) {dst : Nat} {proto : UInt8}
    {payload : List UInt8} (hlen : 34 + payload.length ≤ frameMax)
    (hhop : hopOf (net i) dst = (net j).ourIp) (hunknown : knownMac (hosts i) dst = none) :
    ∃ t, lanStep hosts (.send i dst proto payload) = some t ∧ ∀ u, LanRun t u → ∀ rounds,
      ∃ v, lanStep u (.deliver j i (hosts i).sent.length rounds) = some v ∧
        arpCacheGet (v j).arpCache (net i).ourIp = some (net i).ourMac ∧ ∀ w, LanRun v w → ∀ rounds',
          ∃ x, lanStep w (.deliver i j (u j).sent.length rounds') = some x ∧
            arpCacheGet (x i).arpCache (net j).ourIp = some (net j).ourMac ∧
            SendsTo net x i dst proto payload (net j).ourMac := by
  have hok : ∀ i, (net i).Ok := fun i => (hnet i).1
  have h : ∀ k, LanHost net k (hosts k) := fun k => (hrun.next hok (lanHost_start hnet) k).1
  have hne : ¬ ((net j).ourIp = 0xFFFFFFFF ∨ (net j).ourIp = 0) := by
    intro hb
    rw [knownMac, (h i).hop, hhop, if_pos hb] at hunknown
    cases hunknown
  -- the question
  have hask : ArpFrame (net i) (ethFrame bcastMac (hosts i).ourMac ethArp (arpPkt 1 (hosts i).ourMac
      (hosts i).ourIp (List.replicate 6 0) (net j).ourIp)) bcastMac 1 (List.replicate 6 0) (net j).ourIp :=
    (h i).arpFrame (List.length_replicate ..) (by decide) (List.length_replicate ..) (hok j).ip
  have hsend := @ipSend_unknown (hosts i) 0 dst proto payload (h i).ok hunknown
  rw [(h i).hop, hhop] at hsend
  have ht := next_update h ((h i).sends (.inl ⟨_, _, _, _, hask⟩) (hosts i).ipId)
  refine ⟨_, by rw [lanStep]; exact congrArg _ hsend, fun u hu rounds => ?_⟩
  have hunext := hu.next hok fun k => (ht k).1
  have hprefix := (hunext i).2
  rw [Function.update_self] at hprefix
  have hasked := getElem?_of_prefix hprefix
  -- the answer
  obtain ⟨v, hv, hvhosts, hvget, hvsent⟩ := lanStep_arp hok (fun k => (hunext k).1) hask hasked rounds
  refine ⟨v, hv, hvget, fun w hw rounds' => ?_⟩
  have hreply : ArpFrame (net j) (ethFrame (net i).ourMac (net j).ourMac ethArp (arpPkt 2 (net j).ourMac
      (net j).ourIp (net i).ourMac (net i).ourIp)) (net i).ourMac 2 (net i).ourMac (net i).ourIp :=
    ⟨rfl, (hok i).mac, by decide, (hok i).mac, (hok i).ip⟩
  have hwnext := hw.next hok hvhosts
  have hprefix' := (hwnext j).2
  rw [hvsent rfl (fun h0 => hne (.inr h0)) rfl] at hprefix'
  have hreplied := getElem?_of_prefix hprefix'
  obtain ⟨x, hx, hxhosts, hxget, -⟩ := lanStep_arp hok (fun k => (hwnext k).1) hreply hreplied rounds'
  refine ⟨x, hx, hxget, (hxhosts i).sendsTo ?_ hlen⟩
  rw [knownMac, (hxhosts i).hop, hhop, if_neg hne]
  exact hxget

/-- The first ping of the gateway. -/
theorem lan_resolves_boot :
    ∃ t, lanStep demoLan (.send false (leNat [10, 0, 2, 2]) ipProtoIcmp [8]) = some t ∧
      ∀ u, LanRun t u → ∀ rounds, ∃ v, lanStep u (.deliver true false 0 rounds) = some v ∧
        arpCacheGet (v true).arpCache (demoLan false).ourIp = some (demoLan false).ourMac ∧
        ∀ w, LanRun v w → ∀ rounds',
          ∃ x, lanStep w (.deliver false true (u true).sent.length rounds') = some x ∧
            arpCacheGet (x false).arpCache (demoLan true).ourIp = some (demoLan true).ourMac ∧
            SendsTo demoLan x false (leNat [10, 0, 2, 2]) ipProtoIcmp [8] (demoLan true).ourMac :=
  lan_resolves lanStart_demoLan (.init rfl) (by decide) (by decide) (by decide)

/-! ## A host is pinged -/

/-- A run goes on by any step. -/
theorem lanStep_getD (hnet : LanStart net)
    (hrun : LanRun net hosts) {e : LanEvent ι} (hok : LanOk e) :
    LanRun net ((lanStep hosts e).getD hosts) := by
  have hok' : ∀ i, (net i).Ok := fun i => (hnet i).1
  obtain ⟨t, hstep, -⟩ := lanStep_next hok' (fun k => (hrun.next hok' (lanHost_start hnet) k).1) hok
  rw [hstep]
  exact hrun.step ⟨e, hok, hstep⟩

/-- The question has been asked. -/
def demoAsked : Bool → Host :=
  (lanStep demoLan (.send false (leNat [10, 0, 2, 2]) ipProtoIcmp [8])).getD demoLan

/-- The question has arrived. -/
def demoHeard : Bool → Host := (lanStep demoAsked (.deliver true false 0 0)).getD demoAsked

/-- The answer has come back. -/
def demoMet : Bool → Host := (lanStep demoHeard (.deliver false true 0 0)).getD demoHeard

theorem lanRun_demoMet : LanRun demoLan demoMet := by
  have hasked : LanRun demoLan demoAsked := by
    apply lanStep_getD lanStart_demoLan (.init rfl)
    exact ⟨by decide, by decide⟩
  have hheard : LanRun demoLan demoHeard := lanStep_getD lanStart_demoLan hasked trivial
  exact lanStep_getD lanStart_demoLan hheard trivial

/-- A host pings another. If the request arrives while its sender is known there, and the reply comes back
    while it is waited for, then the reply is taken note of, whatever else goes on. -/
theorem lan_pings (hnet : LanStart net) (hrun : LanRun net hosts) {seq : UInt16} {mac : List UInt8}
    (hmac : knownMac (hosts i) (net j).ourIp = some mac) :
    ∃ t, lanStep hosts (.send i (net j).ourIp ipProtoIcmp (pingPkt seq.toNat)) = some t ∧
      ∀ u mac', LanRun t u → knownMac (u j) (net i).ourIp = some mac' → ∀ rounds,
        ∃ v, lanStep u (.deliver j i (hosts i).sent.length rounds) = some v ∧
          ∀ w, LanRun v w → Listens (w i).icmp seq → ∀ rounds',
            ∃ x, lanStep w (.deliver i j (u j).sent.length rounds') = some x ∧
              (x i).icmp.got = true := by
  have hok : ∀ i, (net i).Ok := fun i => (hnet i).1
  have h : ∀ k, LanHost net k (hosts k) := fun k => (hrun.next hok (lanHost_start hnet) k).1
  have hmax : frameMax = 1600 := rfl
  have hpkt : (pingPkt seq.toNat).length = 40 := rfl
  obtain ⟨hlen, h0, hid, hseq⟩ := echoReply_pingPkt seq
  -- the request
  have hreq : IpFrame net i (ethFrame mac (hosts i).ourMac ethIp
      (ipPkt (hosts i).ipId ipProtoIcmp (hosts i).ourIp (net j).ourIp (pingPkt seq.toNat))) mac
      (hosts i).ipId ipProtoIcmp (net j).ourIp (pingPkt seq.toNat) :=
    ⟨by rw [(h i).mac, (h i).ip], knownMac_length (h i).ok.cacheMac hmac, (h i).knownMac hmac, (hok j).ip,
      by omega⟩
  have hsend := @ipSend_known (hosts i) [] (net j).ourIp ipProtoIcmp (pingPkt seq.toNat) mac (h i).ok.mac
    hreq.length hmac (by omega)
  have ht := next_update h ((h i).sends (.inr ⟨_, _, _, _, _, hreq⟩) (((hosts i).ipId + 1) % 65536))
  refine ⟨_, by rw [lanStep, hsend]; rfl, fun u mac' hu hmac' rounds => ?_⟩
  have hunext := hu.next hok fun k => (ht k).1
  have hprefix := (hunext i).2
  rw [Function.update_self] at hprefix
  have hasked := getElem?_of_prefix hprefix
  -- the reply
  have hj := (hunext j).1
  have hreply : IpFrame net j (ethFrame mac' (net j).ourMac ethIp (ipPkt (u j).ipId ipProtoIcmp
      (net j).ourIp (net i).ourIp (echoReply (pingPkt seq.toNat)))) mac' (u j).ipId ipProtoIcmp
      (net i).ourIp (echoReply (pingPkt seq.toNat)) :=
    ⟨rfl, knownMac_length hj.ok.cacheMac hmac', hj.knownMac hmac', (hok i).ip, by omega⟩
  have hanswer := hj.answers (hok i) hreq (by omega) rfl hmac' rounds
  have hv := next_update (fun k => (hunext k).1)
    (hj.sends (.inr ⟨_, _, _, _, _, hreply⟩) (((u j).ipId + 1) % 65536))
  refine ⟨_, by rw [lanStep_deliver hasked, hanswer]; rfl, fun w hw hlistens rounds' => ?_⟩
  have hwnext := hw.next hok fun k => (hv k).1
  have hprefix' := (hwnext j).2
  rw [Function.update_self] at hprefix'
  have hreplied := getElem?_of_prefix hprefix'
  obtain ⟨s', hheard, hgot⟩ := (hwnext i).1.hears (hok j) hreply (by omega) h0 hid hseq hlistens rounds'
  refine ⟨_, by rw [lanStep_deliver hreplied, hheard]; rfl, ?_⟩
  rw [Function.update_self]
  exact hgot

/-- The gateway is pinged when it is known. -/
theorem lan_pings_boot :
    ∃ t, lanStep demoMet (.send false (demoLan true).ourIp ipProtoIcmp (pingPkt (1 : UInt16).toNat)) =
        some t ∧
      ∀ u mac', LanRun t u → knownMac (u true) (demoLan false).ourIp = some mac' → ∀ rounds,
        ∃ v, lanStep u (.deliver true false (demoMet false).sent.length rounds) = some v ∧
          ∀ w, LanRun v w → Listens (w false).icmp 1 → ∀ rounds',
            ∃ x, lanStep w (.deliver false true (u true).sent.length rounds') = some x ∧
              (x false).icmp.got = true := by
  have hknown : knownMac (demoMet false) (demoLan true).ourIp = some [0x52, 0x55, 10, 0, 2, 2] := by
    decide +kernel
  exact lan_pings lanStart_demoLan lanRun_demoMet hknown

/-- A host sends a datagram to another. If it arrives while its port is open there and the mailbox is empty,
    then the mailbox holds its payload and the address of the sender, whatever else goes on. -/
theorem lan_delivers (hnet : LanStart net) (hrun : LanRun net hosts) {sport dport : Nat}
    {payload mac : List UInt8} (hpos : 0 < payload.length) (hlen : payload.length ≤ udpBufSize)
    (hport : dport ≠ 0) (hmac : knownMac (hosts i) (net j).ourIp = some mac) :
    ∃ t, lanStep hosts (.send i (net j).ourIp ipProtoUdp (udpPkt sport dport payload)) = some t ∧
      ∀ u, LanRun t u → (u j).udp.port = dport → (u j).udp.len = 0 → ∀ rounds,
        ∃ v, lanStep u (.deliver j i (hosts i).sent.length rounds) = some v ∧
          (v j).udp.data.take payload.length = payload ∧ (v j).udp.len = payload.length ∧
          (v j).udp.srcIp = (net i).ourIp := by
  have hok : ∀ i, (net i).Ok := fun i => (hnet i).1
  have h : ∀ k, LanHost net k (hosts k) := fun k => (hrun.next hok (lanHost_start hnet) k).1
  have hmax : frameMax = 1600 := rfl
  have hbuf : udpBufSize = 1024 := rfl
  have hpkt := udpPkt_length sport dport payload
  have hdgram : IpFrame net i (ethFrame mac (hosts i).ourMac ethIp (ipPkt (hosts i).ipId ipProtoUdp
      (hosts i).ourIp (net j).ourIp (udpPkt sport dport payload))) mac (hosts i).ipId ipProtoUdp
      (net j).ourIp (udpPkt sport dport payload) :=
    ⟨by rw [(h i).mac, (h i).ip], knownMac_length (h i).ok.cacheMac hmac, (h i).knownMac hmac, (hok j).ip,
      by omega⟩
  have hsend := @ipSend_known (hosts i) [] (net j).ourIp ipProtoUdp (udpPkt sport dport payload) mac
    (h i).ok.mac hdgram.length hmac (by omega)
  have ht := next_update h ((h i).sends (.inr ⟨_, _, _, _, _, hdgram⟩) (((hosts i).ipId + 1) % 65536))
  refine ⟨_, by rw [lanStep, hsend]; rfl, fun u hu hopen hempty rounds => ?_⟩
  have hunext := hu.next hok fun k => (ht k).1
  have hprefix := (hunext i).2
  rw [Function.update_self] at hprefix
  have hsent := getElem?_of_prefix hprefix
  obtain ⟨s', hstored, hdata, hcount, hsrc⟩ :=
    (hunext j).1.stores (hok i) hdgram hpos hlen hopen hport hempty rounds
  refine ⟨_, by rw [lanStep_deliver hsent, hstored]; rfl, ?_⟩
  rw [Function.update_self]
  exact ⟨hdata, hcount, hsrc⟩

/-- A byte for the gateway. -/
theorem lan_delivers_boot :
    ∃ t, lanStep demoMet (.send false (demoLan true).ourIp ipProtoUdp (udpPkt 53 67 [7])) = some t ∧
      ∀ u, LanRun t u → (u true).udp.port = 67 → (u true).udp.len = 0 → ∀ rounds,
        ∃ v, lanStep u (.deliver true false (demoMet false).sent.length rounds) = some v ∧
          (v true).udp.data.take 1 = [7] ∧ (v true).udp.len = (1 : Nat) ∧
          (v true).udp.srcIp = (demoLan false).ourIp := by
  have hknown : knownMac (demoMet false) (demoLan true).ourIp = some [0x52, 0x55, 10, 0, 2, 2] := by
    decide +kernel
  exact lan_delivers lanStart_demoLan lanRun_demoMet (by decide) (by decide) (by decide) hknown

end run

end ChocoOs.Net
