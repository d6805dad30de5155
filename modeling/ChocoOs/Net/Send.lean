import ChocoOs.Net.Wire

/-!
# Sending

The state of the network stack and the way of a datagram to `e1000_send`. A call that waits for an
address sees what the receive thread has put into the ARP cache at each poll; on the receive thread
itself that is nothing.
-/

namespace ChocoOs.Net
open ProgLib

/-- `ARP_CACHE_SIZE` -/
def arpCacheSize : Nat := 8

/-- `UDP_BUF_SIZE` -/
def udpBufSize : Nat := 1024

/-- An entry of `arp_cache` (`net.c:91-96`). -/
structure ArpEntry where
  ip : Nat
  mac : List UInt8
  valid : Bool
  deriving DecidableEq

/-- `icmp_state` (`net.c:232-237`) -/
structure IcmpState where
  waiting : Bool
  id : Nat
  seq : Nat
  got : Bool
  deriving DecidableEq

/-- `udp_sock` (`net.c:241-247`) -/
structure UdpSock where
  port : Nat
  data : List UInt8
  len : Int
  srcIp : Nat
  deriving DecidableEq

/-- The state of `net.c`, and the frames that were passed to `e1000_send`. -/
structure Host where
  nicUp : Bool
  configured : Bool
  ourMac : List UInt8
  ourIp : Nat
  ourMask : Nat
  ourGw : Nat
  ourDns : Nat
  arpCache : List ArpEntry
  ipId : Nat
  icmp : IcmpState
  udp : UdpSock
  eport : Nat
  sent : List (List UInt8)
  deriving DecidableEq

/-- `bcast_mac` -/
def bcastMac : List UInt8 := List.replicate 6 0xFF

/-- What the types and the array bounds of the C code say. -/
structure Host.Ok (s : Host) : Prop where
  mac : s.ourMac.length = 6
  ip : s.ourIp < 2 ^ 32
  mask : s.ourMask < 2 ^ 32
  gw : s.ourGw < 2 ^ 32
  cache : s.arpCache.length = arpCacheSize
  cacheMac : ∀ e ∈ s.arpCache, e.mac.length = 6
  port : s.udp.port < 65536
  data : s.udp.data.length = udpBufSize

/-- Write entry `i`. -/
def setEntry (cache : List ArpEntry) (i : Nat) (f : ArpEntry → ArpEntry) : List ArpEntry :=
  cache.modify i f

/-- `arp_cache_put` (`net.c:100-118`) -/
def arpCachePut (cache : List ArpEntry) (ip : Nat) (mac : List UInt8) : List ArpEntry :=
  match cache.findIdx? fun e => e.valid && e.ip = ip with
  | some i => setEntry cache i fun e => { e with mac := mac }
  | none =>
    match cache.findIdx? fun e => !e.valid with
    | some i => setEntry cache i fun _ => ⟨ip, mac, true⟩
    | none => setEntry cache 0 fun e => { e with ip := ip, mac := mac }

/-- `arp_cache_get` (`net.c:120-129`) -/
def arpCacheGet (cache : List ArpEntry) (ip : Nat) : Option (List UInt8) :=
  (cache.find? fun e => e.valid && e.ip = ip).map ArpEntry.mac

/-- `eth_send` (`net.c:131-147`) -/
def ethSend (s : Host) (dstMac : List UInt8) (ethertype : Nat) (payload : List UInt8) :
    Option Host := do
  let frame ← store frameMax (dstMac ++ s.ourMac ++ net16 ethertype) 14 payload
  let total := 14 + payload.length
  let frame := if total < 60 then frame ++ List.replicate (60 - total) 0 else frame
  return { s with sent := s.sent ++ [frame] }

/-- An ARP packet (`net.c:40-49`). -/
def arpPkt (op : Nat) (sha : List UInt8) (spa : Nat) (tha : List UInt8) (tpa : Nat) : List UInt8 :=
  net16 1 ++ net16 ethIp ++ [6, 4] ++ net16 op ++ sha ++ leBytes 4 spa ++ tha ++ leBytes 4 tpa

/-- `arp_request` (`net.c:149-161`) -/
def arpRequest (s : Host) (ip : Nat) : Option Host :=
  ethSend s bcastMac ethArp (arpPkt 1 s.ourMac s.ourIp (List.replicate 6 0) ip)

/-- The next hop: off-subnet addresses go through the gateway (`net.c:166-168`). -/
def hopOf (s : Host) (dst : Nat) : Nat :=
  if s.ourMask ≠ 0 ∧ dst &&& s.ourMask ≠ s.ourIp &&& s.ourMask then s.ourGw else dst

/-- `resolve_mac` (`net.c:163-187`); `polls` are the caches that its waiting loop finds. -/
def resolveMac (s : Host) (polls : List (List ArpEntry)) (dst : Nat) :
    Option (Host × Option (List UInt8)) :=
  let hop := hopOf s dst
  if hop = 0xFFFFFFFF ∨ hop = 0 then some (s, some bcastMac)
  else
    match arpCacheGet s.arpCache hop with
    | some mac => some (s, some mac)
    | none => do
      let s ← arpRequest s hop
      match polls.find? fun cache => (arpCacheGet cache hop).isSome with
      | some cache => return ({ s with arpCache := cache }, arpCacheGet cache hop)
      | none => return ({ s with arpCache := polls.getLastD s.arpCache }, none)

/-- The header that `ip_send` writes, with this checksum (`net.c:199-210`). -/
def ipHdr (len id : Nat) (proto : UInt8) (csum src dst : Nat) : List UInt8 :=
  [0x45, 0] ++ net16 (20 + len) ++ net16 id ++ net16 0x4000 ++ [64, proto] ++ leBytes 2 csum ++
    leBytes 4 src ++ leBytes 4 dst

/-- `ip_send` (`net.c:193-214`) -/
def ipSend (s : Host) (polls : List (List ArpEntry)) (dst : Nat) (proto : UInt8)
    (payload : List UInt8) : Option Host := do
  let (s, mac) ← resolveMac s polls dst
  match mac with
  | none => return s
  | some mac =>
    let id := s.ipId
    let s := { s with ipId := (id + 1) % 65536 }
    let csum := checksum16 (ipHdr payload.length id proto 0 s.ourIp dst) 0
    let pkt ← store frameMax (ipHdr payload.length id proto csum s.ourIp dst) 20 payload
    ethSend s mac ethIp pkt

/-- `udp_send` (`net.c:216-227`) -/
def udpSend (s : Host) (polls : List (List ArpEntry)) (dstIp sport dport : Nat)
    (payload : List UInt8) : Option Host := do
  let pkt ← store frameMax (net16 sport ++ net16 dport ++ net16 (8 + payload.length) ++ leBytes 2 0) 8
    payload
  ipSend s polls dstIp ipProtoUdp pkt

/-! ## What is sent -/

/-- A frame that `eth_send` passes on, with the padding to 60 bytes. -/
def ethFrame (dst src : List UInt8) (ethertype : Nat) (payload : List UInt8) : List UInt8 :=
  dst ++ src ++ net16 ethertype ++ payload ++ List.replicate (60 - (14 + payload.length)) 0

/-- The datagram that `ip_send` builds. -/
def ipPkt (id : Nat) (proto : UInt8) (src dst : Nat) (payload : List UInt8) : List UInt8 :=
  ipHdr payload.length id proto (checksum16 (ipHdr payload.length id proto 0 src dst) 0) src dst ++
    payload

theorem ipHdr_length (len id : Nat) (proto : UInt8) (csum src dst : Nat) :
    (ipHdr len id proto csum src dst).length = 20 := by
  simp only [ipHdr, List.length_append, net16_length, leBytes_length, List.length_cons,
    List.length_nil]

theorem store_append {cap off : Nat} {a src : List UInt8} (ha : a.length = off)
    (h : off + src.length ≤ cap) : store cap a off src = some (a ++ src) := by
  subst ha
  rw [store, if_pos h, List.take_length, List.drop_eq_nil_of_le (Nat.le_add_right _ _),
    List.append_nil]

theorem store_eq_none {cap off : Nat} {a src : List UInt8} (h : cap < off + src.length) :
    store cap a off src = none := if_neg (by omega)

theorem ethSend_eq {s : Host} {dstMac : List UInt8} {ethertype : Nat} {payload : List UInt8}
    (hsrc : s.ourMac.length = 6) (hdst : dstMac.length = 6) (h : 14 + payload.length ≤ frameMax) :
    ethSend s dstMac ethertype payload =
      some { s with sent := s.sent ++ [ethFrame dstMac s.ourMac ethertype payload] } := by
  have hhdr : (dstMac ++ s.ourMac ++ net16 ethertype).length = 14 := by
    simp only [List.length_append, net16_length, hsrc, hdst]
  rw [ethSend, store_append hhdr h]
  simp only [Option.bind_eq_bind, Option.bind_some, Option.pure_def, ethFrame]
  by_cases hpad : 14 + payload.length < 60
  · rw [if_pos hpad]
  · rw [if_neg hpad, Nat.sub_eq_zero_of_le (by omega), List.replicate_zero, List.append_nil]

theorem ethSend_eq_none {s : Host} {dstMac : List UInt8} {ethertype : Nat} {payload : List UInt8}
    (h : frameMax < 14 + payload.length) : ethSend s dstMac ethertype payload = none := by
  rw [ethSend, store_eq_none h]
  rfl

theorem arpCacheGet_length {cache : List ArpEntry} {ip : Nat} {mac : List UInt8}
    (h : ∀ e ∈ cache, e.mac.length = 6) (hget : arpCacheGet cache ip = some mac) :
    mac.length = 6 := by
  obtain ⟨e, he, rfl⟩ := Option.map_eq_some_iff.mp hget
  exact h e (List.mem_of_find?_eq_some he)

theorem arpPkt_length {op : Nat} {sha tha : List UInt8} {spa tpa : Nat} (hs : sha.length = 6)
    (ht : tha.length = 6) : (arpPkt op sha spa tha tpa).length = 28 := by
  simp only [arpPkt, List.length_append, net16_length, leBytes_length, List.length_cons,
    List.length_nil, hs, ht]

/-- An ARP packet always fits. -/
theorem ethSend_arp {s : Host} {dstMac sha tha : List UInt8} {op spa tpa : Nat}
    (hsrc : s.ourMac.length = 6) (hdst : dstMac.length = 6) (hs : sha.length = 6)
    (ht : tha.length = 6) : ethSend s dstMac ethArp (arpPkt op sha spa tha tpa) =
      some { s with sent := s.sent ++ [ethFrame dstMac s.ourMac ethArp (arpPkt op sha spa tha tpa)] } :=
  ethSend_eq hsrc hdst (by rw [arpPkt_length hs ht, frameMax]; omega)

theorem arpRequest_eq {s : Host} (hs : s.ourMac.length = 6) (ip : Nat) :
    arpRequest s ip = some { s with sent := s.sent ++ [ethFrame bcastMac s.ourMac ethArp
      (arpPkt 1 s.ourMac s.ourIp (List.replicate 6 0) ip)] } :=
  ethSend_arp hs (List.length_replicate ..) hs (List.length_replicate ..)

/-- The address that a datagram goes to without waiting. -/
def knownMac (s : Host) (dst : Nat) : Option (List UInt8) :=
  if hopOf s dst = 0xFFFFFFFF ∨ hopOf s dst = 0 then some bcastMac
  else arpCacheGet s.arpCache (hopOf s dst)

theorem knownMac_length {s : Host} (hs : ∀ e ∈ s.arpCache, e.mac.length = 6) {dst : Nat}
    {mac : List UInt8} (h : knownMac s dst = some mac) : mac.length = 6 := by
  unfold knownMac at h
  split at h
  · cases h
    rfl
  · exact arpCacheGet_length hs h

theorem resolveMac_known {s : Host} {polls : List (List ArpEntry)} {dst : Nat} {mac : List UInt8}
    (h : knownMac s dst = some mac) : resolveMac s polls dst = some (s, some mac) := by
  unfold knownMac at h
  rw [resolveMac]
  by_cases hb : hopOf s dst = 0xFFFFFFFF ∨ hopOf s dst = 0
  · rw [if_pos hb] at h ⊢
    rw [h]
  · rw [if_neg hb] at h ⊢
    rw [h]

/-- The receive thread waits in vain: nobody else fills the cache. -/
theorem resolveMac_unknown {s : Host} {rounds dst : Nat} (hs : s.Ok) (h : knownMac s dst = none) :
    resolveMac s (List.replicate rounds s.arpCache) dst = some ({ s with
      sent := s.sent ++ [ethFrame bcastMac s.ourMac ethArp
        (arpPkt 1 s.ourMac s.ourIp (List.replicate 6 0) (hopOf s dst))] }, none) := by
  unfold knownMac at h
  rw [resolveMac]
  by_cases hb : hopOf s dst = 0xFFFFFFFF ∨ hopOf s dst = 0
  · rw [if_pos hb] at h
    cases h
  · rw [if_neg hb] at h ⊢
    have hfind : (List.replicate rounds s.arpCache).find?
        (fun cache => (arpCacheGet cache (hopOf s dst)).isSome) = none := by
      refine List.find?_eq_none.mpr fun c hc => ?_
      rw [List.eq_of_mem_replicate hc, h]
      exact Bool.noConfusion
    have hlast : (List.replicate rounds s.arpCache).getLastD s.arpCache = s.arpCache := by
      cases rounds with
      | zero => rfl
      | succ n =>
        rw [List.getLastD_eq_getLast?, List.getLast?_replicate, if_neg (Nat.succ_ne_zero n)]
        rfl
    rw [h]
    simp only [Option.bind_eq_bind, Option.pure_def, hfind, arpRequest_eq hs.mac, Option.bind_some,
      hlast]

/-- A datagram to a resolved address goes out as one frame. -/
theorem ipSend_resolved {s t : Host} {polls : List (List ArpEntry)} {dst : Nat} {proto : UInt8}
    {payload mac : List UInt8} (hsrc : t.ourMac.length = 6) (hmac : mac.length = 6)
    (h : resolveMac s polls dst = some (t, some mac)) (hlen : 34 + payload.length ≤ frameMax) :
    ipSend s polls dst proto payload = some { t with
      ipId := (t.ipId + 1) % 65536
      sent := t.sent ++
        [ethFrame mac t.ourMac ethIp (ipPkt t.ipId proto t.ourIp dst payload)] } := by
  have hfit : 14 + (ipPkt t.ipId proto t.ourIp dst payload).length ≤ frameMax := by
    rw [ipPkt, List.length_append, ipHdr_length]
    omega
  rw [ipSend, h]
  simp only [Option.bind_eq_bind, Option.bind_some]
  rw [store_append (ipHdr_length ..) (by omega), Option.bind_some]
  rw [← ipPkt, ethSend_eq (s := { t with ipId := (t.ipId + 1) % 65536 }) hsrc hmac hfit]

theorem ipSend_known {s : Host} {polls : List (List ArpEntry)} {dst : Nat} {proto : UInt8}
    {payload mac : List UInt8} (hsrc : s.ourMac.length = 6) (hmac : mac.length = 6)
    (h : knownMac s dst = some mac) (hlen : 34 + payload.length ≤ frameMax) :
    ipSend s polls dst proto payload = some { s with
      ipId := (s.ipId + 1) % 65536
      sent := s.sent ++
        [ethFrame mac s.ourMac ethIp (ipPkt s.ipId proto s.ourIp dst payload)] } :=
  ipSend_resolved hsrc hmac (resolveMac_known h) hlen

/-- Resolving an address changes the cache, and may have sent a request. -/
theorem resolveMac_same {s t : Host} {polls : List (List ArpEntry)} {dst : Nat}
    {mac : Option (List UInt8)} (hs : s.ourMac.length = 6)
    (h : resolveMac s polls dst = some (t, mac)) :
    ∃ cache new, t = { s with arpCache := cache, sent := s.sent ++ new } ∧
      (cache = s.arpCache ∨ cache ∈ polls) := by
  have hself : ∃ cache new, s = { s with arpCache := cache, sent := s.sent ++ new } ∧
      (cache = s.arpCache ∨ cache ∈ polls) :=
    ⟨s.arpCache, [], by rw [List.append_nil], .inl rfl⟩
  unfold resolveMac at h
  simp only at h
  split at h
  · cases h
    exact hself
  · split at h
    · cases h
      exact hself
    · rw [arpRequest_eq hs] at h
      simp only [Option.bind_eq_bind, Option.bind_some, Option.pure_def] at h
      split at h
      · next cache hfind =>
        cases h
        exact ⟨_, _, rfl, .inr (List.mem_of_find?_eq_some hfind)⟩
      · cases h
        exact ⟨_, _, rfl, List.mem_cons.mp List.getLastD_mem_cons⟩

/-- A resolved address has six bytes. -/
theorem resolveMac_length {s t : Host} {polls : List (List ArpEntry)} {dst : Nat}
    {mac : List UInt8} (hs : s.Ok) (hpolls : ∀ cache ∈ polls, ∀ e ∈ cache, e.mac.length = 6)
    (h : resolveMac s polls dst = some (t, some mac)) : mac.length = 6 := by
  unfold resolveMac at h
  simp only at h
  split at h
  · cases h
    rfl
  · split at h
    · next hget =>
      cases h
      exact arpCacheGet_length hs.cacheMac hget
    · rw [arpRequest_eq hs.mac] at h
      simp only [Option.bind_eq_bind, Option.bind_some, Option.pure_def] at h
      split at h
      · next hfind =>
        simp only [Option.some.injEq, Prod.mk.injEq] at h
        exact arpCacheGet_length (hpolls _ (List.mem_of_find?_eq_some hfind)) h.2
      · cases h

/-- A datagram that is too long overruns a buffer. -/
theorem ipSend_long {s : Host} {polls : List (List ArpEntry)} {dst : Nat} {proto : UInt8}
    {payload mac : List UInt8} (h : knownMac s dst = some mac)
    (hlen : frameMax < 34 + payload.length) : ipSend s polls dst proto payload = none := by
  rw [ipSend, resolveMac_known h]
  simp only [Option.bind_eq_bind, Option.bind_some]
  by_cases hpkt : 20 + payload.length ≤ frameMax
  · rw [store_append (ipHdr_length ..) hpkt, Option.bind_some, ethSend_eq_none]
    rw [List.length_append, ipHdr_length]
    omega
  · rw [store_eq_none (by omega)]
    rfl

/-- To an unknown address the receive thread sends a request and nothing else. -/
theorem ipSend_unknown {s : Host} {rounds dst : Nat} {proto : UInt8} {payload : List UInt8}
    (hs : s.Ok) (h : knownMac s dst = none) :
    ipSend s (List.replicate rounds s.arpCache) dst proto payload = some { s with
      sent := s.sent ++ [ethFrame bcastMac s.ourMac ethArp
        (arpPkt 1 s.ourMac s.ourIp (List.replicate 6 0) (hopOf s dst))] } := by
  rw [ipSend, resolveMac_unknown hs h]
  rfl

theorem resolveMac_isSome {s : Host} (hs : s.ourMac.length = 6) (polls : List (List ArpEntry))
    (dst : Nat) : ∃ t mac, resolveMac s polls dst = some (t, mac) := by
  unfold resolveMac
  simp only
  split
  · exact ⟨_, _, rfl⟩
  · split
    · exact ⟨_, _, rfl⟩
    · rw [arpRequest_eq hs]
      simp only [Option.bind_eq_bind, Option.bind_some, Option.pure_def]
      split <;> exact ⟨_, _, rfl⟩

/-- Sending what fits changes the cache, the counter and what was sent. -/
theorem ipSend_isSome {s : Host} (hs : s.Ok) {polls : List (List ArpEntry)}
    (hpolls : ∀ cache ∈ polls, ∀ e ∈ cache, e.mac.length = 6) (dst : Nat) (proto : UInt8)
    {payload : List UInt8} (hlen : 34 + payload.length ≤ frameMax) :
    ∃ cache id sent, ipSend s polls dst proto payload =
      some { s with arpCache := cache, ipId := id, sent := sent } ∧
      (cache = s.arpCache ∨ cache ∈ polls) := by
  obtain ⟨t, mac, hres⟩ := resolveMac_isSome hs.mac polls dst
  obtain ⟨cache, new, rfl, hcache⟩ := resolveMac_same hs.mac hres
  cases mac with
  | none =>
    rw [ipSend, hres]
    exact ⟨_, _, _, rfl, hcache⟩
  | some mac =>
    have hmac := resolveMac_length hs hpolls hres
    rw [ipSend_resolved (by exact hs.mac) hmac hres hlen]
    exact ⟨_, _, _, rfl, hcache⟩

theorem udpSend_isSome {s : Host} (hs : s.Ok) {polls : List (List ArpEntry)}
    (hpolls : ∀ cache ∈ polls, ∀ e ∈ cache, e.mac.length = 6) (dst sport dport : Nat)
    {payload : List UInt8} (hlen : 42 + payload.length ≤ frameMax) :
    ∃ cache id sent, udpSend s polls dst sport dport payload =
      some { s with arpCache := cache, ipId := id, sent := sent } ∧
      (cache = s.arpCache ∨ cache ∈ polls) := by
  have hhdr : (net16 sport ++ net16 dport ++ net16 (8 + payload.length) ++ leBytes 2 0).length = 8 := by
    simp only [List.length_append, net16_length, leBytes_length]
  rw [udpSend, store_append hhdr (by omega), Option.bind_eq_bind, Option.bind_some]
  refine ipSend_isSome hs hpolls dst ipProtoUdp ?_
  rw [List.length_append, hhdr]
  omega

end ChocoOs.Net
