import ChocoOs.Net.Resolve

/-!
# The DHCP client

`net_dhcp` broadcasts a request, waits for an offer, asks for it and waits for the acknowledgement.
The receive thread stores one datagram at a time in the mailbox.
-/

namespace ChocoOs.Net
open ProgLib

/-- `sizeof(DhcpPkt)` -/
def dhcpPktSize : Nat := 240

/-- The size of the array `opts`. -/
def optsSize : Nat := 312

/-- `dhcp_build` (`net.c:378-416`) -/
def dhcpBuild (s : Host) (msgType : UInt8) (xid reqIp serverIp : Nat) : List UInt8 :=
  [1, 1, 6, 0] ++ leBytes 4 xid ++ leBytes 2 0 ++ net16 0x8000 ++ List.replicate 16 0 ++ s.ourMac ++
    List.replicate 10 0 ++ List.replicate 192 0 ++ [0x63, 0x82, 0x53, 0x63] ++
    [53, 1, msgType] ++
    (if reqIp ≠ 0 then [50, 4] ++ leBytes 4 reqIp else []) ++
    (if serverIp ≠ 0 then [54, 4] ++ leBytes 4 serverIp else []) ++
    [55, 3, 1, 3, 6, 255]

section scan

variable {α : Type} (o : Nat → Option UInt8) (olen : Nat) (f : Nat → α → Option α)

/-- One round of the loop over options (`net.c:432-441`, `net.c:464-480`, `net.c:512-521`): padding
    is one byte, every other option is handled by `f`. -/
def scanRound : Nat × α → Option (LoopStep (Nat × α) α)
  | (i, a) =>
    if i + 1 < olen then do
      let c ← o i
      if c = 255 then return .done a
      else if c = 0 then return .next (i + 1, a)
      else
        let a ← f i a
        let len ← o (i + 1)
        return .next (i + (2 + len.toNat), a)
    else some (.done a)

def scanOpts (a : α) : Option α := loop (scanRound o olen f) (olen + 1) (0, a)

end scan

/-- Four bytes as an address. -/
def addr4 (o : Nat → Option UInt8) (i : Nat) : Option Nat := do
  return leNat [← o i, ← o (i + 1), ← o (i + 2), ← o (i + 3)]

/-- The message type that `dhcp_wait` finds (`net.c:431-441`). -/
def messageType (o : Nat → Option UInt8) (olen : Nat) : Option UInt8 :=
  scanOpts o olen (fun i type => do if (← o i) = 53 then o (i + 2) else return type) 0

/-- What `dhcp_parse_opts` sets. -/
structure NetConfig where
  mask : Nat
  gw : Nat
  dns : Nat
  deriving DecidableEq

/-- What `dhcp_parse_opts` does with one option (`net.c:471-478`). -/
def parseOption (o : Nat → Option UInt8) (i : Nat) (c : NetConfig) : Option NetConfig := do
  let code ← o i
  let len ← o (i + 1)
  if code = 1 ∧ 4 ≤ len then return { c with mask := ← addr4 o (i + 2) }
  else if code = 3 ∧ 4 ≤ len then return { c with gw := ← addr4 o (i + 2) }
  else if code = 6 ∧ 4 ≤ len then return { c with dns := ← addr4 o (i + 2) }
  else return c

/-- `dhcp_parse_opts` (`net.c:462-481`) -/
def dhcpParseOpts (o : Nat → Option UInt8) (olen : Nat) : NetConfig → Option NetConfig :=
  scanOpts o olen (parseOption o)

/-- The server that an offer names (`net.c:510-521`). -/
def serverId (o : Nat → Option UInt8) (olen : Nat) : Option Nat :=
  scanOpts o olen (fun i server => do if (← o i) = 54 then addr4 o (i + 2) else return server) 0

/-- What `dhcp_wait` leaves in `reply`, `opts` and `opts_len`. -/
structure DhcpReply where
  pkt : List UInt8
  opts : List UInt8
  optsLen : Nat

/-- The bytes from `opts` on; what lies behind the array is whatever the stack holds there. -/
def DhcpReply.mem (r : DhcpReply) (past : Nat → UInt8) (i : Nat) : Option UInt8 :=
  if i < optsSize then r.opts[i]? else some (past i)

/-- `reply.yiaddr` -/
def DhcpReply.yiaddr (r : DhcpReply) : Nat := addrAt r.pkt 16

/-- `dhcp_wait` (`net.c:418-460`), for what its polls find before the deadline; `opts` is the
    caller's array. -/
def dhcpWait (xid : Nat) (wantType : UInt8) (opts : List UInt8) :
    List (Option (List UInt8 × Nat)) → Host → Option (Host × Option DhcpReply)
  | [], s => some (s, none)
  | none :: rest, s => dhcpWait xid wantType opts rest s
  | some (d, src) :: rest, s => do
    let u := deposit s.udp d src
    let dropped := { s with udp := { u with len := 0 } }
    if d.length < dhcpPktSize then dhcpWait xid wantType opts rest dropped
    else
      let op ← u.data[0]?
      let id ← get32 u.data 4
      if op = 2 ∧ id = xid then
        let olen := d.length - dhcpPktSize
        let type ← messageType (fun i => u.data[dhcpPktSize + i]?) olen
        if type = wantType then
          let pkt ← field u.data 0 dhcpPktSize
          let olen := if optsSize < olen then optsSize else olen
          let bytes ← field u.data dhcpPktSize olen
          let opts ← store optsSize opts 0 bytes
          return (dropped, some ⟨pkt, opts, olen⟩)
        else dhcpWait xid wantType opts rest dropped
      else dhcpWait xid wantType opts rest dropped

/-- The number of a transaction that begins at `ticks` (`net.c:494`). -/
def dhcpXid (ticks : Nat) : Nat := ticks % 2 ^ 32 ^^^ 0xC0C0A0A0

/-- `net_dhcp` (`net.c:483-543`) with the clock at `ticks`. The two sends find `caches` and `caches'`,
    the two waits `polls` and `polls'`; `opts` are the bytes that the array holds at first, `past` and
    `past'` those behind it. -/
def netDhcp (s : Host) (caches caches' : List (List ArpEntry)) (ticks : Nat) (opts : List UInt8)
    (past past' : Nat → UInt8) (polls polls' : List (Option (List UInt8 × Nat))) :
    Option (Host × Bool) :=
  if s.nicUp = false then some (s, false)
  else if s.configured = true then some (s, true)
  else do
    let xid := dhcpXid ticks
    let s := { s with udp := { s.udp with len := 0, port := 68 } }
    let s ← udpSend s caches 0xFFFFFFFF 68 67 (dhcpBuild s 1 xid 0 0)
    let (s, offer) ← dhcpWait xid 2 opts polls s
    match offer with
    | none => return ({ s with udp := { s.udp with port := 0 } }, false)
    | some offer =>
      let server ← serverId (offer.mem past) offer.optsLen
      let s ← udpSend s caches' 0xFFFFFFFF 68 67 (dhcpBuild s 3 xid offer.yiaddr server)
      let (s, ack) ← dhcpWait xid 5 offer.opts polls' s
      match ack with
      | none => return ({ s with udp := { s.udp with port := 0 } }, false)
      | some ack =>
        let c ← dhcpParseOpts (ack.mem past') ack.optsLen ⟨s.ourMask, s.ourGw, s.ourDns⟩
        return ({ s with
          ourIp := ack.yiaddr
          ourMask := c.mask
          ourGw := c.gw
          ourDns := c.dns
          configured := true
          udp := { s.udp with port := 0 } }, true)

end ChocoOs.Net
