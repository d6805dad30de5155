import ChocoOs.Lib.Loop
import ChocoOs.Net.Receive

/-!
# The DNS resolver

`net_resolve` builds a query, sends it and reads the datagrams that arrive in the mailbox.
-/

namespace ChocoOs.Net
open ProgLib

/-! ## Addresses in dotted form -/

/-- The digits of one part (`net.c:699-704`), after a value read so far. -/
def readNumber : Nat → List UInt8 → Option (Nat × List UInt8)
  | v, [] => some (v, [])
  | v, c :: rest =>
    if 48 ≤ c ∧ c ≤ 57 then
      let v := v * 10 + (c.toNat - 48)
      if 255 < v then none else readNumber v rest
    else some (v, c :: rest)

/-- The last `n` parts, with a point between them (`net.c:694-712`). -/
def readParts : Nat → List UInt8 → Option (List UInt8 × List UInt8)
  | 0, s => some ([], s)
  | n + 1, s => do
    let c ← s.head?
    if c < 48 ∨ 57 < c then none
    else
      let (v, rest) ← readNumber 0 s
      if n = 0 then return ([UInt8.ofNat v], rest)
      else if rest.head? = some 46 then
        let (parts, rest) ← readParts n rest.tail
        return (UInt8.ofNat v :: parts, rest)
      else none

/-- `str_to_ip` (`net.c:689-717`): the address, or `none` for `false`. -/
def strToIp (s : List UInt8) : Option Nat := do
  let (parts, rest) ← readParts 4 s
  if rest = [] then some (leNat parts) else none

/-! ## The query -/

/-- One round of the loop over the labels of a name (`net.c:606-619`): what is left of the name and
    the bytes from `q + 12` on. A round that fails leaves with `none`. -/
def labelRound : List UInt8 × List UInt8 →
    Option (LoopStep (List UInt8 × List UInt8) (Option (List UInt8)))
  | ([], q) => some (.done (some q))
  | (p, q) =>
    let label := p.takeWhile (· ≠ 46)
    let len := label.length
    if len = 0 ∨ 63 < len ∨ 500 < 12 + q.length + len + 1 then some (.done none)
    else
      let p := p.drop len
      let q := q ++ UInt8.ofNat len :: label
      some (.next (if p.head? = some 46 then p.tail else p, q))

/-- The labels of a name as a query has them, or `none` where `net_resolve` gives up. -/
def queryLabels (name : List UInt8) : Option (Option (List UInt8)) :=
  loop labelRound (name.length + 1) (name, [])

/-- The query (`net.c:594-625`). -/
def dnsQuery (qid : Nat) (labels : List UInt8) : List UInt8 :=
  [UInt8.ofNat (qid / 256), UInt8.ofNat qid, 1, 0, 0, 1, 0, 0, 0, 0, 0, 0] ++ labels ++
    [0, 0, 1, 0, 1]

/-! ## The answer -/

section answer

variable (r : List UInt8) (rlen : Nat)

/-- One round of `while (i < rlen && r[i] != 0) i += r[i] + 1;` -/
def skipRound (i : Nat) : Option (LoopStep Nat Nat) :=
  if i < rlen then do
    let b ← r[i]?
    if b = 0 then return .done i else return .next (i + (b.toNat + 1))
  else some (.done i)

def skipLabels (i : Nat) : Option Nat := loop (skipRound r rlen) (rlen + 1) i

/-- How an owner name is skipped (`net.c:655-662`). -/
def skipOwner (i : Nat) : Option Nat := do
  let b ← r[i]?
  if b &&& 0xC0 = 0xC0 then some (i + 2) else (skipLabels r rlen i).map (· + 1)

/-- A big-endian 16-bit number. -/
def word (i : Nat) : Option Nat := do
  let hi ← r[i]?
  let lo ← r[i + 1]?
  return hi.toNat * 256 + lo.toNat

/-- One round of the walk over the answers (`net.c:652-676`), for the answer number and the
    position. It leaves with the address, or with `none`. -/
def answerRound (ancount : Nat) : Nat × Nat → Option (LoopStep (Nat × Nat) (Option Nat))
  | (a, i) =>
    if a < ancount ∧ i + 12 ≤ rlen then do
      let i ← skipOwner r rlen i
      if rlen < i + 10 then return .done none
      else
        let type ← word r i
        let rdlen ← word r (i + 8)
        let i := i + 10
        if type = 1 ∧ rdlen = 4 ∧ i + 4 ≤ rlen then
          let ip ← get32 r i
          return .done (some ip)
        else return .next (a + 1, i + rdlen)
    else some (.done none)

/-- What a datagram says (`net.c:642-677`): the address of the first A record that is found. -/
def readAnswer (qid : Nat) : Option (Option Nat) :=
  if 12 < rlen then do
    let id ← word r 0
    if id = qid then
      let ancount ← word r 6
      let i ← skipLabels r rlen 12
      loop (answerRound r rlen ancount) (ancount + 1) (0, i + 5)
    else return none
  else some none

end answer

/-- The receive thread stores a datagram in the empty mailbox. -/
def deposit (u : UdpSock) (d : List UInt8) (src : Nat) : UdpSock :=
  { u with data := d ++ u.data.drop d.length, srcIp := src, len := d.length }

/-- The polls of the waiting loop before its deadline (`net.c:637-679`). A poll finds a datagram
    that has arrived since the mailbox was emptied, or none. -/
def resolvePolls (qid : Nat) : List (Option (List UInt8 × Nat)) → Host → Option (Host × Option Nat)
  | [], s => some ({ s with udp := { s.udp with port := 0 } }, none)
  | none :: rest, s => resolvePolls qid rest s
  | some (d, src) :: rest, s => do
    let u := deposit s.udp d src
    match ← readAnswer u.data d.length qid with
    | some ip => return ({ s with udp := { u with port := 0, len := 0 } }, some ip)
    | none => resolvePolls qid rest { s with udp := { u with len := 0 } }

/-- `net_resolve` (`net.c:587-679`) with the clock at `ticks`; the address, or `none` for `false`. -/
def netResolve (s : Host) (caches : List (List ArpEntry)) (ticks : Nat) (name : List UInt8)
    (polls : List (Option (List UInt8 × Nat))) : Option (Host × Option Nat) :=
  match strToIp name with
  | some ip => some (s, some ip)
  | none =>
    if s.configured = false ∨ s.ourDns = 0 then some (s, none)
    else do
      let qid := ticks % 65536
      match ← queryLabels name with
      | none => return (s, none)
      | some labels =>
        let sport := s.eport
        let eport := (sport + 1) % 65536
        let s := { s with
          eport := if eport < 49152 then 49152 else eport
          udp := { s.udp with port := sport, len := 0 } }
        let s ← udpSend s caches s.ourDns sport 53 (dnsQuery qid labels)
        resolvePolls qid polls s

end ChocoOs.Net
