import ChocoOs.Lib.Transition
import ChocoOs.Net.Receive

/-!
# The mailbox between two threads

The receive thread runs `handle_udp`, another thread runs `net_resolve` and `net_dhcp`. A step is one
access to `udp_sock`, and the scheduler picks the thread that makes it. How often the mailbox was
bound to a port, and when a datagram began to be handled, is recorded beside the state.
-/

namespace ChocoOs.Net
open ProgLib

/-- A datagram that `handle_udp` is called with: what follows the header, and the length that the
    header states. -/
structure Dgram where
  dport : Nat
  ulen : Nat
  payload : List UInt8
  src : Nat
  deriving DecidableEq

/-- The bounds that `handle_udp` tests (`net.c:307-308`). -/
def Dgram.Fits (d : Dgram) : Prop :=
  8 < d.ulen ∧ d.ulen - 8 ≤ udpBufSize ∧ d.ulen - 8 ≤ d.payload.length

instance (d : Dgram) : Decidable d.Fits := inferInstanceAs (Decidable (_ ∧ _))

/-- The bytes that are stored. -/
def Dgram.bytes (d : Dgram) : List UInt8 := d.payload.take (d.ulen - 8)

/-- The next access of `handle_udp` (`net.c:305-313`). -/
inductive RxPc where
  | testPort
  | comparePort
  | testLen
  | copy (i : Nat)
  | setSrc
  | setLen
  deriving DecidableEq

/-- A datagram that is being handled; `began` counts the bindings before it. -/
structure Handling where
  pc : RxPc
  dgram : Dgram
  began : Nat
  deriving DecidableEq

/-- The two calls. -/
inductive Call where
  | dhcp
  | resolve
  deriving DecidableEq

/-- The next access of the client, with what it has read of a datagram. -/
inductive Client where
  | idle
  | clear (c : Call) (port : Nat)
  | bind (c : Call) (port : Nat)
  | poll (c : Call) (port : Nat)
  | load (c : Call) (port : Nat)
  | read (c : Call) (port : Nat) (n : Int) (seen : List (Nat × UInt8)) (src : Option Nat)
  | finish
  deriving DecidableEq

structure Mail where
  sock : UdpSock
  eport : Nat
  rx : Option Handling
  client : Client
  epoch : Nat
  begun : List (Dgram × Nat)

inductive MailEvent where
  | arrive (d : Dgram)
  | receive
  | call (c : Call)
  | advance
  | look
  | giveUp
  | readByte (i : Nat)
  | readSrc
  | drop
  | accept

/-- One access of `handle_udp`. -/
def Mail.receive (s : Mail) : Mail :=
  match s.rx with
  | none => s
  | some ⟨pc, d, began⟩ =>
    match pc with
    | .testPort => { s with rx := if s.sock.port ≠ 0 then some ⟨.comparePort, d, began⟩ else none }
    | .comparePort => { s with rx := if d.dport = s.sock.port then some ⟨.testLen, d, began⟩ else none }
    | .testLen => { s with rx := if s.sock.len = 0 ∧ d.Fits then some ⟨.copy 0, d, began⟩ else none }
    | .copy i =>
      match d.bytes[i]? with
      | some b =>
        { s with sock := { s.sock with data := s.sock.data.set i b }, rx := some ⟨.copy (i + 1), d, began⟩ }
      | none => { s with rx := some ⟨.setSrc, d, began⟩ }
    | .setSrc => { s with sock := { s.sock with srcIp := d.src }, rx := some ⟨.setLen, d, began⟩ }
    | .setLen => { s with sock := { s.sock with len := (d.ulen - 8 : Nat) }, rx := none }

/-- A call begins: `net_dhcp` takes port 68, `net_resolve` the next port of its own
    (`net.c:498-499`, `net.c:628-634`). -/
def Mail.call (s : Mail) : Call → Mail
  | .dhcp => { s with client := .clear .dhcp 68 }
  | .resolve => { s with
      eport := if (s.eport + 1) % 65536 < 49152 then 49152 else (s.eport + 1) % 65536
      client := .clear .resolve s.eport }

/-- One step of the system. An event that the state does not allow changes nothing. -/
def Mail.step (s : Mail) (e : MailEvent) : Mail :=
  match e, s.client with
  | .arrive d, _ =>
    if s.rx = none then
      { s with rx := some ⟨.testPort, d, s.epoch⟩, begun := s.begun ++ [(d, s.epoch)] }
    else s
  | .receive, _ => s.receive
  | .call c, .idle => s.call c
  | .advance, .clear c p => { s with sock := { s.sock with len := 0 }, client := .bind c p }
  | .advance, .bind c p =>
    { s with sock := { s.sock with port := p }, client := .poll c p, epoch := s.epoch + 1 }
  | .look, .poll c p => if 0 < s.sock.len then { s with client := .load c p } else s
  -- The deadline, or the end of `net_dhcp`.
  | .giveUp, .poll _ _ => { s with sock := { s.sock with port := 0 }, client := .idle }
  | .advance, .load c p => { s with client := .read c p s.sock.len [] none }
  | .readByte i, .read c p n seen src =>
    if (i : Int) < n then
      { s with client := .read c p n (seen ++ (s.sock.data[i]?.map (i, ·)).toList) src }
    else s
  | .readSrc, .read c p n seen _ => { s with client := .read c p n seen (some s.sock.srcIp) }
  | .drop, .read c p _ _ _ => { s with sock := { s.sock with len := 0 }, client := .poll c p }
  -- `net_resolve` closes the port before it empties the mailbox.
  | .accept, .read .resolve _ _ _ _ => { s with sock := { s.sock with port := 0 }, client := .finish }
  | .advance, .finish => { s with sock := { s.sock with len := 0 }, client := .idle }
  | _, _ => s

/-- Before the first call. -/
def Mail.start : Mail where
  sock := ⟨0, List.replicate udpBufSize 0, 0, 0⟩
  eport := 49152
  rx := none
  client := .idle
  epoch := 0
  begun := []

/-- What a client reads is one datagram for its port that began to be handled after the binding. -/
def Mail.Sound (s : Mail) : Prop :=
  match s.client with
  | .read _ p n seen src => ∃ d, (d, s.epoch) ∈ s.begun ∧ d.dport = p ∧ n = d.bytes.length ∧
      (∀ q ∈ seen, d.bytes[q.1]? = some q.2) ∧ ∀ v, src = some v → v = d.src
  | _ => True

/-- A datagram that is being handled before the binding to `p` will not be stored after it. -/
def Handling.Quiet (h : Handling) (p : Nat) : Prop :=
  match h.pc with
  | .testPort | .comparePort => ¬ (h.dgram.dport = p ∧ h.dgram.Fits)
  | .testLen => ¬ h.dgram.Fits
  | .copy _ | .setSrc | .setLen => False

instance (p : Nat) : ∀ h : Handling, Decidable (h.Quiet p)
  | ⟨.testPort, d, _⟩ | ⟨.comparePort, d, _⟩ => inferInstanceAs (Decidable (¬ (d.dport = p ∧ d.Fits)))
  | ⟨.testLen, d, _⟩ => inferInstanceAs (Decidable (¬ d.Fits))
  | ⟨.copy _, _, _⟩ | ⟨.setSrc, _, _⟩ | ⟨.setLen, _, _⟩ => inferInstanceAs (Decidable False)

/-- The mailbox is empty and stays so until the next datagram. -/
def BindOk (s : Mail) (p : Nat) : Prop := s.sock.len = 0 ∧ ∀ h ∈ s.rx, h.Quiet p

/-- The port that the next access binds. -/
def Client.binds : Client → Option Nat
  | .bind _ p => some p
  | _ => none

/-- The condition is about bindings only. -/
def MailOk (s : Mail) : MailEvent → Prop
  | .advance => ∀ p ∈ s.client.binds, BindOk s p
  | _ => True

instance (s : Mail) (p : Nat) : Decidable (BindOk s p) := inferInstanceAs (Decidable (_ ∧ _))

instance (s : Mail) : ∀ e : MailEvent, Decidable (MailOk s e)
  | .advance => inferInstanceAs (Decidable (∀ p ∈ s.client.binds, BindOk s p))
  | .arrive _ | .receive | .call _ | .look | .giveUp | .readByte _ | .readSrc | .drop | .accept =>
    .isTrue trivial

/-! ## Without a switch of threads -/

theorem Dgram.Fits.length {d : Dgram} (h : d.Fits) : d.bytes.length = d.ulen - 8 := by
  rw [Dgram.bytes, List.length_take, Nat.min_eq_left h.2.2]

/-- The datagram that `handle_udp` is called with. -/
def dgramOf (ip payload : List UInt8) (len : Int) : Dgram :=
  ⟨shortAt payload 2, shortAt payload 4, (payload.drop 8).take (len.toNat - 8), addrAt ip 12⟩

/-- The bytes of a datagram are copied one after another. -/
theorem receive_copy {d : Dgram} (began : Nat) {before : List UInt8}
    (hfit : d.bytes.length ≤ before.length) (n : Nat) : ∀ {i : Nat} {s : Mail}, i + n = d.bytes.length →
    s.sock.data = d.bytes.take i ++ before.drop i → s.rx = some ⟨.copy i, d, began⟩ →
    Mail.receive^[n] s = { s with
      sock := { s.sock with data := d.bytes ++ before.drop d.bytes.length }
      rx := some ⟨.copy d.bytes.length, d, began⟩ } := by
  induction n with
  | zero =>
    intro i s hi hdata hrx
    obtain rfl : i = d.bytes.length := hi
    rw [List.take_length] at hdata
    rw [Function.iterate_zero_apply, ← hdata, ← hrx]
  | succ n ih =>
    intro i s hi hdata hrx
    have hlt : i < d.bytes.length := by omega
    have hb : d.bytes[i]? = some d.bytes[i] := List.getElem?_eq_getElem hlt
    have hstep : s.receive = { s with
        sock := { s.sock with data := d.bytes.take (i + 1) ++ before.drop (i + 1) }
        rx := some ⟨.copy (i + 1), d, began⟩ } := by
      have hset : s.sock.data.set i d.bytes[i] = d.bytes.take (i + 1) ++ before.drop (i + 1) := by
        rw [hdata, List.set_append_right _ _ (by rw [List.length_take]; omega), List.length_take,
          Nat.min_eq_left (by omega), Nat.sub_self, List.drop_eq_getElem_cons (by omega), List.set_cons_zero,
          List.take_add_one, hb, List.append_assoc]
        rfl
      unfold Mail.receive
      rw [hrx]
      simp only [hb, hset]
    rw [Function.iterate_succ_apply, hstep]
    exact ih (by omega) rfl rfl

/-- The mailbox takes this datagram. -/
def Accepts (u : UdpSock) (d : Dgram) : Prop :=
  u.port ≠ 0 ∧ d.dport = u.port ∧ u.len = 0 ∧ d.Fits

instance (u : UdpSock) (d : Dgram) : Decidable (Accepts u d) := inferInstanceAs (Decidable (_ ∧ _))

/-- What `handle_udp` leaves in the mailbox. -/
def offered (u : UdpSock) (d : Dgram) : UdpSock :=
  if Accepts u d then
    { u with data := d.bytes ++ u.data.drop d.bytes.length, srcIp := d.src, len := (d.ulen - 8 : Nat) }
  else u

theorem receive_refuse {d : Dgram} {began : Nat} {s : Mail} (hrx : s.rx = some ⟨.testPort, d, began⟩)
    (hno : ¬ Accepts s.sock d) :
    ∃ n, (Mail.receive^[n] s).rx = none ∧ (Mail.receive^[n] s).sock = s.sock := by
  have h1 : s.receive = { s with
      rx := if s.sock.port ≠ 0 then some ⟨.comparePort, d, began⟩ else none } := by
    unfold Mail.receive
    rw [hrx]
  by_cases hport : s.sock.port ≠ 0
  · rw [if_pos hport] at h1
    have h2 : s.receive.receive = { s with
        rx := if d.dport = s.sock.port then some ⟨.testLen, d, began⟩ else none } := by
      rw [h1]
      rfl
    by_cases hdport : d.dport = s.sock.port
    · rw [if_pos hdport] at h2
      have h3 : s.receive.receive.receive = { s with rx := none } := by
        rw [h2, Mail.receive]
        exact congrArg (fun r => { s with rx := r }) (if_neg fun h => hno ⟨hport, hdport, h⟩)
      exact ⟨3, (congrArg Mail.rx h3 :), (congrArg Mail.sock h3 :)⟩
    · rw [if_neg hdport] at h2
      exact ⟨2, (congrArg Mail.rx h2 :), (congrArg Mail.sock h2 :)⟩
  · rw [if_neg hport] at h1
    exact ⟨1, (congrArg Mail.rx h1 :), (congrArg Mail.sock h1 :)⟩

theorem receive_accept {d : Dgram} {began : Nat} {s : Mail} (hrx : s.rx = some ⟨.testPort, d, began⟩)
    (hdata : s.sock.data.length = udpBufSize) (hok : Accepts s.sock d) :
    ∃ n, (Mail.receive^[n] s).rx = none ∧ (Mail.receive^[n] s).sock = { s.sock with
      data := d.bytes ++ s.sock.data.drop d.bytes.length, srcIp := d.src, len := (d.ulen - 8 : Nat) } := by
  obtain ⟨hport, hdport, hempty, hfits⟩ := hok
  have h1 : s.receive = { s with rx := some ⟨.comparePort, d, began⟩ } := by
    unfold Mail.receive
    rw [hrx]
    exact congrArg (fun r => { s with rx := r }) (if_pos hport)
  have h2 : s.receive.receive = { s with rx := some ⟨.testLen, d, began⟩ } := by
    rw [h1, Mail.receive]
    exact congrArg (fun r => { s with rx := r }) (if_pos hdport)
  have h3 : s.receive.receive.receive = { s with rx := some ⟨.copy 0, d, began⟩ } := by
    rw [h2, Mail.receive]
    exact congrArg (fun r => { s with rx := r }) (if_pos (And.intro hempty hfits))
  have hcopy := receive_copy (d := d) began
    (show d.bytes.length ≤ s.sock.data.length by rw [hfits.length, hdata]; exact hfits.2.1) d.bytes.length
    (s := { s with rx := some ⟨.copy 0, d, began⟩ }) (Nat.zero_add _) rfl rfl
  refine ⟨3 + d.bytes.length + 3, ?_⟩
  have hrun : Mail.receive^[3 + d.bytes.length + 3] s = { s with
      sock := { s.sock with
        data := d.bytes ++ s.sock.data.drop d.bytes.length, srcIp := d.src, len := (d.ulen - 8 : Nat) }
      rx := none } := by
    have hswap : 3 + d.bytes.length + 3 = 3 + (d.bytes.length + 3) := Nat.add_assoc ..
    rw [hswap, Nat.add_comm 3, Function.iterate_add_apply]
    show Mail.receive^[d.bytes.length + 3] s.receive.receive.receive = _
    rw [h3, Nat.add_comm, Function.iterate_add_apply, hcopy]
    have hnone : d.bytes[d.bytes.length]? = none := List.getElem?_eq_none (Nat.le_refl _)
    show Mail.receive (Mail.receive (Mail.receive _)) = _
    have h4 : Mail.receive { s with
        sock := { s.sock with data := d.bytes ++ s.sock.data.drop d.bytes.length }
        rx := some ⟨.copy d.bytes.length, d, began⟩ } = { s with
        sock := { s.sock with data := d.bytes ++ s.sock.data.drop d.bytes.length }
        rx := some ⟨.setSrc, d, began⟩ } := by
      unfold Mail.receive
      simp only [hnone]
    rw [h4]
    rfl
  rw [hrun]
  exact ⟨rfl, rfl⟩

/-- `handle_udp` as a whole. -/
theorem handleUdp_eq {h : Host} {ip payload : List UInt8}
    {len : Nat} (hip : 16 ≤ ip.length) (hlen : 8 ≤ len) (hpayload : len ≤ payload.length) :
    handleUdp h ip payload len = some { h with udp := offered h.udp (dgramOf ip payload len) } := by
  obtain ⟨d, hd⟩ : ∃ d, d = dgramOf ip payload len := ⟨_, rfl⟩
  have hdport : d.dport = shortAt payload 2 := by rw [hd]; rfl
  have hulen : d.ulen = shortAt payload 4 := by rw [hd]; rfl
  have hrest : d.payload = (payload.drop 8).take (len - 8) := by rw [hd]; rfl
  have hrestLen : d.payload.length = len - 8 := by
    rw [hrest, List.length_take, List.length_drop]
    omega
  rw [← hd, offered, handleUdp, if_neg (by omega), get16_eq (by omega)]
  simp only [Option.bind_eq_bind, Option.bind_some, htons16_leNat, ← hdport]
  by_cases hmatch : h.udp.port ≠ 0 ∧ d.dport = h.udp.port ∧ h.udp.len = 0
  · have hfits : (0 < (d.ulen : Int) - 8 ∧ (d.ulen : Int) - 8 ≤ udpBufSize ∧
        (d.ulen : Int) - 8 ≤ len - 8) ↔ d.Fits := by
      unfold Dgram.Fits
      omega
    rw [if_pos hmatch, get16_eq (by omega)]
    simp only [Option.bind_some, htons16_leNat, ← hulen]
    by_cases hfit : d.Fits
    · have hn : ((d.ulen : Int) - 8).toNat = d.ulen - 8 := by omega
      obtain ⟨hpos, hbuf, hall⟩ := hfit
      have hbytes : field payload 8 (d.ulen - 8) = some d.bytes := by
        rw [field_eq (by omega), Dgram.bytes, hrest, List.take_take, Nat.min_eq_left (by omega)]
      have hblen := Dgram.Fits.length ⟨hpos, hbuf, hall⟩
      rw [if_pos (hfits.mpr ⟨hpos, hbuf, hall⟩), if_pos ⟨hmatch.1, hmatch.2.1, hmatch.2.2, hpos, hbuf, hall⟩,
        hn, hbytes, Option.bind_some, store, if_pos (by omega), Option.bind_some, get32_eq (by omega)]
      simp only [List.take_zero, List.nil_append, Nat.zero_add, Option.bind_some, Option.pure_def]
      have hcast : (d.ulen : Int) - 8 = (d.ulen - 8 : Nat) := by omega
      have hsrc : addrAt ip 12 = d.src := by rw [hd]; rfl
      rw [hcast, hsrc]
    · rw [if_neg fun hc => hfit (hfits.mp hc), if_neg fun hc => hfit hc.2.2.2]
      rfl
  · rw [if_neg hmatch, if_neg fun hc => hmatch ⟨hc.1, hc.2.1, hc.2.2.1⟩]
    rfl

/-- A receive thread that is not interrupted does what `handle_udp` does. -/
theorem handleUdp_eq_receive {h : Host} (hh : h.udp.data.length = udpBufSize) {ip payload : List UInt8}
    {len : Nat} (hip : 16 ≤ ip.length) (hlen : 8 ≤ len) (hpayload : len ≤ payload.length) {s : Mail}
    {began : Nat} (hs : s.sock = h.udp) (hrx : s.rx = some ⟨.testPort, dgramOf ip payload len, began⟩) :
    ∃ n, (Mail.receive^[n] s).rx = none ∧
      handleUdp h ip payload len = some { h with udp := (Mail.receive^[n] s).sock } := by
  rw [handleUdp_eq hip hlen hpayload, offered, ← hs]
  by_cases hok : Accepts s.sock (dgramOf ip payload len)
  · obtain ⟨n, hidle, hsock⟩ := receive_accept hrx (by rw [hs]; exact hh) hok
    exact ⟨n, hidle, by rw [if_pos hok, hsock]⟩
  · obtain ⟨n, hidle, hsock⟩ := receive_refuse hrx hok
    exact ⟨n, hidle, by rw [if_neg hok, hsock]⟩

/-! ## The invariant -/

/-- The port that a client waits or reads at. -/
def Client.listens : Client → Option Nat
  | .poll _ p | .load _ p | .read _ p _ _ _ => some p
  | _ => none

/-- The mailbox holds this datagram. -/
structure Holds (u : UdpSock) (d : Dgram) : Prop where
  len : u.len = d.bytes.length
  data : u.data.take d.bytes.length = d.bytes
  src : u.srcIp = d.src

/-- How far a datagram has been copied into the empty mailbox. -/
def Handling.Progress (h : Handling) (u : UdpSock) : Prop :=
  match h.pc with
  | .testPort | .comparePort | .testLen => True
  | .copy i => u.len = 0 ∧ h.dgram.Fits ∧ u.data.take i = h.dgram.bytes.take i
  | .setSrc => u.len = 0 ∧ h.dgram.Fits ∧ u.data.take h.dgram.bytes.length = h.dgram.bytes
  | .setLen => u.len = 0 ∧ h.dgram.Fits ∧ u.data.take h.dgram.bytes.length = h.dgram.bytes ∧
      u.srcIp = h.dgram.src

/-- What is stored while a client listens at `p` is for `p` and began after the binding. -/
def Handling.Fresh (h : Handling) (p epoch : Nat) : Prop :=
  match h.pc with
  | .testPort | .comparePort => h.dgram.dport = p → h.dgram.Fits → h.began = epoch
  | .testLen => h.dgram.Fits → h.dgram.dport = p ∧ h.began = epoch
  | .copy _ | .setSrc | .setLen => h.dgram.dport = p ∧ h.began = epoch

/-- A client reads from a full mailbox, which stays as it is. -/
def Client.Sees (c : Client) (u : UdpSock) : Prop :=
  match c with
  | .load _ _ => u.len ≠ 0
  | .read _ _ n seen src => u.len ≠ 0 ∧ n = u.len ∧
      (∀ q ∈ seen, (q.1 : Int) < n ∧ u.data[q.1]? = some q.2) ∧ ∀ v, src = some v → v = u.srcIp
  | _ => True

structure MailInv (s : Mail) : Prop where
  room : s.sock.data.length = udpBufSize
  full : s.sock.len ≠ 0 → ∃ d began, (d, began) ∈ s.begun ∧ Holds s.sock d ∧
    ∀ p, s.client.listens = some p → d.dport = p ∧ began = s.epoch
  begun : ∀ h, s.rx = some h → (h.dgram, h.began) ∈ s.begun
  progress : ∀ h, s.rx = some h → h.Progress s.sock
  port : ∀ p, s.client.listens = some p → s.sock.port = p
  fresh : ∀ p, s.client.listens = some p → ∀ h, s.rx = some h → h.Fresh p s.epoch
  sees : s.client.Sees s.sock

theorem mailInv_start : MailInv Mail.start where
  room := List.length_replicate ..
  full := fun h => absurd rfl h
  begun := nofun
  progress := nofun
  port := nofun
  fresh := nofun
  sees := trivial

theorem Client.Sees.of_empty {c : Client} {u : UdpSock} (h : c.Sees u) (hlen : u.len = 0)
    (v : UdpSock) : c.Sees v := by
  cases c with
  | load => exact absurd hlen h
  | read => exact absurd hlen h.1
  | _ => exact trivial

theorem Handling.Progress.empty {h : Handling} {u : UdpSock} (hu : h.Progress u) :
    h.Progress { u with len := 0 } := by
  obtain ⟨pc, d, began⟩ := h
  cases pc with
  | copy i => exact ⟨rfl, hu.2⟩
  | setSrc => exact ⟨rfl, hu.2⟩
  | setLen => exact ⟨rfl, hu.2⟩
  | _ => exact trivial

/-- One more byte is in place. -/
theorem take_set {data bytes : List UInt8} {i : Nat} {b : UInt8} (hi : i < data.length)
    (h : data.take i = bytes.take i) (hb : bytes[i]? = some b) :
    (data.set i b).take (i + 1) = bytes.take (i + 1) := by
  rw [List.take_add_one, List.take_add_one, List.take_set_of_le (Nat.le_refl i), h,
    List.getElem?_set_self hi, hb]

section receive

variable {s : Mail} {d : Dgram} {began : Nat}

/-- A step that only moves the receive thread. -/
theorem MailInv.move (hs : MailInv s) {r : Option Handling}
    (hr : ∀ h, r = some h → (h.dgram, h.began) ∈ s.begun ∧ h.Progress s.sock ∧
      ∀ p, s.client.listens = some p → h.Fresh p s.epoch) : MailInv { s with rx := r } :=
  { hs with
    begun := fun h hh => (hr h hh).1
    progress := fun h hh => (hr h hh).2.1
    fresh := fun p hp h hh => (hr h hh).2.2 p hp }

/-- A step that writes to the empty mailbox. -/
theorem MailInv.write (hs : MailInv s) {u : UdpSock} {r : Option Handling}
    (hempty : s.sock.len = 0) (hport : u.port = s.sock.port) (hroom : u.data.length = udpBufSize)
    (hfull : u.len ≠ 0 → ∃ d began, (d, began) ∈ s.begun ∧ Holds u d ∧
      ∀ p, s.client.listens = some p → d.dport = p ∧ began = s.epoch)
    (hr : ∀ h, r = some h → (h.dgram, h.began) ∈ s.begun ∧ h.Progress u ∧
      ∀ p, s.client.listens = some p → h.Fresh p s.epoch) : MailInv { s with sock := u, rx := r } where
  room := hroom
  full := hfull
  begun := fun h hh => (hr h hh).1
  progress := fun h hh => (hr h hh).2.1
  port := fun p hp => hport.trans (hs.port p hp)
  fresh := fun p hp h hh => (hr h hh).2.2 p hp
  sees := hs.sees.of_empty hempty u

theorem MailInv.receive (hs : MailInv s) : MailInv s.receive := by
  unfold Mail.receive
  split
  · exact hs
  · next pc d began hrx =>
    have hbegun := hs.begun _ hrx
    have hprog := hs.progress _ hrx
    have hfresh : ∀ p, s.client.listens = some p → Handling.Fresh ⟨pc, d, began⟩ p s.epoch :=
      fun p hp => hs.fresh p hp _ hrx
    cases pc with
    | testPort =>
      refine hs.move fun h hh => ?_
      split at hh
      · cases hh
        exact ⟨hbegun, trivial, hfresh⟩
      · cases hh
    | comparePort =>
      refine hs.move fun h hh => ?_
      split at hh
      · next heq =>
        cases hh
        refine ⟨hbegun, trivial, fun p hp hfits => ?_⟩
        have hdp : d.dport = p := heq.trans (hs.port p hp)
        exact ⟨hdp, hfresh p hp hdp hfits⟩
      · cases hh
    | testLen =>
      refine hs.move fun h hh => ?_
      split at hh
      · next hok =>
        cases hh
        exact ⟨hbegun, ⟨hok.1, hok.2, rfl⟩, fun p hp => hfresh p hp hok.2⟩
      · cases hh
    | copy i =>
      obtain ⟨hempty, hfits, htake⟩ :
        s.sock.len = 0 ∧ d.Fits ∧ s.sock.data.take i = d.bytes.take i := hprog
      dsimp only
      split
      · next b hb =>
        have hi : i < s.sock.data.length := by
          have hlt := (List.getElem?_eq_some_iff.mp hb).1
          rw [hfits.length] at hlt
          rw [hs.room]
          exact Nat.lt_of_lt_of_le hlt hfits.2.1
        refine hs.write hempty rfl (by rw [List.length_set]; exact hs.room)
          (fun h => absurd hempty h) fun h hh => ?_
        cases hh
        exact ⟨hbegun, ⟨hempty, hfits, take_set hi htake hb⟩, hfresh⟩
      · next hnone =>
        have hend : d.bytes.length ≤ i := List.getElem?_eq_none_iff.mp hnone
        have hall : s.sock.data.take d.bytes.length = d.bytes := by
          have := congrArg (List.take d.bytes.length) htake
          rw [List.take_take, List.take_take, Nat.min_eq_left hend, List.take_length] at this
          exact this
        refine hs.move fun h hh => ?_
        cases hh
        exact ⟨hbegun, ⟨hempty, hfits, hall⟩, hfresh⟩
    | setSrc =>
      obtain ⟨hempty, hfits, hall⟩ :
        s.sock.len = 0 ∧ d.Fits ∧ s.sock.data.take d.bytes.length = d.bytes := hprog
      refine hs.write hempty rfl hs.room (fun h => absurd hempty h) fun h hh => ?_
      cases hh
      exact ⟨hbegun, ⟨hempty, hfits, hall, rfl⟩, hfresh⟩
    | setLen =>
      obtain ⟨hempty, hfits, hall, hsrc⟩ : s.sock.len = 0 ∧ d.Fits ∧
        s.sock.data.take d.bytes.length = d.bytes ∧ s.sock.srcIp = d.src := hprog
      refine hs.write hempty rfl hs.room (fun _ => ?_) nofun
      exact ⟨d, began, hbegun, ⟨congrArg _ hfits.length.symm, hall, hsrc⟩, hfresh⟩

end receive

section client

variable {s : Mail}

theorem MailInv.arrive (hs : MailInv s) (d : Dgram) :
    MailInv { s with rx := some ⟨.testPort, d, s.epoch⟩, begun := s.begun ++ [(d, s.epoch)] } where
  room := hs.room
  full := fun h => by
    obtain ⟨d', began, hmem, hd'⟩ := hs.full h
    exact ⟨d', began, List.mem_append_left _ hmem, hd'⟩
  begun := fun h hh => by
    cases hh
    exact List.mem_append_right _ (List.mem_singleton.mpr rfl)
  progress := fun h hh => by
    cases hh
    trivial
  port := hs.port
  fresh := fun p hp h hh => by
    cases hh
    exact fun _ _ => rfl
  sees := hs.sees

/-- A client that stops listening may write the port and empty the mailbox. -/
theorem MailInv.deaf (hs : MailInv s) {c : Client} (hc : c.listens = none) (port eport : Nat) :
    MailInv { s with sock := { s.sock with port := port }, eport := eport, client := c } where
  room := hs.room
  full := fun h => by
    obtain ⟨d, began, hmem, hd, -⟩ := hs.full h
    refine ⟨d, began, hmem, ⟨hd.len, hd.data, hd.src⟩, fun p hp => ?_⟩
    rw [hc] at hp
    cases hp
  begun := hs.begun
  progress := hs.progress
  port := fun p hp => by
    rw [hc] at hp
    cases hp
  fresh := fun p hp => by
    rw [hc] at hp
    cases hp
  sees := by
    cases c <;> trivial

/-- A client empties the mailbox, and listens no more than before. -/
theorem MailInv.empty (hs : MailInv s) {c : Client} (hc : ∀ p, c.listens = some p →
    s.client.listens = some p) (hsees : ∀ u, c.Sees u) :
    MailInv { s with sock := { s.sock with len := 0 }, client := c } where
  room := hs.room
  full := fun h => absurd rfl h
  begun := hs.begun
  progress := fun h hh => (hs.progress h hh).empty
  port := fun p hp => hs.port p (hc p hp)
  fresh := fun p hp => hs.fresh p (hc p hp)
  sees := hsees _

/-- A binding that meets the condition. -/
theorem MailInv.bind (hs : MailInv s) {c : Call} {p : Nat} (hok : BindOk s p) :
    MailInv { s with
      sock := { s.sock with port := p }, client := .poll c p, epoch := s.epoch + 1 } where
  room := hs.room
  full := fun h => absurd hok.1 h
  begun := hs.begun
  progress := hs.progress
  port := fun q hq => Option.some.inj hq
  fresh := fun q hq h hh => by
    cases hq
    have hold := hok.2 h hh
    obtain ⟨pc, d, began⟩ := h
    cases pc with
    | testPort => exact fun hdp hfits => absurd ⟨hdp, hfits⟩ hold
    | comparePort => exact fun hdp hfits => absurd ⟨hdp, hfits⟩ hold
    | testLen => exact fun hfits => absurd hfits hold
    | _ => exact hold.elim
  sees := trivial

/-- A client that listens on reads the mailbox. -/
theorem MailInv.look (hs : MailInv s) {c : Client} (hc : c.listens = s.client.listens)
    (hsees : c.Sees s.sock) : MailInv { s with client := c } where
  room := hs.room
  full := fun h => by
    obtain ⟨d, began, hmem, hd, hp⟩ := hs.full h
    exact ⟨d, began, hmem, hd, fun p h => hp p (hc ▸ h)⟩
  begun := hs.begun
  progress := hs.progress
  port := fun p hp => hs.port p (hc ▸ hp)
  fresh := fun p hp => hs.fresh p (hc ▸ hp)
  sees := hsees

end client

/-- Every step that meets the condition keeps the invariant. -/
theorem MailInv.step {s : Mail} (hs : MailInv s) (e : MailEvent) (hok : MailOk s e) :
    MailInv (s.step e) := by
  unfold Mail.step
  have hsees := hs.sees
  split
  · split
    · exact hs.arrive _
    · exact hs
  · exact hs.receive
  · next c _ =>
    cases c <;> exact hs.deaf rfl s.sock.port _
  · exact hs.empty nofun fun _ => trivial
  · next c p hclient =>
    exact hs.bind (hok p (by rw [hclient]; rfl))
  · next c p hclient =>
    split
    · next hpos => exact hs.look (by rw [hclient]; rfl) (by show s.sock.len ≠ 0; omega)
    · exact hs
  · exact hs.deaf rfl 0 s.eport
  · next c p hclient =>
    rw [hclient] at hsees
    exact hs.look (by rw [hclient]; rfl) ⟨hsees, rfl, nofun, nofun⟩
  · next i c p n seen src hclient =>
    rw [hclient] at hsees
    obtain ⟨hfull, hn, hseen, hsrc⟩ := hsees
    split
    · next hi =>
      refine hs.look (by rw [hclient]; rfl) ⟨hfull, hn, fun q hq => ?_, hsrc⟩
      rcases List.mem_append.mp hq with hq | hq
      · exact hseen q hq
      · obtain ⟨b, hb, rfl⟩ := Option.map_eq_some_iff.mp (Option.mem_toList.mp hq)
        exact ⟨hi, hb⟩
    · exact hs
  · next c p n seen src hclient =>
    rw [hclient] at hsees
    exact hs.look (by rw [hclient]; rfl) ⟨hsees.1, hsees.2.1, hsees.2.2.1, fun v hv => by cases hv; rfl⟩
  · next c p n seen src hclient =>
    exact hs.empty (fun q hq => by rw [hclient]; exact hq) fun _ => trivial
  · exact hs.deaf rfl 0 s.eport
  · exact hs.empty nofun fun _ => trivial
  · exact hs

/-- What a client reads of a full mailbox is what the invariant says of it. -/
theorem MailInv.sound {s : Mail} (hs : MailInv s) : s.Sound := by
  unfold Mail.Sound
  split
  · next c p n seen src hclient =>
    have hsees := hs.sees
    rw [hclient] at hsees
    obtain ⟨hfull, hn, hseen, hsrc⟩ := hsees
    obtain ⟨d, began, hmem, hd, hport⟩ := hs.full hfull
    obtain ⟨hdp, rfl⟩ := hport p (by rw [hclient]; rfl)
    refine ⟨d, hmem, hdp, hn.trans hd.len, fun q hq => ?_, fun v hv => (hsrc v hv).trans hd.src⟩
    obtain ⟨hlt, hb⟩ := hseen q hq
    rw [hn, hd.len] at hlt
    rw [← hd.data, List.getElem?_take_of_lt (by omega)]
    exact hb
  · trivial

/-- In every run whose bindings all meet the condition the client reads single datagrams that are
    meant for it. -/
theorem mailbox_sound (es : List MailEvent) (h : Admitted Mail.step MailOk Mail.start es) :
    Always Mail.step Mail.Sound Mail.start es :=
  always_of_admitted (fun _ e hs hok => hs.step e hok) (fun _ hs => hs.sound) mailInv_start h

/-- One byte for this port. -/
def sampleDgram (port : Nat) : Dgram := ⟨port, 9, [7], 0⟩

/-- A call binds the mailbox. -/
def sampleOpen : List MailEvent := [.call .resolve, .advance, .advance]

/-- A datagram that arrives while the client waits is read. -/
theorem mailbox_sound_single : Always Mail.step Mail.Sound Mail.start (sampleOpen ++
    .arrive (sampleDgram 49152) :: (List.replicate 7 .receive ++ [.look, .advance, .readByte 0])) :=
  mailbox_sound _ (by decide)

/-- The receive thread is suspended behind its tests, the call gives up, the next one binds its port,
    and the copy goes on. -/
def staleRun : List MailEvent :=
  sampleOpen ++ .arrive (sampleDgram 49152) :: (List.replicate 3 .receive ++ .giveUp :: sampleOpen ++
    List.replicate 4 .receive ++ [.look, .advance, .readByte 0])

/-- The second call reads the datagram of the first. -/
theorem mailbox_reads_stale : ¬ Always Mail.step Mail.Sound Mail.start staleRun := by
  intro h
  have hlast := h.last
  have hclient : (staleRun.foldl Mail.step Mail.start).client = .read .resolve 49153 1 [(0, 7)] none := rfl
  unfold Mail.Sound at hlast
  rw [hclient] at hlast
  obtain ⟨d, hmem, -⟩ := hlast
  have hbegun : (staleRun.foldl Mail.step Mail.start).begun = [(sampleDgram 49152, 1)] := rfl
  have hepoch : (staleRun.foldl Mail.step Mail.start).epoch = 2 := rfl
  rw [hbegun, hepoch, List.mem_singleton, Prod.mk.injEq] at hmem
  exact absurd hmem.2 (by decide)

end ChocoOs.Net
