import ChocoOs.Net.Echo
import ChocoOs.Net.Ping

/-!
# The checksum law

A string with its checksum in place sums up to zero, and no longer does when a word of it is
replaced by one of another value modulo 65535. Every header and message that is sent has its
checksum in place.
-/

namespace ChocoOs.Net
open ProgLib

/-- The summing loop of `checksum16` (`net.c:73-82`), in 32-bit arithmetic. -/
def sum32 : Nat → List UInt8 → Nat
  | sum, a :: b :: rest => sum32 ((sum + (a.toNat * 256 + b.toNat)) % 2 ^ 32) rest
  | sum, [a] => (sum + a.toNat * 256) % 2 ^ 32
  | sum, [] => sum

/-- The string with its checksum at `k`. -/
def fillChecksum (data : List UInt8) (k : Nat) : List UInt8 :=
  data.take k ++ leBytes 2 (checksum16 data 0) ++ data.drop (k + 2)

/-- The word at an even place; the last byte of an odd string is a word of its own. -/
def wordAt (data : List UInt8) (j : Nat) : List UInt8 := (data.drop j).take 2

structure ChecksumLaw (data : List UInt8) (k : Nat) : Prop where
  /-- No partial sum exceeds 32 bits, so that the loop finds the sum itself. -/
  sum : (∀ n, wordSum (data.take n) < 2 ^ 32) ∧ sum32 0 data = wordSum data
  zero : checksum16 (fillChecksum data k) 0 = 0
  detects : ∀ j word, j % 2 = 0 → j < data.length →
    word.length = (wordAt (fillChecksum data k) j).length →
    ¬ wordSum word ≡ wordSum (wordAt (fillChecksum data k) j) [MOD 65535] →
    checksum16 ((fillChecksum data k).take j ++ word ++ (fillChecksum data k).drop (j + 2)) 0 ≠ 0

/-! ## Strings -/

theorem wordSum_le : ∀ data : List UInt8, wordSum data ≤ 65535 * ((data.length + 1) / 2)
  | [] => Nat.le_refl _
  | [a] => by
    have := a.toNat_lt
    rw [wordSum, List.length_singleton]
    omega
  | a :: b :: rest => by
    have := a.toNat_lt
    have := b.toNat_lt
    have := wordSum_le rest
    rw [wordSum, List.length_cons, List.length_cons]
    omega

theorem sum32_eq : ∀ (sum : Nat) (data : List UInt8), sum + wordSum data < 2 ^ 32 →
    sum32 sum data = sum + wordSum data
  | sum, [], _ => (Nat.add_zero sum).symm
  | sum, [a], h => by
    rw [wordSum] at h
    rw [sum32, wordSum, Nat.mod_eq_of_lt h]
  | sum, a :: b :: rest, h => by
    rw [wordSum] at h
    rw [← Nat.add_assoc] at h
    rw [sum32, wordSum, Nat.mod_eq_of_lt (Nat.lt_of_le_of_lt (Nat.le_add_right _ _) h),
      sum32_eq _ rest h, Nat.add_assoc]

theorem checksum16_eq_zero_iff (data : List UInt8) : checksum16 data 0 = 0 ↔ ChecksumOk data := by
  have hlt : onesSum (wordSum data) < 65536 := (foldCarry_spec (Nat.le_refl _)).1
  obtain ⟨v, hv⟩ : ∃ v, v = 65535 - onesSum (wordSum data) := ⟨_, rfl⟩
  have hsmall : v % 65536 = v := Nat.mod_eq_of_lt (by omega)
  rw [checksum16, Nat.zero_add, ChecksumOk, ← hv, htons16, hsmall]
  omega

/-- What sums up to `0xFFFF` is a multiple of it. -/
theorem checksumOk_mod {data : List UInt8} (h : ChecksumOk data) : wordSum data ≡ 0 [MOD 65535] := by
  obtain ⟨-, hmod, -⟩ := foldCarry_spec (Nat.le_refl (wordSum data))
  have hones : foldCarry (wordSum data) (wordSum data) = 65535 := h
  rw [hones] at hmod
  exact hmod.symm

/-- The sum of a string is the sum before a word, the word, and the sum behind it. -/
theorem wordSum_split {before word after : List UInt8} (hbefore : before.length % 2 = 0)
    (hword : word.length = 2 ∨ after = []) :
    wordSum (before ++ word ++ after) = wordSum before + wordSum word + wordSum after := by
  rw [List.append_assoc, wordSum_append hbefore]
  rcases hword with hword | rfl
  · rw [wordSum_append (by rw [hword]), Nat.add_assoc]
  · rw [List.append_nil, wordSum, Nat.add_zero]

theorem checksum_detects {data word : List UInt8} {j : Nat} (hok : ChecksumOk data) (hj : j % 2 = 0)
    (hlt : j < data.length) (hlen : word.length = (wordAt data j).length)
    (hne : ¬ wordSum word ≡ wordSum (wordAt data j) [MOD 65535]) :
    checksum16 (data.take j ++ word ++ data.drop (j + 2)) 0 ≠ 0 := by
  intro hzero
  apply hne
  have hbefore : (data.take j).length % 2 = 0 := by
    rw [List.length_take, Nat.min_eq_left (Nat.le_of_lt hlt)]
    exact hj
  have hlast : (wordAt data j).length = 2 ∨ data.drop (j + 2) = [] := by
    rw [wordAt, List.length_take, List.length_drop, List.drop_eq_nil_iff]
    omega
  have hdata : data = data.take j ++ wordAt data j ++ data.drop (j + 2) := by
    rw [wordAt, ← List.drop_drop, List.append_assoc, List.take_append_drop, List.take_append_drop]
  -- Both sums are multiples of 65535, and they differ by the two words.
  have hold := checksumOk_mod hok
  have hnew := checksumOk_mod ((checksum16_eq_zero_iff _).mp hzero)
  rw [hdata, wordSum_split hbefore hlast] at hold
  rw [wordSum_split hbefore (by rw [hlen]; exact hlast)] at hnew
  have hboth := hnew.trans hold.symm
  exact Nat.ModEq.add_left_cancel' _ (Nat.ModEq.add_right_cancel' _ hboth)

theorem checksumLaw (data : List UInt8) (k : Nat) (hmax : data.length ≤ 1600) (hk : k % 2 = 0)
    (hfit : k + 2 ≤ data.length) (hzero : (data.drop k).take 2 = [0, 0]) : ChecksumLaw data k := by
  have htake : (data.take k).length = k := by
    rw [List.length_take]
    omega
  have hdata : data = data.take k ++ [0, 0] ++ data.drop (k + 2) := by
    rw [← hzero, ← List.drop_drop, List.append_assoc, List.take_append_drop, List.take_append_drop]
  have hok : ChecksumOk (fillChecksum data k) := by
    have hfill := checksumOk_fill (b := data.drop (k + 2)) (show (data.take k).length % 2 = 0 by
      rw [htake]; exact hk)
    rw [← hdata] at hfill
    exact hfill
  have hlen : (fillChecksum data k).length = data.length := by
    rw [fillChecksum, List.length_append, List.length_append, htake, leBytes_length, List.length_drop]
    omega
  refine ⟨⟨fun n => ?_, ?_⟩, (checksum16_eq_zero_iff _).mpr hok, fun j word hj hlt => ?_⟩
  · have hle := wordSum_le (data.take n)
    rw [List.length_take] at hle
    omega
  · have hle := wordSum_le data
    rw [sum32_eq _ _ (by omega), Nat.zero_add]
  · exact checksum_detects hok hj (by rw [hlen]; exact hlt)

/-! ## What is sent -/

/-- The checksum of the IP header in a frame is right. -/
def HeaderVerifies (frame : List UInt8) : Prop :=
  shortAt frame 12 = ethIp → checksum16 ((frame.drop 14).take 20) 0 = 0

/-- The checksum of the ICMP message in a frame is right. -/
def MessageVerifies (frame : List UInt8) : Prop :=
  shortAt frame 12 = ethIp → byteAt frame 23 = ipProtoIcmp →
    checksum16 ((frame.drop 34).take (shortAt frame 16 - 20)) 0 = 0

/-- What is sent between two states. -/
def Sends (P : List UInt8 → Prop) (s t : Host) : Prop :=
  ∃ new, t.sent = s.sent ++ new ∧ ∀ frame ∈ new, P frame

theorem Sends.none {P : List UInt8 → Prop} {s t : Host} (h : t.sent = s.sent) : Sends P s t :=
  ⟨[], by rw [h, List.append_nil], fun _ h => absurd h List.not_mem_nil⟩

theorem Sends.one {P : List UInt8 → Prop} {s t : Host} {frame : List UInt8}
    (h : t.sent = s.sent ++ [frame]) (hframe : P frame) : Sends P s t :=
  ⟨[frame], h, fun frame' h => by rw [List.mem_singleton.mp h]; exact hframe⟩

section send

variable {P : List UInt8 → Prop} {s t : Host} {polls : List (List ArpEntry)} {dst : Nat}

/-- Resolving an address sends a request at most. -/
theorem resolveMac_sends {mac : Option (List UInt8)} (hs : s.ourMac.length = 6)
    (harp : ∀ frame, shortAt frame 12 = ethArp → P frame)
    (h : resolveMac s polls dst = some (t, mac)) : Sends P s t := by
  unfold resolveMac at h
  simp only at h
  split at h
  · cases h
    exact Sends.none rfl
  · split at h
    · cases h
      exact Sends.none rfl
    · rw [arpRequest_eq hs] at h
      simp only [Option.bind_eq_bind, Option.bind_some, Option.pure_def] at h
      have htype : P (ethFrame bcastMac s.ourMac ethArp
          (arpPkt 1 s.ourMac s.ourIp (List.replicate 6 0) (hopOf s dst))) :=
        harp _ (ethFrame_type (List.length_replicate ..) hs (by decide))
      split at h <;> cases h <;> exact Sends.one rfl htype

/-- `ip_send` sends requests for addresses, and one datagram with this payload. -/
theorem ipSend_sends (hs : s.Ok) (hpolls : ∀ cache ∈ polls, ∀ e ∈ cache, e.mac.length = 6)
    {proto : UInt8} {payload : List UInt8} (harp : ∀ frame, shortAt frame 12 = ethArp → P frame)
    (hip : ∀ mac id, mac.length = 6 → 34 + payload.length ≤ frameMax →
      P (ethFrame mac s.ourMac ethIp (ipPkt id proto s.ourIp dst payload)))
    (h : ipSend s polls dst proto payload = some t) : Sends P s t := by
  unfold ipSend at h
  obtain ⟨⟨u, mac⟩, hres, h⟩ := Option.bind_eq_some_iff.mp h
  obtain ⟨new, hsent, hnew⟩ := resolveMac_sends hs.mac harp hres
  obtain ⟨cache, new', rfl, -⟩ := resolveMac_same hs.mac hres
  cases mac with
  | none =>
    cases h
    exact ⟨new, hsent, hnew⟩
  | some mac =>
    have hmac := resolveMac_length hs hpolls hres
    by_cases hlen : 34 + payload.length ≤ frameMax
    · have hrun := @ipSend_resolved s { s with arpCache := cache, sent := s.sent ++ new' } polls dst
        proto payload mac hs.mac hmac hres hlen
      rw [ipSend, hres, Option.bind_eq_bind, Option.bind_some] at hrun
      rw [hrun] at h
      cases h
      refine ⟨new ++ [ethFrame mac s.ourMac ethIp (ipPkt s.ipId proto s.ourIp dst payload)], ?_,
        fun frame hframe => ?_⟩
      · rw [← List.append_assoc, ← hsent]
      · rcases List.mem_append.mp hframe with hframe | hframe
        · exact hnew frame hframe
        · rw [List.mem_singleton.mp hframe]
          exact hip mac s.ipId hmac hlen
    · -- A payload that is too long never gets this far.
      obtain ⟨pkt, hpkt, h⟩ := Option.bind_eq_some_iff.mp h
      by_cases hfit : 20 + payload.length ≤ frameMax
      · rw [store_append (ipHdr_length ..) hfit] at hpkt
        cases hpkt
        rw [ethSend_eq_none (by rw [List.length_append, ipHdr_length]; omega)] at h
        cases h
      · rw [store_eq_none (by omega)] at hpkt
        cases hpkt

end send

/-- An ARP frame has neither checksum. -/
theorem verifies_arp {frame : List UInt8} (h : shortAt frame 12 = ethArp) :
    HeaderVerifies frame ∧ MessageVerifies frame :=
  ⟨fun h' => absurd (h.symm.trans h') (by decide), fun h' => absurd (h.symm.trans h') (by decide)⟩

section frame

variable {mac src payload : List UInt8} {id srcIp dst : Nat} {proto : UInt8}

/-- What a frame carries behind its header. -/
theorem drop_ethFrame (hmac : mac.length = 6) (hsrc : src.length = 6) :
    (ethFrame mac src ethIp (ipPkt id proto srcIp dst payload)).drop 14 =
      ipHdr payload.length id proto (checksum16 (ipHdr payload.length id proto 0 srcIp dst) 0) srcIp
        dst ++ (payload ++ padding (ipPkt id proto srcIp dst payload).length) := by
  rw [ethFrame_drop hmac hsrc, ← List.append_assoc]
  rfl

theorem headerVerifies_ethFrame (hmac : mac.length = 6) (hsrc : src.length = 6) :
    HeaderVerifies (ethFrame mac src ethIp (ipPkt id proto srcIp dst payload)) := by
  intro _
  rw [drop_ethFrame hmac hsrc, List.take_left' (ipHdr_length ..), checksum16_eq_zero_iff]
  exact checksumOk_ipHdr payload.length id proto srcIp dst

theorem messageVerifies_ethFrame (hmac : mac.length = 6) (hsrc : src.length = 6)
    (hlen : 34 + payload.length ≤ frameMax) (hpay : ChecksumOk payload) :
    MessageVerifies (ethFrame mac src ethIp (ipPkt id proto srcIp dst payload)) := by
  intro _ _
  have hframe : frameMax = 1600 := rfl
  have htotal : shortAt (ethFrame mac src ethIp (ipPkt id proto srcIp dst payload)) 16 =
      20 + payload.length := by
    rw [← shortAt_drop _ 14 2, drop_ethFrame hmac hsrc]
    exact ipHdr_total (by omega)
  rw [htotal, Nat.add_sub_cancel_left, ← List.drop_drop (i := 20) (j := 14), drop_ethFrame hmac hsrc,
    List.drop_left' (ipHdr_length ..), List.take_left, checksum16_eq_zero_iff]
  exact hpay

end frame

/-- The reply to an echo request has its checksum in place. -/
theorem checksumOk_echoReply {pkt : List UInt8} (h : 4 ≤ pkt.length) : ChecksumOk (echoReply pkt) := by
  match pkt, h with
  | t :: code :: c1 :: c2 :: data, _ =>
    rw [echoReply_eq]
    exact checksumOk_fill (a := [0, code]) (Nat.mod_self 2)

theorem checksumOk_pingPkt (seq : Nat) : ChecksumOk (pingPkt seq) :=
  checksumOk_fill (a := [8, 0]) (Nat.mod_self 2)

theorem handleIcmp_sends {s t : Host} (hs : s.Ok) {rounds : Nat} {ip payload : List UInt8} {len : Int}
    (h : handleIcmp s rounds ip payload len = some t) :
    Sends (fun frame => HeaderVerifies frame ∧ MessageVerifies frame) s t := by
  unfold handleIcmp at h
  split at h
  · cases h
    exact Sends.none rfl
  · next hlong =>
    simp only [Option.bind_eq_bind] at h
    obtain ⟨type, -, h⟩ := Option.bind_eq_some_iff.mp h
    split at h
    · obtain ⟨data, hdata, h⟩ := Option.bind_eq_some_iff.mp h
      obtain ⟨pkt, hpkt, h⟩ := Option.bind_eq_some_iff.mp h
      obtain ⟨src, -, h⟩ := Option.bind_eq_some_iff.mp h
      have hlen : data.length = len.toNat := by
        rw [field] at hdata
        split at hdata
        · cases hdata
          rw [List.length_take, List.length_drop]
          omega
        · cases hdata
      have hsame : pkt = data := by
        rw [store] at hpkt
        split at hpkt
        · cases hpkt
          rw [List.take_nil, List.drop_nil, List.nil_append, List.append_nil]
        · cases hpkt
      refine ipSend_sends hs ?_ (fun frame => verifies_arp) (fun mac id hmac hfit => ?_) h
      · intro cache hcache
        rw [List.eq_of_mem_replicate hcache]
        exact hs.cacheMac
      · exact ⟨headerVerifies_ethFrame hmac hs.mac,
          messageVerifies_ethFrame hmac hs.mac hfit (checksumOk_echoReply (by rw [hsame]; omega))⟩
    · obtain ⟨id, -, h⟩ := Option.bind_eq_some_iff.mp h
      obtain ⟨seq, -, h⟩ := Option.bind_eq_some_iff.mp h
      split at h <;> cases h <;> exact Sends.none rfl

/-- The request of `net_ping` as it goes out. -/
theorem pingSend_sends {s t : Ping} (hs : s.host.Ok) {ip t0 : Nat} {seq : UInt16}
    (h : s.send ip seq t0 = some t) :
    Sends (fun frame => HeaderVerifies frame ∧ MessageVerifies frame) s.host t.host := by
  obtain ⟨host, hsend, rfl⟩ := Option.map_eq_some_iff.mp h
  refine ipSend_sends hs (fun _ h => absurd h List.not_mem_nil) (fun frame => verifies_arp)
    (fun mac id hmac hfit => ?_) hsend
  exact ⟨headerVerifies_ethFrame hmac hs.mac,
    messageVerifies_ethFrame hmac hs.mac hfit (checksumOk_pingPkt _)⟩

/-- The checksum law, and that the headers of `ip_send` and the messages of `handle_icmp` and
    `net_ping` verify. -/
theorem internet_checksum :
    (∀ (data : List UInt8) (k : Nat), 2 ≤ data.length → data.length ≤ 1600 → k % 2 = 0 →
      k + 2 ≤ data.length → (data.drop k).take 2 = [0, 0] → ChecksumLaw data k) ∧
    (∀ (s t : Host) (polls : List (List ArpEntry)) (dst : Nat) (proto : UInt8) (payload : List UInt8),
      s.Ok → (∀ cache ∈ polls, ∀ e ∈ cache, e.mac.length = 6) →
      ipSend s polls dst proto payload = some t → Sends HeaderVerifies s t) ∧
    (∀ (s t : Host) (rounds : Nat) (ip payload : List UInt8) (len : Int), s.Ok →
      handleIcmp s rounds ip payload len = some t →
      Sends (fun frame => HeaderVerifies frame ∧ MessageVerifies frame) s t) ∧
    (∀ (s t : Ping) (ip t0 : Nat) (seq : UInt16), s.host.Ok → s.send ip seq t0 = some t →
      Sends (fun frame => HeaderVerifies frame ∧ MessageVerifies frame) s.host t.host) := by
  refine ⟨fun data k _ hmax => checksumLaw data k hmax, ?_, ?_, ?_⟩
  · intro s t polls dst proto payload hs hpolls h
    exact ipSend_sends hs hpolls (fun frame h => (verifies_arp h).1)
      (fun mac id hmac _ => headerVerifies_ethFrame hmac hs.mac) h
  · exact fun s t rounds ip payload len hs h => handleIcmp_sends hs h
  · exact fun s t ip t0 seq hs h => pingSend_sends hs h

/-- A header of five bytes with its checksum at the beginning. -/
theorem internet_checksum_odd : ChecksumLaw [0, 0, 255, 255, 1] 0 :=
  internet_checksum.1 [0, 0, 255, 255, 1] 0 (by decide) (by decide) rfl (by decide) rfl

end ChocoOs.Net
