import ChocoOs.Net.DhcpOptions
import Mathlib.Data.Finset.Card

/-!
# What `net_dhcp` accepts

Datagrams with well-formed options, and what a call makes of those it finds in the mailbox.
`dhcp_wait` cuts the options of a reply off at 312 bytes, and `dhcp_parse_opts` may read an address
beyond them.
-/

namespace ChocoOs.Net
open ProgLib

/-- A datagram that is stored in the mailbox: the fixed header, options, and an end option with
    whatever follows it, or nothing. -/
structure DhcpMsg where
  fixed : List UInt8
  opts : List DhcpOpt
  rest : List UInt8

def DhcpMsg.bytes (m : DhcpMsg) : List UInt8 := m.fixed ++ (optBytes m.opts ++ m.rest)

/-- A datagram may be too short for the header; otherwise its options are well formed. -/
structure DhcpMsg.Ok (m : DhcpMsg) : Prop where
  fixed : m.fixed.length = dhcpPktSize ∨ m.fixed.length < dhcpPktSize ∧ m.opts = [] ∧ m.rest = []
  opts : ∀ it ∈ m.opts, it.Ok
  rest : m.rest = [] ∨ m.rest.head? = some 255
  size : m.bytes.length ≤ udpBufSize

/-- A reply to the transaction `xid` with this message type. -/
def DhcpMsg.Accepts (m : DhcpMsg) (xid : Nat) (type : UInt8) : Prop :=
  m.fixed.length = dhcpPktSize ∧ byteAt m.fixed 0 = 2 ∧ addrAt m.fixed 4 = xid ∧
    lastType 0 m.opts = type

instance DhcpMsg.decidableAccepts (m : DhcpMsg) (xid : Nat) (type : UInt8) :
    Decidable (m.Accepts xid type) :=
  inferInstanceAs (Decidable (_ ∧ _))

/-- The first such reply among the datagrams that polls find. -/
def firstAccepted (xid : Nat) (type : UInt8) : List (Option (DhcpMsg × Nat)) → Option DhcpMsg
  | [] => none
  | none :: rest => firstAccepted xid type rest
  | some (m, _) :: rest => if m.Accepts xid type then some m else firstAccepted xid type rest

/-- The polls as `dhcp_wait` sees them. -/
def arrivals (polls : List (Option (DhcpMsg × Nat))) : List (Option (List UInt8 × Nat)) :=
  polls.map (Option.map fun p => (p.1.bytes, p.2))

/-- An option that `dhcp_parse_opts` takes an address from. -/
def SetsAddr (code : UInt8) (value : List UInt8) : Prop :=
  (code = 1 ∨ code = 3 ∨ code = 6) ∧ 4 ≤ value.length

/-- An option of `m` holds this address. -/
def DhcpMsg.Gives (m : DhcpMsg) (code : UInt8) (addr : Nat) : Prop :=
  ∃ value, .opt code value ∈ m.opts ∧ 4 ≤ value.length ∧ addr = leNat (value.take 4)

/-- An address option begins before the place where the options are cut off, and its address ends
    behind it. -/
def DhcpMsg.Straddles (m : DhcpMsg) : Prop :=
  ∃ before code value after, m.opts = before ++ .opt code value :: after ∧ SetsAddr code value ∧
    (optBytes before).length + 1 < optsSize ∧ optsSize < (optBytes before).length + 6

/-- What a call of `net_dhcp` must do. -/
structure DhcpSafe (xid : Nat) (s : Host) (polls polls' : List (Option (DhcpMsg × Nat))) (t : Host)
    (ok : Bool) : Prop where
  port : t.udp.port = 0
  success : ok = true → ∃ offer ack, firstAccepted xid 2 polls = some offer ∧
    firstAccepted xid 5 polls' = some ack ∧ t.ourIp = addrAt ack.fixed 16 ∧
    (t.ourMask = s.ourMask ∨ ack.Gives 1 t.ourMask) ∧ (t.ourGw = s.ourGw ∨ ack.Gives 3 t.ourGw) ∧
    (t.ourDns = s.ourDns ∨ ack.Gives 6 t.ourDns)
  failure : ok = false → t.ourIp = s.ourIp ∧ t.ourMask = s.ourMask ∧ t.ourGw = s.ourGw ∧
    t.ourDns = s.ourDns ∧ t.configured = s.configured

/-! ## One reply -/

section message

variable {o : Nat → Option UInt8} {olen : Nat} {whole rest : List UInt8} {items : List DhcpOpt}

theorem lastType_eq_foldl (items : List DhcpOpt) : ∀ type : UInt8, lastType type items =
    items.foldl (DhcpOpt.fold fun code value type => if code = 53 then value.headD 0 else type) type := by
  induction items with
  | nil => exact fun _ => rfl
  | cons it items ih =>
    intro type
    cases it with
    | pad => exact ih type
    | opt code value => exact ih _

/-- The scan for the message type finds the last one. -/
theorem visit_type (ho : ∀ j < whole.length, o j = whole[j]?) (hok : ∀ it ∈ items, it.Ok)
    {a : UInt8} (hwhole : whole = optBytes items ++ rest) :
    visit whole.length (fun i type => do if (← o i) = 53 then o (i + 2) else return type)
      0 items a = some (lastType a items) := by
  rw [lastType_eq_foldl]
  refine visit_foldl (fun before code value after a hmem hsplit hlen => ?_) [] hwhole ?_
  · obtain ⟨-, -, -, hne⟩ := hok _ hmem
    obtain ⟨hcode, -, hvalue⟩ := getElem?_opt hsplit
    rw [ho _ (by omega), hcode]
    simp only [Option.bind_eq_bind, Option.bind_some, Option.pure_def]
    by_cases h53 : code = 53
    · obtain ⟨v, vs, rfl⟩ := List.exists_cons_of_ne_nil (hne h53)
      rw [List.length_cons] at hlen
      rw [if_pos h53, if_pos h53, ho _ (by omega)]
      exact hvalue 0 (Nat.succ_pos _)
    · rw [if_neg h53, if_neg h53]
  · rw [hwhole, List.length_append, List.length_nil]
    omega

theorem messageType_eq (hwhole : whole = optBytes items ++ rest)
    (hrest : rest = [] ∨ rest.head? = some 255) (hok : ∀ it ∈ items, it.Ok)
    (ho : ∀ j < whole.length, o j = whole[j]?) :
    messageType o whole.length = some (lastType 0 items) := by
  rw [messageType, scanOpts_eq hwhole hrest hok (Nat.le_refl _) ho]
  exact visit_type ho hok hwhole

end message

/-! ## Waiting -/

/-- What follows the header. -/
def DhcpMsg.tail (m : DhcpMsg) : List UInt8 := optBytes m.opts ++ m.rest

/-- What `dhcp_wait` copies out of a reply. -/
def DhcpMsg.reply (m : DhcpMsg) (opts : List UInt8) : DhcpReply :=
  let olen := if optsSize < m.tail.length then optsSize else m.tail.length
  ⟨m.fixed, m.tail.take olen ++ opts.drop olen, olen⟩

theorem reply_optsLen (m : DhcpMsg) (opts : List UInt8) :
    (m.reply opts).optsLen = min optsSize m.tail.length := by
  unfold DhcpMsg.reply
  simp only
  split <;> omega

theorem reply_opts (m : DhcpMsg) (opts : List UInt8) :
    (m.reply opts).opts = m.tail.take (m.reply opts).optsLen ++ opts.drop (m.reply opts).optsLen := rfl

theorem reply_opts_length {m : DhcpMsg} {opts : List UInt8} (hopts : opts.length = optsSize) :
    (m.reply opts).opts.length = optsSize := by
  rw [reply_opts, List.length_append, List.length_take, List.length_drop, reply_optsLen, hopts]
  omega

theorem fixed_append {m : DhcpMsg} (rest : List UInt8) (h : m.fixed.length = dhcpPktSize) :
    (∀ i < dhcpPktSize, (m.fixed ++ rest)[i]? = some (byteAt m.fixed i)) ∧
      get32 (m.fixed ++ rest) 4 = some (addrAt m.fixed 4) ∧
      field (m.fixed ++ rest) 0 dhcpPktSize = some m.fixed := by
  have hsize : dhcpPktSize = 240 := rfl
  have hlen : (m.fixed ++ rest).length = dhcpPktSize + rest.length := by
    rw [List.length_append, h]
  refine ⟨fun i hi => ?_, ?_, ?_⟩
  · rw [List.getElem?_append_left (by omega)]
    exact getElem?_byteAt (by omega)
  · rw [get32_eq (by omega), addrAt_append_left (by omega)]
  · rw [field_eq (by omega), List.drop_zero, ← h, List.take_left]

theorem DhcpMsg.Ok.fixed_length {m : DhcpMsg} (hm : m.Ok) (h : dhcpPktSize ≤ m.bytes.length) :
    m.fixed.length = dhcpPktSize := by
  rcases hm.fixed with hfull | ⟨hshort, hopts, hrest⟩
  · exact hfull
  · rw [DhcpMsg.bytes, hopts, hrest, optBytes, List.flatMap_nil, List.append_nil, List.append_nil] at h
    omega

/-- One datagram is taken or dropped. -/
theorem dhcpWait_cons (xid : Nat) (want : UInt8) (opts : List UInt8) {m : DhcpMsg} (hm : m.Ok)
    (src : Nat) (polls : List (Option (List UInt8 × Nat))) (s : Host) :
    dhcpWait xid want opts (some (m.bytes, src) :: polls) s =
      if m.Accepts xid want then
        some ({ s with udp := { deposit s.udp m.bytes src with len := 0 } }, some (m.reply opts))
      else dhcpWait xid want opts polls { s with udp := { deposit s.udp m.bytes src with len := 0 } } := by
  have hfit := hm.size
  have hbytes : m.bytes.length = m.fixed.length + m.tail.length := List.length_append
  have hdata : (deposit s.udp m.bytes src).data =
      m.fixed ++ (m.tail ++ s.udp.data.drop m.bytes.length) := List.append_assoc ..
  rw [dhcpWait]
  simp only
  by_cases hshort : m.bytes.length < dhcpPktSize
  · rw [if_pos hshort, if_neg fun h => by have := h.1; omega]
  · have hfull := hm.fixed_length (Nat.le_of_not_lt hshort)
    obtain ⟨hget, hxid, hfixed⟩ :=
      fixed_append (m.tail ++ s.udp.data.drop m.bytes.length) hfull
    rw [if_neg hshort, hdata, hget 0 (Nat.succ_pos _), hxid]
    simp only [Option.bind_eq_bind, Option.bind_some]
    by_cases hhdr : byteAt m.fixed 0 = 2 ∧ addrAt m.fixed 4 = xid
    · have htype : messageType (fun i =>
          (m.fixed ++ (m.tail ++ s.udp.data.drop m.bytes.length))[dhcpPktSize + i]?)
          m.tail.length = some (lastType 0 m.opts) :=
        messageType_eq rfl hm.rest hm.opts fun j hj => by
          rw [← hfull, List.getElem?_append_right (Nat.le_add_right ..), Nat.add_sub_cancel_left,
            List.getElem?_append_left hj]
      have holen : m.bytes.length - dhcpPktSize = m.tail.length := by omega
      rw [if_pos hhdr, holen, htype, Option.bind_some]
      by_cases hwant : lastType 0 m.opts = want
      · obtain ⟨n, hn⟩ : ∃ n, n = (m.reply opts).optsLen := ⟨_, rfl⟩
        have hmin := reply_optsLen m opts
        have hcopy : field (m.fixed ++ (m.tail ++ s.udp.data.drop m.bytes.length)) dhcpPktSize n =
            some (m.tail.take n) := by
          rw [field_eq (by simp only [List.length_append]; omega), ← hfull, List.drop_left,
            List.take_append_of_le_length (by omega)]
        have hstore : store optsSize opts 0 (m.tail.take n) = some (m.reply opts).opts := by
          rw [store, if_pos (by rw [List.length_take]; omega), List.take_zero, List.nil_append,
            reply_opts, ← hn, List.length_take, Nat.min_eq_left (by omega), Nat.zero_add]
        have hif : (if optsSize < m.tail.length then optsSize else m.tail.length) = n := hn.symm
        rw [if_pos hwant, hfixed, hif, hcopy]
        simp only [Option.bind_some]
        rw [hstore, Option.bind_some, if_pos ⟨hfull, hhdr.1, hhdr.2, hwant⟩, hn]
        rfl
      · rw [if_neg hwant, if_neg fun h => hwant h.2.2.2]
    · rw [if_neg hhdr, if_neg fun h => hhdr ⟨h.2.1, h.2.2.1⟩]

/-- A wait ends with the first reply that is accepted, or with none. -/
theorem dhcpWait_eq (xid : Nat) (want : UInt8) (opts : List UInt8)
    {polls : List (Option (DhcpMsg × Nat))} (hok : ∀ m src, some (m, src) ∈ polls → m.Ok) :
    ∀ {s : Host}, s.udp.data.length = udpBufSize →
    ∃ u : UdpSock, u.port = s.udp.port ∧ u.data.length = udpBufSize ∧
      dhcpWait xid want opts (arrivals polls) s =
        some ({ s with udp := u }, (firstAccepted xid want polls).map (·.reply opts)) := by
  induction polls with
  | nil => exact fun hs => ⟨_, rfl, hs, rfl⟩
  | cons poll polls ih =>
    intro s hs
    have hok' : ∀ m src, some (m, src) ∈ polls → m.Ok := fun m src h =>
      hok m src (List.mem_cons_of_mem _ h)
    match poll, hok with
    | none, _ => exact ih hok' hs
    | some (m, src), hok =>
      have hm := hok m src (List.mem_cons_self ..)
      have hlen : (deposit s.udp m.bytes src).data.length = udpBufSize := by
        have hfit := hm.size
        rw [deposit, List.length_append, List.length_drop, hs]
        omega
      have hpoll : arrivals (some (m, src) :: polls) = some (m.bytes, src) :: arrivals polls := rfl
      rw [hpoll, dhcpWait_cons xid want opts hm src (arrivals polls), firstAccepted]
      by_cases hacc : m.Accepts xid want
      · rw [if_pos hacc, if_pos hacc]
        exact ⟨{ deposit s.udp m.bytes src with len := 0 }, rfl, hlen, rfl⟩
      · rw [if_neg hacc, if_neg hacc]
        exact ih hok' (s := { s with udp := { deposit s.udp m.bytes src with len := 0 } }) hlen

/-! ## Options -/

/-- The bytes that a scan of a reply sees. -/
theorem reply_mem {m : DhcpMsg} {opts : List UInt8} (past : Nat → UInt8) {j : Nat}
    (hj : j < (m.reply opts).optsLen) : (m.reply opts).mem past j = m.tail[j]? := by
  have hmin := reply_optsLen m opts
  rw [DhcpReply.mem, if_pos (by omega), reply_opts, List.getElem?_append_left, List.getElem?_take_of_lt hj]
  rw [List.length_take]
  omega

theorem reply_mem_isSome {m : DhcpMsg} {opts : List UInt8} (hopts : opts.length = optsSize)
    (past : Nat → UInt8) (j : Nat) : ((m.reply opts).mem past j).isSome := by
  rw [DhcpReply.mem]
  split
  · rw [List.getElem?_eq_getElem (by rw [reply_opts_length hopts]; assumption)]
    rfl
  · rfl

theorem addr4_isSome {o : Nat → Option UInt8} (ho : ∀ j, (o j).isSome) (i : Nat) :
    ∃ v, addr4 o i = some v := by
  obtain ⟨a, ha⟩ := Option.isSome_iff_exists.mp (ho i)
  obtain ⟨b, hb⟩ := Option.isSome_iff_exists.mp (ho (i + 1))
  obtain ⟨c, hc⟩ := Option.isSome_iff_exists.mp (ho (i + 2))
  obtain ⟨d, hd⟩ := Option.isSome_iff_exists.mp (ho (i + 3))
  rw [addr4, ha, hb, hc, hd]
  exact ⟨_, rfl⟩

/-- The address in a value that is there as a whole. -/
theorem addr4_value {o : Nat → Option UInt8} {i : Nat} {value : List UInt8} (h : 4 ≤ value.length)
    (ho : ∀ k < 4, o (i + k) = value[k]?) : addr4 o i = some (leNat (value.take 4)) := by
  match value, h, ho with
  | a :: b :: c :: d :: _, _, ho =>
    have h0 : o i = some a := ho 0 (by decide)
    have h1 : o (i + 1) = some b := ho 1 (by decide)
    have h2 : o (i + 2) = some c := ho 2 (by decide)
    have h3 : o (i + 3) = some d := ho 3 (by decide)
    rw [addr4, h0, h1, h2, h3]
    rfl

/-- The last byte is the highest one of the address. -/
theorem addr4_last {o : Nat → Option UInt8} {i v : Nat} {b : UInt8} (h : addr4 o i = some v)
    (hb : o (i + 3) = some b) : v / 2 ^ 24 = b.toNat := by
  simp only [addr4, Option.bind_eq_bind, Option.bind_eq_some_iff, Option.pure_def, Option.some.injEq] at h
  obtain ⟨b0, -, b1, -, b2, -, b3, h3, rfl⟩ := h
  rw [hb] at h3
  cases h3
  have := b0.toNat_lt
  have := b1.toNat_lt
  have := b2.toNat_lt
  simp only [leNat]
  omega

/-- The scan for the server ends, wherever its option lies. -/
theorem serverId_isSome {m : DhcpMsg} (hm : m.Ok) {opts : List UInt8} (hopts : opts.length = optsSize)
    (past : Nat → UInt8) :
    ∃ v, serverId ((m.reply opts).mem past) (m.reply opts).optsLen = some v := by
  have hmin := reply_optsLen m opts
  have hmem := reply_mem_isSome (m := m) hopts past
  rw [serverId, scanOpts_eq rfl hm.rest hm.opts (show _ ≤ m.tail.length by omega)
    fun j hj => reply_mem past hj]
  obtain ⟨v, hv, -⟩ := visit_rule (I := fun _ => True) m.opts (m.reply opts).optsLen (i := 0) (a := 0) (f := fun i server => do
      if (← (m.reply opts).mem past i) = 54 then addr4 ((m.reply opts).mem past) (i + 2)
      else return server)
    (fun before code value after a _ _ _ => by
      obtain ⟨c, hc⟩ := Option.isSome_iff_exists.mp (hmem (0 + (optBytes before).length))
      simp only [hc, Option.bind_eq_bind, Option.bind_some]
      by_cases h54 : c = 54
      · obtain ⟨w, hw⟩ := addr4_isSome hmem (0 + (optBytes before).length + 2)
        exact ⟨w, by rw [if_pos h54, hw], trivial⟩
      · exact ⟨a, by rw [if_neg h54]; rfl, trivial⟩) trivial
  exact ⟨v, hv⟩

/-- The setting that an option is about. -/
def NetConfig.get (c : NetConfig) (code : UInt8) : Nat :=
  if code = 1 then c.mask else if code = 3 then c.gw else c.dns

def NetConfig.put (c : NetConfig) (code : UInt8) (v : Nat) : NetConfig :=
  if code = 1 then { c with mask := v } else if code = 3 then { c with gw := v } else { c with dns := v }

instance (code : UInt8) (value : List UInt8) : Decidable (SetsAddr code value) :=
  inferInstanceAs (Decidable (_ ∧ _))

theorem parseOption_eq {o : Nat → Option UInt8} {i : Nat} {code : UInt8} {value : List UInt8}
    (hvalue : value.length < 256) (hcode : o i = some code)
    (hlen : o (i + 1) = some (UInt8.ofNat value.length)) (c : NetConfig) :
    parseOption o i c = if SetsAddr code value then (addr4 o (i + 2)).map (c.put code) else some c := by
  have h4 : (4 : UInt8) ≤ UInt8.ofNat value.length ↔ 4 ≤ value.length := by
    rw [UInt8.le_iff_toNat_le, UInt8.toNat_ofNat', Nat.mod_eq_of_lt hvalue]
    rfl
  rw [parseOption, hcode, hlen]
  simp only [Option.bind_eq_bind, Option.bind_some, Option.pure_def, h4, SetsAddr]
  by_cases hlong : 4 ≤ value.length
  · simp only [hlong, and_true]
    by_cases h1 : code = 1
    · subst h1
      cases addr4 o (i + 2) <;> rfl
    · by_cases h3 : code = 3
      · subst h3
        cases addr4 o (i + 2) <;> rfl
      · by_cases h6 : code = 6
        · subst h6
          cases addr4 o (i + 2) <;> rfl
        · rw [if_neg h1, if_neg h3, if_neg h6, if_neg fun h => h.elim h1 fun h => h.elim h3 h6]
  · simp only [hlong, and_false, if_false]

/-- Every setting is the old one or an option's. -/
def NetConfig.From (c : NetConfig) (m : DhcpMsg) (old : NetConfig) : Prop :=
  ∀ code, code = 1 ∨ code = 3 ∨ code = 6 → c.get code = old.get code ∨ m.Gives code (c.get code)

section parse

variable {m : DhcpMsg} {opts : List UInt8} {past : Nat → UInt8}

/-- An option before the cut, as `dhcp_parse_opts` sees it. -/
theorem parseOption_reply (opts : List UInt8) (past : Nat → UInt8) (hm : m.Ok)
    (before : List DhcpOpt) {after : List DhcpOpt} {code : UInt8}
    {value : List UInt8} (hopt : m.opts = before ++ .opt code value :: after)
    (hcut : (optBytes before).length + 1 < (m.reply opts).optsLen) (c : NetConfig) :
    parseOption ((m.reply opts).mem past) (optBytes before).length c =
      if SetsAddr code value then
        (addr4 ((m.reply opts).mem past) ((optBytes before).length + 2)).map (c.put code)
      else some c := by
  have hmem : DhcpOpt.opt code value ∈ m.opts := by
    rw [hopt]
    exact List.mem_append_right _ (List.mem_cons_self ..)
  obtain ⟨-, -, hvalue, -⟩ := hm.opts _ hmem
  obtain ⟨hcode, hlen, -⟩ := getElem?_opt (show m.tail = optBytes before ++
    (DhcpOpt.opt code value).bytes ++ (optBytes after ++ m.rest) by
      rw [DhcpMsg.tail, hopt, optBytes_append, optBytes_cons]; simp only [List.append_assoc])
  rw [← reply_mem past (show _ < (m.reply opts).optsLen by omega)] at hcode
  rw [← reply_mem past hcut] at hlen
  exact parseOption_eq hvalue hcode hlen c

theorem get_put {c : NetConfig} {code code' : UInt8} {v : Nat}
    (h : code = 1 ∨ code = 3 ∨ code = 6) (h' : code' = 1 ∨ code' = 3 ∨ code' = 6) :
    (c.put code v).get code' = if code' = code then v else c.get code' := by
  rcases h with rfl | rfl | rfl <;> rcases h' with rfl | rfl | rfl <;> rfl

/-- Where no address crosses the cut every setting is the old one or an option's. -/
theorem dhcpParseOpts_from (hm : m.Ok) (hcut : ¬ m.Straddles) (opts : List UInt8)
    (past : Nat → UInt8) (old : NetConfig) :
    ∃ c, dhcpParseOpts ((m.reply opts).mem past) (m.reply opts).optsLen old = some c ∧
      c.From m old := by
  have hmin := reply_optsLen m opts
  rw [dhcpParseOpts, scanOpts_eq rfl hm.rest hm.opts (show _ ≤ m.tail.length by omega)
    fun j hj => reply_mem past hj]
  refine visit_rule (I := fun c : NetConfig => c.From m old) _ _ ?_ fun _ _ => Or.inl rfl
  intro before code value after c hopt hlt hc
  rw [Nat.zero_add] at hlt ⊢
  rw [parseOption_reply opts past hm before hopt hlt]
  by_cases hset : SetsAddr code value
  · have hfit : (optBytes before).length + 6 ≤ optsSize :=
      Nat.le_of_not_lt fun h => hcut ⟨before, code, value, after, hopt, hset, by omega, h⟩
    have htail : m.tail = optBytes before ++ (DhcpOpt.opt code value).bytes ++
        (optBytes after ++ m.rest) := by
      rw [DhcpMsg.tail, hopt, optBytes_append, optBytes_cons]
      simp only [List.append_assoc]
    have hlen := congrArg List.length htail
    rw [List.length_append, List.length_append, length_bytes_opt] at hlen
    have hlong := hset.2
    have haddr : addr4 ((m.reply opts).mem past) ((optBytes before).length + 2) =
        some (leNat (value.take 4)) := addr4_value hlong fun k hk => by
      rw [reply_mem past (by omega)]
      exact (getElem?_opt htail).2.2 k (by omega)
    rw [if_pos hset, haddr]
    refine ⟨_, rfl, fun code' hcode' => ?_⟩
    rw [get_put hset.1 hcode']
    by_cases heq : code' = code
    · subst heq
      rw [if_pos rfl]
      exact .inr ⟨value, by rw [hopt]; exact List.mem_append_right _ (List.mem_cons_self ..), hlong, rfl⟩
    · rw [if_neg heq]
      exact hc code' hcode'
  · rw [if_neg hset]
    exact ⟨c, rfl, hc⟩

/-- The highest byte of the address that an option may give. -/
def DhcpOpt.high : DhcpOpt → Option Nat
  | .pad => none
  | .opt _ value => if 4 ≤ value.length then some (leNat (value.take 4) / 2 ^ 24) else none

theorem length_high (items : List DhcpOpt) :
    (items.filterMap DhcpOpt.high).length * 6 ≤ (optBytes items).length := by
  induction items with
  | nil => exact Nat.le_refl 0
  | cons it items ih =>
    rw [optBytes_cons, List.length_append]
    cases hit : it.high with
    | none =>
      rw [List.filterMap_cons_none hit]
      omega
    | some n =>
      rw [List.filterMap_cons_some hit, List.length_cons]
      cases it with
      | pad => cases hit
      | opt code value =>
        have hlong : 4 ≤ value.length := Classical.byContradiction fun h => by
          rw [DhcpOpt.high, if_neg h] at hit
          cases hit
        rw [length_bytes_opt]
        omega

/-- There is a byte that is no address's highest one. -/
theorem exists_byte (hm : m.Ok) (old : Nat) :
    ∃ x : UInt8, x.toNat ≠ old ∧ x.toNat ∉ m.opts.filterMap DhcpOpt.high := by
  have hcount := length_high m.opts
  have hsize := hm.size
  rw [DhcpMsg.bytes, List.length_append, List.length_append] at hsize
  have hbuf : udpBufSize = 1024 := rfl
  have hcard : (old :: m.opts.filterMap DhcpOpt.high).toFinset.card < (Finset.range 256).card := by
    have := List.toFinset_card_le (old :: m.opts.filterMap DhcpOpt.high)
    rw [List.length_cons] at this
    rw [Finset.card_range]
    omega
  obtain ⟨n, hn, hnot⟩ := Finset.exists_mem_notMem_of_card_lt_card hcard
  have hnat : (UInt8.ofNat n).toNat = n := by
    rw [UInt8.toNat_ofNat']
    exact Nat.mod_eq_of_lt (Finset.mem_range.mp hn)
  rw [List.mem_toFinset, List.mem_cons, not_or] at hnot
  exact ⟨UInt8.ofNat n, by rw [hnat]; exact hnot.1, by rw [hnat]; exact hnot.2⟩

/-- An address that crosses the cut is completed with bytes that are not the datagram's. -/
theorem dhcpParseOpts_straddle (hm : m.Ok) (hcut : m.Straddles) (opts : List UInt8)
    (old : NetConfig) :
    ∃ past, ∀ c, dhcpParseOpts ((m.reply opts).mem past) (m.reply opts).optsLen old = some c →
      ¬ c.From m old := by
  obtain ⟨before, code, value, after, hopt, hset, hlt, hcross⟩ := hcut
  obtain ⟨x, hold, hnew⟩ := exists_byte hm (old.get code / 2 ^ 24)
  refine ⟨fun _ => x, fun c hc hfrom => ?_⟩
  have htail : m.tail = optBytes before ++ (DhcpOpt.opt code value).bytes ++
      (optBytes after ++ m.rest) := by
    rw [DhcpMsg.tail, hopt, optBytes_append, optBytes_cons]
    simp only [List.append_assoc]
  have hlen := congrArg List.length htail
  have hlong := hset.2
  have hmin := reply_optsLen m opts
  rw [List.length_append, List.length_append, length_bytes_opt] at hlen
  have hcutlen : (m.reply opts).optsLen = optsSize := by omega
  -- The option that crosses the cut is the last one that is visited.
  rw [dhcpParseOpts, scanOpts_eq rfl hm.rest hm.opts (show _ ≤ m.tail.length by omega)
    fun j hj => reply_mem _ hj, hopt, visit_append (by omega), Nat.zero_add] at hc
  obtain ⟨c', -, hc⟩ := Option.bind_eq_some_iff.mp hc
  rw [visit, if_pos (by omega), parseOption_reply _ _ hm before hopt (by omega), if_pos hset] at hc
  obtain ⟨c'', hput, hc⟩ := Option.bind_eq_some_iff.mp hc
  obtain ⟨addr, haddr, rfl⟩ := Option.map_eq_some_iff.mp hput
  rw [visit_end (by omega)] at hc
  cases hc
  have hhigh : addr / 2 ^ 24 = x.toNat := addr4_last haddr (by rw [DhcpReply.mem, if_neg (by omega)])
  have hget : (c'.put code addr).get code = addr := by
    rw [get_put hset.1 hset.1, if_pos rfl]
  rcases hfrom code hset.1 with h | ⟨value', hmem, hlong', h⟩
  · rw [hget] at h
    rw [h] at hhigh
    exact hold hhigh.symm
  · rw [hget] at h
    refine hnew (List.mem_filterMap.mpr ⟨_, hmem, ?_⟩)
    rw [← hhigh, h]
    exact if_pos hlong'

end parse

/-! ## The call -/

theorem dhcpBuild_length {s : Host} (hs : s.ourMac.length = 6) (type : UInt8)
    (xid reqIp serverIp : Nat) : 42 + (dhcpBuild s type xid reqIp serverIp).length ≤ frameMax := by
  unfold dhcpBuild
  simp only [List.length_append, leBytes_length, net16_length, List.length_replicate, hs, frameMax]
  split <;> split <;>
    simp only [List.length_append, leBytes_length, List.length_cons, List.length_nil] <;> omega

/-- An ARP cache as the receive thread leaves it. -/
def CacheOk (cache : List ArpEntry) : Prop :=
  cache.length = arpCacheSize ∧ ∀ e ∈ cache, e.mac.length = 6

section call

variable {s : Host} {caches caches' : List (List ArpEntry)} {ticks : Nat} {opts : List UInt8}
  {polls polls' : List (Option (DhcpMsg × Nat))}

/-- Sending a request changes the cache, the counter and what was sent. -/
theorem udpSend_request (hs : s.Ok) (hcaches : ∀ cache ∈ caches, CacheOk cache) (type : UInt8)
    (xid reqIp serverIp : Nat) : ∃ cache id sent,
      udpSend s caches 0xFFFFFFFF 68 67 (dhcpBuild s type xid reqIp serverIp) =
        some { s with arpCache := cache, ipId := id, sent := sent } ∧
      Host.Ok { s with arpCache := cache, ipId := id, sent := sent } := by
  obtain ⟨cache, id, sent, hsend, hcache⟩ := udpSend_isSome hs (fun c hc => (hcaches c hc).2)
    0xFFFFFFFF 68 67 (dhcpBuild_length hs.mac type xid reqIp serverIp)
  have hok : CacheOk cache := by
    rcases hcache with rfl | hmem
    · exact ⟨hs.cache, hs.cacheMac⟩
    · exact hcaches cache hmem
  exact ⟨cache, id, sent, hsend, { hs with cache := hok.1, cacheMac := hok.2 }⟩

theorem firstAccepted_ok (hpolls : ∀ m src, some (m, src) ∈ polls → m.Ok) {xid : Nat} {type : UInt8}
    {m : DhcpMsg} (h : firstAccepted xid type polls = some m) : m.Ok := by
  induction polls with
  | nil => cases h
  | cons poll polls ih =>
    have ih := ih fun m src hm => hpolls m src (List.mem_cons_of_mem _ hm)
    match poll, hpolls with
    | none, _ => exact ih h
    | some (m', src), hpolls =>
      rw [firstAccepted] at h
      split at h
      · cases h
        exact hpolls _ src (List.mem_cons_self ..)
      · exact ih h

/-- A call on a card that is up: it fails, or what it sets comes from the accepted replies. -/
theorem netDhcp_eq (caches caches' : List (List ArpEntry)) (ticks : Nat) (hs : s.Ok) (hup : s.nicUp = true) (hconf : s.configured = false)
    (hcaches : ∀ cache ∈ caches, CacheOk cache) (hcaches' : ∀ cache ∈ caches', CacheOk cache)
    (hopts : opts.length = optsSize) (hpolls : ∀ m src, some (m, src) ∈ polls → m.Ok)
    (hpolls' : ∀ m src, some (m, src) ∈ polls' → m.Ok) (past : Nat → UInt8) :
    ∃ (cache : List ArpEntry) (id : Nat) (sent : List (List UInt8)) (u : UdpSock),
      let t := { s with arpCache := cache, ipId := id, sent := sent, udp := { u with port := 0 } }
      ∀ past', netDhcp s caches caches' ticks opts past past' (arrivals polls) (arrivals polls') =
        match firstAccepted (dhcpXid ticks) 2 polls, firstAccepted (dhcpXid ticks) 5 polls' with
        | some offer, some ack =>
          let r := ack.reply (offer.reply opts).opts
          (dhcpParseOpts (r.mem past') r.optsLen ⟨s.ourMask, s.ourGw, s.ourDns⟩).map fun c =>
            ({ t with
              ourIp := addrAt ack.fixed 16
              ourMask := c.mask
              ourGw := c.gw
              ourDns := c.dns
              configured := true }, true)
        | _, _ => some (t, false) := by
  have hgo : ¬ s.nicUp = false := by
    rw [hup]
    exact Bool.noConfusion
  have hgo' : ¬ s.configured = true := by
    rw [hconf]
    exact Bool.noConfusion
  simp only [netDhcp, if_neg hgo, if_neg hgo', Option.bind_eq_bind]
  obtain ⟨cache, id, sent, hsend, hs1⟩ :=
    udpSend_request (s := { s with udp := { s.udp with len := 0, port := 68 } })
      { hs with port := show 68 < 65536 by decide } hcaches 1 (dhcpXid ticks) 0 0
  obtain ⟨u, hport, hu, hwait⟩ := dhcpWait_eq (dhcpXid ticks) 2 opts hpolls
    (s := { s with
      arpCache := cache, ipId := id, sent := sent, udp := { s.udp with len := 0, port := 68 } }) hs1.data
  simp only [hsend, Option.bind_some, hwait]
  cases hoffer : firstAccepted (dhcpXid ticks) 2 polls with
  | none => exact ⟨cache, id, sent, u, fun _ => rfl⟩
  | some offer =>
    obtain ⟨server, hserver⟩ := serverId_isSome (firstAccepted_ok hpolls hoffer) hopts past
    obtain ⟨cache', id', sent', hsend', hs2⟩ :=
      udpSend_request (s := { s with arpCache := cache, ipId := id, sent := sent, udp := u })
        { hs1 with port := by rw [hport]; exact hs1.port, data := hu } hcaches' 3 (dhcpXid ticks)
        (addrAt offer.fixed 16) server
    obtain ⟨u', -, -, hwait'⟩ := dhcpWait_eq (dhcpXid ticks) 5 (offer.reply opts).opts hpolls'
      (s := { s with arpCache := cache', ipId := id', sent := sent', udp := u }) hs2.data
    refine ⟨cache', id', sent', u', fun past' => ?_⟩
    simp only [Option.map_some]
    have hyiaddr : (offer.reply opts).yiaddr = addrAt offer.fixed 16 := rfl
    simp only [hserver, hyiaddr, hsend', Option.bind_some, hwait']
    cases firstAccepted (dhcpXid ticks) 5 polls' with
    | none => rfl
    | some ack =>
      simp only [Option.map_some]
      cases dhcpParseOpts ((ack.reply (offer.reply opts).opts).mem past')
        (ack.reply (offer.reply opts).opts).optsLen ⟨s.ourMask, s.ourGw, s.ourDns⟩ with
      | none => rfl
      | some c => rfl

end call

/-- Every call from the unconfigured state is safe exactly if no address crosses the cut in the
    acknowledgement that it accepts. -/
theorem netDhcp_safe_iff (s : Host) (hs : s.Ok) (hconf : s.configured = false)
    (hport : s.udp.port = 0) (caches caches' : List (List ArpEntry))
    (hcaches : ∀ cache ∈ caches, CacheOk cache) (hcaches' : ∀ cache ∈ caches', CacheOk cache)
    (ticks : Nat) (opts : List UInt8) (hopts : opts.length = optsSize)
    (polls polls' : List (Option (DhcpMsg × Nat))) (hpolls : ∀ m src, some (m, src) ∈ polls → m.Ok)
    (hpolls' : ∀ m src, some (m, src) ∈ polls' → m.Ok) :
    (∀ past past', ∃ t ok, netDhcp s caches caches' ticks opts past past' (arrivals polls)
      (arrivals polls') = some (t, ok) ∧ DhcpSafe (dhcpXid ticks) s polls polls' t ok) ↔
    (s.nicUp = true → ∀ offer ack, firstAccepted (dhcpXid ticks) 2 polls = some offer →
      firstAccepted (dhcpXid ticks) 5 polls' = some ack → ¬ ack.Straddles) := by
  constructor
  · intro hsafe hup offer ack hoffer hack hcut
    obtain ⟨past', hpast'⟩ := dhcpParseOpts_straddle (firstAccepted_ok hpolls' hack) hcut
      (offer.reply opts).opts ⟨s.ourMask, s.ourGw, s.ourDns⟩
    obtain ⟨cache, id, sent, u, heq⟩ := netDhcp_eq caches caches' ticks hs hup hconf hcaches hcaches' hopts hpolls hpolls' fun _ => 0
    obtain ⟨t, ok, hrun, hres⟩ := hsafe (fun _ => 0) past'
    rw [heq past', hoffer, hack] at hrun
    obtain ⟨c, hc, ht⟩ := Option.map_eq_some_iff.mp hrun
    simp only [Prod.mk.injEq] at ht
    obtain ⟨rfl, rfl⟩ := ht
    obtain ⟨-, ack', -, hack', -, hmask, hgw, hdns⟩ := hres.success rfl
    rw [hack] at hack'
    cases hack'
    refine hpast' c hc fun code hcode => ?_
    rcases hcode with rfl | rfl | rfl
    · exact hmask
    · exact hgw
    · exact hdns
  · intro hcut past past'
    by_cases hup : s.nicUp = false
    · refine ⟨s, false, ?_, hport, nofun, fun _ => ⟨rfl, rfl, rfl, rfl, rfl⟩⟩
      rw [netDhcp, if_pos hup]
    · rw [Bool.not_eq_false] at hup
      obtain ⟨cache, id, sent, u, heq⟩ := netDhcp_eq caches caches' ticks hs hup hconf hcaches hcaches' hopts hpolls hpolls' past
      rw [heq past']
      cases hoffer : firstAccepted (dhcpXid ticks) 2 polls with
      | none => exact ⟨_, _, rfl, rfl, nofun, fun _ => ⟨rfl, rfl, rfl, rfl, rfl⟩⟩
      | some offer =>
        cases hack : firstAccepted (dhcpXid ticks) 5 polls' with
        | none => exact ⟨_, _, rfl, rfl, nofun, fun _ => ⟨rfl, rfl, rfl, rfl, rfl⟩⟩
        | some ack =>
          obtain ⟨c, hc, hfrom⟩ := dhcpParseOpts_from
            (firstAccepted_ok hpolls' hack) (hcut hup offer ack hoffer hack)
            (offer.reply opts).opts past' ⟨s.ourMask, s.ourGw, s.ourDns⟩
          simp only [hc, Option.map_some]
          exact ⟨_, _, rfl, rfl, fun _ => ⟨offer, ack, hoffer, hack, rfl, hfrom 1 (.inl rfl),
            hfrom 3 (.inr (.inl rfl)), hfrom 6 (.inr (.inr rfl))⟩, nofun⟩

/-- A host that waits for its address. -/
def freshHost : Host :=
  { demoHost with configured := false, ourIp := 0, ourMask := 0, ourGw := 0, ourDns := 0 }

theorem ok_freshHost : freshHost.Ok :=
  { ok_demoHost with ip := by decide, mask := by decide, gw := by decide }

/-- The header of a reply to the transaction that begins at tick 0, which offers 10.0.2.15. -/
def sampleFixed : List UInt8 :=
  [2, 1, 6, 0] ++ leBytes 4 (dhcpXid 0) ++ List.replicate 8 0 ++ [10, 0, 2, 15] ++ List.replicate 220 0

def sampleReply (type : UInt8) (more : List DhcpOpt) : DhcpMsg where
  fixed := sampleFixed
  opts := .opt 53 [type] :: more
  rest := [255]

theorem addrAt_sampleFixed : addrAt sampleFixed 4 = dhcpXid 0 := by
  have hfield : (sampleFixed.drop 4).take 4 = leBytes 4 (dhcpXid 0) := rfl
  rw [addrAt, hfield]
  exact leNat_leBytes (by decide)

theorem sampleReply_accepts {type : UInt8} {more : List DhcpOpt} (h : lastType type more = type) :
    (sampleReply type more).Accepts (dhcpXid 0) type :=
  ⟨rfl, rfl, addrAt_sampleFixed, h⟩

theorem ok_sampleReply (type : UInt8) {more : List DhcpOpt} (hok : ∀ it ∈ more, it.Ok)
    (hsize : (optBytes more).length ≤ 780) : (sampleReply type more).Ok where
  fixed := .inl rfl
  opts := List.forall_mem_cons.mpr ⟨⟨by decide, by decide, show 1 < 256 by decide, fun _ => nofun⟩, hok⟩
  rest := .inr rfl
  size := by
    rw [DhcpMsg.bytes, List.length_append, List.length_append]
    show 240 + ((optBytes (.opt 53 [type] :: more)).length + 1) ≤ 1024
    rw [optBytes_cons, List.length_append, length_bytes_opt]
    show 240 + (2 + 1 + (optBytes more).length + 1) ≤ 1024
    omega

/-- The polls of an exchange in which nothing else arrives. -/
def samplePolls (m : DhcpMsg) : List (Option (DhcpMsg × Nat)) := [none, some (m, 0)]

theorem firstAccepted_sample {m : DhcpMsg} {xid : Nat} {type : UInt8} (h : m.Accepts xid type) :
    firstAccepted xid type (samplePolls m) = some m := by
  rw [samplePolls, firstAccepted, firstAccepted, if_pos h]

theorem ok_samplePolls {m : DhcpMsg} (hm : m.Ok) : ∀ m' src, some (m', src) ∈ samplePolls m → m'.Ok := by
  intro m' src h
  simp only [samplePolls, List.mem_cons, List.not_mem_nil, or_false, reduceCtorEq, false_or,
    Option.some.injEq, Prod.mk.injEq] at h
  exact h.1 ▸ hm

/-- A mask at the beginning of the options. -/
theorem netDhcp_safe_short : ∃ t ok, netDhcp freshHost [] [] 0 (List.replicate optsSize 0)
    (fun _ => 7) (fun _ => 7) (arrivals (samplePolls (sampleReply 2 [])))
    (arrivals (samplePolls (sampleReply 5 [.opt 1 [255, 255, 255, 0]]))) = some (t, ok) ∧
    DhcpSafe (dhcpXid 0) freshHost (samplePolls (sampleReply 2 []))
      (samplePolls (sampleReply 5 [.opt 1 [255, 255, 255, 0]])) t ok := by
  apply (netDhcp_safe_iff freshHost ok_freshHost rfl rfl [] [] nofun nofun 0 _
    (List.length_replicate ..) _ _
    (ok_samplePolls (ok_sampleReply _ (List.forall_mem_nil _) (Nat.zero_le _)))
    (ok_samplePolls (ok_sampleReply _ (by simp [DhcpOpt.Ok]) (by decide)))).mpr
  intro _ _ ack _ hack hcut
  rw [firstAccepted_sample (sampleReply_accepts rfl)] at hack
  cases hack
  obtain ⟨before, code, value, after, hopt, -, -, hcross⟩ := hcut
  have hlen := congrArg (fun items => (optBytes items).length) hopt
  simp only [optBytes_append, List.length_append] at hlen
  have htotal : (optBytes (sampleReply 5 [.opt 1 [255, 255, 255, 0]]).opts).length = 9 := rfl
  have hsize : optsSize = 312 := rfl
  omega

/-- Padding up to a mask whose last byte lies behind the cut. -/
def cutOptions : List DhcpOpt := List.replicate 304 .pad ++ [.opt 1 [255, 255, 255, 0]]

theorem optBytes_pads (n : Nat) : optBytes (List.replicate n .pad) = List.replicate n 0 := by
  induction n with
  | zero => rfl
  | succ n ih => rw [List.replicate_succ, optBytes_cons, ih]; rfl

theorem visit_pads {α : Type} (olen : Nat) (f : Nat → α → Option α) (n : Nat) :
    ∀ (i : Nat) (a : α), visit olen f i (List.replicate n .pad) a = some a := by
  induction n with
  | zero => exact fun _ _ => rfl
  | succ n ih => exact fun i a => ih (i + 1) a

theorem lastType_pads (type : UInt8) (n : Nat) (rest : List DhcpOpt) :
    lastType type (List.replicate n .pad ++ rest) = lastType type rest := by
  induction n with
  | zero => rfl
  | succ n ih => exact ih

theorem lastType_cutOptions : lastType 5 cutOptions = 5 := by
  rw [cutOptions, lastType_pads]
  rfl

theorem ok_cutReply : (sampleReply 5 cutOptions).Ok := by
  refine ok_sampleReply _ (fun it hit => ?_) ?_
  · rcases List.mem_append.mp hit with h | h
    · rw [List.eq_of_mem_replicate h]
      exact trivial
    · rw [List.mem_singleton.mp h]
      exact ⟨by decide, by decide, by decide, nofun⟩
  · rw [cutOptions, optBytes_append, optBytes_pads, List.length_append, List.length_replicate]
    decide

theorem length_before_cut : (optBytes (.opt 53 [5] :: List.replicate 304 .pad)).length = 307 := by
  rw [optBytes_cons, optBytes_pads, List.length_append, List.length_replicate]
  rfl

theorem parse_cutReply (opts : List UInt8) (past : Nat → UInt8) (old : NetConfig) :
    dhcpParseOpts (((sampleReply 5 cutOptions).reply opts).mem past)
      ((sampleReply 5 cutOptions).reply opts).optsLen old =
      some { old with mask := leNat [255, 255, 255, past 312] } := by
  have hopt : (sampleReply 5 cutOptions).opts =
      (.opt 53 [5] :: List.replicate 304 .pad) ++ [.opt 1 [255, 255, 255, 0]] := rfl
  have htail : (sampleReply 5 cutOptions).tail = optBytes (.opt 53 [5] :: List.replicate 304 .pad) ++
      (DhcpOpt.opt 1 [255, 255, 255, 0]).bytes ++ (optBytes [] ++ [255]) := by
    rw [DhcpMsg.tail, hopt, optBytes_append]
    rfl
  have hlen := congrArg List.length htail
  rw [List.length_append, List.length_append, length_before_cut] at hlen
  have htotal : (sampleReply 5 cutOptions).tail.length = 314 := hlen
  have hcut : ((sampleReply 5 cutOptions).reply opts).optsLen = 312 := by
    rw [reply_optsLen, htotal]
    rfl
  obtain ⟨-, -, hvalue⟩ := getElem?_opt htail
  rw [length_before_cut] at hvalue
  -- The mask: three bytes of the datagram and one behind the array.
  have haddr : addr4 (((sampleReply 5 cutOptions).reply opts).mem past) 309 =
      some (leNat [255, 255, 255, past 312]) := by
    have hbyte : ∀ k < 3, ((sampleReply 5 cutOptions).reply opts).mem past (309 + k) = some 255 := by
      intro k hk
      rw [reply_mem past (by omega), hvalue k (by show k < 4; omega)]
      match k, hk with
      | 0, _ => rfl
      | 1, _ => rfl
      | 2, _ => rfl
    have hpast : ((sampleReply 5 cutOptions).reply opts).mem past 312 = some (past 312) := rfl
    rw [addr4, hbyte 0 (by omega), hbyte 1 (by omega), hbyte 2 (by omega), hpast]
    rfl
  rw [dhcpParseOpts, scanOpts_eq rfl ok_cutReply.rest ok_cutReply.opts
    (show _ ≤ (sampleReply 5 cutOptions).tail.length by omega) fun j hj => reply_mem past hj]
  have hfirst := parseOption_reply opts past ok_cutReply []
    (show _ = _ :: cutOptions from rfl) (by rw [hcut]; decide) old
  rw [if_neg (by decide)] at hfirst
  have hlast := parseOption_reply opts past ok_cutReply _ hopt
    (by rw [hcut, length_before_cut]; decide) old
  rw [length_before_cut, if_pos (by decide), haddr] at hlast
  rw [hcut, hopt, visit_append (by rw [length_before_cut]; decide), length_before_cut, visit,
    if_pos (by decide)]
  have hfirst : parseOption (((sampleReply 5 cutOptions).reply opts).mem past) 0 old = some old := hfirst
  rw [hfirst, Option.bind_some, visit_pads, Option.bind_some, visit, if_pos (by decide), hlast]
  rfl

/-- The client takes the last byte of its mask from the stack. -/
theorem netDhcp_reads_past : ∃ t, netDhcp freshHost [] [] 0 (List.replicate optsSize 0) (fun _ => 7)
    (fun _ => 7) (arrivals (samplePolls (sampleReply 2 [])))
    (arrivals (samplePolls (sampleReply 5 cutOptions))) = some (t, true) ∧
    t.ourMask = leNat [255, 255, 255, 7] ∧
    ¬ DhcpSafe (dhcpXid 0) freshHost (samplePolls (sampleReply 2 []))
      (samplePolls (sampleReply 5 cutOptions)) t true := by
  have hoffer : firstAccepted (dhcpXid 0) 2 (samplePolls (sampleReply 2 [])) = some (sampleReply 2 []) :=
    firstAccepted_sample (sampleReply_accepts rfl)
  have hack : firstAccepted (dhcpXid 0) 5 (samplePolls (sampleReply 5 cutOptions)) =
      some (sampleReply 5 cutOptions) :=
    firstAccepted_sample (sampleReply_accepts lastType_cutOptions)
  obtain ⟨cache, id, sent, u, heq⟩ := netDhcp_eq [] [] 0 ok_freshHost rfl rfl nofun nofun (List.length_replicate (n := optsSize) (a := 0))
    (ok_samplePolls (ok_sampleReply 2 (List.forall_mem_nil _) (Nat.zero_le _))) (ok_samplePolls ok_cutReply)
    (fun _ => 7)
  have hparse := parse_cutReply ((sampleReply 2 []).reply (List.replicate optsSize 0)).opts (fun _ => 7)
    ⟨freshHost.ourMask, freshHost.ourGw, freshHost.ourDns⟩
  have hmask : ¬ (leNat [255, 255, 255, 7] = freshHost.ourMask ∨
      (sampleReply 5 cutOptions).Gives 1 (leNat [255, 255, 255, 7])) := by
    rintro (h | ⟨value, hmem, -, h⟩)
    · exact absurd h (by decide)
    · rcases List.mem_cons.mp hmem with h53 | hmem
      · cases h53
      · rcases List.mem_append.mp hmem with hpad | hmem
        · cases List.eq_of_mem_replicate hpad
        · cases List.mem_singleton.mp hmem
          exact absurd h (by decide)
  rw [heq, hoffer, hack]
  simp only [hparse, Option.map_some]
  refine ⟨_, rfl, rfl, fun h => ?_⟩
  obtain ⟨-, ack, -, hack', -, h, -⟩ := h.success rfl
  rw [hack] at hack'
  cases hack'
  exact hmask h

end ChocoOs.Net
