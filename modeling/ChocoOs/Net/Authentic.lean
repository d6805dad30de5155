import ChocoOs.Net.Codec
import ChocoOs.Net.Dns
import ChocoOs.Net.Traffic
import Mathlib.Data.List.ReduceOption

/-!
# Who answers a query

`net_resolve` while the receive thread handles the frames of any hosts. The mailbox takes the first
datagram for the port of the query, and the call returns what the first one says that carries the
id of the query and an address, whoever sent it.
-/

namespace ChocoOs.Net
open ProgLib

/-! ## The call among frames -/

/-- The receive thread handles some frames. -/
def handleFrames (rounds : Nat) : Host → List (List UInt8) → Option Host
  | s, [] => some s
  | s, frame :: frames => (handleFrame s rounds frame).bind fun s => handleFrames rounds s frames

/-- The waiting loop (`net.c:634-682`). Before each poll the receive thread handles some frames. -/
def resolveWait (qid rounds : Nat) : List (List (List UInt8)) → Host → Option (Host × Option Nat)
  | [], s => some ({ s with udp := { s.udp with port := 0 } }, none)
  | frames :: waits, s => do
    let s ← handleFrames rounds s frames
    if 0 < s.udp.len then
      match ← readAnswer s.udp.data s.udp.len.toNat qid with
      | some ip => return ({ s with udp := { s.udp with port := 0, len := 0 } }, some ip)
      | none => resolveWait qid rounds waits { s with udp := { s.udp with len := 0 } }
    else resolveWait qid rounds waits s

/-- `net_resolve` up to its waiting loop (`net.c:591-632`): the query is sent, or the call gives
    up. -/
def resolveOpen (s : Host) (caches : List (List ArpEntry)) (ticks : Nat) (name : List UInt8) :
    Option (Option Host) :=
  if s.configured = false ∨ s.ourDns = 0 then some none
  else do
    match ← queryLabels name with
    | none => return none
    | some labels =>
      let eport := (s.eport + 1) % 65536
      let t ← udpSend { s with
          eport := if eport < 49152 then 49152 else eport
          udp := { s.udp with port := s.eport, len := 0 } } caches s.ourDns s.eport 53
        (dnsQuery (ticks % 65536) labels)
      return some t

/-- `net_resolve` (`net.c:587-683`). -/
def netResolveAmong (s : Host) (caches : List (List ArpEntry)) (rounds ticks : Nat)
    (name : List UInt8) (waits : List (List (List UInt8))) : Option (Host × Option Nat) :=
  match strToIp name with
  | some ip => some (s, some ip)
  | none => do
    match ← resolveOpen s caches ticks name with
    | none => return (s, none)
    | some t => resolveWait (ticks % 65536) rounds waits t

/-- The same steps before the loop as with polls of the mailbox. -/
theorem netResolve_open (s : Host) (caches : List (List ArpEntry)) (ticks : Nat)
    (name : List UInt8) (polls : List (Option (List UInt8 × Nat))) (hname : strToIp name = none) :
    netResolve s caches ticks name polls = (resolveOpen s caches ticks name).bind fun o =>
      match o with
      | none => some (s, none)
      | some t => resolvePolls (ticks % 65536) polls t := by
  rw [netResolve, hname, resolveOpen]
  simp only
  split
  · rfl
  · cases queryLabels name with
    | none => rfl
    | some o =>
      cases o with
      | none => rfl
      | some labels =>
        simp only [Option.bind_eq_bind, Option.bind_some, Option.bind_assoc]
        rfl

/-! ## What arrives -/

/-- The datagram that the open mailbox takes from some frames. -/
def arrival (s : Host) (port : Nat) (frames : List (List UInt8)) : Option Dgram :=
  (frames.filterMap (udpIn s)).find? fun d => port ≠ 0 ∧ d.dport = port ∧ d.Fits

/-- What the polls find. -/
def found (s : Host) (port : Nat) (waits : List (List (List UInt8))) :
    List (Option (List UInt8 × Nat)) :=
  waits.map fun frames => (arrival s port frames).map fun d => (d.bytes, d.src)

theorem udpIn_congr {s s' : Host} (h : s'.ourIp = s.ourIp) : udpIn s' = udpIn s := by
  funext frame
  have hiff : Delivers s' ipProtoUdp frame ↔ Delivers s ipProtoUdp frame := by
    rw [Delivers, Delivers, Accepted, Accepted, h]
  by_cases hd : Delivers s ipProtoUdp frame
  · rw [udpIn, udpIn, if_pos hd, if_pos (hiff.mpr hd)]
  · rw [udpIn, udpIn, if_neg hd, if_neg fun hd' => hd (hiff.mp hd')]

/-- What no frame changes. -/
structure Steady (s s' : Host) : Prop where
  ip : s'.ourIp = s.ourIp
  mac : s'.ourMac = s.ourMac
  icmp : s'.icmp.id = s.icmp.id ∧ s'.icmp.seq = s.icmp.seq

theorem Steady.trans {s s' s'' : Host} (h : Steady s s') (h' : Steady s' s'') : Steady s s'' :=
  ⟨h'.ip.trans h.ip, h'.mac.trans h.mac, h'.icmp.1.trans h.icmp.1, h'.icmp.2.trans h.icmp.2⟩

theorem Steady.ok {s s' : Host} (h : Steady s s') (hs : s.icmp.Ok) : s'.icmp.Ok :=
  ⟨h.icmp.1 ▸ hs.1, h.icmp.2 ▸ hs.2⟩

theorem Handled.steady {s s' : Host} {frame : List UInt8} (h : Handled s frame s') :
    Steady s s' ∧ s'.udp = udpAfter s frame := by
  obtain ⟨cache, id, sent, rfl⟩ := h.same
  refine ⟨⟨rfl, rfl, ?_⟩, rfl⟩
  simp only [icmpAfter]
  split <;> exact ⟨rfl, rfl⟩

/-- A full mailbox takes nothing. -/
theorem foldl_offered_full {u : UdpSock} (h : u.len ≠ 0) (ds : List Dgram) :
    ds.foldl offered u = u := by
  induction ds with
  | nil => rfl
  | cons d ds ih =>
    rw [List.foldl_cons, offered, if_neg fun hd => h hd.2.2.1]
    exact ih

/-- An empty one takes the first datagram for its port. -/
theorem foldl_offered {u : UdpSock} (h : u.len = 0) (ds : List Dgram) : ds.foldl offered u =
    match ds.find? fun d => u.port ≠ 0 ∧ d.dport = u.port ∧ d.Fits with
    | some d => deposit u d.bytes d.src
    | none => u := by
  induction ds with
  | nil => rfl
  | cons d ds ih =>
    rw [List.foldl_cons]
    by_cases hd : u.port ≠ 0 ∧ d.dport = u.port ∧ d.Fits
    · have hacc : Accepts u d := ⟨hd.1, hd.2.1, h, hd.2.2⟩
      have hpos : (d.ulen - 8 : Nat) ≠ (0 : Int) := by
        have := hd.2.2.1
        omega
      rw [List.find?_cons_of_pos (by simpa using hd), offered, if_pos hacc,
        foldl_offered_full hpos]
      simp only [deposit, hd.2.2.length]
    · rw [List.find?_cons_of_neg (by simpa using hd), offered,
        if_neg fun hacc => hd ⟨hacc.1, hacc.2.1, hacc.2.2.2⟩]
      exact ih

/-- What frames leave in the mailbox. -/
theorem handleFrames_udp {rounds : Nat} {frames : List (List UInt8)} : ∀ {s s' : Host},
    s.ourMac.length = 6 → s.icmp.Ok → handleFrames rounds s frames = some s' →
    Steady s s' ∧ s'.udp = (frames.filterMap (udpIn s)).foldl offered s.udp := by
  induction frames with
  | nil =>
    intro s s' _ _ h
    cases h
    exact ⟨⟨rfl, rfl, rfl, rfl⟩, rfl⟩
  | cons frame frames ih =>
    intro s s' hmac hicmp h
    obtain ⟨t, ht, h⟩ := Option.bind_eq_some_iff.mp h
    obtain ⟨hst, hudp⟩ := (handleFrame_handled hmac hicmp ht).steady
    obtain ⟨hst', hudp'⟩ := ih (hst.mac ▸ hmac) (hst.ok hicmp) h
    refine ⟨hst.trans hst', ?_⟩
    rw [hudp', hudp, udpIn_congr hst.ip, udpAfter]
    cases hin : udpIn s frame with
    | none => rw [List.filterMap_cons_none hin]
    | some d => rw [List.filterMap_cons_some hin, List.foldl_cons]

/-- A poll finds the datagram that has arrived. -/
theorem handleFrames_arrival {rounds : Nat} {frames : List (List UInt8)} {s s' : Host}
    (hmac : s.ourMac.length = 6) (hicmp : s.icmp.Ok) (hempty : s.udp.len = 0)
    (h : handleFrames rounds s frames = some s') : Steady s s' ∧
      s'.udp = match arrival s s.udp.port frames with
        | some d => deposit s.udp d.bytes d.src
        | none => s.udp := by
  obtain ⟨hst, hudp⟩ := handleFrames_udp hmac hicmp h
  exact ⟨hst, hudp.trans (foldl_offered hempty _)⟩

theorem arrival_fits {s : Host} {port : Nat} {frames : List (List UInt8)} {d : Dgram}
    (h : arrival s port frames = some d) : d.Fits := by
  have := List.find?_some h
  simp only [decide_eq_true_eq] at this
  exact this.2.2

/-- The loop among frames does what the loop of polls does. -/
theorem resolveWait_polls {qid rounds : Nat} {waits : List (List (List UInt8))} :
    ∀ {s s' t : Host} {r : Option Nat}, s.ourMac.length = 6 → s.icmp.Ok → s.udp.len = 0 →
    t.udp = s.udp → resolveWait qid rounds waits s = some (s', r) →
    ∃ t', resolvePolls qid (found s s.udp.port waits) t = some (t', r) ∧ t'.udp = s'.udp := by
  induction waits with
  | nil =>
    intro s s' t r _ _ _ ht h
    cases h
    exact ⟨_, rfl, by simp only [ht]⟩
  | cons frames waits ih =>
    intro s s' t r hmac hicmp hempty ht h
    unfold resolveWait at h
    obtain ⟨u, hu, h⟩ := Option.bind_eq_some_iff.mp h
    obtain ⟨hst, hudp⟩ := handleFrames_arrival hmac hicmp hempty hu
    have hfound : ∀ port, found u port waits = found s port waits := fun port => by
      simp only [found, arrival, udpIn_congr hst.ip]
    have hfound' : ∀ port v, found { u with udp := v } port waits = found s port waits :=
      fun port v => by
        have hip : ({ u with udp := v } : Host).ourIp = s.ourIp := hst.ip
        simp only [found, arrival, udpIn_congr hip]
    cases harr : arrival s s.udp.port frames with
    | none =>
      rw [harr] at hudp
      simp only at hudp
      rw [hudp, hempty, if_neg (by decide)] at h
      obtain ⟨t', ht', heq⟩ := ih (hst.mac ▸ hmac) (hst.ok hicmp) (hudp ▸ hempty)
        (ht.trans hudp.symm) h
      refine ⟨t', ?_, heq⟩
      rw [found, List.map_cons, harr, Option.map_none, resolvePolls, ← ht', hudp, hfound]
      rfl
    | some d =>
      rw [harr] at hudp
      simp only at hudp
      have hlen : 0 < d.bytes.length := by
        have hfits := arrival_fits harr
        rw [hfits.length]
        exact Nat.sub_pos_of_lt hfits.1
      have hpos : 0 < u.udp.len := by
        rw [hudp]
        exact Int.natCast_pos.mpr hlen
      have hnat : u.udp.len.toNat = d.bytes.length := by
        rw [hudp]
        rfl
      rw [if_pos hpos, hnat, hudp] at h
      obtain ⟨a, hread, h⟩ := Option.bind_eq_some_iff.mp h
      rw [found, List.map_cons, harr, Option.map_some, resolvePolls, ht]
      simp only [hread, Option.bind_eq_bind, Option.bind_some]
      cases a with
      | some ip =>
        cases h
        exact ⟨_, rfl, rfl⟩
      | none =>
        obtain ⟨v, hv⟩ : ∃ v : UdpSock, v = { deposit s.udp d.bytes d.src with len := 0 } := ⟨_, rfl⟩
        have hrest : resolveWait qid rounds waits { u with udp := v } = some (s', r) := hv ▸ h
        obtain ⟨t', ht', heq⟩ := ih (s := { u with udp := v })
          (t := { t with udp := v }) (by exact hst.mac ▸ hmac)
          (by exact hst.ok hicmp) (by rw [hv]) rfl hrest
        refine ⟨t', ?_, heq⟩
        rw [hfound', show v.port = s.udp.port by rw [hv]; rfl] at ht'
        rw [← ht', ← hv]
        rfl

/-! ## What is read -/

section stale

variable (d stale : List UInt8)

theorem word_append {i : Nat} (h : i + 2 ≤ d.length) : word (d ++ stale) i = word d i := by
  rw [word, word, List.getElem?_append_left (by omega), List.getElem?_append_left (by omega)]

theorem skipRound_append : skipRound (d ++ stale) d.length = skipRound d d.length := by
  funext i
  unfold skipRound
  split
  · next hi => rw [List.getElem?_append_left hi]
  · rfl

theorem skipOwner_append {i : Nat} (h : i < d.length) :
    skipOwner (d ++ stale) d.length i = skipOwner d d.length i := by
  rw [skipOwner, skipOwner, List.getElem?_append_left h, skipLabels, skipLabels, skipRound_append]

theorem answerRound_append (ancount : Nat) :
    answerRound (d ++ stale) d.length ancount = answerRound d d.length ancount := by
  funext ⟨a, i⟩
  simp only [answerRound, Option.bind_eq_bind, Option.pure_def]
  by_cases hgo : a < ancount ∧ i + 12 ≤ d.length
  · rw [if_pos hgo, if_pos hgo, skipOwner_append d stale (by omega)]
    refine congrArg (fun f => (skipOwner d d.length i).bind f) (funext fun j => ?_)
    by_cases hshort : d.length < j + 10
    · rw [if_pos hshort, if_pos hshort]
    · rw [if_neg hshort, if_neg hshort, word_append d stale (by omega),
        word_append d stale (by omega)]
      refine congrArg (fun f => (word d j).bind f) (funext fun type => ?_)
      refine congrArg (fun f => (word d (j + 8)).bind f) (funext fun rdlen => ?_)
      by_cases hrec : type = 1 ∧ rdlen = 4 ∧ j + 10 + 4 ≤ d.length
      · rw [if_pos hrec, if_pos hrec, get32, get32, field, field, List.length_append,
          if_pos (by omega), if_pos hrec.2.2, List.drop_append_of_le_length (by omega),
          List.take_append_of_le_length (by rw [List.length_drop]; omega)]
      · rw [if_neg hrec, if_neg hrec]
  · rw [if_neg hgo, if_neg hgo]

/-- What the mailbox has kept of earlier datagrams is not read. -/
theorem readAnswer_append (qid : Nat) :
    readAnswer (d ++ stale) d.length qid = readAnswer d d.length qid := by
  unfold readAnswer
  split
  · rw [word_append d stale (by omega), word_append d stale (by omega), skipLabels, skipLabels,
      skipRound_append]
    simp only [answerRound_append]
  · rfl

end stale

/-- The datagram answers the query. -/
def Replies (qid : Nat) (d : List UInt8) : Bool := ((readAnswer d d.length qid).getD none).isSome

/-- The first datagram that does, with its sender. -/
def firstReply (qid : Nat) (polls : List (Option (List UInt8 × Nat))) :
    Option (List UInt8 × Nat) := polls.reduceOption.find? fun d => Replies qid d.1

/-- The mailbox holds this datagram. -/
def Kept (u : UdpSock) (d : List UInt8 × Nat) : Prop := u.data.take d.1.length = d.1 ∧ u.srcIp = d.2

/-- The loop returns what the first datagram says that answers, and leaves it in the mailbox. -/
theorem resolvePolls_first {qid : Nat} {polls : List (Option (List UInt8 × Nat))} :
    ∀ {s s' : Host} {r : Option Nat}, resolvePolls qid polls s = some (s', r) →
    match r with
    | some ip => ∃ d, firstReply qid polls = some d ∧ Kept s'.udp d ∧
        readAnswer d.1 d.1.length qid = some (some ip)
    | none => firstReply qid polls = none := by
  induction polls with
  | nil =>
    intro s s' r h
    cases h
    rfl
  | cons o polls ih =>
    intro s s' r h
    cases o with
    | none => exact ih h
    | some d =>
      obtain ⟨d, src⟩ := d
      unfold resolvePolls at h
      obtain ⟨a, hread, h⟩ := Option.bind_eq_some_iff.mp h
      rw [deposit, readAnswer_append] at hread
      have hred : (some (d, src) :: polls).reduceOption = (d, src) :: polls.reduceOption := rfl
      rw [firstReply, hred]
      cases a with
      | some ip =>
        cases h
        have hrep : Replies qid d = true := by rw [Replies, hread]; rfl
        exact ⟨(d, src), List.find?_cons_of_pos hrep, ⟨List.take_left, rfl⟩, hread⟩
      | none =>
        have hrep : ¬ Replies qid d = true := by rw [Replies, hread]; exact Bool.noConfusion
        rw [List.find?_cons_of_neg (p := fun d : List UInt8 × Nat => Replies qid d.1) hrep]
        exact ih h

/-- An answer has the id of the query. -/
theorem readAnswer_id {d : List UInt8} {qid ip : Nat}
    (h : readAnswer d d.length qid = some (some ip)) : word d 0 = some qid := by
  unfold readAnswer at h
  split at h
  · obtain ⟨id, hid, h⟩ := Option.bind_eq_some_iff.mp h
    split at h
    · next heq => rw [hid, heq]
    · cases h
  · cases h

/-! ## The call -/

/-- The call sends a query. -/
def Asks (s : Host) (name : List UInt8) : Prop :=
  s.configured = true ∧ s.ourDns ≠ 0 ∧ ∃ labels, queryLabels name = some (some labels)

/-- Before the loop the mailbox is open and empty, or the call gives up. -/
theorem resolveOpen_same {s : Host} (hmac : s.ourMac.length = 6) {caches : List (List ArpEntry)}
    {ticks : Nat} {name : List UInt8} {o : Option Host}
    (h : resolveOpen s caches ticks name = some o) : match o with
      | none => ¬ Asks s name
      | some t => Asks s name ∧ Steady s t ∧
          t.udp = { s.udp with port := s.eport, len := 0 } := by
  unfold resolveOpen at h
  split at h
  · next hoff =>
    cases h
    rintro ⟨hconf, hdns, -⟩
    rcases hoff with hoff | hoff
    · rw [hconf] at hoff
      cases hoff
    · exact hdns hoff
  · next hon =>
    obtain ⟨labels, hlabels, h⟩ := Option.bind_eq_some_iff.mp h
    cases labels with
    | none =>
      cases h
      rintro ⟨-, -, labels, hsome⟩
      rw [hlabels] at hsome
      cases hsome
    | some labels =>
      obtain ⟨t, hsend, h⟩ := Option.bind_eq_some_iff.mp h
      cases h
      unfold udpSend at hsend
      obtain ⟨pkt, -, hsend⟩ := Option.bind_eq_some_iff.mp hsend
      obtain ⟨cache, id, sent, rfl⟩ := ipSend_same (by exact hmac) hsend
      rw [not_or, Bool.not_eq_false] at hon
      exact ⟨⟨hon.1, hon.2, labels, hlabels⟩, ⟨rfl, rfl, rfl, rfl⟩, rfl⟩

/-- In a call that returns, among any frames from any hosts, the address comes from a datagram of
    the DNS server with the id of the query, which the mailbox still holds, if and only if the
    first datagram for the port that answers the query comes from that server. -/
theorem netResolve_authentic_iff (s : Host) (hs : s.Ok) (hicmp : s.icmp.Ok)
    (caches : List (List ArpEntry)) (rounds ticks : Nat) (name : List UInt8)
    (hname : strToIp name = none) (waits : List (List (List UInt8))) (s' : Host) (r : Option Nat)
    (hrun : netResolveAmong s caches rounds ticks name waits = some (s', r)) :
    (∀ ip, r = some ip → ∃ d, some d ∈ found s s.eport waits ∧ Kept s'.udp d ∧
      readAnswer d.1 d.1.length (ticks % 65536) = some (some ip) ∧
      word d.1 0 = some (ticks % 65536) ∧ d.2 = s.ourDns) ↔
    (Asks s name → ∀ d, firstReply (ticks % 65536) (found s s.eport waits) = some d →
      d.2 = s.ourDns) := by
  rw [netResolveAmong, hname] at hrun
  obtain ⟨o, ho, hrun⟩ := Option.bind_eq_some_iff.mp hrun
  have hopen := resolveOpen_same hs.mac ho
  cases o with
  | none =>
    cases hrun
    exact iff_of_true nofun fun hasks => absurd hasks hopen
  | some t =>
    obtain ⟨hasks, hst, hudp⟩ := hopen
    obtain ⟨t', hpolls, heq⟩ := resolveWait_polls (hst.mac ▸ hs.mac) (hst.ok hicmp)
      (by rw [hudp]) rfl hrun
    have hfound : found t t.udp.port waits = found s s.eport waits := by
      rw [hudp]
      simp only [found, arrival, udpIn_congr hst.ip]
    rw [hfound] at hpolls
    have hfirst := resolvePolls_first hpolls
    rw [heq] at hfirst
    cases r with
    | none => exact iff_of_true nofun fun _ d hd => by rw [hfirst] at hd; cases hd
    | some ip =>
      obtain ⟨d, hd, hkept, hread⟩ := hfirst
      constructor
      · intro h _ d₁ hd₁
        rw [hd] at hd₁
        cases hd₁
        obtain ⟨d₂, -, hkept₂, -, -, hsrc⟩ := h ip rfl
        exact hkept.2.symm.trans (hkept₂.2.trans hsrc)
      · rintro h ip' hip
        cases hip
        have hmem : d ∈ (found s s.eport waits).reduceOption := List.mem_of_find?_eq_some hd
        exact ⟨d, List.reduceOption_mem_iff.mp hmem, hkept, hread, readAnswer_id hread,
          h hasks d hd⟩

/-- A response from this host to the query with the id 7 from the port 49152. -/
def replyFrom (src : List UInt8) : List UInt8 :=
  ethFrame demoHost.ourMac [0x52, 0x55, 10, 0, 2, 3] ethIp (ipPkt 1 ipProtoUdp (leNat src)
    demoHost.ourIp (udpPkt 53 49152 (sampleResponse ⟨[], .pointer 12⟩).bytes))

/-- `a.b` is asked for, and this host answers. -/
def sampleCall (src : List UInt8) : Option (Host × Option Nat) :=
  netResolveAmong demoHost [[⟨leNat [10, 0, 2, 3], [0x52, 0x55, 10, 0, 2, 3], true⟩]] 0 7
    [97, 46, 98] [[], [replyFrom src]]

/-- The server's answer is taken. -/
theorem netResolve_authentic_server : ∃ s', sampleCall [10, 0, 2, 3] =
      some (s', some (leNat [93, 184, 216, 34])) ∧
    ∃ d, some d ∈ found demoHost 49152 [[], [replyFrom [10, 0, 2, 3]]] ∧ Kept s'.udp d ∧
      d.2 = demoHost.ourDns := by
  obtain ⟨⟨s', r⟩, hrun⟩ : ∃ c, sampleCall [10, 0, 2, 3] = some c :=
    Option.isSome_iff_exists.mp (by decide +kernel)
  have hr : r = some (leNat [93, 184, 216, 34]) := by
    have h : (sampleCall [10, 0, 2, 3]).map Prod.snd = some (some (leNat [93, 184, 216, 34])) := by
      decide +kernel
    rw [hrun] at h
    exact Option.some.inj h
  refine ⟨s', hr ▸ hrun, ?_⟩
  obtain ⟨d, hmem, hkept, -, -, hsrc⟩ := (netResolve_authentic_iff demoHost ok_demoHost
    ⟨by decide, by decide⟩ _ 0 7 [97, 46, 98] (by decide) _ s' r hrun).mpr
    (fun _ => by decide +kernel) _ hr
  exact ⟨d, hmem, hkept, hsrc⟩

/-- So is that of the host 10.0.2.66. -/
theorem netResolve_takes_foreign : demoHost.Ok ∧ strToIp [97, 46, 98] = none ∧
    ∃ s' ip, sampleCall [10, 0, 2, 66] = some (s', some ip) ∧
      ¬ ∃ d, some d ∈ found demoHost 49152 [[], [replyFrom [10, 0, 2, 66]]] ∧ Kept s'.udp d ∧
        d.2 = demoHost.ourDns := by
  refine ⟨ok_demoHost, by decide, ?_⟩
  obtain ⟨⟨s', r⟩, hrun⟩ : ∃ c, sampleCall [10, 0, 2, 66] = some c :=
    Option.isSome_iff_exists.mp (by decide +kernel)
  have hr : r = some (leNat [93, 184, 216, 34]) := by
    have h : (sampleCall [10, 0, 2, 66]).map Prod.snd = some (some (leNat [93, 184, 216, 34])) := by
      decide +kernel
    rw [hrun] at h
    exact Option.some.inj h
  refine ⟨s', _, hr ▸ hrun, ?_⟩
  rintro ⟨d, hmem, -, hsrc⟩
  have hall : ∀ o ∈ found demoHost 49152 [[], [replyFrom [10, 0, 2, 66]]], ∀ d ∈ o,
      d.2 ≠ demoHost.ourDns := by decide +kernel
  exact hall _ hmem d rfl hsrc

end ChocoOs.Net
