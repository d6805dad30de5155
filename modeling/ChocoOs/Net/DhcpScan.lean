import ChocoOs.Net.DhcpSafety

/-!
# Scanning received options

Three loops look through the options of a datagram: `dhcp_wait` through those in the mailbox,
`net_dhcp` and `dhcp_parse_opts` through the copy of at most 312 bytes. They check the two bytes of
an option's head, but not that its value has arrived. A reader that knows the received bytes only
is `none` where a loop goes beyond them.
-/

namespace ChocoOs.Net
open ProgLib

/-! ## Where a scan reads -/

/-- An option that can be told from padding and from the end, and whose length fits in a byte. -/
def DhcpOpt.Framed : DhcpOpt → Prop
  | .pad => True
  | .opt code value => code ≠ 0 ∧ code ≠ 255 ∧ value.length < 256

/-- How many bytes of a value `dhcp_wait` looks at. -/
def typeNeed (code _n : UInt8) : Nat := if code = 53 then 1 else 0

/-- How many bytes of a value `net_dhcp` copies. -/
def serverNeed (code _n : UInt8) : Nat := if code = 54 then 4 else 0

/-- How many bytes of a value `dhcp_parse_opts` copies. -/
def addrNeed (code n : UInt8) : Nat := if (code = 1 ∨ code = 3 ∨ code = 6) ∧ 4 ≤ n then 4 else 0

/-- Complete options, then the head of one of whose value too little has been received. -/
def Truncated (need : UInt8 → UInt8 → Nat) (received : List UInt8) : Prop :=
  ∃ before code n value, (∀ it ∈ before, DhcpOpt.Framed it) ∧ code ≠ 0 ∧ code ≠ 255 ∧
    received = optBytes before ++ code :: n :: value ∧ value.length < need code n

/-- The three scans of the options of a datagram end, whatever lies behind the options, and read
    none of what lies there. -/
structure DhcpScansSafe (received : List UInt8) : Prop where
  terminates : ∀ (mem : Nat → UInt8) (old : NetConfig),
    messageType (fun i => some (mem i)) received.length ≠ none ∧
    serverId (fun i => some (mem i)) (received.take optsSize).length ≠ none ∧
    dhcpParseOpts (fun i => some (mem i)) (received.take optsSize).length old ≠ none
  type : messageType (received[·]?) received.length ≠ none
  server : serverId ((received.take optsSize)[·]?) (received.take optsSize).length ≠ none
  params : ∀ old,
    dhcpParseOpts ((received.take optsSize)[·]?) (received.take optsSize).length old ≠ none

section bounds

variable {α : Type} {f : Nat → α → Option α} {need : UInt8 → UInt8 → Nat} {received : List UInt8}

/-- A scan ends if the steps on single options do. -/
theorem scanOpts_total (mem : Nat → UInt8) (olen : Nat) (hf : ∀ i a, f i a ≠ none) (a : α) :
    scanOpts (fun i => some (mem i)) olen f a ≠ none := by
  obtain ⟨r, hr, -⟩ := loop_total (scanRound (fun i => some (mem i)) olen f) (fun _ => True)
    (fun _ => True) (fun s => olen - s.1) (by
      intro (i, a) _
      by_cases hlt : i + 1 < olen
      · by_cases hend : mem i = 255
        · exact .inl ⟨a, scanRound_end hlt (by rw [hend]), trivial⟩
        · right
          by_cases hpad : mem i = 0
          · refine ⟨_, scanRound_pad hlt (by rw [hpad]), trivial, ?_⟩
            show olen - (i + 1) < olen - i
            omega
          · obtain ⟨a', ha'⟩ := Option.ne_none_iff_exists'.mp (hf i a)
            refine ⟨(i + (2 + (mem (i + 1)).toNat), a'), ?_, trivial, ?_⟩
            · rw [scanRound_opt hlt rfl hpad hend rfl, ha']
              rfl
            · show olen - (i + (2 + (mem (i + 1)).toNat)) < olen - i
              omega
      · exact .inl ⟨a, if_neg hlt, trivial⟩) (olen + 1) (0, a) trivial (Nat.lt_succ_self _)
  rw [scanOpts, hr]
  exact Option.some_ne_none r

/-- A scan goes wrong at a truncated option. -/
theorem loop_truncated {rest : List UInt8}
    (hf : ∀ i a code n, received[i]? = some code → received[i + 1]? = some n →
      received.length < i + 2 + need code n → f i a = none)
    {items : List DhcpOpt} (hok : ∀ it ∈ items, it.Framed) {code n : UInt8} (hcode : code ≠ 0)
    (hcode' : code ≠ 255) (hshort : rest.length < need code n) :
    ∀ (before : List UInt8) (a : α) (fuel : Nat),
      received = before ++ optBytes items ++ code :: n :: rest →
      loop (scanRound (received[·]?) received.length f) fuel (before.length, a) = none := by
  induction items with
  | nil =>
    intro before a fuel hreceived
    rw [optBytes, List.flatMap_nil, List.append_nil] at hreceived
    have hlen := congrArg List.length hreceived
    rw [List.length_append, List.length_cons, List.length_cons] at hlen
    have h0 : received[before.length]? = some code := getElem?_at hreceived rfl
    have h1 : received[before.length + 1]? = some n :=
      getElem?_at (show received = before ++ [code] ++ n :: rest by
        rw [hreceived, List.append_assoc]; rfl) (by rw [List.length_append]; rfl)
    cases fuel with
    | zero => rfl
    | succ fuel =>
      rw [loop, scanRound_opt (by omega) h0 hcode hcode' h1, hf _ a _ _ h0 h1 (by omega)]
      rfl
  | cons it items ih =>
    intro before a fuel hreceived
    have hsplit : received = before ++ it.bytes ++ (optBytes items ++ code :: n :: rest) := by
      rw [hreceived, optBytes_cons]
      simp only [List.append_assoc]
    have hlen := congrArg List.length hsplit
    simp only [List.length_append, List.length_cons] at hlen
    cases fuel with
    | zero => rfl
    | succ fuel =>
      have hnext : ∀ a, loop (scanRound (received[·]?) received.length f) fuel
          (before.length + it.bytes.length, a) = none := by
        intro a
        rw [← List.length_append]
        exact ih (fun it hit => hok it (List.mem_cons_of_mem _ hit)) _ a fuel
          (by rw [hsplit]; simp only [List.append_assoc])
      cases it with
      | pad =>
        have h0 : received[before.length]? = some 0 :=
          getElem?_at (by rw [hsplit, List.append_assoc]; rfl) rfl
        rw [loop_of_next (scanRound_pad (by omega) h0)]
        exact hnext a
      | opt code' value =>
        obtain ⟨h0', h255, hval⟩ := hok _ (List.mem_cons_self ..)
        obtain ⟨h0, h1, -⟩ := getElem?_opt hsplit
        have hlt : before.length + 1 < received.length := by omega
        have hround := scanRound_opt (f := f) (a := a) hlt h0 h0' h255 h1
        rw [UInt8.toNat_ofNat', Nat.mod_eq_of_lt hval, ← length_bytes_opt code'] at hround
        cases hfa : f before.length a with
        | none =>
          rw [hfa] at hround
          rw [loop, hround]
          rfl
        | some a' =>
          rw [hfa] at hround
          rw [loop_of_next hround]
          exact hnext a'

/-- An option at `i`, and what has been received behind its head. -/
theorem received_split {i : Nat} {code n : UInt8} (h0 : received[i]? = some code)
    (h1 : received[i + 1]? = some n) :
    received = received.take i ++ code :: n :: received.drop (i + 2) := by
  obtain ⟨hi, h0⟩ := List.getElem?_eq_some_iff.mp h0
  obtain ⟨hi', h1⟩ := List.getElem?_eq_some_iff.mp h1
  have hdrop : received.drop i = code :: n :: received.drop (i + 2) := by
    rw [List.drop_eq_getElem_cons hi, List.drop_eq_getElem_cons hi', h0, h1]
  rw [← hdrop, List.take_append_drop]

/-- Complete options lie before the cursor, or the cursor is behind what has been received. -/
def ScanAt (received : List UInt8) (i : Nat) : Prop :=
  received.length < i ∨ ∃ before, (∀ it ∈ before, DhcpOpt.Framed it) ∧ optBytes before = received.take i

theorem scanAt_append {i : Nat} {before : List DhcpOpt} (it : DhcpOpt)
    (hok : ∀ it ∈ before, it.Framed) (hbefore : optBytes before = received.take i) (hit : it.Framed)
    (hbytes : it.bytes = (received.drop i).take it.bytes.length) :
    ScanAt received (i + it.bytes.length) := by
  refine .inr ⟨before ++ [it], fun it' h => ?_, ?_⟩
  · rcases List.mem_append.mp h with h | h
    · exact hok it' h
    · rw [List.mem_singleton.mp h]
      exact hit
  · rw [optBytes_append, hbefore, List.take_add, ← hbytes, optBytes, List.flatMap_singleton]

theorem scanAt_pad {i : Nat} {before : List DhcpOpt} (hok : ∀ it ∈ before, it.Framed)
    (hbefore : optBytes before = received.take i) (h : received[i]? = some 0) :
    ScanAt received (i + 1) := by
  obtain ⟨hi, h⟩ := List.getElem?_eq_some_iff.mp h
  apply scanAt_append .pad hok hbefore trivial
  rw [List.drop_eq_getElem_cons hi, h]
  rfl

theorem scanAt_opt {i : Nat} {before : List DhcpOpt} {code n : UInt8} (hok : ∀ it ∈ before, it.Framed)
    (hbefore : optBytes before = received.take i) (hcode : code ≠ 0) (hcode' : code ≠ 255)
    (h0 : received[i]? = some code) (h1 : received[i + 1]? = some n) :
    ScanAt received (i + (2 + n.toNat)) := by
  have hn := n.toNat_lt
  by_cases hfit : i + (2 + n.toNat) ≤ received.length
  · have hvalue : ((received.drop (i + 2)).take n.toNat).length = n.toNat := by
      rw [List.length_take, List.length_drop]
      omega
    have hlen := length_bytes_opt code ((received.drop (i + 2)).take n.toNat)
    rw [hvalue] at hlen
    rw [← hlen]
    apply scanAt_append (.opt code _) hok hbefore ⟨hcode, hcode', by omega⟩
    rw [hlen, DhcpOpt.bytes, hvalue, UInt8.ofNat_toNat]
    have hdrop : received.drop i = code :: n :: received.drop (i + 2) := by
      have h := congrArg (List.drop i) (received_split h0 h1)
      rwa [List.drop_left' (by rw [List.length_take]; omega)] at h
    rw [hdrop, Nat.add_comm 2]
    rfl
  · exact .inl (by omega)

/-- A scan whose steps look at `need` bytes of each value stays within the received bytes exactly if
    no option is truncated. -/
theorem scanOpts_bounded_iff
    (hf : ∀ i a code n, received[i]? = some code → received[i + 1]? = some n →
      (f i a = none ↔ received.length < i + 2 + need code n)) (a : α) :
    scanOpts (received[·]?) received.length f a ≠ none ↔ ¬ Truncated need received := by
  constructor
  · rintro hscan ⟨before, code, n, value, hok, hcode, hcode', hreceived, hshort⟩
    apply hscan
    exact loop_truncated (fun i a code n h0 h1 => (hf i a code n h0 h1).mpr) hok hcode hcode' hshort
      [] a _ hreceived
  · intro hcut
    obtain ⟨r, hr, -⟩ := loop_total (scanRound (received[·]?) received.length f)
      (fun s => ScanAt received s.1) (fun _ => True) (fun s => received.length - s.1) (by
        intro (i, a) hinv
        by_cases hlt : i + 1 < received.length
        · obtain hpast | ⟨before, hok, hbefore⟩ := hinv
          · exact absurd hpast (Nat.not_lt.mpr (Nat.le_of_succ_le (Nat.le_of_lt hlt)))
          have h0 : received[i]? = some received[i] := List.getElem?_eq_getElem (Nat.lt_of_succ_lt hlt)
          have h1 : received[i + 1]? = some received[i + 1] := List.getElem?_eq_getElem hlt
          by_cases hend : received[i] = 255
          · exact .inl ⟨a, scanRound_end hlt (by rw [h0, hend]), trivial⟩
          right
          by_cases hpad : received[i] = 0
          · rw [hpad] at h0
            refine ⟨_, scanRound_pad hlt h0, scanAt_pad hok hbefore h0, ?_⟩
            exact Nat.sub_lt_sub_left (Nat.lt_of_succ_lt hlt) (Nat.lt_succ_self i)
          -- Were too little left of the value, the option would be truncated.
          have hfa : f i a ≠ none := by
            rw [Ne, hf i a _ _ h0 h1]
            intro hshort
            refine hcut ⟨before, received[i], received[i + 1], received.drop (i + 2), hok, hpad, hend,
              ?_, ?_⟩
            · rw [hbefore, ← received_split h0 h1]
            · rw [List.length_drop]
              omega
          obtain ⟨a', ha'⟩ := Option.ne_none_iff_exists'.mp hfa
          refine ⟨(i + (2 + received[i + 1].toNat), a'), ?_, scanAt_opt hok hbefore hpad hend h0 h1, ?_⟩
          · rw [scanRound_opt hlt h0 hpad hend h1, ha']
            rfl
          · exact Nat.sub_lt_sub_left (Nat.lt_of_succ_lt hlt) (Nat.lt_add_of_pos_right (by omega))
        · exact .inl ⟨a, if_neg hlt, trivial⟩) (received.length + 1) (0, a)
      (.inr ⟨[], fun _ h => absurd h List.not_mem_nil, rfl⟩) (Nat.lt_succ_self _)
    rw [scanOpts, hr]
    exact Option.some_ne_none r

theorem addr4_eq_none_iff (i : Nat) : addr4 (received[·]?) i = none ↔ received.length < i + 4 := by
  constructor
  · intro h
    by_contra hfit
    have haddr := @addr4_value (received[·]?) i (received.drop i) (by rw [List.length_drop]; omega)
      fun k _ => List.getElem?_drop.symm
    rw [h] at haddr
    cases haddr
  · intro h
    have hlast : received[i + 3]? = none := List.getElem?_eq_none (by omega)
    rw [addr4, hlast]
    cases received[i]? <;> cases received[i + 1]? <;> cases received[i + 2]? <;> rfl

end bounds

theorem messageType_bounded_iff (received : List UInt8) :
    messageType (received[·]?) received.length ≠ none ↔ ¬ Truncated typeNeed received := by
  apply scanOpts_bounded_iff
  intro i type code n h0 h1
  have hlt := (List.getElem?_eq_some_iff.mp h1).1
  simp only [h0, Option.bind_eq_bind, Option.bind_some, typeNeed]
  by_cases h53 : code = 53
  · rw [if_pos h53, if_pos h53, List.getElem?_eq_none_iff, Nat.lt_succ_iff]
  · rw [if_neg h53, if_neg h53]
    exact iff_of_false (Option.some_ne_none _) (Nat.not_lt.mpr hlt)

theorem serverId_bounded_iff (received : List UInt8) :
    serverId (received[·]?) received.length ≠ none ↔ ¬ Truncated serverNeed received := by
  apply scanOpts_bounded_iff
  intro i server code n h0 h1
  have hlt := (List.getElem?_eq_some_iff.mp h1).1
  simp only [h0, Option.bind_eq_bind, Option.bind_some, serverNeed]
  by_cases h54 : code = 54
  · rw [if_pos h54, if_pos h54, addr4_eq_none_iff]
  · rw [if_neg h54, if_neg h54]
    exact iff_of_false (Option.some_ne_none _) (Nat.not_lt.mpr hlt)

theorem dhcpParseOpts_bounded_iff (received : List UInt8) (old : NetConfig) :
    dhcpParseOpts (received[·]?) received.length old ≠ none ↔ ¬ Truncated addrNeed received := by
  apply scanOpts_bounded_iff
  intro i c code n h0 h1
  have hlt := (List.getElem?_eq_some_iff.mp h1).1
  have hn : UInt8.ofNat (List.replicate n.toNat (0 : UInt8)).length = n := by
    rw [List.length_replicate, UInt8.ofNat_toNat]
  have hset : SetsAddr code (List.replicate n.toNat 0) ↔ (code = 1 ∨ code = 3 ∨ code = 6) ∧ 4 ≤ n := by
    rw [SetsAddr, List.length_replicate, UInt8.le_iff_toNat_le]
    rfl
  -- Only the length of the value decides what the step does.
  rw [parseOption_eq (show (List.replicate n.toNat (0 : UInt8)).length < 256 by
    rw [List.length_replicate]; exact n.toNat_lt) h0 (by rw [hn]; exact h1), addrNeed]
  by_cases h : (code = 1 ∨ code = 3 ∨ code = 6) ∧ 4 ≤ n
  · rw [if_pos (hset.mpr h), if_pos h, Option.map_eq_none_iff, addr4_eq_none_iff]
  · rw [if_neg (mt hset.mp h), if_neg h]
    exact iff_of_false (Option.some_ne_none _) (Nat.not_lt.mpr hlt)

/-- The scans end for every datagram. -/
theorem scans_terminate (mem : Nat → UInt8) (olen olen' : Nat) (old : NetConfig) :
    messageType (fun i => some (mem i)) olen ≠ none ∧
    serverId (fun i => some (mem i)) olen' ≠ none ∧
    dhcpParseOpts (fun i => some (mem i)) olen' old ≠ none := by
  refine ⟨scanOpts_total mem olen (fun i a => ?_) 0, scanOpts_total mem olen' (fun i a => ?_) 0,
    scanOpts_total mem olen' (fun i c => ?_) old⟩
  · rw [Option.bind_eq_bind, Option.bind_some]
    split <;> exact Option.some_ne_none _
  · rw [Option.bind_eq_bind, Option.bind_some]
    split <;> exact Option.some_ne_none _
  · rw [parseOption, Option.bind_eq_bind, Option.bind_some, Option.bind_eq_bind, Option.bind_some]
    split
    · exact Option.some_ne_none _
    · split
      · exact Option.some_ne_none _
      · split <;> exact Option.some_ne_none _

/-- The scans stay within what has been received exactly if no option is truncated whose value they
    look at. -/
theorem dhcpScans_safe_iff (received : List UInt8) : DhcpScansSafe received ↔
    ¬ Truncated typeNeed received ∧ ¬ Truncated serverNeed (received.take optsSize) ∧
      ¬ Truncated addrNeed (received.take optsSize) := by
  constructor
  · intro h
    exact ⟨(messageType_bounded_iff _).mp h.type, (serverId_bounded_iff _).mp h.server,
      (dhcpParseOpts_bounded_iff _ ⟨0, 0, 0⟩).mp (h.params _)⟩
  · rintro ⟨htype, hserver, haddr⟩
    exact {
      terminates := fun mem old => scans_terminate mem _ _ old
      type := (messageType_bounded_iff _).mpr htype
      server := (serverId_bounded_iff _).mpr hserver
      params := fun old => (dhcpParseOpts_bounded_iff _ old).mpr haddr }

/-- A datagram that ends with the head of a message type. -/
theorem dhcpScans_beyond : ¬ DhcpScansSafe [53, 1] := by
  intro h
  exact h.type (by decide)

/-! ## What the scans find -/

/-- The values of the options with this code, in order. -/
def optValues (code : UInt8) (items : List DhcpOpt) : List (List UInt8) :=
  items.filterMap fun
    | .pad => none
    | .opt code' value => if code' = code then some value else none

/-- The message type: the first byte of the last option 53. -/
def typeOf (items : List DhcpOpt) : UInt8 := (optValues 53 items).getLast?.elim 0 (·.headD 0)

/-- The server: the first four bytes of the last option 54. -/
def serverOf (items : List DhcpOpt) : Nat :=
  (optValues 54 items).getLast?.elim 0 fun value => leNat (value.take 4)

/-- A setting: the first four bytes of the last option with this code that has so many. -/
def settingOf (code : UInt8) (items : List DhcpOpt) (old : Nat) : Nat :=
  ((optValues code items).filter (4 ≤ ·.length)).getLast?.elim old fun value => leNat (value.take 4)

theorem elim_getLast?_cons {α β : Type} (h : β → α) (x : β) (xs : List β) (a : α) :
    (x :: xs).getLast?.elim a h = xs.getLast?.elim (h x) h := by
  rw [List.getLast?_cons]
  cases xs.getLast? <;> rfl

theorem optValues_cons_self (code : UInt8) (value : List UInt8) (items : List DhcpOpt) :
    optValues code (.opt code value :: items) = value :: optValues code items :=
  List.filterMap_cons_some (if_pos rfl)

theorem optValues_cons_ne {code code' : UInt8} (h : code' ≠ code) (value : List UInt8)
    (items : List DhcpOpt) : optValues code (.opt code' value :: items) = optValues code items :=
  List.filterMap_cons_none (if_neg h)

/-- Options that a fold takes something from: it keeps what it finds last. -/
theorem foldl_optValues {α : Type} (code : UInt8) (h : List UInt8 → α) (items : List DhcpOpt) : ∀ a,
    items.foldl (DhcpOpt.fold fun code' value a => if code' = code then h value else a) a =
      (optValues code items).getLast?.elim a h := by
  induction items with
  | nil => exact fun _ => rfl
  | cons it items ih =>
    intro a
    rw [List.foldl_cons, ih]
    cases it with
    | pad => rfl
    | opt code' value =>
      by_cases heq : code' = code
      · subst heq
        rw [optValues_cons_self, elim_getLast?_cons, DhcpOpt.fold, if_pos rfl]
      · rw [optValues_cons_ne heq, DhcpOpt.fold, if_neg heq]

/-- Each setting is folded on its own. -/
theorem get_foldl_put {code : UInt8} (hcode : code = 1 ∨ code = 3 ∨ code = 6) (items : List DhcpOpt) :
    ∀ c : NetConfig, (items.foldl (DhcpOpt.fold fun code' value c =>
      if SetsAddr code' value then c.put code' (leNat (value.take 4)) else c) c).get code =
        settingOf code items (c.get code) := by
  induction items with
  | nil => exact fun _ => rfl
  | cons it items ih =>
    intro c
    rw [List.foldl_cons, ih]
    cases it with
    | pad => rfl
    | opt code' value =>
      rw [settingOf, settingOf, DhcpOpt.fold]
      by_cases heq : code' = code
      · subst heq
        rw [optValues_cons_self]
        by_cases hlong : 4 ≤ value.length
        · rw [if_pos ⟨hcode, hlong⟩, get_put hcode hcode, if_pos rfl,
            List.filter_cons_of_pos (a := value) (decide_eq_true hlong), elim_getLast?_cons]
        · rw [if_neg fun h => hlong h.2, List.filter_cons_of_neg (by simpa using hlong)]
      · rw [optValues_cons_ne heq]
        by_cases hset : SetsAddr code' value
        · rw [if_pos hset, get_put hset.1 hcode, if_neg (Ne.symm heq)]
        · rw [if_neg hset]

section found

variable {o : Nat → Option UInt8} {olen : Nat} {whole rest : List UInt8} {items : List DhcpOpt}

theorem serverId_eq (hwhole : whole = optBytes items ++ rest) (hrest : rest.head? = some 255)
    (hok : ∀ it ∈ items, it.Ok) (h54 : ∀ value, .opt 54 value ∈ items → 4 ≤ value.length)
    (hin : (optBytes items).length ≤ olen) (hlen : olen ≤ whole.length)
    (ho : ∀ j < olen, o j = whole[j]?) : serverId o olen = some (serverOf items) := by
  rw [serverId, scanOpts_eq hwhole (.inr hrest) hok hlen ho, serverOf, ← foldl_optValues]
  refine visit_foldl (fun before code value after a hmem hsplit hfit => ?_) [] hwhole
    (by rw [List.length_nil, Nat.zero_add]; exact hin)
  obtain ⟨h0, -, hvalue⟩ := getElem?_opt hsplit
  rw [← ho _ (by omega)] at h0
  simp only [h0, Option.bind_eq_bind, Option.bind_some, Option.pure_def]
  by_cases hcode : code = 54
  · subst hcode
    have hlong := h54 value hmem
    rw [if_pos rfl, if_pos rfl]
    apply addr4_value hlong
    intro k hk
    rw [ho _ (by omega)]
    exact hvalue k (by omega)
  · rw [if_neg hcode, if_neg hcode]

theorem dhcpParseOpts_eq (hwhole : whole = optBytes items ++ rest) (hrest : rest.head? = some 255)
    (hok : ∀ it ∈ items, it.Ok) (hin : (optBytes items).length ≤ olen) (hlen : olen ≤ whole.length)
    (ho : ∀ j < olen, o j = whole[j]?) (old : NetConfig) : dhcpParseOpts o olen old =
      some ⟨settingOf 1 items old.mask, settingOf 3 items old.gw, settingOf 6 items old.dns⟩ := by
  have hfold : dhcpParseOpts o olen old = some (items.foldl (DhcpOpt.fold fun code value c =>
      if SetsAddr code value then c.put code (leNat (value.take 4)) else c) old) := by
    rw [dhcpParseOpts, scanOpts_eq hwhole (.inr hrest) hok hlen ho]
    refine visit_foldl (fun before code value after c hmem hsplit hfit => ?_) [] hwhole
      (by rw [List.length_nil, Nat.zero_add]; exact hin)
    obtain ⟨-, -, hval, -⟩ := hok _ hmem
    obtain ⟨h0, h1, hvalue⟩ := getElem?_opt hsplit
    rw [← ho _ (by omega)] at h0 h1
    rw [parseOption_eq hval h0 h1]
    by_cases hset : SetsAddr code value
    · have hlong := hset.2
      rw [if_pos hset, if_pos hset, addr4_value hlong fun k hk => by
        rw [ho _ (by omega)]
        exact hvalue k (by omega)]
      rfl
    · rw [if_neg hset, if_neg hset]
  have hget := fun code (hcode : code = 1 ∨ code = 3 ∨ code = 6) => get_foldl_put hcode items old
  have hmask := hget 1 (.inl rfl)
  have hgw := hget 3 (.inr (.inl rfl))
  have hdns := hget 6 (.inr (.inr rfl))
  rw [hfold]
  exact congrArg some (congr (congr (congrArg NetConfig.mk hmask) hgw) hdns)

/-- Options that end within 312 bytes are decoded as they were encoded, whatever follows them in the
    datagram and behind it. -/
theorem dhcp_options_decoded (items : List DhcpOpt) (hok : ∀ it ∈ items, it.Ok)
    (h54 : ∀ value, .opt 54 value ∈ items → 4 ≤ value.length)
    (hfit : (optBytes items).length + 1 ≤ optsSize) (rest : List UInt8)
    (o opts : Nat → Option UInt8) (olen optsLen : Nat)
    (holen : olen = (optBytes items ++ 255 :: rest).length) (hoptsLen : optsLen = min optsSize olen)
    (ho : ∀ j < olen, o j = (optBytes items ++ 255 :: rest)[j]?) (hopts : ∀ j < optsLen, opts j = o j)
    (old : NetConfig) :
    messageType o olen = some (typeOf items) ∧ serverId opts optsLen = some (serverOf items) ∧
    dhcpParseOpts opts optsLen old =
      some ⟨settingOf 1 items old.mask, settingOf 3 items old.gw, settingOf 6 items old.dns⟩ := by
  have hlen : olen = (optBytes items).length + (rest.length + 1) := by
    rw [holen, List.length_append, List.length_cons]
  have hcopy : ∀ j < optsLen, opts j = (optBytes items ++ 255 :: rest)[j]? := by
    intro j hj
    rw [hopts j hj, ho j (by omega)]
  refine ⟨?_, ?_, ?_⟩
  · subst holen
    rw [messageType_eq rfl (.inr rfl) hok ho, lastType_eq_foldl, typeOf, foldl_optValues]
  · exact serverId_eq rfl rfl hok h54 (by omega) (by omega) hcopy
  · exact dhcpParseOpts_eq rfl rfl hok (by omega) (by omega) hcopy old

/-- An acknowledgement whose mask is repeated, with an option that is too short in between. -/
theorem dhcp_options_decoded_sample :
    messageType ([53, 1, 5, 0, 1, 4, 255, 0, 0, 0, 1, 1, 3, 54, 4, 10, 0, 2, 2, 255, 1, 4][·]?) 22 =
      some 5 ∧
    serverId ([53, 1, 5, 0, 1, 4, 255, 0, 0, 0, 1, 1, 3, 54, 4, 10, 0, 2, 2, 255, 1, 4][·]?) 22 =
      some (leNat [10, 0, 2, 2]) ∧
    dhcpParseOpts ([53, 1, 5, 0, 1, 4, 255, 0, 0, 0, 1, 1, 3, 54, 4, 10, 0, 2, 2, 255, 1, 4][·]?) 22
      ⟨0, 0, 0⟩ = some ⟨255, 0, 0⟩ :=
  dhcp_options_decoded [.opt 53 [5], .pad, .opt 1 [255, 0, 0, 0], .opt 1 [3], .opt 54 [10, 0, 2, 2]]
    (by simp [DhcpOpt.Ok]) (by simp) (by decide) [1, 4] _ _ 22 22 rfl rfl (fun _ _ => rfl)
    (fun _ _ => rfl) ⟨0, 0, 0⟩

end found

end ChocoOs.Net
