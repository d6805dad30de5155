import ChocoOs.Net.Resolve

/-!
# DNS responses

A response as RFC 1035 has it, and which responses `net_resolve` reads correctly.
-/

namespace ChocoOs.Net
open ProgLib

/-- How an owner name ends: with a zero byte or with a pointer. -/
inductive NameEnd where
  | root
  | pointer (off : Nat)

/-- An owner name: labels, then its end. -/
structure OwnerName where
  labels : List (List UInt8)
  last : NameEnd

/-- Labels of 1 to 63 bytes, and an offset of 14 bits. -/
def OwnerName.Ok (n : OwnerName) : Prop :=
  (∀ l ∈ n.labels, 1 ≤ l.length ∧ l.length ≤ 63) ∧
    match n.last with
    | .root => True
    | .pointer off => off < 2 ^ 14

def labelBytes (labels : List (List UInt8)) : List UInt8 :=
  labels.flatMap fun l => UInt8.ofNat l.length :: l

def NameEnd.bytes : NameEnd → List UInt8
  | .root => [0]
  | .pointer off => [UInt8.ofNat (0xC0 + off / 256), UInt8.ofNat off]

def OwnerName.bytes (n : OwnerName) : List UInt8 := labelBytes n.labels ++ n.last.bytes

/-- Labels that a pointer ends. -/
def OwnerName.Mixed (n : OwnerName) : Prop := n.labels ≠ [] ∧ n.last ≠ .root

/-- A resource record; `cls` and `ttl` are not read. -/
structure Record where
  owner : OwnerName
  type : Nat
  cls : List UInt8
  ttl : List UInt8
  rdata : List UInt8

/-- An A record has four bytes of data. -/
structure Record.Ok (r : Record) : Prop where
  owner : r.owner.Ok
  type : r.type < 65536
  cls : r.cls.length = 2
  ttl : r.ttl.length = 4
  rdata : r.rdata.length < 65536
  address : r.type = 1 → r.rdata.length = 4

/-- A big-endian 16-bit number. -/
def beBytes (v : Nat) : List UInt8 := [UInt8.ofNat (v / 256), UInt8.ofNat v]

def Record.bytes (r : Record) : List UInt8 :=
  r.owner.bytes ++ beBytes r.type ++ r.cls ++ r.ttl ++ beBytes r.rdata.length ++ r.rdata

/-- A response to a query with one question: its name, type and class, the answers, and whatever
    follows them. -/
structure Response where
  id : Nat
  flags : List UInt8
  counts : List UInt8
  question : List (List UInt8)
  questionType : List UInt8
  answers : List Record
  rest : List UInt8

structure Response.Ok (m : Response) : Prop where
  id : m.id < 65536
  flags : m.flags.length = 2
  counts : m.counts.length = 4
  question : ∀ l ∈ m.question, 1 ≤ l.length ∧ l.length ≤ 63
  questionType : m.questionType.length = 4
  answers : ∀ r ∈ m.answers, r.Ok
  ancount : m.answers.length < 65536

/-- The bytes on the wire; `counts` are the numbers of authority and additional records. -/
def Response.bytes (m : Response) : List UInt8 :=
  beBytes m.id ++ m.flags ++ [0, 1] ++ beBytes m.answers.length ++ m.counts ++
    labelBytes m.question ++ [0] ++ m.questionType ++ m.answers.flatMap Record.bytes ++ m.rest

/-- The address of the first A record. -/
def firstAddress : List Record → Option Nat
  | [] => none
  | r :: rest => if r.type = 1 then some (leNat r.rdata) else firstAddress rest

/-- No owner name up to that of the first A record consists of labels and a pointer. -/
def PlainOwners : List Record → Prop
  | [] => True
  | r :: rest => ¬ r.owner.Mixed ∧ (r.type = 1 ∨ PlainOwners rest)

/-! ## Reading -/

theorem word_at {r pre post : List UInt8} {i v : Nat} (h : r = pre ++ beBytes v ++ post)
    (hi : i = pre.length) (hv : v < 65536) : word r i = some v := by
  have hhi : r[i]? = some (UInt8.ofNat (v / 256)) :=
    getElem?_at (show r = pre ++ UInt8.ofNat (v / 256) :: (UInt8.ofNat v :: post) by
      rw [h, List.append_assoc]; rfl) hi
  have hlo : r[i + 1]? = some (UInt8.ofNat v) :=
    getElem?_at (show r = pre ++ [UInt8.ofNat (v / 256)] ++ UInt8.ofNat v :: post by
      rw [h, List.append_assoc, List.append_assoc]; rfl) (by rw [List.length_append, hi]; rfl)
  simp only [word, hhi, hlo, Option.bind_eq_bind, Option.bind_some, Option.pure_def,
    Option.some.injEq, UInt8.toNat_ofNat']
  omega

/-- A label is jumped over. -/
theorem skipRound_label {r pre l post : List UInt8} {rlen i : Nat}
    (h : r = pre ++ UInt8.ofNat l.length :: l ++ post) (hi : i = pre.length) (hlt : i < rlen)
    (hl : 1 ≤ l.length ∧ l.length ≤ 63) : skipRound r rlen i = some (.next (i + (l.length + 1))) := by
  have hb : r[i]? = some (UInt8.ofNat l.length) :=
    getElem?_at (show r = pre ++ UInt8.ofNat l.length :: (l ++ post) by
      rw [h, List.append_assoc]; rfl) hi
  have hnat : (UInt8.ofNat l.length).toNat = l.length := by
    rw [UInt8.toNat_ofNat']
    omega
  have hne : ¬ UInt8.ofNat l.length = 0 := fun h0 => by
    rw [h0] at hnat
    simp only [UInt8.toNat_zero] at hnat
    omega
  rw [skipRound, if_pos hlt, hb]
  simp only [Option.bind_eq_bind, Option.bind_some, if_neg hne, hnat, Option.pure_def]

/-- The loop over labels arrives behind them. -/
theorem loop_skipRound {r : List UInt8} {rlen : Nat} {labels : List (List UInt8)}
    (hl : ∀ l ∈ labels, 1 ≤ l.length ∧ l.length ≤ 63) : ∀ {pre post : List UInt8} {i fuel : Nat},
    r = pre ++ labelBytes labels ++ post → i = pre.length → i + (labelBytes labels).length ≤ rlen →
    loop (skipRound r rlen) (labels.length + fuel) i =
      loop (skipRound r rlen) fuel (i + (labelBytes labels).length) := by
  induction labels with
  | nil => intro pre post i fuel _ _ _; rw [List.length_nil, Nat.zero_add]; rfl
  | cons l labels ih =>
    intro pre post i fuel h hi hlen
    have hbytes : labelBytes (l :: labels) = UInt8.ofNat l.length :: l ++ labelBytes labels := rfl
    have hsize : (labelBytes (l :: labels)).length = l.length + 1 + (labelBytes labels).length := by
      rw [hbytes, List.length_append, List.length_cons]
    have hlt : i < rlen := by omega
    have hround := skipRound_label (show r = pre ++ UInt8.ofNat l.length :: l ++ (labelBytes labels ++ post)
      by rw [h, hbytes]; simp only [List.append_assoc]) hi hlt (hl l (List.mem_cons_self ..))
    have hrest : loop (skipRound r rlen) (labels.length + fuel) (i + (l.length + 1)) = _ :=
      ih (fun l' hl' => hl l' (List.mem_cons_of_mem l hl'))
        (show r = pre ++ UInt8.ofNat l.length :: l ++ labelBytes labels ++ post by
          rw [h, hbytes]; simp only [List.append_assoc])
        (by rw [List.length_append, List.length_cons, hi]) (by omega)
    rw [List.length_cons, Nat.add_right_comm, loop_of_next hround, hrest, hsize]
    congr 1
    omega

theorem length_le_labelBytes (labels : List (List UInt8)) :
    labels.length ≤ (labelBytes labels).length := by
  induction labels with
  | nil => exact Nat.le_refl 0
  | cons l labels ih =>
    have hbytes : labelBytes (l :: labels) = UInt8.ofNat l.length :: l ++ labelBytes labels := rfl
    rw [hbytes, List.length_append, List.length_cons, List.length_cons]
    omega

/-- It stops at the zero byte behind them. -/
theorem skipLabels_root {r pre post : List UInt8} {rlen i : Nat} {labels : List (List UInt8)}
    (hl : ∀ l ∈ labels, 1 ≤ l.length ∧ l.length ≤ 63)
    (h : r = pre ++ labelBytes labels ++ 0 :: post) (hi : i = pre.length)
    (hlen : i + (labelBytes labels).length < rlen) :
    skipLabels r rlen i = some (i + (labelBytes labels).length) := by
  have hcount := length_le_labelBytes labels
  obtain ⟨fuel, hfuel⟩ := Nat.exists_eq_add_of_le (show labels.length + 1 ≤ rlen + 1 by omega)
  have hb : r[i + (labelBytes labels).length]? = some 0 :=
    getElem?_at h (by rw [List.length_append, hi])
  have hround : skipRound r rlen (i + (labelBytes labels).length) =
      some (.done (i + (labelBytes labels).length)) := by
    rw [skipRound, if_pos hlen, hb]
    rfl
  rw [skipLabels, hfuel, Nat.add_assoc, loop_skipRound hl h hi (by omega), Nat.add_comm 1 fuel,
    loop_of_done hround]

/-- It takes a pointer behind labels for the length of one more label. -/
theorem skipLabels_pointer {r pre post : List UInt8} {rlen i off : Nat} {labels : List (List UInt8)}
    (hl : ∀ l ∈ labels, 1 ≤ l.length ∧ l.length ≤ 63) (hoff : off < 2 ^ 14)
    (h : r = pre ++ labelBytes labels ++ UInt8.ofNat (0xC0 + off / 256) :: post) (hi : i = pre.length)
    (hlen : i + (labelBytes labels).length < rlen)
    (hend : rlen ≤ i + (labelBytes labels).length + 193) :
    ∃ j, skipLabels r rlen i = some j ∧ rlen ≤ j := by
  have hcount := length_le_labelBytes labels
  obtain ⟨fuel, hfuel⟩ := Nat.exists_eq_add_of_le (show labels.length + 2 ≤ rlen + 1 by omega)
  have hb : r[i + (labelBytes labels).length]? = some (UInt8.ofNat (0xC0 + off / 256)) :=
    getElem?_at h (by rw [List.length_append, hi])
  have hnat : (UInt8.ofNat (0xC0 + off / 256)).toNat = 0xC0 + off / 256 := by
    rw [UInt8.toNat_ofNat']
    omega
  have hne : ¬ UInt8.ofNat (0xC0 + off / 256) = 0 := fun h0 => by
    rw [h0] at hnat
    simp only [UInt8.toNat_zero] at hnat
    omega
  have hround : skipRound r rlen (i + (labelBytes labels).length) =
      some (.next (i + (labelBytes labels).length + (0xC0 + off / 256 + 1))) := by
    rw [skipRound, if_pos hlen, hb]
    simp only [Option.bind_eq_bind, Option.bind_some, if_neg hne, hnat, Option.pure_def]
  have hout : ¬ i + (labelBytes labels).length + (0xC0 + off / 256 + 1) < rlen := by omega
  refine ⟨_, ?_, Nat.le_of_not_lt hout⟩
  rw [skipLabels, hfuel, Nat.add_assoc, loop_skipRound hl h hi (by omega),
    show 2 + fuel = fuel + 1 + 1 by omega, loop_of_next hround]
  refine loop_of_done ?_
  rw [skipRound, if_neg hout]

/-! ## Owner names -/

theorem topBits_pointer : ∀ v < 64, UInt8.ofNat (0xC0 + v) &&& 0xC0 = 0xC0 := by decide

theorem topBits_label : ∀ n < 64, UInt8.ofNat n &&& 0xC0 ≠ 0xC0 := by decide

/-- The first byte of a name with labels. -/
theorem labelBytes_head {labels : List (List UInt8)} (hne : labels ≠ [])
    (hl : ∀ l ∈ labels, 1 ≤ l.length ∧ l.length ≤ 63) :
    ∃ b rest, labelBytes labels = b :: rest ∧ b &&& 0xC0 ≠ 0xC0 := by
  obtain ⟨l, ls, rfl⟩ := List.exists_cons_of_ne_nil hne
  have hlen := (hl l (List.mem_cons_self ..)).2
  exact ⟨UInt8.ofNat l.length, l ++ labelBytes ls, rfl, topBits_label _ (by omega)⟩

/-- A name in one of the two plain forms is skipped. -/
theorem skipOwner_plain {r pre post : List UInt8} {rlen i : Nat} {n : OwnerName} (hn : n.Ok)
    (hplain : ¬ n.Mixed) (h : r = pre ++ n.bytes ++ post) (hi : i = pre.length)
    (hlen : i + n.bytes.length ≤ rlen) : skipOwner r rlen i = some (i + n.bytes.length) := by
  obtain ⟨labels, last⟩ := n
  obtain ⟨hl, hlast⟩ := hn
  have hl : ∀ l ∈ labels, 1 ≤ l.length ∧ l.length ≤ 63 := hl
  cases last with
  | pointer off =>
    have hnil : labels = [] := Classical.byContradiction fun hne => hplain ⟨hne, nofun⟩
    subst hnil
    have hb : r[i]? = some (UInt8.ofNat (0xC0 + off / 256)) :=
      getElem?_at (show r = pre ++ UInt8.ofNat (0xC0 + off / 256) :: (UInt8.ofNat off :: post) by
        rw [h, List.append_assoc]; rfl) hi
    have htop := topBits_pointer (off / 256) (by omega)
    rw [skipOwner, hb]
    simp only [Option.bind_eq_bind, Option.bind_some, if_pos htop]
    rfl
  | root =>
    have hbytes : OwnerName.bytes ⟨labels, .root⟩ = labelBytes labels ++ [0] := rfl
    have hsize : (OwnerName.bytes ⟨labels, .root⟩).length = (labelBytes labels).length + 1 := by
      rw [hbytes, List.length_append]
      rfl
    have hr : r = pre ++ labelBytes labels ++ 0 :: post := by
      rw [h, hbytes]
      simp only [List.append_assoc, List.singleton_append]
    obtain ⟨b, hb, htop⟩ : ∃ b, r[i]? = some b ∧ b &&& 0xC0 ≠ 0xC0 := by
      by_cases hne : labels = []
      · subst hne
        exact ⟨0, getElem?_at (show r = pre ++ 0 :: post by rw [hr, List.append_assoc]; rfl) hi,
          by decide⟩
      · obtain ⟨b, rest, hhead, htop⟩ := labelBytes_head hne hl
        exact ⟨b, getElem?_at (show r = pre ++ b :: (rest ++ 0 :: post) by
          rw [hr, hhead, List.append_assoc]; rfl) hi, htop⟩
    rw [skipOwner, hb]
    simp only [Option.bind_eq_bind, Option.bind_some, if_neg htop]
    have hin : i + (labelBytes labels).length < rlen := by omega
    rw [skipLabels_root hl hr hi hin, hsize]
    rfl

/-- Behind a name of the third form the position is lost. -/
theorem skipOwner_mixed {r pre post : List UInt8} {rlen i : Nat} {n : OwnerName} (hn : n.Ok)
    (hmixed : n.Mixed) (h : r = pre ++ n.bytes ++ post) (hi : i = pre.length)
    (hlen : i + n.bytes.length ≤ rlen) (hend : rlen ≤ i + 193) :
    ∃ j, skipOwner r rlen i = some j ∧ rlen < j := by
  obtain ⟨labels, last⟩ := n
  obtain ⟨hl, hlast⟩ := hn
  have hl : ∀ l ∈ labels, 1 ≤ l.length ∧ l.length ≤ 63 := hl
  obtain ⟨hne, hroot⟩ := hmixed
  cases last with
  | root => exact absurd rfl hroot
  | pointer off =>
    have hbytes : OwnerName.bytes ⟨labels, .pointer off⟩ =
        labelBytes labels ++ [UInt8.ofNat (0xC0 + off / 256), UInt8.ofNat off] := rfl
    have hr : r = pre ++ labelBytes labels ++ UInt8.ofNat (0xC0 + off / 256) :: UInt8.ofNat off :: post := by
      rw [h, hbytes]
      simp only [List.append_assoc, List.cons_append, List.nil_append]
    obtain ⟨b, rest, hhead, htop⟩ := labelBytes_head hne hl
    have hb : r[i]? = some b := getElem?_at (show r = pre ++
      b :: (rest ++ UInt8.ofNat (0xC0 + off / 256) :: UInt8.ofNat off :: post) by
        rw [hr, hhead, List.append_assoc]; rfl) hi
    rw [hbytes, List.length_append] at hlen
    simp only [List.length_cons, List.length_nil] at hlen
    have hlast : off < 2 ^ 14 := hlast
    have hin : i + (labelBytes labels).length < rlen := by omega
    obtain ⟨j, hj, hout⟩ := skipLabels_pointer hl hlast hr hi hin (by omega)
    refine ⟨j + 1, ?_, by omega⟩
    rw [skipOwner, hb]
    simp only [Option.bind_eq_bind, Option.bind_some, if_neg htop]
    rw [hj]
    rfl

/-! ## Records -/

theorem Record.Ok.length_bytes {c : Record} (h : c.Ok) :
    c.bytes.length = c.owner.bytes.length + 10 + c.rdata.length := by
  simp only [Record.bytes, List.length_append, h.cls, h.ttl, beBytes, List.length_cons,
    List.length_nil]

theorem OwnerName.length_pos (n : OwnerName) : 0 < n.bytes.length := by
  rw [OwnerName.bytes, List.length_append]
  cases n.last with
  | root => exact Nat.succ_pos _
  | pointer off => exact Nat.succ_pos _

/-- Where an A record is still to come there are at least 15 bytes. -/
theorem length_of_firstAddress {cs : List Record} {addr : Nat} (hok : ∀ c ∈ cs, c.Ok)
    (h : firstAddress cs = some addr) : 15 ≤ (cs.flatMap Record.bytes).length := by
  induction cs with
  | nil => cases h
  | cons c cs ih =>
    have hc := hok c (List.mem_cons_self ..)
    rw [List.flatMap_cons, List.length_append, hc.length_bytes]
    have hpos := c.owner.length_pos
    by_cases hA : c.type = 1
    · have := hc.address hA
      omega
    · rw [firstAddress, if_neg hA] at h
      have := ih (fun c' hc' => hok c' (List.mem_cons_of_mem c hc')) h
      omega

section walk

variable {r post : List UInt8} {rlen ancount : Nat}

/-- A record with a plain owner name is read as it was written. -/
theorem answerRound_plain {pre : List UInt8} {c : Record} {a i : Nat} (hok : c.Ok)
    (hplain : ¬ c.owner.Mixed) (h : r = pre ++ c.bytes ++ post) (hi : i = pre.length)
    (ha : a < ancount) (h12 : i + 12 ≤ rlen) (hlen : i + c.bytes.length ≤ rlen) :
    answerRound r rlen ancount (a, i) = some (if c.type = 1 then .done (some (leNat c.rdata))
      else .next (a + 1, i + c.bytes.length)) := by
  have hsize := hok.length_bytes
  have hskip : skipOwner r rlen i = some (i + c.owner.bytes.length) := by
    refine skipOwner_plain hok.owner hplain (show r = pre ++ c.owner.bytes ++ (beBytes c.type ++ c.cls ++
      c.ttl ++ beBytes c.rdata.length ++ c.rdata ++ post) by
        rw [h, Record.bytes]; simp only [List.append_assoc]) hi (by omega)
  have htype : word r (i + c.owner.bytes.length) = some c.type :=
    word_at (show r = (pre ++ c.owner.bytes) ++ beBytes c.type ++ (c.cls ++ c.ttl ++
      beBytes c.rdata.length ++ c.rdata ++ post) by
        rw [h, Record.bytes]; simp only [List.append_assoc])
      (by rw [List.length_append, hi]) hok.type
  have hrdlen : word r (i + c.owner.bytes.length + 8) = some c.rdata.length :=
    word_at (show r = (pre ++ c.owner.bytes ++ beBytes c.type ++ c.cls ++ c.ttl) ++
      beBytes c.rdata.length ++ (c.rdata ++ post) by
        rw [h, Record.bytes]; simp only [List.append_assoc])
      (by simp only [List.length_append, hi, hok.cls, hok.ttl, beBytes, List.length_cons,
        List.length_nil]) hok.rdata
  rw [answerRound, if_pos ⟨ha, h12⟩, hskip]
  simp only [Option.bind_eq_bind, Option.bind_some]
  rw [if_neg (by omega), htype, hrdlen]
  simp only [Option.bind_some]
  by_cases hA : c.type = 1
  · have h4 := hok.address hA
    have haddr : get32 r (i + c.owner.bytes.length + 10) = some (leNat c.rdata) := by
      have hr : r = (pre ++ c.owner.bytes ++ beBytes c.type ++ c.cls ++ c.ttl ++
          beBytes c.rdata.length) ++ c.rdata ++ post := by
        rw [h, Record.bytes]
        simp only [List.append_assoc]
      rw [get32, hr, field_append ?_ h4, Option.map_some]
      simp only [List.length_append, hi, hok.cls, hok.ttl, beBytes, List.length_cons, List.length_nil]
    rw [if_pos ⟨hA, h4, by omega⟩, if_pos hA, haddr]
    rfl
  · rw [if_neg fun hc => hA hc.1, if_neg hA, hsize]
    simp only [Option.pure_def, Option.some.injEq, LoopStep.next.injEq, Prod.mk.injEq, true_and]
    omega

/-- The walk over records with plain owner names finds the first address. -/
theorem walk_plain {addr : Nat} {cs : List Record} (hok : ∀ c ∈ cs, c.Ok) (hplain : PlainOwners cs)
    (hfirst : firstAddress cs = some addr) : ∀ {pre : List UInt8} {a i fuel : Nat},
    r = pre ++ cs.flatMap Record.bytes ++ post → i = pre.length →
    i + (cs.flatMap Record.bytes).length ≤ rlen → a + cs.length ≤ ancount → cs.length ≤ fuel →
    loop (answerRound r rlen ancount) fuel (a, i) = some (some addr) := by
  induction cs with
  | nil => cases hfirst
  | cons c cs ih =>
    intro pre a i fuel h hi hlen hcount hfuel
    have hc := hok c (List.mem_cons_self ..)
    have hmin := length_of_firstAddress hok hfirst
    obtain ⟨fuel, rfl⟩ : ∃ f, fuel = f + 1 := ⟨fuel - 1, by rw [List.length_cons] at hfuel; omega⟩
    rw [List.flatMap_cons] at h hlen hmin
    rw [List.length_append] at hlen hmin
    rw [List.length_cons] at hcount hfuel
    have hround := answerRound_plain hc hplain.1
      (show r = pre ++ c.bytes ++ (cs.flatMap Record.bytes ++ post) by
        rw [h]; simp only [List.append_assoc]) hi
      (show a < ancount by omega) (show i + 12 ≤ rlen by omega) (by omega)
    by_cases hA : c.type = 1
    · rw [firstAddress, if_pos hA] at hfirst
      rw [if_pos hA, hfirst] at hround
      exact loop_of_done hround
    · rw [firstAddress, if_neg hA] at hfirst
      rw [if_neg hA] at hround
      rw [loop_of_next hround]
      refine ih (fun c' hc' => hok c' (List.mem_cons_of_mem c hc')) (hplain.2.resolve_left hA) hfirst
        (show r = pre ++ c.bytes ++ cs.flatMap Record.bytes ++ post by
          rw [h]; simp only [List.append_assoc]) ?_ (by omega) (by omega) (by omega)
      rw [List.length_append, hi]

/-- Where the message ends within 193 bytes of a record whose owner name has labels and a pointer,
    the walk finds nothing behind it. -/
theorem walk_mixed {cs : List Record} (hok : ∀ c ∈ cs, c.Ok) (hmixed : ¬ PlainOwners cs) :
    ∀ {pre : List UInt8} {a i fuel : Nat}, r = pre ++ cs.flatMap Record.bytes ++ post →
    i = pre.length → i + (cs.flatMap Record.bytes).length ≤ rlen → rlen ≤ i + 193 →
    a + cs.length ≤ ancount → cs.length ≤ fuel → firstAddress cs ≠ none →
    loop (answerRound r rlen ancount) fuel (a, i) = some none := by
  induction cs with
  | nil => exact fun _ _ _ _ _ _ h => absurd rfl h
  | cons c cs ih =>
    intro pre a i fuel h hi hlen hend hcount hfuel hfirst
    have hc := hok c (List.mem_cons_self ..)
    obtain ⟨addr, haddr⟩ := Option.ne_none_iff_exists'.mp hfirst
    have hmin := length_of_firstAddress hok haddr
    obtain ⟨fuel, rfl⟩ : ∃ f, fuel = f + 1 := ⟨fuel - 1, by rw [List.length_cons] at hfuel; omega⟩
    rw [List.flatMap_cons] at h hlen hmin
    rw [List.length_append] at hlen hmin
    rw [List.length_cons] at hcount hfuel
    have h12 : i + 12 ≤ rlen := by omega
    by_cases hm : c.owner.Mixed
    · obtain ⟨j, hj, hout⟩ := skipOwner_mixed hc.owner hm (show r = pre ++ c.owner.bytes ++
        (beBytes c.type ++ c.cls ++ c.ttl ++ beBytes c.rdata.length ++ c.rdata ++
          cs.flatMap Record.bytes ++ post) by
          rw [h, Record.bytes]; simp only [List.append_assoc]) hi
        (by have := hc.length_bytes; omega) hend
      refine loop_of_done ?_
      rw [answerRound, if_pos ⟨by omega, h12⟩, hj]
      simp only [Option.bind_eq_bind, Option.bind_some]
      rw [if_pos (by omega)]
      rfl
    · have hrest : c.type ≠ 1 ∧ ¬ PlainOwners cs :=
        ⟨fun hA => hmixed ⟨hm, .inl hA⟩, fun hp => hmixed ⟨hm, .inr hp⟩⟩
      rw [firstAddress, if_neg hrest.1] at haddr
      have hround := answerRound_plain hc hm
        (show r = pre ++ c.bytes ++ (cs.flatMap Record.bytes ++ post) by
          rw [h]; simp only [List.append_assoc]) hi
        (show a < ancount by omega) h12 (by omega)
      rw [if_neg hrest.1] at hround
      rw [loop_of_next hround]
      refine ih (fun c' hc' => hok c' (List.mem_cons_of_mem c hc')) hrest.2
        (show r = pre ++ c.bytes ++ cs.flatMap Record.bytes ++ post by
          rw [h]; simp only [List.append_assoc]) ?_ (by omega) (by omega) (by omega) (by omega) ?_
      · rw [List.length_append, hi]
      · rw [haddr]
        exact Option.some_ne_none _

end walk

/-! ## Responses -/

/-- Up to the answers a response is read as it was written. -/
theorem readAnswer_eq {m : Response} (hm : m.Ok) (tail : List UInt8) :
    ∃ pre, m.bytes = pre ++ m.answers.flatMap Record.bytes ++ m.rest ∧ 12 ≤ pre.length ∧
      readAnswer (m.bytes ++ tail) m.bytes.length m.id =
        loop (answerRound (m.bytes ++ tail) m.bytes.length m.answers.length)
          (m.answers.length + 1) (0, pre.length) := by
  obtain ⟨hdr, hhdr⟩ : ∃ hdr, hdr = beBytes m.id ++ m.flags ++ [0, 1] ++ beBytes m.answers.length ++
    m.counts := ⟨_, rfl⟩
  have hhdrlen : hdr.length = 12 := by
    simp only [hhdr, List.length_append, hm.flags, hm.counts, beBytes, List.length_cons, List.length_nil]
  have hbytes : m.bytes = hdr ++ labelBytes m.question ++ [0] ++ m.questionType ++
      m.answers.flatMap Record.bytes ++ m.rest := by
    rw [hhdr, Response.bytes]
  have hlen : m.bytes.length = 12 + (labelBytes m.question).length + 1 + 4 +
      (m.answers.flatMap Record.bytes).length + m.rest.length := by
    rw [hbytes]
    simp only [List.length_append, hhdrlen, hm.questionType, List.length_cons, List.length_nil]
  have hid : word (m.bytes ++ tail) 0 = some m.id :=
    word_at (show m.bytes ++ tail = [] ++ beBytes m.id ++ (m.flags ++ [0, 1] ++
      beBytes m.answers.length ++ m.counts ++ labelBytes m.question ++ [0] ++ m.questionType ++
      m.answers.flatMap Record.bytes ++ m.rest ++ tail) by
        rw [Response.bytes]; simp only [List.append_assoc, List.nil_append]) rfl hm.id
  have hcount : word (m.bytes ++ tail) 6 = some m.answers.length :=
    word_at (show m.bytes ++ tail = (beBytes m.id ++ m.flags ++ [0, 1]) ++ beBytes m.answers.length ++
      (m.counts ++ labelBytes m.question ++ [0] ++ m.questionType ++
      m.answers.flatMap Record.bytes ++ m.rest ++ tail) by
        rw [Response.bytes]; simp only [List.append_assoc])
      (by simp only [List.length_append, hm.flags, beBytes, List.length_cons, List.length_nil]) hm.ancount
  have hskip : skipLabels (m.bytes ++ tail) m.bytes.length 12 =
      some (12 + (labelBytes m.question).length) :=
    skipLabels_root hm.question (show m.bytes ++ tail = hdr ++ labelBytes m.question ++ 0 ::
      (m.questionType ++ m.answers.flatMap Record.bytes ++ m.rest ++ tail) by
        rw [hbytes]; simp only [List.append_assoc, List.cons_append, List.nil_append]) hhdrlen.symm (by omega)
  refine ⟨hdr ++ labelBytes m.question ++ [0] ++ m.questionType, hbytes, ?_, ?_⟩
  · simp only [List.length_append, hhdrlen]
    omega
  · rw [readAnswer, if_pos (by omega), hid, hcount]
    simp only [Option.bind_eq_bind, Option.bind_some, if_true]
    rw [hskip, Option.bind_some]
    congr 2
    simp only [List.length_append, hhdrlen, hm.questionType, List.length_cons, List.length_nil]

/-- A response with plain owner names is read correctly. -/
theorem readAnswer_plain {m : Response} (hm : m.Ok) {addr : Nat}
    (hfirst : firstAddress m.answers = some addr) (hplain : PlainOwners m.answers)
    (tail : List UInt8) : readAnswer (m.bytes ++ tail) m.bytes.length m.id = some (some addr) := by
  obtain ⟨pre, hbytes, -, hread⟩ := readAnswer_eq hm tail
  rw [hread]
  refine walk_plain hm.answers hplain hfirst (show m.bytes ++ tail = pre ++
    m.answers.flatMap Record.bytes ++ (m.rest ++ tail) by
      rw [hbytes]; simp only [List.append_assoc]) rfl ?_ (by omega) (by omega)
  rw [hbytes, List.length_append, List.length_append]
  omega

/-- A short one with labels and a pointer before the first address is not. -/
theorem readAnswer_mixed {m : Response} (hm : m.Ok) (hfirst : firstAddress m.answers ≠ none)
    (hmixed : ¬ PlainOwners m.answers) (hshort : m.bytes.length ≤ 205) (tail : List UInt8) :
    readAnswer (m.bytes ++ tail) m.bytes.length m.id = some none := by
  obtain ⟨pre, hbytes, hpre, hread⟩ := readAnswer_eq hm tail
  rw [hread]
  refine walk_mixed hm.answers hmixed (show m.bytes ++ tail = pre ++
    m.answers.flatMap Record.bytes ++ (m.rest ++ tail) by
      rw [hbytes]; simp only [List.append_assoc]) rfl ?_ (by omega) (by omega) (by omega) hfirst
  rw [hbytes, List.length_append, List.length_append]
  omega

/-! ## The call -/

/-- The labels of a query leave room behind them. -/
theorem queryLabels_length {name labels : List UInt8} (h : queryLabels name = some (some labels)) :
    labels.length ≤ 488 := by
  have hall : ∀ l, some labels = some l → l.length ≤ 488 :=
    loop_preserves (fun x => x.2.length ≤ 488) (fun out => ∀ l, out = some l → l.length ≤ 488) ?_ ?_
      (name.length + 1) (name, []) (some labels) (Nat.zero_le _) h
  · exact hall labels rfl
  · rintro ⟨p, q⟩ out hq hround l rfl
    unfold labelRound at hround
    split at hround
    · next hp =>
      cases hp
      cases hround
      exact hq
    · next hp =>
      cases hp
      simp only at hround
      split at hround <;> cases hround
  · rintro ⟨p, q⟩ ⟨p', q'⟩ hq hround
    unfold labelRound at hround
    split at hround
    · cases hround
    · next hp =>
      cases hp
      simp only at hround
      split at hround
      · cases hround
      · next hlen =>
        cases hround
        simp only [List.length_append, List.length_cons]
        omega

theorem dnsQuery_length (qid : Nat) (labels : List UInt8) :
    (dnsQuery qid labels).length = 17 + labels.length := by
  simp only [dnsQuery, List.length_append, List.length_cons, List.length_nil]
  omega

/-- After sending its query a call polls the open and empty mailbox. -/
theorem netResolve_polls {s : Host} (hs : s.Ok) {caches : List (List ArpEntry)}
    (hcaches : ∀ cache ∈ caches, ∀ e ∈ cache, e.mac.length = 6) (ticks : Nat)
    {name labels : List UInt8} (hname : strToIp name = none) (hconf : s.configured = true)
    (hdns : s.ourDns ≠ 0) (hquery : queryLabels name = some (some labels)) (hport : s.eport < 65536)
    (polls : List (Option (List UInt8 × Nat))) : ∃ t, netResolve s caches ticks name polls =
      resolvePolls (ticks % 65536) polls t := by
  have hlen := queryLabels_length hquery
  have hgo : ¬ (s.configured = false ∨ s.ourDns = 0) := by
    rw [hconf]
    rintro (h | h)
    · exact Bool.noConfusion h
    · exact hdns h
  rw [netResolve, hname]
  simp only
  rw [if_neg hgo, hquery]
  simp only [Option.bind_eq_bind, Option.bind_some]
  obtain ⟨cache, id, sent, hsend, -⟩ := udpSend_isSome (s := { s with
      eport := if (s.eport + 1) % 65536 < 49152 then 49152 else (s.eport + 1) % 65536
      udp := { s.udp with port := s.eport, len := 0 } })
    { hs with port := hport } hcaches s.ourDns s.eport 53
    (show 42 + (dnsQuery (ticks % 65536) labels).length ≤ frameMax by
      rw [dnsQuery_length, frameMax]; omega)
  rw [hsend]
  exact ⟨_, rfl⟩

theorem resolvePolls_wait (qid waits : Nat) (polls : List (Option (List UInt8 × Nat))) (s : Host) :
    resolvePolls qid (List.replicate waits none ++ polls) s = resolvePolls qid polls s := by
  induction waits with
  | zero => rfl
  | succ n ih => exact ih

/-- A call that finds a response in its mailbox returns the address of the first A record, if no
    owner name up to that record consists of labels and a pointer. Where one does, it may be right
    by accident; not if the response has at most 205 bytes. -/
theorem netResolve_correct (s : Host) (hs : s.Ok) (caches : List (List ArpEntry))
    (hcaches : ∀ cache ∈ caches, ∀ e ∈ cache, e.mac.length = 6) (ticks : Nat)
    (name labels : List UInt8) (hname : strToIp name = none) (hconf : s.configured = true)
    (hdns : s.ourDns ≠ 0) (hport : s.eport < 65536) (hquery : queryLabels name = some (some labels))
    (m : Response) (hm : m.Ok) (hid : m.id = ticks % 65536) (addr : Nat)
    (hfirst : firstAddress m.answers = some addr) (waits src : Nat) :
    (PlainOwners m.answers → ∀ later, ∃ s', netResolve s caches ticks name
      (List.replicate waits none ++ some (m.bytes, src) :: later) = some (s', some addr)) ∧
    (m.bytes.length ≤ 205 → (∃ s', netResolve s caches ticks name
      (List.replicate waits none ++ [some (m.bytes, src)]) = some (s', some addr)) →
      PlainOwners m.answers) := by
  constructor
  · intro hplain later
    obtain ⟨t, ht⟩ := netResolve_polls hs hcaches ticks hname hconf hdns hquery hport
      (List.replicate waits none ++ some (m.bytes, src) :: later)
    rw [ht, resolvePolls_wait, ← hid, resolvePolls, deposit,
      readAnswer_plain hm hfirst hplain (t.udp.data.drop m.bytes.length)]
    exact ⟨_, rfl⟩
  · rintro hshort ⟨s', hs'⟩
    by_contra hmixed
    obtain ⟨t, ht⟩ := netResolve_polls hs hcaches ticks hname hconf hdns hquery hport
      (List.replicate waits none ++ [some (m.bytes, src)])
    rw [ht, resolvePolls_wait, ← hid, resolvePolls, deposit,
      readAnswer_mixed hm (by rw [hfirst]; exact Option.some_ne_none _) hmixed hshort] at hs'
    cases hs'

/-- `a.b`, one A record. -/
def sampleResponse (owner : OwnerName) : Response where
  id := 7
  flags := [0x81, 0x80]
  counts := [0, 0, 0, 0]
  question := [[97], [98]]
  questionType := [0, 1, 0, 1]
  answers := [⟨owner, 1, [0, 1], [0, 0, 0, 60], [93, 184, 216, 34]⟩]
  rest := []

theorem ok_sampleResponse {owner : OwnerName} (h : owner.Ok) : (sampleResponse owner).Ok where
  id := by show 7 < 65536; decide
  flags := rfl
  counts := rfl
  question := by
    show ∀ l ∈ [[(97 : UInt8)], [98]], 1 ≤ l.length ∧ l.length ≤ 63
    decide
  questionType := rfl
  answers := fun r hr => by
    obtain rfl := List.mem_singleton.mp hr
    exact ⟨h, show 1 < 65536 by decide, rfl, rfl, show 4 < 65536 by decide, fun _ => rfl⟩
  ancount := by show 1 < 65536; decide

/-- With a compressed owner name the address is found. -/
theorem netResolve_correct_pointer : ∃ s', netResolve demoHost [] 7 [97, 46, 98]
    [some ((sampleResponse ⟨[], .pointer 12⟩).bytes, 0)] = some (s', some (leNat [93, 184, 216, 34])) :=
  (netResolve_correct demoHost ok_demoHost [] nofun 7 [97, 46, 98] [1, 97, 1, 98] (by decide) rfl
    (by decide) (by decide) (by decide) (sampleResponse ⟨[], .pointer 12⟩)
    (ok_sampleResponse ⟨nofun, by show 12 < 2 ^ 14; decide⟩) rfl _ rfl 0 0).1
    ⟨fun h => h.1 rfl, .inl rfl⟩ []

/-- With the label `a` and a pointer to `b` it is not. -/
theorem netResolve_misses : (sampleResponse ⟨[[97]], .pointer 14⟩).Ok ∧
    firstAddress (sampleResponse ⟨[[97]], .pointer 14⟩).answers = some (leNat [93, 184, 216, 34]) ∧
    (netResolve demoHost [] 7 [97, 46, 98]
      [some ((sampleResponse ⟨[[97]], .pointer 14⟩).bytes, 0)]).map Prod.snd = some none := by
  refine ⟨ok_sampleResponse ⟨by decide, by show 14 < 2 ^ 14; decide⟩, rfl, ?_⟩
  decide

end ChocoOs.Net
