import ChocoOs.Net.Authentic

/-!
# Reading responses and writing queries

The walk over a response stays within the datagram, whatever it contains. A name becomes a query if
its labels fit, and the query says what the name does.
-/

namespace ChocoOs.Net
open ProgLib

/-! ## The walk -/

section walk

variable (d : List UInt8)

theorem word_isSome {i : Nat} (h : i + 2 ≤ d.length) : ∃ v, word d i = some v := by
  have h0 : d[i]? = some d[i] := List.getElem?_eq_getElem (by omega)
  have h1 : d[i + 1]? = some d[i + 1] := List.getElem?_eq_getElem (by omega)
  rw [word, h0, h1]
  exact ⟨_, rfl⟩

/-- Every round of the skipping loop moves on. -/
theorem skipLabels_isSome (i : Nat) : ∃ j, skipLabels d d.length i = some j := by
  obtain ⟨j, hj, -⟩ := loop_total (skipRound d d.length) (fun _ => True) (fun _ => True)
    (fun i => d.length - i) (by
      intro i _
      by_cases hlt : i < d.length
      · rw [skipRound, if_pos hlt, List.getElem?_eq_getElem hlt, Option.bind_eq_bind, Option.bind_some]
        by_cases hend : d[i] = 0
        · exact .inl ⟨i, if_pos hend, trivial⟩
        · refine .inr ⟨i + (d[i].toNat + 1), if_neg hend, trivial, ?_⟩
          exact Nat.sub_lt_sub_left hlt (Nat.lt_add_of_pos_right (Nat.succ_pos _))
      · exact .inl ⟨i, if_neg hlt, trivial⟩) (d.length + 1) i trivial (by omega)
  exact ⟨j, hj⟩

theorem skipOwner_isSome {i : Nat} (h : i < d.length) : ∃ j, skipOwner d d.length i = some j := by
  rw [skipOwner, List.getElem?_eq_getElem h, Option.bind_eq_bind, Option.bind_some]
  obtain ⟨j, hj⟩ := skipLabels_isSome d i
  split
  · exact ⟨_, rfl⟩
  · rw [hj]
    exact ⟨_, rfl⟩

/-- One round of the walk reads within the datagram and goes on to the next answer. -/
theorem answerRound_safe (ancount : Nat) (s : Nat × Nat) :
    (∃ r, answerRound d d.length ancount s = some (.done r)) ∨
      ∃ s', answerRound d d.length ancount s = some (.next s') ∧ s.1 < ancount ∧ s'.1 = s.1 + 1 := by
  obtain ⟨a, i⟩ := s
  rw [answerRound]
  by_cases hgo : a < ancount ∧ i + 12 ≤ d.length
  · obtain ⟨j, hj⟩ := skipOwner_isSome d (show i < d.length by omega)
    simp only [if_pos hgo, hj, Option.bind_eq_bind, Option.bind_some, Option.pure_def]
    by_cases hshort : d.length < j + 10
    · exact .inl ⟨none, if_pos hshort⟩
    · obtain ⟨type, htype⟩ := word_isSome d (show j + 2 ≤ d.length by omega)
      obtain ⟨rdlen, hrdlen⟩ := word_isSome d (show j + 8 + 2 ≤ d.length by omega)
      simp only [if_neg hshort, htype, hrdlen, Option.bind_some]
      by_cases hrec : type = 1 ∧ rdlen = 4 ∧ j + 10 + 4 ≤ d.length
      · rw [if_pos hrec, get32_eq hrec.2.2]
        exact .inl ⟨_, rfl⟩
      · rw [if_neg hrec]
        exact .inr ⟨_, rfl, hgo.1, rfl⟩
  · exact .inl ⟨none, if_neg hgo⟩

/-- Whatever a datagram contains, reading it ends and stays within it: what the mailbox holds behind
    it does not matter, and none of it needs to be there. -/
theorem readAnswer_safe (stale : List UInt8) (qid : Nat) :
    readAnswer (d ++ stale) d.length qid = readAnswer d d.length qid ∧
      readAnswer d d.length qid ≠ none := by
  refine ⟨readAnswer_append d stale qid, ?_⟩
  rw [readAnswer]
  by_cases hlen : 12 < d.length
  · obtain ⟨id, hid⟩ := word_isSome d (show 0 + 2 ≤ d.length by omega)
    obtain ⟨ancount, hancount⟩ := word_isSome d (show 6 + 2 ≤ d.length by omega)
    obtain ⟨i, hi⟩ := skipLabels_isSome d 12
    simp only [if_pos hlen, hid, hancount, hi, Option.bind_eq_bind, Option.bind_some]
    split
    · obtain ⟨r, hr, -⟩ := loop_total (answerRound d d.length ancount) (fun _ => True)
        (fun _ => True) (fun s => ancount - s.1) (by
          intro s _
          rcases answerRound_safe d ancount s with ⟨r, hr⟩ | ⟨s', hs', hlt, hnext⟩
          · exact .inl ⟨r, hr, trivial⟩
          · exact .inr ⟨s', hs', trivial, by omega⟩)
        (ancount + 1) (0, i + 5) trivial (Nat.lt_succ_self _)
      rw [hr]
      exact Option.some_ne_none r
    · exact Option.some_ne_none _
  · rw [if_neg hlen]
    exact Option.some_ne_none _

end walk

/-! ## The query -/

/-- The parts of a name between its points; a point at the end is ignored. -/
def nameLabels (name : List UInt8) : List (List UInt8) :=
  (if name.getLast? = some 46 then name.dropLast else name).splitOn 46

/-- Labels of 1 to 63 bytes that take at most 500 bytes with the header. -/
def LabelsFit (labels : List (List UInt8)) : Prop :=
  (∀ l ∈ labels, 1 ≤ l.length ∧ l.length ≤ 63) ∧ 12 + (labelBytes labels).length ≤ 500

/-- The labels of an encoded name, and what follows it. -/
def readName : Nat → List UInt8 → Option (List (List UInt8) × List UInt8)
  | 0, _ | _, [] => none
  | fuel + 1, n :: rest =>
    if n = 0 then some ([], rest)
    else if n.toNat ≤ rest.length then
      (readName fuel (rest.drop n.toNat)).map fun (labels, rest') => (rest.take n.toNat :: labels, rest')
    else none

/-- The call passes this query to `udp_send`, then it waits for the answer. -/
def Queries (s : Host) (ticks : Nat) (name query : List UInt8) : Prop :=
  ∀ caches polls, netResolve s caches ticks name polls =
    (udpSend { s with
      eport := if (s.eport + 1) % 65536 < 49152 then 49152 else (s.eport + 1) % 65536
      udp := { s.udp with port := s.eport, len := 0 } } caches s.ourDns s.eport 53 query).bind
    (resolvePolls (ticks % 65536) polls)

/-- The call fails and leaves everything as it was. -/
def Rejects (s : Host) (ticks : Nat) (name : List UInt8) : Prop :=
  ∀ caches polls, netResolve s caches ticks name polls = some (s, none)

/-- What `net_resolve` must make of a name with these labels. -/
structure QueryLaw (s : Host) (ticks : Nat) (name : List UInt8) (labels : List (List UInt8)) :
    Prop where
  sends : LabelsFit labels → ∃ query, Queries s ticks name query ∧ query.length ≤ 512 ∧
    readName query.length (query.drop 12) = some (labels, [0, 1, 0, 1])
  rejects : ¬ LabelsFit labels → Rejects s ticks name
  writes : ∀ p q, Relation.ReflTransGen (GoesOn labelRound) (name, []) (p, q) → 12 + q.length ≤ 512

theorem labelBytes_cons (l : List UInt8) (labels : List (List UInt8)) :
    labelBytes (l :: labels) = UInt8.ofNat l.length :: l ++ labelBytes labels := rfl

/-- Encoded labels are read back. -/
theorem readName_labelBytes {labels : List (List UInt8)}
    (hl : ∀ l ∈ labels, 1 ≤ l.length ∧ l.length ≤ 63) (rest : List UInt8) :
    ∀ fuel, labels.length < fuel → readName fuel (labelBytes labels ++ 0 :: rest) = some (labels, rest) := by
  induction labels with
  | nil =>
    intro fuel hfuel
    obtain ⟨fuel, rfl⟩ : ∃ n, fuel = n + 1 := ⟨fuel - 1, by omega⟩
    rfl
  | cons l labels ih =>
    intro fuel hfuel
    obtain ⟨fuel, rfl⟩ : ∃ n, fuel = n + 1 := ⟨fuel - 1, by omega⟩
    obtain ⟨hpos, hmax⟩ := hl l (List.mem_cons_self ..)
    have hnat : (UInt8.ofNat l.length).toNat = l.length := by
      rw [UInt8.toNat_ofNat']
      exact Nat.mod_eq_of_lt (by omega)
    have hne : ¬ UInt8.ofNat l.length = 0 := by
      intro h0
      rw [h0] at hnat
      exact absurd hnat (Nat.ne_of_lt hpos)
    have hfit : l.length ≤ (l ++ (labelBytes labels ++ 0 :: rest)).length := by
      rw [List.length_append]
      exact Nat.le_add_right ..
    rw [labelBytes_cons, List.append_assoc, List.cons_append, readName, if_neg hne, hnat, if_pos hfit,
      List.drop_left, List.take_left,
      ih (fun l' hl' => hl l' (List.mem_cons_of_mem l hl')) fuel (Nat.lt_of_succ_lt_succ hfuel)]
    rfl

/-- A list up to an element, which is the next one if the list does not end there. -/
theorem takeWhile_ne_split {α : Type} [DecidableEq α] (a : α) (l : List α) :
    a ∉ l.takeWhile (· ≠ a) ∧ ∃ rest, l = l.takeWhile (· ≠ a) ++ rest ∧
      (rest = [] ∨ ∃ after, rest = a :: after) := by
  induction l with
  | nil => exact ⟨List.not_mem_nil, [], rfl, .inl rfl⟩
  | cons x l ih =>
    obtain ⟨hnot, rest, hsplit, hrest⟩ := ih
    by_cases hx : x = a
    · subst hx
      have hnil : (x :: l).takeWhile (· ≠ x) = [] := List.takeWhile_cons_of_neg (by simp)
      rw [hnil]
      exact ⟨List.not_mem_nil, x :: l, rfl, .inr ⟨l, rfl⟩⟩
    · have hcons : (x :: l).takeWhile (· ≠ a) = x :: l.takeWhile (· ≠ a) :=
        List.takeWhile_cons_of_pos (decide_eq_true hx)
      rw [hcons]
      refine ⟨?_, rest, congrArg (x :: ·) hsplit, hrest⟩
      intro h
      rcases List.mem_cons.mp h with h | h
      · exact hx h.symm
      · exact hnot h

/-- The empty name has no labels. -/
def labelsOf (name : List UInt8) : List (List UInt8) := if name = [] then [] else nameLabels name

/-- A name is its first label, then a point and the other labels. -/
theorem labelsOf_step {p : List UInt8} (hp : p ≠ []) :
    let rest := p.drop (p.takeWhile (· ≠ 46)).length
    labelsOf p = p.takeWhile (· ≠ 46) :: labelsOf (if rest.head? = some 46 then rest.tail else rest) := by
  intro rest
  obtain ⟨label, hlabel⟩ : ∃ label, label = p.takeWhile (· ≠ 46) := ⟨_, rfl⟩
  obtain ⟨hnot, rest', hsplit, hrest⟩ := takeWhile_ne_split 46 p
  rw [← hlabel] at hnot hsplit
  obtain rfl : rest = rest' := by
    show p.drop (p.takeWhile (· ≠ 46)).length = rest'
    rw [← hlabel, hsplit, List.drop_left]
  rw [← hlabel, labelsOf, if_neg hp, nameLabels]
  rcases hrest with hr | ⟨after, hr⟩
  · rw [hr, List.append_nil] at hsplit
    have hlast : ¬ p.getLast? = some 46 := by
      intro h
      rw [hsplit] at h
      exact hnot (List.mem_of_getLast? h)
    rw [if_neg hlast, hr, hsplit, List.splitOn_eq_singleton hnot]
    rfl
  · have hp' : p = label ++ 46 :: after := by rw [← hr]; exact hsplit
    rw [hr, List.head?_cons, if_pos rfl, List.tail_cons, labelsOf]
    by_cases hafter : after = []
    · subst hafter
      rw [if_pos rfl, hp', List.getLast?_concat, if_pos rfl, List.dropLast_concat,
        List.splitOn_eq_singleton hnot]
    · have hlast : p.getLast? = after.getLast? := by
        obtain ⟨c, after', rfl⟩ := List.exists_cons_of_ne_nil hafter
        rw [hp', List.getLast?_append_cons, List.getLast?_cons_cons]
      have hdrop : p.dropLast = label ++ 46 :: after.dropLast := by
        rw [hp', List.dropLast_append_cons, List.dropLast_cons_of_ne_nil hafter]
      rw [if_neg hafter, hlast, hdrop, nameLabels]
      by_cases h46 : after.getLast? = some 46
      · rw [if_pos h46, if_pos h46, List.splitOn_append_cons_self_of_not_mem hnot]
      · rw [if_neg h46, if_neg h46, hp', List.splitOn_append_cons_self_of_not_mem hnot]

/-- What the loop over labels makes of the rest of a name behind `q`. -/
theorem loop_labelRound : ∀ (fuel : Nat) (p q : List UInt8), p.length < fuel → 12 + q.length ≤ 500 →
    ((∀ l ∈ labelsOf p, 1 ≤ l.length ∧ l.length ≤ 63) ∧
        12 + q.length + (labelBytes (labelsOf p)).length ≤ 500 →
      loop labelRound fuel (p, q) = some (some (q ++ labelBytes (labelsOf p)))) ∧
    (¬ ((∀ l ∈ labelsOf p, 1 ≤ l.length ∧ l.length ≤ 63) ∧
        12 + q.length + (labelBytes (labelsOf p)).length ≤ 500) →
      loop labelRound fuel (p, q) = some none) := by
  intro fuel
  induction fuel with
  | zero => exact fun _ _ h => absurd h (Nat.not_lt_zero _)
  | succ fuel ih =>
    intro p q hfuel hq
    by_cases hp : p = []
    · subst hp
      refine ⟨fun _ => ?_, fun hno => absurd ⟨fun l hl => absurd hl List.not_mem_nil, hq⟩ hno⟩
      exact loop_of_done (by rw [labelRound, labelsOf, if_pos rfl, labelBytes, List.flatMap_nil,
        List.append_nil])
    · have hstep := labelsOf_step hp
      obtain ⟨label, hlabel⟩ : ∃ label, label = p.takeWhile (· ≠ 46) := ⟨_, rfl⟩
      obtain ⟨p', hp'⟩ : ∃ p', p' = if (p.drop label.length).head? = some 46 then
        (p.drop label.length).tail else p.drop label.length := ⟨_, rfl⟩
      simp only [← hlabel, ← hp'] at hstep
      have hround : labelRound (p, q) =
          if label.length = 0 ∨ 63 < label.length ∨ 500 < 12 + q.length + label.length + 1
            then some (.done none) else some (.next (p', q ++ UInt8.ofNat label.length :: label)) := by
        rw [labelRound.eq_2 p q hp, ← hlabel]
        subst hp'
        rfl
      rw [hstep, labelBytes_cons, List.forall_mem_cons, List.length_append, List.length_cons]
      by_cases hbad : label.length = 0 ∨ 63 < label.length ∨ 500 < 12 + q.length + label.length + 1
      · rw [if_pos hbad] at hround
        rw [loop_of_done hround]
        refine ⟨fun h => ?_, fun _ => rfl⟩
        obtain ⟨⟨hsize, -⟩, hfit⟩ := h
        omega
      · rw [if_neg hbad] at hround
        rw [loop_of_next hround]
        have hlen : (q ++ UInt8.ofNat label.length :: label).length = q.length + (label.length + 1) := by
          rw [List.length_append, List.length_cons]
        have hpos := List.length_pos_iff.mpr hp
        have hshort : p'.length < fuel := by
          rw [hp']
          split
          · rw [List.length_tail, List.length_drop]
            omega
          · rw [List.length_drop]
            omega
        obtain ⟨hgood, hno⟩ := ih p' _ hshort (by rw [hlen]; omega)
        rw [hlen] at hgood hno
        constructor
        · intro h
          rw [hgood ⟨h.1.2, by have := h.2; omega⟩, List.append_assoc]
        · intro h
          apply hno
          intro h'
          exact h ⟨⟨by omega, h'.1⟩, by have := h'.2; omega⟩

/-- The loop never writes beyond byte 500. -/
theorem labelRound_writes {name p q : List UInt8}
    (h : Relation.ReflTransGen (GoesOn labelRound) (name, []) (p, q)) : 12 + q.length ≤ 500 := by
  obtain ⟨s, hs⟩ : ∃ s : List UInt8 × List UInt8, s = (p, q) := ⟨_, rfl⟩
  rw [← hs] at h
  suffices hsuff : 12 + s.2.length ≤ 500 by
    rw [hs] at hsuff
    exact hsuff
  clear hs
  induction h with
  | refl => exact Nat.le_of_ble_eq_true rfl
  | @tail t u _ hstep ih =>
    obtain ⟨p, q⟩ := t
    unfold GoesOn labelRound at hstep
    split at hstep
    · cases hstep
    · next heq =>
      cases heq
      simp only at hstep
      split at hstep
      · cases hstep
      · next hlen =>
        cases hstep
        simp only [List.length_append, List.length_cons]
        omega

section call

variable {s : Host} {ticks : Nat} {name : List UInt8}

theorem netResolve_labels (hname : strToIp name = none) (hconf : s.configured = true)
    (hdns : s.ourDns ≠ 0) (caches : List (List ArpEntry)) (polls : List (Option (List UInt8 × Nat))) :
    netResolve s caches ticks name polls = (queryLabels name).bind fun
      | none => some (s, none)
      | some labels => (udpSend { s with
          eport := if (s.eport + 1) % 65536 < 49152 then 49152 else (s.eport + 1) % 65536
          udp := { s.udp with port := s.eport, len := 0 } } caches s.ourDns s.eport 53
          (dnsQuery (ticks % 65536) labels)).bind (resolvePolls (ticks % 65536) polls) := by
  have hgo : ¬ (s.configured = false ∨ s.ourDns = 0) := by
    rw [hconf]
    rintro (h | h)
    · exact Bool.noConfusion h
    · exact hdns h
  rw [netResolve, hname]
  simp only
  rw [if_neg hgo]
  cases queryLabels name with
  | none => rfl
  | some out => cases out <;> rfl

/-- A query is sent for the empty name, which has no labels, and for every other name whose labels
    fit; it asks for exactly these labels. -/
theorem netResolve_query (s : Host) (ticks : Nat) (name : List UInt8) (hname : strToIp name = none)
    (hconf : s.configured = true) (hdns : s.ourDns ≠ 0) : QueryLaw s ticks name (labelsOf name) := by
  obtain ⟨hgood, hno⟩ := loop_labelRound (name.length + 1) name [] (Nat.lt_succ_self _) (by decide)
  constructor
  · intro hfit
    have hlabels : queryLabels name = some (some (labelBytes (labelsOf name))) := hgood hfit
    refine ⟨dnsQuery (ticks % 65536) (labelBytes (labelsOf name)), fun caches polls => ?_, ?_, ?_⟩
    · rw [netResolve_labels hname hconf hdns, hlabels]
      rfl
    · have := hfit.2
      rw [dnsQuery_length]
      omega
    · have hdrop : (dnsQuery (ticks % 65536) (labelBytes (labelsOf name))).drop 12 =
          labelBytes (labelsOf name) ++ 0 :: [0, 1, 0, 1] := rfl
      have hcount := length_le_labelBytes (labelsOf name)
      rw [hdrop, readName_labelBytes hfit.1]
      rw [dnsQuery_length]
      omega
  · intro hfit caches polls
    have hlabels : queryLabels name = some none := hno hfit
    rw [netResolve_labels hname hconf hdns, hlabels]
    rfl
  · intro p q h
    exact (labelRound_writes h).trans (by decide)

end call

theorem netResolve_query_host : QueryLaw demoHost 7 [97, 46, 98, 46] [[97], [98]] :=
  netResolve_query demoHost 7 [97, 46, 98, 46] (by decide) rfl (by decide)

/-- The empty name, cut at points, is one empty label; but a query is sent. -/
theorem netResolve_asks_root : strToIp [] = none ∧ nameLabels [] = [[]] ∧
    ¬ QueryLaw demoHost 7 [] (nameLabels []) := by
  refine ⟨rfl, rfl, fun h => ?_⟩
  have hrejects := h.rejects (fun hfit => absurd (hfit.1 [] (List.mem_singleton_self _)).1 (by decide)) [] []
  have hport := congrArg (Option.map fun r => r.1.eport) hrejects
  exact absurd hport (by decide)

end ChocoOs.Net
