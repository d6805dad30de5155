import ChocoOs.Net.Dhcp

/-!
# DHCP options

A well-formed list of options as RFC 2132 has it, and what the scans of `net.c` find in it.
-/

namespace ChocoOs.Net
open ProgLib

/-- An option: padding, or a code with a value. -/
inductive DhcpOpt where
  | pad
  | opt (code : UInt8) (value : List UInt8)

/-- The codes of padding and of the end are no other option's; a message type is not empty. -/
def DhcpOpt.Ok : DhcpOpt → Prop
  | .pad => True
  | .opt code value => code ≠ 0 ∧ code ≠ 255 ∧ value.length < 256 ∧ (code = 53 → value ≠ [])

def DhcpOpt.bytes : DhcpOpt → List UInt8
  | .pad => [0]
  | .opt code value => code :: UInt8.ofNat value.length :: value

def optBytes (items : List DhcpOpt) : List UInt8 := items.flatMap DhcpOpt.bytes

/-- The value of the last option 53, which `type` precedes. -/
def lastType : UInt8 → List DhcpOpt → UInt8
  | type, [] => type
  | type, .pad :: rest => lastType type rest
  | type, .opt code value :: rest => lastType (if code = 53 then value.headD 0 else type) rest

/-- What a scan does with a list of options, of which the bytes before `olen` are looked at. -/
def visit {α : Type} (olen : Nat) (f : Nat → α → Option α) : Nat → List DhcpOpt → α → Option α
  | _, [], a => some a
  | i, .pad :: rest, a => visit olen f (i + 1) rest a
  | i, .opt _ value :: rest, a =>
    if i + 1 < olen then (f i a).bind (visit olen f (i + (2 + value.length)) rest) else some a

theorem optBytes_cons (it : DhcpOpt) (items : List DhcpOpt) :
    optBytes (it :: items) = it.bytes ++ optBytes items := List.flatMap_cons ..

theorem optBytes_append (items items' : List DhcpOpt) :
    optBytes (items ++ items') = optBytes items ++ optBytes items' := List.flatMap_append

theorem length_bytes_opt (code : UInt8) (value : List UInt8) :
    (DhcpOpt.opt code value).bytes.length = 2 + value.length := by
  simp only [DhcpOpt.bytes, List.length_cons]
  omega

/-- The code, the length and the value of an option. -/
theorem getElem?_opt {whole before after value : List UInt8} {code : UInt8}
    (h : whole = before ++ (DhcpOpt.opt code value).bytes ++ after) :
    whole[before.length]? = some code ∧
      whole[before.length + 1]? = some (UInt8.ofNat value.length) ∧
      ∀ k < value.length, whole[before.length + 2 + k]? = value[k]? := by
  have hlen : (before ++ [code, UInt8.ofNat value.length]).length = before.length + 2 := by
    rw [List.length_append]
    rfl
  have h2 : whole = before ++ [code, UInt8.ofNat value.length] ++ (value ++ after) := by
    rw [h]
    simp only [DhcpOpt.bytes, List.append_assoc, List.cons_append, List.nil_append]
  refine ⟨?_, ?_, fun k hk => ?_⟩
  · exact getElem?_at (show whole = before ++ code :: (UInt8.ofNat value.length :: value ++ after) by
      rw [h, List.append_assoc]; rfl) rfl
  · exact getElem?_at (show whole = before ++ [code] ++ UInt8.ofNat value.length :: (value ++ after) by
      rw [h2]; simp only [List.append_assoc, List.cons_append, List.nil_append])
      (by rw [List.length_append]; rfl)
  · rw [h2, ← hlen, List.getElem?_append_right (Nat.le_add_right ..), Nat.add_sub_cancel_left,
      List.getElem?_append_left hk]

section scan

variable {α : Type} {olen : Nat} {f : Nat → α → Option α}

/-- Behind the bytes that are looked at nothing is visited. -/
theorem visit_end {items : List DhcpOpt} : ∀ {i : Nat} {a : α}, olen ≤ i + 1 →
    visit olen f i items a = some a := by
  induction items with
  | nil => exact fun _ => rfl
  | cons it items ih =>
    intro i a h
    cases it with
    | pad => exact ih (show olen ≤ i + 1 + 1 by omega)
    | opt code value => exact if_neg (by omega)

/-- The options before a place are visited first. -/
theorem visit_append {items items' : List DhcpOpt} : ∀ {i : Nat} {a : α},
    i + (optBytes items).length + 1 < olen → visit olen f i (items ++ items') a =
      (visit olen f i items a).bind (visit olen f (i + (optBytes items).length) items') := by
  induction items with
  | nil => exact fun _ => rfl
  | cons it items ih =>
    intro i a h
    rw [optBytes_cons, List.length_append] at h
    rw [optBytes_cons, List.length_append, List.cons_append]
    cases it with
    | pad =>
      rw [visit, visit, ← Nat.add_assoc]
      exact ih (by rw [Nat.add_assoc, Nat.add_assoc]; rw [Nat.add_assoc] at h; exact h)
    | opt code value =>
      rw [length_bytes_opt] at h ⊢
      have hlt : i + 1 < olen := by omega
      rw [visit, visit, if_pos hlt, if_pos hlt, Option.bind_assoc]
      refine congrArg _ (funext fun a => ?_)
      rw [ih (show i + (2 + value.length) + (optBytes items).length + 1 < olen by omega), Nat.add_assoc i]

/-- A visit keeps what each of its steps keeps. -/
theorem visit_rule {I : α → Prop} (items : List DhcpOpt) (olen : Nat) : ∀ {i : Nat} {a : α},
    (∀ before code value after a, items = before ++ .opt code value :: after →
      i + (optBytes before).length + 1 < olen → I a →
      ∃ a', f (i + (optBytes before).length) a = some a' ∧ I a') →
    I a → ∃ a', visit olen f i items a = some a' ∧ I a' := by
  induction items with
  | nil => exact fun _ ha => ⟨_, rfl, ha⟩
  | cons it items ih =>
    intro i a hstep ha
    -- The steps of the rest are steps of the whole list, further on.
    have hrest : ∀ before code value after a, items = before ++ .opt code value :: after →
        i + it.bytes.length + (optBytes before).length + 1 < olen → I a →
        ∃ a', f (i + it.bytes.length + (optBytes before).length) a = some a' ∧ I a' := by
      intro before code value after a heq hlt hI
      have := hstep (it :: before) code value after a (by rw [heq]; rfl)
      rw [optBytes_cons, List.length_append, ← Nat.add_assoc] at this
      exact this hlt hI
    cases it with
    | pad => exact ih hrest ha
    | opt code value =>
      rw [visit]
      by_cases hlt : i + 1 < olen
      · obtain ⟨a', hf, ha'⟩ := hstep [] code value items a rfl hlt ha
        have hf : f i a = some a' := hf
        rw [if_pos hlt, hf, Option.bind_some]
        rw [length_bytes_opt] at hrest
        exact ih hrest ha'
      · rw [if_neg hlt]
        exact ⟨_, rfl, ha⟩

/-- What an option makes of the result so far; padding changes nothing. -/
def DhcpOpt.fold (g : UInt8 → List UInt8 → α → α) (a : α) : DhcpOpt → α
  | .pad => a
  | .opt code value => g code value a

/-- A visit of a list that is looked at as a whole. -/
theorem visit_foldl {whole rest : List UInt8} {g : UInt8 → List UInt8 → α → α} {items : List DhcpOpt}
    (hf : ∀ before code value after a, .opt code value ∈ items →
      whole = before ++ (DhcpOpt.opt code value).bytes ++ after →
      before.length + (2 + value.length) ≤ olen → f before.length a = some (g code value a)) :
    ∀ (before : List UInt8) {a : α}, whole = before ++ optBytes items ++ rest →
      before.length + (optBytes items).length ≤ olen →
      visit olen f before.length items a = some (items.foldl (DhcpOpt.fold g) a) := by
  induction items with
  | nil => exact fun _ _ _ _ => rfl
  | cons it items ih =>
    intro before a hwhole hlen
    have hsplit : whole = before ++ it.bytes ++ (optBytes items ++ rest) := by
      rw [hwhole, optBytes_cons]
      simp only [List.append_assoc]
    rw [optBytes_cons, List.length_append] at hlen
    have hnext : ∀ a, visit olen f (before.length + it.bytes.length) items a =
        some (items.foldl (DhcpOpt.fold g) a) := by
      intro a
      rw [← List.length_append]
      refine ih (fun b code value after a hmem => hf b code value after a (List.mem_cons_of_mem _ hmem))
        _ (by rw [hsplit]; simp only [List.append_assoc]) ?_
      rw [List.length_append]
      omega
    cases it with
    | pad => exact hnext a
    | opt code value =>
      rw [length_bytes_opt] at hlen hnext
      rw [visit, if_pos (by omega), hf before code value _ a (List.mem_cons_self ..) hsplit (by omega)]
      exact hnext _

variable {o : Nat → Option UInt8} {whole rest : List UInt8}

theorem scanRound_end {i : Nat} {a : α} (hlt : i + 1 < olen) (h : o i = some 255) :
    scanRound o olen f (i, a) = some (.done a) := by
  rw [scanRound, if_pos hlt, h]
  rfl

theorem scanRound_pad {i : Nat} {a : α} (hlt : i + 1 < olen) (h : o i = some 0) :
    scanRound o olen f (i, a) = some (.next (i + 1, a)) := by
  rw [scanRound, if_pos hlt, h]
  rfl

theorem scanRound_opt {i : Nat} {a : α} {code n : UInt8} (hlt : i + 1 < olen) (h : o i = some code)
    (hcode : code ≠ 0) (hcode' : code ≠ 255) (hn : o (i + 1) = some n) :
    scanRound o olen f (i, a) = (f i a).map fun a => .next (i + (2 + n.toNat), a) := by
  rw [scanRound, if_pos hlt, h, Option.bind_eq_bind, Option.bind_some, if_neg hcode', if_neg hcode, hn]
  cases f i a <;> rfl

/-- The loop over options visits the list. -/
theorem loop_scanRound (ho : ∀ j < olen, o j = whole[j]?) (hlen : olen ≤ whole.length)
    (hrest : rest = [] ∨ rest.head? = some 255) {items : List DhcpOpt} (hok : ∀ it ∈ items, it.Ok) :
    ∀ (before : List UInt8) {a : α} {fuel : Nat}, whole = before ++ optBytes items ++ rest →
    olen - before.length < fuel →
    loop (scanRound o olen f) fuel (before.length, a) = visit olen f before.length items a := by
  induction items with
  | nil =>
    intro before a fuel hwhole hfuel
    obtain ⟨fuel, rfl⟩ : ∃ n, fuel = n + 1 := ⟨fuel - 1, by omega⟩
    apply loop_of_done
    by_cases hlt : before.length + 1 < olen
    · apply scanRound_end hlt
      rcases hrest with rfl | hrest
      · rw [hwhole, optBytes, List.flatMap_nil, List.append_nil, List.append_nil] at hlen
        omega
      · obtain ⟨rest, rfl⟩ := List.head?_eq_some_iff.mp hrest
        rw [ho _ (by omega)]
        exact getElem?_at (by rw [hwhole, optBytes, List.flatMap_nil, List.append_nil]) rfl
    · exact if_neg hlt
  | cons it items ih =>
    intro before a fuel hwhole hfuel
    obtain ⟨fuel, rfl⟩ : ∃ n, fuel = n + 1 := ⟨fuel - 1, by omega⟩
    by_cases hlt : before.length + 1 < olen
    · have hit := hok it (List.mem_cons_self ..)
      have hgo : ∀ a, loop (scanRound o olen f) fuel (before.length + it.bytes.length, a) =
          visit olen f (before.length + it.bytes.length) items a := by
        intro a
        have hpos : 0 < it.bytes.length := by
          cases it <;> exact Nat.succ_pos _
        rw [← List.length_append]
        refine ih (fun it hit => hok it (List.mem_cons_of_mem _ hit)) _ ?_ ?_
        · rw [hwhole, optBytes_cons]
          simp only [List.append_assoc]
        · rw [List.length_append]
          omega
      cases it with
      | pad =>
        have h0 : o before.length = some 0 := by
          rw [ho _ (by omega)]
          exact getElem?_at (show whole = before ++ 0 :: (optBytes items ++ rest) by
            rw [hwhole, List.append_assoc]; rfl) rfl
        rw [loop_of_next (scanRound_pad hlt h0)]
        exact hgo a
      | opt code value =>
        obtain ⟨hcode, hcode', hval, -⟩ := hit
        obtain ⟨h0, h1, -⟩ := getElem?_opt (show whole = before ++ (DhcpOpt.opt code value).bytes ++
          (optBytes items ++ rest) by rw [hwhole, optBytes_cons]; simp only [List.append_assoc])
        rw [← ho _ (by omega)] at h0
        rw [← ho _ hlt] at h1
        have hround := scanRound_opt (f := f) (a := a) hlt h0 hcode hcode' h1
        rw [UInt8.toNat_ofNat', Nat.mod_eq_of_lt hval] at hround
        rw [length_bytes_opt] at hgo
        rw [visit, if_pos hlt]
        cases hf : f before.length a with
        | none =>
          rw [hf] at hround
          rw [loop, hround]
          rfl
        | some a' =>
          rw [hf] at hround
          rw [loop_of_next hround, Option.bind_some]
          exact hgo a'
    · rw [visit_end (by omega)]
      exact loop_of_done (if_neg hlt)

/-- A scan visits the list. -/
theorem scanOpts_eq {items : List DhcpOpt} (hwhole : whole = optBytes items ++ rest)
    (hrest : rest = [] ∨ rest.head? = some 255) (hok : ∀ it ∈ items, it.Ok)
    (hlen : olen ≤ whole.length) (ho : ∀ j < olen, o j = whole[j]?) (a : α) :
    scanOpts o olen f a = visit olen f 0 items a :=
  loop_scanRound ho hlen hrest hok [] hwhole (Nat.lt_succ_of_le (Nat.sub_le ..))

end scan

end ChocoOs.Net
