import Mathlib.Data.List.Induction

/-!
# Walking along the components of a path

`step n c` is the node that the component `c` leads to from `n`, and `dir` tells which nodes may
be walked through. `enters` follows components that must all lead to such nodes; `goes` follows a
path whose last component may lead anywhere.
-/

namespace ProgLib

variable {N C : Type}

/-- Every component leads to a node that may be walked through. -/
def enters (step : N → C → Option N) (dir : N → Bool) : N → List C → Option N
  | n, [] => some n
  | n, c :: cs => (step n c).bind fun m => if dir m then enters step dir m cs else none

/-- Every component but the last leads to a node that may be walked through. -/
def goes (step : N → C → Option N) (dir : N → Bool) : N → List C → Option N
  | n, [] => some n
  | n, [c] => step n c
  | n, c :: c' :: cs =>
    (step n c).bind fun m => if dir m then goes step dir m (c' :: cs) else none

/-- The nodes that a walk comes to. -/
def visits (step : N → C → Option N) (dir : N → Bool) : N → List C → List N
  | _, [] => []
  | n, c :: cs =>
    match step n c with
    | none => []
    | some m => m :: if dir m then visits step dir m cs else []

variable {step step' : N → C → Option N} {dir dir' : N → Bool}

theorem goes_snoc (n : N) (cs : List C) (c : C) :
    goes step dir n (cs ++ [c]) = (enters step dir n cs).bind (step · c) := by
  induction cs generalizing n with
  | nil => rfl
  | cons b cs ih =>
    have hcons : goes step dir n (b :: (cs ++ [c])) =
        (step n b).bind fun m => if dir m then goes step dir m (cs ++ [c]) else none := by
      cases cs <;> rfl
    rw [List.cons_append, hcons, enters]
    cases step n b with
    | none => rfl
    | some m =>
      rw [Option.bind_some, Option.bind_some, ih]
      by_cases hm : dir m = true
      · rw [if_pos hm, if_pos hm]
      · rw [if_neg hm, if_neg hm]
        rfl

theorem goes_cons_cons (n : N) (c : C) {cs : List C} (h : cs ≠ []) :
    goes step dir n (c :: cs) =
      (step n c).bind fun m => if dir m then goes step dir m cs else none := by
  cases cs with
  | nil => exact absurd rfl h
  | cons c' cs => rfl

theorem enters_snoc (n : N) (cs : List C) (c : C) :
    enters step dir n (cs ++ [c]) = (enters step dir n cs).bind fun m =>
      (step m c).bind fun k => if dir k then some k else none := by
  induction cs generalizing n with
  | nil => rfl
  | cons b cs ih =>
    rw [List.cons_append, enters, enters]
    cases step n b with
    | none => rfl
    | some m =>
      rw [Option.bind_some, Option.bind_some]
      by_cases hm : dir m = true
      · rw [if_pos hm, if_pos hm, ih]
      · rw [if_neg hm, if_neg hm]
        rfl

/-- What is entered can also be walked to. -/
theorem goes_of_enters {n m : N} {cs : List C} (h : enters step dir n cs = some m) :
    goes step dir n cs = some m := by
  induction cs using List.reverseRecOn generalizing m with
  | nil => exact h
  | append_singleton cs c =>
    rw [goes_snoc]
    rw [enters_snoc] at h
    obtain ⟨k, hk, h⟩ := Option.bind_eq_some_iff.mp h
    obtain ⟨k', hk', h⟩ := Option.bind_eq_some_iff.mp h
    split at h
    · cases h
      rw [hk, Option.bind_some, hk']
    · cases h

/-- Where the steps within a set `P` are steps of another structure too, the walks lead to the same
    nodes there. -/
theorem enters_mono {P : N → Prop}
    (hstep : ∀ n c m, P n → step n c = some m → step' n c = some m ∧ P m)
    (hdir : ∀ n, P n → dir n = true → dir' n = true) {n m : N} {cs : List C} (hn : P n)
    (h : enters step dir n cs = some m) : enters step' dir' n cs = some m := by
  induction cs generalizing n with
  | nil => exact h
  | cons c cs ih =>
    rw [enters] at h ⊢
    obtain ⟨k, hk, h⟩ := Option.bind_eq_some_iff.mp h
    obtain ⟨hk', hP⟩ := hstep n c k hn hk
    split at h
    · next hd => rw [hk', Option.bind_some, if_pos (hdir k hP hd), ih hP h]
    · cases h

/-- A walk stays in a set that no step leaves. -/
theorem enters_mem {P : N → Prop} (hstep : ∀ n c m, P n → step n c = some m → P m) {n m : N}
    {cs : List C} (hn : P n) (h : enters step dir n cs = some m) : P m := by
  induction cs generalizing n with
  | nil => cases h; exact hn
  | cons c cs ih =>
    rw [enters] at h
    obtain ⟨k, hk, h⟩ := Option.bind_eq_some_iff.mp h
    split at h
    · exact ih (hstep n c k hn hk) h
    · cases h

theorem goes_mono {P : N → Prop}
    (hstep : ∀ n c m, P n → step n c = some m → step' n c = some m ∧ P m)
    (hdir : ∀ n, P n → dir n = true → dir' n = true) {n m : N} {cs : List C} (hn : P n)
    (h : goes step dir n cs = some m) : goes step' dir' n cs = some m := by
  induction cs using List.reverseRecOn with
  | nil => exact h
  | append_singleton cs c =>
    rw [goes_snoc] at h ⊢
    obtain ⟨k, hk, h⟩ := Option.bind_eq_some_iff.mp h
    rw [enters_mono hstep hdir hn hk, Option.bind_some]
    exact (hstep k c m (enters_mem (fun n c m hP hs => (hstep n c m hP hs).2) hn hk) h).1

theorem goes_mem {P : N → Prop} (hstep : ∀ n c m, P n → step n c = some m → P m) {n m : N}
    {cs : List C} (hn : P n) (h : goes step dir n cs = some m) : P m := by
  induction cs using List.reverseRecOn with
  | nil => cases h; exact hn
  | append_singleton cs c =>
    rw [goes_snoc] at h
    obtain ⟨k, hk, h⟩ := Option.bind_eq_some_iff.mp h
    exact hstep k c m (enters_mem hstep hn hk) h

/-- Two structures whose steps agree on a set that no step leaves have the same walks there. -/
theorem enters_congr {P : N → Prop} (hclosed : ∀ x c m, P x → step x c = some m → P m)
    (hstep : ∀ x c, P x → step' x c = step x c) (hdir : ∀ x, P x → dir' x = dir x) {n : N}
    (hn : P n) (cs : List C) : enters step' dir' n cs = enters step dir n cs := by
  induction cs generalizing n with
  | nil => rfl
  | cons c cs ih =>
    rw [enters, enters, hstep n c hn]
    cases hm : step n c with
    | none => rfl
    | some m =>
      have hm' : P m := hclosed n c m hn hm
      rw [Option.bind_some, Option.bind_some, hdir m hm', ih hm']

theorem goes_congr {P : N → Prop} (hclosed : ∀ x c m, P x → step x c = some m → P m)
    (hstep : ∀ x c, P x → step' x c = step x c) (hdir : ∀ x, P x → dir' x = dir x) {n : N}
    (hn : P n) (cs : List C) : goes step' dir' n cs = goes step dir n cs := by
  induction cs using List.reverseRecOn with
  | nil => rfl
  | append_singleton cs c =>
    rw [goes_snoc, goes_snoc, enters_congr hclosed hstep hdir hn]
    cases hm : enters step dir n cs with
    | none => rfl
    | some m => exact hstep m c (enters_mem hclosed hn hm)

/-- A walk that enters its end enters a node that may be walked through. -/
theorem enters_dir {n m : N} {cs : List C} (hn : dir n = true)
    (h : enters step dir n cs = some m) : dir m = true := by
  induction cs generalizing n with
  | nil => cases h; exact hn
  | cons c cs ih =>
    rw [enters] at h
    obtain ⟨k, hk, h⟩ := Option.bind_eq_some_iff.mp h
    split at h
    · next hd => exact ih hd h
    · cases h

/-- What can be walked to and walked through can be entered. -/
theorem enters_eq_goes {n : N} (hn : dir n = true) (cs : List C) :
    enters step dir n cs = (goes step dir n cs).filter dir := by
  induction cs using List.reverseRecOn with
  | nil => exact (Option.filter_eq_some_iff.mpr ⟨rfl, hn⟩).symm
  | append_singleton cs c ih =>
    rw [goes_snoc, enters_snoc]
    cases enters step dir n cs with
    | none => rfl
    | some m =>
      rw [Option.bind_some, Option.bind_some]
      cases step m c with
      | none => rfl
      | some k => simp [Option.filter]

/-- The node `x` is taken away, and what led to it leads nowhere. Then the walks that came to it
    fail, and the others lead where they led. -/
theorem goes_remove [DecidableEq N] {P : N → Prop} {x : N}
    (hclosed : ∀ y c m, P y → step y c = some m → P m)
    (hstep : ∀ y c, P y → y ≠ x → step' y c = if step y c = some x then none else step y c)
    (hdir : ∀ y, P y → dir' y = dir y) {n : N} (hn : P n) (hne : n ≠ x) (cs : List C) :
    goes step' dir' n cs = if x ∈ visits step dir n cs then none else goes step dir n cs := by
  induction cs generalizing n with
  | nil =>
    rw [if_neg (by simp [visits])]
    rfl
  | cons c cs ih =>
    have hcons : ∀ (st : N → C → Option N) (d : N → Bool), goes st d n (c :: cs) =
        (st n c).bind fun m => if cs = [] then some m else if d m then goes st d m cs else none := by
      intro st d
      cases cs with
      | nil => simp [goes]
      | cons c' cs => rfl
    rw [hcons, hcons, hstep n c hn hne, visits]
    cases hm : step n c with
    | none => simp
    | some m =>
      by_cases hmx : m = x
      · subst hmx
        simp
      · have hm' : P m := hclosed n c m hn hm
        have hsome : some m ≠ some x := fun heq => hmx (Option.some.inj heq)
        rw [if_neg hsome, Option.bind_some, Option.bind_some, hdir m hm', ih hm' hmx]
        simp only [List.mem_cons, Ne.symm hmx, false_or]
        by_cases hd : dir m = true
        · rw [if_pos hd, if_pos hd, if_pos hd]
          by_cases hcs : cs = []
          · subst hcs
            simp [visits]
          · rw [if_neg hcs, if_neg hcs]
        · rw [if_neg hd, if_neg hd, if_neg hd, if_neg (List.not_mem_nil)]

/-- Among the nodes `P`, which no step leaves, the node `d` is entered by the path `w` only. It
    gets a child `n`, itself without children, under a name that it had no child under. Then one new path leads somewhere. Components are taken from `ok`. -/
theorem goes_addChild [DecidableEq C] {ok : C → Prop} {P : N → Prop} {root d n : N} {w : List C}
    {i : C} (hroot : dir root = true) (hP : P root)
    (hclosed : ∀ x c m, P x → step x c = some m → P m)
    (hw : enters step dir root w = some d)
    (honly : ∀ p, (∀ c ∈ p, ok c) → enters step dir root p = some d → p = w)
    (hdir : ∀ x, P x → dir' x = dir x) (hnone : step d i = none) (hnew : step' d i = some n)
    (hold : ∀ x c, P x → ok c → (x ≠ d ∨ c ≠ i) → step' x c = step x c)
    (hleaf : ∀ c, ok c → step' n c = none) :
    ∀ q, (∀ c ∈ q, ok c) →
      goes step' dir' root q = if q = w ++ [i] then some n else goes step dir root q := by
  intro q
  induction q using List.reverseRecOn with
  | nil =>
    intro _
    rw [if_neg (by simp)]
    rfl
  | append_singleton p c ih =>
    intro hq
    have hpok : ∀ c ∈ p, ok c := fun b hb => hq b (by simp [hb])
    have hc : ok c := hq c (by simp)
    have hroot' : dir' root = true := (hdir root hP).trans hroot
    rw [goes_snoc, goes_snoc, enters_eq_goes hroot', ih hpok]
    by_cases hpw : p = w ++ [i]
    · -- below the new node there is nothing, and there was nothing
      have hne : p ++ [c] ≠ w ++ [i] := fun he => by
        have := congrArg List.length he
        rw [hpw] at this
        simp at this
      have hbefore : enters step dir root p = none := by
        rw [hpw, enters_snoc, hw, Option.bind_some, hnone]
        rfl
      rw [if_pos hpw, if_neg hne, hbefore]
      cases hf : (some n).filter dir' with
      | none => rfl
      | some m =>
        have hm : m = n := (Option.some.inj (Option.filter_eq_some_iff.mp hf).1).symm
        rw [Option.bind_some, hm, hleaf c hc]
        rfl
    · rw [if_neg hpw, enters_eq_goes hroot]
      cases hg : goes step dir root p with
      | none =>
        have hne : p ++ [c] ≠ w ++ [i] := fun he => by
          obtain ⟨hp, -⟩ := List.append_inj' he rfl
          rw [hp, goes_of_enters hw] at hg
          cases hg
        rw [if_neg hne]
        rfl
      | some x =>
        have hx : P x := goes_mem hclosed hP hg
        have hfilter : (some x).filter dir' = (some x).filter dir := by
          simp only [Option.filter, hdir x hx]
        rw [hfilter]
        by_cases hxd : dir x = true
        · have henter : enters step dir root p = some x := by
            rw [enters_eq_goes hroot, hg]
            simp [hxd]
          have hsome : (some x).filter dir = some x := by simp [hxd]
          rw [hsome, Option.bind_some, Option.bind_some]
          by_cases heq : x = d ∧ c = i
          · obtain ⟨rfl, rfl⟩ := heq
            rw [if_pos (by rw [honly p hpok henter]), hnew]
          · have hne : p ++ [c] ≠ w ++ [i] := fun he => by
              obtain ⟨hp, hc'⟩ := List.append_inj' he rfl
              rw [hp, hw] at henter
              exact heq ⟨(Option.some.inj henter).symm, by simpa using hc'⟩
            rw [if_neg hne, hold x c hx hc (by tauto)]
        · have hsome : (some x).filter dir = none := by simp [hxd]
          have hne : p ++ [c] ≠ w ++ [i] := fun he => by
            obtain ⟨hp, -⟩ := List.append_inj' he rfl
            rw [hp, goes_of_enters hw] at hg
            cases hg
            exact hxd (enters_dir hroot hw)
          rw [hsome, if_neg hne]
          rfl

end ProgLib
