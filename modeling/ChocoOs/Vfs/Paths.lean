import ChocoOs.Vfs.Directories
import ChocoOs.Lib.Fields
import ChocoOs.Lib.Resolve
import Mathlib.Data.List.DropRight
import Mathlib.Data.List.Pairwise
import Mathlib.Tactic.ByContra

/-!
# Path resolution

`walk` of `vfs.c` goes down a path one component at a time. `stepTo` is what one component means
in the tree, and a walk is the fold of it over the components of the path.
-/

namespace ChocoOs.Vfs
open ProgLib

/-- Where a path starts (`vfs.c:37`). -/
def startDir (s : Fs) (path : CStr) (cwd : Nat) : Nat :=
  if path[0]? = some slash then s.rootNode else if cwd ≠ 0 then cwd else s.rootNode

/-- The node that one component leads to (`vfs.c:69-75`), or null. -/
def walkStep (s : Fs) (cur : Nat) (start : CStr) (len : Nat) : Option Nat :=
  if len = 1 ∧ start[0]? = some dot then some cur
  else if len = 2 ∧ start[0]? = some dot ∧ start[1]? = some dot then
    some (if (s.node cur).parent ≠ 0 then (s.node cur).parent else cur)
  else dirFind s cur start len

/-- One round of `walk` (`vfs.c:50-84`). `leaf` is what the caller's pointer holds. -/
def walkRound (s : Fs) (stopAtLast : Bool) (leaf : Option CStr) :
    Nat × CStr → Option (LoopStep (Nat × CStr) (Nat × Option CStr))
  | (cur, start) =>
    let len := (start.takeWhile (· != slash)).length
    let rest := skipSlashes (start.drop len)
    if rest = [] ∧ stopAtLast then some (.done (cur, some start))
    else do
      let nxt ← walkStep s cur start len
      if nxt = 0 ∨ (rest ≠ [] ∧ (s.node nxt).isDir = false) then return .done (0, leaf)
      if rest = [] then return .done (nxt, leaf)
      return .next (nxt, rest)

/-- `walk` (`vfs.c:34-85`): the node, and the leaf that the caller's pointer holds afterwards. -/
def walkPath (s : Fs) (path : CStr) (cwd : Nat) (stopAtLast : Bool) (leaf : Option CStr) :
    Option (Nat × Option CStr) :=
  if skipSlashes path = [] then some (if stopAtLast then 0 else startDir s path cwd, none)
  else
    loop (walkRound s stopAtLast leaf) (path.length + 1) (startDir s path cwd, skipSlashes path)

/-- `vfs_resolve` (`vfs.c:87-90`). -/
def vfsResolve (s : Fs) (path : CStr) (cwd : Nat) : Option Nat :=
  (walkPath s path cwd false none).map Prod.fst

/-- `vfs_resolve_parent` (`vfs.c:92-95`). -/
def vfsResolveParent (s : Fs) (path : CStr) (cwd : Nat) (leaf : Option CStr) :
    Option (Nat × Option CStr) :=
  walkPath s path cwd true leaf

/-- The components of a path. -/
def components (path : CStr) : List CStr := fields (· == slash) path

/-- The node that the component `c` leads to from `d`. -/
def stepTo (s : Fs) (kids : Nat → List Nat) (d : Nat) (c : CStr) : Option Nat :=
  if c = [dot] then some d
  else if c = [dot, dot] then
    some (if (s.node d).parent ≠ 0 then (s.node d).parent else d)
  else (kids d).find? fun x => (s.node x).name == c

def isDirAt (s : Fs) (x : Nat) : Bool := (s.node x).isDir

/-! ## One component -/

theorem components_skipSlashes (p : CStr) : components (skipSlashes p) = components p :=
  fields_dropWhile _ p

theorem skipSlashes_idem (p : CStr) : skipSlashes (skipSlashes p) = skipSlashes p :=
  List.dropWhile_idempotent _ p

theorem skipSlashes_head {p : CStr} {a : UInt8} {xs : CStr} (h : skipSlashes p = a :: xs) :
    a ≠ slash := by
  have := List.head?_dropWhile_not (· == slash) p
  unfold skipSlashes at h
  rw [h] at this
  simpa using this

theorem components_eq_nil {p : CStr} : components p = [] ↔ skipSlashes p = [] := by
  rw [← components_skipSlashes]
  constructor
  · intro h
    cases hp : skipSlashes p with
    | nil => rfl
    | cons a xs =>
      rw [hp, components, fields_eq_cons (by simpa using skipSlashes_head hp)] at h
      cases h
  · intro h
    rw [h]
    rfl

/-- A path that does not begin with a slash has a first component, and the scan finds it. -/
theorem components_eq_cons {a : UInt8} {xs : CStr} (ha : a ≠ slash) :
    components (a :: xs) = (a :: xs).takeWhile (· != slash) ::
      components (skipSlashes ((a :: xs).drop ((a :: xs).takeWhile (· != slash)).length)) := by
  have hdrop : (a :: xs).drop ((a :: xs).takeWhile (· != slash)).length =
      (a :: xs).dropWhile (· != slash) := by
    have := congrArg (List.drop ((a :: xs).takeWhile (· != slash)).length)
      (List.takeWhile_append_dropWhile (p := (· != slash)) (l := a :: xs))
    rw [List.drop_left] at this
    exact this.symm
  rw [hdrop, components_skipSlashes]
  exact fields_eq_cons (by simpa using ha) xs

theorem component_ne {c p : CStr} (h : c ∈ components p) : c ≠ [] ∧ slash ∉ c := by
  obtain ⟨hne, hc⟩ := mem_fields h
  exact ⟨hne, fun hs => by simpa using hc _ hs⟩

/-- The test for the component `.`. -/
theorem isDot_iff {start : CStr} {len : Nat} (hlen : len ≤ start.length) :
    (len = 1 ∧ start[0]? = some dot) ↔ start.take len = [dot] := by
  constructor
  · rintro ⟨rfl, h0⟩
    cases start with
    | nil => cases h0
    | cons a xs => simpa using h0
  · intro ht
    have hl := congrArg List.length ht
    rw [List.length_take, List.length_singleton] at hl
    have h1 : len = 1 := by omega
    subst h1
    cases start with
    | nil => cases ht
    | cons a xs => exact ⟨rfl, by simpa using ht⟩

/-- The test for the component `..`. -/
theorem isDots_iff {start : CStr} {len : Nat} (hlen : len ≤ start.length) :
    (len = 2 ∧ start[0]? = some dot ∧ start[1]? = some dot) ↔ start.take len = [dot, dot] := by
  constructor
  · rintro ⟨rfl, h0, h1⟩
    match start, h0, h1 with
    | a :: b :: xs, h0, h1 =>
      simp only [List.getElem?_cons_zero, Option.some.injEq] at h0
      simp only [List.getElem?_cons_succ, List.getElem?_cons_zero, Option.some.injEq] at h1
      rw [h0, h1]
      rfl
  · intro ht
    have hl := congrArg List.length ht
    rw [List.length_take, List.length_cons, List.length_singleton] at hl
    have h2 : len = 2 := by omega
    subst h2
    match start, ht with
    | a :: b :: xs, ht =>
      simp only [List.take_succ_cons, List.take_zero, List.cons.injEq, and_true] at ht
      exact ⟨rfl, by simp [ht.1], by simp [ht.2]⟩

/-- `walk` takes the step that the component means. -/
theorem FsInv.walkStep_eq {s : Fs} {nodes : List Nat} {kids : Nat → List Nat} {cur len : Nat}
    {start : CStr} (h : FsInv s nodes kids) (hcur : cur ∈ s.rootNode :: nodes)
    (hlen : len ≤ start.length) :
    walkStep s cur start len = some ((stepTo s kids cur (start.take len)).getD 0) := by
  have hone := isDot_iff hlen
  have htwo := isDots_iff hlen
  unfold walkStep stepTo
  by_cases h1 : start.take len = [dot]
  · rw [if_pos (hone.mpr h1), if_pos h1]
    rfl
  rw [if_neg (mt hone.mp h1), if_neg h1]
  by_cases h2 : start.take len = [dot, dot]
  · rw [if_pos (htwo.mpr h2), if_pos h2]
    rfl
  rw [if_neg (mt htwo.mp h2), if_neg h2, h.dirFind_eq hcur]
  congr 2
  refine congrArg (List.find? · (kids cur)) ?_
  funext x
  rw [Bool.eq_iff_iff, nameMatches_iff hlen, beq_iff_eq]

/-- Siblings of one name are one node. -/
theorem Links.name_inj {node : Nat → VfsNode} {root : Nat} {nodes : List Nat}
    {kids : Nat → List Nat} {d b c : Nat} (h : Links node root nodes kids)
    (hd : d ∈ root :: nodes) (hb : b ∈ kids d) (hc : c ∈ kids d)
    (hname : (node b).name = (node c).name) : b = c := by
  have : Std.Symm fun b c => (node b).name ≠ (node c).name := ⟨fun _ _ hne => hne.symm⟩
  by_contra hbc
  exact (h.names d hd).forall hb hc hbc hname

/-- A step from a node of the tree leads to a node of the tree. -/
theorem FsInv.stepTo_mem {s : Fs} {nodes : List Nat} {kids : Nat → List Nat} {d m : Nat}
    {c : CStr} (h : FsInv s nodes kids) (hd : d ∈ s.rootNode :: nodes)
    (hm : stepTo s kids d c = some m) : m ∈ s.rootNode :: nodes := by
  unfold stepTo at hm
  split at hm
  · cases hm; exact hd
  · split at hm
    · split at hm
      · next hp =>
        cases hm
        rcases List.mem_cons.mp hd with rfl | hd
        · exact absurd h.links.root_parent hp
        · exact (h.links.tree.listed d hd).1
      · cases hm; exact hd
    · exact List.mem_cons_of_mem _ (h.links.tree.child d hd m (List.mem_of_find?_eq_some hm)).1

/-! ## Whole paths -/

/-- The first component of a path and what is behind it, as `walk` finds them. -/
structure Scan (start c rest : CStr) : Prop where
  first : start.takeWhile (· != slash) = c
  behind : skipSlashes (start.drop c.length) = rest
  take : start.take c.length = c
  split : components start = c :: components rest
  shorter : rest.length < start.length

theorem scan {start : CStr} {a : UInt8} {xs : CStr} (h : start = a :: xs) (ha : a ≠ slash) :
    ∃ c rest, Scan start c rest := by
  have hne : start ≠ [] := by rw [h]; simp
  refine ⟨_, _, rfl, rfl, ?_, ?_, rest_length hne⟩
  · exact List.prefix_iff_eq_take.mp (List.takeWhile_prefix _) |>.symm
  · rw [h]
    exact components_eq_cons ha

/-- A round of `walk` that does not stop before the component. -/
theorem FsInv.walkRound_eq {s : Fs} {nodes : List Nat} {kids : Nat → List Nat} {cur : Nat}
    {start c rest : CStr} (stop : Bool) (leaf : Option CStr) (h : FsInv s nodes kids)
    (hcur : cur ∈ s.rootNode :: nodes) (hscan : Scan start c rest)
    (hgo : ¬ (rest = [] ∧ stop = true)) :
    walkRound s stop leaf (cur, start) = some (match stepTo s kids cur c with
      | none => .done (0, leaf)
      | some m => if rest = [] then .done (m, leaf)
        else if isDirAt s m then .next (m, rest) else .done (0, leaf)) := by
  have hlen : c.length ≤ start.length := by
    have := congrArg List.length hscan.take
    rw [List.length_take] at this
    omega
  have hstep := h.walkStep_eq hcur hlen
  rw [hscan.take] at hstep
  simp only [walkRound, hscan.first, hscan.behind]
  rw [if_neg hgo, hstep, Option.bind_eq_bind, Option.bind_some]
  cases hm : stepTo s kids cur c with
  | none => rw [Option.getD_none, if_pos (.inl rfl)]; rfl
  | some m =>
    have h0 : m ≠ 0 := h.ne_zero (h.stepTo_mem hcur hm)
    simp only [Option.getD_some]
    by_cases hrest : rest = []
    · rw [if_neg (by simp [h0, hrest]), if_pos hrest, if_pos hrest]; rfl
    · simp only [if_neg hrest]
      by_cases hdir : isDirAt s m = true
      · rw [if_pos hdir, if_neg (by simp [h0, show (s.node m).isDir = true from hdir])]; rfl
      · rw [if_neg hdir, if_pos (.inr ⟨hrest, (Bool.not_eq_true _).mp hdir⟩)]; rfl

/-- `walk` to the end of a path follows its components. -/
theorem FsInv.loop_walk {s : Fs} {nodes : List Nat} {kids : Nat → List Nat}
    (leaf : Option CStr) (h : FsInv s nodes kids) :
    ∀ (fuel cur : Nat) (p : CStr), skipSlashes p = p → p ≠ [] → cur ∈ s.rootNode :: nodes →
      p.length < fuel → loop (walkRound s false leaf) fuel (cur, p) =
        some ((goes (stepTo s kids) (isDirAt s) cur (components p)).getD 0, leaf) := by
  intro fuel
  induction fuel with
  | zero => intro cur p _ _ _ hlt; exact absurd hlt (Nat.not_lt_zero _)
  | succ fuel ih =>
    intro cur p hskip hne hcur hlt
    obtain ⟨a, xs, hp⟩ := List.exists_cons_of_ne_nil hne
    obtain ⟨c, rest, hscan⟩ := scan hp (skipSlashes_head (hskip.trans hp))
    have hround := h.walkRound_eq false leaf hcur hscan (by simp)
    rw [hscan.split]
    cases hm : stepTo s kids cur c with
    | none =>
      rw [hm] at hround
      rw [loop_of_done hround]
      cases hcs : components rest with
      | nil => rw [goes, hm]; rfl
      | cons c' cs => rw [goes, hm]; rfl
    | some m =>
      simp only [hm] at hround
      by_cases hrest : rest = []
      · rw [if_pos hrest] at hround
        rw [loop_of_done hround, hrest, components, fields_nil, goes, hm]
        rfl
      · have hskip' : skipSlashes rest = rest := by
          rw [← hscan.behind]
          exact skipSlashes_idem _
        have hcs : components rest ≠ [] := fun hnil =>
          hrest (hskip'.symm.trans (components_eq_nil.mp hnil))
        rw [if_neg hrest] at hround
        rw [goes_cons_cons _ _ hcs, hm, Option.bind_some]
        by_cases hdir : isDirAt s m = true
        · rw [if_pos hdir] at hround
          rw [loop_of_next hround, if_pos hdir]
          exact ih m rest hskip' hrest (h.stepTo_mem hcur hm) (by have := hscan.shorter; omega)
        · rw [if_neg hdir] at hround
          rw [loop_of_done hround, if_neg hdir]
          rfl

/-- `walk` to the parent enters the components before the last; the leaf is the last component with
    the slashes behind it. -/
theorem FsInv.loop_walkParent {s : Fs} {nodes : List Nat} {kids : Nat → List Nat}
    (leaf : Option CStr) (h : FsInv s nodes kids) :
    ∀ (fuel cur : Nat) (p : CStr), skipSlashes p = p → p ≠ [] → cur ∈ s.rootNode :: nodes →
      p.length < fuel → ∃ cs c k, components p = cs ++ [c] ∧
        loop (walkRound s true leaf) fuel (cur, p) =
          some (match enters (stepTo s kids) (isDirAt s) cur cs with
            | none => (0, leaf)
            | some d => (d, some (c ++ List.replicate k slash))) := by
  intro fuel
  induction fuel with
  | zero => intro cur p _ _ _ hlt; exact absurd hlt (Nat.not_lt_zero _)
  | succ fuel ih =>
    intro cur p hskip hne hcur hlt
    obtain ⟨a, xs, hp⟩ := List.exists_cons_of_ne_nil hne
    obtain ⟨c, rest, hscan⟩ := scan hp (skipSlashes_head (hskip.trans hp))
    by_cases hrest : rest = []
    · -- the last component: the walk stops in front of it
      have hall : ∀ x ∈ p.drop c.length, x = slash := fun x hx => by
        simpa using List.dropWhile_eq_nil_iff.mp (hscan.behind.trans hrest) x hx
      refine ⟨[], c, (p.drop c.length).length, ?_, ?_⟩
      · rw [hscan.split, hrest]; rfl
      · have hround : walkRound s true leaf (cur, p) = some (.done (cur, some p)) := by
          simp only [walkRound, hscan.first, hscan.behind]
          rw [if_pos (by simp [hrest])]
        have hwhole : c ++ p.drop c.length = p := by
          have := List.take_append_drop c.length p
          rwa [hscan.take] at this
        rw [loop_of_done hround, enters, ← List.eq_replicate_of_mem hall, hwhole]
    · have hskip' : skipSlashes rest = rest := by
        rw [← hscan.behind]
        exact skipSlashes_idem _
      have hround := h.walkRound_eq true leaf hcur hscan (by simp [hrest])
      have hcs : components rest ≠ [] := fun hnil =>
        hrest (hskip'.symm.trans (components_eq_nil.mp hnil))
      rw [hscan.split]
      -- a step that fails, or that leads to a file, ends the walk
      have hstop : walkRound s true leaf (cur, p) = some (.done (0, leaf)) →
          (∀ bs, enters (stepTo s kids) (isDirAt s) cur (c :: bs) = none) →
          ∃ cs b k, c :: components rest = cs ++ [b] ∧
            loop (walkRound s true leaf) (fuel + 1) (cur, p) =
              some (match enters (stepTo s kids) (isDirAt s) cur cs with
                | none => (0, leaf)
                | some d => (d, some (b ++ List.replicate k slash))) := by
        intro hdone hnone
        refine ⟨c :: (components rest).dropLast, (components rest).getLast hcs, 0, ?_, ?_⟩
        · rw [List.cons_append, List.dropLast_append_getLast]
        · rw [loop_of_done hdone, hnone]
      cases hm : stepTo s kids cur c with
      | none =>
        simp only [hm] at hround
        exact hstop hround fun bs => by rw [enters, hm]; rfl
      | some m =>
        simp only [hm, if_neg hrest] at hround
        by_cases hdir : isDirAt s m = true
        · rw [if_pos hdir] at hround
          obtain ⟨cs, b, k, hsplit, hloop⟩ := ih m rest hskip' hrest (h.stepTo_mem hcur hm)
            (by have := hscan.shorter; omega)
          refine ⟨c :: cs, b, k, by rw [hsplit]; rfl, ?_⟩
          rw [loop_of_next hround, hloop, enters, hm, Option.bind_some, if_pos hdir]
        · rw [if_neg hdir] at hround
          exact hstop hround fun bs => by rw [enters, hm, Option.bind_some, if_neg hdir]

theorem startDir_mem {s : Fs} {nodes : List Nat} {cwd : Nat} (path : CStr)
    (hcwd : cwd = 0 ∨ cwd ∈ s.rootNode :: nodes) : startDir s path cwd ∈ s.rootNode :: nodes := by
  unfold startDir
  split
  · simp
  · split
    · next h0 => exact hcwd.resolve_left h0
    · simp

/-- `vfs_resolve` returns the node that the components lead to, or null. -/
theorem FsInv.vfsResolve_eq {s : Fs} {nodes : List Nat} {kids : Nat → List Nat} {path : CStr}
    {cwd : Nat} (h : FsInv s nodes kids) (hstart : startDir s path cwd ∈ s.rootNode :: nodes) :
    vfsResolve s path cwd = some ((goes (stepTo s kids) (isDirAt s) (startDir s path cwd)
      (components path)).getD 0) := by
  unfold vfsResolve walkPath
  by_cases hp : skipSlashes path = []
  · rw [if_pos hp, components_eq_nil.mpr hp]
    rfl
  · have := skipSlashes_length path
    rw [if_neg hp, h.loop_walk none _ _ _ (skipSlashes_idem path) hp hstart (by omega),
      components_skipSlashes]
    rfl

/-- `vfs_resolve_parent` of a path that has a component. -/
theorem FsInv.vfsResolveParent_eq {s : Fs} {nodes : List Nat} {kids : Nat → List Nat}
    {path : CStr} {cwd : Nat} (leaf : Option CStr) (h : FsInv s nodes kids)
    (hstart : startDir s path cwd ∈ s.rootNode :: nodes) (hne : components path ≠ []) :
    ∃ cs c k, components path = cs ++ [c] ∧ vfsResolveParent s path cwd leaf =
      some (match enters (stepTo s kids) (isDirAt s) (startDir s path cwd) cs with
        | none => (0, leaf)
        | some d => (d, some (c ++ List.replicate k slash))) := by
  have hp : skipSlashes path ≠ [] := fun hp => hne (components_eq_nil.mpr hp)
  have := skipSlashes_length path
  obtain ⟨cs, c, k, hsplit, hloop⟩ := h.loop_walkParent leaf (path.length + 1)
    (startDir s path cwd) _ (skipSlashes_idem path) hp hstart (by omega)
  refine ⟨cs, c, k, (components_skipSlashes path).symm.trans hsplit, ?_⟩
  unfold vfsResolveParent walkPath
  rw [if_neg hp, hloop]

/-- A path without components has no parent and no leaf. -/
theorem vfsResolveParent_of_nil {s : Fs} {path : CStr} (cwd : Nat) (leaf : Option CStr)
    (hnil : components path = []) : vfsResolveParent s path cwd leaf = some (0, none) := by
  unfold vfsResolveParent walkPath
  rw [if_pos (components_eq_nil.mp hnil)]
  rfl

end ChocoOs.Vfs
