import ChocoOs.Heap.Client
import ChocoOs.Qwen.Extents
import ChocoOs.Qwen.TokenizerFile

/-!
# Loading a checkpoint

`load_qwen` of `qwen.c`, called while nothing else uses the heap. `none` means that it does not
return as it should: a division traps, an `int` overflows, or `calloc` clears more than it has.
-/

namespace ChocoOs.Qwen
open ProgLib ChocoOs.Tok ChocoOs.Heap

/-- How a call of a loader ends. -/
inductive LoadResult (W : Type) where
  | failed
  | already
  | loaded (w : W)

/-- What `load_qwen` sets up (`qwen.c:104-113`). -/
structure Model where
  config : Config
  weights : TransformerWeights
  tokenizer : FileTokenizer

/-- What the seven calls of `map_tensors` ask for (`qwen.c:194-196`). -/
def tableSizes (c : Config) : List Nat := List.replicate 7 (arraySize c.nLayers 16)

/-- `alloc_run_state` (`qwen.c:210-243`). The second component says that it returns 0. -/
def allocRunState (pick : Pick) (c : Config) (heap : Arena) : Option (Arena × Bool) := do
  let kvDim := mul64 (u64 c.nKvHeads) (u64 c.headDim)
  let allHeadsDim ← mulInt c.nHeads c.headDim
  let xbDim := if allHeadsDim > c.dim then allHeadsDim else c.dim
  let xGroups ← divInt xbDim c.groupSize
  let hiddenGroups ← divInt c.hiddenDim c.groupSize
  let cache := mul64 (mul64 (u64 c.nLayers) (u64 c.seqLen)) kvDim
  Client.callocs pick [(u64 c.dim, 4), (u64 xbDim, 4), (u64 c.hiddenDim, 4), (u64 c.hiddenDim, 4),
    (u64 xbDim, 1), (u64 xGroups, 4), (u64 c.hiddenDim, 1), (u64 hiddenGroups, 4),
    (u64 allHeadsDim, 4), (mul64 (u64 c.nHeads) (u64 c.seqLen), 4), (u64 c.vocabSize, 4), (cache, 4),
    (cache, 4), (u64 (c.headDim.tdiv 2), 4)] heap

/-- `load_qwen` (`qwen.c:295-377`). `mod` and `tok` are what `module_find` returns. -/
def loadQwen (pick : Pick) (heap : Arena) (loaded : Bool) (mod tok : Option Mapped) :
    Option (Arena × LoadResult Model) :=
  if loaded then some (heap, .already)
  else
    match mod, tok with
    | some mod, some tok =>
      if ¬ GoodMagic mod then some (heap, .failed)
      else
        let c := readConfig mod
        if c.groupSize = 0 then none
        else
          let tables := Client.mallocs pick (tableSizes c) heap
          if tables.2 = false then some (tables.1, .failed)
          else
            (allocRunState pick c tables.1).bind fun state =>
              if state.2 = false then some (state.1, .failed)
              else
                (buildTokenizer pick state.1 (tok.bytes 0 tok.size) c.vocabSize).map fun
                  | (heap, none) => (heap, .failed)
                  | (heap, some t) => (heap, .loaded ⟨c, mapWeights c mod.address, t⟩)
    | _, _ => some (heap, .failed)

/-! ## The run state -/

/-- `xb_dim` -/
def Config.xbDim (c : Config) : Int :=
  if c.nHeads * c.headDim > c.dim then c.nHeads * c.headDim else c.dim

/-- `alloc_run_state` computes its sizes. -/
structure Config.Computes (c : Config) : Prop where
  heads : -2 ^ 31 ≤ c.nHeads * c.headDim ∧ c.nHeads * c.headDim < 2 ^ 31
  group : c.groupSize ≠ 0
  xGroups : ¬ (c.xbDim = -2 ^ 31 ∧ c.groupSize = -1)
  hiddenGroups : ¬ (c.hiddenDim = -2 ^ 31 ∧ c.groupSize = -1)

instance (c : Config) : Decidable c.Computes :=
  decidable_of_iff ((-2 ^ 31 ≤ c.nHeads * c.headDim ∧ c.nHeads * c.headDim < 2 ^ 31) ∧
    c.groupSize ≠ 0 ∧ ¬ (c.xbDim = -2 ^ 31 ∧ c.groupSize = -1) ∧
      ¬ (c.hiddenDim = -2 ^ 31 ∧ c.groupSize = -1))
    ⟨fun h => ⟨h.1, h.2.1, h.2.2.1, h.2.2.2⟩, fun h => ⟨h.heads, h.group, h.xGroups, h.hiddenGroups⟩⟩

/-- What `alloc_run_state` asks `calloc` for. -/
def Config.runState (c : Config) : List (Nat × Nat) :=
  let cache := mul64 (mul64 (u64 c.nLayers) (u64 c.seqLen)) (mul64 (u64 c.nKvHeads) (u64 c.headDim))
  [(u64 c.dim, 4), (u64 c.xbDim, 4), (u64 c.hiddenDim, 4), (u64 c.hiddenDim, 4), (u64 c.xbDim, 1),
    (u64 (c.xbDim.tdiv c.groupSize), 4), (u64 c.hiddenDim, 1),
    (u64 (c.hiddenDim.tdiv c.groupSize), 4), (u64 (c.nHeads * c.headDim), 4),
    (mul64 (u64 c.nHeads) (u64 c.seqLen), 4), (u64 c.vocabSize, 4), (cache, 4), (cache, 4),
    (u64 (c.headDim.tdiv 2), 4)]

/-- The sizes of the blocks. -/
def Config.stateSizes (c : Config) : List Nat :=
  c.runState.map fun q => Client.callocTotal q.1 q.2

theorem allocRunState_eq {pick : Pick} {c : Config} {heap : Arena} {r : Arena × Bool} :
    allocRunState pick c heap = some r ↔ c.Computes ∧ Client.Whole pick c.stateSizes heap ∧
      Client.mallocs pick c.stateSizes heap = r := by
  unfold allocRunState
  by_cases hheads : -2 ^ 31 ≤ c.nHeads * c.headDim ∧ c.nHeads * c.headDim < 2 ^ 31
  · simp only [mulInt, if_pos hheads, Option.bind_eq_bind, Option.bind_some]
    by_cases hx : c.groupSize = 0 ∨ (c.xbDim = -2 ^ 31 ∧ c.groupSize = -1)
    · have hno : divInt (if c.nHeads * c.headDim > c.dim then c.nHeads * c.headDim else c.dim)
          c.groupSize = none := if_pos hx
      rw [hno, Option.bind_none]
      refine iff_of_false (by rintro ⟨⟩) ?_
      rintro ⟨h, -⟩
      exact hx.elim h.group h.xGroups
    have hxGroups : divInt (if c.nHeads * c.headDim > c.dim then c.nHeads * c.headDim else c.dim)
        c.groupSize = some (c.xbDim.tdiv c.groupSize) := if_neg hx
    rw [hxGroups, Option.bind_some]
    by_cases hh : c.groupSize = 0 ∨ (c.hiddenDim = -2 ^ 31 ∧ c.groupSize = -1)
    · have hno : divInt c.hiddenDim c.groupSize = none := if_pos hh
      rw [hno, Option.bind_none]
      refine iff_of_false (by rintro ⟨⟩) ?_
      rintro ⟨h, -⟩
      exact hh.elim h.group h.hiddenGroups
    have hGroups : divInt c.hiddenDim c.groupSize = some (c.hiddenDim.tdiv c.groupSize) := if_neg hh
    rw [hGroups, Option.bind_some]
    have hcomputes : c.Computes :=
      ⟨hheads, fun h => hx (.inl h), fun h => hx (.inr h), fun h => hh (.inr h)⟩
    exact Client.callocs_eq.trans (and_iff_right hcomputes).symm
  · have hno : mulInt c.nHeads c.headDim = none := if_neg hheads
    rw [hno, Option.bind_eq_bind, Option.bind_none]
    refine iff_of_false (by rintro ⟨⟩) ?_
    rintro ⟨h, -⟩
    exact hheads h.heads

/-! ## How the call ends -/

/-- A call returns, and what it has loaded satisfies `P`. -/
def Sound {W : Type} (P : W → Prop) (o : Option (Arena × LoadResult W)) : Prop :=
  ∃ heap r, o = some (heap, r) ∧ ∀ w, r = .loaded w → P w

theorem not_sound_none {W : Type} {P : W → Prop} : ¬ Sound P (none : Option (Arena × LoadResult W)) := by
  rintro ⟨heap, r, h, -⟩
  cases h

theorem sound_failed {W : Type} {P : W → Prop} (heap : Arena) : Sound P (some (heap, .failed)) :=
  ⟨heap, .failed, rfl, nofun⟩

theorem sound_loaded {W : Type} {P : W → Prop} (heap : Arena) (w : W) :
    Sound P (some (heap, .loaded w)) ↔ P w := by
  constructor
  · rintro ⟨_, _, heq, h⟩
    obtain ⟨rfl, rfl⟩ := Prod.mk.inj (Option.some.inj heq)
    exact h w rfl
  · intro hw
    refine ⟨heap, .loaded w, rfl, fun w' heq => ?_⟩
    rwa [← LoadResult.loaded.inj heq]

theorem readConfig_bounds (m : Mapped) :
    (-2 ^ 31 ≤ (readConfig m).dim ∧ (readConfig m).dim < 2 ^ 31) ∧
      (-2 ^ 31 ≤ (readConfig m).groupSize ∧ (readConfig m).groupSize < 2 ^ 31) ∧
      (-2 ^ 31 ≤ (readConfig m).vocabSize ∧ (readConfig m).vocabSize < 2 ^ 31) := by
  simp only [readConfig]
  exact ⟨m.intAt_bounds 8, m.intAt_bounds 44, m.intAt_bounds 28⟩

/-- If the run state is granted then the group size is positive. -/
theorem Config.Computes.group_pos {c : Config} (h : c.Computes)
    (hdim : -2 ^ 31 ≤ c.dim ∧ c.dim < 2 ^ 31) {pick : Pick} {heap : Arena}
    (hgrant : Client.Granted pick c.stateSizes heap) : 0 < c.groupSize := by
  have hpos := hgrant.pos
  have hdim0 : 0 < c.dim :=
    Client.pos_of_callocTotal ⟨hdim.1, Int.le_of_lt hdim.2⟩ (hpos _ (by simp [stateSizes, runState]))
  have hxb : 0 < c.xbDim ∧ c.xbDim < 2 ^ 31 := by
    have := h.heads
    unfold xbDim
    split <;> omega
  have hquot : 0 < c.xbDim.tdiv c.groupSize := by
    refine Client.pos_of_callocTotal ?_ (hpos _ (by simp [stateSizes, runState]))
    have habs := Int.natAbs_tdiv_le_natAbs c.xbDim c.groupSize
    omega
  by_contra hneg
  have := Int.tdiv_nonpos_of_nonneg_of_nonpos (Int.le_of_lt hxb.1) (Int.not_lt.mp hneg)
  omega

/-- All pointers of the model, with all of their tensors, lie in the file. -/
def Model.Inside (file : Mapped) (m : Model) : Prop :=
  ∀ x ∈ m.weights.extents m.config, file.Inside x.1 x.2

/-- No size and no group size of the header makes the loader trap, and if the heap grants all that it
    asks for and the tokenizer file is complete, then the tensors fit in the file. -/
def LoadsInside (pick : Pick) (heap : Arena) (file tok : Mapped) : Prop :=
  let c := readConfig file
  let tables := Client.mallocs pick (tableSizes c) heap
  let state := Client.mallocs pick c.stateSizes tables.1
  c.groupSize ≠ 0 ∧ (Client.Granted pick (tableSizes c) heap →
    c.Computes ∧ Client.Whole pick c.stateSizes tables.1 ∧
      (Client.Granted pick c.stateSizes tables.1 →
        TokenizerLoads pick state.1 (tok.bytes 0 tok.size) c.vocabSize → c.Fits file.size))

instance (pick : Pick) (heap : Arena) (file tok : Mapped) :
    Decidable (LoadsInside pick heap file tok) := by
  unfold LoadsInside
  infer_instance

theorem loadQwen_sound_iff (pick : Pick) {heap : Arena} (hmax : heap.hi - heap.lo ≤ heapMax)
    (file tok : Mapped) :
    Sound (Model.Inside file) (loadQwen pick heap false (some file) (some tok)) ↔
      (GoodMagic file → LoadsInside pick heap file tok) := by
  obtain ⟨hdim, hgs, hvocab⟩ := readConfig_bounds file
  unfold loadQwen LoadsInside
  rw [if_neg Bool.false_ne_true]
  dsimp only
  by_cases hmagic : GoodMagic file
  swap
  · rw [if_pos hmagic]
    exact iff_of_true (sound_failed heap) fun h => absurd h hmagic
  rw [if_neg (not_not.mpr hmagic), forall_prop_of_true hmagic]
  by_cases hzero : (readConfig file).groupSize = 0
  · rw [if_pos hzero]
    exact iff_of_false not_sound_none fun h => h.1 hzero
  rw [if_neg hzero, and_iff_right hzero, ← Client.mallocs_granted, ← Client.mallocs_granted]
  have hregion := Client.mallocs_region pick (tableSizes (readConfig file)) heap
  generalize Client.mallocs pick (tableSizes (readConfig file)) heap = tables at hregion ⊢
  by_cases htables : tables.2 = false
  · rw [if_pos htables]
    exact iff_of_true (sound_failed _) fun h => absurd (htables.symm.trans h) Bool.false_ne_true
  rw [if_neg htables, forall_prop_of_true (Bool.eq_true_of_not_eq_false htables)]
  cases hstate : allocRunState pick (readConfig file) tables.1 with
  | none =>
    rw [Option.bind_none]
    refine iff_of_false not_sound_none ?_
    rintro ⟨hcomputes, hwhole, -⟩
    rw [allocRunState_eq.mpr ⟨hcomputes, hwhole, rfl⟩] at hstate
    cases hstate
  | some state =>
    obtain ⟨hcomputes, hwhole, heq⟩ := allocRunState_eq.mp hstate
    rw [and_iff_right hcomputes, and_iff_right hwhole, heq, Option.bind_some]
    by_cases hfail : state.2 = false
    · rw [if_pos hfail]
      exact iff_of_true (sound_failed _) fun h => absurd (hfail.symm.trans h) Bool.false_ne_true
    have hok : state.2 = true := Bool.eq_true_of_not_eq_false hfail
    rw [if_neg hfail, forall_prop_of_true hok]
    have hgrant : Client.Granted pick (readConfig file).stateSizes tables.1 :=
      Client.mallocs_granted.mp (heq ▸ hok)
    have hregion' := Client.mallocs_region pick (readConfig file).stateSizes tables.1
    rw [heq] at hregion'
    have hmax' : state.1.hi - state.1.lo ≤ heapMax := by
      rw [hregion'.1, hregion'.2, hregion.1, hregion.2]
      exact hmax
    obtain ⟨heap', t, hbuild, -, hloads⟩ := buildTokenizer_eq pick (tok.bytes 0 tok.size) hmax' hvocab
    rw [hbuild, Option.map_some]
    cases t with
    | none =>
      exact iff_of_true (sound_failed _) fun h => absurd (hloads.mpr h) nofun
    | some t =>
      have hpos := hcomputes.group_pos hdim hgrant
      rw [sound_loaded, forall_prop_of_true (hloads.mp rfl)]
      exact mapWeights_inside_iff ⟨hpos, by rw [addrSpace_eq]; omega⟩ file

/-! ## What a failed call leaves behind -/

/-- The heap has the same blocks as before, and `heap_used()`, which depends on the heap only, is the
    same. -/
def Unchanged (used : Arena → Nat) (heap heap' : Arena) : Prop :=
  heap'.live = heap.live ∧ used heap' = used heap

theorem unchanged_refl (used : Arena → Nat) (heap : Arena) : Unchanged used heap heap := ⟨rfl, rfl⟩

/-- A granted request is there for good. -/
theorem not_unchanged {used : Arena → Nat} {pick : Pick} {sizes : List Nat} {heap heap' : Arena}
    (hne : ¬ Client.Refused pick sizes heap)
    (hmore : (Client.mallocs pick sizes heap).1.live <:+ heap'.live) : ¬ Unchanged used heap heap' := by
  rintro ⟨hlive, -⟩
  rw [hlive] at hmore
  apply hne
  rw [← Client.mallocs_live_iff]
  exact hmore.eq_of_length_le (Client.mallocs_suffix pick sizes heap).length_le

/-- When `load_qwen` fails the heap is as before exactly if it was not asked at all, or it had
    refused the tables of the layers. -/
theorem loadQwen_unchanged_iff (used : Arena → Nat) (pick : Pick) {heap heap' : Arena}
    (hmax : heap.hi - heap.lo ≤ heapMax) {loaded : Bool} {mod tok : Option Mapped}
    (h : loadQwen pick heap loaded mod tok = some (heap', .failed)) :
    Unchanged used heap heap' ↔ ∀ file file', mod = some file → tok = some file' → GoodMagic file →
      Client.Refused pick (tableSizes (readConfig file)) heap := by
  unfold loadQwen at h
  split at h
  · cases h
  split at h
  swap
  · next hmissing =>
    cases h
    exact iff_of_true (unchanged_refl used heap) fun file file' hmod htok =>
      (hmissing file file' hmod htok).elim
  next file tok =>
  have hcond : (∀ file₁ file₂, some file = some file₁ → some tok = some file₂ → GoodMagic file₁ →
      Client.Refused pick (tableSizes (readConfig file₁)) heap) ↔
        (GoodMagic file → Client.Refused pick (tableSizes (readConfig file)) heap) :=
    ⟨fun hall => hall file tok rfl rfl, fun hone _ _ hmod _ => Option.some.inj hmod ▸ hone⟩
  rw [hcond]
  split at h
  · next hmagic =>
    cases h
    exact iff_of_true (unchanged_refl used heap) fun hgood => absurd hgood hmagic
  next hmagic =>
  rw [forall_prop_of_true (not_not.mp hmagic)]
  extract_lets c tables at h
  split at h
  · cases h
  split at h
  · -- a table is refused
    obtain ⟨rfl, -⟩ := Prod.mk.inj (Option.some.inj h)
    constructor
    · exact fun hsame => Client.mallocs_live_iff.mp hsame.1
    · intro hrefused
      rw [Client.mallocs_of_refused hrefused]
      exact unchanged_refl used heap
  next htables =>
  have hgrant : Client.Granted pick (tableSizes c) heap :=
    Client.mallocs_granted.mp (Bool.eq_true_of_not_eq_false htables)
  have hne := hgrant.not_refused
  obtain ⟨state, hstate, h⟩ := Option.bind_eq_some_iff.mp h
  obtain ⟨-, -, heq⟩ := allocRunState_eq.mp hstate
  have hmore := Client.mallocs_suffix pick c.stateSizes tables.1
  rw [heq] at hmore
  refine iff_of_false ?_ hne
  split at h
  · cases h
    exact not_unchanged hne hmore
  obtain ⟨r, hbuild, h⟩ := Option.map_eq_some_iff.mp h
  have hregion := Client.mallocs_region pick (tableSizes c) heap
  have hregion' := Client.mallocs_region pick c.stateSizes tables.1
  rw [heq, hregion.1, hregion.2] at hregion'
  obtain ⟨heap₁, t, hbuild', hsuffix, -⟩ := buildTokenizer_eq pick (tok.bytes 0 tok.size)
    (hregion'.1 ▸ hregion'.2 ▸ hmax) (readConfig_bounds file).2.2
  rw [hbuild'] at hbuild
  cases hbuild
  cases t with
  | none =>
    cases h
    exact not_unchanged hne (hmore.trans hsuffix)
  | some t => cases h

end ChocoOs.Qwen
