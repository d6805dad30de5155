import ChocoOs.Lib.CString
import ChocoOs.Llama.Load
import ChocoOs.Vfs.Operations
import Mathlib.Data.List.DropRight
import Mathlib.Data.List.Find

/-!
# Finding a module

`module_find` of `initrd.c` looks for a module whose path ends with a name. A name without a separator
is then the end of the last component of the path, and need not be all of it.
-/

namespace ChocoOs.Initrd
open ProgLib ChocoOs.Vfs

/-- `struct limine_file`, as far as it is read: the path, and where the file is. -/
structure LimineFile where
  path : CString
  file : Mapped

/-- What the bootloader answers: nothing, or the modules in the order of the configuration. -/
abbrev ModuleResponse := Option (List LimineFile)

/-- The loop of `module_find` (`initrd.c:17-24`). -/
def findFrom (name : CString) : List LimineFile → Option LimineFile
  | [] => none
  | f :: rest =>
    let plen := f.path.length
    let nlen := name.length
    if nlen ≤ plen ∧ strcmp (f.path.drop (plen - nlen)).1 name.1 = 0 then some f
    else findFrom name rest

/-- `module_find` (`initrd.c:12-26`) -/
def moduleFind (response : ModuleResponse) (name : CString) : Option LimineFile :=
  match response with
  | none => none
  | some modules => findFrom name modules

/-- What follows the last separator. -/
def lastComponent (path : List UInt8) : List UInt8 := path.rtakeWhile (· != slash)

/-- `f` is the first in the list of which `p` holds. -/
def FirstIn {α : Type} (l : List α) (p : α → Prop) (f : α) : Prop :=
  p f ∧ ∃ before after, l = before ++ f :: after ∧ ∀ g ∈ before, ¬ p g

/-- The name is the end of the last component of the path. -/
def Ends (name : List UInt8) (f : LimineFile) : Prop := name <:+ lastComponent f.path.1

/-! ## What is found -/

theorem findFrom_eq_find? (name : CString) (modules : List LimineFile) :
    findFrom name modules = modules.find? fun f => decide (name.1 <:+ f.path.1) := by
  induction modules with
  | nil => rfl
  | cons f rest ih =>
    rw [findFrom]
    by_cases h : name.1 <:+ f.path.1
    · rw [if_pos (strcmp_drop_eq_zero.mpr h)]
      exact (List.find?_cons_of_pos (by simpa using h)).symm
    · rw [if_neg fun hends => h (strcmp_drop_eq_zero.mp hends), ih]
      exact (List.find?_cons_of_neg (by simpa using h)).symm

theorem moduleFind_eq_find? (response : ModuleResponse) (name : CString) :
    moduleFind response name =
      (response.getD []).find? fun f => decide (name.1 <:+ f.path.1) := by
  cases response with
  | none => rfl
  | some modules => exact findFrom_eq_find? name modules

/-- A list without separators ends the path exactly if it ends the last component. -/
theorem suffix_lastComponent_iff {name path : List UInt8} (h : slash ∉ name) :
    name <:+ lastComponent path ↔ name <:+ path := by
  constructor
  · intro hends
    exact hends.trans (List.rtakeWhile_suffix _ _)
  · rintro ⟨front, rfl⟩
    have hall : ∀ x ∈ name.reverse, (x != slash) = true := by
      intro x hx
      simpa using fun he : x = slash => h (he ▸ List.mem_reverse.mp hx)
    refine ⟨lastComponent front, ?_⟩
    rw [lastComponent, lastComponent, List.rtakeWhile, List.rtakeWhile, List.reverse_append,
      List.takeWhile_append_of_pos hall, List.reverse_append, List.reverse_reverse]

theorem find?_eq_some_iff_firstIn {α : Type} {l : List α} {p : α → Prop} [DecidablePred p] {f : α} :
    l.find? (fun g => decide (p g)) = some f ↔ FirstIn l p f := by
  simp only [List.find?_eq_some_iff_append, FirstIn, decide_eq_true_eq, Bool.not_eq_true',
    decide_eq_false_iff_not]

theorem FirstIn.congr {α : Type} {l : List α} {p q : α → Prop} {f : α} (h : ∀ g, p g ↔ q g) :
    FirstIn l p f ↔ FirstIn l q f := by
  simp only [FirstIn, h]

variable {response : ModuleResponse} {name : CString}

theorem moduleFind_eq_some_iff (hname : slash ∉ name.1) {f : LimineFile} :
    moduleFind response name = some f ↔ FirstIn (response.getD []) (Ends name.1) f := by
  rw [moduleFind_eq_find?, find?_eq_some_iff_firstIn]
  exact FirstIn.congr fun g => (suffix_lastComponent_iff hname).symm

theorem moduleFind_eq_none_iff (hname : slash ∉ name.1) :
    moduleFind response name = none ↔ ∀ g ∈ response.getD [], ¬ Ends name.1 g := by
  rw [moduleFind_eq_find?, List.find?_eq_none]
  refine forall₂_congr fun g _ => ?_
  rw [decide_eq_true_eq, Ends, suffix_lastComponent_iff hname]

/-- Where a name is the end only of components that it equals, the file of that name is found. -/
theorem moduleFind_exact (hname : slash ∉ name.1)
    (hwhole : ∀ g ∈ response.getD [], Ends name.1 g → lastComponent g.path.1 = name.1) :
    moduleFind response name =
      (response.getD []).find? fun f => decide (lastComponent f.path.1 = name.1) := by
  rw [moduleFind_eq_find?]
  refine List.find?_congr fun g hg => ?_
  rw [decide_eq_decide, ← suffix_lastComponent_iff hname]
  constructor
  · intro hends
    exact hwhole g hg hends
  · intro hsame
    rw [hsame]

/-! ## What a model is loaded from -/

/-- How `load_model` sees the modules. -/
def mapped (response : ModuleResponse) (name : List UInt8) : Option Mapped :=
  (moduleFind response (CString.ofBytes name)).map LimineFile.file

theorem mapped_cases (response : ModuleResponse) {name : List UInt8} (h0 : 0 ∉ name)
    (hname : slash ∉ name) :
    (mapped response name = none ∧ ∀ g ∈ response.getD [], ¬ Ends name g) ∨
      ∃ f, mapped response name = some f.file ∧ FirstIn (response.getD []) (Ends name) f := by
  rw [mapped, CString.ofBytes_eq h0]
  cases hfind : moduleFind response ⟨name, h0⟩ with
  | none => exact .inl ⟨rfl, (moduleFind_eq_none_iff hname).mp hfind⟩
  | some f => exact .inr ⟨f, rfl, (moduleFind_eq_some_iff hname).mp hfind⟩

/-- A byte that is not in `.bin` is in the name of the file only if it is in the name of the model. -/
theorem not_mem_fileName {model : List UInt8} {x : UInt8} (h : x ∉ model)
    (hbin : x ∉ ([46, 98, 105, 110] : List UInt8)) : x ∉ Llama.fileName model := by
  intro hx
  rcases List.mem_append.mp (List.mem_of_mem_take hx) with hx | hx
  · exact h hx
  · exact hbin hx

theorem not_mem_tokenizerFor (model : List UInt8) :
    0 ∉ Llama.tokenizerFor model ∧ slash ∉ Llama.tokenizerFor model := by
  unfold Llama.tokenizerFor
  split <;> decide

theorem fileName_of_length_le {model : List UInt8} (h : model.length ≤ 59) :
    Llama.fileName model = model ++ [46, 98, 105, 110] := by
  rw [Llama.fileName, List.take_of_length_le]
  rw [List.length_append]
  exact Nat.add_le_add_right h 4

/-- What `load_model` returns, by the modules whose last components end with the names it looks for. -/
inductive Loads (response : ModuleResponse) (model : List UInt8) (pick : Pick) (heap : Arena)
    (slots : Fin 2 → Llama.ModelSlot) : Option (Arena × Qwen.LoadResult Llama.Model) → Prop
  | already (i : Fin 2) (h : (slots i).loaded = true ∧ (slots i).name = model) :
      Loads response model pick heap slots (some (heap, .already))
  | full (h : ∀ i, (slots i).loaded = true) :
      Loads response model pick heap slots (some (heap, .failed))
  | noFile (h : ∀ g ∈ response.getD [], ¬ Ends (Llama.fileName model) g) :
      Loads response model pick heap slots (some (heap, .failed))
  | noTokenizer (h : ∀ g ∈ response.getD [], ¬ Ends (Llama.tokenizerFor model) g) :
      Loads response model pick heap slots (some (heap, .failed))
  | found (f tok : LimineFile) (hf : FirstIn (response.getD []) (Ends (Llama.fileName model)) f)
      (ht : FirstIn (response.getD []) (Ends (Llama.tokenizerFor model)) tok) :
      Loads response model pick heap slots (Llama.loadFile pick heap f.file tok.file)

theorem loads_loadModel (response : ModuleResponse) {model : CString} (hmodel : slash ∉ model.1)
    (pick : Pick) (heap : Arena) (slots : Fin 2 → Llama.ModelSlot) :
    Loads response model.1 pick heap slots
      (Llama.loadModel pick heap slots (mapped response) model.1) := by
  unfold Llama.loadModel
  split
  · rename_i hknown
    obtain ⟨i, hi⟩ := hknown
    exact .already i hi
  split
  · rename_i hfull
    exact .full hfull
  have h0 := not_mem_fileName model.2 (by decide)
  have hslash := not_mem_fileName hmodel (by decide)
  have htokenizer := not_mem_tokenizerFor model.1
  rcases mapped_cases response h0 hslash with ⟨hmod, hno⟩ | ⟨f, hmod, hf⟩
  · rw [hmod]
    exact .noFile hno
  rcases mapped_cases response htokenizer.1 htokenizer.2 with ⟨htok, hno⟩ | ⟨tok, htok, ht⟩
  · rw [hmod, htok]
    exact .noTokenizer hno
  · rw [hmod, htok]
    exact .found f tok hf ht

/-- For every list of modules and every name without a separator: `module_find` returns the first
    module whose last component ends with the name, and NULL if there is none. So does `load_model`
    choose what it maps. -/
theorem moduleFind_ends (response : ModuleResponse) {name model : CString}
    (hname : slash ∉ name.1) (hmodel : slash ∉ model.1) :
    (∀ f, moduleFind response name = some f ↔ FirstIn (response.getD []) (Ends name.1) f) ∧
    (moduleFind response name = none ↔ ∀ g ∈ response.getD [], ¬ Ends name.1 g) ∧
    (∀ pick heap slots, Loads response model.1 pick heap slots
      (Llama.loadModel pick heap slots (mapped response) model.1)) ∧
    (model.length ≤ 59 → Llama.fileName model.1 = model.1 ++ [46, 98, 105, 110]) :=
  ⟨fun _ => moduleFind_eq_some_iff hname, moduleFind_eq_none_iff hname,
    loads_loadModel response hmodel, fileName_of_length_le⟩

/-- An empty file at the path. -/
def emptyFile (path : CString) : LimineFile := ⟨path, ⟨0, 0, fun _ => 0, addrSpace_pos⟩⟩

/-- `/boot/stories15M.bin` -/
def storiesPath : CString :=
  ⟨[47, 98, 111, 111, 116, 47, 115, 116, 111, 114, 105, 101, 115, 49, 53, 77, 46, 98, 105, 110],
    by decide⟩

/-- `/boot/mystories15M.bin` -/
def otherPath : CString :=
  ⟨[47, 98, 111, 111, 116, 47, 109, 121, 115, 116, 111, 114, 105, 101, 115, 49, 53, 77, 46, 98, 105,
    110], by decide⟩

/-- `/boot/tokenizer.bin` -/
def tokenizerPath : CString :=
  ⟨[47, 98, 111, 111, 116, 47, 116, 111, 107, 101, 110, 105, 122, 101, 114, 46, 98, 105, 110],
    by decide⟩

/-- `stories15M.bin` -/
def storiesFile : CString :=
  ⟨[115, 116, 111, 114, 105, 101, 115, 49, 53, 77, 46, 98, 105, 110], by decide⟩

/-- `stories15M` -/
def storiesName : CString := ⟨[115, 116, 111, 114, 105, 101, 115, 49, 53, 77], by decide⟩

def otherModules : ModuleResponse :=
  some [emptyFile otherPath, emptyFile storiesPath, emptyFile tokenizerPath]

theorem moduleFind_ends_other :
    (∀ f, moduleFind otherModules storiesFile = some f ↔
      FirstIn (otherModules.getD []) (Ends storiesFile.1) f) ∧
    (moduleFind otherModules storiesFile = none ↔
      ∀ g ∈ otherModules.getD [], ¬ Ends storiesFile.1 g) ∧
    (∀ pick heap slots, Loads otherModules storiesName.1 pick heap slots
      (Llama.loadModel pick heap slots (mapped otherModules) storiesName.1)) ∧
    (storiesName.length ≤ 59 →
      Llama.fileName storiesName.1 = storiesName.1 ++ [46, 98, 105, 110]) :=
  moduleFind_ends otherModules (by decide) (by decide)

/-- `module_find("stories15M.bin")` returns `/boot/mystories15M.bin`, and `load_model("stories15M")`
    maps it. -/
theorem not_moduleFind_equals :
    (¬ ∀ (response : ModuleResponse) (name : CString), slash ∉ name.1 →
      (∀ f, moduleFind response name = some f ↔
        FirstIn (response.getD []) (fun g => lastComponent g.path.1 = name.1) f) ∧
      (moduleFind response name = none ↔
        ∀ g ∈ response.getD [], lastComponent g.path.1 ≠ name.1)) ∧
    lastComponent otherPath.1 ≠ storiesName.1 ++ [46, 98, 105, 110] ∧
    ∀ pick heap, Llama.loadModel pick heap (fun _ => ⟨[], false⟩) (mapped otherModules)
      storiesName.1 = Llama.loadFile pick heap (emptyFile otherPath).file
        (emptyFile tokenizerPath).file := by
  refine ⟨fun h => ?_, by decide, fun pick heap => ?_⟩
  · have hfind : moduleFind otherModules storiesFile = some (emptyFile otherPath) := rfl
    have hfirst := ((h otherModules storiesFile (by decide)).1 _).mp hfind
    exact absurd hfirst.1 (by decide)
  · rfl

end ChocoOs.Initrd
