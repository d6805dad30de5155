import ChocoOs.Vfs.Paths
import ChocoOs.Vfs.Run

/-!
# Absolute paths

`vfs_node_path` climbs from a node to the root, keeps at most 32 nodes on the way, and prints
their names from the top down. Resolving a printed path leads back to the node.
-/

namespace ChocoOs.Vfs
open ProgLib

/-- `if (pos + 1 < size) buf[pos++] = c`. -/
def putChar (size : Nat) (buf : CStr) (c : UInt8) : CStr :=
  if buf.length + 1 < size then buf ++ [c] else buf

/-- The bytes that `strlcpy` stores (`string.c:56-66`). -/
def strlcpyBytes (src : CStr) (size : Nat) : List UInt8 :=
  if size = 0 then [] else src.take (size - 1) ++ [0]

/-- The nodes from below the root down to `n`. -/
inductive Ancestry (s : Fs) : Nat → List Nat → Prop
  | root : Ancestry s s.rootNode []
  | child {n : Nat} {ps : List Nat} : InTree s n → n ≠ s.rootNode →
      Ancestry s (s.node n).parent ps → Ancestry s n (ps ++ [n])

theorem Ancestry.ne_nil {s : Fs} {n : Nat} {ps : List Nat} (h : Ancestry s n ps)
    (hne : n ≠ s.rootNode) : ps ≠ [] := by
  cases h with
  | root => exact absurd rfl hne
  | child => simp

theorem Ancestry.mem {s : Fs} {n x : Nat} {ps : List Nat} (h : Ancestry s n ps) (hx : x ∈ ps) :
    InTree s x ∧ x ≠ s.rootNode := by
  induction h with
  | root => cases hx
  | child htree hne _ ih =>
    rcases List.mem_append.mp hx with hx | hx
    · exact ih hx
    · rw [List.mem_singleton.mp hx]
      exact ⟨htree, hne⟩

/-- Names that a path can spell: they have no slash and are not `.` or `..`. -/
def PlainNames (s : Fs) : Prop :=
  ∀ x, InTree s x → x ≠ s.rootNode →
    slash ∉ (s.node x).name ∧ (s.node x).name ≠ [dot] ∧ (s.node x).name ≠ [dot, dot]

/-- The name of a node leads to it from its parent. -/
theorem FsInv.stepTo_name {s : Fs} {nodes : List Nat} {kids : Nat → List Nat}
    (h : FsInv s nodes kids) {x : Nat} (hx : x ∈ nodes) (hdot : (s.node x).name ≠ [dot])
    (hdots : (s.node x).name ≠ [dot, dot]) :
    stepTo s kids (s.node x).parent (s.node x).name = some x := by
  obtain ⟨hpar, hkid⟩ := h.links.tree.listed x hx
  unfold stepTo
  rw [if_neg hdot, if_neg hdots]
  cases hfind : (kids (s.node x).parent).find? fun y => (s.node y).name == (s.node x).name with
  | none => simpa using List.find?_eq_none.mp hfind x hkid
  | some y =>
    -- siblings have different names
    have hname : (s.node y).name = (s.node x).name := by simpa using List.find?_some hfind
    rw [h.links.name_inj hpar (List.mem_of_find?_eq_some hfind) hkid hname]

/-- The names of the ancestry lead from the root to the node. -/
theorem FsInv.goes_ancestry {s : Fs} {nodes : List Nat} {kids : Nat → List Nat}
    (h : FsInv s nodes kids) (hplain : PlainNames s) {n : Nat} {ps : List Nat}
    (hps : Ancestry s n ps) :
    goes (stepTo s kids) (isDirAt s) s.rootNode (ps.map fun x => (s.node x).name) = some n ∧
      (isDirAt s n = true → enters (stepTo s kids) (isDirAt s) s.rootNode
        (ps.map fun x => (s.node x).name) = some n) := by
  induction hps with
  | root => exact ⟨rfl, fun _ => rfl⟩
  | @child n ps htree hne hps ih =>
    have hmem := (List.mem_cons.mp ((h.inTree_iff n).mp htree)).resolve_left hne
    obtain ⟨-, hdot, hdots⟩ := hplain n htree hne
    obtain ⟨hpar, hkid⟩ := h.links.tree.listed n hmem
    have hdir : isDirAt s (s.node n).parent = true :=
      h.links.dirs _ hpar (List.ne_nil_of_mem hkid)
    have hstep := h.stepTo_name hmem hdot hdots
    rw [List.map_append, List.map_singleton]
    constructor
    · rw [goes_snoc, ih.2 hdir, Option.bind_some, hstep]
    · intro hn
      rw [enters_snoc, ih.2 hdir, Option.bind_some, hstep, Option.bind_some, if_pos hn]

/-- Every node of the tree has an ancestry. -/
theorem FsInv.exists_ancestry {s : Fs} {nodes : List Nat} {kids : Nat → List Nat}
    (h : FsInv s nodes kids) {n : Nat} (hn : InTree s n) : ∃ ps, Ancestry s n ps := by
  refine h.links.tree.induction (P := fun x => ∃ ps, Ancestry s x ps) ⟨[], .root⟩
    (fun c hc hp => ?_) n ((h.inTree_iff n).mp hn)
  obtain ⟨ps, hps⟩ := hp
  have htree : InTree s c := (h.inTree_iff c).mpr (by simp [hc])
  exact ⟨_, .child htree (fun he => (List.nodup_cons.mp h.links.tree.nodup).1 (he ▸ hc)) hps⟩

/-- The tree is within every set of nodes that pointers do not leave. -/
theorem inTree_subset {s : Fs} {L : List Nat} (hroot : s.rootNode ∈ L)
    (hclosed : ∀ x ∈ L, ((s.node x).children = 0 ∨ (s.node x).children ∈ L) ∧
      ((s.node x).next = 0 ∨ (s.node x).next ∈ L)) {x : Nat} (hx : InTree s x) : x ∈ L := by
  induction hx with
  | root => exact hroot
  | first _ h0 ih => exact (hclosed _ ih).1.resolve_left h0
  | next _ h0 ih => exact (hclosed _ ih).2.resolve_left h0

end ChocoOs.Vfs
